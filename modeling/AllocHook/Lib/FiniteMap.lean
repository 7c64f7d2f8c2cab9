/-
Finite maps with one value type, as Mathlib's `Finmap`: what a lookup finds
after an insertion or an erasure, and the multiset of the values a map holds.

A sum or a count over a map is a function of that multiset, so an operation
is described once (`values_insert`, `values_erase`) and every total follows.
-/
import Mathlib.Data.Finmap
import Mathlib.Data.List.Sort
import Mathlib.Algebra.BigOperators.Group.Finset.Basic

namespace FiniteMap

/-- A finite map from `κ` to `α`. -/
abbrev Map (κ α : Type*) := Finmap fun _ : κ => α

variable {κ α : Type*} [DecidableEq κ]

theorem lookup_insert_eq (m : Map κ α) (k k' : κ) (v : α) :
    (m.insert k v).lookup k' = if k' = k then some v else m.lookup k' := by
  split
  · next h => subst h; exact Finmap.lookup_insert m
  · next h => exact Finmap.lookup_insert_of_ne m h

theorem lookup_erase_eq (m : Map κ α) (k k' : κ) :
    (m.erase k).lookup k' = if k' = k then none else m.lookup k' := by
  split
  · next h => subst h; exact Finmap.lookup_erase _ m
  · next h => exact Finmap.lookup_erase_ne h

theorem mem_iff_lookup_ne_none {m : Map κ α} {k : κ} : k ∈ m ↔ m.lookup k ≠ none := by
  rw [ne_eq, Finmap.lookup_eq_none, not_not]

theorem eq_empty_of_lookup {m : Map κ α} (h : ∀ k, m.lookup k = none) : m = ∅ :=
  Finmap.ext_lookup fun k => by rw [h k, Finmap.lookup_empty]

/-- Insertion that keeps an entry already there, as `unordered_map::emplace`. -/
def emplace (m : Map κ α) (k : κ) (v : α) : Map κ α :=
  if k ∈ m then m else m.insert k v

theorem emplace_of_notMem {m : Map κ α} {k : κ} (h : m.lookup k = none) (v : α) :
    emplace m k v = m.insert k v := by
  rw [emplace, if_neg (Finmap.lookup_eq_none.mp h)]

theorem mem_entries {m : Map κ α} {k : κ} {v : α} : ⟨k, v⟩ ∈ m.entries ↔ m.lookup k = some v := by
  induction m using Finmap.induction_on with
  | _ a => exact AList.mem_lookup_iff.symm

/-! ## The values of a map -/

/-- The values a map holds, each as often as there are keys holding it. -/
def values (m : Map κ α) : Multiset α := m.entries.map (·.2)

theorem mem_values {m : Map κ α} {v : α} : v ∈ values m ↔ ∃ k, m.lookup k = some v := by
  simp only [values, Multiset.mem_map]
  constructor
  · rintro ⟨⟨k, v⟩, h, rfl⟩; exact ⟨k, mem_entries.mp h⟩
  · rintro ⟨k, h⟩; exact ⟨⟨k, v⟩, mem_entries.mpr h, rfl⟩

theorem values_insert_of_notMem {m : Map κ α} {k : κ} (h : m.lookup k = none) (v : α) :
    values (m.insert k v) = v ::ₘ values m := by
  rw [values, Finmap.entries_insert_of_notMem (Finmap.lookup_eq_none.mp h), Multiset.map_cons, values]

theorem insert_erase_self (m : Map κ α) (k : κ) (v : α) : (m.erase k).insert k v = m.insert k v := by
  refine Finmap.ext_lookup fun k' => ?_
  rw [lookup_insert_eq, lookup_insert_eq, lookup_erase_eq]
  split <;> rfl

theorem erase_insert_self (m : Map κ α) (k : κ) (v : α) : (m.insert k v).erase k = m.erase k := by
  refine Finmap.ext_lookup fun k' => ?_
  rw [lookup_erase_eq, lookup_erase_eq, lookup_insert_eq]
  split <;> rfl

theorem insert_of_lookup {m : Map κ α} {k : κ} {v : α} (h : m.lookup k = some v) : m.insert k v = m := by
  refine Finmap.ext_lookup fun k' => ?_
  rw [lookup_insert_eq]
  split
  · next hk => rw [hk, h]
  · rfl

theorem insert_eq_self_iff {m : Map κ α} {k : κ} {v : α} : m.insert k v = m ↔ m.lookup k = some v := by
  constructor
  · intro h
    rw [← h, Finmap.lookup_insert]
  · exact insert_of_lookup

theorem values_insert (m : Map κ α) (k : κ) (v : α) :
    values (m.insert k v) = v ::ₘ values (m.erase k) := by
  rw [← insert_erase_self, values_insert_of_notMem (Finmap.lookup_erase k m)]

theorem erase_of_lookup_none {m : Map κ α} {k : κ} (h : m.lookup k = none) : m.erase k = m := by
  refine Finmap.ext_lookup fun k' => ?_
  rw [lookup_erase_eq]
  split
  · next hk => rw [hk, h]
  · rfl

/-- Erasing a key takes its value, once, out of the values. -/
theorem values_erase {m : Map κ α} {k : κ} {v : α} (h : m.lookup k = some v) :
    v ::ₘ values (m.erase k) = values m := by
  rw [← values_insert, insert_of_lookup h]

/-- The values of a map each of whose entries is that of another, mapped. -/
theorem values_map {β : Type*} {m : Map κ α} {m' : Map κ β} {f : α → β}
    (h : ∀ k, m'.lookup k = (m.lookup k).map f) : values m' = (values m).map f := by
  have hentries : m'.entries = m.entries.map fun x => ⟨x.1, f x.2⟩ := by
    refine Multiset.Nodup.ext m'.nodupKeys.nodup ?_ |>.mpr fun x => ?_
    · have hkeys := m.nodupKeys.nodup_keys
      rw [Multiset.keys] at hkeys
      refine Multiset.Nodup.of_map (·.1) ?_
      rwa [Multiset.map_map]
    · obtain ⟨k, v⟩ := x
      rw [mem_entries, h, Option.map_eq_some_iff, Multiset.mem_map]
      constructor
      · intro hv
        obtain ⟨v', hv', rfl⟩ := hv
        exact ⟨⟨k, v'⟩, mem_entries.mpr hv', rfl⟩
      · intro hx
        obtain ⟨⟨k', v'⟩, hm, hq⟩ := hx
        cases hq
        exact ⟨v', mem_entries.mp hm, rfl⟩
  rw [values, hentries, Multiset.map_map, values, Multiset.map_map]
  rfl

/-- A sum over the values is one over any keys that include the map's own. -/
theorem sum_values {M : Type*} [AddCommMonoid M] (f : α → M) {m : Map κ α} {s : Finset κ}
    (h : ∀ k v, m.lookup k = some v → k ∈ s) : ((values m).map f).sum = ∑ k ∈ s, (m.lookup k).elim 0 f := by
  have hsub : m.keys ⊆ s := by
    intro k hk
    obtain ⟨v, hv⟩ := Option.ne_none_iff_exists'.mp (mem_iff_lookup_ne_none.mp (Finmap.mem_keys.mp hk))
    exact h k v hv
  have hzero : ∀ k ∈ s, k ∉ m.keys → (m.lookup k).elim 0 f = 0 := by
    intro k _ hk
    rw [Finmap.lookup_eq_none.mpr (mt Finmap.mem_keys.mpr hk)]
    rfl
  calc ((values m).map f).sum
      = (m.entries.map fun x => (m.lookup x.1).elim 0 f).sum := by
        rw [values, Multiset.map_map]
        refine congrArg Multiset.sum (Multiset.map_congr rfl fun x hx => ?_)
        rw [mem_entries.mp hx]
        rfl
    _ = ∑ k ∈ m.keys, (m.lookup k).elim 0 f := by
        rw [Finset.sum, show m.keys.val = m.entries.map (·.1) from rfl, Multiset.map_map]
        rfl
    _ = ∑ k ∈ s, (m.lookup k).elim 0 f := Finset.sum_subset hsub hzero

/-! ## Walking a map -/

/-- An order in which a hash map is walked: for every map, each of its
entries once. -/
structure Iteration (κ α : Type*) [DecidableEq κ] where
  walk : Map κ α → List (Sigma fun _ : κ => α)
  spec : ∀ m, (walk m : Multiset (Sigma fun _ : κ => α)) = m.entries

theorem Iteration.mem_walk (it : Iteration κ α) {m : Map κ α} {k : κ} {v : α} :
    ⟨k, v⟩ ∈ it.walk m ↔ m.lookup k = some v := by
  rw [← mem_entries, ← it.spec m, Multiset.mem_coe]

/-- Two walks over one map differ in order only. -/
theorem Iteration.walk_perm (it it' : Iteration κ α) (m : Map κ α) : (it.walk m).Perm (it'.walk m) := by
  rw [← Multiset.coe_eq_coe, it.spec, it'.spec]

theorem Iteration.walk_values (it : Iteration κ α) (m : Map κ α) :
    (((it.walk m).map (·.2) : List α) : Multiset α) = values m := by
  rw [← Multiset.map_coe, it.spec, values]

/-- The keys of a map in the order of their codes. -/
def sortedKeys (code : κ → ℕ) (hcode : Function.Injective code) (m : Map κ α) : List κ :=
  Quot.liftOn m.keys.val (fun l => l.insertionSort fun a b => code a ≤ code b) fun l l' h => by
    have total : Std.Total fun a b : κ => code a ≤ code b := ⟨fun a b => Nat.le_total _ _⟩
    have trans : IsTrans κ fun a b => code a ≤ code b := ⟨fun _ _ _ => Nat.le_trans⟩
    refine List.Perm.eq_of_pairwise ?_ (List.pairwise_insertionSort _ l)
      (List.pairwise_insertionSort _ l') ?_
    · exact fun a b _ _ hab hba => hcode (Nat.le_antisymm hab hba)
    · exact (List.perm_insertionSort _ l).trans (List.Perm.trans h (List.perm_insertionSort _ l').symm)

omit [DecidableEq κ] in
theorem coe_sortedKeys (code : κ → ℕ) (hcode : Function.Injective code) (m : Map κ α) :
    (sortedKeys code hcode m : Multiset κ) = m.keys.val := by
  unfold sortedKeys
  induction m.keys.val using Quot.inductionOn with
  | _ l => exact Multiset.coe_eq_coe.mpr (List.perm_insertionSort _ l)

theorem filterMap_eq_self {β : Type*} {f : β → Option β} {s : Multiset β} (h : ∀ x ∈ s, f x = some x) :
    Multiset.filterMap f s = s := by
  induction s using Multiset.induction_on with
  | empty => rfl
  | cons a s ih =>
    rw [Multiset.filterMap_cons_some _ _ _ (h a (Multiset.mem_cons_self a s)),
      ih fun x hx => h x (Multiset.mem_cons_of_mem hx)]

/-- A walk in the order of a code of the keys. -/
def Iteration.ascending (code : κ → ℕ) (hcode : Function.Injective code) : Iteration κ α where
  walk m := (sortedKeys code hcode m).filterMap fun k => (m.lookup k).map fun v => ⟨k, v⟩
  spec m := by
    rw [← Multiset.filterMap_coe, coe_sortedKeys, show m.keys.val = m.entries.map (·.1) from rfl,
      Multiset.filterMap_map]
    refine filterMap_eq_self fun ⟨k, v⟩ hx => ?_
    simp only [Function.comp_apply, mem_entries.mp hx, Option.map_some]
end FiniteMap
