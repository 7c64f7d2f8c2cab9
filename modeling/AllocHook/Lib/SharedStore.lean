/-
A store of shared values with reference counts: equal keys share one slot,
`acquire` hands out the slot's index and counts one more holder, `release`
counts one holder less and drops the slot with the last.

Who holds what is a multiset of indices, one copy for each reference held,
wherever it is held. `Held s H` says the store is exact about `H`: a slot is
there if and only if some holder has it, its count is the number of holders,
and the three tables agree. An operation then only says what it does to `H`
(`Held.acquire` adds the index, `Held.release` takes it out), and whether the
holders are entries of a table, threads in the middle of a call or references
nobody will ever give back is the user's affair.
-/
import Mathlib.Data.Multiset.AddSub
import Mathlib.Data.Set.Function
import Mathlib.Logic.Function.Basic
import Mathlib.Tactic.Common

namespace SharedStore

/-- The tables, each by what a lookup in it finds: key to index, index to
count and key, index to the information stored with the key. `next` is the
first index never handed out. -/
structure Store (κ ι : Type*) where
  index : κ → Option ℕ
  slots : ℕ → Option (ℕ × κ)
  info : ℕ → Option ι
  next : ℕ

variable {κ ι : Type*}

/-- Nothing stored, indices from `base` on. -/
def Store.empty (base : ℕ) : Store κ ι :=
  { index := fun _ => none, slots := fun _ => none, info := fun _ => none, next := base }

variable [DecidableEq κ] in
/-- A reference to `k`: a new slot, or one more holder of the slot it has. -/
def Store.acquire (k : κ) (i : ι) (s : Store κ ι) : ℕ × Store κ ι :=
  match s.index k with
  | none =>
    (s.next,
      { index := Function.update s.index k (some s.next)
        slots := Function.update s.slots s.next (some (1, k))
        info := Function.update s.info s.next (some i)
        next := s.next + 1 })
  | some h =>
    match s.slots h with
    | none => (h, s)
    | some (r, k') => (h, { s with slots := Function.update s.slots h (some (r + 1, k')) })

variable [DecidableEq κ] in
/-- A reference given back: the slot goes with its last holder. -/
def Store.release (h : ℕ) (s : Store κ ι) : Store κ ι :=
  match s.slots h with
  | none => s
  | some (r, k) =>
    if r - 1 = 0 then
      { s with
        index := Function.update s.index k none
        slots := Function.update s.slots h none
        info := Function.update s.info h none }
    else { s with slots := Function.update s.slots h (some (r - 1, k)) }

/-- The store is exact about its holders `H`. `fits` relates a key to the
information it may be stored with; `base` is the first index in use. -/
structure Held (fits : κ → ι → Prop) (base : ℕ) (s : Store κ ι) (H : Multiset ℕ) : Prop where
  count : ∀ {h r k}, s.slots h = some (r, k) → r = H.count h
  held : ∀ {h r k}, s.slots h = some (r, k) → h ∈ H
  slot : ∀ {h}, h ∈ H → ∃ r k, s.slots h = some (r, k)
  index_slot : ∀ {k h}, s.index k = some h → ∃ r, s.slots h = some (r, k)
  slot_index : ∀ {h r k}, s.slots h = some (r, k) → s.index k = some h
  info : ∀ {h r k}, s.slots h = some (r, k) → ∃ i, s.info h = some i ∧ fits k i
  info_slot : ∀ {h i}, s.info h = some i → ∃ r k, s.slots h = some (r, k)
  base_le : ∀ {h r k}, s.slots h = some (r, k) → base ≤ h
  lt_next : ∀ {h r k}, s.slots h = some (r, k) → h < s.next
  base_le_next : base ≤ s.next

variable {fits : κ → ι → Prop} {base : ℕ} {s : Store κ ι} {H : Multiset ℕ} {k : κ} {i : ι} {h : ℕ}

theorem Held.empty : Held fits base (Store.empty base : Store κ ι) 0 := by
  constructor <;> simp [Store.empty]

/-- A slot no holder has is not there. -/
theorem Held.slot_none (hs : Held fits base s H) (hn : h ∉ H) : s.slots h = none := by
  cases e : s.slots h with
  | none => rfl
  | some p => obtain ⟨r, k⟩ := p; exact absurd (hs.held e) hn

theorem Held.next_notMem (hs : Held fits base s H) : s.next ∉ H := by
  intro hn
  obtain ⟨r, k, e⟩ := hs.slot hn
  exact absurd (hs.lt_next e) (Nat.lt_irrefl _)

theorem Held.base_le_of_mem (hs : Held fits base s H) (hm : h ∈ H) : base ≤ h := by
  obtain ⟨r, k, e⟩ := hs.slot hm; exact hs.base_le e

/-- Two slots with one key are one slot. -/
theorem Held.slot_inj (hs : Held fits base s H) {h' r r'} (h₁ : s.slots h = some (r, k))
    (h₂ : s.slots h' = some (r', k)) : h = h' := by
  have e₁ := hs.slot_index h₁
  rw [hs.slot_index h₂, Option.some.injEq] at e₁
  exact e₁.symm

/-- A slot recounted, its key as it was: what holds of the other tables stays. -/
theorem Held.recount (hs : Held fits base s H) (H' : Multiset ℕ) {r}
    (es : s.slots h = some (r, k)) (hpos : 0 < H'.count h) (hother : ∀ h', h' ≠ h → H'.count h' = H.count h') :
    Held fits base { s with slots := Function.update s.slots h (some (H'.count h, k)) } H' := by
  have old : ∀ {h' r' k'}, Function.update s.slots h (some (H'.count h, k)) h' = some (r', k') →
      ∃ r', s.slots h' = some (r', k') := by
    intro h' r' k' hh
    rw [Function.update_apply] at hh
    split at hh
    · next he => cases hh; exact ⟨_, he ▸ es⟩
    · exact ⟨r', hh⟩
  have new : ∀ {h' r' k'}, s.slots h' = some (r', k') →
      ∃ r', Function.update s.slots h (some (H'.count h, k)) h' = some (r', k') := by
    intro h' r' k' hh
    rw [Function.update_apply]
    split
    · next he => rw [he, es] at hh; cases hh; exact ⟨_, rfl⟩
    · exact ⟨r', hh⟩
  have mem : ∀ {h'}, h' ∈ H' ↔ h' ∈ H := by
    intro h'
    by_cases he : h' = h
    · subst he; exact ⟨fun _ => hs.held es, fun _ => Multiset.count_pos.mp hpos⟩
    · rw [← Multiset.count_pos, ← Multiset.count_pos, hother h' he]
  constructor
  · intro h' r' k' hh
    dsimp only at hh
    rw [Function.update_apply] at hh
    split at hh
    · next he => cases hh; rw [he]
    · next he => rw [hother h' he]; exact hs.count hh
  · intro h' r' k' hh; obtain ⟨_, hh⟩ := old hh; exact mem.mpr (hs.held hh)
  · intro h' hh
    obtain ⟨r', k', hh⟩ := hs.slot (mem.mp hh)
    obtain ⟨r', hh⟩ := new hh
    exact ⟨r', k', hh⟩
  · intro k' h' hh; obtain ⟨r', hh⟩ := hs.index_slot hh; exact new hh
  · intro h' r' k' hh; obtain ⟨_, hh⟩ := old hh; exact hs.slot_index hh
  · intro h' r' k' hh; obtain ⟨_, hh⟩ := old hh; exact hs.info hh
  · intro h' j hj
    obtain ⟨r', k', hh⟩ := hs.info_slot hj
    obtain ⟨r', hh⟩ := new hh
    exact ⟨r', k', hh⟩
  · intro h' r' k' hh; obtain ⟨_, hh⟩ := old hh; exact hs.base_le hh
  · intro h' r' k' hh; obtain ⟨_, hh⟩ := old hh; exact hs.lt_next hh
  · exact hs.base_le_next

/-! ## Acquiring -/

variable [DecidableEq κ]

theorem Store.acquire_of_none (e : s.index k = none) :
    s.acquire k i =
      (s.next,
        { index := Function.update s.index k (some s.next)
          slots := Function.update s.slots s.next (some (1, k))
          info := Function.update s.info s.next (some i)
          next := s.next + 1 }) := by
  simp only [Store.acquire, e]

theorem Store.acquire_of_some {r k'} (e : s.index k = some h) (es : s.slots h = some (r, k')) :
    s.acquire k i = (h, { s with slots := Function.update s.slots h (some (r + 1, k')) }) := by
  simp only [Store.acquire, e, es]

/-- What acquiring does to an exact store: the two cases, with the tables of
the second unfolded as far as the invariant determines them. -/
theorem Held.acquire_cases (hs : Held fits base s H) (k : κ) (i : ι) :
    (s.index k = none ∧ s.acquire k i =
      (s.next,
        { index := Function.update s.index k (some s.next)
          slots := Function.update s.slots s.next (some (1, k))
          info := Function.update s.info s.next (some i)
          next := s.next + 1 })) ∨
    ∃ h, s.index k = some h ∧ s.slots h = some (H.count h, k) ∧ h ∈ H ∧
      s.acquire k i = (h, { s with slots := Function.update s.slots h (some (H.count h + 1, k)) }) := by
  cases e : s.index k with
  | none => exact .inl ⟨rfl, Store.acquire_of_none e⟩
  | some h =>
    obtain ⟨r, es⟩ := hs.index_slot e
    have hr := hs.count es
    subst hr
    exact .inr ⟨h, rfl, es, hs.held es, Store.acquire_of_some e es⟩

/-- A new slot for a key that has none. -/
theorem Held.fresh (hs : Held fits base s H) (hf : fits k i) (e : s.index k = none) :
    Held fits base
      { index := Function.update s.index k (some s.next)
        slots := Function.update s.slots s.next (some (1, k))
        info := Function.update s.info s.next (some i)
        next := s.next + 1 } (s.next ::ₘ H) := by
  -- Nothing else has its key or its index.
  have hnew : ∀ {h r k'}, s.slots h = some (r, k') → h ≠ s.next :=
    fun hh he => absurd (hs.lt_next hh) (by omega)
  have hkey : ∀ {h r k'}, s.slots h = some (r, k') → k' ≠ k :=
    fun hh he => by have := hs.slot_index hh; rw [he, e] at this; cases this
  have hcount : H.count s.next = 0 := Multiset.count_eq_zero.mpr hs.next_notMem
  constructor <;> dsimp only
  · intro h r k' hh
    rw [Function.update_apply] at hh
    split at hh
    · next he => cases hh; rw [he, Multiset.count_cons_self, hcount]
    · next he => rw [Multiset.count_cons_of_ne he]; exact hs.count hh
  · intro h r k' hh
    rw [Function.update_apply] at hh
    split at hh
    · next he => simp [he]
    · exact Multiset.mem_cons_of_mem (hs.held hh)
  · intro h hh
    rcases Multiset.mem_cons.mp hh with rfl | hh
    · exact ⟨1, k, by simp⟩
    · obtain ⟨r, k', hh⟩ := hs.slot hh
      exact ⟨r, k', by rw [Function.update_of_ne (hnew hh), hh]⟩
  · intro k' h hh
    rw [Function.update_apply] at hh
    split at hh
    · next he => cases hh; exact ⟨1, by simp [he]⟩
    · obtain ⟨r, hh⟩ := hs.index_slot hh
      exact ⟨r, by rw [Function.update_of_ne (hnew hh), hh]⟩
  · intro h r k' hh
    rw [Function.update_apply] at hh
    split at hh
    · next he => cases hh; rw [he, Function.update_self]
    · rw [Function.update_of_ne (hkey hh), hs.slot_index hh]
  · intro h r k' hh
    rw [Function.update_apply] at hh
    split at hh
    · next he => cases hh; exact ⟨i, by simp [he], hf⟩
    · obtain ⟨j, hj, hfj⟩ := hs.info hh
      exact ⟨j, by rw [Function.update_of_ne (hnew hh), hj], hfj⟩
  · intro h j hj
    rw [Function.update_apply] at hj
    split at hj
    · next he => exact ⟨1, k, by simp [he]⟩
    · obtain ⟨r, k', hh⟩ := hs.info_slot hj
      exact ⟨r, k', by rw [Function.update_of_ne (hnew hh), hh]⟩
  · intro h r k' hh
    rw [Function.update_apply] at hh
    split at hh
    · next he => rw [he]; exact hs.base_le_next
    · exact hs.base_le hh
  · intro h r k' hh
    rw [Function.update_apply] at hh
    split at hh
    · next he => rw [he]; exact Nat.lt_succ_self _
    · exact Nat.lt_succ_of_lt (hs.lt_next hh)
  · exact Nat.le_succ_of_le hs.base_le_next

/-- A slot dropped with its last holder. -/
theorem Held.drop (hs : Held fits base s H) {r} (es : s.slots h = some (r, k)) (h1 : H.count h = 1) :
    Held fits base
      { s with
        index := Function.update s.index k none
        slots := Function.update s.slots h none
        info := Function.update s.info h none } (H.erase h) := by
  have hne : ∀ {h' r' k'}, s.slots h' = some (r', k') → h' ≠ h → k' ≠ k :=
    fun hh hn hk => hn (hs.slot_inj (hk ▸ hh) es)
  constructor <;> dsimp only
  · intro h' r' k' hh
    rw [Function.update_apply] at hh
    split at hh
    · cases hh
    · next he => rw [Multiset.count_erase_of_ne he]; exact hs.count hh
  · intro h' r' k' hh
    rw [Function.update_apply] at hh
    split at hh
    · cases hh
    · next he => exact (Multiset.mem_erase_of_ne he).mpr (hs.held hh)
  · intro h' hh
    have he : h' ≠ h := by
      rintro rfl
      have := Multiset.count_pos.mpr hh
      rw [Multiset.count_erase_self] at this
      omega
    obtain ⟨r', k', e⟩ := hs.slot (Multiset.mem_of_mem_erase hh)
    exact ⟨r', k', by rw [Function.update_of_ne he, e]⟩
  · intro k' h' hh
    rw [Function.update_apply] at hh
    split at hh
    · cases hh
    · next hk =>
      obtain ⟨r', e⟩ := hs.index_slot hh
      have he : h' ≠ h := by rintro rfl; rw [es] at e; cases e; exact hk rfl
      exact ⟨r', by rw [Function.update_of_ne he, e]⟩
  · intro h' r' k' hh
    rw [Function.update_apply] at hh
    split at hh
    · cases hh
    · next he => rw [Function.update_of_ne (hne hh he), hs.slot_index hh]
  · intro h' r' k' hh
    rw [Function.update_apply] at hh
    split at hh
    · cases hh
    · next he =>
      obtain ⟨j, hj, hf⟩ := hs.info hh
      exact ⟨j, by rw [Function.update_of_ne he, hj], hf⟩
  · intro h' j hj
    rw [Function.update_apply] at hj
    split at hj
    · cases hj
    · next he =>
      obtain ⟨r', k', e⟩ := hs.info_slot hj
      exact ⟨r', k', by rw [Function.update_of_ne he, e]⟩
  · intro h' r' k' hh
    rw [Function.update_apply] at hh
    split at hh
    · cases hh
    · exact hs.base_le hh
  · intro h' r' k' hh
    rw [Function.update_apply] at hh
    split at hh
    · cases hh
    · exact hs.lt_next hh
  · exact hs.base_le_next

/-- **Acquiring** adds one holder of the index it hands out. -/
theorem Held.acquire (hs : Held fits base s H) (hf : fits k i) :
    Held fits base (s.acquire k i).2 ((s.acquire k i).1 ::ₘ H) := by
  rcases hs.acquire_cases k i with ⟨e, hq⟩ | ⟨h, _, es, _, hq⟩
  · rw [hq]; exact hs.fresh hf e
  · rw [hq]
    have := hs.recount (h ::ₘ H) es (by simp)
      (fun h' hne => Multiset.count_cons_of_ne hne H)
    rwa [Multiset.count_cons_self] at this

/-- The index handed out is the slot of the key. -/
theorem Held.acquire_slot (hs : Held fits base s H) (k : κ) (i : ι) :
    ∃ r, (s.acquire k i).2.slots (s.acquire k i).1 = some (r, k) := by
  rcases hs.acquire_cases k i with ⟨_, hq⟩ | ⟨h, _, _, _, hq⟩
  · exact ⟨1, by simp [hq]⟩
  · exact ⟨H.count h + 1, by simp [hq]⟩

/-- Acquiring leaves every other reference on the key it had. -/
theorem Held.acquire_keeps (hs : Held fits base s H) (k : κ) (i : ι) {r k'} (hh : s.slots h = some (r, k')) :
    ∃ r', (s.acquire k i).2.slots h = some (r', k') := by
  rcases hs.acquire_cases k i with ⟨_, hq⟩ | ⟨h', _, es, _, hq⟩
  · refine ⟨r, ?_⟩
    have hne : h ≠ s.next := fun he => absurd (hs.lt_next hh) (by omega)
    simp only [hq, Function.update_of_ne hne, hh]
  · by_cases he : h = h'
    · subst he; rw [es] at hh; cases hh; exact ⟨H.count h + 1, by simp [hq]⟩
    · exact ⟨r, by simp only [hq, Function.update_of_ne he, hh]⟩

/-! ## Releasing -/

/-- What releasing a held index does to an exact store. -/
theorem Held.release_cases (hs : Held fits base s H) (hm : h ∈ H) :
    ∃ k, s.slots h = some (H.count h, k) ∧
      ((H.count h = 1 ∧ s.release h =
        { s with
          index := Function.update s.index k none
          slots := Function.update s.slots h none
          info := Function.update s.info h none }) ∨
      (1 < H.count h ∧ s.release h =
        { s with slots := Function.update s.slots h (some (H.count h - 1, k)) })) := by
  obtain ⟨r, k, es⟩ := hs.slot hm
  have hr := hs.count es
  subst hr
  have hpos : 0 < H.count h := Multiset.count_pos.mpr hm
  refine ⟨k, es, ?_⟩
  by_cases h1 : H.count h = 1
  · exact .inl ⟨h1, by simp only [Store.release, es, h1, Nat.sub_self, if_true]⟩
  · exact .inr ⟨by omega, by simp only [Store.release, es]; rw [if_neg (by omega)]⟩

/-- **Releasing** a held index takes one holder of it out. -/
theorem Held.release (hs : Held fits base s H) (hm : h ∈ H) :
    Held fits base (s.release h) (H.erase h) := by
  obtain ⟨k, es, ⟨h1, hq⟩ | ⟨h1, hq⟩⟩ := hs.release_cases hm
  · rw [hq]; exact hs.drop es h1
  · rw [hq]
    have := hs.recount (H.erase h) es (by rw [Multiset.count_erase_self]; omega)
      (fun h' hne => Multiset.count_erase_of_ne hne H)
    rwa [Multiset.count_erase_self] at this

/-- A reference that is still held keeps its key when another is released. -/
theorem Held.release_keeps (hs : Held fits base s H) (hm : h ∈ H) {h' r k'}
    (hh : s.slots h' = some (r, k')) (hk : h' ∈ H.erase h) : ∃ r', (s.release h).slots h' = some (r', k') := by
  obtain ⟨r', k'', e⟩ := (hs.release hm).slot hk
  obtain ⟨k, es, ⟨_, hq⟩ | ⟨_, hq⟩⟩ := hs.release_cases hm <;>
    rw [hq] at e ⊢ <;> simp only [Function.update_apply] at e ⊢ <;> split at e
  · cases e
  · next he => rw [if_neg he]; exact ⟨r, hh⟩
  · next he => subst he; rw [es] at hh; cases hh; exact ⟨_, if_pos rfl⟩
  · next he => rw [if_neg he]; exact ⟨r, hh⟩

/-! ## An index given up -/

/-- An index handed out before and no longer there is not handed out again. -/
theorem Held.acquire_gone (hs : Held fits base s H) (hlt : h < s.next) (hn : s.slots h = none) (k : κ) (i : ι) :
    (s.acquire k i).1 ≠ h ∧ h < (s.acquire k i).2.next ∧ (s.acquire k i).2.slots h = none := by
  rcases hs.acquire_cases k i with ⟨_, hq⟩ | ⟨h', _, es, _, hq⟩
  · have hne : h ≠ s.next := Nat.ne_of_lt hlt
    rw [hq]
    exact ⟨hne.symm, Nat.lt_succ_of_lt hlt, by simp only [Function.update_of_ne hne, hn]⟩
  · have hne : h ≠ h' := by
      intro he
      rw [he, es] at hn
      cases hn
    rw [hq]
    exact ⟨hne.symm, hlt, by simp only [Function.update_of_ne hne, hn]⟩

theorem Store.release_gone (hn : s.slots h = none) (h' : ℕ) :
    (s.release h').next = s.next ∧ (s.release h').slots h = none := by
  unfold Store.release
  split
  · exact ⟨rfl, hn⟩
  · next r k es =>
    have hne : h ≠ h' := by
      intro he
      rw [he, es] at hn
      cases hn
    split
    · exact ⟨rfl, by simp only [Function.update_of_ne hne, hn]⟩
    · exact ⟨rfl, by simp only [Function.update_of_ne hne, hn]⟩

/-! ## Two stores up to the names of their indices -/

/-- The holders of a key. -/
def Store.holders (s : Store κ ι) (H : Multiset ℕ) (k : κ) : ℕ :=
  match s.index k with
  | none => 0
  | some h => H.count h

omit [DecidableEq κ] in
theorem Held.holders_pos (hs : Held fits base s H) (e : s.index k = some h) : 0 < s.holders H k := by
  obtain ⟨r, es⟩ := hs.index_slot e
  simp only [Store.holders, e]
  exact Multiset.count_pos.mpr (hs.held es)

omit [DecidableEq κ] in
/-- A key with a holder is stored, under one index, with the number of its
holders. -/
theorem Held.slot_of_holders (hs : Held fits base s H) (hpos : 0 < s.holders H k) :
    ∃ h, s.index k = some h ∧ s.slots h = some (s.holders H k, k) := by
  cases e : s.index k with
  | none => simp [Store.holders, e] at hpos
  | some h =>
    obtain ⟨r, es⟩ := hs.index_slot e
    have hr := hs.count es
    simp only [Store.holders, e] at hpos ⊢
    exact ⟨h, rfl, by rw [← hr]; exact es⟩

/-- `s'` is `s` with its indices renamed by `σ`; what is stored with a key
still fits it. -/
structure Renames (fits : κ → ι → Prop) (σ : ℕ → ℕ) (s s' : Store κ ι) : Prop where
  bij : Set.BijOn σ {h | s.slots h ≠ none} {h | s'.slots h ≠ none}
  slots : ∀ {h}, s.slots h ≠ none → s'.slots (σ h) = s.slots h
  index : ∀ k, s'.index k = (s.index k).map σ
  info : ∀ {h r k}, s.slots h = some (r, k) →
    ∃ i i', s.info h = some i ∧ s'.info (σ h) = some i' ∧ fits k i ∧ fits k i'

/-- The index of the same key in another store. -/
def Store.renaming (s s' : Store κ ι) (h : ℕ) : ℕ :=
  match s.slots h with
  | none => h
  | some (_, k) => (s'.index k).getD h

omit [DecidableEq κ] in
/-- Stores whose keys have equally many holders are the same up to the names
of their indices. -/
theorem Held.renames {s' : Store κ ι} {H' : Multiset ℕ} (hs : Held fits base s H) (hs' : Held fits base s' H')
    (he : ∀ k, s.holders H k = s'.holders H' k) : Renames fits (s.renaming s') s s' := by
  have key : ∀ {h r k}, s.slots h = some (r, k) →
      s'.index k = some (s.renaming s' h) ∧ s'.slots (s.renaming s' h) = some (r, k) := by
    intro h r k es
    have hi := hs.slot_index es
    have hpos := hs.holders_pos hi
    have hr : r = s.holders H k := by rw [hs.count es, Store.holders, hi]
    rw [he] at hpos
    obtain ⟨h', hi', es'⟩ := hs'.slot_of_holders hpos
    have hq : s.renaming s' h = h' := by simp [Store.renaming, es, hi']
    rw [hq, hr, he]
    exact ⟨hi', es'⟩
  refine ⟨⟨?_, ?_, ?_⟩, ?_, ?_, ?_⟩
  · intro h hh
    obtain ⟨⟨r, k⟩, es⟩ := Option.ne_none_iff_exists'.mp hh
    simp only [Set.mem_ofPred_eq, (key es).2]
    simp
  · intro h₁ hh₁ h₂ hh₂ hq
    obtain ⟨⟨r₁, k₁⟩, es₁⟩ := Option.ne_none_iff_exists'.mp hh₁
    obtain ⟨⟨r₂, k₂⟩, es₂⟩ := Option.ne_none_iff_exists'.mp hh₂
    have := (key es₁).2
    rw [hq, (key es₂).2, Option.some.injEq, Prod.mk.injEq] at this
    obtain ⟨-, hk⟩ := this
    subst hk
    exact hs.slot_inj es₁ es₂
  · intro h' hh'
    obtain ⟨⟨r, k⟩, es'⟩ := Option.ne_none_iff_exists'.mp hh'
    have hpos := hs'.holders_pos (hs'.slot_index es')
    rw [← he] at hpos
    obtain ⟨h, -, es⟩ := hs.slot_of_holders hpos
    exact ⟨h, by simp [es], hs'.slot_inj (key es).2 es'⟩
  · intro h hh
    obtain ⟨⟨r, k⟩, es⟩ := Option.ne_none_iff_exists'.mp hh
    rw [(key es).2, es]
  · intro k
    cases e : s.index k with
    | none =>
      have h0 : s'.holders H' k = 0 := by rw [← he]; simp [Store.holders, e]
      cases e' : s'.index k with
      | none => rfl
      | some h' => exact absurd (hs'.holders_pos e') (by omega)
    | some h =>
      obtain ⟨r, es⟩ := hs.index_slot e
      exact (key es).1
  · intro h r k es
    obtain ⟨i, hi, hf⟩ := hs.info es
    obtain ⟨i', hi', hf'⟩ := hs'.info (key es).2
    exact ⟨i, i', hi, hi', hf, hf'⟩

end SharedStore
