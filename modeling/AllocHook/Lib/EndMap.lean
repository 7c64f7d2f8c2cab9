/-
Ordered maps, and intervals kept in one by their ends.

`Map` is the list of its entries in the order of their keys, and `upperBound`
the first entry beyond a key. Where a value says at which key its interval
starts, the intervals of a map may be apart (`Apart`): the upper bound of a
point is then the one interval that may hold it, and an interval apart from
all others is found at its points and nowhere else (`valueAt_insert`).
Intervals over each of which a function has the value they carry (`Holding`)
may overlap: what is found at a point is its value there.
-/
import Mathlib.Order.Lattice
import Mathlib.Data.List.Nodup
import Mathlib.Data.List.TakeWhile

namespace EndMap

structure Map (κ α : Type*) [LinearOrder κ] where
  entries : List (κ × α)
  sorted : entries.Pairwise fun e e' => e.1 < e'.1

variable {κ α : Type*} [LinearOrder κ] {m : Map κ α} {k p : κ} {e : κ × α}

namespace Map

def empty : Map κ α := ⟨[], .nil⟩

/-- The first entry with a greater key. -/
def upperBound (m : Map κ α) (k : κ) : Option (κ × α) := m.entries.find? fun e => decide (k < e.1)

/-- The entry before the upper bound. -/
def below (m : Map κ α) (k : κ) : Option (κ × α) := (m.entries.takeWhile fun e => decide (e.1 ≤ k)).getLast?

/-- The entries from the upper bound on. -/
def beyond (m : Map κ α) (k : κ) : List (κ × α) := m.entries.filter fun e => decide (k < e.1)

def insertEntry (k : κ) (v : α) : List (κ × α) → List (κ × α)
  | [] => [(k, v)]
  | e :: entries =>
    if k < e.1 then (k, v) :: e :: entries
    else if e.1 < k then e :: insertEntry k v entries
    else (k, v) :: entries

theorem mem_insertEntry (k : κ) (v : α) {entries : List (κ × α)} (h : entries.Pairwise fun e e' => e.1 < e'.1) :
    e ∈ insertEntry k v entries ↔ e = (k, v) ∨ e ∈ entries ∧ e.1 ≠ k := by
  induction entries with
  | nil => simp [insertEntry]
  | cons e' entries ih =>
    obtain ⟨hlt, h⟩ := List.pairwise_cons.mp h
    unfold insertEntry
    by_cases hk : k < e'.1
    · rw [if_pos hk, List.mem_cons]
      refine or_congr_right ⟨fun he => ⟨he, ?_⟩, And.left⟩
      rcases List.mem_cons.mp he with rfl | he
      · exact hk.ne'
      · exact (hk.trans (hlt e he)).ne'
    rw [if_neg hk]
    by_cases hk' : e'.1 < k
    · rw [if_pos hk', List.mem_cons, ih h, List.mem_cons]
      constructor
      · rintro (rfl | rfl | he)
        · exact .inr ⟨.inl rfl, hk'.ne⟩
        · exact .inl rfl
        · exact .inr ⟨.inr he.1, he.2⟩
      · rintro (rfl | ⟨rfl | he, hne⟩)
        · exact .inr (.inl rfl)
        · exact .inl rfl
        · exact .inr (.inr ⟨he, hne⟩)
    · have hkk : e'.1 = k := le_antisymm (not_lt.mp hk) (not_lt.mp hk')
      rw [if_neg hk', List.mem_cons, List.mem_cons]
      refine or_congr_right ⟨fun he => ⟨.inr he, (hkk ▸ hlt e he).ne'⟩, ?_⟩
      rintro ⟨rfl | he, hne⟩
      · exact absurd hkk hne
      · exact he

theorem sorted_insertEntry (k : κ) (v : α) {entries : List (κ × α)} (h : entries.Pairwise fun e e' => e.1 < e'.1) :
    (insertEntry k v entries).Pairwise fun e e' => e.1 < e'.1 := by
  induction entries with
  | nil => exact List.pairwise_singleton _ _
  | cons e' entries ih =>
    obtain ⟨hlt, h'⟩ := List.pairwise_cons.mp h
    unfold insertEntry
    by_cases hk : k < e'.1
    · rw [if_pos hk]
      refine List.pairwise_cons.mpr ⟨fun e he => ?_, h⟩
      rcases List.mem_cons.mp he with rfl | he
      · exact hk
      · exact hk.trans (hlt e he)
    rw [if_neg hk]
    by_cases hk' : e'.1 < k
    · rw [if_pos hk']
      refine List.pairwise_cons.mpr ⟨fun e he => ?_, ih h'⟩
      rcases (mem_insertEntry k v h').mp he with rfl | he
      · exact hk'
      · exact hlt e he.1
    · have hkk : e'.1 = k := le_antisymm (not_lt.mp hk) (not_lt.mp hk')
      rw [if_neg hk']
      exact List.pairwise_cons.mpr ⟨fun e he => hkk ▸ hlt e he, h'⟩

/-- `operator[]`: the entry of a key, set. -/
def insert (m : Map κ α) (k : κ) (v : α) : Map κ α := ⟨insertEntry k v m.entries, sorted_insertEntry k v m.sorted⟩

theorem mem_insert {v : α} : e ∈ (m.insert k v).entries ↔ e = (k, v) ∨ e ∈ m.entries ∧ e.1 ≠ k :=
  mem_insertEntry k v m.sorted

/-- `emplace`: the value of a key, which is the one given if it had none. -/
def emplace (m : Map κ α) (k : κ) (v : α) : α × Map κ α :=
  match m.entries.find? fun e => decide (e.1 = k) with
  | some e => (e.2, m)
  | none => (v, m.insert k v)

theorem mem_of_emplace {v : α} (h : e ∈ (m.emplace k v).2.entries) : e ∈ m.entries ∨ e = (k, v) := by
  unfold emplace at h
  split at h
  · exact .inl h
  · exact (mem_insert.mp h).symm.imp_left And.left

theorem emplace_mem (m : Map κ α) (k : κ) (v : α) : (k, (m.emplace k v).1) ∈ (m.emplace k v).2.entries := by
  unfold emplace
  split
  · next e he =>
    have hk : e.1 = k := of_decide_eq_true (List.find?_some (p := fun e : κ × α => decide (e.1 = k)) he)
    exact hk ▸ List.mem_of_find?_eq_some he
  · exact mem_insert.mpr (.inl rfl)

/-- `find`: the value of a key. -/
def valueOf (m : Map κ α) (k : κ) : Option α := (m.entries.find? fun e => decide (e.1 = k)).map Prod.snd

theorem mem_of_valueOf {v : α} (h : m.valueOf k = some v) : (k, v) ∈ m.entries := by
  obtain ⟨e, he, rfl⟩ := Option.map_eq_some_iff.mp h
  have hk : e.1 = k := of_decide_eq_true (List.find?_some (p := fun e : κ × α => decide (e.1 = k)) he)
  exact hk ▸ List.mem_of_find?_eq_some he

theorem exists_valueOf {v : α} (h : (k, v) ∈ m.entries) : ∃ v', m.valueOf k = some v' := by
  cases hf : m.entries.find? fun e => decide (e.1 = k) with
  | none => exact absurd (decide_eq_true rfl) (List.find?_eq_none.mp hf _ h)
  | some e => exact ⟨e.2, congrArg (Option.map Prod.snd) hf⟩

theorem below_eq_some (h : m.below k = some e) : e ∈ m.entries ∧ e.1 ≤ k := by
  have he := List.mem_of_getLast? h
  exact ⟨(List.takeWhile_sublist _).subset he, by simpa using List.mem_takeWhile_imp he⟩

theorem mem_beyond : e ∈ m.beyond k ↔ e ∈ m.entries ∧ k < e.1 := by
  rw [beyond, List.mem_filter, decide_eq_true_eq]

theorem upperBound_eq_head? (m : Map κ α) (k : κ) : m.upperBound k = (m.beyond k).head? := by
  rw [upperBound, beyond, List.head?_filter]

theorem le_of_beyond_nil (h : m.beyond k = []) (he : e ∈ m.entries) : e.1 ≤ k := by
  by_contra hlt
  exact List.not_mem_nil (h ▸ mem_beyond.mpr ⟨he, not_le.mp hlt⟩)

theorem sorted_beyond (m : Map κ α) (k : κ) : (m.beyond k).Pairwise fun e e' => e.1 < e'.1 := m.sorted.filter _

/-- The entries from the next one on. -/
theorem beyond_next {rest : List (κ × α)} (h : m.beyond k = e :: rest) : m.beyond e.1 = rest := by
  have hsorted := m.sorted_beyond k
  rw [h] at hsorted
  have hk : k < e.1 := (mem_beyond.mp (h ▸ List.mem_cons_self)).2
  have hfilter : m.beyond e.1 = (m.beyond k).filter fun e' => decide (e.1 < e'.1) := by
    rw [beyond, beyond, List.filter_filter]
    refine List.filter_congr fun e' _ => ?_
    rw [← Bool.decide_and, decide_eq_decide]
    exact ⟨fun h => ⟨h, hk.trans h⟩, And.left⟩
  rw [hfilter, h, List.filter_cons_of_neg (by simp), List.filter_eq_self]
  exact fun e' he' => decide_eq_true ((List.pairwise_cons.mp hsorted).1 e' he')

theorem beyond_insert {k' : κ} (h : k ≤ k') (v : α) : (m.insert k v).beyond k' = m.beyond k' := by
  have hdrop (e : κ × α) (he : e.1 ≤ k') (entries : List (κ × α)) :
      (e :: entries).filter (fun e => decide (k' < e.1)) = entries.filter fun e => decide (k' < e.1) :=
    List.filter_cons_of_neg (by simpa using he)
  have hlist (entries : List (κ × α)) : (insertEntry k v entries).filter (fun e => decide (k' < e.1)) =
      entries.filter fun e => decide (k' < e.1) := by
    induction entries with
    | nil => exact hdrop (k, v) h []
    | cons e entries ih =>
      unfold insertEntry
      split
      · exact hdrop (k, v) h _
      next hke =>
      split
      · rw [List.filter_cons, List.filter_cons, ih]
      · rw [hdrop (k, v) h, hdrop e ((not_lt.mp hke).trans h)]
  exact hlist m.entries

theorem upperBound_eq_some : m.upperBound k = some e ↔
    e ∈ m.entries ∧ k < e.1 ∧ ∀ e' ∈ m.entries, k < e'.1 → e.1 ≤ e'.1 := by
  have hsorted := m.sorted_beyond k
  rw [upperBound_eq_head?, ← and_assoc, ← mem_beyond]
  cases hb : m.beyond k with
  | nil => simp
  | cons e₀ rest =>
    rw [hb] at hsorted
    have hlt := (List.pairwise_cons.mp hsorted).1
    rw [List.head?_cons, Option.some.injEq]
    constructor
    · rintro rfl
      refine ⟨List.mem_cons_self, fun e' he' hk => ?_⟩
      have hmem : e' ∈ e₀ :: rest := hb ▸ mem_beyond.mpr ⟨he', hk⟩
      rcases List.mem_cons.mp hmem with rfl | hmem
      · exact le_refl _
      · exact (hlt e' hmem).le
    · rintro ⟨he, hmin⟩
      have h₀ : e₀ ∈ m.beyond k := hb ▸ List.mem_cons_self
      have hle := hmin e₀ (mem_beyond.mp h₀).1 (mem_beyond.mp h₀).2
      rcases List.mem_cons.mp he with rfl | he
      · rfl
      · exact absurd (hlt e he) (not_lt.mpr hle)

end Map

/-! ## Intervals -/

variable {start : α → κ}

/-- The intervals are not empty and do not meet. -/
structure Apart (start : α → κ) (m : Map κ α) : Prop where
  nonempty : ∀ e ∈ m.entries, start e.2 < e.1
  disjoint : ∀ e ∈ m.entries, ∀ e' ∈ m.entries, e.1 < e'.1 → e.1 ≤ start e'.2

theorem Apart.empty : Apart start (Map.empty : Map κ α) := ⟨nofun, nofun⟩

/-- The value whose interval holds a point. -/
def valueAt (start : α → κ) (m : Map κ α) (p : κ) : Option α :=
  (m.upperBound p).bind fun e => if start e.2 ≤ p then some e.2 else none

theorem Apart.valueAt_eq_some (h : Apart start m) {v : α} :
    valueAt start m p = some v ↔ ∃ e ∈ m.entries, start e.2 ≤ p ∧ p < e.1 ∧ e.2 = v := by
  unfold valueAt
  rw [Option.bind_eq_some_iff]
  constructor
  · rintro ⟨e, he, hv⟩
    obtain ⟨hmem, hlt, -⟩ := Map.upperBound_eq_some.mp he
    split at hv
    · next hle => exact ⟨e, hmem, hle, hlt, Option.some.inj hv⟩
    · cases hv
  · rintro ⟨e, hmem, hle, hlt, rfl⟩
    refine ⟨e, Map.upperBound_eq_some.mpr ⟨hmem, hlt, fun e' he' hlt' => ?_⟩, if_pos hle⟩
    by_contra hgt
    exact absurd (hlt'.trans_le (h.disjoint e' he' e hmem (not_le.mp hgt))) (not_lt.mpr hle)

theorem Apart.valueAt_eq_none (h : Apart start m) :
    valueAt start m p = none ↔ ∀ e ∈ m.entries, ¬ (start e.2 ≤ p ∧ p < e.1) := by
  rw [Option.eq_none_iff_forall_ne_some]
  constructor
  · exact fun hv e he hp => hv e.2 (h.valueAt_eq_some.mpr ⟨e, he, hp.1, hp.2, rfl⟩)
  · intro hn v hv
    obtain ⟨e, he, hle, hlt, -⟩ := h.valueAt_eq_some.mp hv
    exact hn e he ⟨hle, hlt⟩

/-- Nothing is at a point between the intervals that end before it and those
that start after it. -/
theorem Apart.valueAt_of_free (h : Apart start m) {a b : κ} (hfree : ∀ e ∈ m.entries, e.1 ≤ a ∨ b ≤ start e.2)
    (ha : a ≤ p) (hb : p < b) : valueAt start m p = none := by
  refine h.valueAt_eq_none.mpr fun e he hp => ?_
  rcases hfree e he with hle | hle
  · exact absurd (hp.2.trans_le hle) (not_lt.mpr ha)
  · exact absurd (hle.trans hp.1) (not_le.mpr hb)

/-- The intervals beyond a point start where the first of them does, or later. -/
theorem Apart.free_of_beyond (h : Apart start m) {rest : List (κ × α)} (hb : m.beyond k = e :: rest) :
    ∀ e' ∈ m.entries, e'.1 ≤ k ∨ start e.2 ≤ start e'.2 := by
  intro e' he'
  rcases le_or_gt e'.1 k with hle | hlt
  · exact .inl hle
  · have hsorted := m.sorted_beyond k
    rw [hb] at hsorted
    have he : e ∈ m.entries := (Map.mem_beyond.mp (hb ▸ List.mem_cons_self)).1
    have hmem : e' ∈ e :: rest := hb ▸ Map.mem_beyond.mpr ⟨he', hlt⟩
    rcases List.mem_cons.mp hmem with rfl | hmem
    · exact .inr (le_refl _)
    · have hlt' := (List.pairwise_cons.mp hsorted).1 e' hmem
      exact .inr ((h.nonempty e he).le.trans (h.disjoint e he e' he' hlt'))

section Insert

variable {v : α} (h : Apart start m) (hne : start v < k)
  (hfree : ∀ e ∈ m.entries, e.1 ≤ start v ∨ k ≤ start e.2)
include h hne hfree

/-- A new interval has an end of its own. -/
theorem Apart.key_ne {e : κ × α} (he : e ∈ m.entries) : e.1 ≠ k := by
  rintro rfl
  rcases hfree e he with hle | hle
  · exact absurd hne (not_lt.mpr hle)
  · exact absurd (h.nonempty e he) (not_lt.mpr hle)

theorem Apart.insert : Apart start (m.insert k v) := by
  constructor
  · intro e he
    rcases Map.mem_insert.mp he with rfl | ⟨he, -⟩
    · exact hne
    · exact h.nonempty e he
  · intro e he e' he' hlt
    rcases Map.mem_insert.mp he with rfl | ⟨he, -⟩ <;> rcases Map.mem_insert.mp he' with rfl | ⟨he', -⟩
    · exact absurd hlt (lt_irrefl _)
    · rcases hfree e' he' with hle | hle
      · exact absurd (hlt.trans_le hle) (not_lt.mpr hne.le)
      · exact hle
    · rcases hfree e he with hle | hle
      · exact hle
      · exact absurd (hlt.trans_le hle) (not_lt.mpr (h.nonempty e he).le)
    · exact h.disjoint e he e' he' hlt

/-- An interval apart from the others is found at its points, and they at
theirs. -/
theorem Apart.valueAt_insert (p : κ) :
    valueAt start (m.insert k v) p = if start v ≤ p ∧ p < k then some v else valueAt start m p := by
  have hins := h.insert hne hfree
  split
  · next hp => exact hins.valueAt_eq_some.mpr ⟨(k, v), Map.mem_insert.mpr (.inl rfl), hp.1, hp.2, rfl⟩
  · next hp =>
    refine Option.ext fun v' => ?_
    rw [hins.valueAt_eq_some, h.valueAt_eq_some]
    constructor
    · rintro ⟨e, he, hle, hlt, rfl⟩
      rcases Map.mem_insert.mp he with rfl | ⟨he, -⟩
      · exact absurd ⟨hle, hlt⟩ hp
      · exact ⟨e, he, hle, hlt, rfl⟩
    · rintro ⟨e, he, hle, hlt, rfl⟩
      exact ⟨e, Map.mem_insert.mpr (.inr ⟨he, h.key_ne hne hfree he⟩), hle, hlt, rfl⟩

end Insert

/-! ## Values that hold over intervals -/

section Cached

variable {β : Type*} {content : α → β} {f : κ → Option β}

/-- Every interval of the map is one over which the function has the content
of its value. -/
def Holding (start : α → κ) (content : α → β) (f : κ → Option β) (m : Map κ α) : Prop :=
  ∀ e ∈ m.entries, start e.2 < e.1 ∧ ∀ p, start e.2 ≤ p → p < e.1 → f p = some (content e.2)

theorem Holding.empty : Holding start content f (Map.empty : Map κ α) := nofun

theorem Holding.valueAt (h : Holding start content f m) {v : α} (hv : EndMap.valueAt start m p = some v) :
    f p = some (content v) := by
  obtain ⟨e, he, hv⟩ := Option.bind_eq_some_iff.mp hv
  obtain ⟨hmem, hlt, -⟩ := Map.upperBound_eq_some.mp he
  split at hv
  · next hle =>
    cases hv
    exact (h e hmem).2 p hle hlt
  · cases hv

variable {v : α} (h : Holding start content f m) (hne : start v < k)
  (hv : ∀ p, start v ≤ p → p < k → f p = some (content v))
include h hne hv

theorem Holding.emplace : Holding start content f (m.emplace k v).2 := by
  intro e he
  rcases Map.mem_of_emplace he with he | rfl
  · exact h e he
  · exact ⟨hne, hv⟩

/-- What an interval with the same end has there already is the same. -/
theorem Holding.emplace_content : content (m.emplace k v).1 = content v := by
  obtain ⟨hne', hv'⟩ := h.emplace hne hv _ (m.emplace_mem k v)
  have hlt := max_lt hne hne'
  exact Option.some.inj ((hv' _ (le_max_right ..) hlt).symm.trans (hv _ (le_max_left ..) hlt))

end Cached

end EndMap
