/-
Sorting a list by a strict comparison and merging neighbours, as `std::sort`
followed by an erase loop does.

A comparison is described by a rank into a linear order. The result of
sorting then depends on the order of the input only where two elements have
one rank: two sorted permutations of one list whose elements have distinct
ranks are the same list (`sortBy_congr`).

Merging keeps every total to which a merged element contributes what the two
elements it came from contributed (`mergeRuns_sum`). It leaves one element of
each key if and only if the elements of a key are neighbours
(`mergeRuns_nodup`).
-/
import Mathlib.Data.List.Sort
import Mathlib.Algebra.BigOperators.Group.List.Basic
import Mathlib.Algebra.BigOperators.Group.Multiset.Basic

namespace SortMerge

variable {α β : Type*}

/-- The list in an order in which no element comes before a smaller one. -/
def sortBy (lt : α → α → Bool) (l : List α) : List α := l.insertionSort fun a b => lt b a = false

theorem sortBy_perm (lt : α → α → Bool) (l : List α) : (sortBy lt l).Perm l := List.perm_insertionSort _ l

theorem mem_sortBy {lt : α → α → Bool} {l : List α} {a : α} : a ∈ sortBy lt l ↔ a ∈ l := (sortBy_perm lt l).mem_iff

/-- `lt` compares by `rank`. -/
def Ranked [LT β] (lt : α → α → Bool) (rank : α → β) : Prop := ∀ a b, lt a b = true ↔ rank a < rank b

/-- `lt` is a strict total order on the elements of a list. -/
structure StrictTotalOn (lt : α → α → Bool) (l : List α) : Prop where
  irrefl : ∀ a ∈ l, lt a a = false
  trans : ∀ a ∈ l, ∀ b ∈ l, ∀ c ∈ l, lt a b = true → lt b c = true → lt a c = true
  total : ∀ a ∈ l, ∀ b ∈ l, a = b ∨ lt a b = true ∨ lt b a = true

variable [LinearOrder β] {lt : α → α → Bool} {rank : α → β}

theorem Ranked.strictTotalOn (h : Ranked lt rank) {l : List α}
    (hinj : ∀ a ∈ l, ∀ b ∈ l, rank a = rank b → a = b) : StrictTotalOn lt l := by
  refine ⟨fun a _ => ?_, fun a _ b _ c _ hab hbc => ?_, fun a ha b hb => ?_⟩
  · rw [← Bool.not_eq_true, h a a]
    exact lt_irrefl _
  · rw [h] at *
    exact hab.trans hbc
  · rw [h, h]
    rcases lt_trichotomy (rank a) (rank b) with hab | hab | hab
    · exact .inr (.inl hab)
    · exact .inl (hinj a ha b hb hab)
    · exact .inr (.inr hab)

theorem Ranked.eq_false (h : Ranked lt rank) (a b : α) : lt b a = false ↔ rank a ≤ rank b := by
  rw [← not_lt, ← h b a, Bool.not_eq_true]

theorem sortBy_pairwise (h : Ranked lt rank) (l : List α) : (sortBy lt l).Pairwise fun a b => rank a ≤ rank b := by
  have total : Std.Total fun a b => lt b a = false :=
    ⟨fun a b => by rw [h.eq_false, h.eq_false]; exact le_total _ _⟩
  have trans : IsTrans α fun a b => lt b a = false :=
    ⟨fun a b c hab hbc => by rw [h.eq_false] at *; exact le_trans hab hbc⟩
  exact (List.pairwise_insertionSort _ l).imp fun {a b} hab => (h.eq_false a b).mp hab

/-- Sorting forgets the order of its input when ranks tell elements apart. -/
theorem sortBy_congr (h : Ranked lt rank) {l l' : List α} (hp : l.Perm l')
    (hinj : ∀ a ∈ l, ∀ b ∈ l, rank a = rank b → a = b) : sortBy lt l = sortBy lt l' := by
  refine List.Perm.eq_of_pairwise ?_ (sortBy_pairwise h l) (sortBy_pairwise h l')
    ((sortBy_perm lt l).trans (hp.trans (sortBy_perm lt l').symm))
  intro a b ha hb hab hba
  refine hinj a (mem_sortBy.mp ha) b (hp.mem_iff.mpr (mem_sortBy.mp hb)) (le_antisymm hab hba)

/-- However a list is sorted, the result is this one. -/
theorem eq_sortBy (h : Ranked lt rank) {l s : List α} (hp : s.Perm l) (hs : s.Pairwise fun a b => lt b a = false)
    (hinj : ∀ a ∈ l, ∀ b ∈ l, rank a = rank b → a = b) : s = sortBy lt l := by
  have hs' : s.Pairwise fun a b => rank a ≤ rank b := hs.imp fun {a b} hab => (h.eq_false a b).mp hab
  refine List.Perm.eq_of_pairwise ?_ hs' (sortBy_pairwise h l) (hp.trans (sortBy_perm lt l).symm)
  intro a b ha hb hab hba
  exact hinj a (hp.mem_iff.mp ha) b (mem_sortBy.mp hb) (le_antisymm hab hba)

/-- Elements told apart by their ranks are sorted strictly. -/
theorem sortBy_strict (h : Ranked lt rank) {l : List α} (hn : l.Nodup)
    (hinj : ∀ a ∈ l, ∀ b ∈ l, rank a = rank b → a = b) : (sortBy lt l).Pairwise fun a b => rank a < rank b := by
  have hn' : (sortBy lt l).Nodup := (sortBy_perm lt l).nodup_iff.mpr hn
  refine ((sortBy_pairwise h l).and hn').imp_of_mem fun {a b} ha hb hab => lt_of_le_of_ne hab.1 fun hr => ?_
  exact hab.2 (hinj a (mem_sortBy.mp ha) b (mem_sortBy.mp hb) hr)

/-- Elements of a strictly sorted list, in its order, are a sublist of it. -/
theorem sublist_of_strict {l s : List α} (hl : l.Pairwise fun a b => rank a < rank b)
    (hs : s.Pairwise fun a b => rank a < rank b) (hm : ∀ a ∈ s, a ∈ l) : s.Sublist l := by
  have antisymm : Std.Antisymm fun a b : α => rank a < rank b := ⟨fun a b hab hba => absurd hba (lt_asymm hab)⟩
  have irrefl : Std.Irrefl fun a b : α => rank a < rank b := ⟨fun a => lt_irrefl (rank a)⟩
  exact List.sublist_of_subperm_of_pairwise (List.subperm_of_subset hs.nodup hm) hs hl

/-- In a sorted list what is smaller comes first. -/
theorem pair_sublist : ∀ {l : List α} {a b : α}, (l.Pairwise fun a b => rank a ≤ rank b) → a ∈ l → b ∈ l →
    rank a < rank b → [a, b].Sublist l
  | [], _, _, _, ha, _, _ => by simp at ha
  | c :: l, a, b, hl, ha, hb, hab => by
    obtain ⟨hc, hl⟩ := List.pairwise_cons.mp hl
    have hbc : b ≠ c := by
      rintro rfl
      rcases List.mem_cons.mp ha with rfl | ha
      · exact lt_irrefl _ hab
      · exact absurd (hc a ha) (not_le.mpr hab)
    have hbl : b ∈ l := (List.mem_cons.mp hb).resolve_left hbc
    rcases List.mem_cons.mp ha with rfl | ha
    · exact (List.singleton_sublist.mpr hbl).cons_cons a
    · exact (pair_sublist hl ha hbl hab).cons c
/-- The ranks of a sorted list depend on its elements only, ties included. -/
theorem sortBy_ranks (h : Ranked lt rank) {l l' : List α} (hp : l.Perm l') :
    (sortBy lt l).map rank = (sortBy lt l').map rank := by
  have sorted : ∀ l, ((sortBy lt l).map rank).Pairwise (· ≤ ·) := fun l =>
    (sortBy_pairwise h l).map rank fun _ _ hab => hab
  exact List.Perm.eq_of_pairwise (fun a b _ _ => le_antisymm) (sorted l) (sorted l')
    (((sortBy_perm lt l).trans (hp.trans (sortBy_perm lt l').symm)).map rank)

/-! ## Totals over some of the elements -/

theorem sum_map_filter {M : Type*} [AddCommMonoid M] (p : α → Prop) [DecidablePred p] (f : α → M) (S : Multiset α) :
    ((S.filter p).map f).sum = (S.map fun a => if p a then f a else 0).sum := by
  induction S using Multiset.induction_on with
  | empty => rfl
  | cons a S ih =>
    by_cases ha : p a
    · rw [Multiset.filter_cons_of_pos _ ha, Multiset.map_cons, Multiset.sum_cons, ih, Multiset.map_cons,
        Multiset.sum_cons, if_pos ha]
    · rw [Multiset.filter_cons_of_neg _ ha, ih, Multiset.map_cons, Multiset.sum_cons, if_neg ha, zero_add]

theorem sum_map_filter_list {M : Type*} [AddCommMonoid M] (p : α → Prop) [DecidablePred p] (f : α → M) (l : List α) :
    ((l.filter p).map f).sum = (l.map fun a => if p a then f a else 0).sum := by
  simpa using sum_map_filter p f (l : Multiset α)

theorem countP_eq_sum (p : α → Prop) [DecidablePred p] (S : Multiset α) :
    S.countP p = (S.map fun a => if p a then 1 else 0).sum := by
  induction S using Multiset.induction_on with
  | empty => rfl
  | cons a S ih => rw [Multiset.countP_cons, ih, Multiset.map_cons, Multiset.sum_cons, Nat.add_comm]

/-! ## Merging neighbours -/

/-- `a` absorbs the elements after it that are `same` as it, and so on from
the first that is not. -/
def mergeFrom (same : α → α → Bool) (absorb : α → α) (a : α) : List α → List α
  | [] => [a]
  | b :: l => if same a b then mergeFrom same absorb (absorb a) l else a :: mergeFrom same absorb b l

/-- Each run of neighbours that are `same`, merged into its first element. -/
def mergeRuns (same : α → α → Bool) (absorb : α → α) : List α → List α
  | [] => []
  | a :: l => mergeFrom same absorb a l

variable {same : α → α → Bool} {absorb : α → α} {M : Type*} [AddCommMonoid M] {f : α → M}

theorem mergeFrom_sum : ∀ (l : List α) (a : α),
    (∀ b ∈ l, ∀ a, same a b = true → f (absorb a) = f a + f b) →
    ((mergeFrom same absorb a l).map f).sum = f a + (l.map f).sum
  | [], a, _ => by simp [mergeFrom]
  | b :: l, a, h => by
    have hl : ∀ b ∈ l, ∀ a, same a b = true → f (absorb a) = f a + f b := fun b hb => h b (by simp [hb])
    simp only [mergeFrom]
    split
    · next hs => rw [mergeFrom_sum l _ hl, h b (by simp) a hs, List.map_cons, List.sum_cons, add_assoc]
    · rw [List.map_cons, List.sum_cons, mergeFrom_sum l b hl, List.map_cons, List.sum_cons]

/-- Merging keeps a total that counts a merged element for both. -/
theorem mergeRuns_sum (l : List α) (h : ∀ b ∈ l, ∀ a, same a b = true → f (absorb a) = f a + f b) :
    ((mergeRuns same absorb l).map f).sum = (l.map f).sum := by
  cases l with
  | nil => rfl
  | cons a l =>
    rw [mergeRuns, mergeFrom_sum l a fun b hb => h b (by simp [hb]), List.map_cons, List.sum_cons]

/-! ## Keys

Two elements are `same` when they have one key, and an element keeps its key
when it absorbs another. -/

section Keys

variable {κ : Type*} {key : α → κ}

/-- No element of another key stands between two elements of one key. -/
def Grouped (key : α → κ) (l : List α) : Prop := ∀ a b c, [a, b, c].Sublist l → key a = key c → key b = key a

theorem grouped_cons {a : α} {l : List α} :
    Grouped key (a :: l) ↔ (∀ b c, [b, c].Sublist l → key a = key c → key b = key a) ∧ Grouped key l := by
  constructor
  · intro h
    exact ⟨fun b c hs => h a b c (hs.cons_cons a), fun x y z hs => h x y z (hs.cons a)⟩
  · rintro ⟨hhead, htail⟩ x y z hs
    cases hs with
    | cons _ hs => exact htail x y z hs
    | cons_cons _ hs => exact hhead y z hs

/-- Merging by keys. -/
structure ByKey (same : α → α → Bool) (absorb : α → α) (key : α → κ) : Prop where
  same_iff : ∀ a b, same a b = true ↔ key a = key b
  key_absorb : ∀ a, key (absorb a) = key a

variable (hk : ByKey same absorb key)

include hk

theorem mem_keys_mergeFrom {k : κ} : ∀ (l : List α) (a : α),
    k ∈ (mergeFrom same absorb a l).map key ↔ k ∈ (a :: l).map key
  | [], a => Iff.rfl
  | b :: l, a => by
    simp only [mergeFrom]
    split
    · next hs =>
      have hab : key a = key b := (hk.same_iff a b).mp hs
      rw [mem_keys_mergeFrom l (absorb a)]
      simp only [List.map_cons, List.mem_cons, hk.key_absorb, hab, or_self_left]
    · have ih := mem_keys_mergeFrom (k := k) l b
      simp only [List.map_cons, List.mem_cons] at ih ⊢
      rw [ih]

theorem mergeFrom_nodup : ∀ (l : List α) (a : α),
    ((mergeFrom same absorb a l).map key).Nodup ↔ Grouped key (a :: l)
  | [], a => by
    refine ⟨fun _ => grouped_cons.mpr ⟨fun b c hs => ?_, fun x y z hs => ?_⟩, fun _ => List.nodup_singleton _⟩
    · simp at hs
    · simp at hs
  | b :: l, a => by
    simp only [mergeFrom]
    split
    · next hs =>
      have hab : key a = key b := (hk.same_iff a b).mp hs
      rw [mergeFrom_nodup l (absorb a), grouped_cons, grouped_cons, grouped_cons]
      simp only [hk.key_absorb]
      constructor
      · intro hx
        obtain ⟨hhead, htail⟩ := hx
        refine ⟨fun x z hxz hz => ?_, fun x z hxz hz => ?_, htail⟩
        · cases hxz with
          | cons _ hxz => exact hhead x z hxz hz
          | cons_cons _ _ => exact hab.symm
        · rw [← hab] at hz ⊢
          exact hhead x z hxz hz
      · intro hx
        obtain ⟨hhead, -, htail⟩ := hx
        exact ⟨fun x z hxz hz => hhead x z (hxz.cons b) hz, htail⟩
    · next hs =>
      have hab : key a ≠ key b := fun h => hs ((hk.same_iff a b).mpr h)
      rw [List.map_cons, List.nodup_cons, mergeFrom_nodup l b, mem_keys_mergeFrom hk l b, grouped_cons (a := a)]
      refine and_congr_left fun _ => ⟨fun hn x z hxz hz => ?_, fun hhead hm => ?_⟩
      · refine absurd ?_ hn
        rw [hz]
        exact List.mem_map_of_mem (hxz.subset (by simp))
      · obtain ⟨z, hz, hzk⟩ := List.mem_map.mp hm
        rcases List.mem_cons.mp hz with rfl | hz
        · exact hab hzk.symm
        · exact hab (hhead b z ((List.singleton_sublist.mpr hz).cons_cons b) hzk.symm).symm

/-- Merging leaves one element of each key just when keys are neighbours. -/
theorem mergeRuns_nodup (l : List α) : ((mergeRuns same absorb l).map key).Nodup ↔ Grouped key l := by
  cases l with
  | nil => exact ⟨fun _ a b c hs => by simp at hs, fun _ => List.nodup_nil⟩
  | cons a l => exact mergeFrom_nodup hk l a

theorem mem_keys_mergeRuns {k : κ} (l : List α) : k ∈ (mergeRuns same absorb l).map key ↔ k ∈ l.map key := by
  cases l with
  | nil => exact Iff.rfl
  | cons a l => exact mem_keys_mergeFrom hk l a

end Keys

/-- What absorbing does not change is left in the order it was. -/
theorem mergeFrom_sublist {γ : Type*} {g : α → γ} (hg : ∀ a, g (absorb a) = g a) : ∀ (l : List α) (a : α),
    ((mergeFrom same absorb a l).map g).Sublist ((a :: l).map g)
  | [], a => List.Sublist.refl _
  | b :: l, a => by
    simp only [mergeFrom]
    split
    · have ih := mergeFrom_sublist hg l (absorb a)
      simp only [List.map_cons, hg] at ih ⊢
      exact ih.trans ((List.sublist_cons_self _ _).cons_cons _)
    · have ih := mergeFrom_sublist hg l b
      simp only [List.map_cons] at ih ⊢
      exact ih.cons_cons _

theorem mergeRuns_sublist {γ : Type*} {g : α → γ} (hg : ∀ a, g (absorb a) = g a) (l : List α) :
    ((mergeRuns same absorb l).map g).Sublist (l.map g) := by
  cases l with
  | nil => exact List.Sublist.refl _
  | cons a l => exact mergeFrom_sublist hg l a

/-! ## Who is merged into whom -/

/-- Each element of `l`, with the element it is merged into when `a` comes
before them. -/
def frontsFrom (same : α → α → Bool) (a : α) : List α → List (α × α)
  | [] => []
  | b :: l => if same a b then (a, b) :: frontsFrom same a l else (b, b) :: frontsFrom same b l

def fronts (same : α → α → Bool) : List α → List (α × α)
  | [] => []
  | a :: l => (a, a) :: frontsFrom same a l

theorem frontsFrom_snd : ∀ (l : List α) (a : α), (frontsFrom same a l).map (·.2) = l
  | [], a => rfl
  | b :: l, a => by
    simp only [frontsFrom]
    split
    · rw [List.map_cons, frontsFrom_snd l a]
    · rw [List.map_cons, frontsFrom_snd l b]

theorem fronts_snd (l : List α) : (fronts same l).map (·.2) = l := by
  cases l with
  | nil => rfl
  | cons a l => rw [fronts, List.map_cons, frontsFrom_snd l a]

theorem mergeFrom_sum_fronts {g : α → α → M} (hg : ∀ a b, same a b = true → f (absorb a) = f a + g a b)
    (hsame : ∀ a b, same (absorb a) b = same a b) (habsorb : ∀ a b, g (absorb a) b = g a b) :
    ∀ (l : List α) (x a : α), (∀ b ∈ l, f b = g b b) → (∀ b, same x b = same a b) → (∀ b, g x b = g a b) →
      ((mergeFrom same absorb x l).map f).sum = f x + ((frontsFrom same a l).map fun p => g p.1 p.2).sum
  | [], x, a, _, _, _ => by simp [mergeFrom, frontsFrom]
  | b :: l, x, a, hf, hs, hga => by
    have hl : ∀ b ∈ l, f b = g b b := fun b hb => hf b (List.mem_cons_of_mem _ hb)
    simp only [mergeFrom, frontsFrom, hs]
    split
    · next hab =>
      have ih := mergeFrom_sum_fronts hg hsame habsorb l (absorb x) a hl (fun c => by rw [hsame, hs])
        (fun c => by rw [habsorb, hga])
      rw [ih, hg x b (by rw [hs]; exact hab), hga, List.map_cons, List.sum_cons, add_assoc]
    · have ih := mergeFrom_sum_fronts hg hsame habsorb l b b hl (fun _ => rfl) (fun _ => rfl)
      rw [List.map_cons, List.sum_cons, ih, List.map_cons, List.sum_cons, hf b List.mem_cons_self]

/-- A total over merged elements, each element counted as its front has it. -/
theorem mergeRuns_sum_fronts {g : α → α → M} (hg : ∀ a b, same a b = true → f (absorb a) = f a + g a b)
    (hsame : ∀ a b, same (absorb a) b = same a b) (habsorb : ∀ a b, g (absorb a) b = g a b) (l : List α)
    (hf : ∀ b ∈ l, f b = g b b) :
    ((mergeRuns same absorb l).map f).sum = ((fronts same l).map fun p => g p.1 p.2).sum := by
  cases l with
  | nil => rfl
  | cons a l =>
    have hl : ∀ b ∈ l, f b = g b b := fun b hb => hf b (List.mem_cons_of_mem _ hb)
    rw [mergeRuns, mergeFrom_sum_fronts hg hsame habsorb l a a hl (fun _ => rfl) (fun _ => rfl), fronts, List.map_cons,
      List.sum_cons, hf a List.mem_cons_self]

section Runs

variable {κ : Type*} {key : α → κ}

/-- `x` comes before `y` or is `y`, and from `x` to `y` the key is one. -/
structure InRun (rank : α → β) (key : α → κ) (l : List α) (x y : α) : Prop where
  left : x ∈ l
  right : y ∈ l
  le : rank x ≤ rank y
  key_eq : ∀ z ∈ l, rank x ≤ rank z → rank z ≤ rank y → key z = key y

/-- `x` is the first of those from which to `y` the key is one. -/
structure Front (rank : α → β) (key : α → κ) (l : List α) (x y : α) : Prop extends InRun rank key l x y where
  first : ∀ z, InRun rank key l z y → rank x ≤ rank z

variable {a b : α} {l : List α} {x y : α}

/-- An element before the list, of another key than the list's first, is in
no run of it. -/
theorem Front.cons_of_ne (hl : (a :: b :: l).Pairwise fun a b => rank a < rank b) (hab : key a ≠ key b)
    (h : Front rank key (b :: l) x y) : Front rank key (a :: b :: l) x y := by
  obtain ⟨ha, hb⟩ := List.pairwise_cons.mp hl
  have hby : rank b ≤ rank y := by
    rcases List.mem_cons.mp h.right with rfl | hy
    · exact le_rfl
    · exact ((List.pairwise_cons.mp hb).1 y hy).le
  refine ⟨⟨List.mem_cons_of_mem _ h.left, List.mem_cons_of_mem _ h.right, h.le, fun z hz hxz hzy => ?_⟩, fun z hz => ?_⟩
  · rcases List.mem_cons.mp hz with rfl | hz
    · exact absurd (ha x h.left) (not_lt.mpr hxz)
    · exact h.key_eq z hz hxz hzy
  · rcases List.mem_cons.mp hz.left with rfl | hzl
    · have hz' : key b = key y := hz.key_eq b (by simp) (ha b List.mem_cons_self).le hby
      exact absurd ((hz.key_eq z hz.left le_rfl hz.le).trans hz'.symm) hab
    · exact h.first z ⟨hzl, h.right, hz.le, fun c hc => hz.key_eq c (List.mem_cons_of_mem _ hc)⟩

/-- An element of the key of the one before it fronts nothing. -/
theorem Front.cons_of_eq (hl : (a :: b :: l).Pairwise fun a b => rank a < rank b) (hab : key a = key b)
    (h : Front rank key (a :: l) x y) : Front rank key (a :: b :: l) x y := by
  obtain ⟨ha, hb⟩ := List.pairwise_cons.mp hl
  have hbl := (List.pairwise_cons.mp hb).1
  have hsub : ∀ {z}, z ∈ a :: l → z ∈ a :: b :: l := fun hz => by
    rcases List.mem_cons.mp hz with rfl | hz
    · exact List.mem_cons_self
    · exact List.mem_cons_of_mem _ (List.mem_cons_of_mem _ hz)
  refine ⟨⟨hsub h.left, hsub h.right, h.le, fun z hz hxz hzy => ?_⟩, fun z hz => ?_⟩
  · rcases List.mem_cons.mp hz with rfl | hz
    · exact h.key_eq z List.mem_cons_self hxz hzy
    · rcases List.mem_cons.mp hz with rfl | hz
      · have hxa : x = a := by
          rcases List.mem_cons.mp h.left with rfl | hx
          · rfl
          · exact absurd (hbl x hx) (not_lt.mpr hxz)
        rw [← hab, ← hxa]
        exact h.key_eq x h.left le_rfl h.le
      · exact h.key_eq z (List.mem_cons_of_mem _ hz) hxz hzy
  · -- A run from `b` on is one from `a` on.
    have hrun : ∀ {c}, c ∈ a :: l → InRun rank key (a :: b :: l) c y → InRun rank key (a :: l) c y := fun {c} hc hr =>
      ⟨hc, h.right, hr.le, fun e he => hr.key_eq e (hsub he)⟩
    rcases List.mem_cons.mp hz.left with rfl | hzl
    · exact h.first z (hrun List.mem_cons_self hz)
    · rcases List.mem_cons.mp hzl with rfl | hzl
      · have hay : rank a ≤ rank y := (ha z List.mem_cons_self).le.trans hz.le
        have hza : InRun rank key (a :: l) a y := by
          refine ⟨List.mem_cons_self, h.right, hay, fun e he _ hey => ?_⟩
          rcases List.mem_cons.mp he with rfl | he
          · rw [hab]
            exact hz.key_eq z hz.left le_rfl hz.le
          · exact hz.key_eq e (hsub (List.mem_cons_of_mem _ he)) (hbl e he).le hey
        exact (h.first a hza).trans (ha z List.mem_cons_self).le
      · exact h.first z (hrun (List.mem_cons_of_mem _ hzl) hz)

theorem front_head (hl : (a :: l).Pairwise fun a b => rank a < rank b) : Front rank key (a :: l) a a := by
  have ha := (List.pairwise_cons.mp hl).1
  refine ⟨⟨List.mem_cons_self, List.mem_cons_self, le_rfl, fun z hz haz hza => ?_⟩, fun z hz => ?_⟩
  · rcases List.mem_cons.mp hz with rfl | hz
    · rfl
    · exact absurd (ha z hz) (not_lt.mpr hza)
  · rcases List.mem_cons.mp hz.left with rfl | hz
    · exact le_rfl
    · exact (ha z hz).le

theorem front_second (hl : (a :: b :: l).Pairwise fun a b => rank a < rank b) (hab : key a = key b) :
    Front rank key (a :: b :: l) a b := by
  obtain ⟨ha, hb⟩ := List.pairwise_cons.mp hl
  have hbl := (List.pairwise_cons.mp hb).1
  refine ⟨⟨by simp, by simp, (ha b List.mem_cons_self).le, fun z hz haz hzb => ?_⟩, fun z hz => ?_⟩
  · rcases List.mem_cons.mp hz with rfl | hz
    · exact hab
    · rcases List.mem_cons.mp hz with rfl | hz
      · rfl
      · exact absurd (hbl z hz) (not_lt.mpr hzb)
  · rcases List.mem_cons.mp hz.left with rfl | hz
    · exact le_rfl
    · exact (ha z hz).le

theorem front_of_mem_frontsFrom (hs : ∀ a b, same a b = true ↔ key a = key b) : ∀ (l : List α) (a : α),
    ((a :: l).Pairwise fun a b => rank a < rank b) → ∀ p ∈ frontsFrom same a l, Front rank key (a :: l) p.1 p.2
  | [], a, _, p, hp => by simp [frontsFrom] at hp
  | b :: l, a, hl, p, hp => by
    have hb := (List.pairwise_cons.mp hl).2
    simp only [frontsFrom] at hp
    split at hp
    · next hab =>
      have hal : (a :: l).Pairwise fun a b => rank a < rank b := hl.sublist ((List.sublist_cons_self b l).cons_cons a)
      rcases List.mem_cons.mp hp with rfl | hp
      · exact front_second hl ((hs a b).mp hab)
      · exact (front_of_mem_frontsFrom hs l a hal p hp).cons_of_eq hl ((hs a b).mp hab)
    · next hab =>
      have hne : key a ≠ key b := fun h => hab ((hs a b).mpr h)
      rcases List.mem_cons.mp hp with rfl | hp
      · exact (front_head hb).cons_of_ne hl hne
      · exact (front_of_mem_frontsFrom hs l b hb p hp).cons_of_ne hl hne

/-- In a sorted list an element is merged into the front of its run. -/
theorem front_of_mem_fronts (hs : ∀ a b, same a b = true ↔ key a = key b)
    (hl : l.Pairwise fun a b => rank a < rank b) {p : α × α} (hp : p ∈ fronts same l) :
    Front rank key l p.1 p.2 := by
  cases l with
  | nil => simp [fronts] at hp
  | cons a l =>
    rcases List.mem_cons.mp hp with rfl | hp
    · exact front_head hl
    · exact front_of_mem_frontsFrom hs l a hl p hp

end Runs

end SortMerge
