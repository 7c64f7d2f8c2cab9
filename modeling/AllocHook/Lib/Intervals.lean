/-
Intervals that a record keeps by their starts, over a set of points.

`Tiles` says that the recorded intervals are in the set and apart. One update
covers mapping and unmapping: the points of an interval go, those of an
initial part of it come, and the record at its start becomes that part. The
record stays true to the number of points just when the points that go are
those of the interval recorded at that start (`count_iff`), and then it still
tiles (`Tiles.replace`).
-/
import Mathlib.Order.Interval.Finset.Nat
import Mathlib.Data.Finset.Card

namespace Intervals

open Finset

variable {ι : Type*} {start size : ι → ℕ} {points : Finset ℕ} {i : ι} {n m : ℕ}

/-- The intervals lie in the set, and no two of them meet. -/
structure Tiles (start size : ι → ℕ) (points : Finset ℕ) : Prop where
  inside : ∀ i, Ico (start i) (start i + size i) ⊆ points
  apart : ∀ i j, i ≠ j → Disjoint (Ico (start i) (start i + size i)) (Ico (start j) (start j + size j))

/-- The points of an interval go, and those of an initial part of it come. -/
def replace (points : Finset ℕ) (a n m : ℕ) : Finset ℕ := points \ Ico a (a + n) ∪ Ico a (a + m)

theorem replace_self (points : Finset ℕ) (a n : ℕ) : replace points a n n = points ∪ Ico a (a + n) :=
  sdiff_union_self_eq_union

theorem replace_zero (points : Finset ℕ) (a n : ℕ) : replace points a n 0 = points \ Ico a (a + n) := by
  rw [replace, Nat.add_zero, Ico_self, union_empty]

theorem card_replace (points : Finset ℕ) (a : ℕ) (hm : m ≤ n) :
    (replace points a n m).card + (points ∩ Ico a (a + n)).card = points.card + m := by
  have hsub : Ico a (a + m) ⊆ Ico a (a + n) := Ico_subset_Ico_right (by omega)
  have hdisj : Disjoint (points \ Ico a (a + n)) (Ico a (a + m)) := disjoint_of_subset_right hsub sdiff_disjoint
  have hcard : (Ico a (a + m)).card = m := by rw [Nat.card_Ico]; omega
  have hparts := card_sdiff_add_card_inter points (Ico a (a + n))
  rw [replace, card_union_of_disjoint hdisj, hcard]
  omega

/-- As many points as recorded are the points recorded. -/
theorem Tiles.count_iff (h : Tiles start size points) :
    size i = (points ∩ Ico (start i) (start i + n)).card ↔
      points ∩ Ico (start i) (start i + n) = Ico (start i) (start i + size i) := by
  constructor
  · intro hcount
    have hle : size i ≤ n := by
      rw [hcount]
      refine (card_le_card inter_subset_right).trans ?_
      rw [Nat.card_Ico]
      omega
    refine (eq_of_subset_of_card_le (subset_inter (h.inside i) (Ico_subset_Ico_right (by omega))) ?_).symm
    rw [← hcount, Nat.card_Ico]
    omega
  · intro hq
    rw [hq, Nat.card_Ico]
    omega

/-- An interval with no points but those recorded at its start may be replaced. -/
theorem Tiles.replace [DecidableEq ι] (h : Tiles start size points) (hm : m ≤ n)
    (hq : points ∩ Ico (start i) (start i + n) = Ico (start i) (start i + size i)) :
    Tiles start (Function.update size i m) (replace points (start i) n m) := by
  have hsub : Ico (start i) (start i + m) ⊆ Ico (start i) (start i + n) := Ico_subset_Ico_right (by omega)
  -- The other intervals keep clear of the whole interval, not just of the part recorded.
  have hclear : ∀ j, j ≠ i → Disjoint (Ico (start j) (start j + size j)) (Ico (start i) (start i + n)) := by
    intro j hj
    rw [disjoint_left]
    intro p hpj hpi
    have hp : p ∈ points ∩ Ico (start i) (start i + n) := mem_inter.mpr ⟨h.inside j hpj, hpi⟩
    rw [hq] at hp
    exact disjoint_left.mp (h.apart j i hj) hpj hp
  refine ⟨fun j => ?_, fun j k hjk => ?_⟩
  · by_cases hj : j = i
    · rw [hj, Function.update_self]
      exact subset_union_right
    · rw [Function.update_of_ne hj]
      refine subset_union_left.trans' fun p hp => mem_sdiff.mpr ⟨h.inside j hp, ?_⟩
      exact disjoint_left.mp (hclear j hj) hp
  · by_cases hj : j = i
    · have hk : k ≠ i := fun hk => hjk (hj.trans hk.symm)
      rw [hj, Function.update_self, Function.update_of_ne hk]
      exact (disjoint_of_subset_right hsub (hclear k hk)).symm
    · by_cases hk : k = i
      · rw [hk, Function.update_self, Function.update_of_ne hj]
        exact disjoint_of_subset_right hsub (hclear j hj)
      · rw [Function.update_of_ne hj, Function.update_of_ne hk]
        exact h.apart j k hjk

end Intervals
