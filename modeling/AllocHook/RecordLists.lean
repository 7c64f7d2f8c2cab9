/-
The lists of records `GetList` and `GetUniqueList` make of the tables.

`uniquePred` compares records by a rank (`uniquePred_ranked`) in which the
address comes last, and no two tracked pointers share an address. So the list
is the same in whatever order the hash map is walked
(`getUniqueList_iteration`), and it depends on the pointer and the stack
tables alone (`getUniqueList_congr`). Totals over it are totals over the
traced entries (`getUniqueList_sum`).
-/
import AllocHook.Charges
import Mathlib.Data.Prod.Lex

namespace AllocHook

open FiniteMap SortMerge

variable {w : Nat} {d d' : PointerData w}

/-! ## The comparisons -/

/-- Size and depth downwards, records with a stack first, then the address
upwards. -/
abbrev UniqueRank := ℕᵒᵈ ×ₗ ℕ ×ₗ ℕᵒᵈ ×ₗ ℕ

def PointerData.uniqueRank (d : PointerData w) (a : ListInfoType w) : UniqueRank :=
  toLex (OrderDual.toDual a.size.toNat, toLex (if a.frameInfo.isSome then 0 else 1,
    toLex (OrderDual.toDual ((a.frameInfo.map d.depth).getD 0), a.pointer.toNat)))

theorem uniquePred_ranked (d : PointerData w) : Ranked d.uniquePred d.uniqueRank := by
  intro a b
  unfold PointerData.uniquePred PointerData.uniqueRank
  simp only [Prod.Lex.toLex_lt_toLex, OrderDual.toDual_lt_toDual, EmbeddingLike.apply_eq_iff_eq]
  by_cases hs : a.size = b.size
  · rw [if_neg (not_not.mpr hs)]
    cases ha : a.frameInfo with
    | none => cases hb : b.frameInfo <;> simp [hs, BitVec.lt_def]
    | some fa =>
      cases hb : b.frameInfo with
      | none => simp [hs]
      | some fb =>
        by_cases hd : d.depth fa = d.depth fb
        · simp [hs, hd, BitVec.lt_def]
        · simp [hs, hd]
  · rw [if_pos hs]
    have : a.size.toNat ≠ b.size.toNat := fun h => hs (BitVec.eq_of_toNat_eq h)
    simp [this, BitVec.lt_def]

/-- The order of a live dump. -/
def timePred (a b : ListInfoType w) : Bool := decide (a.allocTime.micros < b.allocTime.micros)

theorem timePred_ranked : Ranked (timePred (w := w)) fun a => a.allocTime.micros := by
  intro a b
  simp only [timePred, decide_eq_true_eq]

/-! ## The lists -/

/-- The records of a walk before they are sorted. -/
def PointerData.unsorted (d : PointerData w) (it : Iteration (Word w) (PointerInfoType w)) (only : Bool) :
    List (ListInfoType w) :=
  ((it.walk d.pointers).filter fun entry =>
    !(decide (entry.2.hashIndex ≤ kBacktraceEmptyIndex) && only)).map d.listInfo

theorem getList_perm (d : PointerData w) (it : Iteration (Word w) (PointerInfoType w)) (only : Bool)
    (pred : ListInfoType w → ListInfoType w → Bool) : (d.getList it only pred).Perm (d.unsorted it only) :=
  sortBy_perm _ _

theorem unsorted_perm (d : PointerData w) (it it' : Iteration (Word w) (PointerInfoType w)) (only : Bool) :
    (d.unsorted it only).Perm (d.unsorted it' only) :=
  ((it.walk_perm it' d.pointers).filter _).map _

/-- A record of a list is the record of an entry that was to be listed. -/
theorem mem_unsorted {it : Iteration (Word w) (PointerInfoType w)} {only : Bool} {a : ListInfoType w} :
    a ∈ d.unsorted it only ↔ ∃ k e, d.pointers.lookup k = some e ∧
      (only = true → kBacktraceEmptyIndex < e.hashIndex) ∧ a = d.listInfo ⟨k, e⟩ := by
  simp only [PointerData.unsorted, List.mem_map, List.mem_filter]
  constructor
  · intro h
    obtain ⟨⟨k, e⟩, ⟨hm, hp⟩, rfl⟩ := h
    refine ⟨k, e, it.mem_walk.mp hm, ?_, rfl⟩
    rintro rfl
    simpa using hp
  · intro h
    obtain ⟨k, e, hk, hp, rfl⟩ := h
    refine ⟨⟨k, e⟩, ⟨it.mem_walk.mpr hk, ?_⟩, rfl⟩
    cases only with
    | false => simp
    | true => simpa using hp rfl

theorem listInfo_eq_of_pointer {k k' : Word w} {e e' : PointerInfoType w} (hk : d.pointers.lookup k = some e)
    (hk' : d.pointers.lookup k' = some e') (h : (d.listInfo ⟨k, e⟩).pointer = (d.listInfo ⟨k', e'⟩).pointer) :
    d.listInfo ⟨k, e⟩ = d.listInfo ⟨k', e'⟩ := by
  have : k = k' := by
    simp only [PointerData.listInfo] at h
    rw [← mangle_demangle k, h, mangle_demangle]
  subst this
  rw [Option.some.inj (hk.symm.trans hk')]

/-- The address tells the records of a list apart. -/
theorem uniqueRank_inj {it : Iteration (Word w) (PointerInfoType w)} {only : Bool} :
    ∀ a ∈ d.unsorted it only, ∀ b ∈ d.unsorted it only, d.uniqueRank a = d.uniqueRank b → a = b := by
  intro a ha b hb hr
  obtain ⟨k, e, hk, -, rfl⟩ := mem_unsorted.mp ha
  obtain ⟨k', e', hk', -, rfl⟩ := mem_unsorted.mp hb
  refine listInfo_eq_of_pointer hk hk' (BitVec.eq_of_toNat_eq ?_)
  simp only [PointerData.uniqueRank, EmbeddingLike.apply_eq_iff_eq, Prod.mk.injEq] at hr
  exact hr.2.2.2

/-- The unique list does not depend on the order of the walk. -/
theorem getUniqueList_iteration (d : PointerData w) (it it' : Iteration (Word w) (PointerInfoType w))
    (only : Bool) : d.getUniqueList it only = d.getUniqueList it' only :=
  congrArg removeDuplicates (sortBy_congr (uniquePred_ranked d) (unsorted_perm d it it' only) uniqueRank_inj)

/-- The unique list is read off the pointer and the stack tables. -/
theorem getUniqueList_congr (hp : d'.pointers = d.pointers) (hf : d'.frames = d.frames)
    (hb : d'.backtracesInfo = d.backtracesInfo) (it : Iteration (Word w) (PointerInfoType w)) (only : Bool) :
    d'.getUniqueList it only = d.getUniqueList it only := by
  have hl : d'.listInfo = d.listInfo := by
    funext entry
    simp only [PointerData.listInfo, hf, hb]
  have hd : d'.depth = d.depth := by
    funext h
    simp only [PointerData.depth, hf]
  have hu : d'.uniquePred = d.uniquePred := by
    funext a b
    unfold PointerData.uniquePred
    rw [hd]
  simp only [PointerData.getUniqueList, PointerData.getList, hp, hl, hu]

/-! ## Totals over a list -/

/-- The entries with a stack. -/
def PointerData.traced (d : PointerData w) : Multiset (PointerInfoType w) :=
  d.entries.filter fun e => kBacktraceEmptyIndex < e.hashIndex

variable {M : Type*} [AddCommMonoid M] {f : ListInfoType w → M} {g : PointerInfoType w → M}

/-- A total over the list of traced records is one over the traced entries. -/
theorem getList_sum (hfg : ∀ k e, f (d.listInfo ⟨k, e⟩) = g e) (it : Iteration (Word w) (PointerInfoType w))
    (pred : ListInfoType w → ListInfoType w → Bool) :
    ((d.getList it true pred).map f).sum = (d.traced.map g).sum := by
  have hmap : (d.unsorted it true).map f =
      (((it.walk d.pointers).filter fun entry => kBacktraceEmptyIndex < entry.2.hashIndex).map (·.2)).map g := by
    simp only [PointerData.unsorted, List.map_map, Bool.and_true]
    have hp : (fun entry : Sigma fun _ : Word w => PointerInfoType w =>
        !decide (entry.2.hashIndex ≤ kBacktraceEmptyIndex)) =
        fun entry => decide (kBacktraceEmptyIndex < entry.2.hashIndex) := by
      funext entry
      rw [Bool.eq_iff_iff]
      simp
    rw [hp]
    exact List.map_congr_left fun ⟨k, e⟩ _ => hfg k e
  have hval : d.traced = ((((it.walk d.pointers).filter fun entry =>
      kBacktraceEmptyIndex < entry.2.hashIndex).map (·.2) : List _) : Multiset (PointerInfoType w)) := by
    rw [PointerData.traced, PointerData.entries, ← it.walk_values, Multiset.filter_coe, List.filter_map]
    rfl
  rw [((getList_perm d it true pred).map f).sum_eq, hmap, hval, Multiset.map_coe, Multiset.sum_coe]

/-- So is one over the unique list, when a merged record counts for both. -/
theorem getUniqueList_sum (hfg : ∀ k e, f (d.listInfo ⟨k, e⟩) = g e)
    (hmerge : ∀ a k e, a.size = e.realSize → a.frameInfo = (d.listInfo ⟨k, e⟩).frameInfo →
      f { a with numAllocations := a.numAllocations + 1 } = f a + f (d.listInfo ⟨k, e⟩))
    (it : Iteration (Word w) (PointerInfoType w)) :
    ((d.getUniqueList it true).map f).sum = (d.traced.map g).sum := by
  rw [← getList_sum hfg it d.uniquePred]
  refine mergeRuns_sum _ fun b hb a hs => ?_
  obtain ⟨k, e, -, -, rfl⟩ := mem_unsorted.mp ((getList_perm d it true d.uniquePred).mem_iff.mp hb)
  simp only [Bool.and_eq_true, decide_eq_true_eq] at hs
  exact hmerge a k e hs.1 hs.2

end AllocHook
