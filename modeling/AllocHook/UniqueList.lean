/-
The unique list (`GetUniqueList`), in every state the threads can reach.

The erase loop works in place, with an iterator and a counter on the record
it stands on; `eraseDuplicates_eq` says it stays inside the list, ends, and
leaves what `removeDuplicates` says. Nothing is lost: however the hash map is
walked and the records sorted, the list is the same one, and its counts add
up to the tracked pointers (`unique_list_lossless`).

The list need not be unique. Only neighbours are merged, and the comparison
orders blocks of one size by the depth of their stacks and then by address: a
block with another stack of that depth in between keeps two blocks of one
size and stack apart (`unique_list_unique_iff`).
-/
import AllocHook.Dumps
import AllocHook.Sections

namespace AllocHook

open FiniteMap SharedStore SortMerge

variable {w : Nat} {d : PointerData w}

/-! ## The erase loop -/

/-- The inner loop, `*iter` having had this size and stack: it counts in
`*iter` the records from `dupIter` on that have them too, and says where it
stopped. `none` is a read past the end of the list. -/
def countDuplicates (iter : ℕ) (size : Word w) (frameInfo : Option ℕ) :
    ℕ → List (ListInfoType w) → ℕ → Option (List (ListInfoType w) × ℕ)
  | 0, _, _ => none
  | fuel + 1, list, dupIter =>
    if dupIter = list.length then some (list, dupIter)
    else
      match list[dupIter]?, list[iter]? with
      | some dup, some it =>
        if size ≠ dup.size ∨ frameInfo ≠ dup.frameInfo then some (list, dupIter)
        else
          countDuplicates iter size frameInfo fuel
            (list.set iter { it with numAllocations := it.numAllocations + 1 }) (dupIter + 1)
      | _, _ => none

/-- The outer loop from `iter` on. `none` is a read past the end, or a call of
`erase` on what is no range of the list. -/
def eraseDuplicates : ℕ → List (ListInfoType w) → ℕ → Option (List (ListInfoType w))
  | 0, _, _ => none
  | fuel + 1, list, iter =>
    if iter = list.length then some list
    else
      match list[iter]? with
      | none => none
      | some it =>
        match countDuplicates iter it.size it.frameInfo (list.length + 1) list (iter + 1) with
        | none => none
        | some (list, dupIter) =>
          if iter + 1 ≤ dupIter ∧ dupIter ≤ list.length then
            eraseDuplicates fuel (list.take (iter + 1) ++ list.drop dupIter) (iter + 1)
          else none

/-- The records `removeDuplicates` merges, and what the first of them becomes. -/
def sameBlock (a b : ListInfoType w) : Bool := decide (a.size = b.size) && decide (a.frameInfo = b.frameInfo)

def countOne (a : ListInfoType w) : ListInfoType w := { a with numAllocations := a.numAllocations + 1 }

theorem removeDuplicates_eq (l : List (ListInfoType w)) : removeDuplicates l = mergeRuns sameBlock countOne l := rfl

/-- What the inner loop finds of the list behind `*iter`: `counted` of it is
counted already, `rest` is what it reads. -/
theorem countDuplicates_eq (done rest : List (ListInfoType w)) (a : ListInfoType w) (counted : List (ListInfoType w))
    (fuel : ℕ) (hf : rest.length < fuel) :
    ∃ a' counted' rest', counted' ++ rest' = counted ++ rest ∧ rest'.length ≤ rest.length ∧
      mergeFrom sameBlock countOne a rest = a' :: mergeRuns sameBlock countOne rest' ∧
      countDuplicates done.length a.size a.frameInfo fuel (done ++ a :: (counted ++ rest))
          (done.length + 1 + counted.length) =
        some (done ++ a' :: (counted' ++ rest'), done.length + 1 + counted'.length) := by
  induction rest generalizing a counted fuel with
  | nil =>
    obtain ⟨fuel, rfl⟩ : ∃ n, fuel = n + 1 := ⟨fuel - 1, by simp at hf; omega⟩
    refine ⟨a, counted, [], rfl, Nat.le_refl _, rfl, ?_⟩
    have hend : done.length + 1 + counted.length = (done ++ a :: (counted ++ [])).length := by simp; omega
    rw [countDuplicates, if_pos hend]
  | cons b rest ih =>
    obtain ⟨fuel, rfl⟩ : ∃ n, fuel = n + 1 := ⟨fuel - 1, by omega⟩
    have hend : done.length + 1 + counted.length ≠ (done ++ a :: (counted ++ b :: rest)).length := by simp; omega
    have hdup : (done ++ a :: (counted ++ b :: rest))[done.length + 1 + counted.length]? = some b := by
      rw [List.getElem?_append_right (by omega),
        show done.length + 1 + counted.length - done.length = counted.length + 1 by omega,
        List.getElem?_cons_succ, List.getElem?_append_right (Nat.le_refl _), Nat.sub_self]
      rfl
    have hiter : (done ++ a :: (counted ++ b :: rest))[done.length]? = some a := by simp
    rw [countDuplicates, if_neg hend, hdup, hiter]
    dsimp only
    by_cases hs : sameBlock a b = true
    · have hab : a.size = b.size ∧ a.frameInfo = b.frameInfo := by simpa [sameBlock] using hs
      obtain ⟨a', counted', rest', hq, hlen, hm, hc⟩ := ih (countOne a) (counted ++ [b]) fuel (by simp at hf; omega)
      refine ⟨a', counted', rest', by simpa using hq, by simp; omega, ?_, ?_⟩
      · rw [mergeFrom, if_pos hs, hm]
      · have hset : (done ++ a :: (counted ++ b :: rest)).set done.length (countOne a) =
            done ++ countOne a :: ((counted ++ [b]) ++ rest) := by simp
        rw [if_neg (by simp [hab]), show ({ a with numAllocations := a.numAllocations + 1 } : ListInfoType w) =
          countOne a from rfl, hset]
        simpa [countOne, Nat.add_assoc] using hc
    · have hab : a.size ≠ b.size ∨ a.frameInfo ≠ b.frameInfo := by
        simpa [sameBlock, -not_and, Classical.not_and_iff_not_or_not] using hs
      refine ⟨a, counted, b :: rest, rfl, Nat.le_refl _, ?_, if_pos hab⟩
      rw [mergeFrom, if_neg hs]
      rfl

/-- The loop ends within the list, and leaves it without duplicates as
`removeDuplicates` does. -/
theorem eraseDuplicates_from (fuel : ℕ) (done l : List (ListInfoType w)) (hf : l.length < fuel) :
    eraseDuplicates fuel (done ++ l) done.length = some (done ++ removeDuplicates l) := by
  induction fuel generalizing done l with
  | zero => omega
  | succ fuel ih =>
    cases l with
    | nil =>
      rw [eraseDuplicates, if_pos (by simp)]
      rfl
    | cons a l =>
      have hiter : (done ++ a :: l)[done.length]? = some a := by simp
      obtain ⟨a', counted, rest, hq, hlen, hm, hc⟩ :=
        countDuplicates_eq done l a [] ((done ++ a :: l).length + 1) (by simp; omega)
      have hlist : (done ++ a' :: (counted ++ rest)).length = done.length + 1 + counted.length + rest.length := by
        simp; omega
      have htake : (done ++ a' :: (counted ++ rest)).take (done.length + 1) = done ++ [a'] := by simp [List.take_append]
      have hdrop : (done ++ a' :: (counted ++ rest)).drop (done.length + 1 + counted.length) = rest := by
        rw [show done ++ a' :: (counted ++ rest) = (done ++ a' :: counted) ++ rest by simp]
        exact List.drop_left' (by simp; omega)
      have hlen' : (done ++ [a']).length = done.length + 1 := by simp
      simp only [List.nil_append, List.length_nil, Nat.add_zero] at hc
      rw [eraseDuplicates, if_neg (by simp), hiter]
      dsimp only
      rw [hc]
      dsimp only
      rw [if_pos ⟨by omega, by omega⟩, htake, hdrop, ← hlen', ih (done ++ [a']) rest (by simp at hf; omega),
        removeDuplicates_eq, removeDuplicates_eq, mergeRuns, hm]
      simp

theorem eraseDuplicates_eq (l : List (ListInfoType w)) :
    eraseDuplicates (l.length + 1) l 0 = some (removeDuplicates l) :=
  eraseDuplicates_from (l.length + 1) [] l (Nat.lt_succ_self _)

/-! ## Records and entries -/

variable {H : Multiset ℕ}

/-- An index that gives a stack is in the frame table. -/
theorem lookup_of_stackAt {h : ℕ} {stack : FrameKeyType w} (e : d.stackAt h = some stack) :
    kBacktraceEmptyIndex < h ∧ ∃ r, d.frames.lookup h = some { references := r, frames := stack } := by
  unfold PointerData.stackAt at e
  split at e
  · cases e
  · next hh =>
    obtain ⟨frameInfo, hl, rfl⟩ := Option.map_eq_some_iff.mp e
    exact ⟨Nat.not_le.mp hh, frameInfo.references, hl⟩

/-- One stack is stored under one index. -/
theorem StackHeld.stackAt_inj (hs : StackHeld d H) {h h' : ℕ} {stack : FrameKeyType w} (e : d.stackAt h = some stack)
    (e' : d.stackAt h' = some stack) : h = h' := by
  obtain ⟨-, r, hl⟩ := lookup_of_stackAt e
  obtain ⟨-, r', hl'⟩ := lookup_of_stackAt e'
  exact Held.slot_inj hs (slots_eq_some.mpr hl) (slots_eq_some.mpr hl')

/-- The record of an entry points at the stack of the entry. -/
theorem frameInfo_stackAt (d : PointerData w) (k : Word w) (e : PointerInfoType w) :
    (d.listInfo ⟨k, e⟩).frameInfo.bind d.stackAt = d.stackAt e.hashIndex := by
  simp only [PointerData.listInfo]
  split
  · rfl
  · next hm =>
    have hl : d.frames.lookup e.hashIndex = none := by
      rw [← Option.not_isSome_iff_eq_none, Option.isSome_iff_ne_none]
      exact fun h => hm (mem_iff_lookup_ne_none.mpr h)
    simp [PointerData.stackAt, hl]

/-- The record has this size and this stack. -/
def PointerData.Holds (d : PointerData w) (size : Word w) (stack : FrameKeyType w) (a : ListInfoType w) : Prop :=
  a.size = size ∧ a.frameInfo.bind d.stackAt = some stack

instance (d : PointerData w) (size : Word w) (stack : FrameKeyType w) : DecidablePred (d.Holds size stack) :=
  fun _ => inferInstanceAs (Decidable (_ ∧ _))

/-- How many pointers are tracked with this size, masked, and this stack. -/
def PointerData.tracked (d : PointerData w) (size : Word w) (stack : FrameKeyType w) : ℕ :=
  d.traced.countP fun e => e.realSize = size ∧ d.stackAt e.hashIndex = some stack

/-- What neighbours are merged by. -/
def blockKey (a : ListInfoType w) : Word w × Option ℕ := (a.size, a.frameInfo)

theorem StackHeld.holds_iff (hs : StackHeld d H) {h : ℕ} {stack : FrameKeyType w} (hst : d.stackAt h = some stack)
    (size : Word w) (a : ListInfoType w) : d.Holds size stack a ↔ blockKey a = (size, some h) := by
  rw [PointerData.Holds, blockKey, Prod.mk.injEq]
  refine and_congr_right fun _ => ⟨fun ha => ?_, fun ha => by rw [ha]; exact hst⟩
  obtain ⟨h', ha, hst'⟩ := Option.bind_eq_some_iff.mp ha
  rw [ha, hs.stackAt_inj hst' hst]

/-- The counts of the records with a size and a stack are the pointers
tracked with them. -/
theorem sum_holds (d : PointerData w) (it : Iteration (Word w) (PointerInfoType w)) (size : Word w)
    (stack : FrameKeyType w) :
    (((d.getUniqueList it true).filter (d.Holds size stack)).map (·.numAllocations)).sum = d.tracked size stack := by
  rw [sum_map_filter_list, PointerData.tracked, countP_eq_sum]
  refine getUniqueList_sum (fun k e => ?_) (fun a k e hs hf => ?_) it
  · simp only [PointerData.Holds, frameInfo_stackAt]
    rfl
  · have hholds : d.Holds size stack (d.listInfo ⟨k, e⟩) ↔ d.Holds size stack a := by
      simp only [PointerData.Holds, hf, hs, PointerData.listInfo]
    have hone : d.Holds size stack { a with numAllocations := a.numAllocations + 1 } ↔ d.Holds size stack a := Iff.rfl
    simp only [hholds, hone]
    split
    · rfl
    · rfl

/-- The sizes of the records, each as often as it counts, are those of the
traced entries. -/
theorem sum_sizes (d : PointerData w) (it : Iteration (Word w) (PointerInfoType w)) :
    ((d.getUniqueList it true).map fun a => a.size.toNat * a.numAllocations).sum =
      (d.traced.map fun e => e.realSize.toNat).sum := by
  refine getUniqueList_sum (fun k e => Nat.mul_one _) (fun a k e hs _ => ?_) it
  show a.size.toNat * (a.numAllocations + 1) = a.size.toNat * a.numAllocations + e.realSize.toNat * 1
  rw [hs, Nat.mul_add]

/-! ## Nothing is lost -/

theorem unsorted_nodup (d : PointerData w) (it : Iteration (Word w) (PointerInfoType w)) (only : Bool) :
    (d.unsorted it only).Nodup := by
  have hwalk : (it.walk d.pointers).Nodup := by
    rw [← Multiset.coe_nodup, it.spec]
    exact d.pointers.nodupKeys.nodup
  refine (hwalk.filter _).map_on ?_
  rintro ⟨k, e⟩ hm ⟨k', e'⟩ hm' hq
  have hk := it.mem_walk.mp (List.mem_of_mem_filter hm)
  have hk' := it.mem_walk.mp (List.mem_of_mem_filter hm')
  have hkk : k = k' := by
    have := congrArg ListInfoType.pointer hq
    simp only [PointerData.listInfo] at this
    rw [← mangle_demangle k, this, mangle_demangle]
  subst hkk
  rw [Option.some.inj (hk.symm.trans hk')]

theorem getList_strict (d : PointerData w) (it : Iteration (Word w) (PointerInfoType w)) (only : Bool) :
    (d.getList it only d.uniquePred).Pairwise fun a b => d.uniqueRank a < d.uniqueRank b :=
  sortBy_strict (uniquePred_ranked d) (unsorted_nodup d it only) uniqueRank_inj

/-- The list is in the order it was sorted in. -/
theorem getUniqueList_sorted (d : PointerData w) (it : Iteration (Word w) (PointerInfoType w)) :
    (d.getUniqueList it true).Pairwise fun a b => d.uniquePred a b = true := by
  have hcount : ∀ a, d.uniqueRank (countOne a) = d.uniqueRank a := fun _ => rfl
  have hsub : ((d.getUniqueList it true).map d.uniqueRank).Sublist
      ((d.getList it true d.uniquePred).map d.uniqueRank) :=
    mergeRuns_sublist hcount _
  have hlt : ((d.getList it true d.uniquePred).map d.uniqueRank).Pairwise (· < ·) :=
    List.pairwise_map.mpr (getList_strict d it true)
  refine (List.pairwise_map.mp (hlt.sublist hsub)).imp fun {a b} hab => ?_
  exact (uniquePred_ranked d a b).mpr hab

variable {Tid : Type*} [DecidableEq Tid]

/-- **Merging loses nothing and is deterministic.** In every state the threads
can reach the comparison is a strict total order on the records collected;
however the hash map is walked and they are sorted by it, the erase loop ends
within the list and leaves one and the same list, sorted; and its counts are
the tracked pointers, by size and stack and in all. -/
theorem unique_list_lossless [Fintype Tid] (getenv : Environ) {s : Sections Tid w}
    (hs : Interleaved (Config.init w getenv) s) (it : Iteration (Word w) (PointerInfoType w)) :
    let d := s.data
    let list := d.getUniqueList it true
    StrictTotalOn d.uniquePred (d.unsorted it true) ∧
    (∀ it' sorted, sorted.Perm (d.unsorted it' true) → (sorted.Pairwise fun a b => d.uniquePred b a = false) →
      eraseDuplicates (sorted.length + 1) sorted 0 = some list) ∧
    (list.Pairwise fun a b => d.uniquePred a b = true) ∧
    (∀ size h stack, d.stackAt h = some stack →
      ((list.filter fun a => a.size = size ∧ a.frameInfo = some h).map (·.numAllocations)).sum =
        d.traced.countP fun e => e.realSize = size ∧ d.stackAt e.hashIndex = some stack) ∧
    (list.map fun a => a.size.toNat * a.numAllocations).sum = (d.traced.map fun e => e.realSize.toNat).sum := by
  intro d list
  obtain ⟨L, hc⟩ := (hs.attributed (init_backtrace w getenv)).charged
  refine ⟨(uniquePred_ranked d).strictTotalOn uniqueRank_inj, fun it' sorted hp hsorted => ?_,
    getUniqueList_sorted d it, fun size h stack hst => ?_, sum_sizes d it⟩
  · have hlist : sorted = d.getList it' true d.uniquePred := eq_sortBy (uniquePred_ranked d) hp hsorted uniqueRank_inj
    rw [eraseDuplicates_eq, hlist]
    exact congrArg some (getUniqueList_iteration d it' it true)
  · rw [← PointerData.tracked, ← sum_holds d it size stack]
    refine congrArg (fun l : List (ListInfoType w) => (l.map (·.numAllocations)).sum) (List.filter_congr fun a _ => ?_)
    rw [decide_eq_decide, hc.held.holds_iff hst, blockKey, Prod.mk.injEq]

/-- Three blocks of one size, two of them from one place, the third between or
behind them in memory. -/
def threeBlocks (third : Word 64) : List (Call 64) :=
  [.add (.single 64 0x1000 1) 0x7f0000000000 4096 .host, .add (.single 64 0x1000 2) 0x7f0000002000 4096 .host,
    .add (.single 64 0x2000 3) third 4096 .host]

/-- The tracker after them. -/
def afterThree (third : Word 64) : PointerData 64 := PointerData.run (Config.init 64 ⟨none, none⟩) (threeBlocks third)

theorem interleaved_afterThree (third : Word 64) :
    ∃ l, Interleaved (Config.init 64 ⟨none, none⟩)
      { data := afterThree third, threads := only (0 : Fin 1) .idle, captured := l } :=
  interleaved_run (Config.init 64 ⟨none, none⟩) 0 (threeBlocks third)

/-- With the third block behind the other two, they are counted in one record. -/
theorem unique_list_lossless_three :
    StrictTotalOn (afterThree 0x7f0000004000).uniquePred ((afterThree 0x7f0000004000).unsorted (byAddress 64) true) ∧
    ((((afterThree 0x7f0000004000).getUniqueList (byAddress 64) true).filter fun a =>
      a.size = 4096 ∧ a.frameInfo = some 2).map (·.numAllocations)).sum = 2 := by
  obtain ⟨l, hs⟩ := interleaved_afterThree 0x7f0000004000
  obtain ⟨htotal, -, -, hsum, -⟩ := unique_list_lossless ⟨none, none⟩ hs (byAddress 64)
  have hst : (afterThree 0x7f0000004000).stackAt 2 = some [0x1000] := by decide
  have htwo : (afterThree 0x7f0000004000).tracked 4096 [0x1000] = 2 := by decide
  exact ⟨htotal, (hsum 4096 2 [0x1000] hst).trans htwo⟩

/-! ## When the list is unique -/

theorem byKey : ByKey (sameBlock (w := w)) countOne blockKey := by
  refine ⟨fun a b => ?_, fun a => rfl⟩
  simp only [sameBlock, blockKey, Bool.and_eq_true, decide_eq_true_eq, Prod.mk.injEq]

/-- No two records have one size and one stack. -/
def UniqueBlocks (list : List (ListInfoType w)) : Prop :=
  list.Pairwise fun a b => ¬ (a.size = b.size ∧ a.frameInfo = b.frameInfo)

theorem uniqueBlocks_iff {list : List (ListInfoType w)} : UniqueBlocks list ↔ (list.map blockKey).Nodup := by
  simp only [UniqueBlocks, List.Nodup, List.pairwise_map, blockKey, ne_eq, Prod.mk.injEq]

/-- The pointer is tracked under this entry, with a stack. -/
def PointerData.TracedAt (d : PointerData w) (ptr : Word w) (e : PointerInfoType w) : Prop :=
  d.pointers.lookup (manglePointer ptr) = some e ∧ kBacktraceEmptyIndex < e.hashIndex

/-- Between two blocks of one size and stack no block of that size has another
stack of that depth. -/
def PointerData.Undivided (d : PointerData w) : Prop :=
  ∀ p q r a b c, d.TracedAt p a → d.TracedAt q b → d.TracedAt r c → p < q → q < r →
    b.realSize = a.realSize → c.realSize = a.realSize → d.depth b.hashIndex = d.depth a.hashIndex →
    c.hashIndex = a.hashIndex → b.hashIndex = a.hashIndex

/-- The record of a tracked pointer. -/
def PointerData.record (d : PointerData w) (ptr : Word w) (e : PointerInfoType w) : ListInfoType w :=
  d.listInfo ⟨manglePointer ptr, e⟩

@[simp] theorem record_pointer (ptr : Word w) (e : PointerInfoType w) : (d.record ptr e).pointer = ptr :=
  demangle_mangle ptr

@[simp] theorem record_size (ptr : Word w) (e : PointerInfoType w) : (d.record ptr e).size = e.realSize := rfl

theorem mem_records {it : Iteration (Word w) (PointerInfoType w)} {x : ListInfoType w} :
    x ∈ d.unsorted it true ↔ ∃ p a, d.TracedAt p a ∧ x = d.record p a := by
  rw [mem_unsorted]
  constructor
  · intro h
    obtain ⟨k, e, hk, hlt, rfl⟩ := h
    refine ⟨demanglePointer k, e, ⟨by rwa [mangle_demangle], hlt rfl⟩, ?_⟩
    rw [PointerData.record, mangle_demangle]
  · intro h
    obtain ⟨p, a, ⟨hk, hlt⟩, rfl⟩ := h
    exact ⟨manglePointer p, a, hk, fun _ => hlt, rfl⟩

/-- A list of the traced entries has their records, however it is sorted. -/
theorem mem_getList {it : Iteration (Word w) (PointerInfoType w)} {pred : ListInfoType w → ListInfoType w → Bool}
    {x : ListInfoType w} : x ∈ d.getList it true pred ↔ ∃ p a, d.TracedAt p a ∧ x = d.record p a :=
  (getList_perm d it true pred).mem_iff.trans mem_records

section Charged

variable {L : Multiset (PointerInfoType w)} {F : Multiset ℕ} (hc : Charged d L F)

include hc

/-- A traced entry has its stack in the tables. -/
theorem Charged.stackAt {p : Word w} {a : PointerInfoType w} (ha : d.TracedAt p a) :
    a.hashIndex ∈ d.frames ∧ ∃ stack, d.stackAt a.hashIndex = some stack := by
  obtain ⟨r, frames, info, hf, -⟩ := hc.lookup (mem_references F ha.1 ha.2)
  exact ⟨mem_iff_lookup_ne_none.mpr (by rw [hf]; simp), frames, stackAt_of_lookup ha.2 hf⟩

theorem Charged.record_frameInfo {p : Word w} {a : PointerInfoType w} (ha : d.TracedAt p a) :
    (d.record p a).frameInfo = some a.hashIndex := if_pos (hc.stackAt ha).1

/-- The records of one size and depth are in the order of their addresses. -/
theorem Charged.record_lt {p q : Word w} {a b : PointerInfoType w} (ha : d.TracedAt p a) (hb : d.TracedAt q b)
    (hs : b.realSize = a.realSize) (hd : d.depth b.hashIndex = d.depth a.hashIndex) :
    d.uniqueRank (d.record p a) < d.uniqueRank (d.record q b) ↔ p < q := by
  rw [← uniquePred_ranked d]
  simp only [PointerData.uniquePred, record_size, hs, ne_eq, not_true_eq_false, if_false, hc.record_frameInfo ha,
    hc.record_frameInfo hb, hd, record_pointer, decide_eq_true_eq]

/-- Between records of one size and stack are records of that size and depth. -/
theorem Charged.record_between {p q r : Word w} {a b c : PointerInfoType w} (ha : d.TracedAt p a)
    (hb : d.TracedAt q b) (hc' : d.TracedAt r c) (hab : d.uniqueRank (d.record p a) ≤ d.uniqueRank (d.record q b))
    (hbc : d.uniqueRank (d.record q b) ≤ d.uniqueRank (d.record r c)) (hs : c.realSize = a.realSize)
    (hi : c.hashIndex = a.hashIndex) : b.realSize = a.realSize ∧ d.depth b.hashIndex = d.depth a.hashIndex := by
  simp only [PointerData.uniqueRank, Prod.Lex.toLex_le_toLex, OrderDual.toDual_lt_toDual, EmbeddingLike.apply_eq_iff_eq,
    record_size, hc.record_frameInfo ha, hc.record_frameInfo hb, hc.record_frameInfo hc', Option.isSome_some, if_true,
    Option.map_some, Option.getD_some, hs, hi] at hab hbc
  have hsize : b.realSize.toNat = a.realSize.toNat := by omega
  exact ⟨BitVec.eq_of_toNat_eq hsize, by omega⟩

/-- The records of a size and a stack are neighbours just when no block
divides them. -/
theorem Charged.grouped_iff (it : Iteration (Word w) (PointerInfoType w)) :
    Grouped blockKey (d.getList it true d.uniquePred) ↔ d.Undivided := by
  have hstrict := getList_strict d it true
  have hkey : ∀ {p a} {q b}, d.TracedAt p a → d.TracedAt q b →
      (blockKey (d.record p a) = blockKey (d.record q b) ↔ a.realSize = b.realSize ∧ a.hashIndex = b.hashIndex) := by
    intro p a q b ha hb
    rw [blockKey, blockKey, Prod.mk.injEq, hc.record_frameInfo ha, hc.record_frameInfo hb, Option.some.injEq]
    rfl
  constructor
  · intro h p q r a b c ha hb hc' hpq hqr hsb hsc hdb hic
    have hdc : d.depth c.hashIndex = d.depth a.hashIndex := by rw [hic]
    have hab := (hc.record_lt ha hb hsb hdb).mpr hpq
    have hbc := (hc.record_lt hb hc' (hsc.trans hsb.symm) (hdc.trans hdb.symm)).mpr hqr
    have hsub : [d.record p a, d.record q b, d.record r c].Sublist (d.getList it true d.uniquePred) := by
      refine sublist_of_strict hstrict ?_ ?_
      · simp [hab, hbc, hab.trans hbc]
      · intro x hx
        simp only [List.mem_cons, List.not_mem_nil, or_false] at hx
        rcases hx with rfl | rfl | rfl
        · exact mem_getList.mpr ⟨p, a, ha, rfl⟩
        · exact mem_getList.mpr ⟨q, b, hb, rfl⟩
        · exact mem_getList.mpr ⟨r, c, hc', rfl⟩
    exact ((hkey hb ha).mp (h _ _ _ hsub ((hkey ha hc').mpr ⟨hsc.symm, hic.symm⟩))).2
  · intro h x y z hsub hxz
    have hlt := hstrict.sublist hsub
    simp only [List.pairwise_cons, List.mem_cons, List.not_mem_nil, or_false, forall_eq_or_imp, forall_eq] at hlt
    obtain ⟨⟨hxy, -⟩, hyz, -⟩ := hlt
    obtain ⟨p, a, ha, rfl⟩ := mem_getList.mp (hsub.subset (a := x) (by simp))
    obtain ⟨q, b, hb, rfl⟩ := mem_getList.mp (hsub.subset (a := y) (by simp))
    obtain ⟨r, c, hc', rfl⟩ := mem_getList.mp (hsub.subset (a := z) (by simp))
    obtain ⟨hsc, hic⟩ := (hkey ha hc').mp hxz
    obtain ⟨hsb, hdb⟩ := hc.record_between ha hb hc' hxy.le hyz.le hsc.symm hic.symm
    refine (hkey hb ha).mpr ⟨hsb, ?_⟩
    have hpq := (hc.record_lt ha hb hsb hdb).mp hxy
    have hqr := (hc.record_lt hb hc' (hsc.symm.trans hsb.symm) (by rw [← hic]; exact hdb.symm)).mp hyz
    exact h p q r a b c ha hb hc' hpq hqr hsb hsc.symm hdb hic.symm

end Charged

/-- Every size and stack tracked has one record, which counts the pointers
tracked with them. -/
def ListedOnce (d : PointerData w) (list : List (ListInfoType w)) : Prop :=
  ∀ p e stack, d.TracedAt p e → d.stackAt e.hashIndex = some stack →
    ∃ a, list.filter (d.Holds e.realSize stack) = [a] ∧ a.numAllocations = d.tracked e.realSize stack

theorem Charged.listedOnce_iff {L : Multiset (PointerInfoType w)} {F : Multiset ℕ} (hc : Charged d L F)
    (it : Iteration (Word w) (PointerInfoType w)) :
    ListedOnce d (d.getUniqueList it true) ↔ ((d.getUniqueList it true).map blockKey).Nodup := by
  have hmem : ∀ {k}, k ∈ (d.getUniqueList it true).map blockKey ↔
      ∃ p e, d.TracedAt p e ∧ k = (e.realSize, some e.hashIndex) := by
    intro k
    refine (mem_keys_mergeRuns byKey _).trans ?_
    simp only [List.mem_map, mem_getList]
    constructor
    · intro hx
      obtain ⟨x, ⟨p, e, he, rfl⟩, rfl⟩ := hx
      exact ⟨p, e, he, by rw [blockKey, hc.record_frameInfo he]; rfl⟩
    · intro hx
      obtain ⟨p, e, he, rfl⟩ := hx
      exact ⟨_, ⟨p, e, he, rfl⟩, by rw [blockKey, hc.record_frameInfo he]; rfl⟩
  have hcount : ∀ {h stack} size, d.stackAt h = some stack →
      ((d.getUniqueList it true).map blockKey).count (size, some h) =
        ((d.getUniqueList it true).filter (d.Holds size stack)).length := by
    intro h stack size hst
    rw [List.count_eq_countP, List.countP_map, List.countP_eq_length_filter]
    refine congrArg List.length (List.filter_congr fun a _ => ?_)
    simp [hc.held.holds_iff hst, beq_eq_decide]
  rw [List.nodup_iff_count_le_one]
  constructor
  · intro h k
    by_cases hk : k ∈ (d.getUniqueList it true).map blockKey
    · obtain ⟨p, e, he, rfl⟩ := hmem.mp hk
      obtain ⟨-, stack, hst⟩ := hc.stackAt he
      obtain ⟨a, ha, -⟩ := h p e stack he hst
      rw [hcount e.realSize hst, ha, List.length_singleton]
    · rw [List.count_eq_zero_of_not_mem hk]
      exact Nat.zero_le 1
  · intro h p e stack he hst
    have hpos := List.count_pos_iff.mpr (hmem.mpr ⟨p, e, he, rfl⟩)
    have hone : ((d.getUniqueList it true).filter (d.Holds e.realSize stack)).length = 1 := by
      rw [← hcount e.realSize hst]
      exact Nat.le_antisymm (h _) hpos
    obtain ⟨a, ha⟩ := List.length_eq_one_iff.mp hone
    have hsum := sum_holds d it e.realSize stack
    rw [ha, List.map_singleton, List.sum_singleton] at hsum
    exact ⟨a, ha, hsum⟩

/-- **When the unique list is unique.** In every state the threads can reach
the list has no two records of one size and stack, and one for each size and
stack tracked, if and only if no block of another stack of the same depth
lies between two blocks of one size and stack. -/
theorem unique_list_unique_iff [Fintype Tid] (getenv : Environ) {s : Sections Tid w}
    (hs : Interleaved (Config.init w getenv) s) (it : Iteration (Word w) (PointerInfoType w)) :
    (UniqueBlocks (s.data.getUniqueList it true) ↔ s.data.Undivided) ∧
      (ListedOnce s.data (s.data.getUniqueList it true) ↔ s.data.Undivided) := by
  obtain ⟨L, hc⟩ := (hs.attributed (init_backtrace w getenv)).charged
  have hnodup : ((s.data.getUniqueList it true).map blockKey).Nodup ↔ s.data.Undivided :=
    (mergeRuns_nodup byKey _).trans (hc.grouped_iff it)
  exact ⟨uniqueBlocks_iff.trans hnodup, (hc.listedOnce_iff it).trans hnodup⟩

instance (list : List (ListInfoType w)) : Decidable (UniqueBlocks list) :=
  inferInstanceAs (Decidable (List.Pairwise _ _))

/-- Nothing divides two blocks that the third is behind. -/
theorem unique_list_unique_iff_three : (afterThree 0x7f0000004000).Undivided := by
  obtain ⟨l, hs⟩ := interleaved_afterThree 0x7f0000004000
  have hunique : UniqueBlocks ((afterThree 0x7f0000004000).getUniqueList (byAddress 64) true) := by decide
  exact (unique_list_unique_iff ⟨none, none⟩ hs (byAddress 64)).1.mp hunique

/-- With the third block between the other two, each of them has a record. -/
theorem threeBlocks_not_unique :
    (∃ l, Interleaved (Config.init 64 ⟨none, none⟩)
      { data := afterThree 0x7f0000001000, threads := only (0 : Fin 1) .idle, captured := l }) ∧
    ¬ UniqueBlocks ((afterThree 0x7f0000001000).getUniqueList (byAddress 64) true) :=
  ⟨interleaved_afterThree 0x7f0000001000, by decide⟩

end AllocHook
