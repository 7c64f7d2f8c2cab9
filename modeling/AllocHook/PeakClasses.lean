/-
Host and DMA memory in the peak report.

`peak_list_` is a unique list: the blocks of a run of one size and stack are
one record, which has the class of the block it was made from, the first of
the run. When the report is written, much later, all of the run's bytes go to
the total of that class. A wrapper that maps anonymous memory and DMA buffers
from one place mixes the two.

`peak_classes_iff` says the two totals are those of the moment of the snapshot
if and only if as many bytes went from host to DMA as from DMA to host, whatever
the threads do between the snapshot and the dump.
-/
import AllocHook.UniqueList

namespace AllocHook

open FiniteMap SharedStore SortMerge

variable {w : Nat} {cfg : Config w} {d : PointerData w}

/-! ## The block a record was made from -/

/-- From `p` to `q`, in the order of addresses, the blocks of one size and
depth of stack have one stack. -/
structure PointerData.InRun (d : PointerData w) (p : Word w) (a : PointerInfoType w) (q : Word w)
    (b : PointerInfoType w) : Prop where
  left : d.TracedAt p a
  right : d.TracedAt q b
  le : p ≤ q
  size : a.realSize = b.realSize
  stack : a.hashIndex = b.hashIndex
  between : ∀ r c, d.TracedAt r c → p ≤ r → r ≤ q → c.realSize = b.realSize →
    d.depth c.hashIndex = d.depth b.hashIndex → c.hashIndex = b.hashIndex

/-- `p` is the first block of the run `q` is in: the record of the run has
its class. -/
structure PointerData.Fronts (d : PointerData w) (p : Word w) (a : PointerInfoType w) (q : Word w)
    (b : PointerInfoType w) : Prop extends d.InRun p a q b where
  first : ∀ r c, d.InRun r c q b → p ≤ r

open Classical in
/-- The bytes of the blocks of one class in a run whose first block is of
another. -/
noncomputable def PointerData.filed (d : PointerData w) (own front : MemType → Bool) : Word w :=
  ((d.pointers.entries.filter fun x => kBacktraceEmptyIndex < x.2.hashIndex ∧ own x.2.memType = true ∧
    ∃ p a, d.Fronts p a (demanglePointer x.1) x.2 ∧ front a.memType = true).map fun x => x.2.realSize).sum

theorem PointerData.TracedAt.unique {p : Word w} {a a' : PointerInfoType w} (h : d.TracedAt p a)
    (h' : d.TracedAt p a') : a = a' := Option.some.inj (h.1.symm.trans h'.1)

theorem PointerData.Fronts.unique {p p' q : Word w} {a a' b : PointerInfoType w} (h : d.Fronts p a q b)
    (h' : d.Fronts p' a' q b) : a = a' := by
  have hp : p = p' := BitVec.le_antisymm (h.first p' a' h'.toInRun) (h'.first p a h.toInRun)
  subst hp
  exact h.left.unique h'.left

section Charged

variable {L : Multiset (PointerInfoType w)} {F : Multiset ℕ} (hc : Charged d L F)
  (it : Iteration (Word w) (PointerInfoType w))

include hc

theorem Charged.record_le {p q : Word w} {a b : PointerInfoType w} (ha : d.TracedAt p a) (hb : d.TracedAt q b)
    (hs : b.realSize = a.realSize) (hd : d.depth b.hashIndex = d.depth a.hashIndex) :
    d.uniqueRank (d.record p a) ≤ d.uniqueRank (d.record q b) ↔ p ≤ q := by
  rw [← not_lt, hc.record_lt hb ha hs.symm hd.symm, BitVec.not_lt]

theorem Charged.blockKey_eq {p q : Word w} {a b : PointerInfoType w} (ha : d.TracedAt p a) (hb : d.TracedAt q b) :
    blockKey (d.record p a) = blockKey (d.record q b) ↔ a.realSize = b.realSize ∧ a.hashIndex = b.hashIndex := by
  rw [blockKey, blockKey, Prod.mk.injEq, hc.record_frameInfo ha, hc.record_frameInfo hb, Option.some.injEq]
  rfl

/-- Runs of the sorted list are runs of blocks. -/
theorem Charged.inRun_iff {p q : Word w} {a b : PointerInfoType w} (ha : d.TracedAt p a) (hb : d.TracedAt q b) :
    InRun d.uniqueRank blockKey (d.getList it true d.uniquePred) (d.record p a) (d.record q b) ↔
      d.InRun p a q b := by
  constructor
  · intro h
    obtain ⟨hs, hi⟩ := (hc.blockKey_eq ha hb).mp (h.key_eq _ h.left le_rfl h.le)
    refine ⟨ha, hb, (hc.record_le ha hb hs.symm (by rw [hi])).mp h.le, hs, hi, fun r c hrc hpr hrq hsc hdc => ?_⟩
    have hrank₁ := (hc.record_le ha hrc (hsc.trans hs.symm) (by rw [hdc, hi])).mpr hpr
    have hrank₂ := (hc.record_le hrc hb hsc.symm hdc.symm).mpr hrq
    exact ((hc.blockKey_eq hrc hb).mp (h.key_eq _ (mem_getList.mpr ⟨r, c, hrc, rfl⟩) hrank₁ hrank₂)).2
  · intro h
    refine ⟨mem_getList.mpr ⟨p, a, ha, rfl⟩, mem_getList.mpr ⟨q, b, hb, rfl⟩,
      (hc.record_le ha hb h.size.symm (by rw [h.stack])).mpr h.le, fun z hz hpz hzq => ?_⟩
    obtain ⟨r, c, hrc, rfl⟩ := mem_getList.mp hz
    obtain ⟨hsc, hdc⟩ := hc.record_between ha hrc hb hpz hzq h.size.symm h.stack.symm
    have hpr := (hc.record_le ha hrc hsc hdc).mp hpz
    have hrq := (hc.record_le hrc hb (h.size.symm.trans hsc.symm) (by rw [hdc, h.stack])).mp hzq
    have hsb := hsc.trans h.size
    exact (hc.blockKey_eq hrc hb).mpr ⟨hsb, h.between r c hrc hpr hrq hsb (by rw [hdc, h.stack])⟩

/-- A record is merged into the record of the first block of its run. -/
theorem Charged.fronts_of_mem {x y : ListInfoType w}
    (hp : (x, y) ∈ fronts sameBlock (d.getList it true d.uniquePred)) :
    ∃ p a q b, x = d.record p a ∧ y = d.record q b ∧ d.Fronts p a q b := by
  have h := front_of_mem_fronts byKey.same_iff (getList_strict d it true) hp
  obtain ⟨p, a, ha, hx⟩ := mem_getList.mp h.left
  obtain ⟨q, b, hb, hy⟩ := mem_getList.mp h.right
  dsimp only at hx hy
  subst hx hy
  refine ⟨p, a, q, b, rfl, rfl, (hc.inRun_iff it ha hb).mp h.toInRun, fun r c hr => ?_⟩
  have hle := h.first _ ((hc.inRun_iff it hr.left hb).mpr hr)
  obtain ⟨hs, hi⟩ := (hc.blockKey_eq ha hb).mp (h.key_eq _ h.left le_rfl h.le)
  exact (hc.record_le ha hr.left (hr.size.trans hs.symm) (by rw [hr.stack, hi])).mp hle

/-! ## The totals of the list -/

omit hc in
/-- A total over the sorted list is one over the traced entries and their keys. -/
theorem getList_sum_entries (f : ListInfoType w → Word w) :
    ((d.getList it true d.uniquePred).map f).sum =
      ((d.pointers.entries.filter fun x => kBacktraceEmptyIndex < x.2.hashIndex).map fun x =>
        f (d.listInfo x)).sum := by
  have hp : (fun entry : Sigma fun _ : Word w => PointerInfoType w =>
      !(decide (entry.2.hashIndex ≤ kBacktraceEmptyIndex) && true)) =
      fun entry => decide (kBacktraceEmptyIndex < entry.2.hashIndex) := by
    funext entry
    rw [Bool.eq_iff_iff]
    simp
  rw [((getList_perm d it true d.uniquePred).map f).sum_eq, PointerData.unsorted, List.map_map, hp, ← it.spec,
    Multiset.filter_coe, Multiset.map_coe, Multiset.sum_coe]
  rfl

/-- What the fronts of a class are given of the bytes of a class. -/
theorem Charged.sum_fronts (own front : MemType → Bool) :
    (((fronts sameBlock (d.getList it true d.uniquePred)).map fun p =>
      if own p.2.memType ∧ front p.1.memType then p.2.size else 0).sum) = d.filed own front := by
  classical
  set P := fronts sameBlock (d.getList it true d.uniquePred) with hP
  let held (y : ListInfoType w) : Prop :=
    own y.memType = true ∧ ∃ p a b, d.Fronts p a y.pointer b ∧ front a.memType = true
  have hpair : P.map (fun p => if own p.2.memType ∧ front p.1.memType then p.2.size else 0) =
      P.map ((fun y => if held y then y.size else 0) ∘ fun p => p.2) := by
    refine List.map_congr_left fun p hp => ?_
    obtain ⟨p₁, a, q, b, hx, hy, hf⟩ := hc.fronts_of_mem it (x := p.1) (y := p.2) hp
    have hiff : (own p.2.memType = true ∧ front p.1.memType = true) ↔ held p.2 := by
      refine and_congr_right fun _ => ⟨fun h => ?_, ?_⟩
      · refine ⟨p₁, a, b, ?_, ?_⟩
        · rw [hy, record_pointer]; exact hf
        · rw [hx] at h; exact h
      · intro hex
        obtain ⟨p', a', b', hf', hfront⟩ := hex
        rw [hy, record_pointer] at hf'
        rw [← hf'.right.unique hf.right] at hf
        rw [hx, ← hf'.unique hf]
        exact hfront
    simp only [Function.comp_apply, hiff]
  rw [hpair, ← List.map_map, fronts_snd, getList_sum_entries, PointerData.filed, sum_map_filter, sum_map_filter]
  refine congrArg Multiset.sum (Multiset.map_congr rfl fun x hx => ?_)
  obtain ⟨k, e⟩ := x
  by_cases hlt : kBacktraceEmptyIndex < e.hashIndex
  · have he : d.TracedAt (demanglePointer k) e := ⟨by rw [mangle_demangle]; exact mem_entries.mp hx, hlt⟩
    have hiff : held (d.listInfo ⟨k, e⟩) ↔
        own e.memType = true ∧ ∃ p a, d.Fronts p a (demanglePointer k) e ∧ front a.memType = true := by
      refine and_congr_right fun _ => ⟨?_, fun ⟨p, a, hf, ha⟩ => ⟨p, a, e, hf, ha⟩⟩
      intro hex
      obtain ⟨p, a, b, hf, ha⟩ := hex
      rw [hf.right.unique he] at hf
      exact ⟨p, a, hf, ha⟩
    simp only [hlt, true_and, if_true, hiff]
    rfl
  · simp only [hlt, false_and, if_false]

omit hc in
/-- The total of a class over the list: each block counts for the class of
its front. -/
theorem sum_classBytes (c : MemType → Bool) :
    ((d.getUniqueList it true).map (classBytes c)).sum =
      ((fronts sameBlock (d.getList it true d.uniquePred)).map fun p =>
        if c p.1.memType then p.2.size else 0).sum := by
  rw [PointerData.getUniqueList, removeDuplicates_eq]
  let g (x y : ListInfoType w) : Word w := if c x.memType then y.size else 0
  have hsame : ∀ a b : ListInfoType w, sameBlock (countOne a) b = sameBlock a b := fun _ _ => rfl
  have hfront : ∀ a b, g (countOne a) b = g a b := fun _ _ => rfl
  refine mergeRuns_sum_fronts (fun a b hab => ?_) hsame hfront _ fun b hb => ?_
  · have hs : a.size = b.size := congrArg Prod.fst ((byKey.same_iff a b).mp hab)
    by_cases hca : c a.memType = true
    · simp only [classBytes, countOne, hca, if_true, g, BitVec.ofNat_add, BitVec.mul_add, BitVec.mul_one, ← hs]
    · simp only [classBytes, countOne, hca, g]
      exact (add_zero _).symm
  · obtain ⟨p, a, -, rfl⟩ := mem_getList.mp hb
    show (if c (d.record p a).memType then (d.record p a).size * BitVec.ofNat w 1 else 0) = _
    rw [BitVec.mul_one]

omit hc in
/-- The bytes of the traced entries of a class: each block counts for its own. -/
theorem tracedBytes_eq (c : MemType → Bool) :
    d.tracedBytes c = ((fronts sameBlock (d.getList it true d.uniquePred)).map fun p =>
      if c p.2.memType then p.2.size else 0).sum := by
  have hsnd := List.map_map (l := fronts sameBlock (d.getList it true d.uniquePred))
    (g := fun y : ListInfoType w => if c y.memType then y.size else 0) (f := fun p => p.2)
  rw [fronts_snd] at hsnd
  rw [PointerData.tracedBytes, sum_map_filter, ← getList_sum (f := fun y => if c y.memType then y.size else 0)
    (fun k e => rfl) it d.uniquePred, hsnd]
  rfl

/-- The two totals of a class differ by what went to the other class and what
came from it. -/
theorem Charged.sum_classBytes_add (c : MemType → Bool) :
    ((d.getUniqueList it true).map (classBytes c)).sum + d.filed c (fun t => !c t) =
      d.tracedBytes c + d.filed (fun t => !c t) c := by
  rw [sum_classBytes, tracedBytes_eq it, ← hc.sum_fronts it, ← hc.sum_fronts it, ← List.sum_map_add, ← List.sum_map_add]
  refine congrArg List.sum (List.map_congr_left fun p _ => ?_)
  cases c p.1.memType <;> cases c p.2.memType <;> simp

/-- The totals of the list are those of the traced entries just when as much
was filed from host to DMA as from DMA to host. -/
theorem Charged.dumpUse_iff :
    dumpUse (d.getUniqueList it true) = (d.tracedBytes isHost, d.tracedBytes isDma) ↔
      d.filed isHost isDma = d.filed isDma isHost := by
  have hdma : (fun t => !isHost t) = isDma := by funext t; cases t <;> rfl
  have hhost : (fun t => !isDma t) = isHost := by funext t; cases t <;> rfl
  have h₁ := hc.sum_classBytes_add it isHost
  have h₂ := hc.sum_classBytes_add it isDma
  rw [hdma] at h₁
  rw [hhost] at h₂
  rw [dumpUse_eq, Prod.mk.injEq]
  constructor
  · intro hx
    obtain ⟨h, -⟩ := hx
    rw [h] at h₁
    exact add_left_cancel h₁
  · intro h
    rw [h] at h₁
    rw [h] at h₂
    exact ⟨add_right_cancel h₁, add_right_cancel h₂⟩

end Charged

/-! ## The snapshot and the dump -/

variable {Tid : Type*} [DecidableEq Tid]

/-- Sections of any threads, none of which lists a newer peak or hands the
list out. -/
inductive Later (cfg : Config w) : Sections Tid w → Sections Tid w → Prop
  | refl (s) : Later cfg s s
  | step {s s' t sec s''} (hs : Later cfg s s') (h : Step cfg s' t sec s'') (hsnap : sec ≠ .takeSnapshot)
    (hdump : ∀ it, sec ≠ .dump it) : Later cfg s s''

theorem Later.peakList {s s' : Sections Tid w} (h : Later cfg s s') : s'.data.peakList = s.data.peakList := by
  induction h with
  | refl => rfl
  | step hs h hsnap hdump ih =>
    rw [← ih]
    cases h with
    | addBacktrace env ptr size type hidle => exact (addBacktrace_sameBooks cfg env size _).peakList
    | insertPointer hat hfree =>
      rcases insertPointer_cases cfg _ _ _ _ _ _ with ⟨-, hq⟩ | ⟨-, hq⟩ <;> rw [hq, recordPointer_eq]
    | takeSnapshot hat => exact absurd rfl hsnap
    | erasePointer ptr hidle hfree =>
      rename_i s' t
      cases hk : s'.data.pointers.lookup (manglePointer ptr) with
      | none => rw [erasePointer_of_none hk]
      | some e => rw [erasePointer_of_some hk]
    | removeBacktrace hat => exact (removeBacktrace_sameBooks cfg _ _).peakList
    | dump it hidle hfree => exact absurd rfl (hdump it)

/-- A thread is to list the peak only when peaks are recorded. -/
theorem Interleaved.record_of_snapshotting {s : Sections Tid w} (hs : Interleaved cfg s) :
    ∀ t walk, s.threads t = .snapshotting walk → cfg.has RECORD_MEMORY_PEAK = true := by
  induction hs with
  | init => intro t walk h; cases h
  | @step s t sec s' hs h ih =>
    intro i walk hat
    by_cases hi : i = t
    · subst hi
      cases h with
      | addBacktrace env ptr size type hidle =>
        simp only [Function.update_self, afterBacktrace] at hat
        split at hat <;> cases hat
      | insertPointer hat' hfree =>
        simp only [Function.update_self] at hat
        split at hat
        · next hsnap =>
          rcases insertPointer_cases cfg _ _ _ _ _ s.data with ⟨-, hq⟩ | ⟨-, hq⟩
          · rw [hq] at hsnap
            exact (Bool.and_eq_true_iff.mp hsnap).1
          · rw [hq] at hsnap; cases hsnap
        · cases hat
      | takeSnapshot hat' => simp only [Function.update_self] at hat; cases hat
      | erasePointer ptr hidle hfree =>
        simp only [Function.update_self] at hat
        cases hr : (s.data.erasePointer ptr).1 <;> rw [hr] at hat <;> cases hat
      | removeBacktrace hat' => simp only [Function.update_self] at hat; cases hat
      | dump it hidle hfree => exact ih i walk hat
    · rw [h.others hi] at hat
      exact ih i walk hat

/-- **Host and DMA memory in the peak report.** When an `Add` lists the peak
and the list is dumped later, before a newer peak is listed, the two totals
written are those of the traced entries at the moment of the snapshot if and
only if the blocks of runs that mix classes gave as many bytes from host to
DMA as from DMA to host. -/
theorem peak_classes_iff [Fintype Tid] (getenv : Environ) {s s' s'' : Sections Tid w} {t : Tid}
    (hs : Interleaved (Config.init w getenv) s) (hsnap : Step (Config.init w getenv) s t .takeSnapshot s')
    (hlater : Later (Config.init w getenv) s' s'') (it : Iteration (Word w) (PointerInfoType w)) :
    let out := (s''.data.dumpLiveToFile (Config.init w getenv) it).1
    (out.hostUse = s.data.tracedBytes isHost ∧ out.dmaUse = s.data.tracedBytes isDma) ↔
      s.data.filed isHost isDma = s.data.filed isDma isHost := by
  intro out
  obtain ⟨L, hc⟩ := (hs.attributed (init_backtrace w getenv)).charged
  have hlist := hlater.peakList
  cases hsnap with
  | @takeSnapshot walk hat =>
    have hrec := hs.record_of_snapshotting t walk hat
    have hout : (out.hostUse, out.dmaUse) = dumpUse (s.data.getUniqueList walk true) := by
      have hpeak : s''.data.peakList = s.data.getUniqueList walk true := hlist
      simp only [out, PointerData.dumpLiveToFile, hrec, Bool.not_true, Bool.false_eq_true, if_false, hpeak]
    rw [← hc.dumpUse_iff walk, ← hout, Prod.mk.injEq]

/-- The tracker when `Add`, alone, has written its entry. -/
def PointerData.inserted (cfg : Config w) (d : PointerData w) (env : AddEnv w) (ptr size : Word w) (type : MemType) :
    PointerData w × Bool :=
  (d.addBacktrace cfg env size).2.insertPointer cfg env.now ptr size (d.addBacktrace cfg env size).1 type

/-- An `Add` above the threshold and the peak comes to its snapshot. -/
theorem Interleaved.inserted {l : Ledger w} {t : Tid}
    (hs : Interleaved cfg { data := d, threads := only t .idle, captured := l }) (env : AddEnv w)
    (ptr size : Word w) (type : MemType) (hadd : (d.addBacktrace cfg env size).1 ≠ kBacktraceExitIndex)
    (hsnap : (d.inserted cfg env ptr size type).2 = true) :
    ∃ l', Interleaved cfg
      { data := (d.inserted cfg env ptr size type).1, threads := only t (.snapshotting env.walk), captured := l' } := by
  have h₁ := hs.step (.addBacktrace env ptr size type (only_self t .idle))
  simp only [update_only, afterBacktrace, if_neg hadd] at h₁
  have h₂ := h₁.step (.insertPointer (only_self t _) (pointerFree_only rfl _ _))
  simp only [update_only] at h₂
  rw [PointerData.inserted] at hsnap
  rw [if_pos hsnap] at h₂
  exact ⟨_, h₂⟩

/-- A page mapped anonymously from 0x1000, and then the DMA buffer behind
descriptor 5, of a page as well, mapped from `pc`. -/
def pageAndBuffer (pc : BitVec 64) : PointerData 64 × Bool :=
  (PointerData.run (Config.init 64 ⟨none, some ['0']⟩)
    [.add (.single 64 0x1000 1) 0x7f0000000000 4096 .mmap]).inserted (Config.init 64 ⟨none, some ['0']⟩)
      (.single 64 pc 2) 5 4096 .dma

theorem interleaved_pageAndBuffer (pc : BitVec 64) (hadd : ((PointerData.run (Config.init 64 ⟨none, some ['0']⟩)
      [.add (.single 64 0x1000 1) 0x7f0000000000 4096 .mmap]).addBacktrace (Config.init 64 ⟨none, some ['0']⟩)
        (.single 64 pc 2) 4096).1 ≠ kBacktraceExitIndex) (hsnap : (pageAndBuffer pc).2 = true) :
    ∃ l, Interleaved (Config.init 64 ⟨none, some ['0']⟩)
      { data := (pageAndBuffer pc).1, threads := only (0 : Fin 1) (.snapshotting (byAddress 64)), captured := l } := by
  obtain ⟨l, h⟩ := interleaved_run (Config.init 64 ⟨none, some ['0']⟩) (0 : Fin 1)
    [.add (.single 64 0x1000 1) 0x7f0000000000 4096 .mmap]
  exact h.inserted (.single 64 pc 2) 5 4096 .dma hadd hsnap

/-- Mapped from two places, the page and the buffer keep to their totals. -/
theorem peak_classes_iff_twoPlaces :
    (pageAndBuffer 0x2000).1.filed isHost isDma = (pageAndBuffer 0x2000).1.filed isDma isHost := by
  obtain ⟨l, hs⟩ := interleaved_pageAndBuffer 0x2000 (by decide) (by decide)
  have hout : (((pageAndBuffer 0x2000).1.takeSnapshot (byAddress 64)).dumpLiveToFile
      (Config.init 64 ⟨none, some ['0']⟩) (byAddress 64)).1.hostUse = (pageAndBuffer 0x2000).1.tracedBytes isHost ∧
    (((pageAndBuffer 0x2000).1.takeSnapshot (byAddress 64)).dumpLiveToFile
      (Config.init 64 ⟨none, some ['0']⟩) (byAddress 64)).1.dmaUse = (pageAndBuffer 0x2000).1.tracedBytes isDma := by
    decide
  exact (peak_classes_iff ⟨none, some ['0']⟩ hs (.takeSnapshot (only_self 0 _)) (.refl _) (byAddress 64)).mp hout

/-- Mapped by one wrapper, both are written as DMA memory. -/
theorem oneWrapper_mixes : ∃ s s' : Sections (Fin 1) 64, Interleaved (Config.init 64 ⟨none, some ['0']⟩) s ∧
    Step (Config.init 64 ⟨none, some ['0']⟩) s 0 .takeSnapshot s' ∧
    ¬ ((s'.data.dumpLiveToFile (Config.init 64 ⟨none, some ['0']⟩) (byAddress 64)).1.hostUse =
        s.data.tracedBytes isHost ∧
      (s'.data.dumpLiveToFile (Config.init 64 ⟨none, some ['0']⟩) (byAddress 64)).1.dmaUse =
        s.data.tracedBytes isDma) := by
  obtain ⟨l, hs⟩ := interleaved_pageAndBuffer 0x1000 (by decide) (by decide)
  refine ⟨_, _, hs, .takeSnapshot (only_self 0 _), ?_⟩
  have hhost : (((pageAndBuffer 0x1000).1.takeSnapshot (byAddress 64)).dumpLiveToFile
      (Config.init 64 ⟨none, some ['0']⟩) (byAddress 64)).1.hostUse ≠ (pageAndBuffer 0x1000).1.tracedBytes isHost := by
    decide
  exact fun h => hhost h.1

end AllocHook
