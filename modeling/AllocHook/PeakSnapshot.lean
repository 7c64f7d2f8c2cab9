/-
What `peak_list_` holds after any run: the unique list of the state right
after the `Add` that first brought the total to its maximum, if that is above
the threshold, and nothing otherwise.

Nothing but a recorded `Add` at a new peak touches the list (`add_peakList`),
so the invariant of a run is where in it the peak was reached
(`FirstAtPeak`); later calls extend the run after that point.
-/
import AllocHook.Accounting
import AllocHook.RecordLists

namespace AllocHook

open FiniteMap SharedStore History SortMerge

variable {w : Nat} {cfg : Config w}

/-- An `Add` takes a snapshot of the state it leaves, at a new peak above the
threshold. -/
theorem add_peakList {d : PointerData w} {H : Multiset ℕ} (hs : StackHeld d H) {env : AddEnv w} {size : Word w}
    (hr : records cfg env size = true) (ptr : Word w) (t : MemType) :
    (d.peakTot < d.currentUsed + size ∧ snapshotDue cfg (d.currentUsed + size) ∧
      (d.add cfg env ptr size t).peakList = (d.add cfg env ptr size t).getUniqueList env.walk true) ∨
    (¬ (d.peakTot < d.currentUsed + size ∧ snapshotDue cfg (d.currentUsed + size)) ∧
      (d.add cfg env ptr size t).peakList = d.peakList) := by
  have hl : (d.written cfg env ptr size t).peakList = d.peakList := by
    rw [PointerData.written, recordPointer_eq, (addBacktrace_sameBooks cfg env size d).peakList]
  rcases add_cases hs hr ptr t with ⟨hlt, hdue, hq⟩ | ⟨hlt, hdue, hq⟩ | ⟨hlt, hq⟩
  · refine .inl ⟨hlt, hdue, ?_⟩
    rw [hq]
    exact getUniqueList_congr rfl rfl rfl env.walk true
  · exact .inr ⟨fun h => hdue h.2, by rw [hq]; exact hl⟩
  · exact .inr ⟨fun h => hlt h.1, by rw [hq]; exact hl⟩

theorem remove_peaks (cfg : Config w) (d : PointerData w) (ptr : Word w) :
    (d.remove cfg ptr).peakTot = d.peakTot ∧ (d.remove cfg ptr).peakList = d.peakList := by
  cases hk : d.pointers.lookup (manglePointer ptr) with
  | none => rw [remove_of_none hk]; exact ⟨rfl, rfl⟩
  | some e => exact ⟨(remove_removed hk).peakTot, (remove_removed hk).peakList⟩

/-- The call is an `Add` that records its pointer. -/
def Recorded (cfg : Config w) : Call w → Prop
  | .add env _ size _ => records cfg env size = true
  | .remove _ => False

/-- One call and the peak: it stays, with the list, or a recorded `Add` goes
above it, and above the threshold the list is that of the state reached. -/
theorem exec_peaks (cfg : Config w) {d : PointerData w} {H : Multiset ℕ} (hs : StackHeld d H) (call : Call w) :
    let d' := d.exec cfg call
    (d'.peakTot = d.peakTot ∧ d'.peakList = d.peakList ∧ (Recorded cfg call → d'.currentUsed ≤ d.peakTot)) ∨
    (Recorded cfg call ∧ d.peakTot < d'.currentUsed ∧ d'.peakTot = d'.currentUsed ∧
      (snapshotDue cfg d'.currentUsed → ∀ it, d'.peakList = d'.getUniqueList it true) ∧
      (¬ snapshotDue cfg d'.currentUsed → d'.peakList = d.peakList)) := by
  intro d'
  cases call with
  | remove ptr =>
    obtain ⟨hp, hl⟩ := remove_peaks cfg d ptr
    exact .inl ⟨hp, hl, fun h => h.elim⟩
  | add env ptr size t =>
    cases hr : records cfg env size with
    | false =>
      have hd : d' = d := add_of_not_records hr ptr t d
      refine .inl ⟨by rw [hd], by rw [hd], fun h => ?_⟩
      simp [Recorded, hr] at h
    | true =>
      have hu : d'.currentUsed = d.currentUsed + size := (add_added hs hr ptr t).currentUsed
      have hp : d'.peakTot = if d.peakTot < d'.currentUsed then d'.currentUsed else d.peakTot :=
        (add_added hs hr ptr t).peakTot
      have hlist := add_peakList hs hr ptr t
      rw [← hu] at hlist
      by_cases hlt : d.peakTot < d'.currentUsed
      · rw [if_pos hlt] at hp
        refine .inr ⟨hr, hlt, hp, fun hdue it => ?_, fun hdue => ?_⟩
        · rcases hlist with ⟨-, -, hl⟩ | ⟨hn, -⟩
          · exact hl.trans (getUniqueList_iteration d' env.walk it true)
          · exact absurd ⟨hlt, hdue⟩ hn
        · rcases hlist with ⟨-, hdue', -⟩ | ⟨-, hl⟩
          · exact absurd hdue' hdue
          · exact hl
      · rw [if_neg hlt] at hp
        refine .inl ⟨hp, ?_, fun _ => BitVec.not_lt.mp hlt⟩
        rcases hlist with ⟨hlt', -, -⟩ | ⟨-, hl⟩
        · exact absurd hlt' hlt
        · exact hl

/-! ## Where the peak was reached -/

/-- Nothing has been called yet, or the last call was a recorded `Add`. -/
def AfterAdd (cfg : Config w) (l : List (Call w)) : Prop := l = [] ∨ ∃ l' call, l = l' ++ [call] ∧ Recorded cfg call

/-- No `Add` has brought the total above the peak. -/
theorem used_le_peakTot (hb : cfg.has BACKTRACE = true) (calls : List (Call w)) :
    ∀ q, q <+: calls → AfterAdd cfg q → (PointerData.run cfg q).currentUsed ≤ (PointerData.run cfg calls).peakTot := by
  induction calls using List.reverseRecOn with
  | nil =>
    intro q hq _
    rw [List.prefix_nil.mp hq]
    exact BitVec.le_refl _
  | append_singleton calls call ih =>
    have hstep := exec_peaks cfg (run_charged hb calls).held call
    rw [← run_concat] at hstep
    intro q hq ha
    rcases List.prefix_concat_iff.mp hq with rfl | hq
    · have hrec : Recorded cfg call := by
        rcases ha with h | ⟨l', c, h, hc⟩
        · simp at h
        · rwa [List.singleton_inj.mp (List.append_inj' h rfl).2]
      rcases hstep with ⟨hp, -, hle⟩ | ⟨-, -, hp, -⟩
      · rw [hp]; exact hle hrec
      · rw [hp]; exact BitVec.le_refl _
    · rcases hstep with ⟨hp, -⟩ | ⟨-, hlt, hp, -⟩
      · rw [hp]; exact ih q hq ha
      · rw [hp]; exact BitVec.le_trans (ih q hq ha) (BitVec.le_of_lt hlt)

/-- `list` is the unique list of the state after `call`, the first `Add` that
brought the total up to `p`. -/
structure SnapshotOf (cfg : Config w) (p : Word w) (list : List (ListInfoType w)) (pre : List (Call w))
    (call : Call w) : Prop where
  recorded : Recorded cfg call
  reaches : (PointerData.run cfg (pre ++ [call])).currentUsed = p
  first : ∀ q, q <+: pre → AfterAdd cfg q → (PointerData.run cfg q).currentUsed < p
  snapshot : ∀ it, list = (PointerData.run cfg (pre ++ [call])).getUniqueList it true

/-- The invariant of a run: the list is the snapshot at the peak, once there
is a peak above the threshold. -/
theorem run_peakList (hb : cfg.has BACKTRACE = true) (hrec : cfg.has RECORD_MEMORY_PEAK = true)
    (calls : List (Call w)) :
    let d := PointerData.run cfg calls
    (d.peakTot ≤ cfg.backtraceDumpPeakVal → d.peakList = []) ∧
      (cfg.backtraceDumpPeakVal < d.peakTot → Occurs (SnapshotOf cfg d.peakTot d.peakList) calls) := by
  induction calls using List.reverseRecOn with
  | nil =>
    refine ⟨fun _ => rfl, fun h => ?_⟩
    exact absurd (BitVec.lt_def.mp h) (by simp [PointerData.run, PointerData.initialized])
  | append_singleton calls call ih =>
    have hstep := exec_peaks cfg (run_charged hb calls).held call
    rw [← run_concat] at hstep
    dsimp only at ih hstep ⊢
    rcases hstep with ⟨hp, hl, -⟩ | ⟨hr, hlt, hp, hdue, hnot⟩
    · rw [hp, hl]
      exact ⟨ih.1, fun h => occurs_concat.mpr (.inr (ih.2 h))⟩
    · rw [hp]
      constructor
      · intro hle
        rw [hnot fun h => absurd h.2 (BitVec.not_lt.mpr hle)]
        exact ih.1 (BitVec.le_trans (BitVec.le_of_lt hlt) hle)
      · intro hT
        refine occurs_concat.mpr (.inl ⟨hr, rfl, fun q hq ha => ?_, hdue ⟨hrec, hT⟩⟩)
        exact BitVec.lt_def.mpr
          ((BitVec.le_def.mp (used_le_peakTot hb calls q hq ha)).trans_lt (BitVec.lt_def.mp hlt))

/-! ## What the snapshot adds up to -/

/-- The bytes a list of records accounts for. -/
def listBytes (list : List (ListInfoType w)) : Word w :=
  (list.map fun i => i.size * BitVec.ofNat w i.numAllocations).sum

/-- The bytes of the entries without a stack. -/
def PointerData.untracedBytes (d : PointerData w) : Word w :=
  ((d.entries.filter fun e => e.hashIndex = kBacktraceEmptyIndex).map (·.size)).sum

/-- Every `Add` asked for at most `MaxSize` bytes. -/
def SmallSizes (calls : List (Call w)) : Prop := ∀ env ptr size t, Call.add env ptr size t ∈ calls → size ≤ maxSize w

theorem realSize_of_le {e : PointerInfoType w} (h : e.size ≤ maxSize w) : e.realSize = e.size := by
  have hlt : e.size.toNat < 2 ^ 31 := by
    have h1 := BitVec.le_def.mp h
    have h2 : (maxSize w).toNat ≤ 2 ^ 31 - 1 := by rw [maxSize, BitVec.toNat_ofNat]; exact Nat.mod_le _ _
    omega
  refine BitVec.eq_of_getLsbD_eq fun i hi => ?_
  simp only [PointerInfoType.realSize, BitVec.getLsbD_and, BitVec.getLsbD_ofNat, Nat.testBit_two_pow_sub_one, hi,
    decide_true, Bool.true_and]
  by_cases h31 : i < 31
  · simp only [h31, decide_true, Bool.and_true]
  · have : e.size.getLsbD i = false :=
      Nat.testBit_lt_two_pow (hlt.trans_le (Nat.pow_le_pow_right (by omega) (Nat.not_lt.mp h31)))
    rw [this, Bool.false_and]

/-- The unique list accounts for the sizes of the traced entries. -/
theorem listBytes_getUniqueList (d : PointerData w) (it : Iteration (Word w) (PointerInfoType w)) :
    listBytes (d.getUniqueList it true) = (d.traced.map (·.realSize)).sum := by
  have hone : ∀ k e, (d.listInfo ⟨k, e⟩).size * BitVec.ofNat w (d.listInfo ⟨k, e⟩).numAllocations = e.realSize :=
    fun k e => BitVec.mul_one _
  refine getUniqueList_sum hone (fun a k e hs _ => ?_) it
  rw [hone, ← hs, BitVec.ofNat_add, BitVec.mul_add, BitVec.mul_one]

theorem ofNat_bytes_any (M : Multiset (PointerInfoType w)) :
    BitVec.ofNat w (bytes anyType M) = (M.map (·.size)).sum := by
  rw [ofNat_bytes, Multiset.filter_eq_self.mpr fun e _ => show anyType e.memType = true from rfl]

theorem size_le_of_small (hb : cfg.has BACKTRACE = true) {calls : List (Call w)} (hs : SmallSizes calls)
    {e : PointerInfoType w} (he : e ∈ (PointerData.run cfg calls).entries) : e.size ≤ maxSize w := by
  obtain ⟨k, hk⟩ := mem_values.mp he
  obtain ⟨pre, _, post, hq, env, ptr, size, t, rfl, -, -, rfl⟩ := mem_entries_written hb hk
  exact hs env ptr size t (by rw [hq]; simp)

/-- The traced bytes and the untraced ones are the total, when nothing was
overwritten and no size is masked. -/
theorem traced_add_untraced (hb : cfg.has BACKTRACE = true) {calls : List (Call w)} (hn : NoReAdd cfg calls)
    (hs : SmallSizes calls) (it : Iteration (Word w) (PointerInfoType w)) :
    listBytes ((PointerData.run cfg calls).getUniqueList it true) + (PointerData.run cfg calls).untracedBytes =
      (PointerData.run cfg calls).currentUsed := by
  set d := PointerData.run cfg calls with hd
  have hreal : d.traced.map (·.realSize) = d.traced.map (·.size) :=
    Multiset.map_congr rfl fun e he => realSize_of_le (size_le_of_small hb hs (Multiset.mem_of_mem_filter he))
  have hempty : (d.entries.filter fun e => e.hashIndex = kBacktraceEmptyIndex) =
      d.entries.filter fun e => ¬ kBacktraceEmptyIndex < e.hashIndex := by
    refine Multiset.filter_congr fun e he => ?_
    have := hashIndex_ne_exit hb he
    simp only [kBacktraceEmptyIndex, kBacktraceExitIndex] at this ⊢
    omega
  have hused := (run_charged hb calls).used
  rw [hn.leaked, add_zero, ofNat_bytes_any, ← hd] at hused
  rw [listBytes_getUniqueList, hreal, PointerData.untracedBytes, hempty, PointerData.traced, hused,
    ← Multiset.sum_add, ← Multiset.map_add, Multiset.filter_add_not]

/-! ## The peak of a run -/

/-- `call`, right after `pre`, is the `Add` of the run that first brought the
total to its maximum: over the states after an `Add`, and over all states
when nothing wraps. -/
structure FirstAtPeak (cfg : Config w) (calls pre : List (Call w)) (call : Call w) : Prop where
  recorded : Recorded cfg call
  reaches : (PointerData.run cfg (pre ++ [call])).currentUsed = (PointerData.run cfg calls).peakTot
  first : ∀ q, q <+: pre → AfterAdd cfg q → (PointerData.run cfg q).currentUsed < (PointerData.run cfg calls).peakTot
  most : ∀ q, q <+: calls → AfterAdd cfg q → (PointerData.run cfg q).currentUsed ≤ (PointerData.run cfg calls).peakTot
  firstOfAll : totalAdded calls < 2 ^ w → ∀ q, q <+: pre →
    (PointerData.run cfg q).currentUsed < (PointerData.run cfg calls).peakTot
  mostOfAll : totalAdded calls < 2 ^ w → ∀ q, q <+: calls →
    (PointerData.run cfg q).currentUsed ≤ (PointerData.run cfg calls).peakTot

/-- The peak so far is the total some `Add` left, or the 0 it started from. -/
theorem peakTot_reached (hb : cfg.has BACKTRACE = true) (calls : List (Call w)) :
    ∃ q, q <+: calls ∧ AfterAdd cfg q ∧ (PointerData.run cfg q).currentUsed = (PointerData.run cfg calls).peakTot := by
  induction calls using List.reverseRecOn with
  | nil => exact ⟨[], List.prefix_rfl, .inl rfl, rfl⟩
  | append_singleton calls call ih =>
    have hstep := exec_peaks cfg (run_charged hb calls).held call
    rw [← run_concat] at hstep
    rcases hstep with ⟨hp, -⟩ | ⟨hr, -, hp, -⟩
    · obtain ⟨q, hq, ha, hu⟩ := ih
      exact ⟨q, hq.trans (List.prefix_append calls [call]), ha, hu.trans hp.symm⟩
    · exact ⟨calls ++ [call], List.prefix_rfl, .inr ⟨calls, call, rfl, hr⟩, hp.symm⟩

theorem SnapshotOf.firstAtPeak (hb : cfg.has BACKTRACE = true) {calls pre post : List (Call w)} {call : Call w}
    {list : List (ListInfoType w)} (hq : calls = pre ++ call :: post)
    (h : SnapshotOf cfg (PointerData.run cfg calls).peakTot list pre call) : FirstAtPeak cfg calls pre call := by
  refine ⟨h.recorded, h.reaches, h.first, used_le_peakTot hb calls, fun hsum q hp => ?_, fun hsum q hp => ?_⟩
  · have hpre : pre <+: calls := ⟨call :: post, hq.symm⟩
    have hpeaks := run_atPeaks hb pre ((totalAdded_mono hpre).trans_lt hsum)
    obtain ⟨r, hr, ha, hu⟩ := peakTot_reached hb pre
    have hlt := h.first r hr ha
    rw [hu] at hlt
    exact BitVec.lt_def.mpr ((hpeaks.tot.le hp).trans_lt (BitVec.lt_def.mp hlt))
  · exact BitVec.le_def.mpr ((run_atPeaks hb calls hsum).tot.le hp)

/-- **The peak snapshot is the state at the peak.** After any run `peak_list_`
is the unique list of the state after the `Add` that first reached the peak,
if that is above the threshold, and empty otherwise. -/
theorem peak_snapshot (getenv : Environ) (hrec : (Config.init w getenv).has RECORD_MEMORY_PEAK = true)
    (calls : List (Call w)) :
    let cfg := Config.init w getenv
    let d := PointerData.run cfg calls
    (d.peakTot ≤ cfg.backtraceDumpPeakVal → d.peakList = []) ∧
    (cfg.backtraceDumpPeakVal < d.peakTot → ∃ pre call post, calls = pre ++ call :: post ∧
      FirstAtPeak cfg calls pre call ∧
      (∀ it, d.peakList = (PointerData.run cfg (pre ++ [call])).getUniqueList it true) ∧
      (NoReAdd cfg calls → SmallSizes calls →
        listBytes d.peakList + (PointerData.run cfg (pre ++ [call])).untracedBytes = d.peakTot)) := by
  intro cfg d
  have hb : cfg.has BACKTRACE = true := init_backtrace w getenv
  obtain ⟨hle, hlt⟩ := run_peakList hb hrec calls
  refine ⟨hle, fun hT => ?_⟩
  obtain ⟨pre, call, post, hq, hsnap⟩ := hlt hT
  refine ⟨pre, call, post, hq, hsnap.firstAtPeak hb hq, hsnap.snapshot, fun hn hs => ?_⟩
  have hp : pre ++ [call] <+: calls := ⟨post, by rw [hq, List.append_assoc, List.singleton_append]⟩
  have it : Iteration (Word w) (PointerInfoType w) := .ascending BitVec.toNat fun _ _ => BitVec.eq_of_toNat_eq
  rw [hsnap.snapshot it, traced_add_untraced hb (hn.mono hp) (fun env ptr size t hm => ?_) it, hsnap.reaches]
  exact hs env ptr size t (hp.subset hm)

/-- Two blocks, the first of which goes again: the peak was at the second. -/
def peakOfTwo : List (Call 64) :=
  [.add (.single 64 0x1000 1) 0x7f0000000000 4096 .host, .add (.single 64 0x2000 2) 0x7f0000002000 2048 .host,
    .remove 0x7f0000000000]

theorem smallSizes_peakOfTwo : SmallSizes peakOfTwo := by
  intro env ptr size t h
  simp only [peakOfTwo, List.mem_cons, Call.add.injEq, reduceCtorEq, List.not_mem_nil, or_false] at h
  rcases h with ⟨-, -, rfl, -⟩ | ⟨-, -, rfl, -⟩ <;> decide

theorem peak_snapshot_peakOfTwo :
    let cfg := Config.init 64 ⟨none, some ['0']⟩
    ∃ pre call post, peakOfTwo = pre ++ call :: post ∧ FirstAtPeak cfg peakOfTwo pre call ∧
      (∀ it, (PointerData.run cfg peakOfTwo).peakList = (PointerData.run cfg (pre ++ [call])).getUniqueList it true) ∧
      listBytes (PointerData.run cfg peakOfTwo).peakList +
        (PointerData.run cfg (pre ++ [call])).untracedBytes = 6144 := by
  obtain ⟨pre, call, post, hq, hfirst, hlist, hsum⟩ :=
    (peak_snapshot ⟨none, some ['0']⟩ (by decide) peakOfTwo).2 (by decide)
  exact ⟨pre, call, post, hq, hfirst, hlist, hsum (by decide) smallSizes_peakOfTwo⟩

end AllocHook
