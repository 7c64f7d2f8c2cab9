/-
What the tracker is charged for, and that every critical section keeps the
charge exact.

An entry of `pointers_` is charged to the totals of its class and holds a
reference to its stack. `Remove` discharges the entry it erases. `Add` on a
pointer that is tracked already overwrites the entry and discharges nothing:
the old entry stays charged for ever. So the books are exact, over any run
and between any two sections, about the entries, the overwritten entries `L`
and the references `F` in flight between the two sections of a call:
`Charged d L F`. What follows for `pointers_` alone depends on `L` only.
-/
import AllocHook.StackTables
import Mathlib.Algebra.Order.BigOperators.Group.Multiset

namespace AllocHook

open FiniteMap SharedStore

variable {w : Nat} {cfg : Config w} {d : PointerData w}

/-! ## Totals over entries -/

/-- The sizes of the entries of a class, added up. -/
def bytes (c : MemType → Bool) (M : Multiset (PointerInfoType w)) : ℕ :=
  (M.map fun e => if c e.memType then e.size.toNat else 0).sum

/-- The classes the totals distinguish. -/
def isDma (t : MemType) : Bool := t = .dma
def isHost (t : MemType) : Bool := t ≠ .dma
def anyType (_ : MemType) : Bool := true

@[simp] theorem bytes_cons (c : MemType → Bool) (e : PointerInfoType w) (M : Multiset (PointerInfoType w)) :
    bytes c (e ::ₘ M) = (if c e.memType then e.size.toNat else 0) + bytes c M := by
  simp only [bytes, Multiset.map_cons, Multiset.sum_cons]

@[simp] theorem bytes_add (c : MemType → Bool) (M N : Multiset (PointerInfoType w)) :
    bytes c (M + N) = bytes c M + bytes c N := by
  simp only [bytes, Multiset.map_add, Multiset.sum_add]

theorem bytes_any (M : Multiset (PointerInfoType w)) : bytes anyType M = bytes isHost M + bytes isDma M := by
  induction M using Multiset.induction_on with
  | empty => rfl
  | cons e M ih =>
    simp only [bytes_cons, ih, anyType, isHost, isDma, if_true]
    by_cases h : e.memType = .dma
    · simp only [h, decide_true, decide_false, ne_eq, not_true_eq_false, if_true, Bool.false_eq_true, if_false]
      omega
    · simp only [h, decide_true, decide_false, ne_eq, not_false_eq_true, if_true, Bool.false_eq_true, if_false]
      omega

/-- No class holds more than all. -/
theorem bytes_le_any (c : MemType → Bool) (M : Multiset (PointerInfoType w)) : bytes c M ≤ bytes anyType M := by
  induction M using Multiset.induction_on with
  | empty => exact le_rfl
  | cons e M ih =>
    simp only [bytes_cons, anyType, if_true] at ih ⊢
    split
    · exact Nat.add_le_add_left ih _
    · omega

/-- The reference an entry with this hash index holds: none for "no stack". -/
def holding (h : ℕ) : Multiset ℕ := if kBacktraceEmptyIndex < h then {h} else 0

theorem holding_of_lt {h : ℕ} (hh : kBacktraceEmptyIndex < h) : holding h = {h} := if_pos hh
@[simp] theorem holding_empty : holding kBacktraceEmptyIndex = 0 := rfl

/-- The references a multiset of entries holds. -/
def stackIndices (M : Multiset (PointerInfoType w)) : Multiset ℕ := (M.map fun e => holding e.hashIndex).sum

@[simp] theorem stackIndices_cons (e : PointerInfoType w) (M : Multiset (PointerInfoType w)) :
    stackIndices (e ::ₘ M) = holding e.hashIndex + stackIndices M := by
  simp only [stackIndices, Multiset.map_cons, Multiset.sum_cons]

theorem count_holding {h h' : ℕ} (hh : kBacktraceEmptyIndex < h) :
    (holding h').count h = if h' = h then 1 else 0 := by
  unfold holding
  split
  · rw [Multiset.count_singleton]; simp only [eq_comm]
  · next hn =>
    have hne : h' ≠ h := by rintro rfl; exact hn hh
    rw [Multiset.count_zero, if_neg hne]

/-- References are counted by the entries with the index. -/
theorem count_stackIndices {h : ℕ} (hh : kBacktraceEmptyIndex < h) (M : Multiset (PointerInfoType w)) :
    (stackIndices M).count h = M.countP (·.hashIndex = h) := by
  induction M using Multiset.induction_on with
  | empty => rfl
  | cons e M ih =>
    rw [stackIndices_cons, Multiset.count_add, ih, count_holding hh, Multiset.countP_cons, Nat.add_comm]

theorem mem_stackIndices {e : PointerInfoType w} {M : Multiset (PointerInfoType w)} (hm : e ∈ M)
    (hh : kBacktraceEmptyIndex < e.hashIndex) : e.hashIndex ∈ stackIndices M := by
  rw [← Multiset.count_pos, count_stackIndices hh, Multiset.countP_pos]
  exact ⟨e, hm, rfl⟩

/-! ## The charge -/

/-- The entries of `pointers_`. -/
def PointerData.entries (d : PointerData w) : Multiset (PointerInfoType w) := values d.pointers

/-- The books are exact about the entries, the overwritten entries `L` and
the stack references `F` in flight. -/
structure Charged (d : PointerData w) (L : Multiset (PointerInfoType w)) (F : Multiset ℕ) : Prop where
  used : d.currentUsed = BitVec.ofNat w (bytes anyType (d.entries + L))
  host : d.currentHost = BitVec.ofNat w (bytes isHost (d.entries + L))
  dma : d.currentDma = BitVec.ofNat w (bytes isDma (d.entries + L))
  held : StackHeld d (stackIndices (d.entries + L) + F)

variable {L : Multiset (PointerInfoType w)} {F : Multiset ℕ}

theorem Charged.initialized : Charged (PointerData.initialized w) 0 0 :=
  ⟨rfl, rfl, rfl, StackHeld.initialized⟩

theorem SameBooks.entries {d d' : PointerData w} (h : SameBooks d d') : d'.entries = d.entries := by
  rw [PointerData.entries, PointerData.entries, h.pointers]

/-- A change of the stack tables alone leaves the totals charged as they were. -/
theorem Charged.of_sameBooks {d' : PointerData w} {F' : Multiset ℕ} (hc : Charged d L F) (hb : SameBooks d d')
    (hs : StackHeld d' (stackIndices (d.entries + L) + F')) : Charged d' L F' := by
  have he := hb.entries
  refine ⟨?_, ?_, ?_, ?_⟩
  · rw [hb.currentUsed, he, hc.used]
  · rw [hb.currentHost, he, hc.host]
  · rw [hb.currentDma, he, hc.dma]
  · rw [he]; exact hs

/-- Whoever holds a reference finds the stack under it. -/
theorem Charged.lookup (hc : Charged d L F) {h : ℕ} (hm : h ∈ stackIndices (d.entries + L) + F) :
    ∃ r frames info, d.frames.lookup h = some { references := r, frames } ∧
      d.backtracesInfo.lookup h = some info ∧ pcs w info = frames := by
  obtain ⟨frames, info, hf, hi, hp⟩ := hc.held.lookup hm
  exact ⟨_, frames, info, hf, hi, hp⟩

/-- The reference an entry of the table holds is one of those counted. -/
theorem mem_references (F : Multiset ℕ) {k : Word w} {e : PointerInfoType w} (hk : d.pointers.lookup k = some e)
    (hh : kBacktraceEmptyIndex < e.hashIndex) : e.hashIndex ∈ stackIndices (d.entries + L) + F := by
  refine Multiset.mem_add.mpr (.inl (mem_stackIndices (Multiset.mem_add.mpr (.inl ?_)) hh))
  exact mem_values.mpr ⟨k, hk⟩

/-! ## One section at a time -/

/-- `AddBacktrace` puts the reference it returns in flight. -/
theorem Charged.addBacktrace (cfg : Config w) (hc : Charged d L F) (env : AddEnv w) (size : Word w) :
    Charged (d.addBacktrace cfg env size).2 L (holding (d.addBacktrace cfg env size).1 + F) := by
  have hsame := addBacktrace_sameBooks cfg env size d
  unfold PointerData.addBacktrace at hsame ⊢
  cases e : capture cfg env size with
  | exit => simpa [e, holding, kBacktraceExitIndex, kBacktraceEmptyIndex] using hc
  | empty => simpa [e] using hc
  | stack frames info =>
    obtain ⟨hb, hp⟩ := capture_stack e
    have hs := hc.held.addFrames hb hp
    simp only [e] at hsame ⊢
    refine hc.of_sameBooks hsame ?_
    have hlt : kBacktraceEmptyIndex < (d.addFrames cfg frames info).1 :=
      Held.base_le_of_mem hs (Multiset.mem_cons_self _ _)
    rw [holding_of_lt hlt, ← add_assoc, add_comm (stackIndices _), add_assoc, Multiset.singleton_add]
    exact hs

/-- What the insertion of an entry does, field by field. -/
theorem recordPointer_eq (now : Timeval) (ptr size : Word w) (h : ℕ) (t : MemType) (d : PointerData w) :
    d.recordPointer now ptr size h t =
      { d with
        pointers := d.pointers.insert (manglePointer ptr) { size, hashIndex := h, memType := t, allocTime := now }
        currentUsed := d.currentUsed + size
        currentHost := if isHost t then d.currentHost + size else d.currentHost
        currentDma := if isDma t then d.currentDma + size else d.currentDma
        peakHost :=
          if isHost t ∧ d.peakHost < d.currentHost + size then d.currentHost + size else d.peakHost
        peakDma := if isDma t ∧ d.peakDma < d.currentDma + size then d.currentDma + size else d.peakDma } := by
  unfold PointerData.recordPointer
  by_cases ht : t = .dma <;> simp [ht, isHost, isDma]

theorem recordPointer_pointers (now : Timeval) (ptr size : Word w) (h : ℕ) (t : MemType) (d : PointerData w) :
    (d.recordPointer now ptr size h t).pointers =
      d.pointers.insert (manglePointer ptr) { size, hashIndex := h, memType := t, allocTime := now } := by
  rw [recordPointer_eq]

/-- What the overwritten entry, if any, was. -/
def PointerData.overwritten (d : PointerData w) (ptr : Word w) : Multiset (PointerInfoType w) :=
  match d.pointers.lookup (manglePointer ptr) with
  | none => 0
  | some e => {e}

/-- The entries after a write to the pointer table: the new one, and what was
there but for the overwritten one. -/
theorem entries_insert (d : PointerData w) (ptr : Word w) (e : PointerInfoType w) :
    values (d.pointers.insert (manglePointer ptr) e) + d.overwritten ptr = e ::ₘ d.entries := by
  unfold PointerData.overwritten PointerData.entries
  cases hk : d.pointers.lookup (manglePointer ptr) with
  | none => rw [values_insert_of_notMem hk, add_zero]
  | some e' => rw [values_insert, ← values_erase hk, Multiset.cons_add, add_comm, Multiset.singleton_add]

theorem recordPointer_currentUsed (now : Timeval) (ptr size : Word w) (h : ℕ) (t : MemType) (d : PointerData w) :
    (d.recordPointer now ptr size h t).currentUsed = d.currentUsed + size := by
  rw [recordPointer_eq]

theorem recordPointer_peakTot (now : Timeval) (ptr size : Word w) (h : ℕ) (t : MemType) (d : PointerData w) :
    (d.recordPointer now ptr size h t).peakTot = d.peakTot := by
  rw [recordPointer_eq]

theorem recordPointer_sameStacks (now : Timeval) (ptr size : Word w) (h : ℕ) (t : MemType) (d : PointerData w) :
    SameStacks d (d.recordPointer now ptr size h t) := by
  rw [recordPointer_eq]
  exact ⟨rfl, rfl, rfl, rfl⟩

/-- A total with one more entry of its class. -/
theorem ofNat_bytes_cons (c : MemType → Bool) (e : PointerInfoType w) (M : Multiset (PointerInfoType w)) :
    BitVec.ofNat w (bytes c (e ::ₘ M)) =
      if c e.memType then BitVec.ofNat w (bytes c M) + e.size else BitVec.ofNat w (bytes c M) := by
  rw [bytes_cons]
  split
  · rw [BitVec.ofNat_add, BitVec.ofNat_toNat, BitVec.setWidth_eq, BitVec.add_comm]
  · rw [Nat.zero_add]

/-- The sizes of the entries of a class, added up in a word. -/
theorem ofNat_bytes (c : MemType → Bool) (M : Multiset (PointerInfoType w)) :
    BitVec.ofNat w (bytes c M) = ((M.filter fun e => c e.memType = true).map (·.size)).sum := by
  induction M using Multiset.induction_on with
  | empty => rfl
  | cons e M ih =>
    rw [ofNat_bytes_cons, ih]
    by_cases hce : c e.memType = true
    · rw [if_pos hce, Multiset.filter_cons_of_pos (p := fun e => c e.memType = true) M hce, Multiset.map_cons,
        Multiset.sum_cons, BitVec.add_comm]
    · rw [if_neg hce, Multiset.filter_cons_of_neg (p := fun e => c e.memType = true) M hce]

/-- The insertion charges the new entry; the reference in flight is now its. -/
theorem Charged.recordPointer {h : ℕ} (hc : Charged d L (holding h + F)) (now : Timeval) (ptr size : Word w)
    (t : MemType) : Charged (d.recordPointer now ptr size h t) (d.overwritten ptr + L) F := by
  set e : PointerInfoType w := { size, hashIndex := h, memType := t, allocTime := now } with he
  have hE : (d.recordPointer now ptr size h t).entries + (d.overwritten ptr + L) = e ::ₘ (d.entries + L) := by
    rw [PointerData.entries, recordPointer_pointers, ← add_assoc, entries_insert, Multiset.cons_add]
  refine ⟨?_, ?_, ?_, ?_⟩
  · rw [hE, ofNat_bytes_cons, ← hc.used, recordPointer_currentUsed]; rfl
  · rw [hE, ofNat_bytes_cons, ← hc.host, recordPointer_eq]
  · rw [hE, ofNat_bytes_cons, ← hc.dma, recordPointer_eq]
  · rw [hE, StackHeld, (recordPointer_sameStacks ..).stackStore, stackIndices_cons]
    have := hc.held
    rwa [← add_assoc, add_comm (stackIndices _)] at this

theorem insertPointer_cases (cfg : Config w) (now : Timeval) (ptr size : Word w) (h : ℕ) (t : MemType)
    (d : PointerData w) :
    (d.peakTot < d.currentUsed + size ∧ d.insertPointer cfg now ptr size h t =
      ({ d.recordPointer now ptr size h t with peakTot := d.currentUsed + size },
        cfg.has RECORD_MEMORY_PEAK && decide (cfg.backtraceDumpPeakVal < d.currentUsed + size))) ∨
    (¬ d.peakTot < d.currentUsed + size ∧
      d.insertPointer cfg now ptr size h t = (d.recordPointer now ptr size h t, false)) := by
  unfold PointerData.insertPointer
  dsimp only
  rw [recordPointer_currentUsed, recordPointer_peakTot]
  by_cases hlt : d.peakTot < d.currentUsed + size
  · exact .inl ⟨hlt, if_pos hlt⟩
  · exact .inr ⟨hlt, if_neg hlt⟩

theorem insertPointer_pointers (cfg : Config w) (now : Timeval) (ptr size : Word w) (h : ℕ) (t : MemType)
    (d : PointerData w) : (d.insertPointer cfg now ptr size h t).1.pointers =
      d.pointers.insert (manglePointer ptr) { size, hashIndex := h, memType := t, allocTime := now } := by
  rcases insertPointer_cases cfg now ptr size h t d with ⟨_, hq⟩ | ⟨_, hq⟩
  · rw [hq]; exact recordPointer_pointers now ptr size h t d
  · rw [hq]; exact recordPointer_pointers now ptr size h t d

theorem insertPointer_sameStacks (cfg : Config w) (now : Timeval) (ptr size : Word w) (h : ℕ) (t : MemType)
    (d : PointerData w) : SameStacks d (d.insertPointer cfg now ptr size h t).1 := by
  have hr := recordPointer_sameStacks now ptr size h t d
  rcases insertPointer_cases cfg now ptr size h t d with ⟨_, hq⟩ | ⟨_, hq⟩
  · rw [hq]; exact ⟨hr.keyToIndex, hr.frames, hr.backtracesInfo, hr.curHashIndex⟩
  · rw [hq]; exact hr

/-- The charge does not look at peaks and snapshots. -/
theorem Charged.of_peaks {d' : PointerData w} (hc : Charged d L F) (hp : d'.pointers = d.pointers)
    (hu : d'.currentUsed = d.currentUsed) (hh : d'.currentHost = d.currentHost) (hd : d'.currentDma = d.currentDma)
    (hs : d'.stackStore = d.stackStore) : Charged d' L F := by
  have he : d'.entries = d.entries := by rw [PointerData.entries, PointerData.entries, hp]
  refine ⟨?_, ?_, ?_, ?_⟩
  · rw [hu, he, hc.used]
  · rw [hh, he, hc.host]
  · rw [hd, he, hc.dma]
  · rw [StackHeld, hs, he]; exact hc.held

theorem Charged.insertPointer (cfg : Config w) {h : ℕ} (hc : Charged d L (holding h + F)) (now : Timeval)
    (ptr size : Word w) (t : MemType) : Charged (d.insertPointer cfg now ptr size h t).1 (d.overwritten ptr + L) F := by
  have hr := hc.recordPointer now ptr size t
  rcases insertPointer_cases cfg now ptr size h t d with ⟨_, hq⟩ | ⟨_, hq⟩
  · rw [hq]; exact hr.of_peaks rfl rfl rfl rfl rfl
  · rw [hq]; exact hr

theorem Charged.takeSnapshot (hc : Charged d L F) (it : Iteration (Word w) (PointerInfoType w)) :
    Charged (d.takeSnapshot it) L F := hc.of_peaks rfl rfl rfl rfl rfl

/-- What the erasure of an entry does, field by field. -/
theorem erasePointer_of_some {ptr : Word w} {e : PointerInfoType w}
    (hk : d.pointers.lookup (manglePointer ptr) = some e) :
    d.erasePointer ptr = (some e.hashIndex,
      { d with
        currentUsed := d.currentUsed - e.size
        currentDma := if isDma e.memType then d.currentDma - e.size else d.currentDma
        currentHost := if isHost e.memType then d.currentHost - e.size else d.currentHost
        pointers := d.pointers.erase (manglePointer ptr) }) := by
  unfold PointerData.erasePointer
  by_cases ht : e.memType = .dma <;> simp [hk, ht, isDma, isHost]

theorem erasePointer_of_none {ptr : Word w} (hk : d.pointers.lookup (manglePointer ptr) = none) :
    d.erasePointer ptr = (none, d) := by
  unfold PointerData.erasePointer
  rw [hk]

theorem erasePointer_sameStacks (ptr : Word w) (d : PointerData w) : SameStacks d (d.erasePointer ptr).2 := by
  cases hk : d.pointers.lookup (manglePointer ptr) with
  | none => rw [erasePointer_of_none hk]; exact .refl d
  | some e => rw [erasePointer_of_some hk]; exact ⟨rfl, rfl, rfl, rfl⟩

theorem erasePointer_pointers (ptr : Word w) (d : PointerData w) :
    (d.erasePointer ptr).2.pointers = d.pointers.erase (manglePointer ptr) := by
  cases hk : d.pointers.lookup (manglePointer ptr) with
  | none => rw [erasePointer_of_none hk, erase_of_lookup_none hk]
  | some e => rw [erasePointer_of_some hk]

theorem ofNat_bytes_sub (c : MemType → Bool) (e : PointerInfoType w) (M : Multiset (PointerInfoType w)) :
    (if c e.memType then BitVec.ofNat w (bytes c (e ::ₘ M)) - e.size else BitVec.ofNat w (bytes c (e ::ₘ M))) =
      BitVec.ofNat w (bytes c M) := by
  rw [ofNat_bytes_cons]
  split
  · exact BitVec.add_sub_cancel _ _
  · rfl

/-- The erasure discharges the entry and puts its reference in flight. -/
theorem Charged.erasePointer (hc : Charged d L F) {ptr : Word w} {e : PointerInfoType w}
    (hk : d.pointers.lookup (manglePointer ptr) = some e) :
    Charged (d.erasePointer ptr).2 L (holding e.hashIndex + F) := by
  have hE : d.entries + L = e ::ₘ (values (d.pointers.erase (manglePointer ptr)) + L) := by
    rw [← Multiset.cons_add, values_erase hk]; rfl
  rw [erasePointer_of_some hk]
  refine ⟨?_, ?_, ?_, ?_⟩
  · rw [hc.used, hE]; exact ofNat_bytes_sub anyType e _
  · rw [hc.host, hE]; exact ofNat_bytes_sub isHost e _
  · rw [hc.dma, hE]; exact ofNat_bytes_sub isDma e _
  · have := hc.held
    rw [hE, stackIndices_cons, add_comm (holding _), add_assoc] at this
    exact this

/-- `RemoveBacktrace` takes the reference it is given out of flight. -/
theorem Charged.removeBacktrace {h : ℕ} (hc : Charged d L (holding h + F)) (hb : cfg.has BACKTRACE = true) :
    Charged (d.removeBacktrace cfg h) L F := by
  by_cases hh : kBacktraceEmptyIndex < h
  · rw [holding_of_lt hh] at hc
    refine hc.of_sameBooks (removeBacktrace_sameBooks cfg h d) ?_
    have hm : h ∈ stackIndices (d.entries + L) + ({h} + F) := by simp
    have := hc.held.removeBacktrace hm hb
    rwa [Multiset.singleton_add, Multiset.add_cons, Multiset.erase_cons_head] at this
  · rw [PointerData.removeBacktrace, if_pos (Nat.not_lt.mp hh)]
    rwa [holding, if_neg hh, zero_add] at hc

/-! ## Whole calls -/

/-- Whether an `Add` records its pointer: not when the capture ended in one
of the functions the tool leaves out. -/
def records (cfg : Config w) (env : AddEnv w) (size : Word w) : Bool :=
  match capture cfg env size with
  | .exit => false
  | _ => true

/-- A capture without an error is recorded, of whatever size. -/
theorem records_of_unwind {env : AddEnv w}
    (h : (unwind w (env.unwinder cfg.backtraceFrames)).2.2 = .none) (size : Word w) : records cfg env size = true := by
  unfold records capture
  by_cases hs : (!shouldBacktraceAllocSize cfg size) = true
  · simp only [if_pos hs]
  · by_cases hb : cfg.has BACKTRACE = true
    · simp only [if_neg hs, if_pos hb, h]
    · simp only [if_neg hs, if_neg hb]

theorem add_of_not_records {env : AddEnv w} {size : Word w} (hr : records cfg env size = false) (ptr : Word w)
    (t : MemType) (d : PointerData w) : d.add cfg env ptr size t = d := by
  have he : capture cfg env size = .exit := by
    unfold records at hr
    split at hr
    · assumption
    · cases hr
  simp only [PointerData.add, PointerData.addBacktrace, he, if_true]

/-- No stack is stored under the index that means "do not record". -/
theorem addBacktrace_ne_exit {H : Multiset ℕ} (hs : StackHeld d H) {env : AddEnv w} {size : Word w}
    (hr : records cfg env size = true) : (d.addBacktrace cfg env size).1 ≠ kBacktraceExitIndex := by
  unfold records at hr
  unfold PointerData.addBacktrace
  cases e : capture cfg env size with
  | exit => simp [e] at hr
  | empty => simp [kBacktraceEmptyIndex, kBacktraceExitIndex]
  | stack frames info =>
    obtain ⟨hb, hp⟩ := capture_stack e
    have hle := Held.base_le_of_mem (hs.addFrames hb hp) (Multiset.mem_cons_self _ _)
    simp only [kBacktraceEmptyIndex, kBacktraceExitIndex] at hle ⊢
    omega

/-- The two sections of a recorded `Add`, and the snapshot when one is due. -/
theorem add_of_records {H : Multiset ℕ} (hs : StackHeld d H) {env : AddEnv w} {size : Word w}
    (hr : records cfg env size = true) (ptr : Word w) (t : MemType) :
    d.add cfg env ptr size t =
      let r := d.addBacktrace cfg env size
      let p := r.2.insertPointer cfg env.now ptr size r.1 t
      if p.2 then p.1.takeSnapshot env.walk else p.1 := by
  simp only [PointerData.add, if_neg (addBacktrace_ne_exit hs hr)]

/-- The state an `Add` has written its entry to, before it looks at the peak. -/
def PointerData.written (cfg : Config w) (env : AddEnv w) (ptr size : Word w) (t : MemType) (d : PointerData w) :
    PointerData w :=
  (d.addBacktrace cfg env size).2.recordPointer env.now ptr size (d.addBacktrace cfg env size).1 t

/-- A new peak calls for a snapshot. -/
def snapshotDue (cfg : Config w) (used : Word w) : Prop :=
  cfg.has RECORD_MEMORY_PEAK = true ∧ cfg.backtraceDumpPeakVal < used

theorem add_cases {H : Multiset ℕ} (hs : StackHeld d H) {env : AddEnv w} {size : Word w}
    (hr : records cfg env size = true) (ptr : Word w) (t : MemType) :
    (d.peakTot < d.currentUsed + size ∧ snapshotDue cfg (d.currentUsed + size) ∧ d.add cfg env ptr size t =
      { d.written cfg env ptr size t with peakTot := d.currentUsed + size }.takeSnapshot env.walk) ∨
    (d.peakTot < d.currentUsed + size ∧ ¬ snapshotDue cfg (d.currentUsed + size) ∧ d.add cfg env ptr size t =
      { d.written cfg env ptr size t with peakTot := d.currentUsed + size }) ∨
    (¬ d.peakTot < d.currentUsed + size ∧ d.add cfg env ptr size t = d.written cfg env ptr size t) := by
  have hb := addBacktrace_sameBooks cfg env size d
  rw [add_of_records hs hr, ← hb.peakTot, ← hb.currentUsed]
  rcases insertPointer_cases cfg env.now ptr size (d.addBacktrace cfg env size).1 t (d.addBacktrace cfg env size).2
    with ⟨hlt, hq⟩ | ⟨hlt, hq⟩
  · simp only [hq]
    by_cases hsnap : snapshotDue cfg ((d.addBacktrace cfg env size).2.currentUsed + size)
    · exact .inl ⟨hlt, hsnap, if_pos (by simpa [snapshotDue] using hsnap)⟩
    · exact .inr (.inl ⟨hlt, hsnap, if_neg (by simpa [snapshotDue] using hsnap)⟩)
  · simp only [hq]
    exact .inr (.inr ⟨hlt, rfl⟩)

/-- What a recorded `Add` does to everything but the stack tables and the
snapshot: `e` is the entry it wrote. -/
structure Added (d d' : PointerData w) (ptr : Word w) (e : PointerInfoType w) : Prop where
  pointers : d'.pointers = d.pointers.insert (manglePointer ptr) e
  currentUsed : d'.currentUsed = d.currentUsed + e.size
  currentHost : d'.currentHost = if isHost e.memType then d.currentHost + e.size else d.currentHost
  currentDma : d'.currentDma = if isDma e.memType then d.currentDma + e.size else d.currentDma
  peakTot : d'.peakTot = if d.peakTot < d'.currentUsed then d'.currentUsed else d.peakTot
  peakHost : d'.peakHost =
    if isHost e.memType ∧ d.peakHost < d'.currentHost then d'.currentHost else d.peakHost
  peakDma : d'.peakDma = if isDma e.memType ∧ d.peakDma < d'.currentDma then d'.currentDma else d.peakDma

/-- The entry a recorded `Add` writes. -/
def PointerData.newEntry (cfg : Config w) (d : PointerData w) (env : AddEnv w) (size : Word w) (t : MemType) :
    PointerInfoType w :=
  { size, hashIndex := (d.addBacktrace cfg env size).1, memType := t, allocTime := env.now }

theorem added_recordPointer (now : Timeval) (ptr size : Word w) (h : ℕ) (t : MemType) (d : PointerData w) :
    Added d
      { d.recordPointer now ptr size h t with
        peakTot := if d.peakTot < d.currentUsed + size then d.currentUsed + size else d.peakTot }
      ptr { size, hashIndex := h, memType := t, allocTime := now } := by
  rw [recordPointer_eq]
  refine ⟨rfl, rfl, rfl, rfl, rfl, ?_, ?_⟩
  · cases t <;> rfl
  · cases t <;> rfl

theorem Added.of_sameBooks {d₀ d' : PointerData w} {ptr : Word w} {e : PointerInfoType w} (ha : Added d d' ptr e)
    (hb : SameBooks d₀ d) : Added d₀ d' ptr e := by
  obtain ⟨h1, h2, h3, h4, h5, h6, h7⟩ := ha
  rw [hb.pointers] at h1
  rw [hb.currentUsed] at h2
  rw [hb.currentHost] at h3
  rw [hb.currentDma] at h4
  rw [hb.peakTot] at h5
  rw [hb.peakHost] at h6
  rw [hb.peakDma] at h7
  exact ⟨h1, h2, h3, h4, h5, h6, h7⟩

theorem Added.takeSnapshot {d' : PointerData w} {ptr : Word w} {e : PointerInfoType w} (ha : Added d d' ptr e)
    (it : Iteration (Word w) (PointerInfoType w)) : Added d (d'.takeSnapshot it) ptr e := by
  obtain ⟨h1, h2, h3, h4, h5, h6, h7⟩ := ha
  exact ⟨h1, h2, h3, h4, h5, h6, h7⟩

theorem add_added {H : Multiset ℕ} (hs : StackHeld d H) {env : AddEnv w} {size : Word w}
    (hr : records cfg env size = true) (ptr : Word w) (t : MemType) :
    Added d (d.add cfg env ptr size t) ptr (d.newEntry cfg env size t) := by
  have hb := addBacktrace_sameBooks cfg env size d
  have ha : Added d { d.written cfg env ptr size t with
      peakTot := if d.peakTot < d.currentUsed + size then d.currentUsed + size else d.peakTot } ptr
      (d.newEntry cfg env size t) := by
    have := (added_recordPointer env.now ptr size (d.addBacktrace cfg env size).1 t
      (d.addBacktrace cfg env size).2).of_sameBooks hb
    rwa [hb.peakTot, hb.currentUsed] at this
  rcases add_cases hs hr ptr t with ⟨hlt, -, hq⟩ | ⟨hlt, -, hq⟩ | ⟨hlt, hq⟩
  · rw [if_pos hlt] at ha
    rw [hq]
    exact ha.takeSnapshot env.walk
  · rw [if_pos hlt] at ha
    rwa [hq]
  · have hp : (d.written cfg env ptr size t).peakTot = d.peakTot := by
      rw [PointerData.written, recordPointer_peakTot, hb.peakTot]
    rw [if_neg hlt, ← hp] at ha
    rwa [hq]

/-- What `Remove` does to everything but the stack tables. -/
structure Removed (d d' : PointerData w) (ptr : Word w) (e : PointerInfoType w) : Prop where
  pointers : d'.pointers = d.pointers.erase (manglePointer ptr)
  currentUsed : d'.currentUsed = d.currentUsed - e.size
  currentHost : d'.currentHost = if isHost e.memType then d.currentHost - e.size else d.currentHost
  currentDma : d'.currentDma = if isDma e.memType then d.currentDma - e.size else d.currentDma
  peakTot : d'.peakTot = d.peakTot
  peakHost : d'.peakHost = d.peakHost
  peakDma : d'.peakDma = d.peakDma
  peakList : d'.peakList = d.peakList

theorem remove_of_none {ptr : Word w} (hk : d.pointers.lookup (manglePointer ptr) = none) :
    d.remove cfg ptr = d := by
  simp only [PointerData.remove, erasePointer_of_none hk]

theorem remove_removed {ptr : Word w} {e : PointerInfoType w}
    (hk : d.pointers.lookup (manglePointer ptr) = some e) : Removed d (d.remove cfg ptr) ptr e := by
  simp only [PointerData.remove, erasePointer_of_some hk]
  obtain ⟨h1, h2, h3, h4, h5, h6, h7, h8⟩ := removeBacktrace_sameBooks cfg e.hashIndex
    { d with
      currentUsed := d.currentUsed - e.size
      currentDma := if isDma e.memType then d.currentDma - e.size else d.currentDma
      currentHost := if isHost e.memType then d.currentHost - e.size else d.currentHost
      pointers := d.pointers.erase (manglePointer ptr) }
  exact ⟨h1, h2, h3, h4, h5, h6, h7, h8⟩

/-- `Remove` erases the pointer's entry, if there is one. -/
theorem remove_pointers (cfg : Config w) (d : PointerData w) (ptr : Word w) :
    (d.remove cfg ptr).pointers = d.pointers.erase (manglePointer ptr) := by
  cases hk : d.pointers.lookup (manglePointer ptr) with
  | none => rw [remove_of_none hk, erase_of_lookup_none hk]
  | some e => exact (remove_removed hk).pointers

/-- What a call leaves charged that `pointers_` no longer shows. -/
def PointerData.leaves (cfg : Config w) (d : PointerData w) : Call w → Multiset (PointerInfoType w)
  | .add env ptr size _ => if records cfg env size then d.overwritten ptr else 0
  | .remove _ => 0

theorem Charged.add (hc : Charged d L F) (env : AddEnv w) (ptr size : Word w) (t : MemType) :
    Charged (d.add cfg env ptr size t) (d.leaves cfg (.add env ptr size t) + L) F := by
  cases hr : records cfg env size with
  | false =>
    rw [add_of_not_records hr, PointerData.leaves, hr]
    simpa using hc
  | true =>
    have hov : (d.addBacktrace cfg env size).2.overwritten ptr = d.overwritten ptr := by
      rw [PointerData.overwritten, PointerData.overwritten, (addBacktrace_sameBooks cfg env size d).pointers]
    have hi := (hc.addBacktrace cfg env size).insertPointer cfg env.now ptr size t
    rw [hov] at hi
    rw [add_of_records hc.held hr, PointerData.leaves, hr]
    dsimp only
    split
    · exact hi.takeSnapshot env.walk
    · exact hi

theorem Charged.remove (hc : Charged d L F) (hb : cfg.has BACKTRACE = true) (ptr : Word w) :
    Charged (d.remove cfg ptr) L F := by
  unfold PointerData.remove
  cases hk : d.pointers.lookup (manglePointer ptr) with
  | none => rw [erasePointer_of_none hk]; exact hc
  | some e =>
    have he := hc.erasePointer hk
    rw [erasePointer_of_some hk] at he ⊢
    exact he.removeBacktrace hb

theorem Charged.exec (hc : Charged d L F) (hb : cfg.has BACKTRACE = true) (call : Call w) :
    Charged (d.exec cfg call) (d.leaves cfg call + L) F := by
  cases call with
  | add env ptr size t => exact hc.add env ptr size t
  | remove ptr => simpa [PointerData.leaves, PointerData.exec] using hc.remove hb ptr

/-! ## Whole runs -/

theorem run_concat (cfg : Config w) (calls : List (Call w)) (call : Call w) :
    PointerData.run cfg (calls ++ [call]) = (PointerData.run cfg calls).exec cfg call := by
  simp only [PointerData.run, List.foldl_append, List.foldl_cons, List.foldl_nil]

/-- The entries a run overwrote. -/
def leaked (cfg : Config w) (calls : List (Call w)) : Multiset (PointerInfoType w) :=
  (calls.foldl (fun s call => (s.1.exec cfg call, s.1.leaves cfg call + s.2))
    (PointerData.initialized w, (0 : Multiset (PointerInfoType w)))).2

theorem leaked_concat (cfg : Config w) (calls : List (Call w)) (call : Call w) :
    leaked cfg (calls ++ [call]) = (PointerData.run cfg calls).leaves cfg call + leaked cfg calls := by
  have hrun : ∀ (l : List (Call w)) (d : PointerData w) (L : Multiset (PointerInfoType w)),
      (l.foldl (fun s call => (s.1.exec cfg call, s.1.leaves cfg call + s.2)) (d, L)).1 =
        l.foldl (PointerData.exec cfg) d := by
    intro l
    induction l with
    | nil => intro d L; rfl
    | cons c l ih => intro d L; exact ih _ _
  simp only [leaked, List.foldl_append, List.foldl_cons, List.foldl_nil, hrun]
  rfl

/-- **Every run keeps the books exact** about the entries of `pointers_` and
those it overwrote. -/
theorem run_charged {cfg : Config w} (hb : cfg.has BACKTRACE = true) (calls : List (Call w)) :
    Charged (PointerData.run cfg calls) (leaked cfg calls) 0 := by
  induction calls using List.reverseRecOn with
  | nil => exact Charged.initialized
  | append_singleton calls call ih =>
    rw [run_concat, leaked_concat]
    exact ih.exec hb call

end AllocHook
