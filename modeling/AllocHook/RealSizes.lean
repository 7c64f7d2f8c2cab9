/-
Sizes that are reported as they are.

A record's size is the entry's with bit 31 masked, so a dump tells the truth
about entries of at most `MaxSize` bytes. Most hooks refuse a larger request.
`debug_calloc` does not, nor does `debug_realloc` of null, and a DMA buffer
has the size the kernel says.

`real_sizes_iff` says these are all: in every state of a run every size is
reported as stored, and the totals of a live dump are those of the entries,
if and only if no event of the run is one of the three (`Oversized`).
-/
import AllocHook.HookEffects
import AllocHook.Accounting

namespace AllocHook

open FiniteMap SharedStore History

variable {w : Nat} {cfg : Config w} {d : PointerData w}

/-! ## Requests that are too large -/

/-- A DMA buffer not seen before, above `MaxSize`. -/
def OversizedBuffer (cfg : Config w) (env : HookEnv w) (s : HookState w) (fd : Fd) : Prop :=
  ∃ inode size, dmaInfo env fd = some (inode, size) ∧ inode ∉ s.inodeSet ∧ maxSize w < size ∧
    records cfg env.add size = true

/-- The call has more than `MaxSize` bytes recorded. -/
def Oversized (cfg : Config w) (env : HookEnv w) (s : HookState w) (call : HookCall w) : Prop :=
  s.disabled = false ∧
    match call with
    | .calloc nmemb bytes => nmemb.toNat * bytes.toNat < 2 ^ w ∧ (env.sys.calloc 1 (nmemb * bytes)).result ≠ 0 ∧
        maxSize w < nmemb * bytes ∧ records cfg env.add (nmemb * bytes) = true
    | .realloc pointer bytes => pointer = 0 ∧ maxSize w < bytes ∧ records cfg env.add bytes = true
    | .ioctl _ (.DMA_HEAP_IOCTL_ALLOC fd) => OversizedBuffer cfg env s fd
    | .ioctl _ (.CAM_MEM_ION_MAP_PA fd) => OversizedBuffer cfg env s fd
    | .mmap args => args.size ≤ maxSize w ∧ args.fd.msb = false ∧ OversizedBuffer cfg env s args.fd
    | _ => False

/-- The tracker call records more than `MaxSize` bytes. -/
def BigAdd (cfg : Config w) : Call w → Prop
  | .add env _ size _ => maxSize w < size ∧ records cfg env size = true
  | .remove _ => False

def HasBig (cfg : Config w) (calls : List (Call w)) : Prop := ∃ c ∈ calls, BigAdd cfg c

@[simp] theorem hasBig_nil : ¬ HasBig cfg [] := by simp [HasBig]

@[simp] theorem hasBig_add (env : AddEnv w) (ptr size : Word w) (type : MemType) (calls : List (Call w)) :
    HasBig cfg (.add env ptr size type :: calls) ↔
      (maxSize w < size ∧ records cfg env size = true) ∨ HasBig cfg calls := by simp [HasBig, BigAdd]

@[simp] theorem hasBig_remove (ptr : Word w) (calls : List (Call w)) :
    HasBig cfg (.remove ptr :: calls) ↔ HasBig cfg calls := by simp [HasBig, BigAdd]

@[simp] theorem hasBig_ite (P : Prop) [Decidable P] (l l' : List (Call w)) :
    HasBig cfg (if P then l else l') ↔ (P ∧ HasBig cfg l) ∨ (¬ P ∧ HasBig cfg l') := by
  split
  · next h => simp [h]
  · next h => simp [h]

theorem hasBig_dmaCalls {env : HookEnv w} {s : HookState w} {fd : Fd} :
    HasBig cfg (s.dmaCalls env fd) ↔ OversizedBuffer cfg env s fd := by
  unfold HookState.dmaCalls OversizedBuffer
  cases hd : dmaInfo env fd with
  | none => simp
  | some info =>
    obtain ⟨inode, size⟩ := info
    by_cases hseen : inode ∈ s.inodeSet
    · simp [hseen]
    · simp [hseen]

/-- The hooks that record more than `MaxSize` bytes. -/
theorem oversized_iff {env : HookEnv w} {s : HookState w} {call : HookCall w} :
    Oversized cfg env s call ↔ HasBig cfg (s.calls env call) := by
  unfold Oversized HookState.calls
  cases hd : s.disabled with
  | true => simp
  | false =>
    simp only [true_and, Bool.false_eq_true, if_false]
    cases call with
    | ioctl fd request =>
      cases request with
      | DMA_HEAP_IOCTL_ALLOC heapFd => exact hasBig_dmaCalls.symm
      | CAM_MEM_ION_MAP_PA memID => exact hasBig_dmaCalls.symm
      | _ => exact iff_of_false id hasBig_nil
    | mmap args =>
      have hle := BitVec.not_lt (x := maxSize w) (y := args.size)
      cases hf : args.fd.msb with
      | true => simp only [hf, hasBig_ite, hasBig_nil, hasBig_add]; tauto
      | false => simp only [hf, hasBig_ite, hasBig_nil, hasBig_dmaCalls]; tauto
    | calloc nmemb bytes =>
      have hle := Nat.not_le (a := 2 ^ w) (b := nmemb.toNat * bytes.toNat)
      simp only [hasBig_ite, hasBig_nil, hasBig_add, ← hle]
      tauto
    | _ =>
      simp only [hasBig_ite, hasBig_nil, hasBig_add, hasBig_remove]
      try tauto

/-! ## Small entries -/

/-- No entry is above `MaxSize`. -/
def PointerData.Small (d : PointerData w) : Prop := ∀ k e, d.pointers.lookup k = some e → e.size ≤ maxSize w

theorem small_remove (cfg : Config w) (h : d.Small) (ptr : Word w) : (d.remove cfg ptr).Small := by
  intro k e hk
  rw [remove_pointers, lookup_erase_eq] at hk
  split at hk
  · cases hk
  · exact h k e hk

theorem small_add_iff {H : Multiset ℕ} (hs : StackHeld d H) (h : d.Small) (env : AddEnv w) (ptr size : Word w)
    (type : MemType) : (d.add cfg env ptr size type).Small ↔ ¬ (maxSize w < size ∧ records cfg env size = true) := by
  cases hr : records cfg env size with
  | false =>
    rw [add_of_not_records hr]
    exact iff_of_true h fun hb => by simp at hb
  | true =>
    have ha := (add_added hs hr ptr type).pointers
    constructor
    · intro hsmall hb
      have := hsmall (manglePointer ptr) _ (by rw [ha, lookup_insert_eq, if_pos rfl])
      exact BitVec.not_le.mpr hb.1 this
    · intro hb k e hk
      rw [ha, lookup_insert_eq] at hk
      split at hk
      · cases hk
        exact BitVec.not_lt.mp fun hlt => hb ⟨hlt, rfl⟩
      · exact h k e hk

/-- A hook makes at most one `Add`, and makes it last. -/
theorem calls_shape (env : HookEnv w) (s : HookState w) (call : HookCall w) :
    s.calls env call = [] ∨ (∃ c, s.calls env call = [c]) ∨ ∃ ptr c, s.calls env call = [.remove ptr, c] := by
  have hdma : ∀ fd, s.dmaCalls env fd = [] ∨ ∃ c, s.dmaCalls env fd = [c] := by
    intro fd
    unfold HookState.dmaCalls
    split
    · exact .inl rfl
    · split
      · exact .inl rfl
      · exact .inr ⟨_, rfl⟩
  unfold HookState.calls
  split
  · exact .inl rfl
  · split <;> repeat' split
    all_goals first
      | exact .inl rfl
      | exact .inr (.inl ⟨_, rfl⟩)
      | exact .inr (.inr ⟨_, _, rfl⟩)
      | exact (hdma _).imp_right .inl

/-- A hook keeps the entries small just when it is not oversized. -/
theorem small_call_iff (hc : ∃ L, Charged d L 0) (hb : cfg.has BACKTRACE = true) (h : d.Small) (env : HookEnv w)
    (s : HookState w) (call : HookCall w) :
    ((s.calls env call).foldl (PointerData.exec cfg) d).Small ↔ ¬ Oversized cfg env s call := by
  have hone : ∀ (d : PointerData w) (c : Call w), (∃ L, Charged d L 0) → d.Small →
      ((d.exec cfg c).Small ↔ ¬ HasBig cfg [c]) := by
    intro d c ⟨L, hc⟩ hd
    cases c with
    | add env ptr size type =>
      refine (small_add_iff hc.held hd env ptr size type).trans (not_congr ?_)
      simp only [hasBig_add, hasBig_nil, or_false]
    | remove ptr => exact iff_of_true (small_remove cfg hd ptr) (by simp)
  rw [oversized_iff]
  rcases calls_shape env s call with hq | ⟨c, hq⟩ | ⟨ptr, c, hq⟩
  · rw [hq]
    exact iff_of_true h hasBig_nil
  · rw [hq]
    exact hone d c hc h
  · obtain ⟨L, hc⟩ := hc
    rw [hq, hasBig_remove]
    exact hone _ c ⟨_, hc.remove hb ptr⟩ (small_remove cfg h ptr)

/-! ## The totals of a live dump -/

/-- The bytes of the entries of a class with a stack, and of those without. -/
def PointerData.tracedSizes (d : PointerData w) (c : MemType → Bool) : Word w :=
  ((d.entries.filter fun e => kBacktraceEmptyIndex < e.hashIndex ∧ c e.memType = true).map (·.size)).sum

def PointerData.untracedSizes (d : PointerData w) (c : MemType → Bool) : Word w :=
  ((d.entries.filter fun e => ¬ kBacktraceEmptyIndex < e.hashIndex ∧ c e.memType = true).map (·.size)).sum

theorem traced_add_untracedSizes (d : PointerData w) (c : MemType → Bool) :
    d.tracedSizes c + d.untracedSizes c = BitVec.ofNat w (bytes c d.entries) := by
  rw [ofNat_bytes, PointerData.tracedSizes, PointerData.untracedSizes, ← Multiset.filter_filter,
    ← Multiset.filter_filter, ← Multiset.sum_add, ← Multiset.map_add, Multiset.filter_add_not]

/-- The totals of a live dump. -/
theorem live_totals (hlive : cfg.has RECORD_MEMORY_PEAK = false) (h : d.Small)
    (it : Iteration (Word w) (PointerInfoType w)) :
    (d.dumpLiveToFile cfg it).1.hostUse = d.tracedSizes isHost ∧
      (d.dumpLiveToFile cfg it).1.dmaUse = d.tracedSizes isDma := by
  have hsum : ∀ c, ((d.getList it true timePred).map (classBytes c)).sum = d.tracedSizes c := by
    intro c
    have hg : ∀ k e, classBytes c (d.listInfo ⟨k, e⟩) = if c e.memType then e.realSize else 0 := by
      intro k e
      show (if c e.memType then e.realSize * BitVec.ofNat w 1 else 0) = _
      rw [BitVec.mul_one]
    rw [getList_sum hg, ← SortMerge.sum_map_filter, PointerData.traced, PointerData.tracedSizes, Multiset.filter_filter]
    refine congrArg Multiset.sum (Multiset.map_congr ?_ fun e he => ?_)
    · exact Multiset.filter_congr fun e _ => and_comm
    · obtain ⟨k, hk⟩ := mem_values.mp (Multiset.mem_of_mem_filter he)
      exact realSize_of_le (h k e hk)
  have huse : (d.dumpLiveToFile cfg it).1.hostUse = (dumpUse (d.getList it true timePred)).1 ∧
      (d.dumpLiveToFile cfg it).1.dmaUse = (dumpUse (d.getList it true timePred)).2 := by
    simp only [PointerData.dumpLiveToFile, hlive]
    exact ⟨rfl, rfl⟩
  rw [huse.1, huse.2, dumpUse_eq]
  exact ⟨hsum isHost, hsum isDma⟩

/-- Charged for its entries alone, the tracker's totals are those of the
entries with a stack and those without. -/
theorem Charged.current_sub_untraced (hc : Charged d 0 0) :
    d.currentHost - d.untracedSizes isHost = d.tracedSizes isHost ∧
      d.currentDma - d.untracedSizes isDma = d.tracedSizes isDma := by
  rw [hc.host, hc.dma, add_zero, ← traced_add_untracedSizes, ← traced_add_untracedSizes]
  exact ⟨BitVec.add_sub_cancel _ _, BitVec.add_sub_cancel _ _⟩

/-! ## Runs -/

section Runs

variable {Tid : Type*} [DecidableEq Tid]

/-- The event is an oversized call. -/
def OversizedEvent (cfg : Config w) (p : Process Tid w) : Event Tid w → Prop
  | .call t env call => Oversized cfg env (p.view t) call
  | .disableSet _ _ | .dump _ => False

/-- No `Add` of the event finds its pointer tracked. -/
def FreshEvent (cfg : Config w) (p : Process Tid w) : Event Tid w → Prop
  | .call t env call =>
    Always (fun pre c => FreshCall cfg (pre.foldl (PointerData.exec cfg) p.pointer) c) ((p.view t).calls env call)
  | .disableSet _ _ | .dump _ => True

/-- After `events` every size is reported as it is, and so are the totals of a
live dump: the sizes of the traced entries or, when no pointer was added twice,
the counters less the untraced ones. -/
structure SizesReal (cfg : Config w) (events : List (Event Tid w)) : Prop where
  sizes : ∀ k e, (Process.run cfg events).pointer.pointers.lookup k = some e → e.size ≤ maxSize w ∧ e.realSize = e.size
  totals : cfg.has RECORD_MEMORY_PEAK = false → ∀ it,
    ((Process.run cfg events).pointer.dumpLiveToFile cfg it).1.hostUse =
        (Process.run cfg events).pointer.tracedSizes isHost ∧
      ((Process.run cfg events).pointer.dumpLiveToFile cfg it).1.dmaUse =
        (Process.run cfg events).pointer.tracedSizes isDma
  counters : cfg.has RECORD_MEMORY_PEAK = false →
    Always (fun pre event => FreshEvent cfg (Process.run cfg pre) event) events → ∀ it,
    ((Process.run cfg events).pointer.dumpLiveToFile cfg it).1.hostUse =
        (Process.run cfg events).pointer.currentHost - (Process.run cfg events).pointer.untracedSizes isHost ∧
      ((Process.run cfg events).pointer.dumpLiveToFile cfg it).1.dmaUse =
        (Process.run cfg events).pointer.currentDma - (Process.run cfg events).pointer.untracedSizes isDma

theorem run_charged_fresh (hb : cfg.has BACKTRACE = true) (htrack : cfg.trackPointers = true)
    {events : List (Event Tid w)} (h : Always (fun pre event => FreshEvent cfg (Process.run cfg pre) event) events) :
    Charged (Process.run cfg events).pointer 0 0 := by
  induction events using List.reverseRecOn with
  | nil => exact .initialized
  | append_singleton events event ih =>
    obtain ⟨hfresh, hrest⟩ := always_concat.mp h
    have hc := ih hrest
    rw [Process.run_concat]
    cases event with
    | call t env call =>
      rw [Process.call_pointer htrack]
      exact hc.fresh_calls hb hfresh
    | disableSet t disable => exact hc
    | dump it => exact hc.of_peaks rfl rfl rfl rfl rfl

theorem sizesReal_iff_small (hb : cfg.has BACKTRACE = true) (htrack : cfg.trackPointers = true)
    (events : List (Event Tid w)) : SizesReal cfg events ↔ (Process.run cfg events).pointer.Small := by
  constructor
  · exact fun h k e hk => (h.sizes k e hk).1
  · intro h
    refine ⟨fun k e hk => ⟨h k e hk, realSize_of_le (h k e hk)⟩, fun hlive it => live_totals hlive h it, ?_⟩
    intro hlive hfresh it
    obtain ⟨hhost, hdma⟩ := (run_charged_fresh hb htrack hfresh).current_sub_untraced
    rw [hhost, hdma]
    exact live_totals hlive h it

/-- An event keeps the entries small just when it is not oversized. -/
theorem small_event_iff (hb : cfg.has BACKTRACE = true) (htrack : cfg.trackPointers = true)
    (events : List (Event Tid w)) (event : Event Tid w) (h : (Process.run cfg events).pointer.Small) :
    (Process.run cfg (events ++ [event])).pointer.Small ↔ ¬ OversizedEvent cfg (Process.run cfg events) event := by
  have hc := (Process.reachable htrack events).charged hb
  rw [Process.run_concat]
  cases event with
  | call t env call =>
    rw [Process.call_pointer htrack]
    exact small_call_iff hc hb h env _ call
  | disableSet t disable => exact iff_of_true h id
  | dump it => exact iff_of_true h id

end Runs

/-- **Sizes are reported as they are.** In every state of a run, by any
threads, no stored size is above `MaxSize`, `RealSize` is the size and the
totals of a live dump are right, if and only if the run has no oversized call. -/
theorem real_sizes_iff {Tid : Type*} [DecidableEq Tid] (getenv : Environ) (events : List (Event Tid w)) :
    (∀ pre, pre <+: events → SizesReal (Config.init w getenv) pre) ↔
      Always (fun pre event =>
        ¬ OversizedEvent (Config.init w getenv) (Process.run (Config.init w getenv) pre) event) events := by
  have hb := init_backtrace w getenv
  have htrack := init_trackPointers w getenv
  refine prefixes_iff_always ?_ fun pre event _ hx _ => ?_
  · rw [sizesReal_iff_small hb htrack]
    intro k e hk
    cases hk
  · rw [sizesReal_iff_small hb htrack] at hx ⊢
    exact small_event_iff hb htrack pre event hx

/-! ## Two gigabytes, zeroed -/

/-- `calloc(1, 0x80000000)` on a system that has the memory. -/
def callocTwoGigabytes : Event Unit 64 :=
  .call () (.plain { System.exhausted 64 with calloc := fun _ _ => { result := 0x7f0000000000, errno := 0 } })
    (.calloc 1 0x80000000)

/-- The block is recorded with its size and reported with none. -/
theorem callocTwoGigabytes_not_real : ¬ SizesReal (Config.init 64 ⟨none, none⟩) [callocTwoGigabytes] := by
  intro h
  obtain ⟨e, he, hsize⟩ : ∃ e, (Process.run (Config.init 64 ⟨none, none⟩) [callocTwoGigabytes]).pointer.pointers.lookup
      (manglePointer 0x7f0000000000) = some e ∧ e.size = 0x80000000 ∧ e.realSize = 0 := ⟨_, rfl, by decide⟩
  have hreal := (h.sizes _ e he).2
  rw [hsize.1, hsize.2] at hreal
  exact absurd hreal (by decide)

end AllocHook
