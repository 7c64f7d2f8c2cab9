/-
Hooks whose system call fails.

A failed acquisition must leave no trace. `debug_calloc`, `debug_memalign` and
`debug_posix_memalign` test the result before they track it; the others hand
it to `Add` as it is. `failed_acquisition_iff` says exactly when that does no
harm, and that nothing but such a failure puts the null address or
`MAP_FAILED` in `pointers_`.

A failed resize or release must keep the block tracked. `debug_realloc` and
`debug_munmap` untrack it before the call and do not track it again;
`failed_release_iff` says they keep it only when they do not track at all.
-/
import AllocHook.HookEffects
import AllocHook.Ledger
import AllocHook.PeakSnapshot

namespace AllocHook

open FiniteMap SharedStore History

variable {w : Nat} {cfg : Config w} {d : PointerData w}

/-! ## When an Add changes nothing -/

/-- The tables, totals and snapshot a dump or a later call can tell apart. -/
structure Untouched (d d' : PointerData w) : Prop where
  pointers : d'.pointers = d.pointers
  frames : d'.frames = d.frames
  currentUsed : d'.currentUsed = d.currentUsed
  currentHost : d'.currentHost = d.currentHost
  currentDma : d'.currentDma = d.currentDma
  peakTot : d'.peakTot = d.peakTot
  peakHost : d'.peakHost = d.peakHost
  peakDma : d'.peakDma = d.peakDma
  peakList : d'.peakList = d.peakList

theorem Untouched.refl (d : PointerData w) : Untouched d d := ⟨rfl, rfl, rfl, rfl, rfl, rfl, rfl, rfl, rfl⟩

/-- The `Add` is not recorded, or writes an entry without size and stack over
the very same entry while no total is above its peak. -/
def AddHarmless (cfg : Config w) (env : AddEnv w) (d : PointerData w) (ptr size : Word w) (t : MemType) : Prop :=
  match capture cfg env size with
  | .exit => True
  | .stack _ _ => False
  | .empty =>
    size = 0 ∧
    d.pointers.lookup (manglePointer ptr) =
      some { size := 0, hashIndex := kBacktraceEmptyIndex, memType := t, allocTime := env.now } ∧
    d.currentUsed ≤ d.peakTot ∧ (isHost t = true → d.currentHost ≤ d.peakHost) ∧
    (isDma t = true → d.currentDma ≤ d.peakDma)

/-- A stack taken shows in `frames_`. -/
theorem addFrames_frames_ne {H : Multiset ℕ} (hs : StackHeld d H) (hb : cfg.has BACKTRACE = true)
    {frames : List (Word w)} {info : List FrameData} (hp : pcs w info = frames) :
    (d.addFrames cfg frames info).2.frames ≠ d.frames := by
  intro hq
  have hs' := hs.addFrames hb hp
  obtain ⟨k, _, e, _⟩ := hs'.lookup (Multiset.mem_cons_self _ _)
  rw [hq, Multiset.count_cons_self] at e
  have := Held.count hs (slots_eq_some.mpr e)
  omega

theorem add_frames {H : Multiset ℕ} (hs : StackHeld d H) {env : AddEnv w} {size : Word w}
    (hr : records cfg env size = true) (ptr : Word w) (t : MemType) :
    (d.add cfg env ptr size t).frames = (d.addBacktrace cfg env size).2.frames := by
  have hw : (d.written cfg env ptr size t).frames = (d.addBacktrace cfg env size).2.frames := by
    rw [PointerData.written, (recordPointer_sameStacks ..).frames]
  rcases add_cases hs hr ptr t with ⟨-, -, hq⟩ | ⟨-, -, hq⟩ | ⟨-, hq⟩
  · rw [hq]; exact hw
  · rw [hq]; exact hw
  · rw [hq]; exact hw

theorem add_eq_self_iff {a b : Word w} : a + b = a ↔ b = 0 := by
  constructor
  · intro h
    have := congrArg (fun x => x - a) h
    simpa [BitVec.add_comm a b, BitVec.add_sub_cancel] using this
  · intro h
    simp [h]

theorem ite_lt_eq_self_iff {p c : Word w} {P : Prop} [Decidable P] :
    (if P ∧ p < c then c else p) = p ↔ (P → c ≤ p) := by
  by_cases h : P ∧ p < c
  · rw [if_pos h]
    constructor
    · intro hq
      rw [hq] at h
      exact absurd (BitVec.lt_def.mp h.2) (Nat.lt_irrefl _)
    · exact fun hle => absurd (hle h.1) (BitVec.not_le.mpr h.2)
  · rw [if_neg h]
    exact ⟨fun _ hP => BitVec.not_lt.mp fun hlt => h ⟨hP, hlt⟩, fun _ => rfl⟩

theorem untouched_add_iff (cfg : Config w) {H : Multiset ℕ} (hs : StackHeld d H) (env : AddEnv w) (ptr size : Word w)
    (t : MemType) :
    Untouched d (d.add cfg env ptr size t) ↔ AddHarmless cfg env d ptr size t := by
  unfold AddHarmless
  cases e : capture cfg env size with
  | exit =>
    have hr : records cfg env size = false := by simp [records, e]
    rw [add_of_not_records hr]
    exact ⟨fun _ => trivial, fun _ => .refl d⟩
  | stack frames info =>
    have hr : records cfg env size = true := by simp [records, e]
    obtain ⟨hb, hp⟩ := capture_stack e
    have hf := add_frames hs hr ptr t
    refine ⟨fun h => ?_, fun h => h.elim⟩
    rw [h.frames, PointerData.addBacktrace, e] at hf
    exact addFrames_frames_ne hs hb hp hf.symm
  | empty =>
    have hr : records cfg env size = true := by simp [records, e]
    have ha := add_added hs hr ptr t
    have hf := add_frames hs hr ptr t
    have hd : d.addBacktrace cfg env size = (kBacktraceEmptyIndex, d) := by rw [PointerData.addBacktrace, e]
    obtain ⟨h1, h2, h3, h4, h5, h6, h7⟩ := ha
    rw [PointerData.newEntry, hd] at h1 h2 h3 h4 h6 h7
    rw [hd] at hf
    dsimp only at h1 h2 h3 h4 h6 h7 hf ⊢
    constructor
    · intro h
      have hz : size = 0 := by rw [h.currentUsed] at h2; exact add_eq_self_iff.mp h2.symm
      rw [h.pointers] at h1
      rw [h.peakTot, h.currentUsed] at h5
      rw [h.peakHost, h.currentHost] at h6
      rw [h.peakDma, h.currentDma] at h7
      subst hz
      refine ⟨rfl, insert_eq_self_iff.mp h1.symm, ?_, ite_lt_eq_self_iff.mp h6.symm, ite_lt_eq_self_iff.mp h7.symm⟩
      have := ite_lt_eq_self_iff (P := True) (p := d.peakTot) (c := d.currentUsed)
      simp only [true_and, true_implies] at this
      exact this.mp h5.symm
    · intro h
      obtain ⟨hz, hk, hu, hh, hm⟩ := h
      subst hz
      have hadd : ∀ a : Word w, a + 0 = a := fun a => add_eq_self_iff.mpr rfl
      have hlist : (d.add cfg env ptr 0 t).peakList = d.peakList := by
        refine (add_peakList hs hr ptr t).elim (fun hpeak => absurd hpeak.1 ?_) And.right
        rw [hadd]
        exact BitVec.not_lt.mpr hu
      rw [hadd] at h2
      rw [hadd, ite_self] at h3 h4
      rw [insert_of_lookup hk] at h1
      rw [h2, if_neg (BitVec.not_lt.mpr hu)] at h5
      rw [h3, ite_lt_eq_self_iff.mpr hh] at h6
      rw [h4, ite_lt_eq_self_iff.mpr hm] at h7
      exact ⟨h1, hf, h2, h3, h4, h5, h6, h7, hlist⟩

/-! ## Failed acquisitions -/

/-- The hooks that acquire memory or a mapping. -/
def Acquires : HookCall w → Prop
  | .malloc _ | .calloc _ _ | .memalign _ _ | .posixMemalign _ _ _ => True
  | .realloc pointer _ => pointer = 0
  | .mmap _ | .mmap64 _ | .ioctl _ _ => True
  | _ => False

/-- The hook gets to its allocator or system call, and that fails. -/
def HookState.Fails (env : HookEnv w) (s : HookState w) : HookCall w → Prop
  | .malloc size => (s.disabled = true ∨ size ≤ maxSize w) ∧ (env.sys.malloc size).result = 0
  | .free _ => False
  | .calloc nmemb bytes =>
    if s.disabled then (env.sys.calloc nmemb bytes).result = 0
    else nmemb.toNat * bytes.toNat < 2 ^ w ∧ (env.sys.calloc 1 (nmemb * bytes)).result = 0
  | .realloc pointer bytes =>
    if s.disabled then (env.sys.realloc pointer bytes).result = 0
    else if pointer = 0 then (env.sys.malloc bytes).result = 0
    else bytes ≠ 0 ∧ bytes ≤ maxSize w ∧ (env.sys.realloc pointer bytes).result = 0
  | .memalign alignment bytes =>
    (s.disabled = true ∨ bytes ≤ maxSize w) ∧ (env.sys.memalign alignment bytes).result = 0
  | .posixMemalign _ alignment size =>
    if s.disabled then (env.sys.posixMemalign alignment size).1 ≠ 0
    else (alignment < BitVec.ofNat w (w / 8) || !powerof2 alignment) = false ∧ size ≤ maxSize w ∧
      (env.sys.memalign alignment size).result = 0
  | .ioctl fd request => (env.sys.ioctl fd request).result = -1
  | .close fd => (env.sys.close fd).result = -1
  | .mmap args | .mmap64 args =>
    (s.disabled = true ∨ args.size ≤ maxSize w) ∧ (env.sys.mmap args).result = MAP_FAILED w
  | .munmap addr size => (env.sys.munmap addr size).result = -1

/-- The tracker is as it was, and for an `ioctl` the thread's flag. -/
def NoTrace (call : HookCall w) (s s' : HookState w) : Prop :=
  Untouched s.pointer s'.pointer ∧ ∀ fd request, call = .ioctl fd request → s'.gpuIoctlAlloc = s.gpuIoctlAlloc

/-- Showing `fd` does no harm: it is no DMA buffer, or a known one, or adding
it changes nothing. -/
def HookState.DmaHarmless (cfg : Config w) (env : HookEnv w) (s : HookState w) (fd : Fd) : Prop :=
  ∀ inode size, dmaInfo env fd = some (inode, size) →
    inode ∈ s.inodeSet ∨ AddHarmless cfg env.add s.pointer (fdPtr w fd) size .dma

/-- The failure of the call does no harm in `s`. -/
def HookState.Harmless (cfg : Config w) (env : HookEnv w) (s : HookState w) (call : HookCall w) : Prop :=
  s.disabled = true ∨
  match call with
  | .malloc size => AddHarmless cfg env.add s.pointer 0 size .host
  | .realloc pointer bytes =>
    if pointer = 0 then AddHarmless cfg env.add s.pointer 0 bytes .host else records cfg env.add bytes = false
  | .mmap64 args => s.gpuIoctlAlloc = false ∨ AddHarmless cfg env.add s.pointer (MAP_FAILED w) args.size .dma
  | .mmap args =>
    if args.fd.msb then AddHarmless cfg env.add s.pointer (MAP_FAILED w) args.size .mmap
    else s.DmaHarmless cfg env args.fd
  | .ioctl _ .KBASE_IOCTL_MEM_ALLOC | .ioctl _ .KBASE_IOCTL_MEM_ALLOC_EX | .ioctl _ .IOCTL_KGSL_GPUOBJ_ALLOC =>
    s.gpuIoctlAlloc = true
  | .ioctl _ (.DMA_HEAP_IOCTL_ALLOC fd) => s.DmaHarmless cfg env fd
  | .ioctl _ (.CAM_MEM_ION_MAP_PA fd) => s.DmaHarmless cfg env fd
  | _ => True

variable {env : HookEnv w} {s : HookState w}

theorem untouched_dmaCalls_iff {H : Multiset ℕ} (hs : StackHeld s.pointer H) (fd : Fd) :
    Untouched s.pointer ((s.dmaCalls env fd).foldl (PointerData.exec cfg) s.pointer) ↔ s.DmaHarmless cfg env fd := by
  unfold HookState.dmaCalls HookState.DmaHarmless
  cases hd : dmaInfo env fd with
  | none => simp [Untouched.refl]
  | some p =>
    obtain ⟨inode, size⟩ := p
    by_cases hm : inode ∈ s.inodeSet
    · simp [hm, Untouched.refl]
    · have := untouched_add_iff cfg hs env.add (fdPtr w fd) size .dma
      simpa [hm, PointerData.exec] using this

theorem untouched_single_iff {H : Multiset ℕ} (hs : StackHeld s.pointer H) (ptr size : Word w) (t : MemType) :
    Untouched s.pointer ([Call.add env.add ptr size t].foldl (PointerData.exec cfg) s.pointer) ↔
      AddHarmless cfg env.add s.pointer ptr size t := untouched_add_iff cfg hs env.add ptr size t

/-- The calls other than `ioctl` leave a trace in the tracker or nowhere. -/
theorem noTrace_iff_of_calls {call : HookCall w} (hcall : ∀ fd request, call ≠ .ioctl fd request)
    (hdid : s.Did cfg (s.calls env call) (s.flagAfter call) (s.inodesAfter env call) (s.call cfg env call)) :
    NoTrace call s (s.call cfg env call) ↔
      Untouched s.pointer ((s.calls env call).foldl (PointerData.exec cfg) s.pointer) := by
  rw [NoTrace, hdid.pointer]
  exact ⟨fun h => h.1, fun h => ⟨h, fun fd request hq => absurd hq (hcall fd request)⟩⟩

theorem noTrace_iff (htrack : cfg.trackPointers = true) {H : Multiset ℕ} (hs : StackHeld s.pointer H)
    {call : HookCall w} (hacq : Acquires call) (hfail : s.Fails env call) :
    NoTrace call s (s.call cfg env call) ↔ s.Harmless cfg env call := by
  have hdid := call_did htrack env s call
  by_cases hd : s.disabled = true
  · refine ⟨fun _ => .inl hd, fun _ => ?_⟩
    have hdis : s.Did cfg _ _ _ _ := did_disabled hd env call
    refine ⟨?_, fun _ _ _ => hdis.gpuIoctlAlloc⟩
    rw [hdis.pointer]
    exact .refl _
  have hfalse : s.disabled = false := by simpa using hd
  cases call with
  | malloc size =>
    rw [noTrace_iff_of_calls (by simp) hdid]
    obtain ⟨hmax, hnull⟩ := hfail
    have hle : ¬ maxSize w < size := BitVec.not_lt.mpr (hmax.resolve_left hd)
    simp only [HookState.calls, HookState.Harmless, hfalse, Bool.false_eq_true, if_false, if_neg hle, hnull, false_or]
    exact untouched_single_iff hs 0 size .host
  | realloc pointer bytes =>
    rw [noTrace_iff_of_calls (by simp) hdid]
    have hp : pointer = 0 := hacq
    simp only [HookState.Fails, if_neg hd, if_pos hp] at hfail
    simp only [HookState.calls, HookState.Harmless, hfalse, Bool.false_eq_true, if_false, if_pos hp, hfail, false_or]
    exact untouched_single_iff hs 0 bytes .host
  | calloc nmemb bytes =>
    rw [noTrace_iff_of_calls (by simp) hdid]
    simp only [HookState.Fails, if_neg hd] at hfail
    simp only [HookState.calls, HookState.Harmless, if_neg hd, hfail.2, or_true, if_true]
    exact ⟨fun _ => trivial, fun _ => .refl _⟩
  | memalign alignment bytes =>
    rw [noTrace_iff_of_calls (by simp) hdid]
    simp only [HookState.calls, HookState.Harmless, if_neg hd, hfail.2, or_true, if_true]
    exact ⟨fun _ => trivial, fun _ => .refl _⟩
  | posixMemalign memptr alignment size =>
    rw [noTrace_iff_of_calls (by simp) hdid]
    simp only [HookState.Fails, if_neg hd] at hfail
    obtain ⟨hok, -, hnull⟩ := hfail
    simp only [HookState.calls, HookState.Harmless, if_neg hd, hok, hnull, Bool.false_eq_true, or_true, if_false,
      if_true]
    exact ⟨fun _ => trivial, fun _ => .refl _⟩
  | mmap64 args =>
    rw [noTrace_iff_of_calls (by simp) hdid]
    obtain ⟨hmax, hres⟩ := hfail
    have hle : ¬ maxSize w < args.size := BitVec.not_lt.mpr (hmax.resolve_left hd)
    cases hflag : s.gpuIoctlAlloc with
    | false =>
      simp only [HookState.calls, HookState.Harmless, if_neg hd, hflag, or_true, true_or, if_true]
      exact ⟨fun _ => trivial, fun _ => .refl _⟩
    | true =>
      simp only [HookState.calls, HookState.Harmless, hfalse, Bool.false_eq_true, hle, hflag, hres, reduceCtorEq,
        or_self, false_or, if_false]
      exact untouched_single_iff hs _ _ _
  | mmap args =>
    rw [noTrace_iff_of_calls (by simp) hdid]
    obtain ⟨hmax, hres⟩ := hfail
    have hle : ¬ maxSize w < args.size := BitVec.not_lt.mpr (hmax.resolve_left hd)
    simp only [HookState.calls, HookState.Harmless, hfalse, Bool.false_eq_true, if_false, if_neg hle, hres, false_or]
    split
    · exact untouched_single_iff hs _ _ _
    · exact untouched_dmaCalls_iff hs args.fd
  | ioctl fd request =>
    have hflag : NoTrace (.ioctl fd request) s (s.call cfg env (.ioctl fd request)) ↔
        Untouched s.pointer ((s.calls env (.ioctl fd request)).foldl (PointerData.exec cfg) s.pointer) ∧
          s.flagAfter (.ioctl fd request) = s.gpuIoctlAlloc := by
      rw [NoTrace, hdid.pointer, hdid.gpuIoctlAlloc]
      exact ⟨fun h => ⟨h.1, h.2 fd request rfl⟩, fun h => ⟨h.1, fun _ _ _ => h.2⟩⟩
    rw [hflag]
    cases request with
    | DMA_HEAP_IOCTL_ALLOC heapFd =>
      simp only [HookState.calls, HookState.flagAfter, HookState.Harmless, hfalse, Bool.false_eq_true, if_false,
        false_or, and_true]
      exact untouched_dmaCalls_iff hs heapFd
    | CAM_MEM_ION_MAP_PA memID =>
      simp only [HookState.calls, HookState.flagAfter, HookState.Harmless, hfalse, Bool.false_eq_true, if_false,
        false_or, and_true]
      exact untouched_dmaCalls_iff hs memID
    | other => simp [HookState.calls, HookState.flagAfter, HookState.Harmless, Untouched.refl]
    | _ =>
      simp only [HookState.calls, HookState.flagAfter, HookState.Harmless, hfalse, Bool.false_eq_true, if_false,
        false_or]
      exact ⟨fun h => h.2.symm, fun h => ⟨.refl _, h.symm⟩⟩
  | free pointer => exact hacq.elim
  | close fd => exact hacq.elim
  | munmap addr size => exact hacq.elim

/-! ## Runs in which failures do no harm -/

/-- Neither the null address nor `MAP_FAILED` is tracked; they are also the
keys of the descriptors 0 and -1. -/
def NoBadKeys (d : PointerData w) : Prop :=
  d.pointers.lookup (manglePointer 0) = none ∧ d.pointers.lookup (manglePointer (MAP_FAILED w)) = none

/-- The call is no `Add` of the null address or of `MAP_FAILED` that is recorded. -/
def GoodCall (cfg : Config w) : Call w → Prop
  | .add env ptr size _ => records cfg env size = true → ptr ≠ 0 ∧ ptr ≠ MAP_FAILED w
  | .remove _ => True

theorem NoBadKeys.exec {H : Multiset ℕ} (hs : StackHeld d H) (hk : NoBadKeys d) {call : Call w}
    (hc : GoodCall cfg call) : NoBadKeys (d.exec cfg call) := by
  cases call with
  | add env ptr size t =>
    cases hr : records cfg env size with
    | false => rw [PointerData.exec, add_of_not_records hr]; exact hk
    | true =>
      obtain ⟨h0, hm⟩ := hc hr
      have h0' : manglePointer 0 ≠ manglePointer ptr := fun h => h0 (mangle_inj.mp h).symm
      have hm' : manglePointer (MAP_FAILED w) ≠ manglePointer ptr := fun h => hm (mangle_inj.mp h).symm
      rw [NoBadKeys, PointerData.exec, (add_added hs hr ptr t).pointers, lookup_insert_eq, lookup_insert_eq,
        if_neg h0', if_neg hm']
      exact hk
  | remove ptr =>
    rw [NoBadKeys, PointerData.exec, remove_pointers, lookup_erase_eq, lookup_erase_eq, hk.1, hk.2]
    simp

theorem NoBadKeys.foldl (hb : cfg.has BACKTRACE = true) {L : Multiset (PointerInfoType w)} (hd : Charged d L 0)
    (hk : NoBadKeys d) {calls : List (Call w)} (hc : ∀ call ∈ calls, GoodCall cfg call) :
    NoBadKeys (calls.foldl (PointerData.exec cfg) d) := by
  induction calls generalizing d L with
  | nil => exact hk
  | cons call calls ih =>
    have hcall := hk.exec hd.held (hc call (by simp))
    exact ih (hd.exec hb call) hcall fun c hm => hc c (by simp [hm])

/-- What the event meets is as it should be: a call that fails does so where
that does no harm, one that succeeds has no null address and no `MAP_FAILED`
to add. -/
def SafeEvent {Tid : Type*} (cfg : Config w) (p : Process Tid w) : Event Tid w → Prop
  | .call t env call =>
    ((p.view t).Fails env call → (p.view t).Harmless cfg env call) ∧
    (¬ (p.view t).Fails env call → ∀ c ∈ (p.view t).calls env call, GoodCall cfg c)
  | _ => True

/-- A call that fails and acquires nothing adds nothing, when that does no harm. -/
theorem goodCall_of_fails {call : HookCall w} (hacq : ¬ Acquires call) (hfail : s.Fails env call)
    (hh : s.Harmless cfg env call) : ∀ c ∈ s.calls env call, GoodCall cfg c := by
  intro c hc
  by_cases hd : s.disabled = true
  · simp [HookState.calls, hd] at hc
  have hh := hh.resolve_left hd
  simp only [HookState.calls, if_neg hd] at hc
  cases call with
  | realloc pointer bytes =>
    have hp : pointer ≠ 0 := fun h => hacq h
    simp only [HookState.Fails, if_neg hd, if_neg hp] at hfail
    obtain ⟨hn, hmax, -⟩ := hfail
    simp only [if_neg hp, if_neg hn, if_neg (BitVec.not_lt.mpr hmax), List.mem_cons, List.not_mem_nil, or_false] at hc
    simp only [if_neg hp] at hh
    rcases hc with rfl | rfl
    · trivial
    · intro hr
      rw [hh] at hr
      cases hr
  | close fd => rw [List.mem_singleton.mp hc]; trivial
  | munmap addr size => rw [List.mem_singleton.mp hc]; trivial
  | free pointer => exact hfail.elim
  | malloc size => exact absurd trivial hacq
  | calloc nmemb bytes => exact absurd trivial hacq
  | memalign alignment bytes => exact absurd trivial hacq
  | posixMemalign memptr alignment size => exact absurd trivial hacq
  | ioctl fd request => exact absurd trivial hacq
  | mmap args => exact absurd trivial hacq
  | mmap64 args => exact absurd trivial hacq

variable {Tid : Type*} [DecidableEq Tid]

theorem noBadKeys_run (hb : cfg.has BACKTRACE = true) (htrack : cfg.trackPointers = true) {events : List (Event Tid w)}
    (h : Always (fun pre event => SafeEvent cfg (Process.run cfg pre) event) events) :
    NoBadKeys (Process.run cfg events).pointer := by
  induction events using List.reverseRecOn with
  | nil => exact ⟨Finmap.lookup_empty _, Finmap.lookup_empty _⟩
  | append_singleton events event ih =>
    obtain ⟨hsafe, hrest⟩ := always_concat.mp h
    have hk := ih hrest
    obtain ⟨L, hc⟩ := (Process.reachable htrack events).charged hb
    rw [Process.run_concat]
    cases event with
    | disableSet t disable => exact hk
    | dump it => exact hk
    | call t env call =>
      obtain ⟨hfail, hok⟩ := hsafe
      have hdid := call_did htrack env ((Process.run cfg events).view t) call
      simp only [Process.perform]
      by_cases hf : ((Process.run cfg events).view t).Fails env call
      · by_cases hacq : Acquires call
        · have hnt := (noTrace_iff htrack hc.held hacq hf).mpr (hfail hf)
          rw [NoBadKeys, hnt.1.pointers]
          exact hk
        · rw [hdid.pointer]
          exact hk.foldl hb hc (goodCall_of_fails hacq hf (hfail hf))
      · rw [hdid.pointer]
        exact hk.foldl hb hc (hok hf)

/-- **When a failed acquisition leaves no trace.** In every state the process
reaches, a failed acquisition leaves the tracker (and for an `ioctl` the
thread's flag) as it was if and only if its failure is harmless there; and
while failures are harmless, neither null nor `MAP_FAILED` is ever tracked. -/
theorem failed_acquisition_iff (getenv : Environ) (events : List (Event Tid w)) :
    let cfg := Config.init w getenv
    let p := Process.run cfg events
    (∀ t env call, Acquires call → (p.view t).Fails env call →
      (NoTrace call (p.view t) ((p.view t).call cfg env call) ↔ (p.view t).Harmless cfg env call)) ∧
    (Always (fun pre event => SafeEvent cfg (Process.run cfg pre) event) events → NoBadKeys p.pointer) := by
  intro cfg p
  have hb : cfg.has BACKTRACE = true := init_backtrace w getenv
  have htrack : cfg.trackPointers = true := init_trackPointers w getenv
  obtain ⟨L, hc⟩ := (Process.reachable htrack events).charged hb
  exact ⟨fun t env call hacq hfail => noTrace_iff htrack hc.held hacq hfail, noBadKeys_run hb htrack⟩

/-- A block of 100 bytes, with no memory left for another. -/
def oneBlock : List (Event Unit 64) :=
  [.call () (.plain { System.exhausted 64 with malloc := fun _ => { result := 0x7f0000000000, errno := 0 } })
    (.malloc 100)]

/-- `debug_calloc` tests the result: out of memory it leaves no trace, and no
null address. -/
theorem failed_acquisition_iff_calloc :
    let cfg := Config.init 64 ⟨none, none⟩
    let p := Process.run cfg (oneBlock ++ [.call () (.plain (.exhausted 64)) (.calloc 4 25)])
    NoTrace (.calloc 4 25) (p.view ()) ((p.view ()).call cfg (.plain (.exhausted 64)) (.calloc 4 25)) ∧
      NoBadKeys p.pointer := by
  intro cfg p
  have hiff := failed_acquisition_iff ⟨none, none⟩ (oneBlock ++ [.call () (.plain (.exhausted 64)) (.calloc 4 25)])
  refine ⟨(hiff.1 () (.plain (.exhausted 64)) (.calloc 4 25) trivial ⟨by decide, rfl⟩).mpr (.inr trivial), hiff.2 ?_⟩
  have hblock : Always (fun pre event => SafeEvent cfg (Process.run cfg pre) event) oneBlock := by
    refine always_cons.mpr ⟨⟨fun hfail => absurd hfail.2 (by decide), fun _ c hc => ?_⟩, always_nil⟩
    rw [List.mem_singleton.mp hc]
    exact fun _ => ⟨by decide, by decide⟩
  exact always_concat.mpr ⟨⟨fun _ => .inr trivial, fun hok => absurd ⟨by decide, rfl⟩ hok⟩, hblock⟩

/-- `debug_malloc` does not: out of memory it tracks the null address. -/
theorem malloc_tracks_null :
    let s := (Process.init Unit 64).view ()
    let s' := s.call (Config.init 64 ⟨none, none⟩) (.plain (.exhausted 64)) (.malloc 100)
    s.Fails (.plain (.exhausted 64)) (.malloc 100) ∧ ¬ NoTrace (.malloc 100) s s' ∧ ¬ NoBadKeys s'.pointer := by
  intro s s'
  have hused : s'.pointer.currentUsed = 100 := by decide
  have hnull : s'.pointer.pointers.lookup (manglePointer 0) ≠ none := by decide
  refine ⟨⟨.inr (by decide), rfl⟩, fun h => ?_, fun h => hnull h.1⟩
  have := h.1.currentUsed
  rw [hused] at this
  exact absurd this (by decide)

/-! ## Failed resizes and releases -/

/-- The call resizes or releases the block at `ptr`. -/
def Releases (ptr : Word w) : HookCall w → Prop
  | .realloc pointer _ => pointer = ptr ∧ ptr ≠ 0
  | .munmap addr _ => addr = ptr
  | _ => False

/-- `ptr` is tracked in `d'` as it was under `e` in `d`, nothing else is new,
and releasing it later restores the accounting. -/
structure StillTracked (cfg : Config w) (d d' : PointerData w) (ptr : Word w) (e : PointerInfoType w) : Prop where
  entry : ∃ e', d'.pointers.lookup (manglePointer ptr) = some e' ∧ e'.size = e.size ∧ e'.memType = e.memType ∧
    e'.allocTime = e.allocTime ∧ d'.stackAt e'.hashIndex = d.stackAt e.hashIndex
  noOther : ∀ k, k ∈ d'.pointers → k ∈ d.pointers
  currentUsed : d'.currentUsed = d.currentUsed
  currentHost : d'.currentHost = d.currentHost
  currentDma : d'.currentDma = d.currentDma
  references : ∀ h, (d'.frames.lookup h).map FrameInfoType.references = (d.frames.lookup h).map FrameInfoType.references
  later : Untouched (d.remove cfg ptr) (d'.remove cfg ptr)

theorem StillTracked.refl {ptr : Word w} {e : PointerInfoType w}
    (hk : d.pointers.lookup (manglePointer ptr) = some e) : StillTracked cfg d d ptr e :=
  ⟨⟨e, hk, rfl, rfl, rfl, rfl⟩, fun _ h => h, rfl, rfl, rfl, fun _ => rfl, .refl _⟩

theorem lookup_remove_self (cfg : Config w) (d : PointerData w) (ptr : Word w) :
    (d.remove cfg ptr).pointers.lookup (manglePointer ptr) = none := by
  rw [remove_pointers, Finmap.lookup_erase]

theorem lookup_add_of_ne {H : Multiset ℕ} (hs : StackHeld d H) (env : AddEnv w) {ptr q : Word w} (hne : ptr ≠ q)
    (size : Word w) (t : MemType) :
    (d.add cfg env q size t).pointers.lookup (manglePointer ptr) = d.pointers.lookup (manglePointer ptr) := by
  cases hr : records cfg env size with
  | false => rw [add_of_not_records hr]
  | true =>
    rw [(add_added hs hr q t).pointers, lookup_insert_eq, if_neg fun h => hne (mangle_inj.mp h)]

/-- With calls enabled, the block is untracked when the call fails. -/
theorem lookup_of_failed_release (htrack : cfg.trackPointers = true) (hb : cfg.has BACKTRACE = true)
    {L : Multiset (PointerInfoType w)} (hc : Charged s.pointer L 0) (hd : ¬ s.disabled = true) {ptr : Word w}
    {call : HookCall w} (hrel : Releases ptr call) (hfail : s.Fails env call) :
    (s.call cfg env call).pointer.pointers.lookup (manglePointer ptr) = none := by
  rw [(call_did htrack env s call).pointer]
  simp only [HookState.calls, if_neg hd]
  cases call with
  | munmap addr size =>
    have hq : addr = ptr := hrel
    rw [hq]
    exact lookup_remove_self cfg s.pointer ptr
  | realloc pointer bytes =>
    obtain ⟨rfl, hne⟩ := hrel
    simp only [HookState.Fails, if_neg hd, if_neg hne] at hfail
    obtain ⟨hn, hmax, hnull⟩ := hfail
    simp only [if_neg hne, if_neg hn, if_neg (BitVec.not_lt.mpr hmax), hnull, List.foldl_cons, List.foldl_nil,
      PointerData.exec]
    rw [lookup_add_of_ne (hc.remove hb pointer).held env.add hne]
    exact lookup_remove_self cfg s.pointer pointer
  | _ => exact hrel.elim

/-- **When a failed resize or release keeps the block.** A tracked block whose
`realloc` or `munmap` fails is still tracked as before if and only if calls
are disabled on the thread, so that the hook tracks nothing at all. -/
theorem failed_release_iff (getenv : Environ) (events : List (Event Tid w)) (t : Tid) (env : HookEnv w)
    (call : HookCall w) (ptr : Word w) (e : PointerInfoType w)
    (hk : (Process.run (Config.init w getenv) events).pointer.pointers.lookup (manglePointer ptr) = some e)
    (hrel : Releases ptr call) (hfail : ((Process.run (Config.init w getenv) events).view t).Fails env call) :
    let s := (Process.run (Config.init w getenv) events).view t
    StillTracked (Config.init w getenv) s.pointer (s.call (Config.init w getenv) env call).pointer ptr e ↔
      s.disabled = true := by
  intro s
  have hb := init_backtrace w getenv
  have htrack := init_trackPointers w getenv
  obtain ⟨L, hc⟩ := (Process.reachable htrack events).charged hb
  constructor
  · intro h
    by_contra hd
    obtain ⟨e', he', -⟩ := h.entry
    rw [lookup_of_failed_release htrack hb hc hd hrel hfail] at he'
    cases he'
  · intro hd
    rw [(did_disabled hd env call).pointer]
    exact .refl hk

/-- The entry of that block. -/
def oneBlockEntry : PointerInfoType 64 :=
  { size := 100, hashIndex := 2, memType := .host, allocTime := { tvSec := 1, tvUsec := 0 } }

/-- A `realloc` from inside the library fails and the block stays tracked. -/
theorem failed_release_iff_disabled :
    let s := (Process.run (Config.init 64 ⟨none, none⟩) (oneBlock ++ [.disableSet () true])).view ()
    StillTracked (Config.init 64 ⟨none, none⟩) s.pointer
      (s.call (Config.init 64 ⟨none, none⟩) (.plain (.exhausted 64)) (.realloc 0x7f0000000000 200)).pointer
      0x7f0000000000 oneBlockEntry :=
  (failed_release_iff ⟨none, none⟩ (oneBlock ++ [Event.disableSet () true]) () (.plain (.exhausted 64))
    (.realloc 0x7f0000000000 200) 0x7f0000000000 oneBlockEntry (by decide) ⟨rfl, by decide⟩ (by rfl)).mpr rfl

/-- The application's own `realloc` fails and the block is tracked no more. -/
theorem realloc_untracks_block :
    let s := (Process.run (Config.init 64 ⟨none, none⟩) oneBlock).view ()
    s.pointer.pointers.lookup (manglePointer 0x7f0000000000) = some oneBlockEntry ∧
    s.Fails (.plain (.exhausted 64)) (.realloc 0x7f0000000000 200) ∧
    ¬ StillTracked (Config.init 64 ⟨none, none⟩) s.pointer
      (s.call (Config.init 64 ⟨none, none⟩) (.plain (.exhausted 64)) (.realloc 0x7f0000000000 200)).pointer
      0x7f0000000000 oneBlockEntry := by
  intro s
  have hgone : (s.call (Config.init 64 ⟨none, none⟩) (.plain (.exhausted 64))
      (.realloc 0x7f0000000000 200)).pointer.pointers.lookup (manglePointer 0x7f0000000000) = none := by decide
  refine ⟨by decide, ⟨by decide, by decide, rfl⟩, fun h => ?_⟩
  obtain ⟨e', he', -⟩ := h.entry
  rw [hgone] at he'
  cases he'

end AllocHook
