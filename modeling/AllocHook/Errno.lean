/-
Whose `errno` the application sees.

A call that fails says why in `errno`, and everything the hook calls after it
may overwrite that. `debug_posix_memalign` saves `errno` around its work, and
`debug_calloc` and `debug_memalign` do no work after a failure; `debug_close`
and `debug_munmap` make the call last. The other hooks track whatever the call
answered, so the application sees the `errno` of the tracker's library code
(`errno_kept_iff`).
-/
import AllocHook.UsableResults

namespace AllocHook

variable {w : Nat} {cfg : Config w} {env : HookEnv w} {s : HookState w}

/-- The `errno` of an answer, if it is a failure. -/
def Answer.failure {α : Type} (failed : Bool) (a : Answer α) : Option Int := if failed then some a.errno else none

/-- The `errno` a call underneath sets, if it fails. `posix_memalign` reports
by its status and `free` not at all. -/
def SysCall.failure (sys : System w) : SysCall w → Option Int
  | .malloc size => (sys.malloc size).failure ((sys.malloc size).result = 0)
  | .calloc nmemb bytes => (sys.calloc nmemb bytes).failure ((sys.calloc nmemb bytes).result = 0)
  | .realloc pointer bytes => (sys.realloc pointer bytes).failure ((sys.realloc pointer bytes).result = 0)
  | .memalign alignment bytes => (sys.memalign alignment bytes).failure ((sys.memalign alignment bytes).result = 0)
  | .mmap args => (sys.mmap args).failure ((sys.mmap args).result = MAP_FAILED w)
  | .munmap addr size => (sys.munmap addr size).failure ((sys.munmap addr size).result = -1)
  | .ioctl fd request => (sys.ioctl fd request).failure ((sys.ioctl fd request).result = -1)
  | .close fd => (sys.close fd).failure ((sys.close fd).result = -1)
  | .posixMemalign _ _ | .free _ | .freeLine => none

/-- The hook's surroundings with other library code in it. -/
def HookEnv.withErrno (env : HookEnv w) (add remove fdinfo : Int → Int) : HookEnv w :=
  { env with addErrno := add, removeErrno := remove, fdinfoErrno := fdinfo }

/-- If the call underneath fails, `errno` is its own when the hook returns,
whatever the hook's library code leaves in it. -/
def ErrnoKept (cfg : Config w) (env : HookEnv w) (s : HookState w) (call : HookCall w) : Prop :=
  ∀ add remove fdinfo : Int → Int, ∀ c ∈ s.sysCalls cfg env call, ∀ e, c.failure env.sys = some e →
    (s.call cfg (env.withErrno add remove fdinfo) call).errno = e

/-- All but `posix_memalign` say in `errno` why they fail. -/
def HookCall.SetsErrno (call : HookCall w) : Prop :=
  ∀ memptr alignment size, call ≠ .posixMemalign memptr alignment size

/-- The hook does tracking work after its call even if that failed. -/
def HookState.tracksFailure (s : HookState w) : HookCall w → Bool
  | .malloc _ => true
  | .realloc _ _ => true
  | .ioctl _ (.DMA_HEAP_IOCTL_ALLOC _) => true
  | .ioctl _ (.CAM_MEM_ION_MAP_PA _) => true
  | .mmap64 _ => s.gpuIoctlAlloc
  | .mmap _ => true
  | _ => false

/-! ## After a failure -/

@[simp] theorem failure_eq_some {α : Type} {failed : Bool} {a : Answer α} {e : Int} :
    a.failure failed = some e ↔ failed = true ∧ a.errno = e := by
  cases failed <;> simp [Answer.failure]

@[simp] theorem called_failed {α : Type} (a : Answer α) (s : HookState w) : (s.called true a).errno = a.errno := rfl

@[simp] theorem add_errno (ptr size : Word w) (type : MemType) (s : HookState w) :
    (s.add cfg env ptr size type).errno = env.addErrno s.errno := rfl

theorem isDmaBuf_errno (fd : Fd) (size : Word w) (s : HookState w) :
    (isDmaBuf env fd size s).2.2.errno = env.fdinfoErrno s.errno := by
  unfold isDmaBuf
  split
  · rfl
  dsimp only
  split
  · rfl
  split <;> rfl

/-- What the tracking of a descriptor leaves. -/
theorem dmaTracked_errno (cfg : Config w) (env : HookEnv w) (fd fd' : Fd) (s : HookState w) :
    let r := isDmaBuf env fd 0 s
    (if r.1 then r.2.2.add cfg env (fdPtr w fd') r.2.1 .dma else r.2.2).errno =
      if r.1 then env.addErrno (env.fdinfoErrno s.errno) else env.fdinfoErrno s.errno := by
  dsimp only
  split
  · rw [add_errno, isDmaBuf_errno]
  · exact isDmaBuf_errno fd 0 s

section Failed

variable (hd : s.disabled = false)

include hd

theorem debugCalloc_failed {nmemb bytes : Word w} (hover : ¬ 2 ^ w ≤ nmemb.toNat * bytes.toNat)
    (hfail : (env.sys.calloc 1 (nmemb * bytes)).result = 0) :
    (debugCalloc cfg env nmemb bytes s).2.errno = (env.sys.calloc 1 (nmemb * bytes)).errno := by
  simp only [debugCalloc, hd, hover, hfail, Bool.false_eq_true, if_false, ne_eq, not_true_eq_false, decide_false,
    Bool.false_and, decide_true, called_failed]

theorem debugMemalign_failed {alignment bytes : Word w} (hmax : ¬ maxSize w < bytes)
    (hfail : (env.sys.memalign alignment bytes).result = 0) :
    (debugMemalign cfg env alignment bytes s).2.errno = (env.sys.memalign alignment bytes).errno := by
  simp only [debugMemalign, hd, hmax, hfail, Bool.false_eq_true, if_false, ne_eq, not_true_eq_false, decide_false,
    Bool.false_and, decide_true, called_failed]

theorem debugClose_failed {fd : Fd} (hfail : (env.sys.close fd).result = -1) :
    (debugClose cfg env fd s).2.errno = (env.sys.close fd).errno := by
  simp only [debugClose, hd, hfail, Bool.false_eq_true, if_false, decide_true, called_failed]

theorem debugMunmap_failed {addr size : Word w} (hfail : (env.sys.munmap addr size).result = -1) :
    (debugMunmap cfg env addr size s).2.errno = (env.sys.munmap addr size).errno := by
  simp only [debugMunmap, hd, hfail, Bool.false_eq_true, if_false, decide_true, called_failed]

theorem debugMmap64_failed {args : MmapArgs w} (hmax : ¬ maxSize w < args.size) (hflag : s.gpuIoctlAlloc = false)
    (hfail : (env.sys.mmap args).result = MAP_FAILED w) :
    (debugMmap64 cfg env args s).2.errno = (env.sys.mmap args).errno := by
  simp only [debugMmap64, hd, hmax, hfail, Bool.false_eq_true, if_false, decide_true, called_gpuIoctlAlloc, hflag,
    Bool.and_false, called_failed]

/-- A request that shows no buffer leaves the `errno` of the call. -/
theorem debugIoctl_failed {fd : Fd} {request : Request} (hnot : s.tracksFailure (.ioctl fd request) = false)
    (hfail : (env.sys.ioctl fd request).result = -1) :
    (debugIoctl cfg env fd request s).2.errno = (env.sys.ioctl fd request).errno := by
  simp only [debugIoctl, hfail, decide_true, called_disabled, hd, Bool.false_eq_true, if_false]
  split
  · cases request with
    | DMA_HEAP_IOCTL_ALLOC heapFd => cases hnot
    | CAM_MEM_ION_MAP_PA memID => cases hnot
    | _ => rfl
  · rfl

end Failed

/-- Without work after it, the call's `errno` is the last. -/
theorem errnoKept_of_not_tracks {call : HookCall w} (hd : s.disabled = false) (hcall : call.SetsErrno)
    (hnot : s.tracksFailure call = false) : ErrnoKept cfg env s call := by
  intro add remove fdinfo c hc e he
  cases call with
  | malloc size => cases hnot
  | realloc pointer bytes => cases hnot
  | mmap args => cases hnot
  | posixMemalign memptr alignment size => exact absurd rfl (hcall memptr alignment size)
  | free pointer =>
    obtain rfl := List.mem_singleton.mp hc
    cases he
  | calloc nmemb bytes =>
    obtain ⟨hover, rfl⟩ := (mem_sysCalls_calloc hd).mp hc
    obtain ⟨hfail, rfl⟩ := failure_eq_some.mp he
    exact debugCalloc_failed hd hover (of_decide_eq_true hfail)
  | memalign alignment bytes =>
    obtain ⟨hmax, rfl⟩ := (mem_sysCalls_memalign hd).mp hc
    obtain ⟨hfail, rfl⟩ := failure_eq_some.mp he
    exact debugMemalign_failed hd hmax (of_decide_eq_true hfail)
  | close fd =>
    obtain rfl := List.mem_singleton.mp hc
    obtain ⟨hfail, rfl⟩ := failure_eq_some.mp he
    exact debugClose_failed hd (of_decide_eq_true hfail)
  | munmap addr size =>
    obtain rfl := List.mem_singleton.mp hc
    obtain ⟨hfail, rfl⟩ := failure_eq_some.mp he
    exact debugMunmap_failed hd (of_decide_eq_true hfail)
  | mmap64 args =>
    obtain ⟨hmax, rfl⟩ := (mem_sysCalls_mmap64 hd).mp hc
    obtain ⟨hfail, rfl⟩ := failure_eq_some.mp he
    exact debugMmap64_failed hd hmax hnot (of_decide_eq_true hfail)
  | ioctl fd request =>
    have hone : s.sysCalls cfg env (.ioctl fd request) = [.ioctl fd request] := by
      cases request with
      | DMA_HEAP_IOCTL_ALLOC heapFd => cases hnot
      | CAM_MEM_ION_MAP_PA memID => cases hnot
      | _ => simp [HookState.sysCalls, dmaNodeCalls]
    rw [hone] at hc
    obtain rfl := List.mem_singleton.mp hc
    obtain ⟨hfail, rfl⟩ := failure_eq_some.mp he
    exact debugIoctl_failed hd hnot (of_decide_eq_true hfail)

/-- Library code that counts `errno` up. -/
def HookEnv.counting (env : HookEnv w) : HookEnv w := env.withErrno (· + 1) (· + 1) (· + 1)

/-- Tracking a descriptor counts up. -/
theorem dmaTracked_counting (fd fd' : Fd) (s : HookState w) :
    let r := isDmaBuf env.counting fd 0 s
    s.errno < (if r.1 then r.2.2.add cfg env.counting (fdPtr w fd') r.2.1 .dma else r.2.2).errno := by
  have h := dmaTracked_errno cfg env.counting fd fd' s
  dsimp only at h ⊢
  rw [h]
  show s.errno < if (isDmaBuf env.counting fd 0 s).1 then s.errno + 1 + 1 else s.errno + 1
  split <;> omega

section Counting

variable (hd : s.disabled = false) (htrack : cfg.trackPointers = true)

include htrack

theorem internalMalloc_counting {size : Word w} (hfail : (env.sys.malloc size).result = 0) :
    (internalMalloc cfg env.counting size s).2.errno = (env.sys.malloc size).errno + 1 := by
  have hfail' : (env.counting.sys.malloc size).result = 0 := hfail
  simp only [internalMalloc, htrack, if_true, add_errno, hfail', decide_true, called_failed]
  rfl

include hd

theorem debugRealloc_counting {pointer bytes : Word w} (hnull : pointer ≠ 0) (hbytes : bytes ≠ 0)
    (hmax : ¬ maxSize w < bytes) (hfail : (env.sys.realloc pointer bytes).result = 0) :
    (debugRealloc cfg env.counting pointer bytes s).2.errno = (env.sys.realloc pointer bytes).errno + 1 := by
  have hfail' : (env.counting.sys.realloc pointer bytes).result = 0 := hfail
  simp only [debugRealloc, hd, hnull, hbytes, hmax, htrack, Bool.false_eq_true, if_false, if_true, add_errno, hfail',
    decide_true, called_failed]
  rfl

theorem debugMmap64_counting {args : MmapArgs w} (hmax : ¬ maxSize w < args.size) (hflag : s.gpuIoctlAlloc = true)
    (hfail : (env.sys.mmap args).result = MAP_FAILED w) :
    (debugMmap64 cfg env.counting args s).2.errno = (env.sys.mmap args).errno + 1 := by
  have hfail' : (env.counting.sys.mmap args).result = MAP_FAILED w := hfail
  simp only [debugMmap64, hd, hmax, htrack, Bool.false_eq_true, if_false, called_gpuIoctlAlloc, hflag, Bool.and_self,
    if_true, add_errno, hfail', decide_true, called_failed]
  rfl

theorem debugMmap_counting {args : MmapArgs w} (hmax : ¬ maxSize w < args.size)
    (hfail : (env.sys.mmap args).result = MAP_FAILED w) :
    (env.sys.mmap args).errno < (debugMmap cfg env.counting args s).2.errno := by
  have hfail' : (env.counting.sys.mmap args).result = MAP_FAILED w := hfail
  simp only [debugMmap, hd, hmax, htrack, Bool.false_eq_true, if_false, if_true, hfail', decide_true]
  split
  · rw [add_errno, called_failed]
    exact Int.lt_succ _
  · exact dmaTracked_counting args.fd args.fd (s.called true (env.sys.mmap args))

theorem debugIoctl_counting {fd heapFd : Fd} {request : Request}
    (hrequest : request = .DMA_HEAP_IOCTL_ALLOC heapFd ∨ request = .CAM_MEM_ION_MAP_PA heapFd)
    (hfail : (env.sys.ioctl fd request).result = -1) :
    (env.sys.ioctl fd request).errno < (debugIoctl cfg env.counting fd request s).2.errno := by
  have hfail' : (env.counting.sys.ioctl fd request).result = -1 := hfail
  simp only [debugIoctl, hfail', decide_true, called_disabled, hd, htrack, Bool.false_eq_true, if_false, if_true]
  rcases hrequest with rfl | rfl
  · exact dmaTracked_counting heapFd heapFd (s.called true (env.sys.ioctl fd (.DMA_HEAP_IOCTL_ALLOC heapFd)))
  · exact dmaTracked_counting heapFd heapFd (s.called true (env.sys.ioctl fd (.CAM_MEM_ION_MAP_PA heapFd)))

end Counting

/-- What `is_dma_buf` calls does not fail. -/
theorem dmaBufCalls_failure {fd : Fd} {c : SysCall w} (hc : c ∈ dmaBufCalls env fd) (sys : System w) :
    c.failure sys = none := by
  unfold dmaBufCalls at hc
  split at hc
  · obtain rfl := List.mem_singleton.mp hc
    rfl
  · cases hc

/-- With work after a failure the call's `errno` can be lost. -/
theorem errno_lost {call : HookCall w} (hd : s.disabled = false) (htrack : cfg.trackPointers = true)
    (htracks : s.tracksFailure call = true) {c : SysCall w} (hc : c ∈ s.sysCalls cfg env call) {e : Int}
    (he : c.failure env.sys = some e) : e < (s.call cfg env.counting call).errno := by
  cases call with
  | malloc size =>
    obtain ⟨hmax, rfl⟩ := (mem_sysCalls_malloc hd).mp hc
    obtain ⟨hfail, rfl⟩ := failure_eq_some.mp he
    simp only [HookState.call, debugMalloc, hd, hmax, Bool.false_eq_true, if_false]
    rw [internalMalloc_counting htrack (of_decide_eq_true hfail)]
    exact Int.lt_succ _
  | realloc pointer bytes =>
    simp only [HookState.sysCalls, hd, Bool.false_eq_true, if_false] at hc
    split at hc
    · next hnull =>
      obtain rfl := List.mem_singleton.mp hc
      obtain ⟨hfail, rfl⟩ := failure_eq_some.mp he
      simp only [HookState.call, debugRealloc, hd, hnull, Bool.false_eq_true, if_false, if_true]
      rw [internalMalloc_counting htrack (of_decide_eq_true hfail)]
      exact Int.lt_succ _
    next hnull =>
    split at hc
    · obtain rfl := List.mem_singleton.mp hc
      cases he
    next hbytes =>
    split at hc
    · cases hc
    next hmax =>
    obtain rfl := List.mem_singleton.mp hc
    obtain ⟨hfail, rfl⟩ := failure_eq_some.mp he
    rw [HookState.call, debugRealloc_counting hd htrack hnull hbytes hmax (of_decide_eq_true hfail)]
    exact Int.lt_succ _
  | mmap64 args =>
    obtain ⟨hmax, rfl⟩ := (mem_sysCalls_mmap64 hd).mp hc
    obtain ⟨hfail, rfl⟩ := failure_eq_some.mp he
    rw [HookState.call, debugMmap64_counting hd htrack hmax htracks (of_decide_eq_true hfail)]
    exact Int.lt_succ _
  | mmap args =>
    simp only [HookState.sysCalls, hd, Bool.not_false, Bool.true_and, decide_eq_true_eq] at hc
    split at hc
    · cases hc
    next hmax =>
    rcases List.mem_cons.mp hc with rfl | hc
    · obtain ⟨hfail, rfl⟩ := failure_eq_some.mp he
      exact debugMmap_counting hd htrack hmax (of_decide_eq_true hfail)
    · split at hc
      · rw [dmaBufCalls_failure hc] at he
        cases he
      · cases hc
  | ioctl fd request =>
    have hshows : ∃ heapFd, request = .DMA_HEAP_IOCTL_ALLOC heapFd ∨ request = .CAM_MEM_ION_MAP_PA heapFd := by
      cases request with
      | DMA_HEAP_IOCTL_ALLOC heapFd => exact ⟨heapFd, .inl rfl⟩
      | CAM_MEM_ION_MAP_PA memID => exact ⟨memID, .inr rfl⟩
      | _ => cases htracks
    obtain ⟨heapFd, hrequest⟩ := hshows
    rcases List.mem_cons.mp hc with rfl | hc
    · obtain ⟨hfail, rfl⟩ := failure_eq_some.mp he
      exact debugIoctl_counting hd htrack hrequest (of_decide_eq_true hfail)
    · have hdma : c ∈ dmaBufCalls env heapFd := by
        simp only [hd, htrack, Bool.not_false, Bool.and_self, if_true] at hc
        rcases hrequest with rfl | rfl
        · exact hc
        · exact hc
      rw [dmaBufCalls_failure hdma] at he
      cases he
  | _ => cases htracks

/-- **Whose `errno` it is.** A hook with calls enabled leaves the `errno` of
its failing call, whatever its library code does to `errno`, if and only if it
does no tracking work after that failure. -/
theorem errno_kept_iff (getenv : Environ) (env : HookEnv w) (s : HookState w) (call : HookCall w)
    (hd : s.disabled = false) (hcall : call.SetsErrno) :
    ErrnoKept (Config.init w getenv) env s call ↔
      ((∃ c ∈ s.sysCalls (Config.init w getenv) env call, (c.failure env.sys).isSome) →
        s.tracksFailure call = false) := by
  constructor
  · intro h hfail
    obtain ⟨c, hc, hsome⟩ := hfail
    obtain ⟨e, he⟩ := Option.isSome_iff_exists.mp hsome
    by_contra htracks
    have hlost := errno_lost hd (init_trackPointers w getenv) (Bool.not_eq_false _ ▸ htracks) hc he
    exact absurd (h _ _ _ c hc e he) (Int.ne_of_gt hlost)
  · intro h add remove fdinfo c hc e he
    exact errnoKept_of_not_tracks hd hcall (h ⟨c, hc, by rw [he]; rfl⟩) add remove fdinfo c hc e he

/-- When memory is exhausted `calloc` says so. -/
theorem errno_kept_iff_calloc :
    ErrnoKept (Config.init 64 ⟨none, none⟩) (.plain (.exhausted 64)) atStart (.calloc 1 4096) := by
  have hcall : (HookCall.calloc 1 4096 : HookCall 64).SetsErrno := by
    intro memptr alignment size h
    cases h
  exact (errno_kept_iff ⟨none, none⟩ (.plain (.exhausted 64)) atStart (.calloc 1 4096) rfl hcall).mpr fun _ => rfl

def ENOENT : Int := 2

/-- A DMA heap that is exhausted fails with `ENOMEM` and leaves no descriptor.
Opening the fdinfo file of the descriptor -1 then fails with `ENOENT`, which
the application sees. After a `malloc` that failed it sees what `Add` leaves. -/
theorem exhaustedHeap_errno :
    ¬ ErrnoKept (Config.init 64 ⟨none, none⟩) (.plain (.exhausted 64)) atStart (.ioctl 3 (.DMA_HEAP_IOCTL_ALLOC (-1))) ∧
    ¬ ErrnoKept (Config.init 64 ⟨none, none⟩) (.plain (.exhausted 64)) atStart (.malloc 4096) := by
  constructor
  · intro h
    exact absurd (h id id (fun _ => ENOENT) _ List.mem_cons_self ENOMEM rfl) (by decide)
  · intro h
    exact absurd (h (fun _ => ENOENT) id id _ List.mem_cons_self ENOMEM rfl) (by decide)

end AllocHook
