/-
What a hook calls underneath: the functions of the C library it goes through
`m_sys_*` for, and the kernel.

`HookState.sysCalls` lists the calls of one hook in order. A hook learns
nothing of the system but the answers to these (`call_agree`), so a hook that
makes no call, as for a size over the limit, gives the same result on every
system.

The tracker's own library code calls through other ways: it is what `HookEnv`
says besides `sys`.
-/
import AllocHook.HookEffects

namespace AllocHook

variable {w : Nat} {cfg : Config w} {env : HookEnv w} {s : HookState w}

/-- A call underneath. `freeLine` is the `m_sys_free(line)` of `is_dma_buf`,
of the buffer `getline` has allocated. -/
inductive SysCall (w : Nat)
  | malloc (size : Word w)
  | free (pointer : Word w)
  | calloc (nmemb bytes : Word w)
  | realloc (pointer bytes : Word w)
  | memalign (alignment bytes : Word w)
  | posixMemalign (alignment size : Word w)
  | freeLine
  | mmap (args : MmapArgs w)
  | munmap (addr size : Word w)
  | ioctl (fd : Fd) (request : Request)
  | close (fd : Fd)

/-- What `is_dma_buf` calls: nothing when the file cannot be opened. -/
def dmaBufCalls (env : HookEnv w) (fd : Fd) : List (SysCall w) := if (env.fdinfo fd).isSome then [.freeLine] else []

/-- What `handle_dma_node` calls. -/
def dmaNodeCalls (env : HookEnv w) : Request → List (SysCall w)
  | .DMA_HEAP_IOCTL_ALLOC heapFd => dmaBufCalls env heapFd
  | .CAM_MEM_ION_MAP_PA memID => dmaBufCalls env memID
  | _ => []

/-- The calls underneath of a hook, in order. -/
def HookState.sysCalls (cfg : Config w) (env : HookEnv w) (s : HookState w) : HookCall w → List (SysCall w)
  | .malloc size => if !s.disabled && decide (maxSize w < size) then [] else [.malloc size]
  | .free pointer => [.free pointer]
  | .calloc nmemb bytes =>
    if s.disabled then [.calloc nmemb bytes]
    else if 2 ^ w ≤ nmemb.toNat * bytes.toNat then []
    else [.calloc 1 (nmemb * bytes)]
  | .realloc pointer bytes =>
    if s.disabled then [.realloc pointer bytes]
    else if pointer = 0 then [.malloc bytes]
    else if bytes = 0 then [.free pointer]
    else if maxSize w < bytes then []
    else [.realloc pointer bytes]
  | .memalign alignment bytes =>
    if !s.disabled && decide (maxSize w < bytes) then [] else [.memalign alignment bytes]
  | .posixMemalign _ alignment size =>
    if s.disabled then [.posixMemalign alignment size]
    else if alignment < BitVec.ofNat w (w / 8) || !powerof2 alignment then []
    else if maxSize w < size then []
    else [.memalign alignment size]
  | .ioctl fd request =>
    .ioctl fd request :: if !s.disabled && cfg.trackPointers then dmaNodeCalls env request else []
  | .close fd => [.close fd]
  | .mmap64 args => if !s.disabled && decide (maxSize w < args.size) then [] else [.mmap args]
  | .mmap args =>
    if !s.disabled && decide (maxSize w < args.size) then []
    else .mmap args :: if !s.disabled && cfg.trackPointers && !args.fd.msb then dmaBufCalls env args.fd else []
  | .munmap addr size => [.munmap addr size]

/-! Hooks of one call underneath, which is refused or made. -/

section Enabled

variable {c : SysCall w} (hd : s.disabled = false)

include hd

theorem mem_sysCalls_malloc {size : Word w} :
    c ∈ s.sysCalls cfg env (.malloc size) ↔ ¬ maxSize w < size ∧ c = .malloc size := by
  simp [HookState.sysCalls, hd]

theorem mem_sysCalls_calloc {nmemb bytes : Word w} :
    c ∈ s.sysCalls cfg env (.calloc nmemb bytes) ↔
      ¬ 2 ^ w ≤ nmemb.toNat * bytes.toNat ∧ c = .calloc 1 (nmemb * bytes) := by
  simp [HookState.sysCalls, hd]

theorem mem_sysCalls_memalign {alignment bytes : Word w} :
    c ∈ s.sysCalls cfg env (.memalign alignment bytes) ↔ ¬ maxSize w < bytes ∧ c = .memalign alignment bytes := by
  simp [HookState.sysCalls, hd]

theorem mem_sysCalls_mmap64 {args : MmapArgs w} :
    c ∈ s.sysCalls cfg env (.mmap64 args) ↔ ¬ maxSize w < args.size ∧ c = .mmap args := by
  simp [HookState.sysCalls, hd]

end Enabled

/-! ## What a hook returns -/

/-- What a call returns to the application: a pointer, the status of
`posix_memalign` with `*memptr`, an `int`, or nothing. -/
inductive Returned (w : Nat)
  | pointer (p : Word w)
  | status (ret : Int) (memptr : Word w)
  | int (ret : Int)
  | void

def HookState.returned (cfg : Config w) (env : HookEnv w) (s : HookState w) : HookCall w → Returned w
  | .malloc size => .pointer (debugMalloc cfg env size s).1
  | .free _ => .void
  | .calloc nmemb bytes => .pointer (debugCalloc cfg env nmemb bytes s).1
  | .realloc pointer bytes => .pointer (debugRealloc cfg env pointer bytes s).1
  | .memalign alignment bytes => .pointer (debugMemalign cfg env alignment bytes s).1
  | .posixMemalign memptr alignment size =>
    let r := debugPosixMemalign cfg env memptr alignment size s
    .status r.1 r.2.1
  | .ioctl fd request => .int (debugIoctl cfg env fd request s).1
  | .close fd => .int (debugClose cfg env fd s).1
  | .mmap64 args => .pointer (debugMmap64 cfg env args s).1
  | .mmap args => .pointer (debugMmap cfg env args s).1
  | .munmap addr size => .int (debugMunmap cfg env addr size s).1

/-- Two systems answer a call alike. -/
def SysCall.Agree (sys sys' : System w) : SysCall w → Prop
  | .malloc size => sys.malloc size = sys'.malloc size
  | .calloc nmemb bytes => sys.calloc nmemb bytes = sys'.calloc nmemb bytes
  | .realloc pointer bytes => sys.realloc pointer bytes = sys'.realloc pointer bytes
  | .memalign alignment bytes => sys.memalign alignment bytes = sys'.memalign alignment bytes
  | .posixMemalign alignment size => sys.posixMemalign alignment size = sys'.posixMemalign alignment size
  | .mmap args => sys.mmap args = sys'.mmap args
  | .munmap addr size => sys.munmap addr size = sys'.munmap addr size
  | .ioctl fd request => sys.ioctl fd request = sys'.ioctl fd request
  | .close fd => sys.close fd = sys'.close fd
  | .free _ | .freeLine => True

/-! The tracker's operations do not go through the system. -/

section Sys

variable (sys' : System w) (ptr size : Word w) (type : MemType) (fd : Fd) (request : Request) (s : HookState w)

@[simp] theorem add_sys : s.add cfg { env with sys := sys' } ptr size type = s.add cfg env ptr size type := rfl
@[simp] theorem remove_sys : s.remove cfg { env with sys := sys' } ptr = s.remove cfg env ptr := rfl
@[simp] theorem isDmaBuf_sys : isDmaBuf { env with sys := sys' } fd size s = isDmaBuf env fd size s := rfl
@[simp] theorem internalFree_sys :
    internalFree cfg { env with sys := sys' } ptr s = internalFree cfg env ptr s := rfl
@[simp] theorem handleDmaNode_sys :
    handleDmaNode { env with sys := sys' } request fd size s = handleDmaNode env request fd size s := by
  cases request <;> rfl

end Sys

/-- **A hook learns of the system only the answers to its calls.** -/
theorem call_agree {sys' : System w} {call : HookCall w} (h : ∀ c ∈ s.sysCalls cfg env call, c.Agree env.sys sys') :
    s.returned cfg { env with sys := sys' } call = s.returned cfg env call ∧
      s.call cfg { env with sys := sys' } call = s.call cfg env call := by
  cases call with
  | malloc size =>
    simp only [HookState.sysCalls] at h
    simp only [HookState.returned, HookState.call, debugMalloc, internalMalloc]
    split at h <;> simp_all [SysCall.Agree]
  | free pointer => exact ⟨rfl, rfl⟩
  | calloc nmemb bytes =>
    simp only [HookState.sysCalls] at h
    simp only [HookState.returned, HookState.call, debugCalloc]
    split at h
    · simp_all [SysCall.Agree]
    split at h <;> simp_all [SysCall.Agree]
  | realloc pointer bytes =>
    simp only [HookState.sysCalls] at h
    simp only [HookState.returned, HookState.call, debugRealloc, internalMalloc]
    split at h
    · simp_all [SysCall.Agree]
    split at h
    · simp_all [SysCall.Agree]
    split at h
    · simp_all [SysCall.Agree]
    split at h <;> simp_all [SysCall.Agree]
  | memalign alignment bytes =>
    simp only [HookState.sysCalls] at h
    simp only [HookState.returned, HookState.call, debugMemalign]
    split at h <;> simp_all [SysCall.Agree]
  | posixMemalign memptr alignment size =>
    simp only [HookState.sysCalls] at h
    simp only [HookState.returned, HookState.call, debugPosixMemalign, debugMemalign]
    split at h
    · simp_all [SysCall.Agree]
    split at h
    · simp_all [SysCall.Agree]
    split at h <;> simp_all [SysCall.Agree]
  | ioctl fd request =>
    have ha : env.sys.ioctl fd request = sys'.ioctl fd request := h _ List.mem_cons_self
    simp only [HookState.returned, HookState.call, debugIoctl, ← ha, handleDmaNode_sys, add_sys, and_self]
  | close fd =>
    have ha : env.sys.close fd = sys'.close fd := h _ List.mem_cons_self
    simp only [HookState.returned, HookState.call, debugClose, ← ha, remove_sys, and_self]
  | mmap64 args =>
    simp only [HookState.sysCalls] at h
    simp only [HookState.returned, HookState.call, debugMmap64]
    split at h <;> simp_all [SysCall.Agree]
  | mmap args =>
    simp only [HookState.sysCalls] at h
    simp only [HookState.returned, HookState.call, debugMmap, isDmaBuf_sys]
    split at h
    · simp_all
    · have ha : env.sys.mmap args = sys'.mmap args := h _ List.mem_cons_self
      simp only [← ha, add_sys, and_self]
  | munmap addr size =>
    have ha : env.sys.munmap addr size = sys'.munmap addr size := h _ List.mem_cons_self
    simp only [HookState.returned, HookState.call, debugMunmap, ← ha, remove_sys, and_self]

end AllocHook
