/-
The hooks (`malloc_debug.cpp`): what each intercepted call does to the
tracker around the system call it stands for.

The C library and the kernel are parameters: a `System` answers each call
with its result and the `errno` it sets on failure; `HookEnv` has besides
what the hook's own library code meets, the answers under `/proc/self` and
what that code leaves in `errno`. A hook is a function of the state its
thread sees (`HookState`): the tracker, the set of inodes seen, and the
thread's disable flag, GPU flag and `errno`. `ScopedDisableDebugCalls` sets
the flag for what the hook calls and resets it, so the flag is the same when
the hook returns.
-/
import AllocHook.PointerData
import Mathlib.Data.Finset.Insert

namespace AllocHook

variable {w : Nat}

/-! ## The system underneath -/

/-- The result of a call, and the `errno` it sets if it fails. -/
structure Answer (α : Type) where
  result : α
  errno : Int

def ENOMEM : Int := 12
def EINVAL : Int := 22

/-- A descriptor, a C `int`. -/
abbrev Fd := BitVec 32

/-- The requests `handle_dma_node` knows, with the descriptor it reads from
the argument after the call. -/
inductive Request
  | KBASE_IOCTL_MEM_ALLOC
  | KBASE_IOCTL_MEM_ALLOC_EX
  | IOCTL_KGSL_GPUOBJ_ALLOC
  | DMA_HEAP_IOCTL_ALLOC (fd : Fd)
  | CAM_MEM_ION_MAP_PA (memID : Fd)
  | other
  deriving DecidableEq

structure MmapArgs (w : Nat) where
  addr : Word w
  size : Word w
  prot : BitVec 32
  flags : BitVec 32
  fd : Fd
  offset : Word w

def MAP_FAILED (w : Nat) : Word w := BitVec.allOnes w

/-- `m_sys_*` and the system calls. `posixMemalign` answers its return value
and what it leaves in `*memptr`. -/
structure System (w : Nat) where
  malloc : Word w → Answer (Word w)
  calloc : Word w → Word w → Answer (Word w)
  realloc : Word w → Word w → Answer (Word w)
  memalign : Word w → Word w → Answer (Word w)
  posixMemalign : Word w → Word w → Int × Word w
  mmap : MmapArgs w → Answer (Word w)
  munmap : Word w → Word w → Answer Int
  ioctl : Fd → Request → Answer Int
  close : Fd → Answer Int

/-- What one hook call meets outside the tracker. -/
structure HookEnv (w : Nat) where
  sys : System w
  add : AddEnv w
  /-- The lines of `/proc/self/fdinfo/<fd>`; `none` when it cannot be opened. -/
  fdinfo : Fd → Option (List CString)
  /-- `st_ino` of `/proc/self/fd/<fd>`; `none` when `stat` fails. -/
  statIno : Fd → Option (BitVec 64)
  /-- What the code under `Add`, `Remove` and `is_dma_buf` leaves in `errno`. -/
  addErrno : Int → Int
  removeErrno : Int → Int
  fdinfoErrno : Int → Int

structure ThreadFlags where
  disabled : Bool
  gpuIoctlAlloc : Bool
  errno : Int

/-- What a thread in a hook sees. -/
structure HookState (w : Nat) extends ThreadFlags where
  pointer : PointerData w
  inodeSet : Finset (BitVec 64)

/-- A system on which every call fails. -/
def System.exhausted (w : Nat) : System w where
  malloc _ := { result := 0, errno := ENOMEM }
  calloc _ _ := { result := 0, errno := ENOMEM }
  realloc _ _ := { result := 0, errno := ENOMEM }
  memalign _ _ := { result := 0, errno := ENOMEM }
  posixMemalign _ _ := (ENOMEM, 0)
  mmap _ := { result := MAP_FAILED w, errno := ENOMEM }
  munmap _ _ := { result := -1, errno := EINVAL }
  ioctl _ _ := { result := -1, errno := ENOMEM }
  close _ := { result := -1, errno := EINVAL }

/-- A hook on `sys` with a one-frame stack, no descriptor and no other error. -/
def HookEnv.plain {w : Nat} (sys : System w) : HookEnv w where
  sys
  add := .single w 0x1000 1
  fdinfo _ := none
  statIno _ := none
  addErrno := id
  removeErrno := id
  fdinfoErrno := id

/-- After a system call: `errno` is its own if it failed. -/
def HookState.called {α : Type} (failed : Bool) (a : Answer α) (s : HookState w) : HookState w :=
  { s with errno := if failed then a.errno else s.errno }

/-- `g_debug->pointer->Add`. -/
def HookState.add (cfg : Config w) (env : HookEnv w) (ptr size : Word w) (type : MemType) (s : HookState w) :
    HookState w :=
  { s with pointer := s.pointer.add cfg env.add ptr size type, errno := env.addErrno s.errno }

/-- `g_debug->pointer->Remove`. -/
def HookState.remove (cfg : Config w) (env : HookEnv w) (ptr : Word w) (s : HookState w) : HookState w :=
  { s with pointer := s.pointer.remove cfg ptr, errno := env.removeErrno s.errno }

/-! ## The allocator's hooks -/

/-- `InternalMalloc`. -/
def internalMalloc (cfg : Config w) (env : HookEnv w) (size : Word w) (s : HookState w) : Word w × HookState w :=
  let a := env.sys.malloc size
  let s := s.called (a.result = 0) a
  let s := if cfg.trackPointers then s.add cfg env a.result size .host else s
  (a.result, s)

/-- `InternalFree`; `m_sys_free` has no answer. -/
def internalFree (cfg : Config w) (env : HookEnv w) (pointer : Word w) (s : HookState w) : HookState w :=
  if cfg.trackPointers then s.remove cfg env pointer else s

def debugMalloc (cfg : Config w) (env : HookEnv w) (size : Word w) (s : HookState w) : Word w × HookState w :=
  if s.disabled then
    let a := env.sys.malloc size
    (a.result, s.called (a.result = 0) a)
  else if maxSize w < size then (0, { s with errno := ENOMEM })
  else internalMalloc cfg env size s

def debugFree (cfg : Config w) (env : HookEnv w) (pointer : Word w) (s : HookState w) : HookState w :=
  if s.disabled || pointer = 0 then s else internalFree cfg env pointer s

def debugRealloc (cfg : Config w) (env : HookEnv w) (pointer bytes : Word w) (s : HookState w) :
    Word w × HookState w :=
  if s.disabled then
    let a := env.sys.realloc pointer bytes
    (a.result, s.called (a.result = 0) a)
  else if pointer = 0 then internalMalloc cfg env bytes s
  else if bytes = 0 then (0, internalFree cfg env pointer s)
  else if maxSize w < bytes then (0, { s with errno := ENOMEM })
  else
    let s := if cfg.trackPointers then s.remove cfg env pointer else s
    let a := env.sys.realloc pointer bytes
    let s := s.called (a.result = 0) a
    let s := if cfg.trackPointers then s.add cfg env a.result bytes .host else s
    (a.result, s)

def debugCalloc (cfg : Config w) (env : HookEnv w) (nmemb bytes : Word w) (s : HookState w) :
    Word w × HookState w :=
  if s.disabled then
    let a := env.sys.calloc nmemb bytes
    (a.result, s.called (a.result = 0) a)
  else if 2 ^ w ≤ nmemb.toNat * bytes.toNat then (0, { s with errno := ENOMEM })
  else
    let size := nmemb * bytes
    let a := env.sys.calloc 1 size
    let s := s.called (a.result = 0) a
    let s := if a.result ≠ 0 && cfg.trackPointers then s.add cfg env a.result size .host else s
    (a.result, s)

def debugMemalign (cfg : Config w) (env : HookEnv w) (alignment bytes : Word w) (s : HookState w) :
    Word w × HookState w :=
  if s.disabled then
    let a := env.sys.memalign alignment bytes
    (a.result, s.called (a.result = 0) a)
  else if maxSize w < bytes then (0, { s with errno := ENOMEM })
  else
    let a := env.sys.memalign alignment bytes
    let s := s.called (a.result = 0) a
    let s := if a.result ≠ 0 && cfg.trackPointers then s.add cfg env a.result bytes .host else s
    (a.result, s)

/-- The `powerof2` of `sys/param.h`: true of zero as well. -/
def powerof2 (x : Word w) : Bool := (x - 1) &&& x = 0

/-- The return value, `*memptr` afterwards, and the state. -/
def debugPosixMemalign (cfg : Config w) (env : HookEnv w) (memptr alignment size : Word w) (s : HookState w) :
    Int × Word w × HookState w :=
  if s.disabled then
    let a := env.sys.posixMemalign alignment size
    (a.1, a.2, s)
  else if alignment < BitVec.ofNat w (w / 8) || !powerof2 alignment then (EINVAL, memptr, s)
  else
    let savedErrno := s.errno
    let r := debugMemalign cfg env alignment size s
    (if r.1 ≠ 0 then 0 else ENOMEM, r.1, { r.2 with errno := savedErrno })

/-! ## DMA buffers -/

/-- What the loop over the lines of a fdinfo file collects. -/
structure FdInfo (w : Nat) where
  isDmabufFile : Bool
  inode : BitVec 64
  size : Word w

def scanLine (info : FdInfo w) (line : CString) : FdInfo w :=
  match line with
  | 'i' :: _ =>
    if ['i', 'n', 'o', ':'].isPrefixOf line then { info with inode := strtoull (line.drop 4) } else info
  | 's' :: _ =>
    if ['s', 'i', 'z', 'e', ':'].isPrefixOf line then { info with size := (strtoull (line.drop 5)).setWidth w }
    else info
  | 'e' :: _ =>
    if ['e', 'x', 'p', '_', 'n', 'a', 'm', 'e', ':'].isPrefixOf line then { info with isDmabufFile := true }
    else info
  | _ => info

/-- What the loop over `lines` finds, `*size` being `size` before it. -/
def scanFdinfo (size : Word w) (lines : List CString) : FdInfo w :=
  lines.foldl scanLine { isDmabufFile := false, inode := BitVec.allOnes 64, size }

/-- `is_dma_buf`: whether `fd` is a DMA buffer not seen before, and `*size`. -/
def isDmaBuf (env : HookEnv w) (fd : Fd) (size : Word w) (s : HookState w) : Bool × Word w × HookState w :=
  let s := { s with errno := env.fdinfoErrno s.errno }
  match env.fdinfo fd with
  | none => (false, size, s)
  | some lines =>
    let info := scanFdinfo size lines
    if !info.isDmabufFile then (false, info.size, s)
    else
      -- Without an inode number in fdinfo, `stat` is asked for it.
      match if info.inode = BitVec.allOnes 64 then env.statIno fd else some info.inode with
      | none => (false, info.size, s)
      | some inode => (decide (inode ∉ s.inodeSet), info.size, { s with inodeSet := insert inode s.inodeSet })

/-- A descriptor as the pointer it is tracked under: `reinterpret_cast<void*>(fd)`. -/
def fdPtr (w : Nat) (fd : Fd) : Word w := fd.signExtend w

/-- `handle_dma_node`: whether to add a buffer, its descriptor and its size. -/
def handleDmaNode (env : HookEnv w) (request : Request) (fd : Fd) (size : Word w) (s : HookState w) :
    Bool × Fd × Word w × HookState w :=
  match request with
  | .KBASE_IOCTL_MEM_ALLOC | .KBASE_IOCTL_MEM_ALLOC_EX | .IOCTL_KGSL_GPUOBJ_ALLOC =>
    (false, fd, size, { s with gpuIoctlAlloc := true })
  | .DMA_HEAP_IOCTL_ALLOC heapFd => let r := isDmaBuf env heapFd size s; (r.1, heapFd, r.2.1, r.2.2)
  | .CAM_MEM_ION_MAP_PA memID => let r := isDmaBuf env memID size s; (r.1, memID, r.2.1, r.2.2)
  | .other => (false, fd, size, s)

def debugIoctl (cfg : Config w) (env : HookEnv w) (fd : Fd) (request : Request) (s : HookState w) :
    Int × HookState w :=
  let a := env.sys.ioctl fd request
  let s := s.called (a.result = -1) a
  if s.disabled then (a.result, s)
  else if cfg.trackPointers then
    let r := handleDmaNode env request (-1) 0 s
    (a.result, if r.1 then r.2.2.2.add cfg env (fdPtr w r.2.1) r.2.2.1 .dma else r.2.2.2)
  else (a.result, s)

def debugClose (cfg : Config w) (env : HookEnv w) (fd : Fd) (s : HookState w) : Int × HookState w :=
  let a := env.sys.close fd
  if s.disabled then (a.result, s.called (a.result = -1) a)
  else
    let s := if cfg.trackPointers then s.remove cfg env (fdPtr w fd) else s
    (a.result, s.called (a.result = -1) a)

/-! ## Mappings -/

def debugMmap64 (cfg : Config w) (env : HookEnv w) (args : MmapArgs w) (s : HookState w) : Word w × HookState w :=
  let a := env.sys.mmap args
  if s.disabled then (a.result, s.called (a.result = MAP_FAILED w) a)
  else if maxSize w < args.size then (0, { s with errno := ENOMEM })
  else
    let s := s.called (a.result = MAP_FAILED w) a
    if cfg.trackPointers && s.gpuIoctlAlloc then
      (a.result, { s with gpuIoctlAlloc := false }.add cfg env a.result args.size .dma)
    else (a.result, s)

def debugMmap (cfg : Config w) (env : HookEnv w) (args : MmapArgs w) (s : HookState w) : Word w × HookState w :=
  let a := env.sys.mmap args
  if s.disabled then (a.result, s.called (a.result = MAP_FAILED w) a)
  else if maxSize w < args.size then (0, { s with errno := ENOMEM })
  else
    let s := s.called (a.result = MAP_FAILED w) a
    if cfg.trackPointers then
      if args.fd.msb then (a.result, s.add cfg env a.result args.size .mmap)
      else
        let r := isDmaBuf env args.fd 0 s
        (a.result, if r.1 then r.2.2.add cfg env (fdPtr w args.fd) r.2.1 .dma else r.2.2)
    else (a.result, s)

def debugMunmap (cfg : Config w) (env : HookEnv w) (addr size : Word w) (s : HookState w) : Int × HookState w :=
  let a := env.sys.munmap addr size
  if s.disabled then (a.result, s.called (a.result = -1) a)
  else
    let s := if cfg.trackPointers then s.remove cfg env addr else s
    (a.result, s.called (a.result = -1) a)

/-! ## Calls by any thread -/

/-- The intercepted calls, with their arguments. -/
inductive HookCall (w : Nat)
  | malloc (size : Word w)
  | free (pointer : Word w)
  | calloc (nmemb bytes : Word w)
  | realloc (pointer bytes : Word w)
  | memalign (alignment bytes : Word w)
  | posixMemalign (memptr alignment size : Word w)
  | ioctl (fd : Fd) (request : Request)
  | close (fd : Fd)
  | mmap64 (args : MmapArgs w)
  | mmap (args : MmapArgs w)
  | munmap (addr size : Word w)

/-- The state a call leaves. -/
def HookState.call (cfg : Config w) (env : HookEnv w) (s : HookState w) : HookCall w → HookState w
  | .malloc size => (debugMalloc cfg env size s).2
  | .free pointer => debugFree cfg env pointer s
  | .calloc nmemb bytes => (debugCalloc cfg env nmemb bytes s).2
  | .realloc pointer bytes => (debugRealloc cfg env pointer bytes s).2
  | .memalign alignment bytes => (debugMemalign cfg env alignment bytes s).2
  | .posixMemalign memptr alignment size => (debugPosixMemalign cfg env memptr alignment size s).2.2
  | .ioctl fd request => (debugIoctl cfg env fd request s).2
  | .close fd => (debugClose cfg env fd s).2
  | .mmap64 args => (debugMmap64 cfg env args s).2
  | .mmap args => (debugMmap cfg env args s).2
  | .munmap addr size => (debugMunmap cfg env addr size s).2

/-- The tracker's process: what all threads share, and each thread's own. -/
structure Process (Tid : Type*) (w : Nat) where
  pointer : PointerData w
  inodeSet : Finset (BitVec 64)
  thread : Tid → ThreadFlags

variable {Tid : Type*}

/-- After `debug_initialize`: nothing tracked, no flag set. -/
def Process.init (Tid : Type*) (w : Nat) : Process Tid w :=
  { pointer := PointerData.initialized w
    inodeSet := ∅
    thread := fun _ => { disabled := false, gpuIoctlAlloc := false, errno := 0 } }

/-- What thread `t` sees. -/
def Process.view (p : Process Tid w) (t : Tid) : HookState w :=
  { p.thread t with pointer := p.pointer, inodeSet := p.inodeSet }

/-- What happens in a process: a call of a thread, a change of a thread's
disable flag, a dump. -/
inductive Event (Tid : Type*) (w : Nat)
  | call (t : Tid) (env : HookEnv w) (call : HookCall w)
  | disableSet (t : Tid) (disable : Bool)
  | dump (it : FiniteMap.Iteration (Word w) (PointerInfoType w))

variable [DecidableEq Tid]

def Process.perform (cfg : Config w) (p : Process Tid w) : Event Tid w → Process Tid w
  | .call t env call =>
    let s := (p.view t).call cfg env call
    { pointer := s.pointer, inodeSet := s.inodeSet, thread := Function.update p.thread t s.toThreadFlags }
  | .disableSet t disable =>
    { p with thread := Function.update p.thread t { p.thread t with disabled := disable } }
  | .dump it => { p with pointer := (p.pointer.dumpLiveToFile cfg it).2 }

/-- Whole calls of all threads in any order. -/
def Process.run (cfg : Config w) (events : List (Event Tid w)) : Process Tid w :=
  events.foldl (Process.perform cfg) (Process.init Tid w)

end AllocHook
