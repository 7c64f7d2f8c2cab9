/-
What a hook does, said once: the tracker calls it makes (`HookState.calls`),
the inode it shows and the flags it leaves.

`call_pointer` derives the tracker part of every hook from the list of its
calls, so a run of hooks is a run of `Add`s, `Remove`s and dumps, and what is
proved of those holds under the hooks (`Process.reachable`).
-/
import AllocHook.MallocDebug
import AllocHook.Dumps

namespace AllocHook

open FiniteMap

variable {w : Nat} {cfg : Config w} {env : HookEnv w} {s : HookState w}

/-! ## DMA buffers -/

/-- The inode and the size of the DMA buffer `fd` is open on, if it is. -/
def dmaInfo (env : HookEnv w) (fd : Fd) : Option (BitVec 64 × Word w) :=
  match env.fdinfo fd with
  | none => none
  | some lines =>
    let info := scanFdinfo 0 lines
    if info.isDmabufFile then
      (if info.inode = BitVec.allOnes 64 then env.statIno fd else some info.inode).map fun inode => (inode, info.size)
    else none

/-- `is_dma_buf` asks for a new inode, and remembers it. -/
theorem isDmaBuf_eq (env : HookEnv w) (fd : Fd) (s : HookState w) :
    match dmaInfo env fd with
    | none => (isDmaBuf env fd 0 s).1 = false ∧
        (isDmaBuf env fd 0 s).2.2 = { s with errno := env.fdinfoErrno s.errno }
    | some (inode, size) => isDmaBuf env fd 0 s = (decide (inode ∉ s.inodeSet), size,
        { s with errno := env.fdinfoErrno s.errno, inodeSet := insert inode s.inodeSet }) := by
  unfold dmaInfo isDmaBuf
  cases env.fdinfo fd with
  | none => exact ⟨rfl, rfl⟩
  | some lines =>
    dsimp only
    cases (scanFdinfo (0 : Word w) lines).isDmabufFile with
    | false => simp
    | true =>
      cases hi : (if (scanFdinfo (0 : Word w) lines).inode = BitVec.allOnes 64 then env.statIno fd
        else some (scanFdinfo (0 : Word w) lines).inode) with
      | none => simp
      | some inode => simp

/-! ## The calls a hook makes -/

/-- The tracker calls for a descriptor that is shown. -/
def HookState.dmaCalls (env : HookEnv w) (s : HookState w) (fd : Fd) : List (Call w) :=
  match dmaInfo env fd with
  | none => []
  | some (inode, size) => if inode ∈ s.inodeSet then [] else [.add env.add (fdPtr w fd) size .dma]

/-- The tracker calls of a hook, in order. -/
def HookState.calls (env : HookEnv w) (s : HookState w) (call : HookCall w) : List (Call w) :=
  if s.disabled then []
  else
    match call with
    | .malloc size => if maxSize w < size then [] else [.add env.add (env.sys.malloc size).result size .host]
    | .free pointer => if pointer = 0 then [] else [.remove pointer]
    | .calloc nmemb bytes =>
      if 2 ^ w ≤ nmemb.toNat * bytes.toNat ∨ (env.sys.calloc 1 (nmemb * bytes)).result = 0 then []
      else [.add env.add (env.sys.calloc 1 (nmemb * bytes)).result (nmemb * bytes) .host]
    | .realloc pointer bytes =>
      if pointer = 0 then [.add env.add (env.sys.malloc bytes).result bytes .host]
      else if bytes = 0 then [.remove pointer]
      else if maxSize w < bytes then []
      else [.remove pointer, .add env.add (env.sys.realloc pointer bytes).result bytes .host]
    | .memalign alignment bytes =>
      if maxSize w < bytes ∨ (env.sys.memalign alignment bytes).result = 0 then []
      else [.add env.add (env.sys.memalign alignment bytes).result bytes .host]
    | .posixMemalign _ alignment size =>
      if (alignment < BitVec.ofNat w (w / 8) || !powerof2 alignment) = true then []
      else if maxSize w < size ∨ (env.sys.memalign alignment size).result = 0 then []
      else [.add env.add (env.sys.memalign alignment size).result size .host]
    | .ioctl _ (.DMA_HEAP_IOCTL_ALLOC fd) => s.dmaCalls env fd
    | .ioctl _ (.CAM_MEM_ION_MAP_PA fd) => s.dmaCalls env fd
    | .ioctl _ _ => []
    | .close fd => [.remove (fdPtr w fd)]
    | .mmap64 args =>
      if maxSize w < args.size ∨ s.gpuIoctlAlloc = false then []
      else [.add env.add (env.sys.mmap args).result args.size .dma]
    | .mmap args =>
      if maxSize w < args.size then []
      else if args.fd.msb then [.add env.add (env.sys.mmap args).result args.size .mmap]
      else s.dmaCalls env args.fd
    | .munmap addr _ => [.remove addr]

/-- The descriptor a call shows to `is_dma_buf`. -/
def HookState.shows (s : HookState w) (call : HookCall w) : Option Fd :=
  if s.disabled then none
  else
    match call with
    | .ioctl _ (.DMA_HEAP_IOCTL_ALLOC fd) => some fd
    | .ioctl _ (.CAM_MEM_ION_MAP_PA fd) => some fd
    | .mmap args => if maxSize w < args.size ∨ args.fd.msb then none else some args.fd
    | _ => none

/-- The thread's GPU flag after a call. -/
def HookState.flagAfter (s : HookState w) (call : HookCall w) : Bool :=
  if s.disabled then s.gpuIoctlAlloc
  else
    match call with
    | .ioctl _ .KBASE_IOCTL_MEM_ALLOC => true
    | .ioctl _ .KBASE_IOCTL_MEM_ALLOC_EX => true
    | .ioctl _ .IOCTL_KGSL_GPUOBJ_ALLOC => true
    | .mmap64 args => if maxSize w < args.size then s.gpuIoctlAlloc else false
    | _ => s.gpuIoctlAlloc

/-- The inodes seen after a call. -/
def HookState.inodesAfter (env : HookEnv w) (s : HookState w) (call : HookCall w) : Finset (BitVec 64) :=
  match (s.shows call).bind (dmaInfo env) with
  | none => s.inodeSet
  | some (inode, _) => insert inode s.inodeSet

/-- `s'` is `s` after the tracker calls, with the given flag and inodes. -/
structure HookState.Did (cfg : Config w) (s : HookState w) (calls : List (Call w)) (flag : Bool)
    (inodes : Finset (BitVec 64)) (s' : HookState w) : Prop where
  pointer : s'.pointer = calls.foldl (PointerData.exec cfg) s.pointer
  disabled : s'.disabled = s.disabled
  gpuIoctlAlloc : s'.gpuIoctlAlloc = flag
  inodeSet : s'.inodeSet = inodes

section Called

variable {α : Type} (failed : Bool) (a : Answer α) (s : HookState w)

@[simp] theorem called_disabled : (s.called failed a).disabled = s.disabled := rfl
@[simp] theorem called_gpuIoctlAlloc : (s.called failed a).gpuIoctlAlloc = s.gpuIoctlAlloc := rfl

end Called

theorem did_called {α : Type} (failed : Bool) (a : Answer α) (s : HookState w) :
    s.Did cfg [] s.gpuIoctlAlloc s.inodeSet (s.called failed a) := ⟨rfl, rfl, rfl, rfl⟩

/-- What follows a system call follows the state before it. -/
theorem HookState.Did.of_called {α : Type} {failed : Bool} {a : Answer α} {s s' : HookState w} {calls : List (Call w)}
    {flag : Bool} {inodes : Finset (BitVec 64)} (h : (s.called failed a).Did cfg calls flag inodes s') :
    s.Did cfg calls flag inodes s' := ⟨h.pointer, h.disabled, h.gpuIoctlAlloc, h.inodeSet⟩

theorem did_internalMalloc (htrack : cfg.trackPointers = true) (env : HookEnv w) (size : Word w) (s : HookState w) :
    s.Did cfg [.add env.add (env.sys.malloc size).result size .host] s.gpuIoctlAlloc s.inodeSet
      (internalMalloc cfg env size s).2 := by
  simp only [internalMalloc, htrack, if_true]
  exact ⟨rfl, rfl, rfl, rfl⟩

theorem did_internalFree (htrack : cfg.trackPointers = true) (env : HookEnv w) (pointer : Word w) (s : HookState w) :
    s.Did cfg [.remove pointer] s.gpuIoctlAlloc s.inodeSet (internalFree cfg env pointer s) := by
  simp only [internalFree, htrack, if_true]
  exact ⟨rfl, rfl, rfl, rfl⟩

/-- A new DMA buffer is added, a known one or no DMA buffer is not. -/
theorem did_isDmaBuf (env : HookEnv w) (fd : Fd) (s : HookState w) :
    s.Did cfg (s.dmaCalls env fd) s.gpuIoctlAlloc
      (match dmaInfo env fd with
        | none => s.inodeSet
        | some (inode, _) => insert inode s.inodeSet)
      (if (isDmaBuf env fd 0 s).1 then
        (isDmaBuf env fd 0 s).2.2.add cfg env (fdPtr w fd) (isDmaBuf env fd 0 s).2.1 .dma
      else (isDmaBuf env fd 0 s).2.2) := by
  have h := isDmaBuf_eq env fd s
  unfold HookState.dmaCalls
  cases hd : dmaInfo env fd with
  | none =>
    rw [hd] at h
    obtain ⟨h₁, h₂⟩ := h
    simp only [h₁, h₂, Bool.false_eq_true, if_false]
    exact ⟨rfl, rfl, rfl, rfl⟩
  | some p =>
    obtain ⟨inode, size⟩ := p
    rw [hd] at h
    dsimp only at h ⊢
    rw [h]
    by_cases hm : inode ∈ s.inodeSet
    · simp only [hm, not_true_eq_false, decide_false, Bool.false_eq_true, if_false, if_true]
      exact ⟨rfl, rfl, rfl, rfl⟩
    · simp only [hm, not_false_eq_true, decide_true, if_true, if_false]
      exact ⟨rfl, rfl, rfl, rfl⟩

/-- With calls disabled a hook is its system call. -/
theorem did_disabled (hd : s.disabled = true) (env : HookEnv w) (call : HookCall w) :
    s.Did cfg [] s.gpuIoctlAlloc s.inodeSet (s.call cfg env call) := by
  cases call with
  | malloc size => simp only [HookState.call, debugMalloc, if_pos hd]; exact did_called _ _ s
  | free pointer => simp only [HookState.call, debugFree, hd, Bool.true_or, if_true]; exact ⟨rfl, rfl, rfl, rfl⟩
  | calloc nmemb bytes => simp only [HookState.call, debugCalloc, if_pos hd]; exact did_called _ _ s
  | realloc pointer bytes => simp only [HookState.call, debugRealloc, if_pos hd]; exact did_called _ _ s
  | memalign alignment bytes => simp only [HookState.call, debugMemalign, if_pos hd]; exact did_called _ _ s
  | posixMemalign memptr alignment size =>
    simp only [HookState.call, debugPosixMemalign, if_pos hd]; exact ⟨rfl, rfl, rfl, rfl⟩
  | ioctl fd request => simp only [HookState.call, debugIoctl, called_disabled, if_pos hd]; exact did_called _ _ s
  | close fd => simp only [HookState.call, debugClose, if_pos hd]; exact did_called _ _ s
  | mmap64 args => simp only [HookState.call, debugMmap64, if_pos hd]; exact did_called _ _ s
  | mmap args => simp only [HookState.call, debugMmap, if_pos hd]; exact did_called _ _ s
  | munmap addr size => simp only [HookState.call, debugMunmap, if_pos hd]; exact did_called _ _ s

theorem did_memalign (hd : ¬ s.disabled = true) (htrack : cfg.trackPointers = true) (env : HookEnv w)
    (alignment bytes : Word w) :
    s.Did cfg
      (if maxSize w < bytes ∨ (env.sys.memalign alignment bytes).result = 0 then []
        else [.add env.add (env.sys.memalign alignment bytes).result bytes .host])
      s.gpuIoctlAlloc s.inodeSet (debugMemalign cfg env alignment bytes s).2 := by
  simp only [debugMemalign, if_neg hd]
  by_cases hmax : maxSize w < bytes
  · simp only [if_pos hmax, if_pos (Or.inl hmax)]
    exact ⟨rfl, rfl, rfl, rfl⟩
  · by_cases hnull : (env.sys.memalign alignment bytes).result = 0
    · simp only [hmax, hnull, htrack, if_true, if_false, or_true, ne_eq, not_true_eq_false, decide_false,
        Bool.false_and, Bool.false_eq_true]
      exact did_called _ _ s
    · simp only [hmax, hnull, htrack, if_true, if_false, or_false, ne_eq, not_false_eq_true, decide_true,
        Bool.true_and]
      exact ⟨rfl, rfl, rfl, rfl⟩

/-- A hook does its tracker calls and leaves the flag and the inodes it says. -/
theorem call_did (htrack : cfg.trackPointers = true) (env : HookEnv w) (s : HookState w) (call : HookCall w) :
    s.Did cfg (s.calls env call) (s.flagAfter call) (s.inodesAfter env call) (s.call cfg env call) := by
  unfold HookState.calls HookState.flagAfter HookState.inodesAfter HookState.shows
  by_cases hd : s.disabled = true
  · simp only [if_pos hd, Option.bind_none]
    exact did_disabled hd env call
  simp only [if_neg hd]
  cases call with
  | malloc size =>
    simp only [HookState.call, debugMalloc, if_neg hd, Option.bind_none]
    split
    · exact ⟨rfl, rfl, rfl, rfl⟩
    · exact did_internalMalloc htrack env size s
  | free pointer =>
    simp only [HookState.call, debugFree, hd, Bool.false_or, decide_eq_true_eq, Option.bind_none]
    split
    · exact ⟨rfl, rfl, rfl, rfl⟩
    · exact did_internalFree htrack env pointer s
  | realloc pointer bytes =>
    simp only [HookState.call, debugRealloc, if_neg hd, Option.bind_none]
    split
    · exact did_internalMalloc htrack env bytes s
    split
    · exact did_internalFree htrack env pointer s
    split
    · exact ⟨rfl, rfl, rfl, rfl⟩
    · exact ⟨rfl, rfl, rfl, rfl⟩
  | calloc nmemb bytes =>
    simp only [HookState.call, debugCalloc, if_neg hd, Option.bind_none]
    by_cases hover : 2 ^ w ≤ nmemb.toNat * bytes.toNat
    · simp only [hover, if_true, true_or]
      exact ⟨rfl, rfl, rfl, rfl⟩
    · by_cases hnull : (env.sys.calloc 1 (nmemb * bytes)).result = 0
      · simp only [hover, hnull, htrack, if_true, if_false, or_true, ne_eq, not_true_eq_false, decide_false,
          Bool.false_and, Bool.false_eq_true]
        exact did_called _ _ s
      · simp only [hover, hnull, htrack, if_true, if_false, or_false, ne_eq, not_false_eq_true, decide_true,
          Bool.true_and]
        exact ⟨rfl, rfl, rfl, rfl⟩
  | memalign alignment bytes => exact did_memalign hd htrack env alignment bytes
  | posixMemalign memptr alignment size =>
    simp only [HookState.call, debugPosixMemalign, if_neg hd, Option.bind_none]
    split
    · exact ⟨rfl, rfl, rfl, rfl⟩
    · obtain ⟨h₁, h₂, h₃, h₄⟩ := did_memalign hd htrack env alignment size
      exact ⟨h₁, h₂, h₃, h₄⟩
  | ioctl fd request =>
    simp only [HookState.call, debugIoctl, called_disabled, if_neg hd, htrack, if_true]
    cases request with
    | DMA_HEAP_IOCTL_ALLOC heapFd =>
      exact (did_isDmaBuf env heapFd (s.called _ (env.sys.ioctl fd (.DMA_HEAP_IOCTL_ALLOC heapFd)))).of_called
    | CAM_MEM_ION_MAP_PA memID =>
      exact (did_isDmaBuf env memID (s.called _ (env.sys.ioctl fd (.CAM_MEM_ION_MAP_PA memID)))).of_called
    | _ => exact ⟨rfl, rfl, rfl, rfl⟩
  | close fd =>
    simp only [HookState.call, debugClose, if_neg hd, htrack, if_true]
    exact ⟨rfl, rfl, rfl, rfl⟩
  | mmap64 args =>
    simp only [HookState.call, debugMmap64, if_neg hd, called_gpuIoctlAlloc, htrack, Bool.true_and]
    by_cases hmax : maxSize w < args.size
    · simp only [if_pos hmax, if_pos (Or.inl hmax)]
      exact ⟨rfl, rfl, rfl, rfl⟩
    · cases hflag : s.gpuIoctlAlloc with
      | false => simp only [hmax, if_false, Bool.false_eq_true, or_true, if_true]; exact ⟨rfl, rfl, hflag, rfl⟩
      | true => simp only [hmax, if_false, if_true, reduceCtorEq, or_self]; exact ⟨rfl, rfl, rfl, rfl⟩
  | mmap args =>
    simp only [HookState.call, debugMmap, if_neg hd, htrack, if_true]
    by_cases hmax : maxSize w < args.size
    · simp only [if_pos hmax, if_pos (Or.inl hmax)]
      exact ⟨rfl, rfl, rfl, rfl⟩
    · by_cases hfd : args.fd.msb = true
      · simp only [hmax, hfd, if_true, if_false, or_true]
        exact ⟨rfl, rfl, rfl, rfl⟩
      · simp only [hmax, hfd, if_false]
        exact (did_isDmaBuf env args.fd (s.called _ (env.sys.mmap args))).of_called
  | munmap addr size =>
    simp only [HookState.call, debugMunmap, if_neg hd, htrack, if_true]
    exact ⟨rfl, rfl, rfl, rfl⟩

/-! ## The process -/

theorem Reachable.initialized (cfg : Config w) : Reachable cfg (PointerData.initialized w) := ⟨[], rfl⟩

theorem Reachable.perform {d : PointerData w} (hd : Reachable cfg d) (op : Op w) :
    Reachable cfg (d.perform cfg op) := by
  obtain ⟨ops, rfl⟩ := hd
  exact ⟨ops ++ [op], by rw [List.foldl_append]; rfl⟩

theorem Reachable.foldl {d : PointerData w} (hd : Reachable cfg d) (calls : List (Call w)) :
    Reachable cfg (calls.foldl (PointerData.exec cfg) d) := by
  induction calls generalizing d with
  | nil => exact hd
  | cons call calls ih => exact ih (hd.perform (.call call))

variable {Tid : Type*} [DecidableEq Tid]

theorem Process.run_concat (cfg : Config w) (events : List (Event Tid w)) (event : Event Tid w) :
    Process.run cfg (events ++ [event]) = (Process.run cfg events).perform cfg event := by
  simp only [Process.run, List.foldl_append, List.foldl_cons, List.foldl_nil]

/-- A hook of any thread leaves the tracker as its tracker calls do. -/
theorem Process.call_pointer (htrack : cfg.trackPointers = true) (p : Process Tid w) (t : Tid) (env : HookEnv w)
    (call : HookCall w) : (p.perform cfg (.call t env call)).pointer =
      ((p.view t).calls env call).foldl (PointerData.exec cfg) p.pointer :=
  (call_did htrack env (p.view t) call).pointer

theorem Process.perform_reachable (htrack : cfg.trackPointers = true) {p : Process Tid w}
    (hp : Reachable cfg p.pointer) (event : Event Tid w) : Reachable cfg (p.perform cfg event).pointer := by
  cases event with
  | call t env call =>
    rw [Process.call_pointer htrack]
    exact hp.foldl _
  | disableSet t disable => exact hp
  | dump it => exact hp.perform (.dump it)

/-- The tracker of a process is one that calls and dumps have reached. -/
theorem Process.reachable (htrack : cfg.trackPointers = true) (events : List (Event Tid w)) :
    Reachable cfg (Process.run cfg events).pointer := by
  induction events using List.reverseRecOn with
  | nil => exact .initialized cfg
  | append_singleton events event ih =>
    rw [Process.run_concat]
    exact Process.perform_reachable htrack ih event

/-- No hook leaves a thread's calls disabled. -/
theorem Process.call_enabled (htrack : cfg.trackPointers = true) {p : Process Tid w}
    (hd : ∀ t, (p.thread t).disabled = false) (t : Tid) (env : HookEnv w) (call : HookCall w) :
    ∀ t', ((p.perform cfg (.call t env call)).thread t').disabled = false := by
  intro t'
  simp only [Process.perform, Function.update_apply]
  split
  · exact (call_did htrack env (p.view t) call).disabled.trans (hd t)
  · exact hd t'

end AllocHook
