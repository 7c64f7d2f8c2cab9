/-
GPU allocations and the mappings that follow them.

`handle_dma_node` notes an allocation ioctl in one flag of its thread, whether
the ioctl succeeded or not, and the thread's next `mmap64` takes the flag and
is recorded, whatever it maps. Two allocations before a mapping leave one flag
for two mappings.

`gpu_matched_iff` says when the flag is enough: the mappings recorded are
those of the allocations if and only if they are each the thread's first
`mmap64` after an allocation ioctl, and no other `mmap64` is.
-/
import AllocHook.HookEffects
import AllocHook.Lib.History

namespace AllocHook

open FiniteMap History

variable {Tid : Type*} {w : Nat} {cfg : Config w}

/-! ## Calls and what they map -/

/-- A hook call of a thread; `maps` says of an `mmap64` that it maps a GPU
allocation of the thread not mapped before. -/
structure HookStep (Tid : Type*) (w : Nat) where
  t : Tid
  env : HookEnv w
  call : HookCall w
  maps : Bool

/-- The requests that allocate GPU memory. -/
def Request.allocatesGpu : Request → Bool
  | .KBASE_IOCTL_MEM_ALLOC | .KBASE_IOCTL_MEM_ALLOC_EX | .IOCTL_KGSL_GPUOBJ_ALLOC => true
  | .DMA_HEAP_IOCTL_ALLOC _ | .CAM_MEM_ION_MAP_PA _ | .other => false

/-- The call is an allocation ioctl. -/
def HookCall.allocatesGpu : HookCall w → Bool
  | .ioctl _ request => request.allocatesGpu
  | _ => false

/-- The call is an `mmap64` that is not refused for its size. -/
def HookCall.takesFlag : HookCall w → Bool
  | .mmap64 args => decide (args.size ≤ maxSize w)
  | _ => false

/-- The step allocates GPU memory: the ioctl does not fail. -/
def HookStep.allocates (s : HookStep Tid w) : Bool :=
  match s.call with
  | .ioctl fd request => request.allocatesGpu && decide ((s.env.sys.ioctl fd request).result ≠ -1)
  | _ => false

def HookStep.event (s : HookStep Tid w) : Event Tid w := .call s.t s.env s.call

variable [DecidableEq Tid]

/-- Allocations of thread `t`, and the mappings of such. -/
def allocated (steps : List (HookStep Tid w)) (t : Tid) : ℕ := steps.countP fun s => s.t = t ∧ s.allocates

def mapped (steps : List (HookStep Tid w)) (t : Tid) : ℕ := steps.countP fun s => s.t = t ∧ s.maps

/-- Each allocation is mapped later by one successful `mmap64` of its thread. -/
structure Matched (steps : List (HookStep Tid w)) : Prop where
  succeeds : ∀ s ∈ steps, s.maps = true →
    ∃ args, s.call = .mmap64 args ∧ args.size ≤ maxSize w ∧ (s.env.sys.mmap args).result ≠ MAP_FAILED w
  later : ∀ t pre, pre <+: steps → mapped pre t ≤ allocated pre t
  all : ∀ t, mapped steps t = allocated steps t

def Process.runSteps (cfg : Config w) (steps : List (HookStep Tid w)) : Process Tid w :=
  Process.run cfg (steps.map HookStep.event)

/-- The tracker `d'` is `d` with a DMA entry of the mapping's size at its address. -/
structure AddedAsDma (d d' : PointerData w) (addr size : Word w) : Prop where
  entry : ∃ e, d'.pointers = d.pointers.insert (manglePointer addr) e ∧ e.memType = .dma ∧ e.size = size
  total : d'.currentDma = d.currentDma + size

/-- The hook makes an `Add` that gets past its exit check. -/
def HookStep.Adds (cfg : Config w) (pre : List (HookStep Tid w)) (s : HookStep Tid w) : Prop :=
  ∃ env ptr size type, Call.add env ptr size type ∈ ((Process.runSteps cfg pre).view s.t).calls s.env s.call ∧
    records cfg env size = true

/-- An `mmap64` of an allocation is added with its size, any other not. -/
def RightlyAdded (cfg : Config w) (pre : List (HookStep Tid w)) (s : HookStep Tid w) : Prop :=
  ∀ args, s.call = .mmap64 args →
    if s.maps then s.Adds cfg pre ∧ AddedAsDma (Process.runSteps cfg pre).pointer
      (Process.runSteps cfg (pre ++ [s])).pointer (s.env.sys.mmap args).result args.size
    else ¬ s.Adds cfg pre ∧ (Process.runSteps cfg (pre ++ [s])).pointer = (Process.runSteps cfg pre).pointer

/-- Thread `t` made an allocation ioctl, successful or not, and no `mmap64`
within `MaxSize` since. -/
def Armed (pre : List (HookStep Tid w)) (t : Tid) : Prop :=
  Since (fun s => s.t = t ∧ s.call.allocatesGpu = true) (fun s => s.t = t ∧ s.call.takesFlag = true) pre

/-- An `mmap64` maps an allocation just when it is the first since an
allocation ioctl of its thread, within `MaxSize`, with a stack that is kept. -/
def RightlyArmed (cfg : Config w) (pre : List (HookStep Tid w)) (s : HookStep Tid w) : Prop :=
  ∀ args, s.call = .mmap64 args →
    (s.maps = true ↔ Armed pre s.t ∧ args.size ≤ maxSize w ∧ records cfg s.env.add args.size = true)

/-! ## The flag -/

omit [DecidableEq Tid] in
/-- The flag after a call: set by an allocation ioctl, taken by an `mmap64`. -/
theorem flagAfter_iff {s : HookState w} (hd : s.disabled = false) (call : HookCall w) :
    s.flagAfter call = true ↔ call.allocatesGpu = true ∨ s.gpuIoctlAlloc = true ∧ ¬ call.takesFlag = true := by
  simp only [HookState.flagAfter, hd, Bool.false_eq_true, if_false]
  cases call with
  | ioctl fd request => cases request <;> simp [HookCall.allocatesGpu, HookCall.takesFlag, Request.allocatesGpu]
  | mmap64 args =>
    by_cases hmax : maxSize w < args.size
    · simp [HookCall.allocatesGpu, HookCall.takesFlag, hmax]
    · simp [HookCall.allocatesGpu, HookCall.takesFlag, hmax]
  | _ => simp [HookCall.allocatesGpu, HookCall.takesFlag]

theorem runSteps_concat (cfg : Config w) (steps : List (HookStep Tid w)) (s : HookStep Tid w) :
    Process.runSteps cfg (steps ++ [s]) = (Process.runSteps cfg steps).perform cfg s.event := by
  rw [Process.runSteps, List.map_append, List.map_singleton, Process.run_concat, Process.runSteps]

/-- What a thread's flags are after any calls. -/
theorem runSteps_thread (htrack : cfg.trackPointers = true) (steps : List (HookStep Tid w)) (t : Tid) :
    ((Process.runSteps cfg steps).thread t).disabled = false ∧
      (((Process.runSteps cfg steps).thread t).gpuIoctlAlloc = true ↔ Armed steps t) := by
  induction steps using List.reverseRecOn with
  | nil => exact ⟨rfl, iff_of_false Bool.false_ne_true since_nil⟩
  | append_singleton steps s ih =>
    obtain ⟨hd, hflag⟩ := ih
    have hdid := call_did htrack s.env ((Process.runSteps cfg steps).view s.t) s.call
    rw [runSteps_concat, Armed, since_concat]
    simp only [Process.perform, HookStep.event]
    by_cases ht : t = s.t
    · subst ht
      rw [Function.update_self]
      refine ⟨hdid.disabled.trans hd, ?_⟩
      have hnext := flagAfter_iff (s := (Process.runSteps cfg steps).view s.t) hd s.call
      rw [← hdid.gpuIoctlAlloc] at hnext
      simp only [true_and]
      exact hnext.trans (or_congr_right (and_congr_left fun _ => hflag))
    · rw [Function.update_of_ne ht]
      refine ⟨hd, hflag.trans ?_⟩
      simp only [Ne.symm ht, false_and, not_false_eq_true, and_true, false_or, Armed]

/-! ## What an `mmap64` does -/

/-- An armed `mmap64` within `MaxSize` hands its result to `Add`, and no other does. -/
theorem mmap64_calls (htrack : cfg.trackPointers = true) (pre : List (HookStep Tid w)) {s : HookStep Tid w}
    {args : MmapArgs w} (hs : s.call = .mmap64 args) :
    (Armed pre s.t ∧ args.size ≤ maxSize w ∧ ((Process.runSteps cfg pre).view s.t).calls s.env s.call =
      [.add s.env.add (s.env.sys.mmap args).result args.size .dma]) ∨
    (¬ (Armed pre s.t ∧ args.size ≤ maxSize w) ∧ ((Process.runSteps cfg pre).view s.t).calls s.env s.call = []) := by
  obtain ⟨hd, hflag⟩ := runSteps_thread htrack pre s.t
  set p := Process.runSteps cfg pre
  have hcalls : (p.view s.t).calls s.env s.call = if maxSize w < args.size ∨ (p.view s.t).gpuIoctlAlloc = false then []
      else [.add s.env.add (s.env.sys.mmap args).result args.size .dma] := by
    rw [hs]
    exact if_neg (by rw [show (p.view s.t).disabled = false from hd]; simp)
  by_cases hskip : maxSize w < args.size ∨ (p.view s.t).gpuIoctlAlloc = false
  · refine .inr ⟨fun ⟨harmed, hmax⟩ => ?_, by rw [hcalls, if_pos hskip]⟩
    rcases hskip with hlt | hf
    · exact BitVec.not_le.mpr hlt hmax
    · exact absurd (hflag.mpr harmed) (Bool.not_eq_true _ ▸ hf)
  · obtain ⟨hmax, hf⟩ := not_or.mp hskip
    exact .inl ⟨hflag.mp (Bool.not_eq_false _ ▸ hf), BitVec.not_lt.mp hmax, by rw [hcalls, if_neg hskip]⟩

theorem runSteps_pointer (htrack : cfg.trackPointers = true) (pre : List (HookStep Tid w)) (s : HookStep Tid w) :
    (Process.runSteps cfg (pre ++ [s])).pointer =
      (((Process.runSteps cfg pre).view s.t).calls s.env s.call).foldl (PointerData.exec cfg)
        (Process.runSteps cfg pre).pointer := by
  rw [runSteps_concat]
  exact Process.call_pointer htrack _ s.t s.env s.call

/-- An armed `mmap64` is added, and no other changes the tracker. -/
theorem mmap64_step (hb : cfg.has BACKTRACE = true) (htrack : cfg.trackPointers = true)
    (pre : List (HookStep Tid w)) {s : HookStep Tid w} {args : MmapArgs w} (hs : s.call = .mmap64 args) :
    ((Armed pre s.t ∧ args.size ≤ maxSize w ∧ records cfg s.env.add args.size = true) ∧ s.Adds cfg pre ∧
      AddedAsDma (Process.runSteps cfg pre).pointer (Process.runSteps cfg (pre ++ [s])).pointer
        (s.env.sys.mmap args).result args.size) ∨
    (¬ (Armed pre s.t ∧ args.size ≤ maxSize w ∧ records cfg s.env.add args.size = true) ∧ ¬ s.Adds cfg pre ∧
      (Process.runSteps cfg (pre ++ [s])).pointer = (Process.runSteps cfg pre).pointer) := by
  obtain ⟨L, hc⟩ := (Process.reachable htrack (pre.map HookStep.event)).charged hb
  rw [runSteps_pointer htrack pre s]
  rcases mmap64_calls htrack pre hs with ⟨harmed, hmax, hcalls⟩ | ⟨hnot, hcalls⟩
  · rw [hcalls]
    cases hrec : records cfg s.env.add args.size with
    | true =>
      have ha := add_added hc.held hrec (s.env.sys.mmap args).result .dma
      refine .inl ⟨⟨harmed, hmax, rfl⟩, ⟨_, _, _, _, hcalls ▸ List.mem_singleton_self _, hrec⟩, ?_⟩
      exact ⟨⟨_, ha.pointers, rfl, rfl⟩, ha.currentDma⟩
    | false =>
      refine .inr ⟨fun h => Bool.false_ne_true h.2.2, ?_, add_of_not_records hrec _ _ _⟩
      intro hx
      obtain ⟨env, ptr, size, type, hmem, hr⟩ := hx
      rw [hcalls, List.mem_singleton] at hmem
      cases hmem
      rw [hrec] at hr
      cases hr
  · refine .inr ⟨fun h => hnot ⟨h.1, h.2.1⟩, ?_, by rw [hcalls]; rfl⟩
    intro hx
    obtain ⟨env, ptr, size, type, hmem, -⟩ := hx
    rw [hcalls] at hmem
    cases hmem

theorem rightlyAdded_iff (hb : cfg.has BACKTRACE = true) (htrack : cfg.trackPointers = true)
    (pre : List (HookStep Tid w)) (s : HookStep Tid w) : RightlyAdded cfg pre s ↔ RightlyArmed cfg pre s := by
  refine forall_congr' fun args => forall_congr' fun hs => ?_
  rcases mmap64_step hb htrack pre hs with ⟨h, hadd⟩ | ⟨h, hsame⟩
  · cases hm : s.maps with
    | true => exact iff_of_true hadd (iff_of_true rfl h)
    | false => exact iff_of_false (fun hnot => hnot.1 hadd.1) fun hiff => Bool.false_ne_true (hiff.mpr h)
  · cases hm : s.maps with
    | true => exact iff_of_false (fun hadd => hsame.1 hadd.1) fun hiff => h (hiff.mp rfl)
    | false => exact iff_of_true hsame (iff_of_false Bool.false_ne_true h)

/-- **GPU allocations and mappings.** Whatever threads call the hooks, the
`mmap64`s recorded are those that map a GPU allocation if and only if those
are the ones that are each the first since an allocation ioctl of the thread. -/
theorem gpu_matched_iff (getenv : Environ) (steps : List (HookStep Tid w)) :
    Always (RightlyAdded (Config.init w getenv)) steps ↔ Always (RightlyArmed (Config.init w getenv)) steps :=
  always_congr fun pre s _ => rightlyAdded_iff (init_backtrace w getenv) (init_trackPointers w getenv) pre s

/-! ## Two allocations, two mappings -/

/-- A hook on a system where ioctls succeed and mappings go to `addr`. -/
def gpuEnv (addr : Word 64) : HookEnv 64 :=
  .plain { System.exhausted 64 with
    ioctl := fun _ _ => { result := 0, errno := 0 }
    mmap := fun _ => { result := addr, errno := 0 } }

def gpuIoctl : HookStep Unit 64 :=
  { t := (), env := gpuEnv 0, call := .ioctl 3 .KBASE_IOCTL_MEM_ALLOC, maps := false }

def gpuMmap (addr : Word 64) : HookStep Unit 64 :=
  { t := (), env := gpuEnv addr
    call := .mmap64 { addr := 0, size := 4096, prot := 3, flags := 1, fd := 3, offset := addr }, maps := true }

/-- Two allocations of a page, and then their mappings. -/
def twoAllocations : List (HookStep Unit 64) := [gpuIoctl, gpuIoctl, gpuMmap 0x7f0000000000, gpuMmap 0x7f0000001000]

/-- Each allocation is mapped, and the second mapping is not recorded. -/
theorem twoAllocations_not_matched :
    Matched twoAllocations ∧ ¬ Always (RightlyAdded (Config.init 64 ⟨none, none⟩)) twoAllocations := by
  refine ⟨⟨?_, ?_, by decide⟩, fun h => ?_⟩
  · intro s hs hm
    simp only [twoAllocations, List.mem_cons, List.not_mem_nil, or_false] at hs
    rcases hs with rfl | rfl | rfl | rfl
    · cases hm
    · cases hm
    · exact ⟨_, rfl, by decide, by decide⟩
    · exact ⟨_, rfl, by decide, by decide⟩
  · intro t pre hp
    have hall : ∀ pre ∈ twoAllocations.inits, mapped pre () ≤ allocated pre () := by decide
    exact hall pre ((List.mem_inits _ _).mpr hp)
  · have hadd := (h [gpuIoctl, gpuIoctl, gpuMmap 0x7f0000000000] (gpuMmap 0x7f0000001000) [] rfl _ rfl).2.total
    have hbefore : (Process.runSteps (Config.init 64 ⟨none, none⟩)
        [gpuIoctl, gpuIoctl, gpuMmap 0x7f0000000000]).pointer.currentDma = 4096 := by decide
    have hafter : (Process.runSteps (Config.init 64 ⟨none, none⟩)
        [gpuIoctl, gpuIoctl, gpuMmap 0x7f0000000000, gpuMmap 0x7f0000001000]).pointer.currentDma = 4096 := by decide
    rw [hbefore] at hadd
    exact absurd (hafter.symm.trans hadd) (by decide)

end AllocHook
