/-
Calls the library makes to the functions it intercepts.

A hook that finds calls enabled sets the thread's flag before anything else it
does can allocate, and so does `debug_dump_heap`; whatever they call then goes
straight to the system. `singal_dump_heap` formats the name of its file first,
with the flag as it was when the signal came.

The stack of a thread has the library's functions that are running on it. A
call made with an empty stack is the program's, any other the library's own.
`self_calls_iff`: the library's own calls change nothing and every hook leaves
the flag as it was, all along a run, if and only if the handler makes no call
of its own but where the signal found calls disabled.
-/
import AllocHook.HookEffects
import AllocHook.Lib.History

namespace AllocHook

open FiniteMap History

variable {Tid : Type*} {w : Nat} {cfg : Config w}

/-! ## The functions running on a thread -/

/-- A function of the library, and where it is. `own` says of a hook that the
library called it, `entry` is the flag it was called with, `saved` what
`ScopedDisableDebugCalls` is to restore. -/
inductive Frame (w : Nat)
  /-- A hook past `DebugCallsDisabled`, its guards not yet made. -/
  | entering (env : HookEnv w) (call : HookCall w) (own entry : Bool)
  /-- A hook with its guards; `tracked` after it has called the tracker. -/
  | hook (env : HookEnv w) (call : HookCall w) (own entry saved tracked : Bool)
  /-- `singal_dump_heap`, and the flag it came upon; `dumped` from its call of
  `debug_dump_heap` on. -/
  | handler (arrived dumped : Bool)
  | dumpEntering
  /-- `debug_dump_heap` with its guards. -/
  | dump (saved : Bool)
  /-- `debug_finalize` after `DebugDisableSet(true)`. -/
  | finalize

/-- The process, the library's functions on each thread, innermost first, and
the tracker calls made for hooks that the library called. -/
structure Nested (Tid : Type*) (w : Nat) where
  process : Process Tid w
  stack : Tid → List (Frame w)
  own : List (Call w)

def Nested.init (Tid : Type*) (w : Nat) : Nested Tid w :=
  { process := Process.init Tid w, stack := fun _ => [], own := [] }

def Nested.disabled (s : Nested Tid w) (t : Tid) : Bool := (s.process.thread t).disabled

/-- What happens on a thread. -/
inductive SelfAct (Tid : Type*) (w : Nat)
  /-- The code running calls an intercepted function. -/
  | call (t : Tid) (env : HookEnv w) (call : HookCall w)
  /-- `ScopedConcurrentLock` and `ScopedDisableDebugCalls` are made. -/
  | guard (t : Tid)
  /-- The hook calls the tracker and the system. -/
  | track (t : Tid)
  | ret (t : Tid)
  | signal (t : Tid)
  | dumpHeap (t : Tid)
  | dumpLive (t : Tid) (it : Iteration (Word w) (PointerInfoType w))
  | finalize (t : Tid)

variable [DecidableEq Tid]

def Nested.put (s : Nested Tid w) (t : Tid) (frames : List (Frame w)) : Nested Tid w :=
  { s with stack := Function.update s.stack t frames }

/-- `DebugDisableSet`. -/
def Nested.disableSet (cfg : Config w) (s : Nested Tid w) (t : Tid) (disable : Bool) : Nested Tid w :=
  { s with process := s.process.perform cfg (.disableSet t disable) }

def Nested.call (cfg : Config w) (s : Nested Tid w) (t : Tid) (env : HookEnv w) (call : HookCall w) : Nested Tid w :=
  if s.disabled t then { s with process := s.process.perform cfg (.call t env call) }
  else s.put t (.entering env call (!(s.stack t).isEmpty) (s.disabled t) :: s.stack t)

def Nested.guard (cfg : Config w) (s : Nested Tid w) (t : Tid) : Nested Tid w :=
  match s.stack t with
  | .entering env call own entry :: rest =>
    (s.disableSet cfg t true).put t (.hook env call own entry (s.disabled t) false :: rest)
  | .dumpEntering :: rest => (s.disableSet cfg t true).put t (.dump (s.disabled t) :: rest)
  | _ => s

/-- The hook's effect is that of the whole hook, called with calls enabled. -/
def Nested.track (cfg : Config w) (s : Nested Tid w) (t : Tid) : Nested Tid w :=
  match s.stack t with
  | .hook env call own entry saved false :: rest =>
    let enabled := s.process.perform cfg (.disableSet t false)
    { process := (enabled.perform cfg (.call t env call)).perform cfg (.disableSet t true)
      stack := Function.update s.stack t (.hook env call own entry saved true :: rest)
      own := s.own ++ if own then (enabled.view t).calls env call else [] }
  | _ => s

/-- The innermost function returns; `~ScopedDisableDebugCalls` restores the flag. -/
def Nested.ret (cfg : Config w) (s : Nested Tid w) (t : Tid) : Nested Tid w :=
  match s.stack t with
  | .hook _ _ _ _ saved _ :: rest => (s.disableSet cfg t saved).put t rest
  | .dump saved :: rest => (s.disableSet cfg t saved).put t rest
  | .handler _ _ :: rest => s.put t rest
  | .finalize :: rest => s.put t rest
  | _ => s

/-- `debug_dump_heap` is called. -/
def Nested.dumpHeap (s : Nested Tid w) (t : Tid) : Nested Tid w :=
  match s.stack t with
  | .handler arrived _ :: rest => s.put t (.dumpEntering :: .handler arrived true :: rest)
  | frames => s.put t (.dumpEntering :: frames)

def Nested.step (cfg : Config w) (s : Nested Tid w) : SelfAct Tid w → Nested Tid w
  | .call t env call => s.call cfg t env call
  | .guard t => s.guard cfg t
  | .track t => s.track cfg t
  | .ret t => s.ret cfg t
  | .signal t => s.put t (.handler (s.disabled t) false :: s.stack t)
  | .dumpHeap t => s.dumpHeap t
  | .dumpLive _ it => { s with process := s.process.perform cfg (.dump it) }
  | .finalize t => (s.disableSet cfg t true).put t (.finalize :: s.stack t)

def Nested.run (cfg : Config w) (acts : List (SelfAct Tid w)) : Nested Tid w :=
  acts.foldl (Nested.step cfg) (Nested.init Tid w)

theorem Nested.run_concat (cfg : Config w) (acts : List (SelfAct Tid w)) (act : SelfAct Tid w) :
    Nested.run cfg (acts ++ [act]) = (Nested.run cfg acts).step cfg act := by
  simp only [Nested.run, List.foldl_append, List.foldl_cons, List.foldl_nil]

/-! ## What the code can do -/

def Frame.isHandler : Frame w → Bool
  | .handler _ _ => true
  | _ => false

/-- Code runs that may call anything: the program's, or a function of the
library that is not between its first check and its guards. -/
def CanCall : List (Frame w) → Prop
  | .entering .. :: _ | .dumpEntering :: _ => False
  | _ => True

def CanGuard : List (Frame w) → Prop
  | .entering .. :: _ | .dumpEntering :: _ => True
  | _ => False

def CanTrack : List (Frame w) → Prop
  | .hook _ _ _ _ _ tracked :: _ => tracked = false
  | _ => False

def CanRet : List (Frame w) → Prop
  | .hook _ _ _ _ _ tracked :: _ => tracked = true
  | .dump _ :: _ | .finalize :: _ => True
  | .handler _ dumped :: _ => dumped = true
  | _ => False

/-- `debug_dump_heap` is called by the program's `checkpoint`, by the handler,
once, and by `debug_finalize`. -/
def CanDumpHeap : List (Frame w) → Prop
  | [] | .finalize :: _ => True
  | .handler _ dumped :: _ => dumped = false
  | _ => False

def CanDumpLive : List (Frame w) → Prop
  | .dump _ :: _ => True
  | _ => False

/-- The act is one of the code's. The signal is blocked while its handler runs. -/
def Possible (cfg : Config w) (s : Nested Tid w) : SelfAct Tid w → Prop
  | .call t _ _ => CanCall (s.stack t)
  | .guard t => CanGuard (s.stack t)
  | .track t => CanTrack (s.stack t)
  | .ret t => CanRet (s.stack t)
  | .signal t => cfg.has BACKTRACE = true ∧ ∀ frame ∈ s.stack t, frame.isHandler = false
  | .dumpHeap t => CanDumpHeap (s.stack t)
  | .dumpLive t _ => CanDumpLive (s.stack t)
  | .finalize t => s.stack t = []

/-! ## What is claimed and when it holds -/

/-- Nothing is changed but a thread's `errno`. -/
structure PassedThrough (p p' : Process Tid w) : Prop where
  pointer : p'.pointer = p.pointer
  inodeSet : p'.inodeSet = p.inodeSet
  disabled : ∀ t, (p'.thread t).disabled = (p.thread t).disabled
  gpuIoctlAlloc : ∀ t, (p'.thread t).gpuIoctlAlloc = (p.thread t).gpuIoctlAlloc

/-- A call of the library's own enters no hook and changes nothing, and the
outermost hook returns with the flag it was called with. -/
def Straight (cfg : Config w) (s : Nested Tid w) : SelfAct Tid w → Prop
  | .call t env call => s.stack t ≠ [] →
    (s.step cfg (.call t env call)).stack = s.stack ∧ PassedThrough s.process (s.step cfg (.call t env call)).process
  | .ret t => ∀ env call own entry saved tracked, s.stack t = [.hook env call own entry saved tracked] →
    (s.step cfg (.ret t)).disabled t = entry
  | _ => True

/-- Along `acts` the tool never records itself. -/
structure NeverRecordsItself (cfg : Config w) (acts : List (SelfAct Tid w)) : Prop where
  straight : Always (fun pre act => Straight cfg (Nested.run cfg pre) act) acts
  own : (Nested.run cfg acts).own = []

/-- The handler makes a call of its own only where the signal found calls
disabled. -/
def HandlerQuiet (s : Nested Tid w) : SelfAct Tid w → Prop
  | .call t _ _ => ∀ arrived dumped rest, s.stack t = .handler arrived dumped :: rest → arrived = true
  | _ => True

/-! ## The flag and the frames -/

/-- The flag is what the innermost function makes it, hooks are called by the
program, and what a guard saved is the flag of the functions around it. -/
def FlagsRight : Bool → List (Frame w) → Prop
  | _, [] => True
  | flag, .entering _ _ own entry :: rest => rest = [] ∧ own = false ∧ flag = entry
  | flag, .hook _ _ own entry saved _ :: rest => rest = [] ∧ own = false ∧ flag = true ∧ saved = entry
  | flag, .handler arrived _ :: rest => flag = arrived ∧ FlagsRight flag rest
  | flag, .dumpEntering :: rest => FlagsRight flag rest
  | flag, .dump saved :: rest => flag = true ∧ FlagsRight saved rest
  | flag, .finalize :: rest => rest = [] ∧ flag = true

structure AllRight (s : Nested Tid w) : Prop where
  flags : ∀ t, FlagsRight (s.disabled t) (s.stack t)
  own : s.own = []

variable {s : Nested Tid w} {t : Tid}

@[simp] theorem put_disabled (t : Tid) (frames : List (Frame w)) : (s.put t frames).disabled = s.disabled := rfl

@[simp] theorem put_stack (t : Tid) (frames : List (Frame w)) :
    (s.put t frames).stack = Function.update s.stack t frames := rfl

@[simp] theorem disableSet_disabled (t : Tid) (disable : Bool) :
    (s.disableSet cfg t disable).disabled = Function.update s.disabled t disable := by
  funext t'
  simp only [Nested.disabled, Nested.disableSet, Process.perform, Function.update_apply]
  split
  · rfl
  · rfl

/-- With calls disabled a call changes nothing. -/
theorem call_passedThrough (htrack : cfg.trackPointers = true) {p : Process Tid w} (hd : (p.thread t).disabled = true)
    (env : HookEnv w) (call : HookCall w) : PassedThrough p (p.perform cfg (.call t env call)) := by
  have hdid := call_did htrack env (p.view t) call
  have hdis : (p.view t).disabled = true := hd
  simp only [HookState.calls, HookState.flagAfter, HookState.inodesAfter, HookState.shows, hdis, if_true,
    Option.bind_none] at hdid
  refine ⟨hdid.pointer, hdid.inodeSet, fun t' => ?_, fun t' => ?_⟩
  · simp only [Process.perform, Function.update_apply]
    split
    · next hq => rw [hq]; exact hdid.disabled
    · rfl
  · simp only [Process.perform, Function.update_apply]
    split
    · next hq => rw [hq]; exact hdid.gpuIoctlAlloc
    · rfl

omit [DecidableEq Tid] in
/-- Where the library's own code may call, calls are disabled. -/
theorem FlagsRight.disabled_of_own {flag : Bool} {frames : List (Frame w)} (h : FlagsRight flag frames)
    (hcan : CanCall frames) (hown : frames ≠ [])
    (hquiet : ∀ arrived dumped rest, frames = .handler arrived dumped :: rest → arrived = true) : flag = true := by
  cases frames with
  | nil => exact absurd rfl hown
  | cons frame rest =>
    cases frame with
    | entering env call own entry => exact hcan.elim
    | hook env call own entry saved tracked => exact h.2.2.1
    | handler arrived dumped => exact h.1.trans (hquiet arrived dumped rest rfl)
    | dumpEntering => exact hcan.elim
    | dump saved => exact h.1
    | finalize => exact h.2

/-- An act of one thread leaves the others as they were. -/
theorem AllRight.update (hs : AllRight s) {flag : Bool} {frames : List (Frame w)} (h : FlagsRight flag frames)
    {s' : Nested Tid w} (hdisabled : s'.disabled = Function.update s.disabled t flag)
    (hstack : s'.stack = Function.update s.stack t frames) (hown : s'.own = []) : AllRight s' := by
  refine ⟨fun t' => ?_, hown⟩
  rw [hdisabled, hstack]
  by_cases ht : t' = t
  · rw [ht, Function.update_self, Function.update_self]
    exact h
  · rw [Function.update_of_ne ht, Function.update_of_ne ht]
    exact hs.flags t'

/-- The library's frames change on one thread, the flag on none. -/
theorem AllRight.put (hs : AllRight s) {frames : List (Frame w)} (h : FlagsRight (s.disabled t) frames) :
    AllRight (s.put t frames) :=
  hs.update h (Function.update_eq_self t s.disabled).symm rfl hs.own

/-- The frames and the flag change on one thread. -/
theorem AllRight.set (hs : AllRight s) {flag : Bool} {frames : List (Frame w)} (h : FlagsRight flag frames) :
    AllRight ((s.disableSet cfg t flag).put t frames) :=
  hs.update h (by simp) rfl hs.own

theorem AllRight.call (htrack : cfg.trackPointers = true) (hs : AllRight s) (env : HookEnv w) (call : HookCall w)
    (hown : s.stack t ≠ [] → s.disabled t = true) : AllRight (s.call cfg t env call) := by
  unfold Nested.call
  split
  · next hd =>
    have hsame := (call_passedThrough htrack hd env call).disabled
    refine ⟨fun t' => ?_, hs.own⟩
    have hq : Nested.disabled { s with process := s.process.perform cfg (.call t env call) } t' = s.disabled t' :=
      hsame t'
    rw [hq]
    exact hs.flags t'
  · next hd =>
    have hempty : s.stack t = [] := by
      by_contra hne
      exact hd (hown hne)
    rw [hempty]
    exact hs.put ⟨rfl, rfl, rfl⟩

theorem AllRight.guard (hs : AllRight s) (hcan : CanGuard (s.stack t)) : AllRight (s.guard cfg t) := by
  have hf := hs.flags t
  unfold Nested.guard
  cases hstack : s.stack t with
  | nil => rw [hstack] at hcan; exact hcan.elim
  | cons frame rest =>
    rw [hstack] at hcan hf
    cases frame with
    | entering env call own entry =>
      obtain ⟨hrest, hown, hflag⟩ := hf
      exact hs.set ⟨hrest, hown, rfl, hflag⟩
    | dumpEntering => exact hs.set ⟨rfl, hf⟩
    | _ => exact hcan.elim

theorem AllRight.track (hs : AllRight s) (hcan : CanTrack (s.stack t)) : AllRight (s.track cfg t) := by
  have hf := hs.flags t
  unfold Nested.track
  cases hstack : s.stack t with
  | nil => rw [hstack] at hcan; exact hcan.elim
  | cons frame rest =>
    rw [hstack] at hcan hf
    cases frame with
    | hook env call own entry saved tracked =>
      obtain rfl : tracked = false := hcan
      obtain ⟨hrest, hown, hflag, hsaved⟩ := hf
      have hright : FlagsRight true (Frame.hook env call own entry saved true :: rest) := ⟨hrest, hown, rfl, hsaved⟩
      refine hs.update hright ?_ rfl ?_
      · funext t'
        by_cases ht : t' = t
        · simp [Nested.disabled, Process.perform, ht]
        · simp [Nested.disabled, Process.perform, ht]
      · rw [hown, hs.own]
        rfl
    | _ => exact hcan.elim

theorem AllRight.ret (hs : AllRight s) (hcan : CanRet (s.stack t)) : AllRight (s.ret cfg t) := by
  have hf := hs.flags t
  unfold Nested.ret
  cases hstack : s.stack t with
  | nil => rw [hstack] at hcan; exact hcan.elim
  | cons frame rest =>
    rw [hstack] at hcan hf
    cases frame with
    | hook env call own entry saved tracked =>
      obtain ⟨rfl, -⟩ := hf
      exact hs.set trivial
    | dump saved => exact hs.set hf.2
    | handler arrived dumped => exact hs.put hf.2
    | finalize =>
      obtain ⟨rfl, -⟩ := hf
      exact hs.put trivial
    | _ => exact hcan.elim

theorem AllRight.dumpHeap (hs : AllRight s) (hcan : CanDumpHeap (s.stack t)) : AllRight (s.dumpHeap t) := by
  have hf := hs.flags t
  unfold Nested.dumpHeap
  cases hstack : s.stack t with
  | nil => exact hs.put trivial
  | cons frame rest =>
    rw [hstack] at hcan hf
    cases frame with
    | handler arrived dumped => exact hs.put hf
    | finalize => exact hs.put hf
    | _ => exact hcan.elim

/-- A quiet act of the code keeps the flags and the frames right. -/
theorem AllRight.step (htrack : cfg.trackPointers = true) (hs : AllRight s) {act : SelfAct Tid w}
    (hcan : Possible cfg s act) (hquiet : HandlerQuiet s act) : AllRight (s.step cfg act) := by
  cases act with
  | call t env call => exact hs.call htrack env call fun hown => (hs.flags t).disabled_of_own hcan hown hquiet
  | guard t => exact hs.guard hcan
  | track t => exact hs.track hcan
  | ret t => exact hs.ret hcan
  | signal t => exact hs.put ⟨rfl, hs.flags t⟩
  | dumpHeap t => exact hs.dumpHeap hcan
  | dumpLive t it => exact ⟨hs.flags, hs.own⟩
  | finalize t =>
    have hempty : s.stack t = [] := hcan
    show AllRight ((s.disableSet cfg t true).put t (.finalize :: s.stack t))
    exact hs.set ⟨hempty, rfl⟩

/-- Where flags and frames are right, an act goes straight through just when
it is quiet. -/
theorem AllRight.straight_iff (htrack : cfg.trackPointers = true) (hs : AllRight s) {act : SelfAct Tid w}
    (hcan : Possible cfg s act) : Straight cfg s act ↔ HandlerQuiet s act := by
  cases act with
  | call t env call =>
    constructor
    · intro hstraight arrived dumped rest hstack
      have hflag : s.disabled t = arrived := by
        have hf := hs.flags t
        rw [hstack] at hf
        exact hf.1
      by_contra harrived
      have hq := (hstraight (by rw [hstack]; simp)).1
      have hd : ¬ s.disabled t = true := by rwa [hflag]
      simp only [Nested.step, Nested.call, if_neg hd, put_stack] at hq
      have hlength := congrArg List.length (congrFun hq t)
      rw [Function.update_self, List.length_cons] at hlength
      omega
    · intro hquiet hown
      have hd := (hs.flags t).disabled_of_own hcan hown hquiet
      simp only [Nested.step, Nested.call, if_pos hd, true_and]
      exact call_passedThrough htrack hd env call
  | ret t =>
    refine iff_of_true (fun env call own entry saved tracked hstack => ?_) trivial
    have hf := hs.flags t
    rw [hstack] at hf
    simp only [Nested.step, Nested.ret, hstack, put_disabled, disableSet_disabled, Function.update_self]
    exact hf.2.2.2
  | _ => exact Iff.rfl

/-! ## Runs -/

theorem allRight_run (htrack : cfg.trackPointers = true) {acts : List (SelfAct Tid w)}
    (h : Always (fun pre act => Possible cfg (Nested.run cfg pre) act) acts)
    (hquiet : Always (fun pre act => HandlerQuiet (Nested.run cfg pre) act) acts) :
    AllRight (Nested.run cfg acts) := by
  induction acts using List.reverseRecOn with
  | nil => exact ⟨fun _ => trivial, rfl⟩
  | append_singleton acts act ih =>
    obtain ⟨hcan, hbefore⟩ := always_concat.mp h
    obtain ⟨hq, hqbefore⟩ := always_concat.mp hquiet
    rw [Nested.run_concat]
    exact (ih hbefore hqbefore).step htrack hcan hq

/-- **The tool and its own calls.** At every point of a run on any threads the
library's own calls have changed nothing, no hook has returned with another
flag than it was called with, and no block of the library's own is recorded, if
and only if the handler makes no call of its own except where the signal found
calls disabled. -/
theorem self_calls_iff (getenv : Environ) (acts : List (SelfAct Tid w))
    (h : Always (fun pre act => Possible (Config.init w getenv) (Nested.run (Config.init w getenv) pre) act) acts) :
    (∀ pre, pre <+: acts → NeverRecordsItself (Config.init w getenv) pre) ↔
      Always (fun pre act => HandlerQuiet (Nested.run (Config.init w getenv) pre) act) acts := by
  have htrack := init_trackPointers w getenv
  refine prefixes_iff_always ⟨always_nil, rfl⟩ fun pre act hp hx hquiet => ?_
  obtain ⟨hcan, hbefore⟩ := always_concat.mp (h.mono hp)
  have hright := allRight_run htrack hbefore hquiet
  constructor
  · intro hnext
    exact (hright.straight_iff htrack hcan).mp (always_concat.mp hnext.straight).1
  · intro hq
    refine ⟨always_concat.mpr ⟨(hright.straight_iff htrack hcan).mpr hq, hx.straight⟩, ?_⟩
    exact (allRight_run htrack (h.mono hp) (always_concat.mpr ⟨hq, hquiet⟩)).own

/-! ## A signal in a hook and one outside -/

/-- A hook on a system with memory at `0x7f0000000000`. -/
def memoryEnv : HookEnv 64 :=
  .plain { System.exhausted 64 with malloc := fun _ => { result := 0x7f0000000000, errno := 0 } }

/-- The program allocates; the hook allocates, and so does the handler of a
signal that comes while it runs. -/
def signalInHook : List (SelfAct Unit 64) :=
  [.call () memoryEnv (.malloc 4096), .guard (), .call () memoryEnv (.malloc 64), .signal (),
    .call () memoryEnv (.malloc 48)]

theorem self_calls_iff_signalInHook : NeverRecordsItself (Config.init 64 ⟨none, none⟩) signalInHook := by
  refine (self_calls_iff ⟨none, none⟩ signalInHook ?_).mpr ?_ _ List.prefix_rfl
  · refine always_cons.mpr ⟨trivial, always_cons.mpr ⟨trivial, always_cons.mpr ⟨trivial, always_cons.mpr ⟨⟨rfl, ?_⟩,
      always_cons.mpr ⟨trivial, always_nil⟩⟩⟩⟩⟩
    intro frame hframe
    obtain rfl := List.mem_singleton.mp hframe
    rfl
  · refine always_cons.mpr ⟨nofun, always_cons.mpr ⟨trivial, always_cons.mpr ⟨nofun, always_cons.mpr ⟨trivial,
      always_cons.mpr ⟨?_, always_nil⟩⟩⟩⟩⟩
    intro arrived dumped rest hstack
    cases hstack
    rfl

/-- The signal comes to a thread that is in no hook, and its handler allocates
the name of the file. -/
def signalOutsideHook : List (SelfAct Unit 64) :=
  [.signal (), .call () memoryEnv (.malloc 48), .guard (), .track ()]

/-- The name is recorded like a block of the program. -/
theorem signalOutsideHook_records :
    Always (fun pre act => Possible (Config.init 64 ⟨none, none⟩) (Nested.run (Config.init 64 ⟨none, none⟩) pre) act)
      signalOutsideHook ∧
    ¬ NeverRecordsItself (Config.init 64 ⟨none, none⟩) signalOutsideHook := by
  refine ⟨always_cons.mpr ⟨⟨rfl, fun _ hframe => absurd hframe List.not_mem_nil⟩, always_cons.mpr ⟨trivial,
    always_cons.mpr ⟨trivial, always_cons.mpr ⟨rfl, always_nil⟩⟩⟩⟩, fun h => ?_⟩
  have hown : (Nested.run (Config.init 64 ⟨none, none⟩) signalOutsideHook).own.length = 1 := by decide
  rw [h.own] at hown
  cases hown

end AllocHook
