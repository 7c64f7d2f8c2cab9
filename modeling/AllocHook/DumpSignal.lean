/-
The dump signal and the locks.

A hook holds `lock_` for reading and calls `Add` and `Remove`, which take
`pointer_mutex_` and `frame_mutex_`, the second within the first if both. The
signal runs `singal_dump_heap` on whatever thread it comes to, between any two
steps of a hook, and `DumpLiveToFile` takes both mutexes.

`dump_signal_safe`: while every signal comes to a thread that holds neither
mutex, no thread asks for a mutex it holds and no threads wait in a circle.
`signal_relocks`: a signal to a thread that holds one of them, whose handler
opens its file, leads the thread to ask for it again.
-/
import AllocHook.Lib.LockOrder

namespace AllocHook

open LockOrder

/-! ## The locks and their order in the source -/

inductive LockName
  | lock
  | pointerMutex
  | frameMutex
  deriving DecidableEq

/-- `lock_` is taken for reading only and never waited for: `debug_finalize`,
which takes it for writing, is not among these steps. -/
def LockName.exclusive : LockName → Bool
  | .lock => false
  | .pointerMutex | .frameMutex => true

/-- `frame_mutex_` within `pointer_mutex_`. -/
def LockName.rank : LockName → ℕ
  | .lock => 0
  | .pointerMutex => 1
  | .frameMutex => 2

/-- The ways through `Add`: out at the exit function, or to the entry, with a
stack or without, and with a peak to list or without. -/
inductive AddPath
  | exitFunction
  | recorded (stack newPeak : Bool)

/-- The ways through `Remove`: nothing tracked, or an entry with or without a
stack. -/
inductive RemovePath
  | untracked
  | tracked (stack : Bool)

inductive TrackerCall
  | add (path : AddPath)
  | remove (path : RemovePath)

/-- `AddBacktrace`, when it has a stack, and `RemoveBacktrace`, for one. -/
def backtraceLocks (stack : Bool) : List (Instr LockName) :=
  if stack then [.acquire .frameMutex, .release .frameMutex] else []

/-- `Add`; the guard on `pointer_mutex_` lives to its end. -/
def addLocks : AddPath → List (Instr LockName)
  | .exitFunction => []
  | .recorded stack newPeak =>
    backtraceLocks stack ++
      if newPeak then [.acquire .pointerMutex, .acquire .frameMutex, .release .frameMutex, .release .pointerMutex]
      else [.acquire .pointerMutex, .release .pointerMutex]

/-- `Remove`; the guard on `pointer_mutex_` is in a block of its own. -/
def removeLocks : RemovePath → List (Instr LockName)
  | .untracked => [.acquire .pointerMutex, .release .pointerMutex]
  | .tracked stack => [.acquire .pointerMutex, .release .pointerMutex] ++ backtraceLocks stack

def TrackerCall.locks : TrackerCall → List (Instr LockName)
  | .add path => addLocks path
  | .remove path => removeLocks path

/-- A hook that gets past `DebugCallsDisabled`, with the tracker calls it makes. -/
def hookLocks (calls : List TrackerCall) : List (Instr LockName) :=
  .acquire .lock :: calls.flatMap TrackerCall.locks ++ [.release .lock]

def dumpLiveToFileLocks : List (Instr LockName) :=
  [.acquire .pointerMutex, .acquire .frameMutex, .release .frameMutex, .release .pointerMutex]

/-- `debug_dump_heap`, whether or not it can open its file. -/
def debugDumpHeapLocks (opened : Bool) : List (Instr LockName) :=
  .acquire .lock :: (if opened then dumpLiveToFileLocks else []) ++ [.release .lock]

/-- `singal_dump_heap`: the hooks that formatting the name runs into, when calls
are enabled, `debug_dump_heap`, and the hooks that freeing the name does. -/
def singalDumpHeapLocks (formatting : List (List TrackerCall)) (opened : Bool) (freeing : List (List TrackerCall)) :
    List (Instr LockName) :=
  formatting.flatMap hookLocks ++ debugDumpHeapLocks opened ++ freeing.flatMap hookLocks

/-! ## The threads -/

variable {Tid : Type*} [DecidableEq Tid]

abbrev Threads (Tid : Type*) := Tid → Thread LockName

def Threads.init (Tid : Type*) : Threads Tid := fun _ => { held := 0, code := [] }

/-- A thread calls a hook, goes on by one lock step, or gets the signal. -/
inductive LockAct (Tid : Type*)
  | hook (t : Tid) (calls : List TrackerCall)
  | exec (t : Tid)
  | signal (t : Tid) (formatting : List (List TrackerCall)) (opened : Bool) (freeing : List (List TrackerCall))

/-- The handler runs to its end before the thread resumes what it was at. -/
inductive LockStep (s : Threads Tid) : LockAct Tid → Threads Tid → Prop
  | hook {t} (calls) (hout : (s t).code = []) :
    LockStep s (.hook t calls) (Function.update s t { s t with code := hookLocks calls })
  | exec {t s'} (h : Exec LockName.exclusive s t s') : LockStep s (.exec t) s'
  | signal (t formatting opened freeing) :
    LockStep s (.signal t formatting opened freeing)
      (Function.update s t { s t with code := singalDumpHeapLocks formatting opened freeing ++ (s t).code })

/-- Reached by steps that all are as `C` says. -/
inductive Ran (C : Threads Tid → LockAct Tid → Prop) : Threads Tid → Prop
  | init : Ran C (Threads.init Tid)
  | step {s act s'} (hs : Ran C s) (h : LockStep s act s') (hc : C s act) : Ran C s'

/-- No thread asks for a mutex it holds, and none waits, through others, for
itself. -/
structure LockSafe (s : Threads Tid) : Prop where
  noRelock : ∀ t l, l.exclusive = true → Asks s t l → l ∉ (s t).held
  noCycle : ∀ t, ¬ Relation.TransGen (WaitsFor LockName.exclusive s) t t

/-- A signal comes only to a thread that holds neither mutex. -/
def SignalOutside (s : Threads Tid) : LockAct Tid → Prop
  | .signal t _ _ _ => LockName.pointerMutex ∉ (s t).held ∧ LockName.frameMutex ∉ (s t).held
  | .hook _ _ | .exec _ => True

/-! ## The order is kept -/

theorem clean_backtraceLocks (stack : Bool) : Clean LockName.exclusive LockName.rank (backtraceLocks stack) := by
  cases stack with
  | false => exact .nil
  | true => exact .one _

theorem clean_tracker (call : TrackerCall) : Clean LockName.exclusive LockName.rank call.locks := by
  have hnested : LockName.rank .pointerMutex < LockName.rank .frameMutex := by decide
  cases call with
  | add path =>
    cases path with
    | exitFunction => exact .nil
    | recorded stack newPeak =>
      cases newPeak with
      | false => exact (clean_backtraceLocks stack).append (.one _)
      | true => exact (clean_backtraceLocks stack).append (.nested hnested)
  | remove path =>
    cases path with
    | untracked => exact .one _
    | tracked stack => exact (Clean.one _).append (clean_backtraceLocks stack)

theorem clean_hook (calls : List TrackerCall) : Clean LockName.exclusive LockName.rank (hookLocks calls) :=
  Clean.shared rfl (.flatMap fun call _ => clean_tracker call)

theorem clean_debugDumpHeap (opened : Bool) : Clean LockName.exclusive LockName.rank (debugDumpHeapLocks opened) := by
  refine Clean.shared rfl ?_
  cases opened with
  | false => exact .nil
  | true => exact .nested (by decide)

theorem clean_singalDumpHeap (formatting : List (List TrackerCall)) (opened : Bool)
    (freeing : List (List TrackerCall)) :
    Clean LockName.exclusive LockName.rank (singalDumpHeapLocks formatting opened freeing) := by
  have hhooks (calls : List (List TrackerCall)) : Clean LockName.exclusive LockName.rank (calls.flatMap hookLocks) :=
    Clean.flatMap fun calls _ => clean_hook calls
  exact ((hhooks formatting).append (clean_debugDumpHeap opened)).append (hhooks freeing)

theorem inOrder_of_ran {s : Threads Tid} (hs : Ran SignalOutside s) : InOrder LockName.exclusive LockName.rank s := by
  induction hs with
  | init => exact ⟨fun _ => trivial, fun _ => rfl⟩
  | @step s act s' _ h hc ih =>
    cases h with
    | @hook t calls hout =>
      have hcode : (hookLocks calls : List (Instr LockName)) = hookLocks calls ++ (s t).code := by
        rw [hout, List.append_nil]
      rw [hcode]
      refine ih.interrupt (fun l hl => ?_) (clean_hook calls)
      rw [ih.held_of_idle hout] at hl
      exact absurd hl (Multiset.notMem_zero l)
    | exec he => exact ih.exec he
    | signal t formatting opened freeing =>
      refine ih.interrupt (fun l hl => ?_) (clean_singalDumpHeap formatting opened freeing)
      cases l with
      | lock => rfl
      | pointerMutex => exact absurd hl hc.1
      | frameMutex => exact absurd hl hc.2

/-- **The dump signal.** In every state of a run in which each signal comes to
a thread that holds neither mutex, no thread asks for a mutex it holds and no
threads wait in a circle. -/
theorem dump_signal_safe {s : Threads Tid} (hs : Ran SignalOutside s) : LockSafe s :=
  ⟨fun _ _ hx ha => not_waits_of_held (inOrder_of_ran hs) hx ha, fun _ => not_cycle (inOrder_of_ran hs)⟩

/-! ## A signal within a critical section -/

theorem Ran.all {C : Threads Tid → LockAct Tid → Prop} {s : Threads Tid} (hs : Ran C s) :
    Ran (fun _ _ => True) s := by
  induction hs with
  | init => exact .init
  | step _ h _ ih => exact ih.step h trivial

/-- The thread takes the lock before it. -/
theorem Ran.acquire {s : Threads Tid} (hs : Ran (fun _ _ => True) s) {t : Tid} {l : LockName}
    {c : List (Instr LockName)} (hcode : (s t).code = .acquire l :: c)
    (hfree : l.exclusive = true → ∀ t', l ∉ (s t').held) :
    Ran (fun _ _ => True) (Function.update s t { held := l ::ₘ (s t).held, code := c }) :=
  hs.step (.exec (.acquire hcode hfree)) trivial

/-- A signal comes to a thread that holds a mutex, no other thread holds
`pointer_mutex_`, and the handler opens its file: the thread comes to ask for a
mutex it holds. -/
theorem signal_relocks {C : Threads Tid → LockAct Tid → Prop} {s : Threads Tid} (hs : Ran C s) {t : Tid}
    (hheld : LockName.pointerMutex ∈ (s t).held ∨ LockName.frameMutex ∈ (s t).held)
    (hothers : ∀ t', t' ≠ t → LockName.pointerMutex ∉ (s t').held) :
    ∃ s' : Threads Tid, Ran (fun _ _ => True) s' ∧ ∃ l, l.exclusive = true ∧ Asks s' t l ∧ l ∈ (s' t).held := by
  -- What `debug_dump_heap` is to do when it has `lock_`.
  let rest : List (Instr LockName) :=
    .acquire .frameMutex :: .release .frameMutex :: .release .pointerMutex :: .release .lock :: (s t).code
  have h₁ := hs.all.step (.signal t [] true []) trivial
  have h₂ := h₁.acquire (t := t) (l := .lock) (c := .acquire .pointerMutex :: rest)
    (by rw [Function.update_self]; rfl) nofun
  rw [Function.update_self, Function.update_idem] at h₂
  by_cases hpointer : LockName.pointerMutex ∈ (s t).held
  · refine ⟨_, h₂, .pointerMutex, rfl, ⟨rest, by rw [Function.update_self]⟩, ?_⟩
    rw [Function.update_self]
    exact Multiset.mem_cons_of_mem hpointer
  · have h₃ := h₂.acquire (t := t) (l := .pointerMutex) (c := rest) (by rw [Function.update_self]) fun _ t' => by
      rw [Function.update_apply]
      split
      · simp [hpointer]
      · next hne => exact hothers t' hne
    rw [Function.update_self, Function.update_idem] at h₃
    refine ⟨_, h₃, .frameMutex, rfl, ⟨_, by rw [Function.update_self]⟩, ?_⟩
    rw [Function.update_self]
    exact Multiset.mem_cons_of_mem (Multiset.mem_cons_of_mem (hheld.resolve_left hpointer))

/-- A signal between the calls of a hook, on a thread with `lock_` alone. -/
theorem dump_signal_safe_betweenCalls : ∃ s : Threads Unit,
    (∀ l, l.exclusive = true → Asks s () l → l ∉ (s ()).held) ∧ (s ()).held = {LockName.lock} ∧
      (s ()).code = singalDumpHeapLocks [] true [] ++ [.acquire .frameMutex, .release .frameMutex,
        .acquire .pointerMutex, .release .pointerMutex, .release .lock] := by
  have hinit : Ran SignalOutside (Threads.init Unit) := .init
  have h₁ := hinit.step (.hook (t := ()) [.add (.recorded true false)] rfl) trivial
  have h₂ := h₁.step (.exec (t := ()) (.acquire (l := .lock) rfl nofun)) trivial
  have h₃ := h₂.step (.signal () [] true []) ⟨by decide, by decide⟩
  exact ⟨_, (dump_signal_safe h₃).noRelock (), rfl, rfl⟩

/-- A signal in `AddBacktrace`: the handler comes to ask for `frame_mutex_`,
which the thread holds. -/
theorem signal_in_addBacktrace : ∃ s : Threads Unit, Ran (fun _ _ => True) s ∧ ¬ LockSafe s := by
  have hinit : Ran (fun _ _ => True) (Threads.init Unit) := .init
  have h₁ := hinit.step (.hook (t := ()) [.add (.recorded true false)] rfl) trivial
  have h₂ := h₁.acquire (t := ()) (l := .lock) rfl nofun
  have h₃ := h₂.acquire (t := ()) (l := .frameMutex) rfl fun _ t' => by
    cases t'
    decide
  obtain ⟨s, hs, l, hx, ha, hm⟩ := signal_relocks h₃ (t := ()) (.inr (by decide)) fun t' hne => absurd rfl hne
  exact ⟨s, hs, fun h => h.noRelock () l hx ha hm⟩

end AllocHook
