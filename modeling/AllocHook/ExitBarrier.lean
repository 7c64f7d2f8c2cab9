/-
`debug_finalize` and the threads that are still running.

`BlockAllOperations` takes `lock_` for writing, to keep it: every hook takes it
for reading first, so no other thread should come to the tracker again. But the
exit dump is made by `debug_dump_heap`, whose `ScopedConcurrentLock` asks for a
read lock, is refused, and unlocks all the same: the unlock of the writer, and
the threads that wait in their hooks go on.

`exit_barrier_iff`: the barrier holds, and what the exit dump and
`DumpPeakInfo` describe is the tracker as it was when the threads were blocked,
if and only if no dump is made at exit.
-/
import AllocHook.Dumps
import AllocHook.Sections
import AllocHook.Lib.RwLock

namespace AllocHook

open FiniteMap SharedStore

variable {w : Nat} {cfg : Config w} {Tid : Type*}

/-! ## The threads and `debug_finalize` -/

/-- Where a thread is in a hook. -/
inductive HookPoint
  | outside
  /-- Calls are enabled; about to take `lock_`. -/
  | entering
  /-- With its read lock, calling the tracker. -/
  | inside
  deriving DecidableEq

/-- Where `debug_finalize` is. -/
inductive Finalize
  | notCalled
  /-- At `BlockAllOperations`. -/
  | blocking
  | blocked
  /-- After `DebugDisableSet(true)`. -/
  | disabled
  /-- In `debug_dump_heap`, its guards made. -/
  | dumpHeap
  /-- At the end of `debug_dump_heap`, its guards not yet destroyed. -/
  | dumped
  /-- At `DumpPeakInfo`. -/
  | peakInfo
  | returned
  deriving DecidableEq

/-- `BlockAllOperations` has returned. -/
def Finalize.past : Finalize → Bool
  | .notCalled | .blocking => false
  | _ => true

/-- `lock_`, the tracker with the threads in it, where each thread is, and
where `debug_finalize` is. `atBarrier` is the tracker when `BlockAllOperations`
returned, `described` what the exit dump and `DumpPeakInfo` have seen. -/
structure Exiting (Tid : Type*) (w : Nat) where
  lock : RwLock Tid
  tracker : Sections Tid w
  point : Tid → HookPoint
  finalize : Finalize
  atBarrier : Option (PointerData w)
  described : List (PointerData w)

def Exiting.init (Tid : Type*) (w : Nat) : Exiting Tid w :=
  { lock := RwLock.init Tid
    tracker := Sections.init Tid w
    point := fun _ => .outside
    finalize := .notCalled
    atBarrier := none
    described := [] }

/-- The steps of a hook, and those of `debug_finalize`. -/
inductive ExitAct (w : Nat)
  | enter | lock | tracker (sec : Section w) | leave
  | finalize | block | disableSet | dumpHeap | openFails | dumpLive | endDump | skipDump | peakInfo | skipPeakInfo

/-- `debug_finalize` makes a dump. -/
def Config.dumpsOnExit (cfg : Config w) : Bool := cfg.has BACKTRACE && cfg.backtraceDumpOnExit

/-- Under the configurations of `Config::Init`: when `DUMP_PEAK_VALUE_MB` is a number. -/
theorem init_dumpsOnExit (w : Nat) (getenv : Environ) :
    (Config.init w getenv).dumpsOnExit = (parseValue w getenv.dumpPeakValueMb).1 := by
  rw [Config.dumpsOnExit, init_backtrace, Bool.true_and]
  rfl

variable [DecidableEq Tid]

/-- One step of thread `t`, `exiter` being the thread that finalizes. -/
inductive ExitStep (cfg : Config w) (exiter : Tid) (s : Exiting Tid w) : Tid → ExitAct w → Exiting Tid w → Prop
  | enter {t} (hat : s.point t = .outside) (henabled : t = exiter → s.finalize = .notCalled) :
    ExitStep cfg exiter s t .enter { s with point := Function.update s.point t .entering }
  | lock {t lock} (hat : s.point t = .entering) (hlock : s.lock.rdlock t = some lock) :
    ExitStep cfg exiter s t .lock { s with lock, point := Function.update s.point t .inside }
  | tracker {t sec tracker} (hat : s.point t = .inside) (hstep : Step cfg s.tracker t sec tracker) :
    ExitStep cfg exiter s t (.tracker sec) { s with tracker }
  | leave {t} (hat : s.point t = .inside) (hidle : s.tracker.threads t = .idle) :
    ExitStep cfg exiter s t .leave
      { s with lock := s.lock.unlock t, point := Function.update s.point t .outside }
  | finalize (hat : s.finalize = .notCalled) (hout : s.point exiter = .outside) :
    ExitStep cfg exiter s exiter .finalize { s with finalize := .blocking }
  | block {lock} (hat : s.finalize = .blocking) (hlock : s.lock.wrlock exiter = some lock) :
    ExitStep cfg exiter s exiter .block
      { s with lock, finalize := .blocked, atBarrier := some s.tracker.data }
  | disableSet (hat : s.finalize = .blocked) : ExitStep cfg exiter s exiter .disableSet { s with finalize := .disabled }
  | skipDump (hat : s.finalize = .disabled) (hdump : cfg.dumpsOnExit = false) :
    ExitStep cfg exiter s exiter .skipDump { s with finalize := .peakInfo }
  -- The guard's constructor does not look at what `pthread_rwlock_rdlock` returns.
  | dumpHeap {lock} (hat : s.finalize = .disabled) (hdump : cfg.dumpsOnExit = true)
    (hlock : s.lock.rdlock exiter = some lock) :
    ExitStep cfg exiter s exiter .dumpHeap { s with lock, finalize := .dumpHeap }
  | openFails (hat : s.finalize = .dumpHeap) : ExitStep cfg exiter s exiter .openFails { s with finalize := .dumped }
  | dumpLive {it tracker} (hat : s.finalize = .dumpHeap) (hstep : Step cfg s.tracker exiter (.dump it) tracker) :
    ExitStep cfg exiter s exiter .dumpLive
      { s with tracker, finalize := .dumped, described := s.tracker.data :: s.described }
  | endDump (hat : s.finalize = .dumped) :
    ExitStep cfg exiter s exiter .endDump { s with lock := s.lock.unlock exiter, finalize := .peakInfo }
  | peakInfo (hat : s.finalize = .peakInfo) (htrack : cfg.trackPointers = true) (hfree : s.tracker.PointerFree) :
    ExitStep cfg exiter s exiter .peakInfo
      { s with finalize := .returned, described := s.tracker.data :: s.described }
  | skipPeakInfo (hat : s.finalize = .peakInfo) (htrack : cfg.trackPointers = false) :
    ExitStep cfg exiter s exiter .skipPeakInfo { s with finalize := .returned }

/-- Reached by steps of any threads in any order. -/
inductive Exited (cfg : Config w) (exiter : Tid) : Exiting Tid w → Prop
  | init : Exited cfg exiter (Exiting.init Tid w)
  | step {s t act s'} (hs : Exited cfg exiter s) (h : ExitStep cfg exiter s t act s') : Exited cfg exiter s'

/-- One tracker, but for the peak's list, which a dump takes. -/
def SameTracker (d d' : PointerData w) : Prop := { d with peakList := [] } = { d' with peakList := [] }

/-- From the barrier on no other thread calls the tracker, and all that is
described is the tracker at the barrier. -/
structure ExitBarrier (cfg : Config w) (exiter : Tid) : Prop where
  blocked : ∀ s : Exiting Tid w, Exited cfg exiter s → s.finalize.past = true → ∀ t, t ≠ exiter →
    ∀ sec s', ¬ ExitStep cfg exiter s t (.tracker sec) s'
  same : ∀ s : Exiting Tid w, Exited cfg exiter s → ∀ d ∈ s.described, ∃ b, s.atBarrier = some b ∧ SameTracker b d

/-! ## Without an exit dump -/

/-- The write lock is kept from the barrier on, and nothing moves. -/
structure Barred (exiter : Tid) (s : Exiting Tid w) : Prop where
  exclusive : s.lock.Exclusive
  inside : ∀ t, s.point t = .inside → t ∈ s.lock.readers
  writer : s.lock.writer = if s.finalize.past then some exiter else none
  outside : s.finalize ≠ .notCalled → s.point exiter = .outside
  noDump : s.finalize ≠ .dumpHeap ∧ s.finalize ≠ .dumped
  atBarrier : s.finalize.past = true → s.atBarrier = some s.tracker.data
  described : ∀ d ∈ s.described, s.finalize.past = true ∧ s.tracker.data = d

omit [DecidableEq Tid] in
theorem Barred.init (exiter : Tid) : Barred exiter (Exiting.init Tid w) := by
  refine ⟨.init, ?_, rfl, fun h => absurd rfl h, ⟨nofun, nofun⟩, ?_, ?_⟩
  · intro t h
    cases h
  · intro h
    cases h
  · intro d h
    cases h

omit [DecidableEq Tid] in
/-- Past the barrier no thread is in a hook with the lock. -/
theorem Barred.not_inside {exiter : Tid} {s : Exiting Tid w} (hk : Barred exiter s) (hpast : s.finalize.past = true)
    (t : Tid) : s.point t ≠ .inside := by
  intro h
  have hmem := hk.inside t h
  have hwriter : s.lock.writer ≠ none := by
    rw [hk.writer, if_pos hpast]
    simp
  rw [hk.exclusive hwriter] at hmem
  exact Multiset.notMem_zero t hmem

/-- A step of a hook before the barrier, `point` and `lock` changed for one thread. -/
theorem Barred.hook {exiter t : Tid} {s : Exiting Tid w} (hk : Barred exiter s) {p : HookPoint} {lock : RwLock Tid}
    (hexclusive : lock.Exclusive) (hwriter : lock.writer = s.lock.writer)
    (hself : p = .inside → t ∈ lock.readers) (hothers : ∀ t', t' ≠ t → t' ∈ s.lock.readers → t' ∈ lock.readers)
    (hexiter : t = exiter → s.finalize = .notCalled ∨ p = .outside) :
    Barred exiter { s with lock, point := Function.update s.point t p } := by
  refine ⟨hexclusive, ?_, hwriter.trans hk.writer, ?_, hk.noDump, hk.atBarrier, hk.described⟩
  · intro t' h
    dsimp only at h
    rw [Function.update_apply] at h
    split at h
    · next hq => rw [hq]; exact hself h
    · next hne => exact hothers t' hne (hk.inside t' h)
  · intro hcalled
    dsimp only
    rw [Function.update_apply]
    split
    · next hq => exact (hexiter hq.symm).resolve_left hcalled
    · exact hk.outside hcalled

omit [DecidableEq Tid] in
/-- A step of `debug_finalize` past the barrier. -/
theorem Barred.past {exiter : Tid} {s : Exiting Tid w} (hk : Barred exiter s) (hpast : s.finalize.past = true)
    (f : Finalize) (hf : f.past = true) (hnoDump : f ≠ .dumpHeap ∧ f ≠ .dumped) {described : List (PointerData w)}
    (hdescribed : ∀ d ∈ described, d ∈ s.described ∨ d = s.tracker.data) :
    Barred exiter { s with finalize := f, described } := by
  have hcalled : s.finalize ≠ .notCalled := fun hq => by rw [hq] at hpast; cases hpast
  refine ⟨hk.exclusive, hk.inside, ?_, fun _ => hk.outside hcalled, hnoDump, fun _ => hk.atBarrier hpast, ?_⟩
  · have hwriter := hk.writer
    rw [if_pos hpast] at hwriter
    exact hwriter.trans (if_pos hf).symm
  · intro d hd
    rcases hdescribed d hd with hd | rfl
    · exact ⟨hf, (hk.described d hd).2⟩
    · exact ⟨hf, rfl⟩

theorem Barred.step (hdump : cfg.dumpsOnExit = false) {exiter t : Tid} {s s' : Exiting Tid w} {act : ExitAct w}
    (hk : Barred exiter s) (h : ExitStep cfg exiter s t act s') : Barred exiter s' := by
  cases h with
  | enter hat henabled =>
    exact hk.hook hk.exclusive rfl (fun h => by cases h) (fun _ _ h => h) fun hq => .inl (henabled hq)
  | @lock t lock hat hlock =>
    have hcalled : t = exiter → s.finalize = .notCalled := by
      intro hq
      by_contra hcalled
      rw [hq, hk.outside hcalled] at hat
      cases hat
    have hne : s.lock.writer ≠ some t := by
      rw [hk.writer]
      split
      · next hpast =>
        intro hq
        rw [hcalled (Option.some.inj hq).symm] at hpast
        cases hpast
      · simp
    obtain ⟨hwriter, rfl⟩ := RwLock.rdlock_eq_some hne hlock
    refine hk.hook (fun h => absurd hwriter h) rfl (fun _ => Multiset.mem_cons_self t _)
      (fun _ _ h => Multiset.mem_cons_of_mem h) fun hq => .inl (hcalled hq)
  | tracker hat hstep =>
    have hpast : s.finalize.past ≠ true := fun hpast => hk.not_inside hpast t hat
    refine ⟨hk.exclusive, hk.inside, hk.writer, hk.outside, hk.noDump, fun h => absurd h hpast, fun d hd => ?_⟩
    exact absurd (hk.described d hd).1 hpast
  | leave hat hidle =>
    have hunlock := RwLock.unlock_of_reader hk.exclusive (hk.inside t hat)
    have hwriter : s.lock.writer = none := by
      rw [hk.writer, if_neg fun hpast => hk.not_inside hpast t hat]
    rw [hunlock]
    refine hk.hook (fun h => absurd hwriter h) rfl (fun h => by cases h) (fun t' hne h => ?_) fun _ => .inr rfl
    exact (Multiset.mem_erase_of_ne hne).mpr h
  | finalize hat hout =>
    have hwriter := hk.writer
    rw [hat] at hwriter
    refine ⟨hk.exclusive, hk.inside, hwriter, fun _ => hout, ⟨nofun, nofun⟩, nofun, fun d hd => ?_⟩
    have hpast := (hk.described d hd).1
    rw [hat] at hpast
    cases hpast
  | block hat hlock =>
    have hwriter := hk.writer
    rw [hat] at hwriter
    obtain ⟨-, hreaders, rfl⟩ := RwLock.wrlock_eq_some (by rw [hwriter]; simp [Finalize.past]) hlock
    refine ⟨fun _ => hreaders, hk.inside, rfl, fun _ => hk.outside (by rw [hat]; simp), ⟨nofun, nofun⟩,
      fun _ => rfl, fun d hd => ?_⟩
    have hpast := (hk.described d hd).1
    rw [hat] at hpast
    cases hpast
  | disableSet hat => exact hk.past (by rw [hat]; rfl) .disabled rfl ⟨nofun, nofun⟩ fun d hd => .inl hd
  | skipDump hat _ => exact hk.past (by rw [hat]; rfl) .peakInfo rfl ⟨nofun, nofun⟩ fun d hd => .inl hd
  | dumpHeap hat hdump' hlock => rw [hdump] at hdump'; cases hdump'
  | openFails hat => exact absurd hat hk.noDump.1
  | dumpLive hat hstep => exact absurd hat hk.noDump.1
  | endDump hat => exact absurd hat hk.noDump.2
  | peakInfo hat _ _ =>
    exact hk.past (by rw [hat]; rfl) .returned rfl ⟨nofun, nofun⟩ fun d hd => (List.mem_cons.mp hd).symm
  | skipPeakInfo hat _ => exact hk.past (by rw [hat]; rfl) .returned rfl ⟨nofun, nofun⟩ fun d hd => .inl hd

theorem barred_of_exited (hdump : cfg.dumpsOnExit = false) {exiter : Tid} {s : Exiting Tid w}
    (hs : Exited cfg exiter s) : Barred exiter s := by
  induction hs with
  | init => exact .init exiter
  | step _ h ih => exact ih.step hdump h

theorem exitBarrier_of_noDump (hdump : cfg.dumpsOnExit = false) (exiter : Tid) : ExitBarrier cfg exiter := by
  refine ⟨fun s hs hpast t _ sec s' h => ?_, fun s hs d hd => ?_⟩
  · cases h with
    | tracker hat hstep => exact (barred_of_exited hdump hs).not_inside hpast t hat
  · have hk := barred_of_exited hdump hs
    obtain ⟨hpast, hq⟩ := hk.described d hd
    exact ⟨s.tracker.data, hk.atBarrier hpast, by rw [hq]; rfl⟩

/-! ## With one -/

/-- After the exit dump of a process that has recorded nothing, thread `other`
is in a hook with the lock. -/
def Exiting.letIn (other : Tid) (w : Nat) : Exiting Tid w :=
  { lock := { writer := none, readers := {other} }
    tracker := Sections.init Tid w
    point := Function.update (Function.update (fun _ => .outside) other .entering) other .inside
    finalize := .peakInfo
    atBarrier := some (PointerData.initialized w)
    described := [PointerData.initialized w] }

theorem exited_letIn (hdump : cfg.dumpsOnExit = true) {exiter other : Tid} (hne : other ≠ exiter)
    (it : Iteration (Word w) (PointerInfoType w)) : Exited cfg exiter (Exiting.letIn other w) := by
  have hwrite : (RwLock.init Tid).wrlock exiter = some { writer := some exiter, readers := 0 } := by
    simp [RwLock.wrlock, RwLock.init]
  have hinit : Exited cfg exiter (Exiting.init Tid w) := .init
  -- The other thread is past its check when the finalizing thread blocks it.
  have h₁ := hinit.step (.enter (t := other) rfl fun h => absurd h hne)
  have h₂ := h₁.step (.finalize rfl (Function.update_of_ne (Ne.symm hne) _ _))
  have h₃ := h₂.step (.block rfl hwrite)
  have h₄ := h₃.step (.disableSet rfl)
  have h₅ := h₄.step (.dumpHeap rfl hdump (RwLock.rdlock_of_writer rfl))
  have h₆ := h₅.step (.dumpLive rfl (.dump it rfl fun _ => rfl))
  have h₇ := h₆.step (.endDump rfl)
  rw [RwLock.unlock_of_writer rfl] at h₇
  exact h₇.step (.lock (Function.update_self ..) rfl)

theorem not_exitBarrier_of_dump (hdump : cfg.dumpsOnExit = true) {exiter other : Tid} (hne : other ≠ exiter)
    (it : Iteration (Word w) (PointerInfoType w)) : ¬ ExitBarrier cfg exiter := by
  intro h
  have hs : Exited cfg exiter (Exiting.letIn other w) := exited_letIn hdump hne it
  exact h.blocked _ hs rfl other hne _ _ (.tracker (Function.update_self ..) (.erasePointer 0 rfl fun _ => rfl))

/-- **The exit barrier.** With other threads about, in their hooks, it holds if
and only if no dump is made at exit. A dump signal or a checkpoint is not a
step here: one that comes to the thread of `debug_finalize` is not covered. -/
theorem exit_barrier_iff (cfg : Config w) {exiter other : Tid} (hne : other ≠ exiter) :
    ExitBarrier cfg exiter ↔ cfg.dumpsOnExit = false := by
  refine ⟨fun h => ?_, fun hdump => exitBarrier_of_noDump hdump exiter⟩
  by_contra hdump
  exact not_exitBarrier_of_dump (Bool.not_eq_false _ ▸ hdump) hne (byAddress w) h

/-- Without `DUMP_PEAK_VALUE_MB` there is no exit dump, and the barrier holds. -/
theorem exit_barrier_iff_noPeakValue : ExitBarrier (Config.init 64 ⟨none, none⟩) false :=
  (exit_barrier_iff (Config.init 64 ⟨none, none⟩) (show true ≠ false by decide)).mpr (init_dumpsOnExit 64 ⟨none, none⟩)

/-- With it, a `malloc` that waits at the barrier is let in by the exit dump,
and `DumpPeakInfo` prints a peak that the dump has not seen. -/
theorem malloc_passes_barrier : ¬ ExitBarrier (Config.init 64 ⟨none, some ['0']⟩) false := by
  intro h
  have hs : Exited (Config.init 64 ⟨none, some ['0']⟩) false (Exiting.letIn true 64) :=
    exited_letIn ((init_dumpsOnExit 64 _).trans (by decide)) (by decide) (byAddress 64)
  have h₁ := hs.step (.tracker (t := true) rfl (.addBacktrace (.single 64 0x1000 1) 0x7f0000000000 4096 .host rfl))
  have h₂ := h₁.step (.tracker (t := true) rfl (.insertPointer rfl (by unfold Sections.PointerFree; decide)))
  have h₃ := h₂.step (.tracker (t := true) rfl (.takeSnapshot rfl))
  have h₄ := h₃.step (.peakInfo rfl (by decide) (by unfold Sections.PointerFree; decide))
  obtain ⟨b, hb, hsame⟩ := h.same _ h₄ _ (List.mem_cons_self ..)
  obtain rfl : PointerData.initialized 64 = b := Option.some.inj hb
  exact absurd (congrArg PointerData.dumpPeakInfo hsame) (by decide)

end AllocHook
