/-
Whether `AddBacktrace` may go on with an empty stack, over any sequence of
calls and whatever the unwinder meets.

`AddBacktrace` looks at the code `Unwind` returns and at nothing else. The
wrapper clears the frames when the unwinder returns false, and returns
`data.error.code` all the same: after a failed initialisation every call but
the one that failed returns what was in memory there. And the unwinder itself
ends without an error where all it has seen is the skipped library.

`hashedSafely_iff` says exactly which outcomes are safe; `AddBacktrace` has
no test of its own, so the others reach `std::hash<FrameKeyType>`, which
reads `frames[0]`.
-/
import AllocHook.FrameKeys
import AllocHook.Ledger
import AllocHook.Unwinder

namespace AllocHook

open History

variable {w : Nat} {cfg : Config w}

/-! ## Calls of `AddBacktrace` -/

/-- A call of `AddBacktrace`: the size, and what the unwinder meets if it is
asked. -/
structure BacktraceCall (w : Nat) where
  size : Word w
  met : UnwindOutcome

/-- The unwinder is asked. -/
def BacktraceCall.asks (cfg : Config w) (c : BacktraceCall w) : Bool :=
  shouldBacktraceAllocSize cfg c.size && cfg.has BACKTRACE

/-- The static unwinder of `Unwind` after a sequence of calls. -/
def AndroidUnwinder.after (cfg : Config w) (calls : List (BacktraceCall w)) : AndroidUnwinder :=
  calls.foldl (fun u c => if c.asks cfg then (u.unwind c.met).2 else u) .start

/-- What a call meets, with the calls `pre` before it. -/
def BacktraceCall.env (cfg : Config w) (pre : List (BacktraceCall w)) (c : BacktraceCall w) : AddEnv w :=
  { AddEnv.single w 0 0 with unwinder := fun _ => ((AndroidUnwinder.after cfg pre).unwind c.met).1 }

/-- Whatever key a call looks up, its hash reads no frame that is not there. -/
def HashedSafely (cfg : Config w) (pre : List (BacktraceCall w)) (c : BacktraceCall w) : Prop :=
  ∀ key, (capture cfg (c.env cfg pre) c.size).stack? = some key → (FrameKeyType.hash key).isSome

/-! ## What the unwinder was told -/

/-- The codes at which `AddBacktrace` goes on. -/
def ErrorCode.goesOn : ErrorCode → Bool
  | .none | .maxFramesExceeded => true
  | _ => false

/-- A walk without frames ends with a code that says so. -/
def UnwindOutcome.Tells (o : UnwindOutcome) : Prop :=
  o.sameArch = true → o.walked.frames = [] → o.walked.error.goesOn = false

/-- The first call that asked, if its initialisation failed, leaves all later
ones to the byte in memory; otherwise it is the walk that has to tell. -/
def StackTold (cfg : Config w) (pre : List (BacktraceCall w)) (c : BacktraceCall w) : Prop :=
  c.asks cfg = true →
    match pre.find? (·.asks cfg) with
    | none => c.met.parses = true → c.met.Tells
    | some first => if first.met.parses then c.met.Tells else (ErrorCode.ofByte c.met.left).goesOn = false

/-! ## What a call does -/

theorem unwind_snd (u : AndroidUnwinder) (o : UnwindOutcome) :
    (u.unwind o).2 = if u.initialized then u else { initialized := true, initializeStatus := o.parses } := by
  obtain ⟨i, st⟩ := u
  cases i <;> cases st <;> cases hp : o.parses <;> cases ha : o.sameArch <;>
    simp [AndroidUnwinder.unwind, AndroidUnwinder.initializeWith, hp, ha]

theorem after_concat (pre : List (BacktraceCall w)) (c : BacktraceCall w) :
    AndroidUnwinder.after cfg (pre ++ [c]) =
      if c.asks cfg then ((AndroidUnwinder.after cfg pre).unwind c.met).2 else AndroidUnwinder.after cfg pre := by
  simp only [AndroidUnwinder.after, List.foldl_append, List.foldl_cons, List.foldl_nil]

/-- The unwinder remembers of all calls whether the first one's maps parsed. -/
theorem after_eq (pre : List (BacktraceCall w)) :
    AndroidUnwinder.after cfg pre =
      match pre.find? (·.asks cfg) with
      | none => .start
      | some first => { initialized := true, initializeStatus := first.met.parses } := by
  induction pre using List.reverseRecOn with
  | nil => rfl
  | append_singleton pre c ih =>
    rw [after_concat, unwind_snd, ih, List.find?_append]
    cases hf : pre.find? (·.asks cfg) with
    | some first => simp
    | none =>
      cases hc : c.asks cfg with
      | false => simp [hc]
      | true => simp [hc, AndroidUnwinder.start]

theorem unwind_fst_nil (data : UnwindAnswer) :
    (unwind w data).1 = [] ↔ data.returned = false ∨ data.frames = [] := by
  rw [unwind_pcs, pcs, List.map_eq_nil_iff]
  unfold unwind
  cases data.returned <;> simp

theorem unwind_error (data : UnwindAnswer) : (unwind w data).2.2 = data.error := by
  unfold unwind
  split <;> rfl

theorem capture_stack?_iff {env : AddEnv w} {size : Word w} {key : FrameKeyType w} :
    (capture cfg env size).stack? = some key ↔
      (shouldBacktraceAllocSize cfg size && cfg.has BACKTRACE) = true ∧
        (env.unwinder cfg.backtraceFrames).error.goesOn = true ∧
          (unwind w (env.unwinder cfg.backtraceFrames)).1 = key := by
  unfold capture
  cases hs : shouldBacktraceAllocSize cfg size
  · simp [Capture.stack?]
  · cases hb : cfg.has BACKTRACE
    · simp [Capture.stack?]
    · simp only [Bool.not_true, Bool.false_eq_true, if_false, if_true, Bool.and_self, true_and, unwind_error]
      cases he : (env.unwinder cfg.backtraceFrames).error <;> simp [ErrorCode.goesOn, Capture.stack?]

/-- An answer with which `AddBacktrace` takes an empty stack. -/
def UnwindAnswer.Unsafe (data : UnwindAnswer) : Prop :=
  data.error.goesOn = true ∧ (data.returned = false ∨ data.frames = [])

theorem hashedSafely_iff_answer (pre : List (BacktraceCall w)) (c : BacktraceCall w) :
    HashedSafely cfg pre c ↔ (c.asks cfg = true → ¬ ((AndroidUnwinder.after cfg pre).unwind c.met).1.Unsafe) := by
  have hsome : ∀ key : FrameKeyType w, (FrameKeyType.hash key).isSome ↔ key ≠ [] := by
    intro key
    rw [← Option.ne_none_iff_isSome, ne_eq, hash_eq_none_iff]
  unfold HashedSafely
  simp only [capture_stack?_iff, hsome]
  constructor
  · intro h hasks hbad
    exact h _ ⟨hasks, hbad.1, rfl⟩ ((unwind_fst_nil _).mpr hbad.2)
  · intro h key hkey hnil
    obtain ⟨hasks, hgo, rfl⟩ := hkey
    exact h hasks ⟨hgo, (unwind_fst_nil _).mp hnil⟩

/-- The maps could not be parsed, by an earlier call. -/
theorem unsafe_failed {u : AndroidUnwinder} (hu : u = { initialized := true, initializeStatus := false })
    (o : UnwindOutcome) : (u.unwind o).1.Unsafe ↔ (ErrorCode.ofByte o.left).goesOn = true := by
  subst hu
  simp [UnwindAnswer.Unsafe, AndroidUnwinder.unwind, AndroidUnwinder.initializeWith, UnwindAnswer.early]

/-- The unwinder walks. -/
theorem unsafe_walked {u : AndroidUnwinder} {o : UnwindOutcome} (hu : (u.initializeWith o).1 = true) :
    (u.unwind o).1.Unsafe ↔ ¬ o.Tells := by
  unfold UnwindAnswer.Unsafe UnwindOutcome.Tells AndroidUnwinder.unwind
  cases ha : o.sameArch <;> simp [hu, UnwindAnswer.early, ErrorCode.goesOn, and_comm]

theorem unsafe_mapsParse {u : AndroidUnwinder} {o : UnwindOutcome} (hu : u.initialized = false)
    (hp : o.parses = false) : ¬ (u.unwind o).1.Unsafe := by
  simp [UnwindAnswer.Unsafe, AndroidUnwinder.unwind, AndroidUnwinder.initializeWith, hu, hp, UnwindAnswer.early,
    ErrorCode.goesOn]

/-- One call is safe just when it was told. -/
theorem hashedSafely_iff (pre : List (BacktraceCall w)) (c : BacktraceCall w) :
    HashedSafely cfg pre c ↔ StackTold cfg pre c := by
  rw [hashedSafely_iff_answer, after_eq]
  unfold StackTold
  refine imp_congr_right fun _ => ?_
  cases hf : pre.find? (·.asks cfg) with
  | none =>
    cases hp : c.met.parses with
    | false => simpa using unsafe_mapsParse rfl hp
    | true => rw [unsafe_walked (by simp [AndroidUnwinder.initializeWith, AndroidUnwinder.start, hp])]; simp
  | some first =>
    cases hp : first.met.parses with
    | false => simpa [hp] using not_congr (unsafe_failed rfl c.met)
    | true =>
      have hwalks : (AndroidUnwinder.initializeWith { initialized := true, initializeStatus := true } c.met).1 = true :=
        by simp [AndroidUnwinder.initializeWith]
      simpa [hp] using not_congr (unsafe_walked hwalks)

/-- **The stacks `AddBacktrace` hashes**: over every sequence of calls, and
whatever the unwinder meets at each, none is empty if and only if at every
call that asked the unwinder was told. -/
theorem empty_stack_iff (w : Nat) (getenv : Environ) (calls : List (BacktraceCall w)) :
    Always (HashedSafely (Config.init w getenv)) calls ↔ Always (StackTold (Config.init w getenv)) calls :=
  always_congr fun pre c _ => hashedSafely_iff pre c

/-! ## Two calls that are not -/

/-- The arguments of the wrapper's unwinder; `AndroidLocalUnwinder` adds its own
library to the names it skips. -/
def unwinderOptions (maxFrames : Nat) : WalkOptions where
  maxFrames
  mapNamesToSkip := ["liballoc_hook.so".toList, "libunwindstack.so".toList]
  mapSuffixesToIgnore := []
  functionsToExit :=
    ["_Z24__init_additional_stacksP18pthread_internal_t".toList, "_Z25__allocate_thread_mappingmm".toList]

/-- A stack of one frame, in the tool's own library. -/
def insideHook : Target Unit where
  pc _ := 0x1000
  sp _ := 0x2000
  dexPc _ := 0
  clearDexPc := id
  fallbackPc := id
  find pc := if pc = 0x1000 then
    some { start := 0x1000, name := "/system/lib64/liballoc_hook.so".toList, device := false, jitSymfile := false }
    else none
  relPc m pc := pc - m.start
  adjustment _ _ := 4
  jit _ _ := false
  step _ _ _ _ regs := { regs, stepped := true, finished := true, signalFrame := false, error := .none }
  function _ _ _ := ([], 0)
  returnAddress _ := none

/-- The maps cannot be parsed, and memory is 0 where the code is. -/
def mapsUnread : UnwindOutcome where
  parses := false
  left := 0
  sameArch := true
  walked := { frames := [], error := .none, numbered := .nil }

/-- The second call after a failed initialisation hashes an empty stack; so
does the first one after a walk that has met the skipped library alone. -/
theorem emptyStack_hashed :
    ¬ Always (HashedSafely (Config.init 64 ⟨none, none⟩)) [⟨16, mapsUnread⟩, ⟨16, mapsUnread⟩] ∧
    ∃ walked, insideHook.unwind (unwinderOptions DEFAULT_BACKTRACE_FRAMES) 1 () = some walked ∧
      ¬ Always (HashedSafely (Config.init 64 ⟨none, none⟩))
        [⟨16, { parses := true, left := 0, sameArch := true, walked }⟩] := by
  refine ⟨fun h => ?_, ⟨[], .none, .nil⟩, rfl, fun h => ?_⟩
  · have hkey := h [⟨16, mapsUnread⟩] ⟨16, mapsUnread⟩ [] rfl [] rfl
    cases hkey
  · have hkey := h [] _ [] rfl [] rfl
    cases hkey

end AllocHook
