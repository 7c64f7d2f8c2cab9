/-
The local unwinder (`Unwinder.cpp`, `AndroidUnwinder.cpp`) behind the wrapper
of `UnwindBacktrace.cpp`.

`Target` is what the loop of `Unwinder::Unwind` asks of the process: the maps
and ELF files, the registers and how to step them. `pass` is the loop's body
and `walkFrom` the loop; it need not end, so it has fuel. Whatever the process
is like, frames are numbered by their position (`walkFrom_numbered`), which is
what the wrapper relies on.

`AndroidUnwinder` initialises once. If that fails, every later call returns
early and stores no error code: `data.error.code` is what was in memory.
-/
import AllocHook.Unwind

namespace AllocHook

/-! ## What the loop meets -/

/-- What the loop reads of a `MapInfo`. -/
structure MapSeen where
  start : BitVec 64
  name : CString
  device : Bool
  jitSymfile : Bool

/-- What `StepIfSignalHandler` or `Step` leave, and `GetLastError` after them. -/
structure Stepped (ρ : Type) where
  regs : ρ
  stepped : Bool
  finished : Bool
  signalFrame : Bool
  error : ErrorCode

/-- The process, with registers of type `ρ`. `jit` says whether the JIT debug
information has an ELF file for a pc in place of the map's own. -/
structure Target (ρ : Type) where
  pc : ρ → BitVec 64
  sp : ρ → BitVec 64
  dexPc : ρ → BitVec 64
  clearDexPc : ρ → ρ
  fallbackPc : ρ → ρ
  find : BitVec 64 → Option MapSeen
  relPc : MapSeen → BitVec 64 → BitVec 64
  adjustment : MapSeen → BitVec 64 → BitVec 64
  jit : MapSeen → BitVec 64 → Bool
  step : MapSeen → Bool → BitVec 64 → BitVec 64 → ρ → Stepped ρ
  function : MapSeen → Bool → BitVec 64 → CString × BitVec 64
  returnAddress : ρ → Option ρ

/-- The arguments of `Unwinder::Unwind`. -/
structure WalkOptions where
  maxFrames : Nat
  mapNamesToSkip : List CString
  mapSuffixesToIgnore : List CString
  functionsToExit : List CString

/-- `Basename`. -/
def basename (path : CString) : CString :=
  let stripped := (path.reverse.dropWhile (· == '/')).reverse
  if path.isEmpty then ['.']
  else if stripped.isEmpty then ['/']
  else (stripped.reverse.takeWhile (· != '/')).reverse

/-- `ShouldStop`. -/
def shouldStop (suffixes : List CString) (name : CString) : Bool :=
  name.contains '.' && suffixes.contains (name.reverse.takeWhile (· != '.')).reverse

/-! ## One pass -/

/-- The loop's variables. `skipping` is `initial_map_names_to_skip` not being
null. -/
structure WalkState (ρ : Type) where
  regs : ρ
  frames : List FrameData
  error : ErrorCode
  skipping : Bool
  returnAddressAttempt : Bool
  adjustPc : Bool

/-- Where the pc is: its map, the pc in it, and the pc to step from. -/
structure Place where
  map : Option MapSeen
  relPc : BitVec 64
  stepPc : BitVec 64
  adjustment : BitVec 64
  jit : Bool

variable {ρ : Type}

def Target.place (t : Target ρ) (adjustPc : Bool) (pc : BitVec 64) : Place :=
  match t.find pc with
  | none => { map := none, relPc := pc, stepPc := pc, adjustment := 0, jit := false }
  | some m =>
    let relPc := t.relPc m pc
    let adjustment := if adjustPc then t.adjustment m relPc else 0
    let jit := t.jit m (pc - adjustment)
    let stepPc := if jit || m.jitSymfile then pc - adjustment else relPc - adjustment
    { map := some m, relPc, stepPc, adjustment, jit }

/-- What a dump prints of a map. -/
def MapSeen.info (m : MapSeen) : MapInfo := { start := m.start, name := String.ofList m.name }

/-- `FillInDexFrame`. -/
def Target.dexFrame (t : Target ρ) (num : Nat) (regs : ρ) : FrameData :=
  let pc := t.dexPc regs
  { num, pc, functionName := "", functionOffset := 0
    relPc := match t.find pc with
      | none => pc
      | some m => pc - m.start
    mapInfo := (t.find pc).map MapSeen.info }

/-- The step of a pass: none outside of the maps and where the pc or the sp is
in a device map. -/
def Target.stepAt (t : Target ρ) (place : Place) (s : WalkState ρ) : Bool × Stepped ρ :=
  let stay : Stepped ρ :=
    { regs := s.regs, stepped := false, finished := false, signalFrame := false, error := s.error }
  match place.map with
  | none => (false, stay)
  | some m =>
    if m.device || (t.find (t.sp s.regs)).any MapSeen.device then (true, stay)
    else (false, t.step m place.jit place.relPc place.stepPc s.regs)

/-- `FillInFrame`, with what the pass does to the frame after the step: the
pcs of a signal handler are not adjusted, and the function is looked up. -/
def Target.fillInFrame (t : Target ρ) (num : Nat) (place : Place) (pc : BitVec 64) (step : Stepped ρ) : FrameData :=
  match place.map with
  | none =>
    { num, relPc := place.relPc - place.adjustment, pc := pc - place.adjustment, functionName := "",
      functionOffset := 0, mapInfo := none }
  | some m =>
    let function := t.function m place.jit (if step.signalFrame then place.relPc else place.stepPc)
    { num
      relPc := if step.signalFrame then place.relPc else place.relPc - place.adjustment
      pc := if step.signalFrame then pc else pc - place.adjustment
      functionName := String.ofList function.1
      functionOffset := function.2
      mapInfo := some m.info }

/-- `ShouldExit` of the frame of a pass. -/
def Target.shouldExit (t : Target ρ) (o : WalkOptions) (place : Place) (step : Stepped ρ) : Bool :=
  place.map.any fun m =>
    o.functionsToExit.contains (t.function m place.jit (if step.signalFrame then place.relPc else place.stepPc)).1

/-- The end of a pass: the loop stops where pc and sp did not change. -/
def Target.moved (t : Target ρ) (pc sp : BitVec 64) (s : WalkState ρ) : Bool × WalkState ρ :=
  if pc = t.pc s.regs ∧ sp = t.sp s.regs then (false, { s with error := .repeatedFrame }) else (true, s)

/-- A pass after its frame: whether the loop goes on. -/
def Target.afterStep (t : Target ρ) (o : WalkOptions) (pc sp : BitVec 64) (inDeviceMap : Bool) (step : Stepped ρ)
    (s : WalkState ρ) : Bool × WalkState ρ :=
  if step.finished then (false, s)
  else if step.stepped then
    t.moved pc sp
      { s with
        returnAddressAttempt := false
        error := if o.maxFrames = s.frames.length then .maxFramesExceeded else s.error }
  else if s.returnAddressAttempt then
    -- The speculative frame goes, unless it may be all there is.
    let remove := decide (2 < s.frames.length) || s.frames.head?.any fun f => (t.find f.pc).isSome
    (false, { s with frames := if remove then s.frames.dropLast else s.frames })
  else if inDeviceMap then (false, s)
  else
    match t.returnAddress s.regs with
    | none => (false, s)
    | some regs => t.moved pc sp { s with regs, returnAddressAttempt := true }

/-- A pc outside of the maps is an error, unless there is one from before the
guess that led to it. -/
def WalkState.checkMap (place : Place) (s : WalkState ρ) : WalkState ρ :=
  if place.map.isNone && (!s.returnAddressAttempt || s.error = .none) then { s with error := .invalidMap } else s

/-- The frame of the interpreter, if there is one to be added. -/
def Target.addDexFrame (t : Target ρ) (dex : Bool) (s : WalkState ρ) : WalkState ρ :=
  if dex then { s with frames := s.frames ++ [t.dexFrame s.frames.length s.regs], regs := t.clearDexPc s.regs } else s

/-- The frame of a pass, if it is not skipped; no later one is then. -/
def Target.addFrame (t : Target ρ) (ignore : Bool) (place : Place) (pc : BitVec 64) (step : Stepped ρ)
    (s : WalkState ρ) : WalkState ρ :=
  let s :=
    if ignore then s
    else { s with frames := s.frames ++ [t.fillInFrame s.frames.length place pc step], skipping := false }
  { s with regs := step.regs, error := step.error, adjustPc := true }

/-- The loop's body: whether the loop goes on. -/
def Target.pass (t : Target ρ) (o : WalkOptions) (s : WalkState ρ) : Bool × WalkState ρ :=
  let pc := t.pc s.regs
  let sp := t.sp s.regs
  let place := t.place s.adjustPc pc
  let ignore := place.map.any fun m => s.skipping && o.mapNamesToSkip.contains (basename m.name)
  if !ignore && place.map.any fun m => shouldStop o.mapSuffixesToIgnore m.name then (false, s)
  else
    let dex := !ignore && t.dexPc s.regs != 0
    let s := t.addDexFrame dex (s.checkMap place)
    if dex && s.frames.length = o.maxFrames then (false, { s with error := .maxFramesExceeded })
    else
      let step := t.stepAt place s
      let s := t.addFrame ignore place pc step.2 s
      if !ignore && t.shouldExit o place step.2 then (false, { s with error := .exitFunc })
      else t.afterStep o pc sp step.1 step.2 s

/-! ## The loop -/

def Target.walkFrom (t : Target ρ) (o : WalkOptions) : Nat → WalkState ρ → Option (WalkState ρ)
  | 0, _ => none
  | fuel + 1, s =>
    if s.frames.length < o.maxFrames then
      let r := t.pass o s
      if r.1 then t.walkFrom o fuel r.2 else some r.2
    else some s

/-- Before the first pass. -/
def Target.walkStart (t : Target ρ) (regs : ρ) : WalkState ρ :=
  { regs := if (t.find (t.pc regs)).isNone then t.fallbackPc regs else regs
    frames := []
    error := .none
    skipping := true
    returnAddressAttempt := false
    adjustPc := false }

/-- Every frame has the number of its position. -/
def Numbered (frames : List FrameData) : Prop := ∀ i (h : i < frames.length), (frames[i]).num = i

theorem Numbered.nil : Numbered [] := fun i h => absurd h (Nat.not_lt_zero i)

theorem Numbered.concat {frames : List FrameData} (h : Numbered frames) {f : FrameData} (hf : f.num = frames.length) :
    Numbered (frames ++ [f]) := by
  intro i hi
  rw [List.length_append, List.length_singleton] at hi
  by_cases hlt : i < frames.length
  · rw [List.getElem_append_left hlt]
    exact h i hlt
  · obtain rfl : i = frames.length := by omega
    simpa using hf

theorem Numbered.dropLast {frames : List FrameData} (h : Numbered frames) : Numbered frames.dropLast := by
  intro i hi
  rw [List.getElem_dropLast]
  exact h i (by rw [List.length_dropLast] at hi; omega)

variable (t : Target ρ) (o : WalkOptions) {s : WalkState ρ}

theorem dexFrame_num (num : Nat) (regs : ρ) : (t.dexFrame num regs).num = num := rfl

theorem fillInFrame_num (num : Nat) (place : Place) (pc : BitVec 64) (step : Stepped ρ) :
    (t.fillInFrame num place pc step).num = num := by
  unfold Target.fillInFrame
  split <;> rfl

theorem moved_frames (pc sp : BitVec 64) (s : WalkState ρ) : (t.moved pc sp s).2.frames = s.frames := by
  unfold Target.moved
  split <;> rfl

/-- After its frame a pass at most removes one. -/
theorem afterStep_numbered (pc sp : BitVec 64) (inDeviceMap : Bool) (step : Stepped ρ) (h : Numbered s.frames) :
    Numbered (t.afterStep o pc sp inDeviceMap step s).2.frames := by
  unfold Target.afterStep
  split
  · exact h
  split
  · rw [moved_frames]
    exact h
  split
  · dsimp only
    split
    · exact h.dropLast
    · exact h
  split
  · exact h
  split
  · exact h
  · rw [moved_frames]
    exact h

theorem addDexFrame_numbered (dex : Bool) (h : Numbered s.frames) : Numbered (t.addDexFrame dex s).frames := by
  unfold Target.addDexFrame
  split
  · exact h.concat (dexFrame_num t _ _)
  · exact h

theorem addFrame_numbered (ignore : Bool) (place : Place) (pc : BitVec 64) (step : Stepped ρ)
    (h : Numbered s.frames) : Numbered (t.addFrame ignore place pc step s).frames := by
  unfold Target.addFrame
  dsimp only
  split
  · exact h
  · exact h.concat (fillInFrame_num t _ _ _ _)

/-- A pass keeps the frames numbered. -/
theorem pass_numbered (h : Numbered s.frames) : Numbered (t.pass o s).2.frames := by
  have hcheck : ∀ place, Numbered (s.checkMap place).frames := by
    intro place
    unfold WalkState.checkMap
    split <;> exact h
  unfold Target.pass
  dsimp only
  split
  · exact h
  have hdex := addDexFrame_numbered t (!((t.place s.adjustPc (t.pc s.regs)).map.any fun m =>
    s.skipping && o.mapNamesToSkip.contains (basename m.name)) && t.dexPc s.regs != 0)
    (hcheck (t.place s.adjustPc (t.pc s.regs)))
  split
  · exact hdex
  have hframe := fun ignore place pc step => addFrame_numbered t ignore place pc step hdex
  split
  · exact hframe _ _ _ _
  · exact afterStep_numbered t o _ _ _ _ (hframe _ _ _ _)

theorem walkFrom_numbered {fuel : Nat} {s' : WalkState ρ} (h : Numbered s.frames) (hw : t.walkFrom o fuel s = some s') :
    Numbered s'.frames := by
  induction fuel generalizing s with
  | zero => cases hw
  | succ fuel ih =>
    rw [Target.walkFrom] at hw
    dsimp only at hw
    split at hw
    · split at hw
      · exact ih (pass_numbered t o h) hw
      · cases hw
        exact pass_numbered t o h
    · cases hw
      exact h

/-- What `Unwinder::Unwind` leaves: the frames and the last error. -/
structure Walked where
  frames : List FrameData
  error : ErrorCode
  numbered : Numbered frames

/-- `Unwinder::Unwind`, if the loop ends. -/
def Target.unwind (fuel : Nat) (regs : ρ) : Option Walked :=
  match h : t.walkFrom o fuel (t.walkStart regs) with
  | none => none
  | some s => some { frames := s.frames, error := s.error, numbered := walkFrom_numbered t o .nil h }

/-! ## `AndroidUnwinder` -/

/-- `initialize_` has run, and `initialize_status_`. -/
structure AndroidUnwinder where
  initialized : Bool
  initializeStatus : Bool

/-- Before the first call. -/
def AndroidUnwinder.start : AndroidUnwinder := { initialized := false, initializeStatus := false }

/-- What one call of the unwinder meets: whether the maps can be parsed,
should it be the call that initialises; the byte in memory where its
`data.error.code` is; whether the registers are those of the architecture; and
what the walk leaves. -/
structure UnwindOutcome where
  parses : Bool
  left : BitVec 8
  sameArch : Bool
  walked : Walked

/-- The enumerators of `ErrorCode`, by their value. -/
def errorCodes : List ErrorCode :=
  [.none, .memoryInvalid, .unwindInfo, .unsupported, .invalidMap, .maxFramesExceeded, .repeatedFrame, .invalidElf,
    .threadDoesNotExist, .threadTimeout, .systemCall, .badArch, .mapsParse, .invalidParameter, .ptraceCall, .exitFunc]

/-- The code a byte stands for. A byte that is no enumerator takes the
`default` of every `switch`, as `ERROR_INVALID_PARAMETER` does. -/
def ErrorCode.ofByte (byte : BitVec 8) : ErrorCode := errorCodes[byte.toNat]?.getD .invalidParameter

/-- `AndroidUnwinder::Initialize`: the status, and the code in `error` after
it. -/
def AndroidUnwinder.initializeWith (u : AndroidUnwinder) (o : UnwindOutcome) : Bool × ErrorCode × AndroidUnwinder :=
  if u.initialized then (u.initializeStatus, .ofByte o.left, u)
  else if o.parses then (true, .ofByte o.left, { initialized := true, initializeStatus := true })
  else (false, .mapsParse, { initialized := true, initializeStatus := false })

/-- A call that returns early, with this code in `data.error`. -/
def UnwindAnswer.early (error : ErrorCode) : UnwindAnswer where
  returned := false
  frames := []
  error
  numbered := by simp

/-- `AndroidLocalUnwinder::Unwind` on the calling thread. -/
def AndroidUnwinder.unwind (u : AndroidUnwinder) (o : UnwindOutcome) : UnwindAnswer × AndroidUnwinder :=
  let r := u.initializeWith o
  if !r.1 then (.early r.2.1, r.2.2)
  else if !o.sameArch then (.early .badArch, r.2.2)
  else
    ({ returned := o.walked.frames.length != 0, frames := o.walked.frames, error := o.walked.error,
       numbered := o.walked.numbered }, r.2.2)

end AllocHook
