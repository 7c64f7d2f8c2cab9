/-
A step from a frame to its caller (`DwarfSection::Step`) through the caches of
a section: the rows of the CIEs, and the rows of pcs by where they end.

A cached row is used for every pc it says it holds for. In a section whose
functions do not overlap, whose CIEs neither move the location nor remember a
state, and whose FDEs have programs that go forward inside of their functions
and do not end by restoring a state, that is what a row found anew would say,
so in any run of steps each one gives what it would give alone (`step_run`).
Without the last condition it is not: see `getLocationInfo_restored`.
-/
import AllocHook.Unwindstack.DwarfEval
import AllocHook.Unwindstack.DwarfRows
import AllocHook.Unwindstack.DwarfSection

namespace AllocHook.Unwindstack

variable {w : ℕ} {m : Machine w}

open Through (ofRun ofResult)

def DwarfSection.cfa (c : DwarfSection) (arch : ArchEnum) (fde : DwarfFde) (cieLocRegs : Option Locations) :
    CfaContext :=
  { memory := c.reader c.entriesOffset, fde, arch, cieLocRegs }

def DwarfSection.getCfaLocationInfo (c : DwarfSection) (w fuel : ℕ) (arch : ArchEnum) (pc : BitVec 64)
    (fde : DwarfFde) : SectionM DwarfLocations := do
  match (← get).cieLocRegs fde.cieOffset with
  | some cieLocRegs => do
    let s ← ofRun ((c.cfa arch fde (some cieLocRegs)).getLocationInfo w fuel pc fde.cfaInstructionsOffset
      fde.cfaInstructionsEnd { regs := ∅ } [])
    return s.locRegs
  | none => do
    let cie ← ofRun ((c.cfa arch fde none).getLocationInfo w fuel pc fde.cie.cfaInstructionsOffset
      fde.cie.cfaInstructionsEnd { regs := ∅ } [])
    modify fun caches =>
      { caches with cieLocRegs := Function.update caches.cieLocRegs fde.cieOffset (some cie.locRegs.regs) }
    let s ← ofRun ((c.cfa arch fde (some cie.locRegs.regs)).getLocationInfo w fuel pc fde.cfaInstructionsOffset
      fde.cfaInstructionsEnd cie.locRegs cie.locRegState)
    return s.locRegs

def CachedRow.start (row : CachedRow) : ℕ := row.locRegs.pcStart.toNat

/-- What is used of a row. -/
def CachedRow.content (row : CachedRow) : Locations × DwarfCie := (row.locRegs.regs, row.cie)

/-- The row of a pc, cached. -/
def DwarfSection.findRow (c : DwarfSection) (w fuel : ℕ) (arch : ArchEnum) (pc : BitVec 64) :
    SectionM (Locations × DwarfCie) := do
  match EndMap.valueAt CachedRow.start (← get).locRegs pc.toNat with
  | some row => return row.content
  | none => do
    match ← c.getFdeFromPc w fuel pc with
    | none => ofResult (.error illegalState)
    | some fde => do
      let row : CachedRow := { locRegs := ← c.getCfaLocationInfo w fuel arch pc fde, cie := fde.cie }
      let (it, locRegs) := (← get).locRegs.emplace row.locRegs.pcEnd.toNat row
      modify fun caches => { caches with locRegs }
      return it.content

/-- What a step sets: the registers and `finished`, if it goes through, and
`is_signal_frame`. -/
structure StepResult (m : Machine w) where
  result : Result (Regs m × Bool)
  isSignalFrame : Bool

/-- The order in which an unordered map comes. -/
structure MapOrder where
  entries : Locations → List Entry
  coe_entries : ∀ locRegs, (entries locRegs : Multiset Entry) = locRegs.entries

/-- The registers evaluated. -/
def DwarfSection.evalRow (c : DwarfSection) (order : MapOrder) (processMemory : Memory) (regs : Regs m)
    (row : Locations × DwarfCie) : StepResult m :=
  let context : EvalContext :=
    { memory := c.reader c.entriesOffset, regularMemory := processMemory, cie := row.2 }
  { result := context.eval (order.entries row.1) row.1 regs, isSignalFrame := row.2.isSignalFrame }

def DwarfSection.step (c : DwarfSection) (fuel : ℕ) (order : MapOrder) (processMemory : Memory) (pc : BitVec 64)
    (regs : Regs m) : SectionM (StepResult m) := do
  return c.evalRow order processMemory regs (← c.findRow w fuel m.arch pc)

/-! ## What the locations depend on -/

/-- What the instructions read of a context. -/
structure SameContext (c c' : CfaContext) : Prop where
  cie : c.fde.cie = c'.fde.cie
  arch : c.arch = c'.arch
  cieLocRegs : c.cieLocRegs = c'.cieLocRegs

/-- The same locations, now and remembered, for whichever pcs. -/
structure SameRegs (s s' : CfaState w) : Prop where
  off : s.off = s'.off
  regs : s.locRegs.regs = s'.locRegs.regs
  remembered : s.locRegState.map DwarfLocations.regs = s'.locRegState.map DwarfLocations.regs

/-- The same fault, or results that are related. -/
def SameResult {α : Type} (r : α → α → Prop) : Result α → Result α → Prop
  | .ok a, .ok a' => r a a'
  | .error e, .error e' => e = e'
  | _, _ => False

variable {c c' : CfaContext} {s s' : CfaState w} {pc pc' : BitVec 64}

theorem SameResult.bind {α β : Type} {r : β → β → Prop} {x : Result α} {f f' : α → Result β}
    (h : ∀ a, x = .ok a → SameResult r (f a) (f' a)) : SameResult r (x >>= f) (x >>= f') := by
  cases x with
  | error e => rfl
  | ok a => exact h a rfl

theorem SameResult.bind_same {α β : Type} {q : α → α → Prop} {r : β → β → Prop} {x x' : Result α}
    {f f' : α → Result β} (hx : SameResult q x x')
    (h : ∀ a a', x = .ok a → x' = .ok a' → q a a' → SameResult r (f a) (f' a')) :
    SameResult r (x >>= f) (x' >>= f') := by
  cases x <;> cases x' <;> try exact hx.elim
  · exact hx
  · exact h _ _ rfl rfl hx

theorem SameRegs.set (h : SameRegs s s') (reg : BitVec w) (loc : DwarfLocation) :
    SameRegs (s.set reg loc) (s'.set reg loc) :=
  ⟨h.off, by rw [CfaState.set, CfaState.set, h.regs], h.remembered⟩

theorem SameRegs.setCfa (h : SameRegs s s') (loc : DwarfLocation) : SameRegs (s.setCfa loc) (s'.setCfa loc) :=
  ⟨h.off, by rw [CfaState.setCfa, CfaState.setCfa, h.regs], h.remembered⟩

theorem sameRegs_initial (hc : SameContext c c') (h : SameRegs s s') (reg : BitVec 32) :
    SameResult SameRegs (c.initial reg s) (c'.initial reg s') := by
  unfold CfaContext.initial
  rw [← hc.cieLocRegs]
  cases c.cieLocRegs with
  | none => rfl
  | some cieLocRegs =>
    refine ⟨h.off, ?_, h.remembered⟩
    cases cieLocRegs.lookup reg with
    | none => exact congrArg (Finmap.erase reg) h.regs
    | some loc => exact congrArg (Finmap.insert reg loc) h.regs

theorem sameRegs_cfaRegister (h : SameRegs s s') : s.cfaRegister = s'.cfaRegister := by
  rw [CfaState.cfaRegister, CfaState.cfaRegister, h.regs]

theorem scaled_eq (hc : SameContext c c') (operand : BitVec w) : c.scaled operand = c'.scaled operand := by
  rw [CfaContext.scaled, CfaContext.scaled, hc.cie]

theorem sameRegs_apply (hc : SameContext c c') (h : SameRegs s s') (i : Instruction w) :
    SameResult SameRegs (i.apply c s) (i.apply c' s') := by
  cases i with
  | nop | gnuArgsSize | advanceLoc | advanceLoc1 | advanceLoc2 | advanceLoc4 | setLoc => exact h
  | offset reg n | offsetExtendedSf reg n | valOffset reg n | valOffsetSf reg n =>
    simp only [Instruction.apply]
    rw [scaled_eq hc]
    exact .bind fun _ _ => h.set _ _
  | gnuNegativeOffsetExtended reg n => exact .bind fun _ _ => h.set _ _
  | offsetExtended reg n | register reg n | undefined reg => exact h.set _ _
  | sameValue reg => exact ⟨h.off, by rw [CfaState.erase, CfaState.erase, h.regs], h.remembered⟩
  | restore reg => exact sameRegs_initial hc h _
  | restoreExtended reg => exact sameRegs_initial hc h _
  | rememberState =>
    exact ⟨h.off, h.regs, by
      show s.locRegs.regs :: _ = s'.locRegs.regs :: _
      rw [h.regs, h.remembered]⟩
  | restoreState =>
    have hrem := h.remembered
    simp only [Instruction.apply, cfaRestoreState]
    cases hs : s.locRegState <;> cases hs' : s'.locRegState <;> rw [hs, hs'] at hrem
    · exact h
    · cases hrem
    · cases hrem
    · exact ⟨h.off, (List.cons.inj hrem).1, (List.cons.inj hrem).2⟩
  | defCfa reg n => exact h.setCfa _
  | defCfaSf reg n =>
    simp only [Instruction.apply]
    rw [scaled_eq hc]
    exact .bind fun _ _ => h.setCfa _
  | defCfaRegister reg | defCfaOffset n =>
    simp only [Instruction.apply]
    rw [sameRegs_cfaRegister h]
    exact .bind fun _ _ => h.setCfa _
  | defCfaOffsetSf n =>
    simp only [Instruction.apply]
    rw [sameRegs_cfaRegister h, scaled_eq hc]
    exact .bind fun _ _ => .bind fun _ _ => h.setCfa _
  | defCfaExpression block =>
    simp only [Instruction.apply, CfaState.block, h.off]
    exact h.setCfa _
  | expression reg block | valExpression reg block =>
    simp only [Instruction.apply, CfaState.block, h.off]
    exact h.set _ _
  | aarch64NegateRaState =>
    simp only [Instruction.apply, cfaAarch64NegateRaState, hc.arch, h.regs]
    split
    · rfl
    · exact ⟨h.off, rfl, h.remembered⟩

theorem sameRegs_exec (hc : SameContext c c') (h : SameRegs s s') (i : Instruction w) :
    SameResult SameRegs (i.exec c s) (i.exec c' s') := by
  unfold Instruction.exec
  refine sameRegs_apply hc ?_ i
  exact ⟨congrArg (· + BitVec.ofNat 64 i.encode.length) h.off, h.regs, h.remembered⟩

/-! ## Rows of a CIE -/

/-- An instruction of a CIE: it does not move the location, nor remember one. -/
def Instruction.Initial : Instruction w → Prop
  | advanceLoc _ | advanceLoc1 _ | advanceLoc2 _ | advanceLoc4 _ | setLoc _ | rememberState | restoreState => False
  | _ => True

theorem next_of_initial {i : Instruction w} (h : i.Initial) (codeAlignmentFactor : BitVec 64) (curPc : BitVec w) :
    i.next codeAlignmentFactor curPc = curPc := by
  cases i <;> first | rfl | exact h.elim

/-- The instructions of a CIE have the same locations at any pc of any of its
FDEs. -/
theorem sameRegs_locate_initial (hc : SameContext c c') : ∀ {program : List (Instruction w)} {s s' : CfaState w},
    (∀ i ∈ program, i.Initial) → SameRegs s s' → ¬ pc < s.curPc.setWidth 64 → ¬ pc' < s'.curPc.setWidth 64 →
    SameResult SameRegs (c.locate pc program s) (c'.locate pc' program s')
  | [], s, s', _, h, hpc, hpc' => by
    rw [CfaContext.locate, CfaContext.locate, if_neg hpc, if_neg hpc']
    exact ⟨h.off, h.regs, h.remembered⟩
  | i :: program, s, s', hi, h, hpc, hpc' => by
    have hnext := next_of_initial (hi i List.mem_cons_self)
    rw [locate_cons hpc, locate_cons hpc']
    refine .bind_same (sameRegs_exec hc h i) fun s₁ s₁' hs₁ hs₁' h₁ => ?_
    refine sameRegs_locate_initial hc (fun i' hi' => hi i' (List.mem_cons_of_mem _ hi')) h₁ ?_ ?_
    · rwa [(exec_passed hs₁).curPc, hnext]
    · rwa [(exec_passed hs₁').curPc, hnext]

/-- The locations at a pc do not depend on the range the row had before. -/
theorem sameRegs_locate (hc : SameContext c c') : ∀ {program : List (Instruction w)} {s s' : CfaState w},
    SameRegs s s' → s.curPc = s'.curPc → SameResult SameRegs (c.locate pc program s) (c'.locate pc program s')
  | [], s, s', h, hcur => by
    rw [CfaContext.locate, CfaContext.locate, hcur]
    split <;> exact ⟨h.off, h.regs, h.remembered⟩
  | i :: program, s, s', h, hcur => by
    by_cases hpc : pc < s.curPc.setWidth 64
    · rw [locate_of_lt hpc, locate_of_lt (hcur ▸ hpc)]
      exact ⟨h.off, h.regs, h.remembered⟩
    · rw [locate_cons hpc, locate_cons (hcur ▸ hpc)]
      refine .bind_same (sameRegs_exec hc h i) fun s₁ s₁' hs₁ hs₁' h₁ => sameRegs_locate hc h₁ ?_
      rw [(exec_passed hs₁).curPc, (exec_passed hs₁').curPc, hcur, hc.cie]

theorem locRegState_of_locate : ∀ {program : List (Instruction w)} {s s' : CfaState w},
    (∀ i ∈ program, i.Initial) → c.locate pc program s = .ok s' → s'.locRegState = s.locRegState
  | [], s, s', _, h => by
    rw [CfaContext.locate] at h
    split at h <;> cases h <;> rfl
  | i :: program, s, s', hi, h => by
    by_cases hpc : pc < s.curPc.setWidth 64
    · rw [locate_of_lt hpc] at h
      cases h
      rfl
    · rw [locate_cons hpc] at h
      obtain ⟨s₁, hs₁, h⟩ := bind_eq_ok.mp h
      have hi₁ := hi i List.mem_cons_self
      rw [locRegState_of_locate (fun i' hi' => hi i' (List.mem_cons_of_mem _ hi')) h]
      exact (exec_passed hs₁).locRegState (by rintro rfl; exact hi₁) (by rintro rfl; exact hi₁)

/-! ## The rows of a section -/

/-- The bytes of a program lie between two offsets. -/
structure Placed (memory : Memory) (program : List (Instruction w)) (start end_ : BitVec 64) : Prop where
  bytes : memory.Holds start.toNat (encodeProgram program)
  length : start.toNat + (encodeProgram program).length = end_.toNat

/-- The programs of the CIEs and the FDEs of a section. -/
structure Programs (w : ℕ) where
  cie : DwarfCie → List (Instruction w)
  fde : DwarfFde → List (Instruction w)

/-- A section with these programs: no two FDEs cover a pc, and no program
leaves the pcs of its FDE, goes back or ends with restoring a state. -/
structure Assembled (c : DwarfSection) (entries : List (BitVec 64 × DwarfFde)) (programs : Programs w) : Prop where
  apart : ∀ e ∈ entries, ∀ e' ∈ entries, ∀ p, e.2.holds p = true → e'.2.holds p = true → e.2 = e'.2
  fits : ∀ e ∈ entries, e.2.pcStart.toNat < 2 ^ w
  cie : ∀ e ∈ entries, Placed c.memory (programs.cie e.2.cie) e.2.cie.cfaInstructionsOffset e.2.cie.cfaInstructionsEnd
  initial : ∀ e ∈ entries, ∀ i ∈ programs.cie e.2.cie, i.Initial
  fde : ∀ e ∈ entries, Placed c.memory (programs.fde e.2) e.2.cfaInstructionsOffset e.2.cfaInstructionsEnd
  forward : ∀ e ∈ entries, Forward e.2.cie.codeAlignmentFactor (e.2.pcStart.setWidth w) (programs.fde e.2)
  within : ∀ e ∈ entries,
    (lastLocation e.2.cie.codeAlignmentFactor (e.2.pcStart.setWidth w) (programs.fde e.2)).setWidth 64 ≤ e.2.pcEnd
  settled : ∀ e ∈ entries, (programs.fde e.2).getLast? ≠ some .restoreState

variable (c : DwarfSection) (arch : ArchEnum) (programs : Programs w)

/-- The locations with which every function of a CIE begins. -/
def DwarfSection.cieRow (fde : DwarfFde) (pc : BitVec 64) : Result (CfaState w) :=
  let cfa := c.cfa arch fde none
  cfa.locate pc (programs.cie fde.cie) (cfa.start w fde.cie.cfaInstructionsOffset { regs := ∅ } [])

/-- The row at a pc, from these locations on. -/
def DwarfSection.fdeRow (cieLocRegs : Locations) (locRegs : DwarfLocations) (fde : DwarfFde) (pc : BitVec 64) :
    Result (CfaState w) :=
  let cfa := c.cfa arch fde (some cieLocRegs)
  cfa.locate pc (programs.fde fde) (cfa.start w fde.cfaInstructionsOffset locRegs [])

/-- The locations at a pc of a function. -/
def DwarfSection.rowOf (fde : DwarfFde) (pc : BitVec 64) : Result Locations := do
  let cie ← c.cieRow arch programs fde fde.pcStart
  (c.fdeRow arch programs cie.locRegs.regs { regs := ∅ } fde pc).map (·.locRegs.regs)

/-- The locations at a pc, with the CIE they are of. -/
def DwarfSection.rowAt (entries : List (BitVec 64 × DwarfFde)) (pc : BitVec 64) : Result (Locations × DwarfCie) :=
  match coveringFde entries pc with
  | none => .error illegalState
  | some fde => do return (← c.rowOf arch programs fde pc, fde.cie)

/-- What makes a row fit to be cached: it holds its pc, and over all of the pcs
it claims the locations are its own. -/
structure Truthful (f : BitVec 64 → Option (Locations × DwarfCie)) (pc : BitVec 64) (row : CachedRow) : Prop where
  pcStart : row.locRegs.pcStart ≤ pc
  pcEnd : pc < row.locRegs.pcEnd
  content : ∀ pc', row.locRegs.pcStart ≤ pc' → pc' < row.locRegs.pcEnd → f pc' = some row.content

section Rows

variable {c arch programs} {entries : List (BitVec 64 × DwarfFde)} (hw : w = 32 ∨ w = 64)
  (h : Assembled c entries programs) {fuel : ℕ} {e : BitVec 64 × DwarfFde} (he : e ∈ entries)

theorem overwrite_empty (regs : Locations) : overwrite ∅ regs = regs :=
  Finmap.ext_lookup fun k => by
    rw [overwrite]
    by_cases hk : k ∈ regs
    · rw [Finmap.lookup_union_left hk]
    · rw [Finmap.lookup_union_right hk, Finmap.lookup_empty, Finmap.lookup_eq_none.mpr hk]

theorem overwrite_self (regs : Locations) : overwrite regs regs = regs :=
  Finmap.ext_lookup fun k => by
    rw [overwrite]
    by_cases hk : k ∈ regs
    · rw [Finmap.lookup_union_left hk]
    · rw [Finmap.lookup_union_right hk]

include hw in
theorem getLocationInfo_placed {cfa : CfaContext} {program : List (Instruction w)} {start end_ : BitVec 64}
    (hp : Placed cfa.memory.memory program start end_) (hfuel : program.length < fuel) (pc : BitVec 64)
    (locRegs : DwarfLocations) (locRegState : List DwarfLocations) :
    cfa.getLocationInfo w fuel pc start end_ locRegs locRegState =
      some (cfa.locate pc program (cfa.start w start locRegs locRegState)) :=
  locationLoop_encode hw cfa pc hfuel hp.bytes hp.length

include h he in
theorem setWidth_pcStart (hle : w ≤ 64) : (e.2.pcStart.setWidth w).setWidth 64 = e.2.pcStart :=
  setWidth_setWidth_of_lt hle (h.fits e he)

theorem SameResult.map_eq {α β : Type} {r : α → α → Prop} {x x' : Result α} {f : α → β} (hx : SameResult r x x')
    (hf : ∀ a a', r a a' → f a = f a') : x.map f = x'.map f := by
  cases x <;> cases x' <;> try exact hx.elim
  · exact congrArg Except.error hx
  · exact congrArg Except.ok (hf _ _ hx)

include h he in
/-- The locations of a CIE are the same from whichever of its FDEs, at
whichever pc. -/
theorem cieRow_eq (hle : w ≤ 64) {e' : BitVec 64 × DwarfFde} (he' : e' ∈ entries) (hcie : e.2.cie = e'.2.cie)
    {pc pc' : BitVec 64} (hpc : e.2.pcStart ≤ pc) (hpc' : e'.2.pcStart ≤ pc') :
    (c.cieRow arch programs e.2 pc).map (·.locRegs.regs) = (c.cieRow arch programs e'.2 pc').map (·.locRegs.regs) := by
  refine SameResult.map_eq (r := SameRegs) ?_ fun _ _ hs => hs.regs
  have hc : SameContext (c.cfa arch e.2 none) (c.cfa arch e'.2 none) := ⟨hcie, rfl, rfl⟩
  unfold DwarfSection.cieRow
  rw [hcie]
  refine sameRegs_locate_initial hc (h.initial e' he') ⟨rfl, rfl, rfl⟩ ?_ ?_
  · exact BitVec.not_lt.mpr ((setWidth_pcStart h he hle).symm ▸ hpc)
  · exact BitVec.not_lt.mpr ((setWidth_pcStart h he' hle).symm ▸ hpc')

variable {cieLocRegs : Locations} {locRegs : DwarfLocations} {pc : BitVec 64}
  (hcie : (c.cieRow arch programs e.2 e.2.pcStart).map (·.locRegs.regs) = .ok cieLocRegs)
  (hlocRegs : locRegs.regs = ∅ ∨ locRegs.regs = cieLocRegs)

include hcie in
theorem rowOf_eq (pc : BitVec 64) : c.rowOf arch programs e.2 pc =
    (c.fdeRow arch programs cieLocRegs { regs := ∅ } e.2 pc).map (·.locRegs.regs) := by
  rw [DwarfSection.rowOf]
  cases hx : c.cieRow arch programs e.2 e.2.pcStart with
  | error f =>
    rw [hx] at hcie
    cases hcie
  | ok s =>
    rw [hx] at hcie
    cases hcie
    rfl

include hcie hlocRegs in
theorem fdeRow_eq (pc : BitVec 64) : (c.fdeRow arch programs cieLocRegs locRegs e.2 pc).map (·.locRegs.regs) =
    c.rowOf arch programs e.2 pc := by
  rw [rowOf_eq hcie]
  refine SameResult.map_eq (r := SameRegs) ?_ fun _ _ hs => hs.regs
  refine sameRegs_locate ⟨rfl, rfl, rfl⟩ ⟨rfl, ?_, rfl⟩ rfl
  show overwrite locRegs.regs cieLocRegs = overwrite ∅ cieLocRegs
  rcases hlocRegs with hl | hl <;> rw [hl, overwrite_empty]
  exact overwrite_self _

include h he in
theorem rowAt_eq (hpc : e.2.holds pc.toNat = true) :
    c.rowAt arch programs entries pc = (c.rowOf arch programs e.2 pc).map (·, e.2.cie) := by
  have hcover : coveringFde entries pc = some e.2 := by
    rw [coveringFde]
    cases hf : entries.find? fun e => e.2.holds pc.toNat with
    | none => exact absurd hpc (by simpa using List.find?_eq_none.mp hf e he)
    | some e' =>
      have hholds := List.find?_some (p := fun e : BitVec 64 × DwarfFde => e.2.holds pc.toNat) hf
      exact congrArg some (h.apart e' (List.mem_of_find?_eq_some hf) e he pc.toNat hholds hpc)
  rw [DwarfSection.rowAt, hcover]
  dsimp only
  cases c.rowOf arch programs e.2 pc <;> rfl

include hw h he hcie hlocRegs in
/-- The row found at a pc of a function may be cached. -/
theorem truthful_of_fdeRow (hpc : e.2.holds pc.toNat = true) {s : CfaState w}
    (hs : c.fdeRow arch programs cieLocRegs locRegs e.2 pc = .ok s) :
    Truthful (fun pc => (c.rowAt arch programs entries pc).toOption) pc { locRegs := s.locRegs, cie := e.2.cie } := by
  have hle : w ≤ 64 := by omega
  have hstart := setWidth_pcStart h he hle
  have hholds := of_decide_eq_true hpc
  have hfwd := h.forward e he
  have hrow := locate_row hle rfl (h.settled e he) hfwd (hstart.symm ▸ hholds.1) hs
  have hend := pcEnd_le_of_locate hle hfwd (h.within e he) hs
  refine ⟨hrow.pcStart, hrow.pcEnd hholds.2, fun pc' hlo hhi => ?_⟩
  have hpc' : e.2.holds pc'.toNat = true :=
    decide_eq_true ⟨BitVec.le_trans (hstart ▸ hrow.begins) hlo, (BitVec.lt_def.mp hhi).trans_le (BitVec.le_def.mp hend)⟩
  obtain ⟨row', hrow', hregs⟩ := hrow.regs pc' hlo hhi
  have hfound : c.fdeRow arch programs cieLocRegs locRegs e.2 pc' = .ok row' := hrow'
  have hof := fdeRow_eq hcie hlocRegs pc'
  rw [hfound] at hof
  rw [rowAt_eq h he hpc', ← hof]
  exact congrArg (fun regs => some (regs, e.2.cie)) hregs

end Rows

/-! ## Runs -/

/-- What is cached of CIEs and rows is what they are. -/
structure RowsAgree (c : DwarfSection) (arch : ArchEnum) (programs : Programs w)
    (entries : List (BitVec 64 × DwarfFde)) (cieLocRegs : BitVec 64 → Option Locations)
    (locRegs : EndMap.Map ℕ CachedRow) : Prop where
  cie : ∀ e ∈ entries, ∀ regs, cieLocRegs e.2.cieOffset = some regs →
    (c.cieRow arch programs e.2 e.2.pcStart).map (·.locRegs.regs) = .ok regs
  rows : EndMap.Holding CachedRow.start CachedRow.content
    (fun p => (c.rowAt arch programs entries (BitVec.ofNat 64 p)).toOption) locRegs

/-- What is cached once there is an index. -/
abbrev Stepping (c : DwarfSection) (arch : ArchEnum) (programs : Programs w)
    (entries : List (BitVec 64 × DwarfFde)) (s : SectionCaches) : Prop :=
  Agree c w
    (fun index cieLocRegs locRegs => index = indexOf entries ∧ RowsAgree c arch programs entries cieLocRegs locRegs) s

section Runs

variable {c arch programs} {entries : List (BitVec 64 × DwarfFde)} (hw : w = 32 ∨ w = 64)
  (h : Assembled c entries programs) {fuel : ℕ}
  (hfuel : ∀ e ∈ entries, (programs.cie e.2.cie).length < fuel ∧ (programs.fde e.2).length < fuel)
  {scanned : SectionCaches} (hscan : c.scan w fuel c.entriesOffset SectionCaches.empty = some (.ok entries, scanned))
  {e : BitVec 64 × DwarfFde} (he : e ∈ entries) {s : SectionCaches} {pc : BitVec 64}

theorem rowsAgree_empty : RowsAgree c arch programs entries (fun _ => none) EndMap.Map.empty :=
  ⟨nofun, EndMap.Holding.empty⟩

theorem Truthful.holding {row : CachedRow}
    (hrow : Truthful (fun pc => (c.rowAt arch programs entries pc).toOption) pc row) :
    row.start < row.locRegs.pcEnd.toNat ∧ ∀ p, row.start ≤ p → p < row.locRegs.pcEnd.toNat →
      (c.rowAt arch programs entries (BitVec.ofNat 64 p)).toOption = some row.content := by
  refine ⟨(BitVec.le_def.mp hrow.pcStart).trans_lt (BitVec.lt_def.mp hrow.pcEnd), fun p hlo hhi => ?_⟩
  have hp : (BitVec.ofNat 64 p).toNat = p := by
    rw [BitVec.toNat_ofNat, Nat.mod_eq_of_lt (hhi.trans row.locRegs.pcEnd.isLt)]
  exact hrow.content _ (BitVec.le_def.mpr (hp.symm ▸ hlo)) (BitVec.lt_def.mpr (hp.symm ▸ hhi))

/-- What is to be known of what `GetCfaLocationInfo` gives. -/
def RowSpec (c : DwarfSection) (arch : ArchEnum) (programs : Programs w) (entries : List (BitVec 64 × DwarfFde))
    (fde : DwarfFde) (pc : BitVec 64) : Result DwarfLocations → Prop
  | .error f => c.rowOf arch programs fde pc = .error f
  | .ok locRegs =>
    Truthful (fun pc => (c.rowAt arch programs entries pc).toOption) pc { locRegs, cie := fde.cie }

include hw h hfuel he in
/-- The program of an FDE run from these locations on. -/
theorem fdeProgram_spec {cieLocRegs : Locations} (locRegs : DwarfLocations)
    (hcie : (c.cieRow arch programs e.2 e.2.pcStart).map (·.locRegs.regs) = .ok cieLocRegs)
    (hlocRegs : locRegs.regs = ∅ ∨ locRegs.regs = cieLocRegs) (hpc : e.2.holds pc.toNat = true)
    (caches : SectionCaches) :
    ∃ r, (do
        let s ← ofRun ((c.cfa arch e.2 (some cieLocRegs)).getLocationInfo w fuel pc e.2.cfaInstructionsOffset
          e.2.cfaInstructionsEnd locRegs [])
        return s.locRegs : SectionM DwarfLocations) caches = some (r, caches) ∧
      RowSpec c arch programs entries e.2 pc r := by
  have hrun : (c.cfa arch e.2 (some cieLocRegs)).getLocationInfo w fuel pc e.2.cfaInstructionsOffset
      e.2.cfaInstructionsEnd locRegs [] = some (c.fdeRow arch programs cieLocRegs locRegs e.2 pc) :=
    getLocationInfo_placed hw (h.fde e he) (hfuel e he).2 pc locRegs []
  rw [hrun]
  cases hr : c.fdeRow arch programs cieLocRegs locRegs e.2 pc with
  | error f =>
    refine ⟨.error f, rfl, ?_⟩
    have heq := fdeRow_eq hcie hlocRegs pc
    rw [hr] at heq
    exact heq.symm
  | ok t => exact ⟨.ok t.locRegs, rfl, truthful_of_fdeRow hw h he hcie hlocRegs hpc hr⟩

include h hscan he in
theorem Stepping.storeCieRow (hw : w ≤ 64) (hs : Stepping c arch programs entries s) {cie : CfaState w}
    (hpc : e.2.pcStart ≤ pc) (hcie : c.cieRow arch programs e.2 pc = .ok cie) :
    Stepping c arch programs entries
      { s with cieLocRegs := Function.update s.cieLocRegs e.2.cieOffset (some cie.locRegs.regs) } := by
  refine ⟨hs.cie, hs.fde, hs.rest.1, fun e' he' regs hregs => ?_, hs.rest.2.rows⟩
  replace hregs : Function.update s.cieLocRegs e.2.cieOffset (some cie.locRegs.regs) e'.2.cieOffset = some regs := hregs
  by_cases hoff : e'.2.cieOffset = e.2.cieOffset
  · rw [hoff, Function.update_self] at hregs
    cases hregs
    have hat := (scan_spec (P := fun _ _ _ => True) ⟨Memo.agrees_empty _, Memo.agrees_empty _, trivial⟩ hscan).2
      entries rfl
    have hsame : e'.2.cie = e.2.cie := by
      refine Except.ok.inj ((readCie_of_fdeAt (hat e' he')).symm.trans ?_)
      rw [hoff]
      exact readCie_of_fdeAt (hat e he)
    rw [cieRow_eq h he' hw he hsame (BitVec.le_refl _) hpc, hcie]
    rfl
  · rw [Function.update_of_ne hoff] at hregs
    exact hs.rest.2.cie e' he' regs hregs

include hw h hfuel hscan he in
theorem getCfaLocationInfo_spec (hs : Stepping c arch programs entries s) (hpc : e.2.holds pc.toNat = true) :
    ∃ r s', c.getCfaLocationInfo w fuel arch pc e.2 s = some (r, s') ∧ Stepping c arch programs entries s' ∧
      RowSpec c arch programs entries e.2 pc r := by
  have hle : w ≤ 64 := by omega
  have hstart : e.2.pcStart ≤ pc := (of_decide_eq_true hpc).1
  unfold DwarfSection.getCfaLocationInfo
  rw [Through.bind_ok (show (get : SectionM SectionCaches) s = some (.ok s, s) from rfl)]
  cases hcache : s.cieLocRegs e.2.cieOffset with
  | some cieLocRegs =>
    obtain ⟨r, hr, hspec⟩ := fdeProgram_spec hw h hfuel he { regs := ∅ }
      (hs.rest.2.cie e he cieLocRegs hcache) (.inl rfl) hpc s
    exact ⟨r, s, hr, hs, hspec⟩
  | none =>
    have hrun : (c.cfa arch e.2 none).getLocationInfo w fuel pc e.2.cie.cfaInstructionsOffset
        e.2.cie.cfaInstructionsEnd { regs := ∅ } [] = some (c.cieRow arch programs e.2 pc) :=
      getLocationInfo_placed hw (h.cie e he) (hfuel e he).1 pc _ []
    have hsame : (c.cieRow arch programs e.2 e.2.pcStart).map _ = (c.cieRow arch programs e.2 pc).map _ :=
      cieRow_eq h he hle he rfl (BitVec.le_refl e.2.pcStart) hstart
    dsimp only
    rw [hrun]
    cases hr : c.cieRow arch programs e.2 pc with
    | error f =>
      refine ⟨.error f, s, rfl, hs, ?_⟩
      rw [hr] at hsame
      rw [RowSpec, DwarfSection.rowOf]
      cases hx : c.cieRow arch programs e.2 e.2.pcStart with
      | error f' =>
        rw [hx] at hsame
        exact congrArg Except.error (Except.error.inj hsame)
      | ok t =>
        rw [hx] at hsame
        cases hsame
    | ok cie =>
      rw [hr] at hsame
      have hnil : cie.locRegState = [] := locRegState_of_locate (h.initial e he) hr
      obtain ⟨r, hr', hspec⟩ := fdeProgram_spec hw h hfuel he cie.locRegs hsame (.inr rfl) hpc
        { s with cieLocRegs := Function.update s.cieLocRegs e.2.cieOffset (some cie.locRegs.regs) }
      refine ⟨r, _, ?_, hs.storeCieRow h hscan he hle hstart hr, hspec⟩
      rw [← hnil] at hr'
      exact hr'

theorem Stepping.storeRow {locRegs : EndMap.Map ℕ CachedRow}
    (hs : Stepping c arch programs entries s)
    (hrows : EndMap.Holding CachedRow.start CachedRow.content
      (fun p => (c.rowAt arch programs entries (BitVec.ofNat 64 p)).toOption) locRegs) :
    Stepping c arch programs entries { s with locRegs } :=
  ⟨hs.cie, hs.fde, hs.rest.1, hs.rest.2.cie, hrows⟩

include hw h hfuel hscan in
theorem gives_findRow (hne : indexOf entries ≠ []) (pc : BitVec 64) :
    Through.Gives (Indexed c w entries (RowsAgree c arch programs entries)) (c.findRow w fuel arch pc)
      (c.rowAt arch programs entries pc) := by
  refine Through.Gives.get_bind fun s hs => ?_
  have hrows : EndMap.Holding CachedRow.start CachedRow.content
      (fun p => (c.rowAt arch programs entries (BitVec.ofNat 64 p)).toOption) s.locRegs := by
    rcases hs with rfl | hs
    · exact EndMap.Holding.empty
    · exact hs.rest.2.rows
  cases hv : EndMap.valueAt CachedRow.start s.locRegs pc.toNat with
  | some row =>
    have hrow := hrows.valueAt hv
    rw [BitVec.ofNat_toNat, BitVec.setWidth_eq] at hrow
    rw [toOption_eq_some.mp hrow]
    exact ⟨s, rfl, hs⟩
  | none =>
    obtain ⟨s₁, hs₁, hstep⟩ := getFdeFromPc_eq hscan hne rowsAgree_empty hs pc
    dsimp only
    rw [Through.bind_ok hs₁]
    cases hcover : coveringFde entries pc with
    | none =>
      rw [DwarfSection.rowAt, hcover]
      exact ⟨s₁, rfl, .inr hstep⟩
    | some fde =>
      obtain ⟨e, hfind, rfl⟩ := Option.map_eq_some_iff.mp hcover
      have he := List.mem_of_find?_eq_some hfind
      have hholds := List.find?_some (p := fun e : BitVec 64 × DwarfFde => e.2.holds pc.toNat) hfind
      obtain ⟨r, s₂, hr, hs₂, hspec⟩ := getCfaLocationInfo_spec hw h hfuel hscan he hstep hholds
      dsimp only
      cases r with
      | error f =>
        rw [Through.bind_error hr, rowAt_eq h he hholds, show c.rowOf arch programs e.2 pc = .error f from hspec]
        exact ⟨s₂, rfl, .inr hs₂⟩
      | ok locRegs =>
        have hrow : Truthful (fun pc => (c.rowAt arch programs entries pc).toOption) pc
          { locRegs, cie := e.2.cie } := hspec
        obtain ⟨hlt, hcontent⟩ := hrow.holding
        rw [Through.bind_ok hr, toOption_eq_some.mp (hrow.content pc hrow.pcStart hrow.pcEnd),
          ← hs₂.rest.2.rows.emplace_content hlt hcontent]
        exact ⟨_, rfl, .inr (hs₂.storeRow (hs₂.rest.2.rows.emplace hlt hcontent))⟩

end Runs

/-- One call of `Step`. -/
structure StepCall (m : Machine w) where
  pc : BitVec 64
  regs : Regs m
  processMemory : Memory

def DwarfSection.stepCall (c : DwarfSection) (fuel : ℕ) (order : MapOrder) (x : StepCall m) : SectionM (StepResult m) :=
  c.step fuel order x.processMemory x.pc x.regs

/-- **Steps**: in a section with these programs, whose scan ends and finds an
FDE that has a range, whatever steps were made before, each one evaluates the
row of its pc, or fails as finding it does. -/
theorem step_run {c : DwarfSection} {fuel : ℕ} (hw : w = 32 ∨ w = 64) {programs : Programs w}
    {entries : List (BitVec 64 × DwarfFde)} (h : Assembled c entries programs)
    (hfuel : ∀ e ∈ entries, (programs.cie e.2.cie).length < fuel ∧ (programs.fde e.2).length < fuel)
    {scanned : SectionCaches} (hscan : c.scan w fuel c.entriesOffset SectionCaches.empty = some (.ok entries, scanned))
    (hne : indexOf entries ≠ []) (order : MapOrder) (calls : List (StepCall m)) :
    ∃ s, calls.mapM (fun x => Through.attempt (c.stepCall fuel order x)) SectionCaches.empty =
      some (.ok (calls.map fun x =>
        (c.rowAt m.arch programs entries x.pc).map (c.evalRow order x.processMemory x.regs)), s) := by
  have hgives (x : StepCall m) : Through.Gives (Indexed c w entries (RowsAgree c m.arch programs entries))
      (Through.attempt (c.stepCall fuel order x))
      (.ok ((c.rowAt m.arch programs entries x.pc).map (c.evalRow order x.processMemory x.regs))) := by
    refine Through.Gives.attempt ?_
    have hrow : Through.Gives _ (c.findRow w fuel m.arch x.pc) (c.rowAt m.arch programs entries x.pc) :=
      gives_findRow hw h hfuel hscan hne x.pc
    have hbind := hrow.bind
      (f := fun row => (pure (c.evalRow order x.processMemory x.regs row) : SectionM (StepResult m)))
      (g := fun row => .ok (c.evalRow order x.processMemory x.regs row)) fun _ _ => Through.Gives.pure _
    cases hr : c.rowAt m.arch programs entries x.pc <;> rw [hr] at hbind <;> exact hbind
  obtain ⟨s, hs, -⟩ := Through.Gives.mapM hgives calls SectionCaches.empty (.inl rfl)
  have hpure : calls.mapM (fun x => (.ok ((c.rowAt m.arch programs entries x.pc).map
      (c.evalRow order x.processMemory x.regs)) : Result _)) = .ok (calls.map fun x =>
      (c.rowAt m.arch programs entries x.pc).map (c.evalRow order x.processMemory x.regs)) := List.mapM_pure
  rw [hpure] at hs
  exact ⟨s, hs⟩

end AllocHook.Unwindstack
