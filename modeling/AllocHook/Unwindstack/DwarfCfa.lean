/-
The interpreter of call frame instructions (`DwarfCfa.cpp`): the row of
locations that holds at a pc.

The locations are a map by register with the range of pcs they hold for.
`cfa_restore_state` brings back the range of the state it restores along with
the locations, and `cfa_offset` takes the operand of `DW_CFA_offset_extended`
as it is, where the short form multiplies it by the data alignment factor.

A block that goes around the addresses can bring the cursor back to the
instruction it belongs to, and then `GetLocationInfo` does not return: it has
fuel here, and `none` is a run that is still going.
-/
import AllocHook.Lib.FiniteMap
import AllocHook.Unwindstack.DwarfOp

namespace AllocHook.Unwindstack

inductive ArchEnum
  | ARCH_UNKNOWN | ARCH_ARM | ARCH_ARM64 | ARCH_X86 | ARCH_X86_64 | ARCH_MIPS | ARCH_MIPS64
  deriving DecidableEq, Repr

inductive DwarfLocationEnum
  | INVALID | UNDEFINED | OFFSET | VAL_OFFSET | REGISTER | EXPRESSION | VAL_EXPRESSION | PSEUDO_REGISTER
  deriving DecidableEq, Repr

structure DwarfLocation where
  type : DwarfLocationEnum
  values₀ : BitVec 64 := 0
  values₁ : BitVec 64 := 0
  deriving DecidableEq, Repr

abbrev Locations := FiniteMap.Map (BitVec 32) DwarfLocation

structure DwarfLocations where
  regs : Locations
  pcStart : BitVec 64 := 0
  pcEnd : BitVec 64 := 0
  deriving DecidableEq

structure DwarfCie where
  version : BitVec 8 := 0
  fdeAddressEncoding : BitVec 8 := 0
  lsdaEncoding : BitVec 8 := 0
  segmentSize : BitVec 8 := 0
  augmentationString : List (BitVec 8) := []
  personalityHandler : BitVec 64 := 0
  cfaInstructionsOffset : BitVec 64 := 0
  cfaInstructionsEnd : BitVec 64 := 0
  codeAlignmentFactor : BitVec 64 := 0
  dataAlignmentFactor : BitVec 64 := 0
  returnAddressRegister : BitVec 64 := 0
  isSignalFrame : Bool := false
  deriving DecidableEq, Repr

structure DwarfFde where
  cieOffset : BitVec 64 := 0
  cfaInstructionsOffset : BitVec 64 := 0
  cfaInstructionsEnd : BitVec 64 := 0
  pcStart : BitVec 64 := 0
  pcEnd : BitVec 64 := 0
  lsdaAddress : BitVec 64 := 0
  cie : DwarfCie
  deriving DecidableEq, Repr

def CFA_REG : BitVec 32 := 0xffff

def ARM64_PREG_RA_SIGN_STATE : BitVec 32 := 34

variable {w : ℕ}

structure CfaContext where
  memory : DwarfMemory
  fde : DwarfFde
  arch : ArchEnum
  cieLocRegs : Option Locations

structure CfaState (w : ℕ) where
  off : BitVec 64
  curPc : BitVec w
  locRegs : DwarfLocations
  /-- `loc_reg_state_`, its top the head. -/
  locRegState : List DwarfLocations

def illegalState : Fault := .error .illegalState none

/-! ## Instructions -/

/-- `(*loc_regs)[reg] = loc`, where the keys have 32 bits. -/
def CfaState.set (s : CfaState w) (reg : BitVec w) (loc : DwarfLocation) : CfaState w :=
  { s with locRegs := { s.locRegs with regs := s.locRegs.regs.insert (reg.setWidth 32) loc } }

def CfaState.erase (s : CfaState w) (reg : BitVec w) : CfaState w :=
  { s with locRegs := { s.locRegs with regs := s.locRegs.regs.erase (reg.setWidth 32) } }

def CfaState.setCfa (s : CfaState w) (loc : DwarfLocation) : CfaState w :=
  { s with locRegs := { s.locRegs with regs := s.locRegs.regs.insert CFA_REG loc } }

/-- The location of the cfa, where it is a register. -/
def CfaState.cfaRegister (s : CfaState w) : Result DwarfLocation :=
  match s.locRegs.regs.lookup CFA_REG with
  | some loc => if loc.type = .REGISTER then .ok loc else .error illegalState
  | none => .error illegalState

/-- A product of `int64_t`. -/
def mulInt64 (x y : BitVec 64) : Result (BitVec 64) :=
  if -2 ^ 63 ≤ x.toInt * y.toInt ∧ x.toInt * y.toInt < 2 ^ 63 then .ok (x * y) else .error (.undefined .overflow)

/-- An operand as `SignedType`, times the data alignment factor, as `SignedType`. -/
def CfaContext.scaled (c : CfaContext) (operand : BitVec w) : Result (BitVec 64) := do
  let product ← mulInt64 (operand.signExtend 64) c.fde.cie.dataAlignmentFactor
  return (product.setWidth w).signExtend 64

def cfaNop (s : CfaState w) : Result (CfaState w) := .ok s

def cfaSetLoc (operands : List (BitVec w)) (s : CfaState w) : Result (CfaState w) := do
  return { s with curPc := ← elementAt operands 0 }

def cfaAdvanceLoc (c : CfaContext) (operands : List (BitVec w)) (s : CfaState w) : Result (CfaState w) := do
  let delta := (← elementAt operands 0).setWidth 64 * c.fde.cie.codeAlignmentFactor
  return { s with curPc := s.curPc + delta.setWidth w }

def cfaOffset (operands : List (BitVec w)) (s : CfaState w) : Result (CfaState w) := do
  let reg ← elementAt operands 0
  return s.set reg { type := .OFFSET, values₀ := (← elementAt operands 1).setWidth 64 }

def cfaRestore (c : CfaContext) (operands : List (BitVec w)) (s : CfaState w) : Result (CfaState w) := do
  let reg ← elementAt operands 0
  match c.cieLocRegs with
  | none => .error illegalState
  | some cieLocRegs =>
    match cieLocRegs.lookup (reg.setWidth 32) with
    | none => return s.erase reg
    | some loc => return s.set reg loc

def cfaUndefined (operands : List (BitVec w)) (s : CfaState w) : Result (CfaState w) := do
  return s.set (← elementAt operands 0) { type := .UNDEFINED }

def cfaSameValue (operands : List (BitVec w)) (s : CfaState w) : Result (CfaState w) := do
  return s.erase (← elementAt operands 0)

def cfaRegister (operands : List (BitVec w)) (s : CfaState w) : Result (CfaState w) := do
  let reg ← elementAt operands 0
  return s.set reg { type := .REGISTER, values₀ := (← elementAt operands 1).setWidth 64 }

def cfaRememberState (s : CfaState w) : Result (CfaState w) :=
  .ok { s with locRegState := s.locRegs :: s.locRegState }

def cfaRestoreState (s : CfaState w) : Result (CfaState w) :=
  match s.locRegState with
  | [] => .ok s
  | top :: locRegState => .ok { s with locRegs := top, locRegState }

def cfaDefCfa (operands : List (BitVec w)) (s : CfaState w) : Result (CfaState w) := do
  let reg ← elementAt operands 0
  return s.setCfa
    { type := .REGISTER, values₀ := reg.setWidth 64, values₁ := (← elementAt operands 1).setWidth 64 }

def cfaDefCfaRegister (operands : List (BitVec w)) (s : CfaState w) : Result (CfaState w) := do
  let loc ← s.cfaRegister
  return s.setCfa { loc with values₀ := (← elementAt operands 0).setWidth 64 }

def cfaDefCfaOffset (operands : List (BitVec w)) (s : CfaState w) : Result (CfaState w) := do
  let loc ← s.cfaRegister
  return s.setCfa { loc with values₁ := (← elementAt operands 0).setWidth 64 }

def cfaDefCfaExpression (operands : List (BitVec w)) (s : CfaState w) : Result (CfaState w) := do
  return s.setCfa
    { type := .VAL_EXPRESSION, values₀ := (← elementAt operands 0).setWidth 64, values₁ := s.off }

def cfaExpression (operands : List (BitVec w)) (s : CfaState w) : Result (CfaState w) := do
  let reg ← elementAt operands 0
  return s.set reg
    { type := .EXPRESSION, values₀ := (← elementAt operands 1).setWidth 64, values₁ := s.off }

def cfaOffsetExtendedSf (c : CfaContext) (operands : List (BitVec w)) (s : CfaState w) : Result (CfaState w) := do
  let reg ← elementAt operands 0
  return s.set reg { type := .OFFSET, values₀ := ← c.scaled (← elementAt operands 1) }

def cfaDefCfaSf (c : CfaContext) (operands : List (BitVec w)) (s : CfaState w) : Result (CfaState w) := do
  let offset ← c.scaled (← elementAt operands 1)
  let reg ← elementAt operands 0
  return s.setCfa { type := .REGISTER, values₀ := reg.setWidth 64, values₁ := offset }

def cfaDefCfaOffsetSf (c : CfaContext) (operands : List (BitVec w)) (s : CfaState w) : Result (CfaState w) := do
  let loc ← s.cfaRegister
  return s.setCfa { loc with values₁ := ← c.scaled (← elementAt operands 0) }

def cfaValOffset (c : CfaContext) (operands : List (BitVec w)) (s : CfaState w) : Result (CfaState w) := do
  let reg ← elementAt operands 0
  return s.set reg { type := .VAL_OFFSET, values₀ := ← c.scaled (← elementAt operands 1) }

def cfaValOffsetSf (c : CfaContext) (operands : List (BitVec w)) (s : CfaState w) : Result (CfaState w) := do
  let reg ← elementAt operands 0
  return s.set reg { type := .VAL_OFFSET, values₀ := ← c.scaled (← elementAt operands 1) }

def cfaValExpression (operands : List (BitVec w)) (s : CfaState w) : Result (CfaState w) := do
  let reg ← elementAt operands 0
  return s.set reg
    { type := .VAL_EXPRESSION, values₀ := (← elementAt operands 1).setWidth 64, values₁ := s.off }

def cfaGnuNegativeOffsetExtended (operands : List (BitVec w)) (s : CfaState w) : Result (CfaState w) := do
  let reg ← elementAt operands 0
  let offset ← signedNeg (← elementAt operands 1)
  return s.set reg { type := .OFFSET, values₀ := offset.signExtend 64 }

def cfaAarch64NegateRaState (c : CfaContext) (s : CfaState w) : Result (CfaState w) :=
  if c.arch ≠ .ARCH_ARM64 then .error illegalValue
  else
    let loc :=
      match s.locRegs.regs.lookup ARM64_PREG_RA_SIGN_STATE with
      | none => { type := .PSEUDO_REGISTER, values₀ := 1 }
      | some loc => { loc with values₀ := loc.values₀ ^^^ 1 }
    .ok { s with locRegs := { s.locRegs with regs := s.locRegs.regs.insert ARM64_PREG_RA_SIGN_STATE loc } }

/-! ## The table -/

inductive CfaFunc
  | nop | setLoc | advanceLoc | offset | restore | undefined | sameValue | register | rememberState | restoreState
  | defCfa | defCfaRegister | defCfaOffset | defCfaExpression | expression | offsetExtendedSf | defCfaSf
  | defCfaOffsetSf | valOffset | valOffsetSf | valExpression | gnuNegativeOffsetExtended | aarch64NegateRaState
  deriving DecidableEq, Repr

/-- `kCallbackTable`, with the operands of `DwarfCfaInfo::kTable`; `none` is an
illegal instruction. -/
def kCfaTable : List (Option (CfaFunc × List (BitVec 8))) :=
  ([some (.nop, []), -- 0x00 DW_CFA_nop
    some (.setLoc, [DW_EH_PE_absptr]),
    some (.advanceLoc, [DW_EH_PE_udata1]),
    some (.advanceLoc, [DW_EH_PE_udata2]),
    some (.advanceLoc, [DW_EH_PE_udata4]), -- 0x04 DW_CFA_advance_loc4
    some (.offset, [DW_EH_PE_uleb128, DW_EH_PE_uleb128]),
    some (.restore, [DW_EH_PE_uleb128]),
    some (.undefined, [DW_EH_PE_uleb128]),
    some (.sameValue, [DW_EH_PE_uleb128]), -- 0x08 DW_CFA_same_value
    some (.register, [DW_EH_PE_uleb128, DW_EH_PE_uleb128]),
    some (.rememberState, []),
    some (.restoreState, []),
    some (.defCfa, [DW_EH_PE_uleb128, DW_EH_PE_uleb128]), -- 0x0c DW_CFA_def_cfa
    some (.defCfaRegister, [DW_EH_PE_uleb128]),
    some (.defCfaOffset, [DW_EH_PE_uleb128]),
    some (.defCfaExpression, [DW_EH_PE_block]),
    some (.expression, [DW_EH_PE_uleb128, DW_EH_PE_block]), -- 0x10 DW_CFA_expression
    some (.offsetExtendedSf, [DW_EH_PE_uleb128, DW_EH_PE_sleb128]),
    some (.defCfaSf, [DW_EH_PE_uleb128, DW_EH_PE_sleb128]),
    some (.defCfaOffsetSf, [DW_EH_PE_sleb128]),
    some (.valOffset, [DW_EH_PE_uleb128, DW_EH_PE_uleb128]), -- 0x14 DW_CFA_val_offset
    some (.valOffsetSf, [DW_EH_PE_uleb128, DW_EH_PE_sleb128]),
    some (.valExpression, [DW_EH_PE_uleb128, DW_EH_PE_block])] : List (Option (CfaFunc × List (BitVec 8)))) ++
  List.replicate 22 none ++
  ([some (.aarch64NegateRaState, []), -- 0x2d DW_CFA_AARCH64_negate_ra_state
    some (.nop, [DW_EH_PE_uleb128]), -- 0x2e DW_CFA_GNU_args_size
    some (.gnuNegativeOffsetExtended, [DW_EH_PE_uleb128, DW_EH_PE_uleb128])] :
    List (Option (CfaFunc × List (BitVec 8)))) ++
  List.replicate 16 none

theorem length_kCfaTable : kCfaTable.length = 64 := by decide +kernel

def CfaContext.handle (c : CfaContext) (operands : List (BitVec w)) (s : CfaState w) : CfaFunc → Result (CfaState w)
  | .nop => cfaNop s
  | .setLoc => cfaSetLoc operands s
  | .advanceLoc => cfaAdvanceLoc c operands s
  | .offset => cfaOffset operands s
  | .restore => cfaRestore c operands s
  | .undefined => cfaUndefined operands s
  | .sameValue => cfaSameValue operands s
  | .register => cfaRegister operands s
  | .rememberState => cfaRememberState s
  | .restoreState => cfaRestoreState s
  | .defCfa => cfaDefCfa operands s
  | .defCfaRegister => cfaDefCfaRegister operands s
  | .defCfaOffset => cfaDefCfaOffset operands s
  | .defCfaExpression => cfaDefCfaExpression operands s
  | .expression => cfaExpression operands s
  | .offsetExtendedSf => cfaOffsetExtendedSf c operands s
  | .defCfaSf => cfaDefCfaSf c operands s
  | .defCfaOffsetSf => cfaDefCfaOffsetSf c operands s
  | .valOffset => cfaValOffset c operands s
  | .valOffsetSf => cfaValOffsetSf c operands s
  | .valExpression => cfaValExpression operands s
  | .gnuNegativeOffsetExtended => cfaGnuNegativeOffsetExtended operands s
  | .aarch64NegateRaState => cfaAarch64NegateRaState c s

/-- The operands of an instruction: of a block its length, and the cursor goes
past it. -/
def DwarfMemory.readCfaOperands (d : DwarfMemory) (w : ℕ) :
    List (BitVec 8) → BitVec 64 → Result (List (BitVec w) × BitVec 64)
  | [], off => .ok ([], off)
  | encoding :: encodings, off => do
    let (value, off) ←
      if encoding = DW_EH_PE_block then do
        let (blockLength, off) ← d.readULEB128 off
        pure (blockLength, off + blockLength)
      else d.readEncodedValue w encoding off
    let (operands, off) ← d.readCfaOperands w encodings off
    return (value.setWidth w :: operands, off)

/-- An instruction with its op in the low bits. -/
def CfaContext.extended (c : CfaContext) (cfaLow : BitVec 8) (s : CfaState w) : Result (CfaState w) :=
  match kCfaTable[cfaLow.toNat]? with
  | some (some (func, encodings)) => do
    let (operands, off) ← c.memory.readCfaOperands w encodings s.off
    c.handle operands { s with off } func
  | _ => .error illegalValue

/-- One pass of the loop, at an instruction. -/
def CfaContext.step (c : CfaContext) (s : CfaState w) : Result (CfaState w) := do
  let s := { s with locRegs := { s.locRegs with pcStart := s.curPc.setWidth 64 } }
  let (cfaValue, off) ← c.memory.readByte s.off
  let s := { s with off }
  let cfaLow := cfaValue &&& 0x3f
  match (cfaValue >>> 6).toNat with
  | 1 =>
    let delta := cfaLow.setWidth 64 * c.fde.cie.codeAlignmentFactor
    return { s with curPc := s.curPc + delta.setWidth w }
  | 2 => do
    let (offset, off) ← c.memory.readULEB128 s.off
    let signedOffset ← c.scaled (offset.setWidth w)
    let s := { s with off }
    return { s with
      locRegs := { s.locRegs with
        regs := s.locRegs.regs.insert (cfaLow.setWidth 32) { type := .OFFSET, values₀ := signedOffset } } }
  | 3 =>
    match c.cieLocRegs with
    | none => .error illegalState
    | some cieLocRegs =>
      let regs :=
        match cieLocRegs.lookup (cfaLow.setWidth 32) with
        | none => s.locRegs.regs.erase (cfaLow.setWidth 32)
        | some loc => s.locRegs.regs.insert (cfaLow.setWidth 32) loc
      return { s with locRegs := { s.locRegs with regs } }
  | _ => c.extended cfaLow s

def CfaState.setPcEnd (s : CfaState w) (pcEnd : BitVec 64) : CfaState w :=
  { s with locRegs := { s.locRegs with pcEnd } }

/-- The loop of `GetLocationInfo`. -/
def CfaContext.locationLoop (c : CfaContext) (pc endOffset : BitVec 64) :
    ℕ → CfaState w → Option (Result (CfaState w))
  | 0, _ => none
  | fuel + 1, s =>
    if pc < s.curPc.setWidth 64 then some (.ok (s.setPcEnd (s.curPc.setWidth 64)))
    else if endOffset ≤ s.off then some (.ok (s.setPcEnd c.fde.pcEnd))
    else
      match c.step s with
      | .error e => some (.error e)
      | .ok s => c.locationLoop pc endOffset fuel s

/-- The entries of one map over those of another. -/
def overwrite (regs regs' : Locations) : Locations := regs' ∪ regs

/-- Where the loop starts. The states remembered are those of the `DwarfCfa`,
which may have gone through another program before. -/
def CfaContext.start (c : CfaContext) (w : ℕ) (startOffset : BitVec 64) (locRegs : DwarfLocations)
    (locRegState : List DwarfLocations) : CfaState w :=
  let locRegs :=
    match c.cieLocRegs with
    | none => locRegs
    | some cieLocRegs => { locRegs with regs := overwrite locRegs.regs cieLocRegs }
  let curPc := c.fde.pcStart.setWidth w
  { off := startOffset
    curPc
    locRegs := { locRegs with pcStart := curPc.setWidth 64 }
    locRegState }

def CfaContext.getLocationInfo (c : CfaContext) (w : ℕ) (fuel : ℕ) (pc startOffset endOffset : BitVec 64)
    (locRegs : DwarfLocations) (locRegState : List DwarfLocations) : Option (Result (CfaState w)) :=
  c.locationLoop pc endOffset fuel (c.start w startOffset locRegs locRegState)

end AllocHook.Unwindstack
