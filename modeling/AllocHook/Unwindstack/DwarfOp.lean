/-
The evaluator of DWARF expressions (`DwarfOp.cpp`): a table says for each op
how it is handled, how many values it needs on the stack and what operands
follow it; `decode` takes one op, `eval` takes ops until the end of the
expression, a thousand at most.

`op_bra` jumps back by its offset where the value on top is zero, so a
conditional does not fall through; `op_ge` and the other comparisons compare
without a sign.

The front of `stack_` is the head of the list. Every access to it that the
code makes unchecked is `undefined` here if the element is not there, which
it always is (`eval_inBounds`).
-/
import AllocHook.Unwindstack.DwarfMemory

namespace AllocHook.Unwindstack

inductive DwarfOpHandleFunc
  | OP_ILLEGAL | OP_DEREF | OP_DEREF_SIZE | OP_PUSH | OP_DUP | OP_DROP | OP_OVER | OP_PICK | OP_SWAP | OP_ROT
  | OP_ABS | OP_AND | OP_DIV | OP_MINUS | OP_MOD | OP_MUL | OP_NEG | OP_NOT | OP_OR | OP_PLUS | OP_PLUS_UCONST
  | OP_SHL | OP_SHR | OP_SHRA | OP_XOR | OP_BRA | OP_EQ | OP_GE | OP_GT | OP_LE | OP_LT | OP_NE | OP_SKIP
  | OP_LIT | OP_REG | OP_REGX | OP_BREG | OP_BREGX | OP_NOP | OP_NOT_IMPLEMENTED
  deriving DecidableEq, Repr

open DwarfOpHandleFunc

structure OpCallback where
  handleFunc : DwarfOpHandleFunc
  numRequiredStackValues : ℕ
  operands : List (BitVec 8)
  deriving DecidableEq

def kCallbackTable : List OpCallback :=
  [⟨OP_ILLEGAL, 0, []⟩, ⟨OP_ILLEGAL, 0, []⟩, ⟨OP_ILLEGAL, 0, []⟩,
    ⟨OP_PUSH, 0, [DW_EH_PE_absptr]⟩, -- 0x03 DW_OP_addr
    ⟨OP_ILLEGAL, 0, []⟩, ⟨OP_ILLEGAL, 0, []⟩,
    ⟨OP_DEREF, 1, []⟩, -- 0x06 DW_OP_deref
    ⟨OP_ILLEGAL, 0, []⟩,
    ⟨OP_PUSH, 0, [DW_EH_PE_udata1]⟩, -- 0x08 DW_OP_const1u
    ⟨OP_PUSH, 0, [DW_EH_PE_sdata1]⟩,
    ⟨OP_PUSH, 0, [DW_EH_PE_udata2]⟩,
    ⟨OP_PUSH, 0, [DW_EH_PE_sdata2]⟩,
    ⟨OP_PUSH, 0, [DW_EH_PE_udata4]⟩, -- 0x0c DW_OP_const4u
    ⟨OP_PUSH, 0, [DW_EH_PE_sdata4]⟩,
    ⟨OP_PUSH, 0, [DW_EH_PE_udata8]⟩,
    ⟨OP_PUSH, 0, [DW_EH_PE_sdata8]⟩,
    ⟨OP_PUSH, 0, [DW_EH_PE_uleb128]⟩, -- 0x10 DW_OP_constu
    ⟨OP_PUSH, 0, [DW_EH_PE_sleb128]⟩,
    ⟨OP_DUP, 1, []⟩, -- 0x12 DW_OP_dup
    ⟨OP_DROP, 1, []⟩,
    ⟨OP_OVER, 2, []⟩,
    ⟨OP_PICK, 0, [DW_EH_PE_udata1]⟩,
    ⟨OP_SWAP, 2, []⟩,
    ⟨OP_ROT, 3, []⟩,
    ⟨OP_NOT_IMPLEMENTED, 2, []⟩, -- 0x18 DW_OP_xderef
    ⟨OP_ABS, 1, []⟩,
    ⟨OP_AND, 2, []⟩,
    ⟨OP_DIV, 2, []⟩,
    ⟨OP_MINUS, 2, []⟩,
    ⟨OP_MOD, 2, []⟩,
    ⟨OP_MUL, 2, []⟩,
    ⟨OP_NEG, 1, []⟩,
    ⟨OP_NOT, 1, []⟩, -- 0x20 DW_OP_not
    ⟨OP_OR, 2, []⟩,
    ⟨OP_PLUS, 2, []⟩,
    ⟨OP_PLUS_UCONST, 1, [DW_EH_PE_uleb128]⟩,
    ⟨OP_SHL, 2, []⟩,
    ⟨OP_SHR, 2, []⟩,
    ⟨OP_SHRA, 2, []⟩,
    ⟨OP_XOR, 2, []⟩,
    ⟨OP_BRA, 1, [DW_EH_PE_sdata2]⟩, -- 0x28 DW_OP_bra
    ⟨OP_EQ, 2, []⟩,
    ⟨OP_GE, 2, []⟩,
    ⟨OP_GT, 2, []⟩,
    ⟨OP_LE, 2, []⟩,
    ⟨OP_LT, 2, []⟩,
    ⟨OP_NE, 2, []⟩,
    ⟨OP_SKIP, 0, [DW_EH_PE_sdata2]⟩] ++ -- 0x2f DW_OP_skip
  List.replicate 32 ⟨OP_LIT, 0, []⟩ ++ -- 0x30 DW_OP_lit0
  List.replicate 32 ⟨OP_REG, 0, []⟩ ++ -- 0x50 DW_OP_reg0
  List.replicate 32 ⟨OP_BREG, 0, [DW_EH_PE_sleb128]⟩ ++ -- 0x70 DW_OP_breg0
  [⟨OP_REGX, 0, [DW_EH_PE_uleb128]⟩, -- 0x90 DW_OP_regx
    ⟨OP_NOT_IMPLEMENTED, 0, [DW_EH_PE_sleb128]⟩,
    ⟨OP_BREGX, 0, [DW_EH_PE_uleb128, DW_EH_PE_sleb128]⟩, -- 0x92 DW_OP_bregx
    ⟨OP_NOT_IMPLEMENTED, 0, [DW_EH_PE_uleb128]⟩,
    ⟨OP_DEREF_SIZE, 1, [DW_EH_PE_udata1]⟩, -- 0x94 DW_OP_deref_size
    ⟨OP_NOT_IMPLEMENTED, 0, [DW_EH_PE_udata1]⟩,
    ⟨OP_NOP, 0, []⟩, -- 0x96 DW_OP_nop
    ⟨OP_NOT_IMPLEMENTED, 0, []⟩,
    ⟨OP_NOT_IMPLEMENTED, 0, [DW_EH_PE_udata2]⟩,
    ⟨OP_NOT_IMPLEMENTED, 0, [DW_EH_PE_udata4]⟩,
    ⟨OP_NOT_IMPLEMENTED, 0, []⟩,
    ⟨OP_NOT_IMPLEMENTED, 0, []⟩,
    ⟨OP_NOT_IMPLEMENTED, 0, []⟩,
    ⟨OP_NOT_IMPLEMENTED, 0, [DW_EH_PE_uleb128, DW_EH_PE_uleb128]⟩,
    ⟨OP_NOT_IMPLEMENTED, 0, [DW_EH_PE_uleb128]⟩,
    ⟨OP_NOT_IMPLEMENTED, 1, []⟩] ++ -- 0x9f DW_OP_stack_value
  List.replicate 96 ⟨OP_ILLEGAL, 0, []⟩

theorem length_kCallbackTable : kCallbackTable.length = 256 := by decide +kernel

/-- The entry of an op. -/
def opCallback (op : BitVec 8) : OpCallback :=
  kCallbackTable.get ⟨op.toNat, by rw [length_kCallbackTable]; exact op.isLt⟩

/-! ## The ops -/

variable {w : ℕ}

/-- What an evaluation reads: the section, the memory of the process, and the
registers as `RegsInfo` shows them. -/
structure OpContext (w : ℕ) where
  memory : DwarfMemory
  regularMemory : Memory
  total : ℕ
  get : Fin total → BitVec w

structure OpState (w : ℕ) where
  off : BitVec 64
  stack : List (BitVec w)
  isRegister : Bool

/-- `sizeof(AddressType)`. -/
def sizeofAddress (w : ℕ) : ℕ := w / 8

def illegalValue : Fault := .error .illegalValue none

/-- `stack_[index]` and `operands_[index]`. -/
def elementAt {α : Type} (l : List α) (index : ℕ) : Result α :=
  match l[index]? with
  | some v => .ok v
  | none => .error (.undefined .outOfBounds)

def OpState.push (s : OpState w) (v : BitVec w) : OpState w := { s with stack := v :: s.stack }

def OpState.stackPop (s : OpState w) : Result (BitVec w × OpState w) :=
  match s.stack with
  | top :: stack => .ok (top, { s with stack })
  | [] => .error (.undefined .outOfBounds)

/-- An op that replaces the value on top. -/
def OpState.unary (s : OpState w) (f : BitVec w → Result (BitVec w)) : Result (OpState w) := do
  let (value, s) ← s.stackPop
  return s.push (← f value)

/-- An op that takes the value on top to the one below it. -/
def OpState.binary (s : OpState w) (f : BitVec w → BitVec w → Result (BitVec w)) : Result (OpState w) := do
  let (top, s) ← s.stackPop
  s.unary fun value => f value top

/-- An address read, of this many bytes. -/
def OpContext.deref (c : OpContext w) (size : ℕ) (addr : BitVec w) : Result (BitVec w) :=
  match c.regularMemory.readFully (addr.setWidth 64) size with
  | none => .error (.error .memoryInvalid (some (addr.setWidth 64)))
  | some dst => .ok (BitVec.ofNat w (littleEndian dst))

def boolToDwarfBool (w : ℕ) (value : Bool) : BitVec w := if value then 1 else 0

/-- `static_cast<int16_t>`, as a distance. -/
def int16 (operand : BitVec w) : BitVec 64 := ((operand.setWidth 16).signExtend 64)

/-- A register plus an offset. -/
def OpContext.breg (c : OpContext w) (reg : ℕ) (offset : BitVec w) (s : OpState w) : Result (OpState w) :=
  if h : reg < c.total then .ok (s.push (c.get ⟨reg, h⟩ + offset)) else .error illegalValue

def opDeref (c : OpContext w) (s : OpState w) : Result (OpState w) := s.unary (c.deref (sizeofAddress w))

def opDerefSize (c : OpContext w) (operands : List (BitVec w)) (s : OpState w) : Result (OpState w) := do
  let bytesToRead ← elementAt operands 0
  if sizeofAddress w < bytesToRead.toNat ∨ bytesToRead = 0 then .error illegalValue
  else s.unary (c.deref bytesToRead.toNat)

def opPush (operands : List (BitVec w)) (s : OpState w) : Result (OpState w) :=
  .ok (operands.foldl OpState.push s)

def opDup (s : OpState w) : Result (OpState w) := do return s.push (← elementAt s.stack 0)

def opDrop (s : OpState w) : Result (OpState w) := do return (← s.stackPop).2

def opOver (s : OpState w) : Result (OpState w) := do return s.push (← elementAt s.stack 1)

def opPick (operands : List (BitVec w)) (s : OpState w) : Result (OpState w) := do
  let index ← elementAt operands 0
  if s.stack.length ≤ index.toNat then .error (.error .stackIndexNotValid none)
  else return s.push (← elementAt s.stack index.toNat)

def opSwap (s : OpState w) : Result (OpState w) := do
  let (top, s) ← s.stackPop
  let (second, s) ← s.stackPop
  return (s.push top).push second

def opRot (s : OpState w) : Result (OpState w) := do
  let (top, s) ← s.stackPop
  let (second, s) ← s.stackPop
  let (third, s) ← s.stackPop
  return ((s.push top).push third).push second

/-- `-signed_value`. -/
def signedNeg (value : BitVec w) : Result (BitVec w) :=
  if value = BitVec.intMin w then .error (.undefined .overflow) else .ok (-value)

/-- `signed_dividend / signed_divisor`, where the divisor is not zero. -/
def signedDiv (value top : BitVec w) : Result (BitVec w) :=
  if top = 0 then .error illegalValue
  else if value = BitVec.intMin w ∧ top = -1 then .error (.undefined .overflow)
  else .ok (value.sdiv top)

def unsignedMod (value top : BitVec w) : Result (BitVec w) :=
  if top = 0 then .error illegalValue else .ok (value % top)

/-- A shift by the value on top. -/
def shiftBy (f : BitVec w → ℕ → BitVec w) (value top : BitVec w) : Result (BitVec w) :=
  if w ≤ top.toNat then .error (.undefined .shift) else .ok (f value top.toNat)

def signedAbs (value : BitVec w) : Result (BitVec w) := if value.msb then signedNeg value else .ok value

def opAbs (s : OpState w) : Result (OpState w) := s.unary signedAbs
def opAnd (s : OpState w) : Result (OpState w) := s.binary fun value top => .ok (value &&& top)
def opDiv (s : OpState w) : Result (OpState w) := s.binary signedDiv
def opMinus (s : OpState w) : Result (OpState w) := s.binary fun value top => .ok (value - top)
def opMod (s : OpState w) : Result (OpState w) := s.binary unsignedMod
def opMul (s : OpState w) : Result (OpState w) := s.binary fun value top => .ok (value * top)
def opNeg (s : OpState w) : Result (OpState w) := s.unary signedNeg
def opNot (s : OpState w) : Result (OpState w) := s.unary fun value => .ok (~~~value)
def opOr (s : OpState w) : Result (OpState w) := s.binary fun value top => .ok (value ||| top)
def opPlus (s : OpState w) : Result (OpState w) := s.binary fun value top => .ok (value + top)

def opPlusUconst (operands : List (BitVec w)) (s : OpState w) : Result (OpState w) := do
  let operand ← elementAt operands 0
  s.unary fun value => .ok (value + operand)

def opShl (s : OpState w) : Result (OpState w) := s.binary (shiftBy fun value n => value <<< n)
def opShr (s : OpState w) : Result (OpState w) := s.binary (shiftBy fun value n => value >>> n)
def opShra (s : OpState w) : Result (OpState w) := s.binary (shiftBy fun value n => value.sshiftRight n)
def opXor (s : OpState w) : Result (OpState w) := s.binary fun value top => .ok (value ^^^ top)

def opBra (operands : List (BitVec w)) (s : OpState w) : Result (OpState w) := do
  let (top, s) ← s.stackPop
  let offset := int16 (← elementAt operands 0)
  return { s with off := if top ≠ 0 then s.off + offset else s.off - offset }

/-- A comparison. -/
def OpState.compare (s : OpState w) (p : BitVec w → BitVec w → Bool) : Result (OpState w) :=
  s.binary fun value top => .ok (boolToDwarfBool w (p value top))

def opEq (s : OpState w) : Result (OpState w) := s.compare fun value top => value == top
def opGe (s : OpState w) : Result (OpState w) := s.compare fun value top => top.ule value
def opGt (s : OpState w) : Result (OpState w) := s.compare fun value top => top.ult value
def opLe (s : OpState w) : Result (OpState w) := s.compare fun value top => value.ule top
def opLt (s : OpState w) : Result (OpState w) := s.compare fun value top => value.ult top
def opNe (s : OpState w) : Result (OpState w) := s.compare fun value top => value != top

def opSkip (operands : List (BitVec w)) (s : OpState w) : Result (OpState w) := do
  let offset := int16 (← elementAt operands 0)
  return { s with off := s.off + offset }

def opLit (curOp : BitVec 8) (s : OpState w) : Result (OpState w) :=
  .ok (s.push (BitVec.ofNat w (curOp.toNat - 0x30)))

def opReg (curOp : BitVec 8) (s : OpState w) : Result (OpState w) :=
  .ok { s.push (BitVec.ofNat w (curOp.toNat - 0x50)) with isRegister := true }

def opRegx (operands : List (BitVec w)) (s : OpState w) : Result (OpState w) := do
  let reg ← elementAt operands 0
  return { s.push reg with isRegister := true }

def opBreg (c : OpContext w) (curOp : BitVec 8) (operands : List (BitVec w)) (s : OpState w) : Result (OpState w) := do
  c.breg (curOp.toNat - 0x70) (← elementAt operands 0) s

def opBregx (c : OpContext w) (operands : List (BitVec w)) (s : OpState w) : Result (OpState w) := do
  let reg ← elementAt operands 0
  c.breg reg.toNat (← elementAt operands 1) s

def opNop (s : OpState w) : Result (OpState w) := .ok s
def opNotImplemented : Result (OpState w) := .error (.error .notImplemented none)

/-- `kOpHandleFuncList`. -/
def OpContext.handle (c : OpContext w) (curOp : BitVec 8) (operands : List (BitVec w)) (s : OpState w) :
    DwarfOpHandleFunc → Result (OpState w)
  | OP_ILLEGAL => .error illegalValue
  | OP_DEREF => opDeref c s
  | OP_DEREF_SIZE => opDerefSize c operands s
  | OP_PUSH => opPush operands s
  | OP_DUP => opDup s
  | OP_DROP => opDrop s
  | OP_OVER => opOver s
  | OP_PICK => opPick operands s
  | OP_SWAP => opSwap s
  | OP_ROT => opRot s
  | OP_ABS => opAbs s
  | OP_AND => opAnd s
  | OP_DIV => opDiv s
  | OP_MINUS => opMinus s
  | OP_MOD => opMod s
  | OP_MUL => opMul s
  | OP_NEG => opNeg s
  | OP_NOT => opNot s
  | OP_OR => opOr s
  | OP_PLUS => opPlus s
  | OP_PLUS_UCONST => opPlusUconst operands s
  | OP_SHL => opShl s
  | OP_SHR => opShr s
  | OP_SHRA => opShra s
  | OP_XOR => opXor s
  | OP_BRA => opBra operands s
  | OP_EQ => opEq s
  | OP_GE => opGe s
  | OP_GT => opGt s
  | OP_LE => opLe s
  | OP_LT => opLt s
  | OP_NE => opNe s
  | OP_SKIP => opSkip operands s
  | OP_LIT => opLit curOp s
  | OP_REG => opReg curOp s
  | OP_REGX => opRegx operands s
  | OP_BREG => opBreg c curOp operands s
  | OP_BREGX => opBregx c operands s
  | OP_NOP => opNop s
  | OP_NOT_IMPLEMENTED => opNotImplemented

/-! ## Evaluation -/

/-- Values one after the other, as `AddressType`. -/
def DwarfMemory.readOperands (d : DwarfMemory) (w : ℕ) :
    List (BitVec 8) → BitVec 64 → Result (List (BitVec w) × BitVec 64)
  | [], off => .ok ([], off)
  | encoding :: encodings, off => do
    let (value, off) ← d.readEncodedValue w encoding off
    let (operands, off) ← d.readOperands w encodings off
    return (value.setWidth w :: operands, off)

/-- `Decode`: the state after an op, with `cur_op_` and `operands_`. -/
def OpContext.decode (c : OpContext w) (s : OpState w) : Result (OpState w × BitVec 8 × List (BitVec w)) := do
  let (curOp, off) ← c.memory.readByte s.off
  let op := opCallback curOp
  if op.handleFunc = OP_ILLEGAL then .error illegalValue
  else if s.stack.length < op.numRequiredStackValues then .error (.error .stackIndexNotValid none)
  else do
    let (operands, off) ← c.memory.readOperands w op.operands off
    let s ← c.handle curOp operands { s with off } op.handleFunc
    return (s, curOp, operands)

/-- The loop of `Eval`, with the iterations that are left. -/
def OpContext.evalLoop (c : OpContext w) (end_ : BitVec 64) : ℕ → OpState w → Result (OpState w)
  | left, s =>
    if s.off < end_ then do
      let (s, _) ← c.decode s
      match left with
      | 0 => .error (.error .tooManyIterations none)
      | left + 1 => c.evalLoop end_ left s
    else .ok s

/-- What `Eval` leaves: the state and `dex_pc_set_`. -/
def OpContext.eval (c : OpContext w) (start end_ : BitVec 64) : Result (OpState w × Bool) := do
  let s : OpState w := { off := start, stack := [], isRegister := false }
  if ¬ s.off < end_ then return (s, false)
  let (s, curOp, operands) ← c.decode s
  -- The bytes `DEX1`, dropped by the next op.
  let checkForDrop := curOp = 0x0c ∧ operands.getLast? = some (BitVec.ofNat w 0x31584544)
  if ¬ s.off < end_ then return (s, false)
  let (s, curOp, _) ← c.decode s
  let dexPcSet := decide (checkForDrop ∧ curOp = 0x13)
  return (← c.evalLoop end_ 998 s, dexPcSet)

/-! ## No access outside of the stack -/

/-- Whatever else it comes to, it is no access to an element that is not
there. -/
def InBounds {α : Type} (r : Result α) : Prop := r ≠ .error (.undefined .outOfBounds)

variable {α β : Type} {x : Result α} {f : α → Result β}

theorem inBounds_ok (v : α) : InBounds (.ok v : Result α) := fun h => by cases h

theorem inBounds_error (code : DwarfErrorCode) (address : Option (BitVec 64)) :
    InBounds (.error (.error code address) : Result α) := fun h => by cases h

theorem InBounds.bind (hx : InBounds x) (hf : ∀ v, x = .ok v → InBounds (f v)) : InBounds (x >>= f) := by
  cases x with
  | error e => exact fun h => hx (by cases h; rfl)
  | ok v => exact hf v rfl

theorem inBounds_ite {p : Prop} [Decidable p] {y : Result α} (hx : p → InBounds x) (hy : ¬ p → InBounds y) :
    InBounds (if p then x else y) := by
  split
  · next h => exact hx h
  · next h => exact hy h

section Readers

variable (d : DwarfMemory)

theorem readBytes_inBounds (n : ℕ) (off : BitVec 64) : InBounds (d.readBytes n off) := by
  unfold DwarfMemory.readBytes
  split
  · exact inBounds_error _ _
  · exact inBounds_ok _

theorem readUnsigned_inBounds (n : ℕ) (off : BitVec 64) : InBounds (d.readUnsigned n off) :=
  (readBytes_inBounds d n off).bind fun _ _ => inBounds_ok _

theorem readSigned_inBounds (n : ℕ) (off : BitVec 64) : InBounds (d.readSigned n off) :=
  (readBytes_inBounds d n off).bind fun _ _ => inBounds_ok _

theorem readByte_inBounds (off : BitVec 64) : InBounds (d.readByte off) :=
  (readBytes_inBounds d 1 off).bind fun _ _ => inBounds_ok _

theorem readDigits_inBounds : ∀ rest shift c off, InBounds (d.readDigits rest shift c off)
  | 0, _, _, off => (readByte_inBounds d off).bind fun _ _ => fun h => by cases h
  | rest + 1, shift, c, off => by
    refine (readByte_inBounds d off).bind fun r _ => inBounds_ite (fun _ => ?_) fun _ => inBounds_ok _
    exact readDigits_inBounds rest _ _ _

theorem readULEB128_inBounds (off : BitVec 64) : InBounds (d.readULEB128 off) :=
  (readDigits_inBounds d _ _ _ off).bind fun _ _ => inBounds_ok _

theorem readSLEB128_inBounds (off : BitVec 64) : InBounds (d.readSLEB128 off) := by
  refine (readDigits_inBounds d _ _ _ off).bind fun r _ => inBounds_ite (fun _ => ?_) fun _ => inBounds_ok _
  exact inBounds_ite (fun _ => inBounds_ok _) fun _ h => by cases h

theorem readData_inBounds (encoding : BitVec 8) (off : BitVec 64) : InBounds (d.readData w encoding off) :=
  inBounds_ite (fun _ => readUnsigned_inBounds d _ off) fun _ =>
  inBounds_ite (fun _ => readULEB128_inBounds d off) fun _ =>
  inBounds_ite (fun _ => readSLEB128_inBounds d off) fun _ =>
  inBounds_ite (fun _ => readUnsigned_inBounds d _ off) fun _ =>
  inBounds_ite (fun _ => readSigned_inBounds d _ off) fun _ =>
  inBounds_ite (fun _ => readUnsigned_inBounds d _ off) fun _ =>
  inBounds_ite (fun _ => readSigned_inBounds d _ off) fun _ =>
  inBounds_ite (fun _ => readUnsigned_inBounds d _ off) fun _ =>
  inBounds_ite (fun _ => readSigned_inBounds d _ off) fun _ =>
  inBounds_ite (fun _ => readUnsigned_inBounds d _ off) fun _ =>
  inBounds_ite (fun _ => readSigned_inBounds d _ off) fun _ => inBounds_error _ _

theorem readEncodedValue_inBounds (encoding : BitVec 8) (off : BitVec 64) :
    InBounds (d.readEncodedValue w encoding off) := by
  refine inBounds_ite (fun _ => inBounds_ok _) fun _ => inBounds_ite (fun _ => ?_) fun _ => ?_
  · exact inBounds_ite (fun _ => inBounds_error _ _) fun _ => readUnsigned_inBounds d _ _
  · refine (readData_inBounds d encoding off).bind fun r _ => ?_
    obtain ⟨value, off⟩ := r
    dsimp only
    split
    · exact inBounds_error _ _
    · exact inBounds_ok _

/-- The operands of an op, all of them. -/
theorem readOperands_inBounds : ∀ encodings off, InBounds (d.readOperands w encodings off)
  | [], _ => inBounds_ok _
  | encoding :: encodings, off =>
    (readEncodedValue_inBounds d encoding off).bind fun r _ =>
      (readOperands_inBounds encodings r.2).bind fun _ _ => inBounds_ok _

theorem length_readOperands : ∀ {encodings off operands off'},
    d.readOperands w encodings off = .ok (operands, off') → operands.length = encodings.length
  | [], _, _, _, h => by cases h; rfl
  | encoding :: encodings, off, operands, off', h => by
    rw [DwarfMemory.readOperands, bind_eq_ok] at h
    obtain ⟨r, -, h⟩ := h
    rw [bind_eq_ok] at h
    obtain ⟨r', hr', h⟩ := h
    cases h
    exact congrArg Nat.succ (length_readOperands hr')

end Readers

/-- How deep a handler looks into the stack. -/
def DwarfOpHandleFunc.depth : DwarfOpHandleFunc → ℕ
  | OP_ROT => 3
  | OP_OVER | OP_SWAP | OP_AND | OP_DIV | OP_MINUS | OP_MOD | OP_MUL | OP_OR | OP_PLUS | OP_SHL | OP_SHR | OP_SHRA
  | OP_XOR | OP_EQ | OP_GE | OP_GT | OP_LE | OP_LT | OP_NE => 2
  | OP_DEREF | OP_DEREF_SIZE | OP_DUP | OP_DROP | OP_ABS | OP_NEG | OP_NOT | OP_PLUS_UCONST | OP_BRA => 1
  | _ => 0

/-- The operands a handler takes. -/
def DwarfOpHandleFunc.arity : DwarfOpHandleFunc → ℕ
  | OP_BREGX => 2
  | OP_DEREF_SIZE | OP_PICK | OP_PLUS_UCONST | OP_BRA | OP_SKIP | OP_REGX | OP_BREG => 1
  | _ => 0

/-- The table asks for what the handlers use, and for no more than one operand
to push. -/
theorem opCallback_enough (op : BitVec 8) :
    (opCallback op).handleFunc.depth ≤ (opCallback op).numRequiredStackValues ∧
      (opCallback op).handleFunc.arity ≤ (opCallback op).operands.length ∧
      ((opCallback op).handleFunc = OP_PUSH → (opCallback op).operands.length = 1) := by
  have hall : kCallbackTable.all (fun cb => decide (cb.handleFunc.depth ≤ cb.numRequiredStackValues ∧
      cb.handleFunc.arity ≤ cb.operands.length ∧ (cb.handleFunc = OP_PUSH → cb.operands.length = 1))) = true := by
    decide +kernel
  exact of_decide_eq_true (List.all_eq_true.mp hall _ (List.getElem_mem _))

/-- In bounds, with at most `n` values on the stack after it. -/
structure Within (n : ℕ) (r : Result (OpState w)) : Prop where
  inBounds : InBounds r
  length_le : ∀ s, r = .ok s → s.stack.length ≤ n

theorem within_ok {n : ℕ} {s : OpState w} (h : s.stack.length ≤ n) : Within n (.ok s) :=
  ⟨inBounds_ok s, fun s' h' => by cases h'; exact h⟩

theorem within_error {n : ℕ} {code : DwarfErrorCode} {address : Option (BitVec 64)} :
    Within n (.error (.error code address) : Result (OpState w)) :=
  ⟨inBounds_error _ _, fun s' h' => by cases h'⟩

theorem Within.bind {n : ℕ} {f : α → Result (OpState w)} (hx : InBounds x)
    (hf : ∀ v, x = .ok v → Within n (f v)) : Within n (x >>= f) := by
  refine ⟨hx.bind fun v hv => (hf v hv).inBounds, fun s hs => ?_⟩
  obtain ⟨v, hv, hs⟩ := bind_eq_ok.mp hs
  exact (hf v hv).length_le s hs

theorem elementAt_inBounds {l : List α} {i : ℕ} (h : i < l.length) : InBounds (elementAt l i) := by
  rw [elementAt, List.getElem?_eq_getElem h]
  exact inBounds_ok _

variable {s : OpState w} {c : OpContext w} {operands : List (BitVec w)} {n : ℕ}

theorem stackPop_inBounds (h : 1 ≤ s.stack.length) : InBounds s.stackPop := by
  unfold OpState.stackPop
  cases hs : s.stack with
  | nil => rw [hs] at h; exact absurd h (by simp)
  | cons top stack => exact inBounds_ok _

theorem length_stackPop {top : BitVec w} {s' : OpState w} (h : s.stackPop = .ok (top, s')) :
    s'.stack.length + 1 = s.stack.length := by
  unfold OpState.stackPop at h
  cases hs : s.stack with
  | nil => rw [hs] at h; cases h
  | cons top stack => rw [hs] at h; cases h; rfl

theorem push_within (v : BitVec w) : Within (s.stack.length + 1) (.ok (s.push v)) := within_ok (Nat.le_refl _)

theorem unary_within {f : BitVec w → Result (BitVec w)} (h : 1 ≤ s.stack.length) (hf : ∀ v, InBounds (f v)) :
    Within s.stack.length (s.unary f) := by
  refine .bind (stackPop_inBounds h) fun r hr => .bind (hf r.1) fun v _ => within_ok ?_
  exact (length_stackPop hr).le

theorem binary_within {f : BitVec w → BitVec w → Result (BitVec w)} (h : 2 ≤ s.stack.length)
    (hf : ∀ v top, InBounds (f v top)) : Within s.stack.length (s.binary f) := by
  refine .bind (stackPop_inBounds (by omega)) fun r hr => ?_
  have hlen := length_stackPop hr
  have hu := unary_within (s := r.2) (by omega) fun v => hf v r.1
  exact ⟨hu.inBounds, fun s' hs' => (hu.length_le s' hs').trans (by omega)⟩

theorem deref_inBounds (size : ℕ) (addr : BitVec w) : InBounds (c.deref size addr) := by
  unfold OpContext.deref
  split
  · exact inBounds_error _ _
  · exact inBounds_ok _

theorem breg_within (reg : ℕ) (offset : BitVec w) : Within (s.stack.length + 1) (c.breg reg offset s) := by
  unfold OpContext.breg
  split
  · exact push_within _
  · exact within_error

theorem signedNeg_inBounds (v : BitVec w) : InBounds (signedNeg v) :=
  inBounds_ite (fun _ h => by cases h) fun _ => inBounds_ok _

theorem shiftBy_inBounds (f : BitVec w → ℕ → BitVec w) (v top : BitVec w) : InBounds (shiftBy f v top) :=
  inBounds_ite (fun _ h => by cases h) fun _ => inBounds_ok _

theorem signedAbs_inBounds (v : BitVec w) : InBounds (signedAbs v) :=
  inBounds_ite (fun _ => signedNeg_inBounds v) fun _ => inBounds_ok _

theorem signedDiv_inBounds (v top : BitVec w) : InBounds (signedDiv v top) :=
  inBounds_ite (fun _ => inBounds_error _ _) fun _ => inBounds_ite (fun _ h => by cases h) fun _ => inBounds_ok _

theorem unsignedMod_inBounds (v top : BitVec w) : InBounds (unsignedMod v top) :=
  inBounds_ite (fun _ => inBounds_error _ _) fun _ => inBounds_ok _

theorem Within.mono {r : Result (OpState w)} {n m : ℕ} (h : Within n r) (hnm : n ≤ m) : Within m r :=
  ⟨h.inBounds, fun s hs => (h.length_le s hs).trans hnm⟩

/-- A handler that finds what it looks for leaves at most one value more. -/
theorem handle_within (curOp : BitVec 8) {f : DwarfOpHandleFunc} (hs : f.depth ≤ s.stack.length)
    (ho : f.arity ≤ operands.length) (hpush : f = OP_PUSH → operands.length = 1) :
    Within (s.stack.length + 1) (c.handle curOp operands s f) := by
  have hu {g : BitVec w → Result (BitVec w)} (h : 1 ≤ s.stack.length) (hg : ∀ v, InBounds (g v)) :
      Within (s.stack.length + 1) (s.unary g) := (unary_within h hg).mono (Nat.le_succ _)
  have hb {g : BitVec w → BitVec w → Result (BitVec w)} (h : 2 ≤ s.stack.length) (hg : ∀ v top, InBounds (g v top)) :
      Within (s.stack.length + 1) (s.binary g) := (binary_within h hg).mono (Nat.le_succ _)
  have hc {p : BitVec w → BitVec w → Bool} (h : 2 ≤ s.stack.length) : Within (s.stack.length + 1) (s.compare p) :=
    hb h fun _ _ => inBounds_ok _
  cases f with
  | OP_ILLEGAL => exact within_error
  | OP_DEREF => exact hu hs (deref_inBounds _)
  | OP_DEREF_SIZE =>
    refine .bind (elementAt_inBounds ho) fun size _ => ?_
    split
    · exact within_error
    · exact hu hs (deref_inBounds _)
  | OP_PUSH =>
    obtain ⟨v, rfl⟩ := List.length_eq_one_iff.mp (hpush rfl)
    exact push_within v
  | OP_DUP => exact .bind (elementAt_inBounds hs) fun v _ => push_within v
  | OP_DROP => exact .bind (stackPop_inBounds hs) fun r hr => within_ok (by have := length_stackPop hr; omega)
  | OP_OVER => exact .bind (elementAt_inBounds hs) fun v _ => push_within v
  | OP_PICK =>
    refine .bind (elementAt_inBounds ho) fun index _ => ?_
    split
    · exact within_error
    · next h => exact .bind (elementAt_inBounds (Nat.not_le.mp h)) fun v _ => push_within v
  | OP_SWAP =>
    refine .bind (stackPop_inBounds (Nat.le_of_succ_le hs)) fun r hr => ?_
    have h₁ := length_stackPop hr
    have hs' : 2 ≤ s.stack.length := hs
    refine .bind (stackPop_inBounds (by omega)) fun r' hr' => within_ok ?_
    have h₂ := length_stackPop hr'
    show r'.2.stack.length + 1 + 1 ≤ _
    omega
  | OP_ROT =>
    have hs' : 3 ≤ s.stack.length := hs
    refine .bind (stackPop_inBounds (by omega)) fun r hr => ?_
    have h₁ := length_stackPop hr
    refine .bind (stackPop_inBounds (by omega)) fun r' hr' => ?_
    have h₂ := length_stackPop hr'
    refine .bind (stackPop_inBounds (by omega)) fun r'' hr'' => within_ok ?_
    have h₃ := length_stackPop hr''
    show r''.2.stack.length + 1 + 1 + 1 ≤ _
    omega
  | OP_ABS => exact hu hs signedAbs_inBounds
  | OP_NEG => exact hu hs signedNeg_inBounds
  | OP_NOT => exact hu hs fun _ => inBounds_ok _
  | OP_PLUS_UCONST => exact .bind (elementAt_inBounds ho) fun operand _ => hu hs fun _ => inBounds_ok _
  | OP_DIV => exact hb hs signedDiv_inBounds
  | OP_MOD => exact hb hs unsignedMod_inBounds
  | OP_SHL => exact hb hs (shiftBy_inBounds _)
  | OP_SHR => exact hb hs (shiftBy_inBounds _)
  | OP_SHRA => exact hb hs (shiftBy_inBounds _)
  | OP_AND => exact hb hs fun _ _ => inBounds_ok _
  | OP_MINUS => exact hb hs fun _ _ => inBounds_ok _
  | OP_MUL => exact hb hs fun _ _ => inBounds_ok _
  | OP_OR => exact hb hs fun _ _ => inBounds_ok _
  | OP_PLUS => exact hb hs fun _ _ => inBounds_ok _
  | OP_XOR => exact hb hs fun _ _ => inBounds_ok _
  | OP_EQ => exact hc hs
  | OP_GE => exact hc (p := fun value top => top.ule value) hs
  | OP_GT => exact hc (p := fun value top => top.ult value) hs
  | OP_LE => exact hc hs
  | OP_LT => exact hc hs
  | OP_NE => exact hc hs
  | OP_BRA =>
    refine .bind (stackPop_inBounds hs) fun r hr => .bind (elementAt_inBounds ho) fun operand _ => within_ok ?_
    have h₁ := length_stackPop hr
    show r.2.stack.length ≤ _
    omega
  | OP_SKIP => exact .bind (elementAt_inBounds ho) fun operand _ => within_ok (Nat.le_succ _)
  | OP_LIT => exact push_within _
  | OP_REG => exact within_ok (Nat.le_refl _)
  | OP_REGX => exact .bind (elementAt_inBounds ho) fun reg _ => within_ok (Nat.le_refl _)
  | OP_BREG => exact .bind (elementAt_inBounds ho) fun offset _ => breg_within _ offset
  | OP_BREGX =>
    refine .bind (elementAt_inBounds (Nat.lt_of_succ_lt ho)) fun reg _ => ?_
    exact .bind (elementAt_inBounds ho) fun offset _ => breg_within _ offset
  | OP_NOP => exact within_ok (Nat.le_succ _)
  | OP_NOT_IMPLEMENTED => exact within_error

/-- An op leaves at most one value more on the stack. -/
theorem decode_within (c : OpContext w) (s : OpState w) :
    InBounds (c.decode s) ∧ ∀ r, c.decode s = .ok r → r.1.stack.length ≤ s.stack.length + 1 := by
  have hop : ∀ curOp off operands off',
      ¬ s.stack.length < (opCallback curOp).numRequiredStackValues →
      c.memory.readOperands w (opCallback curOp).operands off = .ok (operands, off') →
      Within (s.stack.length + 1) (c.handle curOp operands { s with off := off' } (opCallback curOp).handleFunc) := by
    intro curOp off operands off' hstack hread
    obtain ⟨hdepth, harity, hpush⟩ := opCallback_enough curOp
    have hlen := length_readOperands c.memory hread
    refine handle_within (s := { s with off := off' }) curOp ?_ (hlen ▸ harity) fun hf => hlen ▸ hpush hf
    exact hdepth.trans (Nat.not_lt.mp hstack)
  constructor
  · refine (readByte_inBounds c.memory s.off).bind fun r _ => inBounds_ite (fun _ => inBounds_error _ _) fun _ => ?_
    refine inBounds_ite (fun _ => inBounds_error _ _) fun hstack => ?_
    refine (readOperands_inBounds c.memory _ _).bind fun r' hr' => ?_
    exact (hop r.1 r.2 r'.1 r'.2 hstack hr').inBounds.bind fun _ _ => inBounds_ok _
  · intro out hout
    obtain ⟨r, -, hout⟩ := bind_eq_ok.mp hout
    dsimp only at hout
    split at hout
    · cases hout
    split at hout
    · cases hout
    next hstack =>
    obtain ⟨r', hr', hout⟩ := bind_eq_ok.mp hout
    obtain ⟨s', hs', hout⟩ := bind_eq_ok.mp hout
    cases hout
    exact (hop r.1 r.2 r'.1 r'.2 hstack hr').length_le s' hs'

theorem evalLoop_within (c : OpContext w) (end_ : BitVec 64) : ∀ left s,
    Within (s.stack.length + left) (c.evalLoop end_ left s)
  | 0, s => by
    rw [OpContext.evalLoop]
    split
    · exact .bind (decode_within c s).1 fun _ _ => within_error
    · exact within_ok (Nat.le_refl _)
  | left + 1, s => by
    rw [OpContext.evalLoop]
    split
    · refine .bind (decode_within c s).1 fun r hr => (evalLoop_within c end_ left r.1).mono ?_
      have := (decode_within c s).2 r hr
      omega
    · exact within_ok (Nat.le_add_right _ _)

/-- The loop from the first op on: `Eval` unrolls two passes of it. -/
theorem evalLoop_of_lt {c : OpContext w} {end_ : BitVec 64} {left : ℕ} {s : OpState w} (h : s.off < end_) :
    c.evalLoop end_ (left + 1) s = c.decode s >>= fun r => c.evalLoop end_ left r.1 := by
  rw [OpContext.evalLoop, if_pos h]

theorem eval_eq (c : OpContext w) (start end_ : BitVec 64) :
    (c.eval start end_).map Prod.fst =
      c.evalLoop end_ 1000 { off := start, stack := [], isRegister := false } := by
  unfold OpContext.eval
  dsimp only
  by_cases h : start < end_
  · rw [evalLoop_of_lt (s := { off := start, stack := [], isRegister := false }) h, if_neg (not_not.mpr h)]
    cases c.decode { off := start, stack := [], isRegister := false } with
    | error e => rfl
    | ok r =>
      obtain ⟨s, curOp, operands⟩ := r
      rw [bind_ok, bind_ok]
      dsimp only
      by_cases h : s.off < end_
      · rw [evalLoop_of_lt h, if_neg (not_not.mpr h)]
        cases c.decode s with
        | error e => rfl
        | ok r =>
          rw [bind_ok, bind_ok]
          cases c.evalLoop end_ 998 r.1 with
          | error e => rfl
          | ok s => rfl
      · rw [if_pos h, OpContext.evalLoop, if_neg h]
        rfl
  · rw [if_pos h, OpContext.evalLoop, if_neg h]
    rfl

/-- **The stack of an expression**: whatever the bytes, the memory and the
registers, evaluation looks at no element of the stack or of the operands that
is not there, and leaves at most a thousand values. -/
theorem eval_inBounds (c : OpContext w) (start end_ : BitVec 64) :
    InBounds (c.eval start end_) ∧ ∀ s dex, c.eval start end_ = .ok (s, dex) → s.stack.length ≤ 1000 := by
  have hw := evalLoop_within c end_ 1000 { off := start, stack := [], isRegister := false }
  have he := eval_eq c start end_
  constructor
  · intro hx
    rw [hx] at he
    exact hw.inBounds he.symm
  · intro s dex hx
    rw [hx] at he
    exact (hw.length_le s he.symm).trans (by simp)

end AllocHook.Unwindstack
