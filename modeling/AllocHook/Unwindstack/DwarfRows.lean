/-
What `DwarfCfa` makes of call frame programs: of the bytes of a list of
instructions, `GetLocationInfo` gives the row in force at the pc, as the
instructions are carried out one after the other (`locationLoop_encode`).

A row says for which pcs it holds, and the rows of a program whose locations
do not go back say so truly (`locate_of_mem_row`), unless the last instruction
restores a state: the row then begins where that state did.
-/
import AllocHook.Unwindstack.DwarfCfa
import AllocHook.Unwindstack.DwarfExpression

namespace AllocHook.Unwindstack

open Leb128

inductive Instruction (w : ℕ)
  | nop
  | advanceLoc (delta : Fin 64)
  | offset (reg : Fin 64) (n : BitVec w)
  | restore (reg : Fin 64)
  | setLoc (pc : BitVec w)
  | advanceLoc1 (delta : BitVec 8)
  | advanceLoc2 (delta : BitVec 16)
  | advanceLoc4 (delta : BitVec 32)
  | offsetExtended (reg n : BitVec w)
  | restoreExtended (reg : BitVec w)
  | undefined (reg : BitVec w)
  | sameValue (reg : BitVec w)
  | register (reg reg' : BitVec w)
  | rememberState
  | restoreState
  | defCfa (reg n : BitVec w)
  | defCfaRegister (reg : BitVec w)
  | defCfaOffset (n : BitVec w)
  | defCfaExpression (block : List (BitVec 8))
  | expression (reg : BitVec w) (block : List (BitVec 8))
  | offsetExtendedSf (reg : BitVec w) (n : Offset w)
  | defCfaSf (reg : BitVec w) (n : Offset w)
  | defCfaOffsetSf (n : Offset w)
  | valOffset (reg n : BitVec w)
  | valOffsetSf (reg : BitVec w) (n : Offset w)
  | valExpression (reg : BitVec w) (block : List (BitVec 8))
  | aarch64NegateRaState
  | gnuArgsSize (n : BitVec w)
  | gnuNegativeOffsetExtended (reg n : BitVec w)

variable {w : ℕ}

/-! ## Bytes -/

/-- The bytes of an unsigned integer of this many bytes. -/
def fixed (n : ℕ) : ℕ → List (BitVec 8)
  | 0 => []
  | size + 1 => BitVec.ofNat 8 n :: fixed (n / 256) size

def blockBytes (block : List (BitVec 8)) : List (BitVec 8) := unsigned block.length ++ block

def Instruction.head : Instruction w → BitVec 8
  | nop => 0x00
  | advanceLoc delta => 0x40 + BitVec.ofNat 8 delta
  | offset reg _ => 0x80 + BitVec.ofNat 8 reg
  | restore reg => 0xc0 + BitVec.ofNat 8 reg
  | setLoc _ => 0x01
  | advanceLoc1 _ => 0x02
  | advanceLoc2 _ => 0x03
  | advanceLoc4 _ => 0x04
  | offsetExtended _ _ => 0x05
  | restoreExtended _ => 0x06
  | undefined _ => 0x07
  | sameValue _ => 0x08
  | register _ _ => 0x09
  | rememberState => 0x0a
  | restoreState => 0x0b
  | defCfa _ _ => 0x0c
  | defCfaRegister _ => 0x0d
  | defCfaOffset _ => 0x0e
  | defCfaExpression _ => 0x0f
  | expression _ _ => 0x10
  | offsetExtendedSf _ _ => 0x11
  | defCfaSf _ _ => 0x12
  | defCfaOffsetSf _ => 0x13
  | valOffset _ _ => 0x14
  | valOffsetSf _ _ => 0x15
  | valExpression _ _ => 0x16
  | aarch64NegateRaState => 0x2d
  | gnuArgsSize _ => 0x2e
  | gnuNegativeOffsetExtended _ _ => 0x2f

/-- The bytes after the first. -/
def Instruction.tail : Instruction w → List (BitVec 8)
  | nop | advanceLoc _ | restore _ | rememberState | restoreState | aarch64NegateRaState => []
  | setLoc pc => fixed pc.toNat (w / 8)
  | advanceLoc1 delta => fixed delta.toNat 1
  | advanceLoc2 delta => fixed delta.toNat 2
  | advanceLoc4 delta => fixed delta.toNat 4
  | offset _ n | defCfaOffset n | gnuArgsSize n => unsigned n.toNat
  | restoreExtended reg | undefined reg | sameValue reg | defCfaRegister reg => unsigned reg.toNat
  | offsetExtended reg n | register reg n | defCfa reg n | valOffset reg n | gnuNegativeOffsetExtended reg n =>
    unsigned reg.toNat ++ unsigned n.toNat
  | offsetExtendedSf reg n | defCfaSf reg n | valOffsetSf reg n => unsigned reg.toNat ++ signed n.1.toInt
  | defCfaOffsetSf n => signed n.1.toInt
  | defCfaExpression block => blockBytes block
  | expression reg block | valExpression reg block => unsigned reg.toNat ++ blockBytes block

def Instruction.encode (i : Instruction w) : List (BitVec 8) := i.head :: i.tail

def encodeProgram (program : List (Instruction w)) : List (BitVec 8) := program.flatMap Instruction.encode

/-! ## Meaning -/

/-- Where the locations of the next row begin. -/
def Instruction.next (codeAlignmentFactor : BitVec 64) (curPc : BitVec w) : Instruction w → BitVec w
  | advanceLoc delta => curPc + (BitVec.ofNat 64 delta * codeAlignmentFactor).setWidth w
  | advanceLoc1 delta => curPc + (delta.setWidth 64 * codeAlignmentFactor).setWidth w
  | advanceLoc2 delta => curPc + (delta.setWidth 64 * codeAlignmentFactor).setWidth w
  | advanceLoc4 delta => curPc + (delta.setWidth 64 * codeAlignmentFactor).setWidth w
  | setLoc pc => pc
  | _ => curPc

/-- A register as it is at the beginning of the function. -/
def CfaContext.initial (c : CfaContext) (reg : BitVec 32) (s : CfaState w) : Result (CfaState w) :=
  match c.cieLocRegs with
  | none => .error illegalState
  | some cieLocRegs =>
    let regs :=
      match cieLocRegs.lookup reg with
      | none => s.locRegs.regs.erase reg
      | some loc => s.locRegs.regs.insert reg loc
    .ok { s with locRegs := { s.locRegs with regs } }

/-- A block of this length that the cursor has gone past. -/
def CfaState.block (s : CfaState w) (type : DwarfLocationEnum) (length : ℕ) : DwarfLocation :=
  { type, values₀ := (BitVec.ofNat w length).setWidth 64, values₁ := s.off }

/-- What an instruction does to the row. -/
def Instruction.apply (c : CfaContext) (s : CfaState w) : Instruction w → Result (CfaState w)
  | nop | gnuArgsSize _ | advanceLoc _ | advanceLoc1 _ | advanceLoc2 _ | advanceLoc4 _ | setLoc _ => .ok s
  | offset reg n => do
    return s.set (BitVec.ofNat w reg) { type := .OFFSET, values₀ := ← c.scaled n }
  | offsetExtended reg n => .ok (s.set reg { type := .OFFSET, values₀ := n.setWidth 64 })
  | offsetExtendedSf reg n => do return s.set reg { type := .OFFSET, values₀ := ← c.scaled n.1 }
  | gnuNegativeOffsetExtended reg n => do
    return s.set reg { type := .OFFSET, values₀ := (← signedNeg n).signExtend 64 }
  | valOffset reg n => do return s.set reg { type := .VAL_OFFSET, values₀ := ← c.scaled n }
  | valOffsetSf reg n => do return s.set reg { type := .VAL_OFFSET, values₀ := ← c.scaled n.1 }
  | register reg reg' => .ok (s.set reg { type := .REGISTER, values₀ := reg'.setWidth 64 })
  | undefined reg => .ok (s.set reg { type := .UNDEFINED })
  | sameValue reg => .ok (s.erase reg)
  | restore reg => c.initial (BitVec.ofNat 32 reg) s
  | restoreExtended reg => c.initial (reg.setWidth 32) s
  | rememberState => cfaRememberState s
  | restoreState => cfaRestoreState s
  | defCfa reg n =>
    .ok (s.setCfa { type := .REGISTER, values₀ := reg.setWidth 64, values₁ := n.setWidth 64 })
  | defCfaSf reg n => do
    return s.setCfa { type := .REGISTER, values₀ := reg.setWidth 64, values₁ := ← c.scaled n.1 }
  | defCfaRegister reg => do return s.setCfa { ← s.cfaRegister with values₀ := reg.setWidth 64 }
  | defCfaOffset n => do return s.setCfa { ← s.cfaRegister with values₁ := n.setWidth 64 }
  | defCfaOffsetSf n => do
    let loc ← s.cfaRegister
    return s.setCfa { loc with values₁ := ← c.scaled n.1 }
  | defCfaExpression block => .ok (s.setCfa (s.block .VAL_EXPRESSION block.length))
  | expression reg block => .ok (s.set reg (s.block .EXPRESSION block.length))
  | valExpression reg block => .ok (s.set reg (s.block .VAL_EXPRESSION block.length))
  | aarch64NegateRaState => cfaAarch64NegateRaState c s

/-- An instruction carried out: the row begins at the location before it. -/
def Instruction.exec (c : CfaContext) (i : Instruction w) (s : CfaState w) : Result (CfaState w) :=
  i.apply c
    { s with
      off := s.off + BitVec.ofNat 64 i.encode.length
      curPc := i.next c.fde.cie.codeAlignmentFactor s.curPc
      locRegs := { s.locRegs with pcStart := s.curPc.setWidth 64 } }

/-- The row at a pc. -/
def CfaContext.locate (c : CfaContext) (pc : BitVec 64) :
    List (Instruction w) → CfaState w → Result (CfaState w)
  | program, s =>
    if pc < s.curPc.setWidth 64 then .ok (s.setPcEnd (s.curPc.setWidth 64))
    else
      match program with
      | [] => .ok (s.setPcEnd c.fde.pcEnd)
      | i :: program => do c.locate pc program (← i.exec c s)

/-! ## Operands -/

variable {d : DwarfMemory}

theorem littleEndian_fixed (n size : ℕ) : littleEndian (fixed n size) = n % 256 ^ size := by
  induction size generalizing n with
  | zero => rw [Nat.pow_zero, Nat.mod_one]; rfl
  | succ size ih =>
    have hcons : littleEndian (fixed n (size + 1)) = n % 256 + 256 * littleEndian (fixed (n / 256) size) := by
      rw [fixed, littleEndian, List.map_cons, Nat.ofDigits_cons, BitVec.toNat_ofNat]
      rfl
    rw [hcons, ih, Nat.pow_succ, Nat.mul_comm (256 ^ size), Nat.mod_mul]

theorem length_fixed (n size : ℕ) : (fixed n size).length = size := by
  induction size generalizing n with
  | zero => rfl
  | succ size ih => rw [fixed, List.length_cons, ih]

theorem reads_fixed {n size : ℕ} (h : n < 256 ^ size) :
    Reads d.memory (d.readUnsigned size) (fixed n size) (BitVec.ofNat 64 n) := by
  have hr := readUnsigned_of_holds (d := d) (fixed n size)
  rwa [length_fixed, littleEndian_fixed, Nat.mod_eq_of_lt h] at hr

theorem reads_cfaOperands_nil : Reads d.memory (d.readCfaOperands w []) [] [] := by
  intro off _
  rw [DwarfMemory.readCfaOperands, List.length_nil]
  simp

theorem reads_cfaOperands_cons {encoding : BitVec 8} {encodings bytes bytes' : List (BitVec 8)} {v : BitVec 64}
    {operands : List (BitVec w)} (hblock : encoding ≠ DW_EH_PE_block)
    (h : Reads d.memory (d.readEncodedValue w encoding) bytes v)
    (h' : Reads d.memory (d.readCfaOperands w encodings) bytes' operands) :
    Reads d.memory (d.readCfaOperands w (encoding :: encodings)) (bytes ++ bytes') (v.setWidth w :: operands) := by
  intro off hoff
  rw [DwarfMemory.readCfaOperands, if_neg hblock]
  refine h.bind (k := fun v off => do
    let r ← d.readCfaOperands w encodings off
    return (v.setWidth w :: r.1, r.2)) (fun off hoff => ?_) off hoff
  show d.readCfaOperands w encodings off >>= _ = _
  rw [h' off hoff]
  rfl

/-- A block: its length is the operand. -/
theorem reads_cfaOperands_block (hw : w ≤ 64) (block : List (BitVec 8)) :
    Reads d.memory (d.readCfaOperands w [DW_EH_PE_block]) (blockBytes block) [BitVec.ofNat w block.length] := by
  intro off hoff
  have hlt : block.length < 2 ^ 64 := by
    have hle := hoff.lt (List.append_ne_nil_of_left_ne_nil (terminated_unsigned _).ne_nil block)
    have hpos := List.length_pos_iff.mpr (terminated_unsigned block.length).ne_nil
    rw [blockBytes, List.length_append] at hle
    omega
  have hto : (BitVec.ofNat 64 block.length).toNat = block.length := Nat.mod_eq_of_lt hlt
  have hread := reads_unsigned d (BitVec.ofNat 64 block.length)
  rw [hto] at hread
  rw [DwarfMemory.readCfaOperands, if_pos rfl, hread off (holds_append.mp hoff).1, blockBytes, List.length_append,
    BitVec.ofNat_add, ← BitVec.add_assoc]
  show Except.ok ([(BitVec.ofNat 64 block.length).setWidth w], _) = _
  rw [BitVec.setWidth_ofNat_of_le hw]

theorem reads_cfaOperands_singleton {encoding : BitVec 8} {bytes : List (BitVec 8)} {v : BitVec 64}
    (hblock : encoding ≠ DW_EH_PE_block) (h : Reads d.memory (d.readEncodedValue w encoding) bytes v) :
    Reads d.memory (d.readCfaOperands w [encoding]) bytes [v.setWidth w] := by
  have := reads_cfaOperands_cons hblock h (reads_cfaOperands_nil (d := d) (w := w))
  rwa [List.append_nil] at this

/-- A register number, or any other unsigned operand, and what follows it. -/
theorem reads_cfaOperands_unsigned (hw : w ≤ 64) (v : BitVec w) {encodings bytes : List (BitVec 8)}
    {operands : List (BitVec w)} (h : Reads d.memory (d.readCfaOperands w encodings) bytes operands) :
    Reads d.memory (d.readCfaOperands w (DW_EH_PE_uleb128 :: encodings)) (unsigned v.toNat ++ bytes)
      (v :: operands) := by
  have := reads_cfaOperands_cons (by decide) (reads_uleb128 (d := d) (w := w) (v.setWidth 64)) h
  rwa [toNat_setWidth_of_le hw, BitVec.setWidth_setWidth_of_le v hw, BitVec.setWidth_eq] at this

theorem reads_cfaOperands_signed (hw : w ≤ 64) (n : Offset w) :
    Reads d.memory (d.readCfaOperands w [DW_EH_PE_sleb128]) (signed n.1.toInt) [n.1] := by
  have hto : (n.1.signExtend 64).toInt = n.1.toInt := BitVec.toInt_signExtend_of_le hw
  have := reads_cfaOperands_singleton (by decide)
    (reads_sleb128 (d := d) (w := w) (v := n.1.signExtend 64) (hto ▸ n.2))
  rwa [hto, setWidth_signExtend hw] at this

/-- An advance of so many bytes. -/
theorem reads_delta (hw : w ≤ 64) {encoding : BitVec 8} {n k : ℕ} {delta : BitVec n} (hn : 256 ^ k = 2 ^ n)
    (hrel : encoding &&& 0x70 = DW_EH_PE_absptr) (hal : encoding ≠ DW_EH_PE_omit ∧ encoding ≠ DW_EH_PE_aligned)
    (hblock : encoding ≠ DW_EH_PE_block) (hdata : ∀ off, d.readData w encoding off = d.readUnsigned k off) :
    Reads d.memory (d.readCfaOperands w [encoding]) (fixed delta.toNat k) [delta.setWidth w] := by
  have hr : Reads d.memory (d.readData w encoding) (fixed delta.toNat k) (BitVec.ofNat 64 delta.toNat) := by
    intro off hoff
    rw [hdata]
    exact reads_fixed (hn ▸ delta.isLt) off hoff
  have := reads_cfaOperands_singleton hblock (reads_encoded hrel hal.1 hal.2 hr)
  rwa [BitVec.setWidth_ofNat_of_le hw, BitVec.ofNat_toNat] at this

/-! ## Instructions with an op -/

/-- The entry of the table, but for the three that carry an operand in their
first byte. -/
def Instruction.entry : Instruction w → Option (CfaFunc × List (BitVec 8))
  | advanceLoc _ | offset _ _ | restore _ => none
  | nop => some (.nop, [])
  | setLoc _ => some (.setLoc, [DW_EH_PE_absptr])
  | advanceLoc1 _ => some (.advanceLoc, [DW_EH_PE_udata1])
  | advanceLoc2 _ => some (.advanceLoc, [DW_EH_PE_udata2])
  | advanceLoc4 _ => some (.advanceLoc, [DW_EH_PE_udata4])
  | offsetExtended _ _ => some (.offset, [DW_EH_PE_uleb128, DW_EH_PE_uleb128])
  | restoreExtended _ => some (.restore, [DW_EH_PE_uleb128])
  | undefined _ => some (.undefined, [DW_EH_PE_uleb128])
  | sameValue _ => some (.sameValue, [DW_EH_PE_uleb128])
  | register _ _ => some (.register, [DW_EH_PE_uleb128, DW_EH_PE_uleb128])
  | rememberState => some (.rememberState, [])
  | restoreState => some (.restoreState, [])
  | defCfa _ _ => some (.defCfa, [DW_EH_PE_uleb128, DW_EH_PE_uleb128])
  | defCfaRegister _ => some (.defCfaRegister, [DW_EH_PE_uleb128])
  | defCfaOffset _ => some (.defCfaOffset, [DW_EH_PE_uleb128])
  | defCfaExpression _ => some (.defCfaExpression, [DW_EH_PE_block])
  | expression _ _ => some (.expression, [DW_EH_PE_uleb128, DW_EH_PE_block])
  | offsetExtendedSf _ _ => some (.offsetExtendedSf, [DW_EH_PE_uleb128, DW_EH_PE_sleb128])
  | defCfaSf _ _ => some (.defCfaSf, [DW_EH_PE_uleb128, DW_EH_PE_sleb128])
  | defCfaOffsetSf _ => some (.defCfaOffsetSf, [DW_EH_PE_sleb128])
  | valOffset _ _ => some (.valOffset, [DW_EH_PE_uleb128, DW_EH_PE_uleb128])
  | valOffsetSf _ _ => some (.valOffsetSf, [DW_EH_PE_uleb128, DW_EH_PE_sleb128])
  | valExpression _ _ => some (.valExpression, [DW_EH_PE_uleb128, DW_EH_PE_block])
  | aarch64NegateRaState => some (.aarch64NegateRaState, [])
  | gnuArgsSize _ => some (.nop, [DW_EH_PE_uleb128])
  | gnuNegativeOffsetExtended _ _ => some (.gnuNegativeOffsetExtended, [DW_EH_PE_uleb128, DW_EH_PE_uleb128])

def Instruction.values : Instruction w → List (BitVec w)
  | nop | advanceLoc _ | offset _ _ | restore _ | rememberState | restoreState | aarch64NegateRaState => []
  | setLoc v | restoreExtended v | undefined v | sameValue v | defCfaRegister v | defCfaOffset v | gnuArgsSize v => [v]
  | advanceLoc1 delta => [delta.setWidth w]
  | advanceLoc2 delta => [delta.setWidth w]
  | advanceLoc4 delta => [delta.setWidth w]
  | offsetExtended reg n | register reg n | defCfa reg n | valOffset reg n | gnuNegativeOffsetExtended reg n => [reg, n]
  | offsetExtendedSf reg n | defCfaSf reg n | valOffsetSf reg n => [reg, n.1]
  | defCfaOffsetSf n => [n.1]
  | defCfaExpression block => [BitVec.ofNat w block.length]
  | expression reg block | valExpression reg block => [reg, BitVec.ofNat w block.length]

/-- A first byte with nothing in its two high bits. -/
theorem low_bits {b : BitVec 8} (h : b.toNat < 64) : b &&& 0x3f = b ∧ (b >>> 6).toNat = 0 := by
  constructor
  · apply BitVec.eq_of_toNat_eq
    rw [BitVec.toNat_and]
    exact (Nat.and_two_pow_sub_one_eq_mod b.toNat 6).trans (Nat.mod_eq_of_lt h)
  · rw [BitVec.toNat_ushiftRight, Nat.shiftRight_eq_div_pow]
    exact Nat.div_eq_of_lt h

theorem table_entry {i : Instruction w} {e : CfaFunc × List (BitVec 8)} (h : i.entry = some e) :
    kCfaTable[i.head.toNat]? = some (some e) := by
  cases i with
  | advanceLoc | offset | restore => cases h
  | _ => cases h; rfl

theorem reads_values (hw : w = 32 ∨ w = 64) {i : Instruction w} {e : CfaFunc × List (BitVec 8)}
    (h : i.entry = some e) : Reads d.memory (d.readCfaOperands w e.2) i.tail i.values := by
  have hle : w ≤ 64 := by omega
  cases i with
  | advanceLoc | offset | restore => cases h
  | nop | rememberState | restoreState | aarch64NegateRaState => cases h; exact reads_cfaOperands_nil
  | setLoc v =>
    cases h
    have hr : Reads d.memory (d.readData w DW_EH_PE_absptr) (fixed v.toNat (w / 8)) (BitVec.ofNat 64 v.toNat) :=
      reads_fixed (by rcases hw with rfl | rfl <;> exact v.isLt)
    have := reads_cfaOperands_singleton (by decide) (reads_encoded rfl (by decide) (by decide) hr)
    rwa [BitVec.setWidth_ofNat_of_le hle, BitVec.ofNat_toNat, BitVec.setWidth_eq] at this
  | advanceLoc1 delta => cases h; exact reads_delta hle (k := 1) rfl (by decide) (by decide) (by decide) fun _ => rfl
  | advanceLoc2 delta => cases h; exact reads_delta hle (k := 2) rfl (by decide) (by decide) (by decide) fun _ => rfl
  | advanceLoc4 delta => cases h; exact reads_delta hle (k := 4) rfl (by decide) (by decide) (by decide) fun _ => rfl
  | restoreExtended v | undefined v | sameValue v | defCfaRegister v | defCfaOffset v | gnuArgsSize v =>
    cases h
    have := reads_cfaOperands_unsigned (d := d) hle v reads_cfaOperands_nil
    rwa [List.append_nil] at this
  | offsetExtended reg n | register reg n | defCfa reg n | valOffset reg n | gnuNegativeOffsetExtended reg n =>
    cases h
    have := reads_cfaOperands_unsigned (d := d) hle n reads_cfaOperands_nil
    rw [List.append_nil] at this
    exact reads_cfaOperands_unsigned hle reg this
  | offsetExtendedSf reg n | defCfaSf reg n | valOffsetSf reg n =>
    cases h
    exact reads_cfaOperands_unsigned hle reg (reads_cfaOperands_signed hle n)
  | defCfaOffsetSf n => cases h; exact reads_cfaOperands_signed hle n
  | defCfaExpression block => cases h; exact reads_cfaOperands_block hle block
  | expression reg block | valExpression reg block =>
    cases h
    exact reads_cfaOperands_unsigned hle reg (reads_cfaOperands_block hle block)

theorem cfaAdvanceLoc_eq (c : CfaContext) {n : ℕ} (hn : n ≤ w) (delta : BitVec n) (s : CfaState w) :
    cfaAdvanceLoc c [delta.setWidth w] s = .ok { s with
      curPc := s.curPc + (delta.setWidth 64 * c.fde.cie.codeAlignmentFactor).setWidth w } := by
  have hdelta : (delta.setWidth w).setWidth 64 = delta.setWidth 64 := BitVec.setWidth_setWidth (by omega)
  rw [← hdelta]
  rfl

theorem cfaRestore_eq (c : CfaContext) (reg : BitVec w) (s : CfaState w) :
    cfaRestore c [reg] s = c.initial (reg.setWidth 32) s := by
  unfold cfaRestore CfaContext.initial
  cases c.cieLocRegs with
  | none => rfl
  | some cieLocRegs =>
    simp only [elementAt, List.getElem?_cons_zero, bind_ok]
    cases cieLocRegs.lookup (reg.setWidth 32) <;> rfl

/-- The handler does what the instruction says. -/
theorem handle_values (hw : w = 32 ∨ w = 64) (c : CfaContext) {i : Instruction w} {e : CfaFunc × List (BitVec 8)}
    (h : i.entry = some e) (s : CfaState w) :
    c.handle i.values s e.1 = i.apply c { s with curPc := i.next c.fde.cie.codeAlignmentFactor s.curPc } := by
  cases i with
  | advanceLoc | offset | restore => cases h
  | advanceLoc1 delta => cases h; exact cfaAdvanceLoc_eq c (by omega) delta s
  | advanceLoc2 delta => cases h; exact cfaAdvanceLoc_eq c (by omega) delta s
  | advanceLoc4 delta => cases h; exact cfaAdvanceLoc_eq c (by omega) delta s
  | restoreExtended reg => cases h; exact cfaRestore_eq c reg s
  | _ => cases h; rfl

/-! ## Programs -/

theorem advanceLoc_head : ∀ n : Fin 64, ((0x40 + BitVec.ofNat 8 n : BitVec 8) >>> 6).toNat = 1 ∧
    (0x40 + BitVec.ofNat 8 n : BitVec 8) &&& 0x3f = BitVec.ofNat 8 n := by
  decide +kernel

theorem offset_head : ∀ n : Fin 64, ((0x80 + BitVec.ofNat 8 n : BitVec 8) >>> 6).toNat = 2 ∧
    (0x80 + BitVec.ofNat 8 n : BitVec 8) &&& 0x3f = BitVec.ofNat 8 n := by
  decide +kernel

theorem restore_head : ∀ n : Fin 64, ((0xc0 + BitVec.ofNat 8 n : BitVec 8) >>> 6).toNat = 3 ∧
    (0xc0 + BitVec.ofNat 8 n : BitVec 8) &&& 0x3f = BitVec.ofNat 8 n := by
  decide +kernel

theorem setWidth_low (k : ℕ) (hk : 8 ≤ k) (n : Fin 64) : (BitVec.ofNat 8 n).setWidth k = BitVec.ofNat k n := by
  have hn : n.val < 2 ^ 8 := n.isLt.trans (by decide)
  exact BitVec.setWidth_ofNat_of_le_of_lt hk hn

/-- The bytes of an instruction, and it is carried out. -/
theorem step_encode (hw : w = 32 ∨ w = 64) (c : CfaContext) (i : Instruction w) (s : CfaState w)
    (h : c.memory.memory.Holds s.off.toNat i.encode) : c.step s = i.exec c s := by
  have hle : w ≤ 64 := by omega
  obtain ⟨hhead, htail⟩ := holds_cons.mp h
  have hb := readByte_of_holds i.head s.off (holds_cons.mpr ⟨hhead, holds_nil⟩)
  have hnext : c.memory.memory.Holds (s.off + 1#64).toNat i.tail := by
    by_cases hnil : i.tail = []
    · rw [hnil]
      exact holds_nil
    · rwa [toNat_add_one h hnil]
  have hoff : s.off + 1#64 + BitVec.ofNat 64 i.tail.length = s.off + BitVec.ofNat 64 i.encode.length :=
    offset_cons s.off i.head i.tail
  rw [CfaContext.step]
  dsimp only
  rw [hb, bind_ok, List.length_singleton]
  dsimp only
  cases he : i.entry with
  | some e =>
    obtain ⟨func, encodings⟩ := e
    have htable := table_entry he
    have hlow := low_bits ((List.getElem?_eq_some_iff.mp htable).1.trans_eq length_kCfaTable)
    have hread := reads_values (d := c.memory) hw he _ hnext
    rw [hlow.2]
    show c.extended _ _ = _
    rw [CfaContext.extended, hlow.1, htable]
    dsimp only
    rw [hread, bind_ok, hoff]
    exact handle_values hw c he _
  | none =>
    cases i with
    | advanceLoc delta =>
      have hdelta : (BitVec.ofNat 8 delta).setWidth 64 = BitVec.ofNat 64 delta := setWidth_low 64 (by decide) delta
      rw [Instruction.head, (advanceLoc_head delta).1, (advanceLoc_head delta).2, hdelta]
      rfl
    | offset reg n =>
      have hr := reads_unsigned c.memory (n.setWidth 64)
      rw [toNat_setWidth_of_le hle] at hr
      have hreg : (BitVec.ofNat 8 reg).setWidth 32 = (BitVec.ofNat w reg).setWidth 32 := by
        rw [setWidth_low 32 (by decide), BitVec.setWidth_ofNat_of_le (by omega)]
      rw [Instruction.head, (offset_head reg).1, (offset_head reg).2, hreg]
      show (c.memory.readULEB128 (s.off + 1#64) >>= _) = _
      rw [hr _ hnext, show s.off + 1#64 + BitVec.ofNat 64 (unsigned n.toNat).length = _ from hoff, bind_ok]
      show ((c.scaled ((n.setWidth 64).setWidth w)) >>= _) = (c.scaled n >>= _)
      rw [BitVec.setWidth_setWidth_of_le n hle, BitVec.setWidth_eq]
      cases c.scaled n <;> rfl
    | restore reg =>
      have hreg : (BitVec.ofNat 8 reg).setWidth 32 = BitVec.ofNat 32 reg := setWidth_low 32 (by decide) reg
      rw [Instruction.head, (restore_head reg).1, (restore_head reg).2, hreg]
      rfl
    | _ => cases he

/-- The cursor and the location are not the row's, only a restored state
changes where the row begins, and only two instructions have to do with those
remembered. -/
structure Framed (i : Instruction w) (s s' : CfaState w) : Prop where
  off : s'.off = s.off
  curPc : s'.curPc = s.curPc
  pcStart : i ≠ .restoreState → s'.locRegs.pcStart = s.locRegs.pcStart
  locRegState : i ≠ .rememberState → i ≠ .restoreState → s'.locRegState = s.locRegState

theorem framed_bind {α : Type} {x : Result α} {f : α → CfaState w} {i : Instruction w} {s s' : CfaState w}
    (h : (x >>= fun v => Except.ok (f v)) = .ok s') (hf : ∀ v, Framed i s (f v)) : Framed i s s' := by
  obtain ⟨v, -, hv⟩ := bind_eq_ok.mp h
  cases hv
  exact hf v

theorem initial_framed {c : CfaContext} {reg : BitVec 32} {i : Instruction w} {s s' : CfaState w}
    (h : c.initial reg s = .ok s') : Framed i s s' := by
  unfold CfaContext.initial at h
  cases hc : c.cieLocRegs with
  | none => rw [hc] at h; cases h
  | some cieLocRegs => rw [hc] at h; cases h; exact ⟨rfl, rfl, fun _ => rfl, fun _ _ => rfl⟩

theorem apply_framed {c : CfaContext} {i : Instruction w} {s s' : CfaState w} (h : i.apply c s = .ok s') :
    Framed i s s' := by
  cases i with
  | offset | offsetExtendedSf | gnuNegativeOffsetExtended | valOffset | valOffsetSf | defCfaSf | defCfaRegister
  | defCfaOffset => exact framed_bind h fun _ => ⟨rfl, rfl, fun _ => rfl, fun _ _ => rfl⟩
  | defCfaOffsetSf n =>
    obtain ⟨loc, -, h⟩ := bind_eq_ok.mp h
    exact framed_bind h fun _ => ⟨rfl, rfl, fun _ => rfl, fun _ _ => rfl⟩
  | restore reg => exact initial_framed h
  | restoreExtended reg => exact initial_framed h
  | restoreState =>
    unfold Instruction.apply cfaRestoreState at h
    cases hs : s.locRegState with
    | nil => rw [hs] at h; cases h; exact ⟨rfl, rfl, fun hne => absurd rfl hne, fun _ hne => absurd rfl hne⟩
    | cons top rest => rw [hs] at h; cases h; exact ⟨rfl, rfl, fun hne => absurd rfl hne, fun _ hne => absurd rfl hne⟩
  | rememberState => cases h; exact ⟨rfl, rfl, fun _ => rfl, fun hne => absurd rfl hne⟩
  | aarch64NegateRaState =>
    have h : cfaAarch64NegateRaState c s = .ok s' := h
    unfold cfaAarch64NegateRaState at h
    split at h
    · cases h
    · cases h; exact ⟨rfl, rfl, fun _ => rfl, fun _ _ => rfl⟩
  | _ => cases h; exact ⟨rfl, rfl, fun _ => rfl, fun _ _ => rfl⟩

/-- What carrying out an instruction does besides. -/
structure Passed (c : CfaContext) (i : Instruction w) (s s' : CfaState w) : Prop where
  off : s'.off = s.off + BitVec.ofNat 64 i.encode.length
  curPc : s'.curPc = i.next c.fde.cie.codeAlignmentFactor s.curPc
  pcStart : i ≠ .restoreState → s'.locRegs.pcStart = s.curPc.setWidth 64
  locRegState : i ≠ .rememberState → i ≠ .restoreState → s'.locRegState = s.locRegState

theorem exec_passed {c : CfaContext} {i : Instruction w} {s s' : CfaState w} (h : i.exec c s = .ok s') :
    Passed c i s s' := by
  have hf := apply_framed h
  exact ⟨hf.off, hf.curPc, hf.pcStart, hf.locRegState⟩

theorem locate_of_lt {c : CfaContext} {pc : BitVec 64} {s : CfaState w} (h : pc < s.curPc.setWidth 64)
    (program : List (Instruction w)) :
    c.locate pc program s = .ok (s.setPcEnd (s.curPc.setWidth 64)) := by
  cases program <;> rw [CfaContext.locate, if_pos h]

theorem locate_cons {c : CfaContext} {pc : BitVec 64} {s : CfaState w} (h : ¬ pc < s.curPc.setWidth 64)
    (i : Instruction w) (program : List (Instruction w)) :
    c.locate pc (i :: program) s = i.exec c s >>= c.locate pc program := by
  rw [CfaContext.locate, if_neg h]

/-- **Call frame programs**: over the bytes of a program, the loop gives the
row in force at the pc, after as many passes as the program has instructions
and one. -/
theorem locationLoop_encode (hw : w = 32 ∨ w = 64) (c : CfaContext) (pc : BitVec 64) {endOffset : BitVec 64} :
    ∀ {program : List (Instruction w)} {fuel : ℕ} {s : CfaState w}, program.length < fuel →
      c.memory.memory.Holds s.off.toNat (encodeProgram program) →
      s.off.toNat + (encodeProgram program).length = endOffset.toNat →
      c.locationLoop pc endOffset fuel s = some (c.locate pc program s)
  | program, fuel, s, hfuel, hbytes, hend => by
    obtain ⟨fuel, rfl⟩ : ∃ f, fuel = f + 1 := ⟨fuel - 1, by omega⟩
    rw [CfaContext.locationLoop]
    by_cases hpc : pc < s.curPc.setWidth 64
    · rw [if_pos hpc, locate_of_lt hpc]
    rw [if_neg hpc]
    match program with
    | [] =>
      have hle : endOffset ≤ s.off := BitVec.le_def.mpr (by rw [← hend]; exact Nat.le_refl _)
      rw [if_pos hle, CfaContext.locate, if_neg hpc]
    | i :: program =>
      rw [encodeProgram, List.flatMap_cons] at hbytes hend
      obtain ⟨hi, hrest⟩ := holds_append.mp hbytes
      rw [List.length_append] at hend
      have hpos : 0 < i.encode.length := Nat.succ_pos _
      have hlt := endOffset.isLt
      have hgt : ¬ endOffset ≤ s.off := fun h => by have := BitVec.le_def.mp h; omega
      rw [if_neg hgt, step_encode hw c i s hi, locate_cons hpc]
      cases hexec : i.exec c s with
      | error e => rfl
      | ok s' =>
        have hoff : s'.off.toNat = s.off.toNat + i.encode.length := by
          rw [(exec_passed hexec).off, BitVec.toNat_add, BitVec.toNat_ofNat, Nat.mod_eq_of_lt (a := i.encode.length)
            (by omega), Nat.mod_eq_of_lt (by omega)]
        exact locationLoop_encode hw c pc (by rw [List.length_cons] at hfuel; omega) (by rw [hoff]; exact hrest)
          (by rw [hoff, encodeProgram]; omega)

/-! ## Rows -/

/-- No instruction takes the location back. -/
def Forward (codeAlignmentFactor : BitVec 64) : BitVec w → List (Instruction w) → Prop
  | _, [] => True
  | curPc, i :: program =>
    curPc ≤ i.next codeAlignmentFactor curPc ∧
      Forward codeAlignmentFactor (i.next codeAlignmentFactor curPc) program

variable {c : CfaContext} {pc pc' : BitVec 64} {row : CfaState w}

theorem setWidth_le (hw : w ≤ 64) {v v' : BitVec w} : v.setWidth 64 ≤ v'.setWidth 64 ↔ v ≤ v' := by
  rw [BitVec.le_def, BitVec.le_def, toNat_setWidth_of_le hw, toNat_setWidth_of_le hw]

/-- A row begins at a location that the program comes to at the pc. -/
theorem pcStart_of_locate (hw : w ≤ 64) : ∀ {program : List (Instruction w)} {s : CfaState w}, program ≠ [] →
    program.getLast? ≠ some .restoreState → Forward c.fde.cie.codeAlignmentFactor s.curPc program →
    ¬ pc < s.curPc.setWidth 64 → c.locate pc program s = .ok row →
    s.curPc.setWidth 64 ≤ row.locRegs.pcStart ∧ row.locRegs.pcStart ≤ pc
  | [], _, hne, _, _, _, _ => absurd rfl hne
  | [i], s, _, hlast, _, hpc, h => by
    rw [locate_cons hpc, bind_eq_ok] at h
    obtain ⟨s', hexec, h⟩ := h
    have hstart := (exec_passed hexec).pcStart fun hi => hlast (by rw [hi]; rfl)
    have hrow : row.locRegs.pcStart = s'.locRegs.pcStart := by
      rw [CfaContext.locate] at h
      split at h <;> cases h <;> rfl
    rw [hrow, hstart]
    exact ⟨BitVec.le_refl _, BitVec.not_lt.mp hpc⟩
  | i :: j :: program, s, _, hlast, hfwd, hpc, h => by
    rw [locate_cons hpc, bind_eq_ok] at h
    obtain ⟨s', hexec, h⟩ := h
    have hpassed := exec_passed hexec
    by_cases hpc' : pc < s'.curPc.setWidth 64
    · -- The instruction took the location on, so it restored no state.
      have hi : i ≠ .restoreState := by
        rintro rfl
        rw [hpassed.curPc] at hpc'
        exact hpc hpc'
      rw [locate_of_lt hpc'] at h
      cases h
      rw [show (s'.setPcEnd (s'.curPc.setWidth 64)).locRegs.pcStart = s.curPc.setWidth 64 from
        hpassed.pcStart hi]
      exact ⟨BitVec.le_refl _, BitVec.not_lt.mp hpc⟩
    · have hle : s.curPc ≤ s'.curPc := hpassed.curPc ▸ hfwd.1
      obtain ⟨hlo, hhi⟩ := pcStart_of_locate hw (List.cons_ne_nil j program)
        (by rwa [List.getLast?_cons_cons] at hlast) (hpassed.curPc ▸ hfwd.2) hpc' h
      exact ⟨BitVec.le_trans ((setWidth_le hw).mpr hle) hlo, hhi⟩

theorem pcEnd_of_locate : ∀ {program : List (Instruction w)} {s : CfaState w},
    c.locate pc program s = .ok row → pc < c.fde.pcEnd → pc < row.locRegs.pcEnd
  | program, s, h, hend => by
    by_cases hpc : pc < s.curPc.setWidth 64
    · rw [locate_of_lt hpc] at h
      cases h
      exact hpc
    match program with
    | [] =>
      rw [CfaContext.locate, if_neg hpc] at h
      cases h
      exact hend
    | i :: program =>
      rw [locate_cons hpc, bind_eq_ok] at h
      obtain ⟨s', -, h⟩ := h
      exact pcEnd_of_locate h hend

/-- The locations of a row are those at any pc it says it holds for. -/
theorem regs_of_locate (hw : w ≤ 64) : ∀ {program : List (Instruction w)} {s : CfaState w},
    program.getLast? ≠ some .restoreState → Forward c.fde.cie.codeAlignmentFactor s.curPc program →
    c.locate pc program s = .ok row → row.locRegs.pcStart ≤ pc' → pc' < row.locRegs.pcEnd →
    ∃ row', c.locate pc' program s = .ok row' ∧ row'.locRegs.regs = row.locRegs.regs
  | program, s, hlast, hfwd, h, hlo, hhi => by
    by_cases hpc : pc < s.curPc.setWidth 64
    · rw [locate_of_lt hpc] at h
      cases h
      exact ⟨_, locate_of_lt hhi program, rfl⟩
    match program with
    | [] =>
      rw [CfaContext.locate, if_neg hpc] at h
      cases h
      by_cases hpc' : pc' < s.curPc.setWidth 64
      · exact ⟨_, locate_of_lt hpc' [], rfl⟩
      · rw [CfaContext.locate, if_neg hpc']
        exact ⟨_, rfl, rfl⟩
    | i :: program =>
      have hstart := pcStart_of_locate hw (List.cons_ne_nil i program) hlast hfwd hpc h
      have hpc' : ¬ pc' < s.curPc.setWidth 64 := BitVec.not_lt.mpr (BitVec.le_trans hstart.1 hlo)
      rw [locate_cons hpc, bind_eq_ok] at h
      obtain ⟨s', hexec, h⟩ := h
      have hlast' : program.getLast? ≠ some .restoreState := by
        cases program with
        | nil => exact nofun
        | cons j program => rwa [List.getLast?_cons_cons] at hlast
      obtain ⟨row', hrow', hregs⟩ := regs_of_locate hw hlast' ((exec_passed hexec).curPc ▸ hfwd.2) h hlo hhi
      exact ⟨row', by rw [locate_cons hpc', hexec]; exact hrow', hregs⟩

/-- Where a program leaves the location. -/
def lastLocation (codeAlignmentFactor : BitVec 64) : BitVec w → List (Instruction w) → BitVec w
  | curPc, [] => curPc
  | curPc, i :: program => lastLocation codeAlignmentFactor (i.next codeAlignmentFactor curPc) program

theorem le_lastLocation {codeAlignmentFactor : BitVec 64} : ∀ {program : List (Instruction w)} {curPc : BitVec w},
    Forward codeAlignmentFactor curPc program → curPc ≤ lastLocation codeAlignmentFactor curPc program
  | [], _, _ => BitVec.le_refl _
  | _ :: _, _, h => BitVec.le_trans h.1 (le_lastLocation h.2)

/-- Rows end with the function, where the program leaves the location in it. -/
theorem pcEnd_le_of_locate (hw : w ≤ 64) : ∀ {program : List (Instruction w)} {s : CfaState w},
    Forward c.fde.cie.codeAlignmentFactor s.curPc program →
    (lastLocation c.fde.cie.codeAlignmentFactor s.curPc program).setWidth 64 ≤ c.fde.pcEnd →
    c.locate pc program s = .ok row → row.locRegs.pcEnd ≤ c.fde.pcEnd
  | program, s, hfwd, hlast, h => by
    by_cases hpc : pc < s.curPc.setWidth 64
    · rw [locate_of_lt hpc] at h
      cases h
      exact BitVec.le_trans ((setWidth_le hw).mpr (le_lastLocation hfwd)) hlast
    match program with
    | [] =>
      rw [CfaContext.locate, if_neg hpc] at h
      cases h
      exact BitVec.le_refl _
    | i :: program =>
      rw [locate_cons hpc, bind_eq_ok] at h
      obtain ⟨s', hexec, h⟩ := h
      have hcur := (exec_passed hexec).curPc
      exact pcEnd_le_of_locate hw (hcur ▸ hfwd.2) (hcur ▸ hlast) h

/-- A row holds its pc, and over the pcs it says it holds for the locations are
its own. -/
structure RowAt (c : CfaContext) (program : List (Instruction w)) (s : CfaState w) (pc : BitVec 64)
    (row : CfaState w) : Prop where
  begins : s.curPc.setWidth 64 ≤ row.locRegs.pcStart
  pcStart : row.locRegs.pcStart ≤ pc
  pcEnd : pc < c.fde.pcEnd → pc < row.locRegs.pcEnd
  regs : ∀ pc', row.locRegs.pcStart ≤ pc' → pc' < row.locRegs.pcEnd →
    ∃ row', c.locate pc' program s = .ok row' ∧ row'.locRegs.regs = row.locRegs.regs

theorem locate_row (hw : w ≤ 64) {program : List (Instruction w)} {s : CfaState w}
    (hstart : s.locRegs.pcStart = s.curPc.setWidth 64) (hlast : program.getLast? ≠ some .restoreState)
    (hfwd : Forward c.fde.cie.codeAlignmentFactor s.curPc program) (hpc : s.curPc.setWidth 64 ≤ pc)
    (h : c.locate pc program s = .ok row) : RowAt c program s pc row := by
  have hpc' : ¬ pc < s.curPc.setWidth 64 := BitVec.not_lt.mpr hpc
  have hbegin : s.curPc.setWidth 64 ≤ row.locRegs.pcStart ∧ row.locRegs.pcStart ≤ pc := by
    by_cases hne : program = []
    · subst hne
      rw [CfaContext.locate, if_neg hpc'] at h
      cases h
      exact ⟨hstart ▸ BitVec.le_refl _, hstart ▸ hpc⟩
    · exact pcStart_of_locate hw hne hlast hfwd hpc' h
  exact ⟨hbegin.1, hbegin.2, pcEnd_of_locate h, fun pc' => regs_of_locate hw hlast hfwd h⟩

theorem getLocationInfo_encode (hw : w = 32 ∨ w = 64) {program : List (Instruction w)} {start end_ : BitVec 64}
    (hbytes : c.memory.memory.Holds start.toNat (encodeProgram program))
    (hend : start.toNat + (encodeProgram program).length = end_.toNat) (pc : BitVec 64) (locRegs : DwarfLocations)
    (locRegState : List DwarfLocations) :
    c.getLocationInfo w (program.length + 1) pc start end_ locRegs locRegState =
      some (c.locate pc program (c.start w start locRegs locRegState)) :=
  locationLoop_encode hw c pc (Nat.lt_succ_self _) hbytes hend

/-- **Rows**: where the locations of a program do not go back and it does not
end by restoring a state, the row found at a pc of the function holds that pc,
and has the locations found at every pc it says it holds for. -/
theorem getLocationInfo_row (hw : w = 32 ∨ w = 64) {program : List (Instruction w)} {start end_ : BitVec 64}
    {locRegs : DwarfLocations} {locRegState : List DwarfLocations}
    (hbytes : c.memory.memory.Holds start.toNat (encodeProgram program))
    (hend : start.toNat + (encodeProgram program).length = end_.toNat)
    (hlast : program.getLast? ≠ some .restoreState)
    (hfwd : Forward c.fde.cie.codeAlignmentFactor (c.fde.pcStart.setWidth w) program)
    (hpc : (c.fde.pcStart.setWidth w).setWidth 64 ≤ pc)
    (h : c.getLocationInfo w (program.length + 1) pc start end_ locRegs locRegState = some (.ok row)) :
    row.locRegs.pcStart ≤ pc ∧ (pc < c.fde.pcEnd → pc < row.locRegs.pcEnd) ∧
      ∀ pc', row.locRegs.pcStart ≤ pc' → pc' < row.locRegs.pcEnd →
        ∃ row', c.getLocationInfo w (program.length + 1) pc' start end_ locRegs locRegState = some (.ok row') ∧
          row'.locRegs.regs = row.locRegs.regs := by
  rw [getLocationInfo_encode hw hbytes hend] at h
  have hrow := locate_row (by omega) rfl hlast hfwd hpc (Option.some.inj h)
  refine ⟨hrow.pcStart, hrow.pcEnd, fun pc' hlo hhi => ?_⟩
  obtain ⟨row', hrow', hregs⟩ := hrow.regs pc' hlo hhi
  exact ⟨row', by rw [getLocationInfo_encode hw hbytes hend, hrow'], hregs⟩

/-- A function of sixteen bytes that pushes a register in its first four. -/
def pushing (program : List (BitVec 8)) (h : program.length ≤ 2 ^ 64) : CfaContext where
  memory := { memory := Memory.buffer program h }
  fde := { pcStart := 0x1000, pcEnd := 0x1010, cie := { codeAlignmentFactor := 1, dataAlignmentFactor := -8 } }
  arch := .ARCH_X86_64
  cieLocRegs := none

theorem getLocationInfo_row_push :
    ∃ row, (pushing [0x0c, 7, 8, 0x44, 0x0e, 16] (by decide)).getLocationInfo 64 4 0x1008 0 6 { regs := ∅ } [] =
        some (.ok row) ∧
      ∀ pc', row.locRegs.pcStart ≤ pc' → pc' < row.locRegs.pcEnd →
        ∃ row', (pushing [0x0c, 7, 8, 0x44, 0x0e, 16] (by decide)).getLocationInfo 64 4 pc' 0 6 { regs := ∅ } [] =
            some (.ok row') ∧ row'.locRegs.regs = row.locRegs.regs := by
  let program : List (Instruction 64) := [.defCfa 7 8, .advanceLoc 4, .defCfaOffset 16]
  have hbytes : encodeProgram program = [0x0c, 7, 8, 0x44, 0x0e, 16] := by
    simp [program, encodeProgram, Instruction.encode, Instruction.head, Instruction.tail, unsigned, last]
  obtain ⟨row, hrow⟩ : ∃ row, (pushing [0x0c, 7, 8, 0x44, 0x0e, 16] (by decide)).getLocationInfo 64 4 0x1008 0 6
    { regs := ∅ } [] = some (.ok row) := ⟨_, rfl⟩
  have hlast : program.getLast? ≠ some .restoreState := by simp [program]
  exact ⟨row, hrow, (getLocationInfo_row (.inr rfl) (by rw [hbytes]; exact holds_buffer (by decide) 0 6)
    (by rw [hbytes]; rfl) hlast ⟨by decide, by decide, by decide, trivial⟩ (by decide) hrow).2.2⟩

/-- After an epilogue in the middle that ends with the restored state, the row
claims the pcs of the epilogue too. -/
theorem getLocationInfo_restored :
    let c := pushing [0x0c, 7, 16, 0x0a, 0x44, 0x0e, 8, 0x44, 0x0b] (by decide)
    ∃ row row', c.getLocationInfo 64 7 0x1008 0 9 { regs := ∅ } [] = some (.ok row) ∧
      row.locRegs.pcStart ≤ 0x1004 ∧ 0x1004 < row.locRegs.pcEnd ∧
      c.getLocationInfo 64 7 0x1004 0 9 { regs := ∅ } [] = some (.ok row') ∧
      row.locRegs.regs.lookup CFA_REG = some { type := .REGISTER, values₀ := 7, values₁ := 16 } ∧
      row'.locRegs.regs.lookup CFA_REG = some { type := .REGISTER, values₀ := 7, values₁ := 8 } :=
  ⟨_, _, rfl, by decide, by decide, rfl, by decide, by decide⟩

end AllocHook.Unwindstack
