/-
What `DwarfOp` makes of expressions without jumps: an expression is a tree,
its encoding the bytes of its postfix code, and evaluating the bytes gives
the value of the tree, or the fault of its first operation to fail.

A tree of more than a thousand operations takes too many iterations. The
offsets of registers are those that `ReadSLEB128` reads.
-/
import AllocHook.Lib.Postfix
import AllocHook.Unwindstack.DwarfOp

namespace AllocHook.Unwindstack

open Leb128 DwarfOpHandleFunc

abbrev Offset (w : ℕ) := { v : BitVec w // -2 ^ 62 ≤ v.toInt }

inductive Leaf (w : ℕ)
  | lit (n : Fin 32)
  | constu (v : BitVec w)
  | breg (reg : Fin 32) (offset : Offset w)
  | bregx (reg : BitVec w) (offset : Offset w)

inductive Unary (w : ℕ)
  | deref
  | derefSize (size : BitVec 8)
  | abs | neg | not
  | plusUconst (v : BitVec w)

inductive Binary
  | and | div | minus | mod | mul | or | plus | shl | shr | shra | xor | eq | ge | gt | le | lt | ne

variable {w : ℕ}

abbrev Expression (w : ℕ) := Postfix.Expr (Leaf w) (Unary w) Binary

abbrev Operation (w : ℕ) := Postfix.Op (Leaf w) (Unary w) Binary

/-! ## Values -/

/-- What a register holds. -/
def OpContext.register (c : OpContext w) (reg : ℕ) : Result (BitVec w) :=
  if h : reg < c.total then .ok (c.get ⟨reg, h⟩) else .error illegalValue

def OpContext.leaf (c : OpContext w) : Leaf w → Result (BitVec w)
  | .lit n => .ok (BitVec.ofNat w n)
  | .constu v => .ok v
  | .breg reg offset => do return (← c.register reg) + offset
  | .bregx reg offset => do return (← c.register reg.toNat) + offset

def OpContext.unary (c : OpContext w) : Unary w → BitVec w → Result (BitVec w)
  | .deref, addr => c.deref (w / 8) addr
  | .derefSize size, addr =>
    if 0 < size.toNat ∧ size.toNat ≤ w / 8 then c.deref size.toNat addr else .error illegalValue
  | .abs, v => if 0 ≤ v.toInt then .ok v else signedNeg v
  | .neg, v => signedNeg v
  | .not, v => .ok (~~~v)
  | .plusUconst v, v' => .ok (v' + v)

def truth (w : ℕ) (p : Prop) [Decidable p] : BitVec w := if p then 1 else 0

def Binary.apply (v v' : BitVec w) : Binary → Result (BitVec w)
  | and => .ok (v &&& v')
  | div => signedDiv v v'
  | minus => .ok (v - v')
  | mod => unsignedMod v v'
  | mul => .ok (v * v')
  | or => .ok (v ||| v')
  | plus => .ok (v + v')
  | shl => shiftBy (fun v n => v <<< n) v v'
  | shr => shiftBy (fun v n => v >>> n) v v'
  | shra => shiftBy (fun v n => v.sshiftRight n) v v'
  | xor => .ok (v ^^^ v')
  -- The comparisons are those of the unsigned numbers.
  | eq => .ok (truth w (v = v'))
  | ge => .ok (truth w (v'.toNat ≤ v.toNat))
  | gt => .ok (truth w (v'.toNat < v.toNat))
  | le => .ok (truth w (v.toNat ≤ v'.toNat))
  | lt => .ok (truth w (v.toNat < v'.toNat))
  | ne => .ok (truth w (v ≠ v'))

def Binary.opcode : Binary → BitVec 8
  | and => 0x1a
  | div => 0x1b
  | minus => 0x1c
  | mod => 0x1d
  | mul => 0x1e
  | or => 0x21
  | plus => 0x22
  | shl => 0x24
  | shr => 0x25
  | shra => 0x26
  | xor => 0x27
  | eq => 0x29
  | ge => 0x2a
  | gt => 0x2b
  | le => 0x2c
  | lt => 0x2d
  | ne => 0x2e

def opcode : Operation w → BitVec 8
  | .leaf (.lit n) => 0x30 + BitVec.ofNat 8 n
  | .leaf (.constu _) => 0x10
  | .leaf (.breg reg _) => 0x70 + BitVec.ofNat 8 reg
  | .leaf (.bregx _ _) => 0x92
  | .unary .deref => 0x06
  | .unary (.derefSize _) => 0x94
  | .unary .abs => 0x19
  | .unary .neg => 0x1f
  | .unary .not => 0x20
  | .unary (.plusUconst _) => 0x23
  | .binary b => b.opcode

/-- The operands after the op. -/
def operandBytes : Operation w → List (BitVec 8)
  | .leaf (.constu v) => unsigned v.toNat
  | .leaf (.breg _ offset) => signed offset.1.toInt
  | .leaf (.bregx reg offset) => unsigned reg.toNat ++ signed offset.1.toInt
  | .unary (.derefSize size) => [size]
  | .unary (.plusUconst v) => unsigned v.toNat
  | _ => []

def encodeOp (op : Operation w) : List (BitVec 8) := opcode op :: operandBytes op

def encode (e : Expression w) : List (BitVec 8) := e.code.flatMap encodeOp

/-! ## Operands -/

variable {d : DwarfMemory}

theorem Reads.bind {m : Memory} {α β : Type} {read : BitVec 64 → Result (α × BitVec 64)}
    {k : α → BitVec 64 → Result (β × BitVec 64)} {bytes bytes' : List (BitVec 8)} {v : α} {v' : β}
    (h : Reads m read bytes v) (h' : Reads m (k v) bytes' v') :
    Reads m (fun off => read off >>= fun r => k r.1 r.2) (bytes ++ bytes') v' := by
  intro off hoff
  obtain ⟨hb, hb'⟩ := holds_append.mp hoff
  have hto : m.Holds (off + BitVec.ofNat 64 bytes.length).toNat bytes' := by
    cases bytes' with
    | nil => exact holds_nil
    | cons b bytes' =>
      have hlt := hoff.lt (by simp)
      rw [List.length_append, List.length_cons] at hlt
      rwa [BitVec.toNat_add, BitVec.toNat_ofNat, Nat.mod_eq_of_lt (by omega), Nat.mod_eq_of_lt (by omega)]
  show read off >>= _ = _
  rw [h off hb, bind_ok, h' _ hto, List.length_append, BitVec.ofNat_add, BitVec.add_assoc]

/-- An encoded value that is taken as it is. -/
theorem reads_encoded {encoding : BitVec 8} {bytes : List (BitVec 8)} {v : BitVec 64}
    (hrel : encoding &&& 0x70 = DW_EH_PE_absptr) (homit : encoding ≠ DW_EH_PE_omit) (hal : encoding ≠ DW_EH_PE_aligned)
    (h : Reads d.memory (d.readData w encoding) bytes v) :
    Reads d.memory (d.readEncodedValue w encoding) bytes v := by
  intro off hoff
  rw [DwarfMemory.readEncodedValue, if_neg homit, if_neg hal, h off hoff, bind_ok]
  dsimp only
  rw [hrel]
  rfl

theorem reads_uleb128 (v : BitVec 64) :
    Reads d.memory (d.readEncodedValue w DW_EH_PE_uleb128) (unsigned v.toNat) v :=
  reads_encoded rfl (by decide) (by decide) (reads_unsigned d v)

theorem reads_sleb128 {v : BitVec 64} (h : -2 ^ 62 ≤ v.toInt) :
    Reads d.memory (d.readEncodedValue w DW_EH_PE_sleb128) (signed v.toInt) v :=
  reads_encoded rfl (by decide) (by decide) (reads_signed d h)

theorem toNat_setWidth_of_le (hw : w ≤ 64) (v : BitVec w) : (v.setWidth 64).toNat = v.toNat := by
  rw [BitVec.toNat_setWidth, Nat.mod_eq_of_lt (v.isLt.trans_le (Nat.pow_le_pow_right (by decide) hw))]

theorem setWidth_setWidth_of_lt (hw : w ≤ 64) {v : BitVec 64} (hv : v.toNat < 2 ^ w) :
    (v.setWidth w).setWidth 64 = v := by
  refine BitVec.eq_of_toNat_eq ?_
  rw [toNat_setWidth_of_le hw, BitVec.toNat_setWidth, Nat.mod_eq_of_lt hv]

theorem setWidth_signExtend (hw : w ≤ 64) (v : BitVec w) : (v.signExtend 64).setWidth w = v := by
  rw [← BitVec.signExtend_eq_setWidth_of_le _ hw, BitVec.signExtend, BitVec.toInt_signExtend_of_le hw,
    BitVec.ofInt_toInt]

def Binary.handleFunc : Binary → DwarfOpHandleFunc
  | and => OP_AND
  | div => OP_DIV
  | minus => OP_MINUS
  | mod => OP_MOD
  | mul => OP_MUL
  | or => OP_OR
  | plus => OP_PLUS
  | shl => OP_SHL
  | shr => OP_SHR
  | shra => OP_SHRA
  | xor => OP_XOR
  | eq => OP_EQ
  | ge => OP_GE
  | gt => OP_GT
  | le => OP_LE
  | lt => OP_LT
  | ne => OP_NE

/-- The entry of an op. -/
def entry : Operation w → OpCallback
  | .leaf (.lit _) => ⟨OP_LIT, 0, []⟩
  | .leaf (.constu _) => ⟨OP_PUSH, 0, [DW_EH_PE_uleb128]⟩
  | .leaf (.breg _ _) => ⟨OP_BREG, 0, [DW_EH_PE_sleb128]⟩
  | .leaf (.bregx _ _) => ⟨OP_BREGX, 0, [DW_EH_PE_uleb128, DW_EH_PE_sleb128]⟩
  | .unary .deref => ⟨OP_DEREF, 1, []⟩
  | .unary (.derefSize _) => ⟨OP_DEREF_SIZE, 1, [DW_EH_PE_udata1]⟩
  | .unary .abs => ⟨OP_ABS, 1, []⟩
  | .unary .neg => ⟨OP_NEG, 1, []⟩
  | .unary .not => ⟨OP_NOT, 1, []⟩
  | .unary (.plusUconst _) => ⟨OP_PLUS_UCONST, 1, [DW_EH_PE_uleb128]⟩
  | .binary b => ⟨b.handleFunc, 2, []⟩

section Handlers

variable {c : OpContext w} {s : OpState w} {v v' : BitVec w} {stack : List (BitVec w)}

end Handlers

/-! ## Runs -/

variable {c : OpContext w} {s : OpState w}

end AllocHook.Unwindstack
