/-
The cursor of the DWARF readers (`DwarfMemory.cpp`).

A reader takes `cur_offset_` and gives a value and the offset after it. What
stops it is a `Fault`: the error its callers report, which is the same for
all of them, with the offset where the cursor then stands; or undefined
behaviour, where a number is so long that the code shifts too far.

Little-endian machines, as all supported ones are. `w` is the width of
`AddressType`; `size_t` has 64 bits.
-/
import AllocHook.Lib.Leb128
import AllocHook.Unwindstack.Memory

namespace AllocHook.Unwindstack

inductive DwarfErrorCode
  | none | memoryInvalid | illegalValue | illegalState | stackIndexNotValid | notImplemented
  | tooManyIterations | cfaNotDefined | unsupportedVersion | noFdes
  deriving DecidableEq, Repr

/-- What C++ leaves undefined: a shift by the width of the type or more, a
signed result out of range, an element that is not in the container. -/
inductive Undefined
  | shift | overflow | outOfBounds
  deriving DecidableEq, Repr

/-- Why something did not go through: `last_error_`, where `none` leaves the
address as it was, or undefined behaviour. -/
inductive Fault
  | error (code : DwarfErrorCode) (address : Option (BitVec 64))
  | undefined (why : Undefined)
  deriving DecidableEq, Repr

abbrev Result (α : Type*) := Except Fault α

@[simp] theorem bind_ok {α β : Type} {v : α} {f : α → Result β} : (Except.ok v >>= f) = f v := rfl

@[simp] theorem bind_error {α β : Type} {e : Fault} {f : α → Result β} :
    ((Except.error e : Result α) >>= f) = .error e := rfl

theorem bind_eq_ok {α β : Type} {x : Result α} {f : α → Result β} {v : β} :
    x >>= f = .ok v ↔ ∃ a, x = .ok a ∧ f a = .ok v := by
  cases x with
  | error e => simp
  | ok a => simp

structure DwarfMemory where
  memory : Memory
  pcOffset : BitVec 64 := BitVec.ofNat 64 (2 ^ 63 - 1)
  dataOffset : BitVec 64 := -1
  funcOffset : BitVec 64 := -1
  textOffset : BitVec 64 := -1

variable (d : DwarfMemory)

def DwarfMemory.readBytes (numBytes : ℕ) (off : BitVec 64) : Result (List (BitVec 8) × BitVec 64) :=
  match d.memory.readFully off numBytes with
  | none => .error (.error .memoryInvalid (some off))
  | some dst => .ok (dst, off + BitVec.ofNat 64 numBytes)

/-- An unsigned integer of this many bytes. -/
def DwarfMemory.readUnsigned (size : ℕ) (off : BitVec 64) : Result (BitVec 64 × BitVec 64) := do
  let (dst, off) ← d.readBytes size off
  return (BitVec.ofNat 64 (littleEndian dst), off)

def DwarfMemory.readSigned (size : ℕ) (off : BitVec 64) : Result (BitVec 64 × BitVec 64) := do
  let (dst, off) ← d.readBytes size off
  return ((BitVec.ofNat (8 * size) (littleEndian dst)).signExtend 64, off)

/-- One byte, and the offset after it. -/
def DwarfMemory.readByte (off : BitVec 64) : Result (BitVec 8 × BitVec 64) := do
  let (dst, off) ← d.readBytes 1 off
  return (dst.headD 0, off)

/-- The loop of both LEB128 readers: the digits, the shift after them and the
last byte. `rest` shifts are defined from here on. -/
def DwarfMemory.readDigits (d : DwarfMemory) :
    ℕ → ℕ → BitVec 64 → BitVec 64 → Result ((BitVec 64 × ℕ × BitVec 8) × BitVec 64)
  | 0, _, _, off => do
    let _ ← d.readByte off
    .error (.undefined .shift)
  | rest + 1, shift, curValue, off => do
    let (byte, off) ← d.readByte off
    let curValue := curValue + (byte &&& 0x7f).setWidth 64 <<< shift
    if byte.msb then d.readDigits rest (shift + 7) curValue off
    else return ((curValue, shift + 7, byte), off)

/-- The shifts below 64. -/
def definedShifts : ℕ := 10

def DwarfMemory.readULEB128 (off : BitVec 64) : Result (BitVec 64 × BitVec 64) := do
  let ((curValue, _, _), off) ← d.readDigits definedShifts 0 0 off
  return (curValue, off)

def DwarfMemory.readSLEB128 (off : BitVec 64) : Result (BitVec 64 × BitVec 64) := do
  let ((curValue, shift, byte), off) ← d.readDigits definedShifts 0 0 off
  if byte.getLsbD 6 then
    if shift < 64 then return (curValue ||| (-1 : BitVec 64) <<< shift, off) else .error (.undefined .shift)
  else return (curValue, off)

/-! ## Encoded values -/

def DW_EH_PE_omit : BitVec 8 := 0xff
def DW_EH_PE_absptr : BitVec 8 := 0x00
def DW_EH_PE_uleb128 : BitVec 8 := 0x01
def DW_EH_PE_udata2 : BitVec 8 := 0x02
def DW_EH_PE_udata4 : BitVec 8 := 0x03
def DW_EH_PE_udata8 : BitVec 8 := 0x04
def DW_EH_PE_sleb128 : BitVec 8 := 0x09
def DW_EH_PE_sdata2 : BitVec 8 := 0x0a
def DW_EH_PE_sdata4 : BitVec 8 := 0x0b
def DW_EH_PE_sdata8 : BitVec 8 := 0x0c
def DW_EH_PE_udata1 : BitVec 8 := 0x0d
def DW_EH_PE_sdata1 : BitVec 8 := 0x0e
def DW_EH_PE_block : BitVec 8 := 0x0f
def DW_EH_PE_pcrel : BitVec 8 := 0x10
def DW_EH_PE_textrel : BitVec 8 := 0x20
def DW_EH_PE_datarel : BitVec 8 := 0x30
def DW_EH_PE_funcrel : BitVec 8 := 0x40
def DW_EH_PE_aligned : BitVec 8 := 0x50

def getEncodedSize (w : ℕ) (encoding : BitVec 8) : ℕ :=
  let format := encoding &&& 0x0f
  if format = DW_EH_PE_absptr then w / 8
  else if format = DW_EH_PE_udata1 ∨ format = DW_EH_PE_sdata1 then 1
  else if format = DW_EH_PE_udata2 ∨ format = DW_EH_PE_sdata2 then 2
  else if format = DW_EH_PE_udata4 ∨ format = DW_EH_PE_sdata4 then 4
  else if format = DW_EH_PE_udata8 ∨ format = DW_EH_PE_sdata8 then 8
  else 0

/-- `AdjustEncodedValue`: `none` is an encoding it does not support. -/
def DwarfMemory.adjustEncodedValue (encoding : BitVec 8) (value : BitVec 64) : Option (BitVec 64) :=
  if encoding = DW_EH_PE_absptr then some value
  else if encoding = DW_EH_PE_pcrel then
    if d.pcOffset = BitVec.ofNat 64 (2 ^ 63 - 1) then none else some (value + d.pcOffset)
  else if encoding = DW_EH_PE_textrel then
    if d.textOffset = -1 then none else some (value + d.textOffset)
  else if encoding = DW_EH_PE_datarel then
    if d.dataOffset = -1 then none else some (value + d.dataOffset)
  else if encoding = DW_EH_PE_funcrel then
    if d.funcOffset = -1 then none else some (value + d.funcOffset)
  else none

/-- The data of an encoded value. -/
def DwarfMemory.readData (w : ℕ) (encoding : BitVec 8) (off : BitVec 64) : Result (BitVec 64 × BitVec 64) :=
  let format := encoding &&& 0x0f
  if format = DW_EH_PE_absptr then d.readUnsigned (w / 8) off
  else if format = DW_EH_PE_uleb128 then d.readULEB128 off
  else if format = DW_EH_PE_sleb128 then d.readSLEB128 off
  else if format = DW_EH_PE_udata1 then d.readUnsigned 1 off
  else if format = DW_EH_PE_sdata1 then d.readSigned 1 off
  else if format = DW_EH_PE_udata2 then d.readUnsigned 2 off
  else if format = DW_EH_PE_sdata2 then d.readSigned 2 off
  else if format = DW_EH_PE_udata4 then d.readUnsigned 4 off
  else if format = DW_EH_PE_sdata4 then d.readSigned 4 off
  else if format = DW_EH_PE_udata8 then d.readUnsigned 8 off
  else if format = DW_EH_PE_sdata8 then d.readSigned 8 off
  else .error (.error .memoryInvalid (some off))

def DwarfMemory.readEncodedValue (w : ℕ) (encoding : BitVec 8) (off : BitVec 64) :
    Result (BitVec 64 × BitVec 64) :=
  if encoding = DW_EH_PE_omit then .ok (0, off)
  else if encoding = DW_EH_PE_aligned then
    let aligned := off + BitVec.ofNat 64 (w / 8 - 1)
    if 2 ^ 64 ≤ off.toNat + (w / 8 - 1) then .error (.error .memoryInvalid (some aligned))
    else d.readUnsigned (w / 8) (aligned &&& -BitVec.ofNat 64 (w / 8))
  else do
    let (value, off) ← d.readData w encoding off
    match d.adjustEncodedValue (encoding &&& 0x70) value with
    | none => .error (.error .memoryInvalid (some off))
    | some value => return (value, off)

/-! ## What a reader makes of bytes -/

/-- Where these bytes are at the cursor, the reader gives `v` and goes past
them. -/
def Reads (m : Memory) {α : Type} (read : BitVec 64 → Result (α × BitVec 64)) (bytes : List (BitVec 8)) (v : α) :
    Prop :=
  ∀ off : BitVec 64, m.Holds off.toNat bytes → read off = .ok (v, off + BitVec.ofNat 64 bytes.length)

variable {d} {bytes : List (BitVec 8)} {off : BitVec 64}

theorem readBytes_of_holds (bytes : List (BitVec 8)) :
    Reads d.memory (d.readBytes bytes.length) bytes bytes := by
  intro off h
  rw [DwarfMemory.readBytes, readFully_eq_some.mpr ⟨rfl, h⟩]

theorem readByte_of_holds (b : BitVec 8) : Reads d.memory d.readByte [b] b := by
  intro off h
  rw [DwarfMemory.readByte, show d.readBytes 1 off = _ from readBytes_of_holds [b] off h]
  rfl

theorem readUnsigned_of_holds (bytes : List (BitVec 8)) :
    Reads d.memory (d.readUnsigned bytes.length) bytes (BitVec.ofNat 64 (littleEndian bytes)) := by
  intro off h
  rw [DwarfMemory.readUnsigned, readBytes_of_holds bytes off h]
  rfl

theorem readSigned_of_holds (bytes : List (BitVec 8)) :
    Reads d.memory (d.readSigned bytes.length) bytes
      ((BitVec.ofNat (8 * bytes.length) (littleEndian bytes)).signExtend 64) := by
  intro off h
  rw [DwarfMemory.readSigned, readBytes_of_holds bytes off h]
  rfl

/-! ## Numbers in base 128 -/

open Leb128

theorem setWidth_digit (b : BitVec 8) : (b &&& 0x7f).setWidth 64 = BitVec.ofNat 64 (digit b) := by
  apply BitVec.eq_of_toNat_eq
  have hand : b.toNat &&& 127 = b.toNat % 128 := Nat.and_two_pow_sub_one_eq_mod b.toNat 7
  rw [BitVec.toNat_setWidth, BitVec.toNat_and, BitVec.toNat_ofNat, digit]
  exact congrArg (· % 2 ^ 64) hand

theorem ofNat_shiftLeft (n shift : ℕ) : BitVec.ofNat 64 n <<< shift = BitVec.ofNat 64 (n * 2 ^ shift) := by
  apply BitVec.eq_of_toNat_eq
  rw [BitVec.toNat_shiftLeft, BitVec.toNat_ofNat, BitVec.toNat_ofNat, Nat.shiftLeft_eq, Nat.mod_mul_mod]

/-- Reading a byte, and then the rest from the offset after it. -/
theorem toNat_add_one {b : BitVec 8} (h : d.memory.Holds off.toNat (b :: bytes)) (hne : bytes ≠ []) :
    (off + 1#64).toNat = off.toNat + 1 := by
  have hlt := h.lt (by simp)
  have hpos := List.length_pos_iff.mpr hne
  rw [List.length_cons] at hlt
  rw [BitVec.toNat_add, Nat.mod_eq_of_lt]
  · rfl
  · show off.toNat + 1 < 2 ^ 64
    omega

theorem offset_cons (off : BitVec 64) (b : BitVec 8) (bytes : List (BitVec 8)) :
    off + 1#64 + BitVec.ofNat 64 bytes.length = off + BitVec.ofNat 64 (b :: bytes).length := by
  rw [List.length_cons, BitVec.ofNat_add, BitVec.add_assoc, BitVec.add_comm (BitVec.ofNat 64 bytes.length)]

/-- The first byte of more, and the offset of the rest. -/
theorem readDigits_cons {b b' : BitVec 8} (h : d.memory.Holds off.toNat (b :: b' :: bytes)) (hmsb : b.msb = true)
    (rest shift : ℕ) (c : BitVec 64) :
    (off + 1#64).toNat = off.toNat + 1 ∧ d.memory.Holds (off + 1#64).toNat (b' :: bytes) ∧
      d.readDigits (rest + 1) shift c off =
        d.readDigits rest (shift + 7) (c + (b &&& 0x7f).setWidth 64 <<< shift) (off + 1#64) := by
  have hb := readByte_of_holds b off (holds_cons.mpr ⟨(holds_cons.mp h).1, holds_nil⟩)
  have hoff := toNat_add_one h (List.cons_ne_nil b' bytes)
  refine ⟨hoff, by rw [hoff]; exact (holds_cons.mp h).2, ?_⟩
  rw [DwarfMemory.readDigits, hb, bind_ok]
  dsimp only
  rw [if_pos hmsb]
  rfl

/-- The loop on the bytes of a number, while the shifts are defined. -/
theorem readDigits_of_holds {rest shift c : ℕ} (ht : Terminated bytes) (hlen : bytes.length ≤ rest)
    (h : d.memory.Holds off.toNat bytes) :
    d.readDigits rest shift (BitVec.ofNat 64 c) off =
      .ok ((BitVec.ofNat 64 (c + value bytes * 2 ^ shift), shift + 7 * bytes.length, bytes.getLast ht.ne_nil),
        off + BitVec.ofNat 64 bytes.length) := by
  induction bytes generalizing rest shift c off with
  | nil => exact ht.elim
  | cons b bytes ih =>
    obtain ⟨rest, rfl⟩ : ∃ r, rest = r + 1 := ⟨rest - 1, by rw [List.length_cons] at hlen; omega⟩
    have hcur : BitVec.ofNat 64 c + (b &&& 0x7f).setWidth 64 <<< shift =
        BitVec.ofNat 64 (c + digit b * 2 ^ shift) := by
      rw [setWidth_digit, ofNat_shiftLeft, BitVec.ofNat_add]
    cases bytes with
    | nil =>
      have hmsb : b.msb = false := ht
      rw [DwarfMemory.readDigits, readByte_of_holds b off h, bind_ok]
      dsimp only
      rw [hcur, hmsb]
      simp [pure, Except.pure]
    | cons b' bytes =>
      obtain ⟨hmsb, ht'⟩ := ht
      obtain ⟨-, h', hstep⟩ := readDigits_cons h hmsb rest shift (BitVec.ofNat 64 c)
      rw [hstep, hcur, ih ht' (Nat.le_of_succ_le_succ hlen) h']
      have hvalue : c + digit b * 2 ^ shift + value (b' :: bytes) * 2 ^ (shift + 7) =
          c + value (b :: b' :: bytes) * 2 ^ shift := by
        rw [value_cons b, Nat.pow_add]
        ring
      rw [hvalue, offset_cons, List.getLast_cons (List.cons_ne_nil b' bytes)]
      congr 4
      rw [List.length_cons (a := b)]
      omega

/-- A number too long for the shifts. -/
theorem readDigits_undefined {rest shift : ℕ} {c : BitVec 64} (ht : Terminated bytes) (hlen : rest < bytes.length)
    (h : d.memory.Holds off.toNat bytes) : d.readDigits rest shift c off = .error (.undefined .shift) := by
  induction bytes generalizing rest shift c off with
  | nil => exact ht.elim
  | cons b bytes ih =>
    cases rest with
    | zero =>
      have hb := readByte_of_holds b off (holds_cons.mpr ⟨(holds_cons.mp h).1, holds_nil⟩)
      rw [DwarfMemory.readDigits, hb]
      rfl
    | succ rest =>
      cases bytes with
      | nil => exact absurd hlen (by simp)
      | cons b' bytes =>
        obtain ⟨hmsb, ht'⟩ := ht
        obtain ⟨-, h', hstep⟩ := readDigits_cons h hmsb rest shift c
        rw [hstep]
        exact ih ht' (Nat.lt_of_succ_lt_succ hlen) h'

/-- `ReadULEB128` on the bytes of a number, padded or not. -/
theorem readULEB128_eq (ht : Terminated bytes) (h : d.memory.Holds off.toNat bytes) :
    d.readULEB128 off =
      if bytes.length ≤ definedShifts then
        .ok (BitVec.ofNat 64 (value bytes), off + BitVec.ofNat 64 bytes.length)
      else .error (.undefined .shift) := by
  rw [DwarfMemory.readULEB128]
  split
  · next hlen =>
    rw [show (0 : BitVec 64) = BitVec.ofNat 64 0 from rfl, readDigits_of_holds ht hlen h, bind_ok, Nat.zero_add,
      Nat.pow_zero, Nat.mul_one]
    rfl
  · next hlen =>
    rw [readDigits_undefined ht (Nat.lt_of_not_le hlen) h]
    rfl

theorem negative_eq (hne : bytes ≠ []) : negative bytes = (bytes.getLast hne).getLsbD 6 := by
  rw [negative, List.getLast?_eq_some_getLast hne]
  rfl

/-- The sign extension of the digits: the bits above them are set. -/
theorem or_signs {v shift : ℕ} (hv : v < 2 ^ shift) (hshift : shift < 64) :
    BitVec.ofNat 64 v ||| (-1 : BitVec 64) <<< shift = BitVec.ofInt 64 ((v : ℤ) - 2 ^ shift) := by
  have hpow : 2 ^ shift < 2 ^ 64 := Nat.pow_lt_pow_right (by decide) hshift
  have hdisj : BitVec.ofNat 64 v &&& (-1 : BitVec 64) <<< shift = 0#64 := by
    apply BitVec.eq_of_getLsbD_eq
    intro i hi
    rw [BitVec.getLsbD_and, BitVec.getLsbD_ofNat, BitVec.getLsbD_shiftLeft, BitVec.getLsbD_zero]
    by_cases his : i < shift
    · simp [his]
    · rw [Nat.testBit_lt_two_pow (hv.trans_le (Nat.pow_le_pow_right (by decide) (Nat.not_lt.mp his)))]
      simp
  have hneg : (-1 : BitVec 64) <<< shift = -BitVec.ofNat 64 (2 ^ shift) := by
    have hone : 1#64 <<< shift = BitVec.ofNat 64 (2 ^ shift) := by rw [ofNat_shiftLeft, Nat.one_mul]
    rw [BitVec.shiftLeft_eq_mul_twoPow, BitVec.twoPow_eq, hone, BitVec.neg_mul]
    exact congrArg (- ·) (BitVec.one_mul _)
  have hcast : (2 : ℤ) ^ shift = ((2 ^ shift : ℕ) : ℤ) := by push_cast; rfl
  rw [← BitVec.add_eq_or_of_and_eq_zero _ _ hdisj, hneg, hcast, Int.sub_eq_add_neg, BitVec.ofInt_add,
    BitVec.ofInt_neg, BitVec.ofInt_natCast, BitVec.ofInt_natCast]

/-- The bytes from which `ReadSLEB128` reads a number. -/
def SignsDefined (bytes : List (BitVec 8)) : Prop :=
  bytes.length ≤ definedShifts ∧ (negative bytes = true → 7 * bytes.length < 64)

instance (bytes : List (BitVec 8)) : Decidable (SignsDefined bytes) := inferInstanceAs (Decidable (_ ∧ _))

/-- `ReadSLEB128` on the bytes of a number. -/
theorem readSLEB128_eq (ht : Terminated bytes) (h : d.memory.Holds off.toNat bytes) :
    d.readSLEB128 off =
      if SignsDefined bytes then .ok (BitVec.ofInt 64 (signedValue bytes), off + BitVec.ofNat 64 bytes.length)
      else .error (.undefined .shift) := by
  rw [DwarfMemory.readSLEB128]
  by_cases hlen : bytes.length ≤ definedShifts
  · rw [show (0 : BitVec 64) = BitVec.ofNat 64 0 from rfl, readDigits_of_holds ht hlen h, bind_ok]
    simp only [Nat.zero_add, Nat.pow_zero, Nat.mul_one, ← negative_eq, SignsDefined, hlen, true_and, signedValue]
    cases negative bytes with
    | false => simp [pure, Except.pure, BitVec.ofInt_natCast]
    | true =>
      simp only [if_true, forall_const]
      split
      · next hshift =>
        have hv : value bytes < 2 ^ (7 * bytes.length) := by
          rw [Nat.pow_mul]
          exact value_lt bytes
        have hpow : (128 : ℤ) ^ bytes.length = 2 ^ (7 * bytes.length) := by
          rw [pow_mul]
          norm_num
        rw [or_signs hv hshift, hpow]
        rfl
      · rfl
  · rw [readDigits_undefined ht (Nat.lt_of_not_le hlen) h, if_neg fun hs => hlen hs.1]
    rfl

theorem signsDefined_signed {z : ℤ} (hlo : -2 ^ 63 ≤ z) (hhi : z < 2 ^ 63) :
    SignsDefined (signed z) ↔ -2 ^ 62 ≤ z := by
  have hten : (signed z).length ≤ definedShifts := length_signed_le.mpr ⟨by norm_num; omega, by norm_num; omega⟩
  have hnine := length_signed_le (k := 8) (z := z)
  norm_num at hnine
  rw [SignsDefined, negative_signed, decide_eq_true_eq]
  constructor
  · intro hs
    by_contra hlt
    exact hlt (by have := hnine.mp (by have := hs.2 (by omega); omega); omega)
  · intro hz
    refine ⟨hten, fun hneg => ?_⟩
    have := hnine.mpr ⟨by omega, by omega⟩
    omega

theorem reads_unsigned (d : DwarfMemory) (v : BitVec 64) : Reads d.memory d.readULEB128 (unsigned v.toNat) v := by
  intro off h
  have hlen : (unsigned v.toNat).length ≤ definedShifts := length_unsigned_le (lt_of_lt_of_le v.isLt (by norm_num))
  rw [readULEB128_eq (terminated_unsigned _) h, if_pos hlen, value_unsigned, BitVec.ofNat_toNat, BitVec.setWidth_eq]

theorem reads_signed (d : DwarfMemory) {v : BitVec 64} (hv : -2 ^ 62 ≤ v.toInt) :
    Reads d.memory d.readSLEB128 (signed v.toInt) v := by
  intro off h
  have hdefined := (signsDefined_signed (BitVec.le_toInt v) BitVec.toInt_lt).mpr hv
  rw [readSLEB128_eq (terminated_signed _) h, if_pos hdefined, signedValue_signed, BitVec.ofInt_toInt]

/-- **The LEB128 readers and their range**: every `uint64_t` is read back from
the bytes it is written in, and every `int64_t` from `-2^62` on. The bytes of
a lesser one take the sign extension to a shift C++ does not define. -/
theorem leb128_round_trip (d : DwarfMemory) (v : BitVec 64) :
    Reads d.memory d.readULEB128 (unsigned v.toNat) v ∧
    (-2 ^ 62 ≤ v.toInt ∧ Reads d.memory d.readSLEB128 (signed v.toInt) v ∨
      v.toInt < -2 ^ 62 ∧ ∀ off : BitVec 64, d.memory.Holds off.toNat (signed v.toInt) →
        d.readSLEB128 off = .error (.undefined .shift)) := by
  refine ⟨reads_unsigned d v, ?_⟩
  rcases le_or_gt (-2 ^ 62) v.toInt with hz | hz
  · exact .inl ⟨hz, reads_signed d hz⟩
  · refine .inr ⟨hz, fun off h => ?_⟩
    rw [readSLEB128_eq (terminated_signed _) h, if_neg]
    exact fun hs => not_le.mpr hz ((signsDefined_signed (BitVec.le_toInt v) BitVec.toInt_lt).mp hs)

end AllocHook.Unwindstack
