/-
Numbers in base 128, a byte a digit, the lowest first: every byte but the
last has its high bit set (LEB128).

`value` reads the digits, `signedValue` takes the second highest bit of the
last byte for a sign. `unsigned` and `signed` write a number in as few bytes
as it takes. A reader only relies on `Terminated`: it stops at the right
byte whatever follows, and padded numbers have the same value.
-/
import Mathlib.Data.Nat.Digits.Defs
import Mathlib.Algebra.Order.Ring.Int
import Mathlib.Tactic.Ring
import Mathlib.Tactic.Linarith

namespace Leb128

/-- The seven low bits. -/
def digit (b : BitVec 8) : ℕ := b.toNat % 128

def value (bytes : List (BitVec 8)) : ℕ := Nat.ofDigits 128 (bytes.map digit)

@[simp] theorem value_nil : value [] = 0 := rfl

@[simp] theorem value_cons (b : BitVec 8) (bytes : List (BitVec 8)) :
    value (b :: bytes) = digit b + 128 * value bytes := by
  simp [value, Nat.ofDigits_cons]

theorem digit_lt (b : BitVec 8) : digit b < 128 := Nat.mod_lt _ (by decide)

theorem value_lt (bytes : List (BitVec 8)) : value bytes < 128 ^ bytes.length := by
  induction bytes with
  | nil => exact Nat.one_pos
  | cons b bytes ih =>
    have hd := digit_lt b
    rw [value_cons, List.length_cons, Nat.pow_succ]
    omega

/-- The bytes are those of one number. -/
def Terminated : List (BitVec 8) → Prop
  | [] => False
  | [b] => b.msb = false
  | b :: b' :: bytes => b.msb = true ∧ Terminated (b' :: bytes)

theorem Terminated.ne_nil {bytes : List (BitVec 8)} (h : Terminated bytes) : bytes ≠ [] := by
  rintro rfl
  exact h

theorem terminated_cons {b : BitVec 8} {bytes : List (BitVec 8)} (h : Terminated bytes) (hb : b.msb = true) :
    Terminated (b :: bytes) := by
  cases bytes with
  | nil => exact h.elim
  | cons b' bytes => exact ⟨hb, h⟩

/-! ## Bytes -/

/-- A byte with more to come. -/
def more (d : ℕ) : BitVec 8 := BitVec.ofNat 8 (d + 128)

/-- The last byte. -/
def last (d : ℕ) : BitVec 8 := BitVec.ofNat 8 d

variable {d : ℕ} (hd : d < 128)

include hd

theorem digit_more : digit (more d) = d := by
  rw [digit, more, BitVec.toNat_ofNat]
  omega

theorem digit_last : digit (last d) = d := by
  rw [digit, last, BitVec.toNat_ofNat]
  omega

theorem msb_more : (more d).msb = true := by
  rw [more, BitVec.msb_eq_decide, BitVec.toNat_ofNat, decide_eq_true_eq]
  omega

theorem msb_last : (last d).msb = false := by
  rw [last, BitVec.msb_eq_decide, BitVec.toNat_ofNat, decide_eq_false_iff_not]
  omega

omit hd

/-! ## Unsigned numbers -/

def unsigned (n : ℕ) : List (BitVec 8) :=
  if n < 128 then [last n] else more (n % 128) :: unsigned (n / 128)

theorem terminated_unsigned (n : ℕ) : Terminated (unsigned n) := by
  induction n using Nat.strongRecOn with
  | ind n ih =>
    rw [unsigned]
    split
    · next hn => exact msb_last hn
    · exact terminated_cons (ih (n / 128) (by omega)) (msb_more (Nat.mod_lt _ (by decide)))

theorem value_unsigned (n : ℕ) : value (unsigned n) = n := by
  induction n using Nat.strongRecOn with
  | ind n ih =>
    rw [unsigned]
    split
    · next hn => rw [value_cons, digit_last hn, value_nil, Nat.mul_zero, Nat.add_zero]
    · rw [value_cons, ih (n / 128) (by omega), digit_more (Nat.mod_lt _ (by decide))]
      exact Nat.mod_add_div n 128

theorem length_unsigned_le {k : ℕ} : ∀ {n : ℕ}, n < 128 ^ (k + 1) → (unsigned n).length ≤ k + 1 := by
  induction k with
  | zero =>
    intro n hn
    rw [unsigned, if_pos (by omega)]
    exact Nat.le_refl _
  | succ k ih =>
    intro n hn
    rw [unsigned]
    split
    · exact Nat.succ_le_succ (Nat.zero_le _)
    · refine Nat.succ_le_succ (ih ?_)
      rw [Nat.div_lt_iff_lt_mul (by decide), ← Nat.pow_succ]
      exact hn

/-! ## Signed numbers -/

/-- The sign bit of the last byte. -/
def negative (bytes : List (BitVec 8)) : Bool := (bytes.getLast?.map fun b => b.getLsbD 6).getD false

def signedValue (bytes : List (BitVec 8)) : ℤ :=
  value bytes - if negative bytes then (128 : ℤ) ^ bytes.length else 0

def signed (z : ℤ) : List (BitVec 8) :=
  if -64 ≤ z ∧ z < 64 then [last (z % 128).toNat] else more (z % 128).toNat :: signed (z / 128)
termination_by z.natAbs
decreasing_by omega

theorem toNat_emod_lt (z : ℤ) : (z % 128).toNat < 128 := by omega

/-- Along the bytes of a number, from its end. -/
theorem signed_induction {P : ℤ → Prop} (one : ∀ z, -64 ≤ z → z < 64 → P z)
    (cons : ∀ z, ¬ (-64 ≤ z ∧ z < 64) → P (z / 128) → P z) (z : ℤ) : P z := by
  induction hn : z.natAbs using Nat.strongRecOn generalizing z with
  | ind n ih =>
    by_cases h : -64 ≤ z ∧ z < 64
    · exact one z h.1 h.2
    · exact cons z h (ih _ (by omega) (z / 128) rfl)

theorem signed_one {z : ℤ} (h : -64 ≤ z ∧ z < 64) : signed z = [last (z % 128).toNat] := by
  rw [signed, if_pos h]

theorem signed_cons {z : ℤ} (h : ¬ (-64 ≤ z ∧ z < 64)) :
    signed z = more (z % 128).toNat :: signed (z / 128) := by
  rw [signed, if_neg h]

theorem terminated_signed (z : ℤ) : Terminated (signed z) := by
  induction z using signed_induction with
  | one z h₁ h₂ =>
    rw [signed_one ⟨h₁, h₂⟩]
    exact msb_last (toNat_emod_lt z)
  | cons z h ih =>
    rw [signed_cons h]
    exact terminated_cons ih (msb_more (toNat_emod_lt z))

theorem negative_cons (b : BitVec 8) {bytes : List (BitVec 8)} (h : bytes ≠ []) :
    negative (b :: bytes) = negative bytes := by
  rw [negative, negative, List.getLast?_cons_of_ne_nil h]

theorem signedValue_cons (b : BitVec 8) {bytes : List (BitVec 8)} (h : bytes ≠ []) :
    signedValue (b :: bytes) = digit b + 128 * signedValue bytes := by
  rw [signedValue, signedValue, negative_cons b h, value_cons, List.length_cons]
  split
  · push_cast
    ring
  · push_cast
    ring

theorem negative_last (hd : d < 128) : negative [last d] = decide (64 ≤ d) := by
  simp only [negative, List.getLast?_singleton, Option.map_some, Option.getD_some, last]
  rw [BitVec.getLsbD_ofNat, Nat.testBit_eq_decide_div_mod_eq]
  simp only [Nat.reduceLT, decide_true, Bool.true_and, Nat.reducePow, decide_eq_decide]
  omega

theorem signedValue_signed (z : ℤ) : signedValue (signed z) = z := by
  induction z using signed_induction with
  | one z h₁ h₂ =>
    have hd := toNat_emod_lt z
    rw [signed_one ⟨h₁, h₂⟩, signedValue, negative_last hd, value_cons, digit_last hd, value_nil]
    simp only [decide_eq_true_eq, List.length_singleton, pow_one, Nat.mul_zero, Nat.add_zero]
    split
    · omega
    · omega
  | cons z h ih =>
    rw [signed_cons h, signedValue_cons _ (terminated_signed _).ne_nil, ih, digit_more (toNat_emod_lt z)]
    omega

/-- The sign of what is written. -/
theorem negative_signed (z : ℤ) : negative (signed z) = decide (z < 0) := by
  induction z using signed_induction with
  | one z h₁ h₂ =>
    rw [signed_one ⟨h₁, h₂⟩, negative_last (toNat_emod_lt z), decide_eq_decide]
    omega
  | cons z h ih =>
    rw [signed_cons h, negative_cons _ (terminated_signed _).ne_nil, ih, decide_eq_decide]
    omega

/-- The bytes a number takes. -/
theorem length_signed_le {k : ℕ} {z : ℤ} :
    (signed z).length ≤ k + 1 ↔ -(64 * 128 ^ k) ≤ z ∧ z < 64 * 128 ^ k := by
  induction k generalizing z with
  | zero =>
    by_cases h : -64 ≤ z ∧ z < 64
    · rw [signed_one h]
      simpa using h
    · rw [signed_cons h]
      have hne := List.length_pos_iff.mpr (terminated_signed (z / 128)).ne_nil
      simp only [List.length_cons, pow_zero, mul_one]
      exact ⟨fun hlen => absurd hlen (by omega), fun hz => absurd hz h⟩
  | succ k ih =>
    have hpow : (64 : ℤ) * 128 ^ (k + 1) = 128 * (64 * 128 ^ k) := by ring
    have hpos : (1 : ℤ) ≤ 128 ^ k := one_le_pow₀ (by norm_num)
    by_cases h : -64 ≤ z ∧ z < 64
    · rw [signed_one h]
      refine ⟨fun _ => ?_, fun _ => by simp⟩
      rw [hpow]
      omega
    · rw [signed_cons h, List.length_cons, Nat.succ_le_succ_iff, ih, hpow]
      omega

end Leb128
