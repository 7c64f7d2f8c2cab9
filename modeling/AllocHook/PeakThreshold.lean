/-
The peak threshold (`ParseValue`, `Config::Init`): what text turns peak
recording on, and when snapshots are taken then.

`ParseValue` accepts exactly the numbers from 0 to `LONG_MAX` (`Spells`,
`parseValue_eq_true`), whatever `strtol` makes of other texts. The number is
then multiplied by 2^20 in a `size_t`, unchecked: the threshold is the one the
user wrote if and only if the product fits (`peak_threshold_iff`).
-/
import AllocHook.PeakClasses

namespace AllocHook

variable {w : Nat}

/-! ## Numbers in text -/

/-- The whole text is white space, a sign or none, and digits, and the number
it denotes is `z`. -/
def Spells (text : CString) (z : ℤ) : Prop :=
  ∃ spaces sign digits : CString, text = spaces ++ (sign ++ digits) ∧ (∀ c ∈ spaces, isSpace c = true) ∧
    (sign = [] ∨ sign = ['+'] ∨ sign = ['-']) ∧ digits ≠ [] ∧ (∀ c ∈ digits, isDigit c = true) ∧
    z = if sign = ['-'] then -(decimal digits : ℤ) else decimal digits

/-- The integer a numeral stands for. -/
def Numeral.value (n : Numeral) : ℤ := if n.negative then -(decimal n.digits : ℤ) else decimal n.digits

theorem isDigit_not_space {c : Char} (h : isDigit c = true) : isSpace c = false := by
  simp only [isDigit, Bool.and_eq_true, decide_eq_true_eq] at h
  simp only [isSpace, Bool.or_eq_false_iff, Bool.and_eq_false_iff, beq_eq_false_iff_ne, decide_eq_false_iff_not]
  omega

theorem isDigit_not_sign {c : Char} (h : isDigit c = true) : c ≠ '-' ∧ c ≠ '+' := by
  constructor
  · intro hc; subst hc; exact absurd h (by decide)
  · intro hc; subst hc; exact absurd h (by decide)

/-- A text that spells a number is scanned to its end. -/
theorem scanNumeral_of_spells {text : CString} {z : ℤ} (h : Spells text z) :
    (scanNumeral text).consumed = text.length ∧ (scanNumeral text).consumed ≠ 0 ∧ (scanNumeral text).value = z := by
  obtain ⟨spaces, sign, digits, rfl, hspaces, hsign, hne, hdigits, rfl⟩ := h
  obtain ⟨c, ds, rfl⟩ := List.exists_cons_of_ne_nil hne
  have hc : isDigit c = true := hdigits c List.mem_cons_self
  obtain ⟨hminus, hplus⟩ := isDigit_not_sign hc
  have htake : (c :: ds).takeWhile isDigit = c :: ds := by
    rw [← List.append_nil (c :: ds), List.takeWhile_append_of_pos hdigits, List.takeWhile_nil]
  have hspace : isSpace c = false := isDigit_not_space hc
  unfold scanNumeral
  rw [List.takeWhile_append_of_pos hspaces, List.dropWhile_append_of_pos hspaces]
  rcases hsign with rfl | rfl | rfl
  · simp [hspace, htake, Numeral.value, hminus, hplus]
  · simp [htake, Numeral.value, isSpace]
    omega
  · simp [htake, Numeral.value, isSpace]
    omega

/-- A scan takes a sign, if there is one, and then digits. -/
theorem scanNumeral_cases (text : CString) : ∃ sign rest, text.dropWhile isSpace = sign ++ rest ∧
    (sign = [] ∨ sign = ['+'] ∨ sign = ['-']) ∧ scanNumeral text =
      { negative := decide (sign = ['-'])
        digits := rest.takeWhile isDigit
        consumed := if (rest.takeWhile isDigit).isEmpty then 0
          else (text.takeWhile isSpace).length + sign.length + (rest.takeWhile isDigit).length } := by
  unfold scanNumeral
  match text.dropWhile isSpace with
  | [] => exact ⟨[], [], rfl, .inl rfl, rfl⟩
  | c :: r =>
    by_cases hminus : c = '-'
    · subst hminus
      exact ⟨['-'], r, rfl, .inr (.inr rfl), rfl⟩
    by_cases hplus : c = '+'
    · subst hplus
      exact ⟨['+'], r, rfl, .inr (.inl rfl), rfl⟩
    · exact ⟨[], c :: r, rfl, .inl rfl, by simp [hminus, hplus]⟩

/-- A text that is scanned to its end spells the number the scan found. -/
theorem spells_of_scanNumeral {text : CString} (hend : (scanNumeral text).consumed = text.length)
    (hsome : (scanNumeral text).consumed ≠ 0) : Spells text (scanNumeral text).value := by
  obtain ⟨sign, rest, hrest, hsign, hscan⟩ := scanNumeral_cases text
  rw [hscan] at hend hsome ⊢
  by_cases hempty : (rest.takeWhile isDigit).isEmpty = true
  · exact absurd (if_pos hempty) hsome
  have htext : text = text.takeWhile isSpace ++ (sign ++ (rest.takeWhile isDigit ++ rest.dropWhile isDigit)) := by
    rw [List.takeWhile_append_dropWhile, ← hrest, List.takeWhile_append_dropWhile]
  have htail : rest.dropWhile isDigit = [] := by
    have hlen := congrArg List.length htext
    simp only [List.length_append] at hlen
    dsimp only at hend
    rw [if_neg hempty] at hend
    exact List.length_eq_zero_iff.mp (by omega)
  rw [htail, List.append_nil] at htext
  refine ⟨_, sign, _, htext, List.all_eq_true.mp List.all_takeWhile, hsign, ?_,
    List.all_eq_true.mp List.all_takeWhile, ?_⟩
  · simpa using hempty
  · simp only [Numeral.value, decide_eq_true_eq]

/-- A text spells one number. -/
theorem Spells.unique {text : CString} {z z' : ℤ} (h : Spells text z) (h' : Spells text z') : z = z' :=
  (scanNumeral_of_spells h).2.2.symm.trans (scanNumeral_of_spells h').2.2

/-! ## `ParseValue` -/

/-- `LONG_MAX` of a `w`-bit `long`. -/
def longMax (w : Nat) : ℕ := 2 ^ (w - 1) - 1

/-- The text is there and spells the number `n`, which is no larger than a
`long` can be. -/
def Written (w : Nat) (value : Option CString) (n : ℕ) : Prop :=
  ∃ text, value = some text ∧ Spells text n ∧ n ≤ longMax w

theorem Written.unique {value : Option CString} {n n' : ℕ} (h : Written w value n) (h' : Written w value n') :
    n = n' := by
  obtain ⟨text, rfl, hs, -⟩ := h
  obtain ⟨text', he, hs', -⟩ := h'
  cases he
  exact Int.ofNat_inj.mp (hs.unique hs')

/-- `strtol` by the value of the numeral it scans. -/
theorem strtol_eq (w : Nat) (s : CString) :
    strtol w s =
      if 2 ^ (w - 1) - 1 < (scanNumeral s).value then
        { value := 2 ^ (w - 1) - 1, erange := true, consumed := (scanNumeral s).consumed }
      else if (scanNumeral s).value < -2 ^ (w - 1) then
        { value := -2 ^ (w - 1), erange := true, consumed := (scanNumeral s).consumed }
      else { value := (scanNumeral s).value, erange := false, consumed := (scanNumeral s).consumed } := rfl

theorem longMax_eq (w : Nat) : (longMax w : ℤ) = 2 ^ (w - 1) - 1 := by
  have := Nat.one_le_two_pow (n := w - 1)
  simp only [longMax]
  push_cast [this]
  rfl

/-- `ParseValue` stores a number that is written in the text. -/
theorem parseValue_of_written {value : Option CString} {n : ℕ} (h : Written w value n) :
    parseValue w value = (true, BitVec.ofNat w n) := by
  obtain ⟨text, rfl, hs, hn⟩ := h
  obtain ⟨hend, hsome, hvalue⟩ := scanNumeral_of_spells hs
  have hmax : ¬ 2 ^ (w - 1) - 1 < (n : ℤ) := by rw [← longMax_eq]; omega
  have hmin : ¬ (n : ℤ) < -2 ^ (w - 1) := by
    have hpow : (0 : ℤ) ≤ 2 ^ (w - 1) := Int.pow_nonneg (by decide)
    omega
  have hneg : ¬ (n : ℤ) < 0 := by omega
  rw [hend] at hsome
  simp only [parseValue, strtol_eq, hvalue, if_neg hmax, if_neg hmin, hsome, hend, hneg, ne_eq, not_true_eq_false,
    if_false, Bool.false_eq_true]
  rw [BitVec.ofInt_natCast]

/-- A text `ParseValue` accepts has a number written in it. -/
theorem written_of_parseValue {value : Option CString} (h : (parseValue w value).1 = true) :
    ∃ n, Written w value n := by
  cases value with
  | none => cases h
  | some text =>
    simp only [parseValue] at h
    split at h
    · cases h
    next herange =>
    split at h
    · cases h
    next hsome =>
    split at h
    · cases h
    next hend =>
    split at h
    · cases h
    next hneg =>
    rw [strtol_eq] at herange hsome hend hneg
    split at herange
    · exact absurd rfl herange
    next hmax =>
    split at herange
    · exact absurd rfl herange
    next hmin =>
    simp only [if_neg hmax, if_neg hmin] at hsome hend hneg
    obtain ⟨n, hn⟩ := Int.eq_ofNat_of_zero_le (not_lt.mp hneg)
    have hs := spells_of_scanNumeral (not_not.mp hend) hsome
    rw [hn] at hs hmax
    exact ⟨n, text, rfl, hs, by rw [← longMax_eq] at hmax; omega⟩

theorem parseValue_eq_true (w : Nat) (value : Option CString) :
    (parseValue w value).1 = true ↔ ∃ n, Written w value n := by
  constructor
  · exact written_of_parseValue
  · intro h
    obtain ⟨n, hn⟩ := h
    rw [parseValue_of_written hn]

/-! ## `Config::Init` -/

/-- Peaks are recorded exactly when a number is written in
`DUMP_PEAK_VALUE_MB`. -/
theorem init_recordMemoryPeak (w : Nat) (getenv : Environ) :
    (Config.init w getenv).has RECORD_MEMORY_PEAK = true ↔ ∃ n, Written w getenv.dumpPeakValueMb n := by
  rw [← parseValue_eq_true]
  simp only [Config.has, Config.init]
  cases (parseValue w getenv.dumpPeakValueMb).1 with
  | false => exact iff_of_false (by decide) (by decide)
  | true => exact iff_of_true (by decide) rfl

/-- The threshold is the number scaled to bytes in a word. -/
theorem init_backtraceDumpPeakVal {getenv : Environ} {n : ℕ} (h : Written w getenv.dumpPeakValueMb n) :
    (Config.init w getenv).backtraceDumpPeakVal.toNat = n * 2 ^ 20 % 2 ^ w := by
  simp only [Config.init, parseValue_of_written h]
  rw [show 1024 * 1024 = 2 ^ 20 from rfl, BitVec.toNat_mul, BitVec.toNat_ofNat, BitVec.toNat_ofNat, ← Nat.mul_mod]

/-! ## Snapshots -/

variable {cfg : Config w} {Tid : Type*} [DecidableEq Tid]

/-- The section that writes an entry goes on to a snapshot at a new peak above
the threshold, when peaks are recorded. -/
theorem Step.snapshotting_iff {s s' : Sections Tid w} {t : Tid} (h : Step cfg s t .insertPointer s') :
    (∃ walk, s'.threads t = .snapshotting walk) ↔ cfg.has RECORD_MEMORY_PEAK = true ∧
      s.data.peakTot < s'.data.peakTot ∧ cfg.backtraceDumpPeakVal < s'.data.peakTot := by
  cases h with
  | insertPointer hat hfree =>
    rename_i env ptr size type hashIndex
    simp only [Function.update_self]
    rcases insertPointer_cases cfg env.now ptr size hashIndex type s.data with ⟨hlt, hq⟩ | ⟨hge, hq⟩
    · rw [hq]
      dsimp only
      split
      · next hdue => simpa [hlt] using hdue
      · next hdue => simpa [hlt] using hdue
    · rw [hq]
      simp [recordPointer_peakTot]

/-- Without the option no thread takes a snapshot. -/
theorem Interleaved.no_snapshot {s s' : Sections Tid w} {t : Tid} (hs : Interleaved cfg s)
    (hlive : cfg.has RECORD_MEMORY_PEAK = false) : ¬ Step cfg s t .takeSnapshot s' := by
  intro h
  obtain ⟨walk, hat, -⟩ := h.of_takeSnapshot
  have hrec := hs.record_of_snapshotting t walk hat
  rw [hlive] at hrec
  cases hrec

/-! ## The threshold -/

/-- After `Config::Init` in this environment the peak threshold is the number
the user wrote: peaks are recorded if there is one, the threshold is that
number of megabytes in bytes, and it is what a new peak is compared with. -/
structure PeakThreshold (w : Nat) (getenv : Environ) : Prop where
  record : (Config.init w getenv).has RECORD_MEMORY_PEAK = true ↔ ∃ n, Written w getenv.dumpPeakValueMb n
  value : ∀ n, Written w getenv.dumpPeakValueMb n →
    (Config.init w getenv).backtraceDumpPeakVal.toNat = n * 2 ^ 20
  snapshot : ∀ n, Written w getenv.dumpPeakValueMb n →
    ∀ (Tid : Type) [DecidableEq Tid] (s s' : Sections Tid w) (t : Tid), Interleaved (Config.init w getenv) s →
      Step (Config.init w getenv) s t .insertPointer s' →
      ((∃ walk, s'.threads t = .snapshotting walk) ↔
        s.data.peakTot < s'.data.peakTot ∧ n * 2 ^ 20 < s'.data.peakTot.toNat)
  never : (¬ ∃ n, Written w getenv.dumpPeakValueMb n) →
    ∀ (Tid : Type) [DecidableEq Tid] (s s' : Sections Tid w) (t : Tid), Interleaved (Config.init w getenv) s →
      ¬ Step (Config.init w getenv) s t .takeSnapshot s'

/-- **The peak threshold.** It is the number the user wrote if and only if
that number of megabytes fits a `size_t`, or none was written. -/
theorem peak_threshold_iff (w : Nat) (getenv : Environ) :
    PeakThreshold w getenv ↔ ∀ n, Written w getenv.dumpPeakValueMb n → n * 2 ^ 20 < 2 ^ w := by
  constructor
  · intro h n hn
    rw [← h.value n hn]
    exact BitVec.isLt _
  · intro hfits
    have hvalue : ∀ n, Written w getenv.dumpPeakValueMb n →
        (Config.init w getenv).backtraceDumpPeakVal.toNat = n * 2 ^ 20 := by
      intro n hn
      rw [init_backtraceDumpPeakVal hn, Nat.mod_eq_of_lt (hfits n hn)]
    have hrecord := init_recordMemoryPeak w getenv
    refine ⟨hrecord, hvalue, fun n hn Tid _ s s' t _ h => ?_, fun hnone Tid _ s s' t hs => ?_⟩
    · rw [h.snapshotting_iff, BitVec.lt_def (x := (Config.init w getenv).backtraceDumpPeakVal), hvalue n hn]
      exact ⟨fun hd => hd.2, fun hd => ⟨hrecord.mpr ⟨n, hn⟩, hd⟩⟩
    · have hlive : (Config.init w getenv).has RECORD_MEMORY_PEAK = false := by
        rw [← Bool.not_eq_true, hrecord]
        exact hnone
      exact hs.no_snapshot hlive

/-- 2^44, the number of megabytes in 2^64 bytes. -/
def twoPow44 : CString := ['1', '7', '5', '9', '2', '1', '8', '6', '0', '4', '4', '4', '1', '6']

/-- 2^12, the number of megabytes in 2^32 bytes. -/
def twoPow12 : CString := ['4', '0', '9', '6']

/-- The number of megabytes in all of the address space is no threshold. -/
theorem wholeMemory_no_threshold :
    ¬ PeakThreshold 64 ⟨none, some twoPow44⟩ ∧ ¬ PeakThreshold 32 ⟨none, some twoPow12⟩ := by
  constructor
  · intro h
    have hw : Written 64 (some twoPow44) (2 ^ 44) :=
      ⟨twoPow44, rfl, ⟨[], [], twoPow44, rfl, by simp, .inl rfl, by decide, List.all_eq_true.mp rfl, by decide⟩,
        by decide⟩
    have := h.value _ hw
    have hlt := ((Config.init 64 ⟨none, some twoPow44⟩).backtraceDumpPeakVal).isLt
    omega
  · intro h
    have hw : Written 32 (some twoPow12) (2 ^ 12) :=
      ⟨twoPow12, rfl, ⟨[], [], twoPow12, rfl, by simp, .inl rfl, by decide, List.all_eq_true.mp rfl, by decide⟩,
        by decide⟩
    have := h.value _ hw
    have hlt := ((Config.init 32 ⟨none, some twoPow12⟩).backtraceDumpPeakVal).isLt
    omega

end AllocHook
