/-
Memory, as the unwinder reads it (`Memory.h`): a memory is the bytes that can
be read, and `Read` gives the longest run of them from an address on, at most
as many as asked for. The `Read` of parts put together (`MemoryRanges`,
`MemoryOfflineParts`) is not of this kind: it stops where a part does.

The `Read` of a buffer and of a range are reads of such memories, and so is a
`ReadString`, block by block.
-/
import Mathlib.Data.List.TakeWhile
import Mathlib.Data.Nat.Digits.Defs

namespace AllocHook.Unwindstack

/-- What can be read: nothing beyond the addresses. -/
structure Memory where
  byte : ℕ → Option (BitVec 8)
  bounded : ∀ a, 2 ^ 64 ≤ a → byte a = none

variable {m : Memory} {a n : ℕ} {bytes bytes' : List (BitVec 8)}

def Memory.readFrom (m : Memory) : ℕ → ℕ → List (BitVec 8)
  | _, 0 => []
  | a, n + 1 =>
    match m.byte a with
    | none => []
    | some b => b :: m.readFrom (a + 1) n

/-- `Read`: what it writes to `dst`, as many bytes as it returns. -/
def Memory.read (m : Memory) (addr : BitVec 64) (size : ℕ) : List (BitVec 8) := m.readFrom addr.toNat size

def Memory.readFully (m : Memory) (addr : BitVec 64) (size : ℕ) : Option (List (BitVec 8)) :=
  let dst := m.read addr size
  if dst.length = size then some dst else none

/-- The value of a native integer with these bytes. -/
def littleEndian (bytes : List (BitVec 8)) : ℕ := Nat.ofDigits 256 (bytes.map BitVec.toNat)

/-! ## What is where -/

/-- The bytes can be read at `a`. -/
def Memory.Holds (m : Memory) (a : ℕ) (bytes : List (BitVec 8)) : Prop :=
  ∀ i (h : i < bytes.length), m.byte (a + i) = some bytes[i]

@[simp] theorem holds_nil : m.Holds a [] := fun _ h => absurd h (Nat.not_lt_zero _)

theorem holds_cons {b : BitVec 8} : m.Holds a (b :: bytes) ↔ m.byte a = some b ∧ m.Holds (a + 1) bytes := by
  constructor
  · intro h
    refine ⟨h 0 (Nat.succ_pos _), fun i hi => ?_⟩
    have hs := h (i + 1) (Nat.succ_lt_succ hi)
    rwa [List.getElem_cons_succ, ← Nat.add_assoc, Nat.add_right_comm] at hs
  · rintro ⟨h₀, hs⟩ i hi
    cases i with
    | zero => exact h₀
    | succ i =>
      rw [List.getElem_cons_succ, ← hs i (Nat.lt_of_succ_lt_succ hi)]
      congr 1
      omega

theorem holds_append : m.Holds a (bytes ++ bytes') ↔ m.Holds a bytes ∧ m.Holds (a + bytes.length) bytes' := by
  induction bytes generalizing a with
  | nil => simp
  | cons b bytes ih =>
    rw [List.cons_append, holds_cons, holds_cons, ih, and_assoc, List.length_cons, Nat.add_assoc,
      Nat.add_comm 1]

/-- What is read is there. -/
theorem Memory.Holds.lt (h : m.Holds a bytes) (hne : bytes ≠ []) : a + bytes.length ≤ 2 ^ 64 := by
  have hpos := List.length_pos_iff.mpr hne
  by_contra hlt
  have hlast := h (bytes.length - 1) (by omega)
  rw [m.bounded _ (by omega)] at hlast
  cases hlast

theorem length_readFrom_le (m : Memory) : ∀ a n, (m.readFrom a n).length ≤ n
  | _, 0 => Nat.le_refl 0
  | a, n + 1 => by
    rw [Memory.readFrom]
    split
    · exact Nat.zero_le _
    · exact Nat.succ_le_succ (length_readFrom_le m (a + 1) n)

theorem holds_readFrom (m : Memory) : ∀ a n, m.Holds a (m.readFrom a n)
  | _, 0 => holds_nil
  | a, n + 1 => by
    rw [Memory.readFrom]
    split
    · exact holds_nil
    · next b hb => exact holds_cons.mpr ⟨hb, holds_readFrom m (a + 1) n⟩

/-- What cannot be read ends a read. -/
theorem readFrom_stops : ∀ {a n}, (m.readFrom a n).length < n → m.byte (a + (m.readFrom a n).length) = none
  | _, 0, h => absurd h (Nat.not_lt_zero _)
  | a, n + 1, h => by
    rw [Memory.readFrom] at h ⊢
    cases hb : m.byte a with
    | none => simpa using hb
    | some b =>
      simp only [hb, List.length_cons] at h ⊢
      rw [← Nat.add_assoc, Nat.add_right_comm]
      exact readFrom_stops (Nat.lt_of_succ_lt_succ h)

theorem readFrom_of_holds : ∀ {a bytes}, m.Holds a bytes → m.readFrom a bytes.length = bytes
  | _, [], _ => rfl
  | a, b :: bytes, h => by
    rw [holds_cons] at h
    rw [List.length_cons, Memory.readFrom, h.1]
    exact congrArg (b :: ·) (readFrom_of_holds h.2)

theorem readFully_eq_some {addr : BitVec 64} :
    m.readFully addr n = some bytes ↔ bytes.length = n ∧ m.Holds addr.toNat bytes := by
  unfold Memory.readFully Memory.read
  dsimp only
  constructor
  · intro h
    split at h
    · next hn =>
      cases h
      exact ⟨hn, holds_readFrom m _ _⟩
    · cases h
  · rintro ⟨rfl, h⟩
    rw [readFrom_of_holds h, if_pos rfl]

theorem readFrom_eq_iff (m : Memory) (a n : ℕ) (bytes : List (BitVec 8)) :
    m.readFrom a n = bytes ↔
      bytes.length ≤ n ∧ m.Holds a bytes ∧ (bytes.length < n → m.byte (a + bytes.length) = none) := by
  constructor
  · rintro rfl
    exact ⟨length_readFrom_le m a n, holds_readFrom m a n, readFrom_stops⟩
  · rintro ⟨hlen, hb, hstop⟩
    induction n generalizing a bytes with
    | zero => rw [List.eq_nil_of_length_eq_zero (Nat.le_zero.mp hlen), Memory.readFrom]
    | succ n ih =>
      rw [Memory.readFrom]
      cases bytes with
      | nil => rw [show m.byte a = none from hstop (Nat.succ_pos n)]
      | cons b bytes =>
        rw [holds_cons] at hb
        rw [hb.1]
        refine congrArg (b :: ·) (ih _ _ (Nat.le_of_succ_le_succ hlen) hb.2 fun hlt => ?_)
        rw [Nat.add_assoc, Nat.add_comm 1]
        exact hstop (Nat.succ_lt_succ hlt)

/-! ## Buffers and ranges -/

/-- The bytes of a `MemoryBuffer`, or of a file from an offset on. -/
def Memory.buffer (raw : List (BitVec 8)) (h : raw.length ≤ 2 ^ 64) : Memory where
  byte := (raw[·]?)
  bounded _ ha := List.getElem?_eq_none (h.trans ha)

def bufferRead (raw : List (BitVec 8)) (addr : BitVec 64) (size : ℕ) : List (BitVec 8) :=
  if raw.length ≤ addr.toNat then []
  else (raw.drop addr.toNat).take (min (raw.length - addr.toNat) size)

theorem holds_buffer {raw : List (BitVec 8)} (h : raw.length ≤ 2 ^ 64) (a n : ℕ) :
    (Memory.buffer raw h).Holds a ((raw.drop a).take n) := by
  intro i hi
  rw [List.getElem_take, List.getElem_drop]
  exact List.getElem?_eq_getElem _

/-- `MemoryBuffer::Read` and `MemoryFileAtOffset::Read`. -/
theorem bufferRead_eq {raw : List (BitVec 8)} (h : raw.length ≤ 2 ^ 64) (addr : BitVec 64) (size : ℕ) :
    bufferRead raw addr size = (Memory.buffer raw h).read addr size := by
  symm
  rw [bufferRead, Memory.read, readFrom_eq_iff]
  split
  · next hout => exact ⟨Nat.zero_le _, holds_nil, fun _ => List.getElem?_eq_none hout⟩
  · have hlen : ((raw.drop addr.toNat).take (min (raw.length - addr.toNat) size)).length =
        min (raw.length - addr.toNat) size := by
      rw [List.length_take, List.length_drop]
      omega
    refine ⟨by omega, holds_buffer h _ _, fun hlt => List.getElem?_eq_none ?_⟩
    rw [hlen] at hlt ⊢
    omega

/-- The bytes of a `MemoryRange`. -/
def Memory.range (m : Memory) (begin length offset : BitVec 64) : Memory where
  byte a :=
    if offset.toNat ≤ a ∧ a - offset.toNat < length.toNat ∧ a < 2 ^ 64 then m.byte (a - offset.toNat + begin.toNat)
    else none
  bounded _ ha := if_neg fun h => absurd h.2.2 (Nat.not_lt.mpr ha)

def rangeRead (m : Memory) (begin length offset addr : BitVec 64) (size : ℕ) : List (BitVec 8) :=
  if addr < offset then []
  else
    let readOffset := addr - offset
    if length ≤ readOffset then []
    else
      let readLength := min size (length - readOffset).toNat
      if 2 ^ 64 ≤ readOffset.toNat + begin.toNat then [] else m.read (readOffset + begin) readLength

/-- `MemoryRange::Read`, where the range is one of addresses: it begins where
it likes in the memory beneath. -/
theorem rangeRead_eq (m : Memory) {begin length offset : BitVec 64} (h : offset.toNat + length.toNat ≤ 2 ^ 64)
    (addr : BitVec 64) (size : ℕ) :
    rangeRead m begin length offset addr size = (m.range begin length offset).read addr size := by
  symm
  rw [rangeRead, Memory.read, readFrom_eq_iff]
  split
  · next hlt => exact ⟨Nat.zero_le _, holds_nil, fun _ => if_neg fun h => absurd h.1 (Nat.not_le.mpr hlt)⟩
  next hlt =>
  have hle : offset.toNat ≤ addr.toNat := Nat.not_lt.mp hlt
  have hoff : (addr - offset).toNat = addr.toNat - offset.toNat := BitVec.toNat_sub_of_le hle
  dsimp only
  split
  · next hlen =>
    have hlen : length.toNat ≤ (addr - offset).toNat := hlen
    refine ⟨Nat.zero_le _, holds_nil, fun _ => if_neg fun h => ?_⟩
    have := h.2.1
    rw [List.length_nil] at this
    omega
  next hlen =>
  have hlen : (addr - offset).toNat < length.toNat := Nat.not_le.mp hlen
  have hleft : (length - (addr - offset)).toNat = length.toNat - (addr - offset).toNat :=
    BitVec.toNat_sub_of_le hlen.le
  split
  · next hov =>
    refine ⟨Nat.zero_le _, holds_nil, fun _ => ?_⟩
    show (if _ then _ else _) = _
    split
    · exact m.bounded _ (by rw [List.length_nil]; omega)
    · rfl
  next hov =>
  have hto : (addr - offset + begin).toNat = addr.toNat - offset.toNat + begin.toNat := by
    rw [BitVec.toNat_add, hoff, Nat.mod_eq_of_lt (by omega)]
  rw [Memory.read, hto, hleft, hoff]
  obtain ⟨hcount, hb, hstop⟩ := (readFrom_eq_iff m (addr.toNat - offset.toNat + begin.toNat)
    (min size (length.toNat - (addr.toNat - offset.toNat))) _).mp rfl
  generalize m.readFrom _ _ = bytes at hcount hb hstop ⊢
  refine ⟨by omega, fun i hi => ?_, fun hlt => ?_⟩
  · have hadd : addr.toNat + i - offset.toNat + begin.toNat = addr.toNat - offset.toNat + begin.toNat + i := by omega
    show (if _ then _ else _) = _
    rw [hadd, if_pos ⟨by omega, by omega, by omega⟩, hb i hi]
  · show (if _ then _ else _) = _
    split
    · next hin =>
      have hadd : addr.toNat + bytes.length - offset.toNat + begin.toNat =
          addr.toNat - offset.toNat + begin.toNat + bytes.length := by omega
      rw [hadd]
      exact hstop (by omega)
    · rfl

/-! ## Strings -/

/-- The loop of `ReadString`, from this offset on. -/
def Memory.readStringFrom (m : Memory) (addr : BitVec 64) (maxRead offset : ℕ) : Option (List (BitVec 8)) :=
  if offset < maxRead then
    let buffer := m.read (addr + BitVec.ofNat 64 offset) (min 256 (maxRead - offset))
    if buffer.length = 0 then none
    else
      let string := buffer.takeWhile (· ≠ 0)
      if string.length < buffer.length then
        if offset = 0 then some string else m.readFully addr (offset + string.length)
      else m.readStringFrom addr maxRead (offset + buffer.length)
  else none
termination_by maxRead - offset
decreasing_by
  show maxRead - (offset + buffer.length) < maxRead - offset
  omega

def Memory.readString (m : Memory) (addr : BitVec 64) (maxRead : ℕ) : Option (List (BitVec 8)) :=
  m.readStringFrom addr maxRead 0

theorem Memory.Holds.getElem_eq (h : m.Holds a bytes) (h' : m.Holds a bytes') {i : ℕ} (hi : i < bytes.length)
    (hi' : i < bytes'.length) : bytes[i] = bytes'[i] :=
  Option.some.inj ((h i hi).symm.trans (h' i hi'))

/-- Two strings at one address. -/
theorem holds_string_length {s bytes : List (BitVec 8)} (hs : m.Holds a (s ++ [0])) (hb : m.Holds a bytes)
    (h0 : 0 ∉ bytes) : bytes.length ≤ s.length := by
  by_contra hlt
  have hi : s.length < bytes.length := Nat.not_le.mp hlt
  have heq := hs.getElem_eq hb (i := s.length) (by simp) hi
  rw [List.getElem_append_right (Nat.le_refl _)] at heq
  simp only [Nat.sub_self, List.getElem_cons_zero] at heq
  exact h0 (heq ▸ List.getElem_mem hi)

theorem holds_string_unique {s s' : List (BitVec 8)} (hs : m.Holds a (s ++ [0])) (hs' : m.Holds a (s' ++ [0]))
    (h0 : 0 ∉ s) (h0' : 0 ∉ s') : s = s' := by
  have hb := (holds_append.mp hs).1
  have hb' := (holds_append.mp hs').1
  exact List.ext_getElem (Nat.le_antisymm (holds_string_length hs' hb h0) (holds_string_length hs hb' h0'))
    fun i hi hi' => hb.getElem_eq hb' hi hi'

/-- The part of a buffer up to its first zero. -/
theorem takeWhile_string {buffer : List (BitVec 8)}
    (h : (buffer.takeWhile (· ≠ 0)).length < buffer.length) :
    ∃ rest, buffer = buffer.takeWhile (· ≠ 0) ++ 0 :: rest := by
  have hsplit := List.takeWhile_append_dropWhile (p := (· ≠ (0 : BitVec 8))) (l := buffer)
  cases hd : buffer.dropWhile (· ≠ 0) with
  | nil =>
    rw [hd, List.append_nil] at hsplit
    exact absurd h (by rw [hsplit]; exact Nat.lt_irrefl _)
  | cons b rest =>
    have hb := List.head?_dropWhile_not (fun b : BitVec 8 => decide (b ≠ 0)) buffer
    rw [hd] at hb hsplit
    have hb0 : b = 0 := by simpa using hb
    rw [hb0] at hsplit
    exact ⟨rest, hsplit.symm⟩

/-- A string that ends within `maxRead` bytes. -/
def Memory.HoldsString (m : Memory) (a maxRead : ℕ) (s : List (BitVec 8)) : Prop :=
  0 ∉ s ∧ s.length < maxRead ∧ m.Holds a (s ++ [0])

theorem Memory.HoldsString.some_eq_iff {maxRead : ℕ} {t : List (BitVec 8)} (h : m.HoldsString a maxRead t)
    (s : List (BitVec 8)) : some t = some s ↔ m.HoldsString a maxRead s := by
  refine ⟨fun heq => Option.some.inj heq ▸ h, fun hs => congrArg some ?_⟩
  exact holds_string_unique h.2.2 hs.2.2 h.1 hs.1

/-- The bytes before the first zero of a block, after those of the blocks
before it. -/
theorem holdsString_append {maxRead : ℕ} {pre buffer : List (BitVec 8)} (hpre : m.Holds a pre) (h0 : 0 ∉ pre)
    (hb : m.Holds (a + pre.length) buffer) (hmax : pre.length + buffer.length ≤ maxRead)
    (hstr : (buffer.takeWhile (· ≠ 0)).length < buffer.length) :
    m.HoldsString a maxRead (pre ++ buffer.takeWhile (· ≠ 0)) := by
  obtain ⟨rest, hrest⟩ := takeWhile_string hstr
  refine ⟨?_, ?_, ?_⟩
  · rw [List.mem_append]
    rintro (h | h)
    · exact h0 h
    · simpa using List.mem_takeWhile_imp h
  · rw [List.length_append]
    omega
  · rw [List.append_assoc]
    refine holds_append.mpr ⟨hpre, ?_⟩
    rw [hrest, ← List.singleton_append, ← List.append_assoc] at hb
    exact (holds_append.mp hb).1

theorem readStringFrom_eq_some {addr : BitVec 64} {maxRead : ℕ} (h : addr.toNat + maxRead ≤ 2 ^ 64)
    {offset : ℕ} {pre : List (BitVec 8)} (hpre : m.Holds addr.toNat pre) (hlen : pre.length = offset) (h0 : 0 ∉ pre)
    (s : List (BitVec 8)) :
    m.readStringFrom addr maxRead offset = some s ↔ m.HoldsString addr.toNat maxRead s := by
  have hread {k n : ℕ} (hk : k < maxRead) : m.read (addr + BitVec.ofNat 64 k) n = m.readFrom (addr.toNat + k) n := by
    rw [Memory.read, BitVec.toNat_add, BitVec.toNat_ofNat, Nat.mod_eq_of_lt (a := k) (by omega),
      Nat.mod_eq_of_lt (by omega)]
  fun_induction Memory.readStringFrom m addr maxRead offset generalizing pre with
  | case1 offset hoff buffer =>
    rename_i hnil
    subst hlen
    refine ⟨nofun, fun ⟨_, _, hs⟩ => ?_⟩
    have hstop := readFrom_stops (m := m) (a := addr.toNat + pre.length) (n := min 256 (maxRead - pre.length))
    rw [← hread hoff, show (m.read _ _).length = 0 from hnil] at hstop
    have hbyte := hs pre.length (by simpa using Nat.lt_succ_of_le (holds_string_length hs hpre h0))
    rw [show m.byte (addr.toNat + pre.length) = none from hstop (by omega)] at hbyte
    cases hbyte
  | case2 hoff buffer hne string =>
    rename_i hstr
    obtain rfl := List.eq_nil_of_length_eq_zero hlen
    have hb : m.Holds (addr.toNat + 0) buffer := by
      rw [show buffer = m.readFrom (addr.toNat + 0) _ from hread hoff]
      exact holds_readFrom m _ _
    have hcount : buffer.length ≤ min 256 (maxRead - 0) := length_readFrom_le m _ _
    exact (holdsString_append hpre h0 hb (by rw [List.length_nil]; omega) hstr).some_eq_iff s
  | case3 offset hoff buffer hne string hstr =>
    subst hlen
    have hb : m.Holds (addr.toNat + pre.length) buffer := by
      rw [show buffer = m.readFrom (addr.toNat + pre.length) _ from hread hoff]
      exact holds_readFrom m _ _
    have hcount : buffer.length ≤ min 256 (maxRead - pre.length) := length_readFrom_le m _ _
    have hs : m.HoldsString addr.toNat maxRead _ := holdsString_append hpre h0 hb (by omega) hstr
    rw [← hs.some_eq_iff s, ← List.length_append, readFully_eq_some.mpr ⟨rfl, (holds_append.mp hs.2.2).1⟩]
  | case4 offset hoff buffer hne string hstr =>
    rename_i ih
    subst hlen
    have hb : m.Holds (addr.toNat + pre.length) buffer := by
      rw [show buffer = m.readFrom (addr.toNat + pre.length) _ from hread hoff]
      exact holds_readFrom m _ _
    have hall : string = buffer := (List.takeWhile_prefix _).eq_of_length_le (Nat.not_lt.mp hstr)
    refine ih (holds_append.mpr ⟨hpre, hb⟩) List.length_append fun hmem => ?_
    rcases List.mem_append.mp hmem with h | h
    · exact h0 h
    · rw [← hall] at h
      simpa using List.mem_takeWhile_imp h
  | case5 offset hoff =>
    refine ⟨nofun, fun ⟨_, hmax, hs⟩ => ?_⟩
    have := holds_string_length hs hpre h0
    omega

/-- **Strings**: in a memory whose `Read` gives the longest run, reading in
blocks of 256 gives the string that ends within `maxRead` bytes, and nothing
where there is none. -/
theorem readString_eq_some (m : Memory) {addr : BitVec 64} {maxRead : ℕ} (h : addr.toNat + maxRead ≤ 2 ^ 64)
    (s : List (BitVec 8)) : m.readString addr maxRead = some s ↔ m.HoldsString addr.toNat maxRead s :=
  readStringFrom_eq_some h holds_nil rfl List.not_mem_nil s

theorem readString_word : (Memory.buffer [0x61, 0x62, 0, 0x63] (by decide)).readString 0 4 = some [0x61, 0x62] :=
  (readString_eq_some _ (by decide) _).mpr ⟨by decide, by decide, holds_buffer (by decide) 0 3⟩

end AllocHook.Unwindstack
