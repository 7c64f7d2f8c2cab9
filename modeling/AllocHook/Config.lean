/-
What the tool is configured with (`Config.h`, `Config.cpp`): the option bits,
the limits, and `Config::Init`, which reads two environment variables with
`ParseValue` over the C library's `strtol`.

Every run of the tool has a configuration `Config.init` made; the theorems
about what is tracked use nothing of it but `init_trackPointers`.
-/
import Mathlib.Data.BitVec

namespace AllocHook

/-- A `size_t` or `uintptr_t` on a target whose words have `w` bits. -/
abbrev Word (w : Nat) := BitVec w

/-- A C string, without its terminating zero. -/
abbrev CString := List Char

/-! ## Numbers in text -/

/-- `isspace` in the C locale: the blank, and tab to carriage return. -/
def isSpace (c : Char) : Bool := c.toNat == 32 || (9 ≤ c.toNat && c.toNat ≤ 13)

def isDigit (c : Char) : Bool := 48 ≤ c.toNat && c.toNat ≤ 57

/-- The value of a run of decimal digits. -/
def decimal (ds : CString) : Nat := ds.foldl (fun n c => 10 * n + (c.toNat - 48)) 0

/-- What `strtol` and `strtoull` recognise at the start of a string in base
10: white space, a sign, digits. `consumed` is `end - value`, 0 when there
is no digit. -/
structure Numeral where
  negative : Bool
  digits : CString
  consumed : Nat

def scanNumeral (s : CString) : Numeral :=
  let spaces := s.takeWhile isSpace
  let rest := s.dropWhile isSpace
  let (negative, sign, rest) :=
    match rest with
    | '-' :: r => (true, 1, r)
    | '+' :: r => (false, 1, r)
    | r => (false, 0, r)
  let digits := rest.takeWhile isDigit
  { negative, digits
    consumed := if digits.isEmpty then 0 else spaces.length + sign + digits.length }

/-- What `strtol` leaves behind: the value, whether it set `errno` to
`ERANGE`, and how many characters it consumed. -/
structure StrtolResult where
  value : Int
  erange : Bool
  consumed : Nat

/-- `strtol(s, &end, 10)` with a `w`-bit `long`: saturating at the ends of
the type, with `ERANGE`. -/
def strtol (w : Nat) (s : CString) : StrtolResult :=
  let n := scanNumeral s
  let value : Int := if n.negative then -(decimal n.digits : Int) else decimal n.digits
  let longMax : Int := 2 ^ (w - 1) - 1
  let longMin : Int := -2 ^ (w - 1)
  if longMax < value then { value := longMax, erange := true, consumed := n.consumed }
  else if value < longMin then { value := longMin, erange := true, consumed := n.consumed }
  else { value, erange := false, consumed := n.consumed }

/-- `strtoull(s, nullptr, 10)`: saturating at `ULLONG_MAX`, a minus sign
negating in the type. -/
def strtoull (s : CString) : BitVec 64 :=
  let n := scanNumeral s
  if 2 ^ 64 ≤ decimal n.digits then BitVec.allOnes 64
  else if n.negative then -BitVec.ofNat 64 (decimal n.digits)
  else BitVec.ofNat 64 (decimal n.digits)

/-! ## The options -/

def BACKTRACE : BitVec 64 := 0x1
def TRACK_ALLOCS : BitVec 64 := 0x2
def BACKTRACE_SPECIFIC_SIZES : BitVec 64 := 0x4
def RECORD_MEMORY_PEAK : BitVec 64 := 0x8
def DUMP_ON_SIGNAL : BitVec 64 := 0x80

structure Config (w : Nat) where
  backtraceDumpSignal : Int
  backtraceFrames : Word w
  backtraceDumpOnExit : Bool
  backtraceDumpPrefix : String
  backtraceMinSizeBytes : Word w
  backtraceMaxSizeBytes : Word w
  backtraceDumpPeakVal : Word w
  options : BitVec 64

/-- `options() & option`, read as a condition. -/
def Config.has {w : Nat} (cfg : Config w) (option : BitVec 64) : Bool := cfg.options &&& option != 0

/-- `DebugData::TrackPointers`. -/
def Config.trackPointers {w : Nat} (cfg : Config w) : Bool := cfg.has TRACK_ALLOCS

def DEFAULT_BACKTRACE_FRAMES : Nat := 128
def DEFAULT_BACKTRACE_DUMP_PREFIX : String := "/data/local/tmp/trace/backtrace_heap"
def BIONIC_SIGNAL_BACKTRACE : Int := 33

/-- `ParseValue`: whether the text is a number, and what is stored for it
(0 when it is not). -/
def parseValue (w : Nat) (value : Option CString) : Bool × Word w :=
  match value with
  | none => (false, 0)
  | some value =>
    let r := strtol w value
    if r.erange then (false, 0)
    else if r.consumed = 0 then (false, 0)
    else if r.consumed ≠ value.length then (false, 0)
    else if r.value < 0 then (false, 0)
    else (true, BitVec.ofInt w r.value)

/-- The environment variables the tool reads. -/
structure Environ where
  backtraceMinSize : Option CString
  dumpPeakValueMb : Option CString

/-- `Config::Init`. -/
def Config.init (w : Nat) (getenv : Environ) : Config w :=
  let minSize := (parseValue w getenv.backtraceMinSize).2
  let peak := parseValue w getenv.dumpPeakValueMb
  { backtraceDumpSignal := BIONIC_SIGNAL_BACKTRACE
    backtraceFrames := BitVec.ofNat w DEFAULT_BACKTRACE_FRAMES
    backtraceDumpOnExit := peak.1
    backtraceDumpPrefix := DEFAULT_BACKTRACE_DUMP_PREFIX
    -- With a peak value but no size filter of the user's, blocks under 1 KB are not traced.
    backtraceMinSizeBytes := if peak.1 && getenv.backtraceMinSize.isNone then 1024 else minSize
    backtraceMaxSizeBytes := BitVec.allOnes w
    backtraceDumpPeakVal := peak.2 * BitVec.ofNat w (1024 * 1024)
    options := BACKTRACE_SPECIFIC_SIZES ||| BACKTRACE ||| TRACK_ALLOCS |||
      (if peak.1 then RECORD_MEMORY_PEAK else 0) ||| DUMP_ON_SIGNAL }

/-- `Config::Init` always turns tracking on. -/
@[simp] theorem init_trackPointers (w : Nat) (getenv : Environ) :
    (Config.init w getenv).trackPointers = true := by
  simp only [Config.trackPointers, Config.has, Config.init]
  split <;> decide

/-- Stacks are captured under every configuration `Config::Init` makes. -/
@[simp] theorem init_backtrace (w : Nat) (getenv : Environ) :
    (Config.init w getenv).has BACKTRACE = true := by
  simp only [Config.has, Config.init]
  split <;> decide

example : (parseValue 64 (some ['5', '0', '0'])) = (true, 500) := by decide
example : (parseValue 64 (some ['5', '0', 'M'])).1 = false := by decide

end AllocHook
