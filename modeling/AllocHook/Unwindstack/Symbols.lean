/-
The symbols of a file (`Symbols.cpp`): the function of an address, searched by
halves in a table that is first taken to be sorted and then made so, and the
address of a global variable by its name.

What was read is cached by the end of its range, and a search is narrowed to
the gap of an address between what is cached, so what a lookup does depends on
all lookups before it. In a table that is `Proper` what it answers does not
(`call_run`). In another it may: a symbol without a size at the end of a
function is cached in its place, and the function is then not found.
-/
import AllocHook.Lib.EndMap
import AllocHook.Lib.Memo
import AllocHook.Lib.Search
import AllocHook.Lib.SortMerge
import AllocHook.Unwindstack.Memory
import Mathlib.Data.Prod.Lex

namespace AllocHook.Unwindstack

open EndMap Search

/-- The fields of a symbol that are used. -/
structure Sym (w : ℕ) where
  stName : BitVec 32
  stInfo : BitVec 8
  stShndx : BitVec 16
  stValue : BitVec w
  stSize : BitVec w
  deriving DecidableEq, Repr

/-- The size of `Elf32_Sym` or `Elf64_Sym`, and where its fields are. -/
structure SymType (w : ℕ) where
  sizeof : ℕ
  stInfo : ℕ
  stShndx : ℕ
  stValue : ℕ
  stSize : ℕ
  pos : 0 < sizeof
  small : sizeof ≤ 1024
  width : w ≤ 64

def elf32Sym : SymType 32 :=
  { sizeof := 16, stInfo := 12, stShndx := 14, stValue := 4, stSize := 8
    pos := by decide, small := by decide, width := by decide }

def elf64Sym : SymType 64 :=
  { sizeof := 24, stInfo := 4, stShndx := 6, stValue := 8, stSize := 16
    pos := by decide, small := by decide, width := by decide }

variable {w : ℕ}

def SymType.parse (t : SymType w) (bytes : List (BitVec 8)) : Sym w :=
  let field (off n : ℕ) : ℕ := littleEndian ((bytes.drop off).take n)
  { stName := BitVec.ofNat 32 (field 0 4)
    stInfo := BitVec.ofNat 8 (field t.stInfo 1)
    stShndx := BitVec.ofNat 16 (field t.stShndx 2)
    stValue := BitVec.ofNat w (field t.stValue (w / 8))
    stSize := BitVec.ofNat w (field t.stSize (w / 8)) }

def SHN_UNDEF : BitVec 16 := 0
def STT_OBJECT : BitVec 8 := 1
def STT_FUNC : BitVec 8 := 2
def STB_GLOBAL : BitVec 8 := 1

def Sym.isFunc (sym : Sym w) : Bool := decide (sym.stShndx ≠ SHN_UNDEF ∧ sym.stInfo &&& 0xf = STT_FUNC)

def Sym.isGlobal (sym : Sym w) : Bool :=
  decide (sym.stShndx ≠ SHN_UNDEF ∧ sym.stInfo &&& 0xf = STT_OBJECT ∧ sym.stInfo >>> 4 = STB_GLOBAL)

/-- `st_value + st_size`, in the width of the two. -/
def Sym.stop (sym : Sym w) : ℕ := (sym.stValue + sym.stSize).toNat

/-- On which side of a symbol an address is; in it, the end and the offset. -/
def Sym.probe (sym : Sym w) (addr : BitVec 64) : Probe (ℕ × BitVec 64) :=
  if addr.toNat < sym.stValue.toNat then .before
  else if addr.toNat < sym.stop then .found (sym.stop, addr - sym.stValue.setWidth 64)
  else .after

/-- A symbol table, and the memory of the file. -/
structure Symbols (w : ℕ) where
  elfMemory : Memory
  symType : SymType w
  offset : BitVec 64
  size : BitVec 64
  entrySize : BitVec 64
  strOffset : BitVec 64
  strSize : BitVec 64

structure SymInfo where
  size : ℕ
  index : ℕ
  name : Option (List (BitVec 8))
  deriving DecidableEq, Repr

structure SymCaches where
  symbols : Map ℕ SymInfo
  remap : Option (List ℕ)
  globalVariables : List (BitVec 8) → Option (Option (BitVec 64))

def SymCaches.empty : SymCaches := { symbols := Map.empty, remap := none, globalVariables := fun _ => none }

/-- A computation that may give a null pointer, or `false`. -/
abbrev SymM (α : Type) := Through Unit SymCaches α

namespace Symbols

variable (c : Symbols w)

def count : ℕ := if c.entrySize ≠ 0 then c.size.toNat / c.entrySize.toNat else 0

def strEnd : BitVec 64 := c.strOffset + c.strSize

def readSym (index : ℕ) : Except Unit (Sym w) :=
  match c.elfMemory.readFully (c.offset + BitVec.ofNat 64 index * c.entrySize) c.symType.sizeof with
  | none => .error ()
  | some bytes => .ok (c.symType.parse bytes)

end Symbols

/-- The index of a symbol in the table; there is none past the end of `remap_`. -/
def symbolIndex : Option (List ℕ) → ℕ → Option ℕ
  | none, current => some current
  | some remap, current => remap[current]?

namespace Symbols

variable (c : Symbols w)

def probe (remap : Option (List ℕ)) (addr : BitVec 64) (current : ℕ) : SymM (Probe (ℕ × BitVec 64)) := do
  match symbolIndex remap current with
  | none => Through.diverge
  | some index => do
    let sym ← Through.ofResult (c.readSym index)
    let info : SymInfo := { size := sym.stSize.toNat % 2 ^ 32, index := current, name := none }
    modify fun s => { s with symbols := (s.symbols.emplace sym.stop info).2 }
    return sym.probe addr

/-- `first + (last - first) / 2`. -/
def middle (first last : ℕ) : ℕ := first + (last - first) / 2

/-- The offset of an address in a cached symbol, if it is not before it. -/
def cachedOffset (addr : BitVec 64) (e : ℕ × SymInfo) : Option (BitVec 64) :=
  let symValue := BitVec.ofNat 64 e.1 - BitVec.ofNat 64 e.2.size
  if symValue ≤ addr then some (addr - symValue) else none

/-- The key in `symbols_` of what is found, and the offset in it. -/
def binarySearch (remap : Option (List ℕ)) (addr : BitVec 64) : SymM (ℕ × BitVec 64) := do
  let symbols := (← get).symbols
  let it := symbols.upperBound addr.toNat
  match it.bind fun e => (cachedOffset addr e).map (e.1, ·) with
  | some found => return found
  | none => do
    let count := (remap.elim c.count List.length) % 2 ^ 32
    let last := it.elim count (·.2.index)
    let first := (symbols.below addr.toNat).elim 0 (·.2.index + 1)
    match ← Search.loop middle (c.probe remap addr) (last - first + 1) first last with
    | .inl found => return found
    | .inr _ => throw ()

/-- The symbols of a block, from an offset on. -/
def blockSyms (buffer : List (BitVec 8)) : ℕ → ℕ → List (Sym w)
  | 0, _ => []
  | fuel + 1, offset =>
    if offset + c.symType.sizeof ≤ buffer.length then
      c.symType.parse ((buffer.drop offset).take c.symType.sizeof) ::
        blockSyms buffer fuel (offset + c.entrySize.toNat)
    else []

/-- The symbols from an index on, in blocks of at most 1024 bytes. -/
def readSyms : ℕ → ℕ → List (Sym w)
  | 0, _ => []
  | fuel + 1, symbolIdx =>
    if symbolIdx < c.count then
      let read := min 1024 ((c.count - symbolIdx) * c.entrySize.toNat)
      let buffer := c.elfMemory.read (c.offset + BitVec.ofNat 64 symbolIdx * c.entrySize) read
      -- Stop processing, something looks like it is corrupted.
      if buffer.length < c.symType.sizeof then []
      else
        let syms := c.blockSyms buffer buffer.length 0
        syms ++ readSyms fuel (symbolIdx + syms.length)
    else []

/-- `addrs`: the address of each symbol that was read. -/
def addrOf (syms : List (Sym w)) (i : ℕ) : ℕ := (syms[i]?.map fun sym => sym.stValue.toNat).getD 0

def comp (addrs : ℕ → ℕ) (a b : ℕ) : Bool := decide (addrs a < addrs b ∨ addrs a = addrs b ∧ a < b)

def functionIndices (syms : List (Sym w)) : List ℕ :=
  (syms.zipIdx.filter fun x => x.1.isFunc).map fun x => x.2 % 2 ^ 32

def sortedIndices (syms : List (Sym w)) : List ℕ := SortMerge.sortBy (comp (addrOf syms)) (functionIndices syms)

/-- The indices of functions by their addresses, without duplicates. -/
def remapTable (syms : List (Sym w)) : List ℕ :=
  SortMerge.mergeRuns (fun a b => decide (addrOf syms a = addrOf syms b)) id (sortedIndices syms)

def buildRemapTable : List ℕ := remapTable (c.readSyms c.count 0)

/-- What `GetName` searches, and how: in a table made sorted once the search
of the table as it is fails. -/
def find (addr : BitVec 64) : SymM (ℕ × BitVec 64) := do
  match (← get).remap with
  | some remap => c.binarySearch (some remap) addr
  | none => do
    match ← Through.attempt (c.binarySearch none addr) with
    | .ok found => return found
    | .error _ => do
      let remap := c.buildRemapTable
      modify fun s => { s with symbols := Map.empty, remap := some remap }
      c.binarySearch (some remap) addr

def readName (sym : Sym w) : Except Unit (List (BitVec 8)) :=
  let str := c.strOffset + sym.stName.setWidth 64
  if 2 ^ 64 ≤ c.strOffset.toNat + sym.stName.toNat ∨ c.strEnd ≤ str then .error ()
  else if sym.isFunc then
    match c.elfMemory.readString str (c.strEnd - str).toNat with
    | none => .error ()
    | some name => .ok name
  else .error ()

/-- The name of the function of an address, and the offset in it. -/
def getName (addr : BitVec 64) : SymM (List (BitVec 8) × BitVec 64) := do
  let found ← c.find addr
  let s ← get
  match s.symbols.valueOf found.1 with
  | none => Through.diverge
  | some info =>
    match info.name with
    | some name => return (name, found.2)
    | none =>
      match symbolIndex s.remap info.index with
      | none => Through.diverge
      | some index => do
        let sym ← Through.ofResult (c.readSym index)
        let name ← Through.ofResult (c.readName sym)
        modify fun s => { s with symbols := s.symbols.insert found.1 { info with name := some name } }
        return (name, found.2)

/-- Whether a symbol is the global variable of a name. -/
def isNamed (sym : Sym w) (name : List (BitVec 8)) : Bool :=
  let strOffset := c.strOffset + sym.stName.setWidth 64
  sym.isGlobal && (decide (strOffset < c.strEnd) &&
    decide (c.elfMemory.readString strOffset (c.strEnd - strOffset).toNat = some name))

/-- The scan of all symbols; its index wraps around. -/
def scanGlobal (name : List (BitVec 8)) : ℕ → ℕ → Option (Except Unit (Option (BitVec 64)))
  | 0, _ => none
  | fuel + 1, i =>
    if i < c.count then
      match c.readSym i with
      | .error e => some (.error e)
      | .ok entry =>
        if c.isNamed entry name then some (.ok (some (entry.stValue.setWidth 64)))
        else scanGlobal name fuel ((i + 1) % 2 ^ 32)
    else some (.ok none)

def getGlobal (fuel : ℕ) (name : List (BitVec 8)) : SymM (BitVec 64) := do
  let found ← Through.lookup (fun s => s.globalVariables)
    (fun s name v => { s with globalVariables := Function.update s.globalVariables name (some v) })
    (fun name => Through.ofRun (c.scanGlobal name fuel 0)) name
  match found with
  | some address => return address
  | none => throw ()

def clearCache : SymM Unit := modify fun s => { s with symbols := Map.empty, remap := none }

end Symbols

/-! ## What is read -/

theorem Memory.Holds.slice {m : Memory} {a : ℕ} {bytes : List (BitVec 8)} (h : m.Holds a bytes) (k n : ℕ) :
    m.Holds (a + k) ((bytes.drop k).take n) := by
  intro i hi
  rw [List.getElem_take, List.getElem_drop, Nat.add_assoc]
  rw [List.length_take, List.length_drop] at hi
  exact h (k + i) (by omega)

theorem slice_readFrom {m : Memory} {a n k l : ℕ} (h : k + l ≤ (m.readFrom a n).length) :
    ((m.readFrom a n).drop k).take l = m.readFrom (a + k) l := by
  have hslice := readFrom_of_holds ((holds_readFrom m a n).slice k l)
  rw [List.length_take, List.length_drop, Nat.min_eq_left (by omega)] at hslice
  exact hslice.symm

/-- The address is in the range of the symbol. -/
def Sym.Holds (sym : Sym w) (addr : BitVec 64) : Prop :=
  sym.stValue.toNat ≤ addr.toNat ∧ addr.toNat < sym.stop

namespace Symbols

/-- The symbol of an index, as memory has it. -/
def sym (c : Symbols w) (i : ℕ) : Sym w :=
  c.symType.parse (c.elfMemory.readFrom (c.offset.toNat + i * c.entrySize.toNat) c.symType.sizeof)

/-- The table is there, and has an index for each of its symbols. -/
structure Readable (c : Symbols w) : Prop where
  bytes : ∃ raw : List (BitVec 8), raw.length = c.count * c.entrySize.toNat ∧ c.elfMemory.Holds c.offset.toNat raw
  wide : c.symType.sizeof ≤ c.entrySize.toNat
  small : c.count < 2 ^ 32

variable {c : Symbols w}

/-- The symbols of a block that was read are some of the table. -/
theorem blockSyms_eq (c : Symbols w) (idx n : ℕ) (hn : n ≤ (c.count - idx) * c.entrySize.toNat) :
    let buffer := c.elfMemory.readFrom (c.offset.toNat + idx * c.entrySize.toNat) n
    ∀ fuel j, ∃ k, c.blockSyms buffer fuel (j * c.entrySize.toNat) = (List.range' (idx + j) k).map c.sym ∧
      (0 < k → idx + j + k ≤ c.count) ∧
      (0 < fuel → j * c.entrySize.toNat + c.symType.sizeof ≤ buffer.length → 0 < k)
  | 0, _ => ⟨0, rfl, nofun, nofun⟩
  | fuel + 1, j => by
    rw [blockSyms]
    split
    · next hle =>
      have hlen := length_readFrom_le c.elfMemory (c.offset.toNat + idx * c.entrySize.toNat) n
      have hj : j < c.count - idx := by
        have hpos := c.symType.pos
        exact Nat.lt_of_mul_lt_mul_right (a := c.entrySize.toNat) (by omega)
      obtain ⟨k, hk, hbound, -⟩ := blockSyms_eq c idx n hn fuel (j + 1)
      refine ⟨k + 1, ?_, fun _ => ?_, fun _ _ => Nat.succ_pos k⟩
      · rw [Nat.succ_mul] at hk
        rw [slice_readFrom hle, hk, List.range'_succ, List.map_cons, sym, Nat.add_mul, Nat.add_assoc]
        rfl
      · rcases Nat.eq_zero_or_pos k with rfl | hpos
        · omega
        · have := hbound hpos
          omega
    · next hle => exact ⟨0, rfl, nofun, fun _ hle' => absurd hle' hle⟩

section Read

variable (h : Readable c)
include h

theorem Readable.toNat_addr {i : ℕ} (hi : i < c.count) :
    (c.offset + BitVec.ofNat 64 i * c.entrySize).toNat = c.offset.toNat + i * c.entrySize.toNat := by
  obtain ⟨raw, hlen, hraw⟩ := h.bytes
  have hpos : 0 < c.entrySize.toNat := c.symType.pos.trans_le h.wide
  have hmul : (i + 1) * c.entrySize.toNat ≤ c.count * c.entrySize.toNat := Nat.mul_le_mul_right _ hi
  rw [Nat.succ_mul] at hmul
  have hle := hraw.lt (List.length_pos_iff.mp (by omega))
  have hsmall := h.small
  rw [BitVec.toNat_add, BitVec.toNat_mul, BitVec.toNat_ofNat, Nat.mod_eq_of_lt (a := i) (by omega),
    Nat.mod_eq_of_lt (a := i * _) (by omega), Nat.mod_eq_of_lt (by omega)]

theorem Readable.length_readFrom {i n : ℕ} (hn : i * c.entrySize.toNat + n ≤ c.count * c.entrySize.toNat) :
    (c.elfMemory.readFrom (c.offset.toNat + i * c.entrySize.toNat) n).length = n := by
  obtain ⟨raw, hlen, hraw⟩ := h.bytes
  have hslice := hraw.slice (i * c.entrySize.toNat) n
  have hlength : ((raw.drop (i * c.entrySize.toNat)).take n).length = n := by
    rw [List.length_take, List.length_drop]
    omega
  have hread := readFrom_of_holds hslice
  rw [hlength] at hread
  rw [hread, hlength]

theorem Readable.readSym_eq {i : ℕ} (hi : i < c.count) : c.readSym i = .ok (c.sym i) := by
  have hmul : (i + 1) * c.entrySize.toNat ≤ c.count * c.entrySize.toNat := Nat.mul_le_mul_right _ hi
  rw [Nat.succ_mul] at hmul
  have hwide := h.wide
  have hread := h.length_readFrom (i := i) (n := c.symType.sizeof) (by omega)
  rw [readSym, Memory.readFully, Memory.read, h.toNat_addr hi]
  rw [if_pos hread]
  rfl

theorem Readable.readSyms_eq : ∀ fuel idx : ℕ, c.count - idx ≤ fuel →
    c.readSyms fuel idx = (List.range' idx (c.count - idx)).map c.sym
  | 0, idx, hfuel => by rw [Nat.le_zero.mp hfuel]; rfl
  | fuel + 1, idx, hfuel => by
    rw [readSyms]
    split
    · next hidx =>
      have hwide := h.wide
      have hpos := c.symType.pos
      have hsmall := c.symType.small
      have hone : c.entrySize.toNat ≤ (c.count - idx) * c.entrySize.toNat :=
        Nat.le_mul_of_pos_left _ (by omega)
      have hsplit : idx * c.entrySize.toNat + (c.count - idx) * c.entrySize.toNat = c.count * c.entrySize.toNat := by
        rw [← Nat.add_mul]
        congr 1
        omega
      generalize hn : min 1024 ((c.count - idx) * c.entrySize.toNat) = n
      have hlen := h.length_readFrom (i := idx) (n := n) (by omega)
      have hread : c.elfMemory.read (c.offset + BitVec.ofNat 64 idx * c.entrySize) n =
          c.elfMemory.readFrom (c.offset.toNat + idx * c.entrySize.toNat) n := by
        rw [Memory.read, h.toNat_addr hidx]
      dsimp only
      rw [hread, hlen, if_neg (by omega)]
      obtain ⟨k, hk, hbound, hsome⟩ := blockSyms_eq c idx n (by omega) n 0
      rw [Nat.zero_mul, Nat.add_zero] at hk
      rw [Nat.add_zero] at hbound
      have hk0 : 0 < k := hsome (by omega) (by omega)
      have hle := hbound hk0
      rw [hk, List.length_map, List.length_range', Readable.readSyms_eq fuel (idx + k) (by omega), ← List.map_append,
        List.range'_append_1, show k + (c.count - (idx + k)) = c.count - idx by omega]
    · next hidx => rw [Nat.sub_eq_zero_of_le (Nat.not_lt.mp hidx)]; rfl

end Read

/-! ## The table made sorted -/

/-- What is asked of a table: ranges of less than 4 GiB that do not wrap, one
range for each end, and functions that have their range to themselves. -/
structure Proper (c : Symbols w) : Prop extends Readable c where
  exact : ∀ i < c.count, (c.sym i).stop = (c.sym i).stValue.toNat + (c.sym i).stSize.toNat
  short : ∀ i < c.count, (c.sym i).stSize.toNat < 2 ^ 32
  ends : ∀ i < c.count, ∀ j < c.count, (c.sym i).stop = (c.sym j).stop → (c.sym i).stValue = (c.sym j).stValue
  same : ∀ i < c.count, ∀ j < c.count, (c.sym i).isFunc = true → (c.sym j).isFunc = true →
    (c.sym i).stValue = (c.sym j).stValue → (c.sym i).stop = (c.sym j).stop
  apart : ∀ i < c.count, ∀ j < c.count, (c.sym i).isFunc = true → (c.sym j).isFunc = true →
    (c.sym i).stValue < (c.sym j).stValue → (c.sym i).stop ≤ (c.sym j).stValue.toNat
  others : ∀ i < c.count, ∀ j < c.count, (c.sym i).isFunc = true → (c.sym j).isFunc = false →
    ∀ addr, (c.sym i).Holds addr → ¬ (c.sym j).Holds addr

section Remap

variable {syms : List (Sym w)}

theorem ranked_comp (addrs : ℕ → ℕ) : SortMerge.Ranked (comp addrs) fun a => toLex (addrs a, a) := by
  intro a b
  rw [comp, decide_eq_true_eq, Prod.Lex.toLex_lt_toLex]

theorem byKey_addrOf (syms : List (Sym w)) :
    SortMerge.ByKey (fun a b => decide (addrOf syms a = addrOf syms b)) id (addrOf syms) :=
  ⟨fun _ _ => decide_eq_true_iff, fun _ => rfl⟩

theorem mem_functionIndices (hsmall : syms.length < 2 ^ 32) {i : ℕ} :
    i ∈ functionIndices syms ↔ ∃ sym, syms[i]? = some sym ∧ sym.isFunc = true := by
  have hmod {x : Sym w × ℕ} (hx : x ∈ syms.zipIdx) : x.2 % 2 ^ 32 = x.2 :=
    Nat.mod_eq_of_lt ((List.snd_lt_of_mem_zipIdx hx).trans (by omega))
  rw [functionIndices, List.mem_map]
  constructor
  · rintro ⟨x, hx, rfl⟩
    obtain ⟨hmem, hfunc⟩ := List.mem_filter.mp hx
    rw [hmod hmem]
    exact ⟨x.1, List.mem_zipIdx_iff_getElem?.mp hmem, hfunc⟩
  · rintro ⟨sym, hsym, hfunc⟩
    have hmem : (sym, i) ∈ syms.zipIdx := List.mem_zipIdx_iff_getElem?.mpr hsym
    exact ⟨(sym, i), List.mem_filter.mpr ⟨hmem, hfunc⟩, hmod hmem⟩

theorem remapTable_sublist (syms : List (Sym w)) : (remapTable syms).Sublist (sortedIndices syms) := by
  have hsub : ((remapTable syms).map id).Sublist ((sortedIndices syms).map id) :=
    SortMerge.mergeRuns_sublist (fun _ => rfl) _
  rwa [List.map_id, List.map_id] at hsub

theorem mem_remapTable (hsmall : syms.length < 2 ^ 32) {i : ℕ} (h : i ∈ remapTable syms) :
    ∃ sym, syms[i]? = some sym ∧ sym.isFunc = true :=
  (mem_functionIndices hsmall).mp (SortMerge.mem_sortBy.mp ((remapTable_sublist syms).subset h))

/-- A function has its address in the table, if by another function. -/
theorem exists_mem_remapTable (hsmall : syms.length < 2 ^ 32) {i : ℕ} {sym : Sym w} (hsym : syms[i]? = some sym)
    (hfunc : sym.isFunc = true) : ∃ j ∈ remapTable syms, addrOf syms j = addrOf syms i := by
  have hmem : i ∈ sortedIndices syms := SortMerge.mem_sortBy.mpr ((mem_functionIndices hsmall).mpr ⟨sym, hsym, hfunc⟩)
  have hkey := (SortMerge.mem_keys_mergeRuns (byKey_addrOf syms) _).mpr (List.mem_map_of_mem hmem)
  exact List.mem_map.mp hkey

theorem remapTable_pairwise (syms : List (Sym w)) :
    (remapTable syms).Pairwise fun i j => addrOf syms i < addrOf syms j := by
  have hsorted : (sortedIndices syms).Pairwise fun i j => addrOf syms i ≤ addrOf syms j :=
    (SortMerge.sortBy_pairwise (ranked_comp _) _).imp fun {i j} hle => Prod.Lex.monotone_fst _ _ hle
  have hgrouped : SortMerge.Grouped (addrOf syms) (sortedIndices syms) := by
    intro a b c hsub heq
    have hpair := hsorted.sublist hsub
    simp only [List.pairwise_cons, List.mem_cons, List.not_mem_nil, or_false, forall_eq_or_imp, forall_eq] at hpair
    omega
  have hnodup : ((remapTable syms).map (addrOf syms)).Nodup :=
    (SortMerge.mergeRuns_nodup (byKey_addrOf syms) _).mpr hgrouped
  refine ((hsorted.sublist (remapTable_sublist syms)).and (List.pairwise_map.mp hnodup)).imp ?_
  exact fun hlt => lt_of_le_of_ne hlt.1 hlt.2

end Remap

/-- The indices that are searched, in the order of the search. -/
def indices (c : Symbols w) (remap : Option (List ℕ)) : List ℕ := remap.elim (List.range c.count) id

/-- The table as it is, or made sorted. -/
def IsRemap (c : Symbols w) (remap : Option (List ℕ)) : Prop := remap = none ∨ remap = some c.buildRemapTable

variable {remap : Option (List ℕ)} {addr : BitVec 64}

theorem getElem?_syms {i : ℕ} {sym : Sym w} (hsym : ((List.range c.count).map c.sym)[i]? = some sym) :
    i < c.count ∧ sym = c.sym i := by
  rw [List.getElem?_map, Option.map_eq_some_iff] at hsym
  obtain ⟨j, hj, rfl⟩ := hsym
  obtain ⟨hi, rfl⟩ := List.getElem?_eq_some_iff.mp hj
  rw [List.length_range] at hi
  exact ⟨hi, by rw [List.getElem_range]⟩

theorem addrOf_eq {i : ℕ} (hi : i < c.count) :
    addrOf ((List.range c.count).map c.sym) i = (c.sym i).stValue.toNat := by
  rw [addrOf, List.getElem?_map, List.getElem?_range hi]
  rfl

section Indices

variable (h : Readable c)
include h

theorem Readable.syms_eq : c.readSyms c.count 0 = (List.range c.count).map c.sym := by
  rw [h.readSyms_eq c.count 0 (Nat.sub_le _ _), Nat.sub_zero, List.range_eq_range']

theorem Readable.mem_buildRemapTable {i : ℕ} (hi : i ∈ c.buildRemapTable) : i < c.count ∧ (c.sym i).isFunc = true := by
  rw [buildRemapTable, h.syms_eq] at hi
  obtain ⟨sym, hsym, hfunc⟩ := mem_remapTable (by rw [List.length_map, List.length_range]; exact h.small) hi
  obtain ⟨hlt, rfl⟩ := getElem?_syms hsym
  exact ⟨hlt, hfunc⟩

theorem Readable.exists_mem_buildRemapTable {i : ℕ} (hi : i < c.count) (hfunc : (c.sym i).isFunc = true) :
    ∃ j ∈ c.buildRemapTable, (c.sym j).stValue = (c.sym i).stValue := by
  have hsym : ((List.range c.count).map c.sym)[i]? = some (c.sym i) := by
    rw [List.getElem?_map, List.getElem?_range hi]
    rfl
  obtain ⟨j, hj, haddr⟩ := exists_mem_remapTable (by rw [List.length_map, List.length_range]; exact h.small) hsym hfunc
  rw [← h.syms_eq] at hj
  rw [addrOf_eq (h.mem_buildRemapTable hj).1, addrOf_eq hi] at haddr
  exact ⟨j, hj, BitVec.eq_of_toNat_eq haddr⟩

theorem Readable.buildRemapTable_pairwise :
    c.buildRemapTable.Pairwise fun i j => (c.sym i).stValue < (c.sym j).stValue := by
  have hpair := remapTable_pairwise (c.readSyms c.count 0)
  refine hpair.imp_of_mem fun {i j} hi hj hlt => BitVec.lt_def.mpr ?_
  rwa [h.syms_eq, addrOf_eq (h.mem_buildRemapTable hi).1, addrOf_eq (h.mem_buildRemapTable hj).1] at hlt

theorem Readable.lt_of_mem_indices (hr : c.IsRemap remap) {i : ℕ} (hi : i ∈ c.indices remap) : i < c.count := by
  rcases hr with rfl | rfl
  · exact List.mem_range.mp hi
  · exact (h.mem_buildRemapTable hi).1

theorem Readable.length_indices (hr : c.IsRemap remap) :
    (remap.elim c.count List.length) % 2 ^ 32 = (c.indices remap).length := by
  have hsmall := h.small
  rcases hr with rfl | rfl
  · rw [indices, Option.elim_none, Option.elim_none, List.length_range, Nat.mod_eq_of_lt hsmall]
  · have hle : c.buildRemapTable.length ≤ c.count := by
      have hnodup : c.buildRemapTable.Nodup := h.buildRemapTable_pairwise.imp fun hlt heq => by
        subst heq
        exact absurd hlt (BitVec.lt_irrefl _)
      have hsub : c.buildRemapTable ⊆ List.range c.count := fun i hi =>
        List.mem_range.mpr (h.mem_buildRemapTable hi).1
      exact (hnodup.length_le_of_subset hsub).trans_eq List.length_range
    exact Nat.mod_eq_of_lt (hle.trans_lt hsmall)

omit h in
theorem symbolIndex_eq {i : ℕ} (hi : i < (c.indices remap).length) :
    symbolIndex remap i = some (c.indices remap)[i] := by
  cases remap with
  | none => simp [symbolIndex, indices]
  | some remap => exact List.getElem?_eq_getElem hi

end Indices

/-! ## What is cached -/

/-- What is cached with an end says which symbol has it. -/
structure InfoOf (c : Symbols w) (remap : Option (List ℕ)) (e : ℕ × SymInfo) (i : ℕ) : Prop where
  index : (c.indices remap)[e.2.index]? = some i
  stop : e.1 = (c.sym i).stop
  size : e.2.size = (c.sym i).stSize.toNat
  name : ∀ name, e.2.name = some name → c.readName (c.sym i) = .ok name

/-- The global variable of a name: the first. -/
def globalOf (c : Symbols w) (name : List (BitVec 8)) : Option (BitVec 64) :=
  ((List.range c.count).find? fun i => c.isNamed (c.sym i) name).map fun i => (c.sym i).stValue.setWidth 64

/-- The caches, where this is searched. -/
structure Cached (c : Symbols w) (remap : Option (List ℕ)) (s : SymCaches) : Prop where
  searched : s.remap = remap
  symbols : ∀ e ∈ s.symbols.entries, ∃ i, c.InfoOf remap e i
  globals : Memo.Agrees (fun name => some (c.globalOf name)) s.globalVariables

/-- What is probed at an index. -/
def probeAt (c : Symbols w) (remap : Option (List ℕ)) (addr : BitVec 64) (i : ℕ) : Probe (ℕ × BitVec 64) :=
  ((c.indices remap)[i]?.map fun index => (c.sym index).probe addr).getD .before

theorem probeAt_eq {i : ℕ} (hi : i < (c.indices remap).length) :
    c.probeAt remap addr i = (c.sym (c.indices remap)[i]).probe addr := by
  rw [probeAt, List.getElem?_eq_getElem hi]
  rfl

theorem probe_eq_before {sym : Sym w} : sym.probe addr = .before ↔ addr.toNat < sym.stValue.toNat := by
  rw [Sym.probe]
  split
  · next hlt => exact ⟨fun _ => hlt, fun _ => rfl⟩
  · next hlt => split <;> exact ⟨nofun, fun h => absurd h hlt⟩

theorem probe_eq_after {sym : Sym w} :
    sym.probe addr = .after ↔ sym.stValue.toNat ≤ addr.toNat ∧ sym.stop ≤ addr.toNat := by
  rw [Sym.probe]
  split
  · next hlt => exact ⟨nofun, fun h => absurd h.1 (Nat.not_le.mpr hlt)⟩
  · next hle =>
    split
    · next hlt => exact ⟨nofun, fun h => absurd h.2 (Nat.not_le.mpr hlt)⟩
    · next hge => exact ⟨fun _ => ⟨Nat.not_lt.mp hle, Nat.not_lt.mp hge⟩, fun _ => rfl⟩

theorem probe_eq_found {sym : Sym w} {found : ℕ × BitVec 64} :
    sym.probe addr = .found found ↔ sym.Holds addr ∧ found = (sym.stop, addr - sym.stValue.setWidth 64) := by
  rw [Sym.probe, Sym.Holds]
  split
  · next hlt => exact ⟨nofun, fun h => absurd h.1.1 (Nat.not_le.mpr hlt)⟩
  · next hle =>
    split
    · next hlt =>
      constructor
      · rintro ⟨⟩
        exact ⟨⟨Nat.not_lt.mp hle, hlt⟩, rfl⟩
      · rintro ⟨-, rfl⟩
        rfl
    · next hge => exact ⟨nofun, fun h => absurd h.1.2 hge⟩

section Search

variable (h : Proper c) (hr : c.IsRemap remap)
include h hr

theorem gives_probe {i : ℕ} (hi : i < (c.indices remap).length) :
    Through.Gives (c.Cached remap) (c.probe remap addr i) (.ok (c.probeAt remap addr i)) := by
  intro s hs
  have hlt := h.lt_of_mem_indices hr (List.getElem_mem hi)
  have hsym := h.readSym_eq hlt
  rw [probeAt_eq hi, probe, symbolIndex_eq hi]
  dsimp only
  rw [hsym]
  refine ⟨_, rfl, hs.searched, fun e he => ?_, hs.globals⟩
  rcases Map.mem_of_emplace he with he | rfl
  · exact hs.symbols e he
  · exact ⟨_, List.getElem?_eq_getElem hi, rfl, Nat.mod_eq_of_lt (h.short _ hlt), nofun⟩

omit h hr in
/-- What a probe finds it has cached. -/
theorem probe_found {i : ℕ} {s s' : SymCaches} {found : ℕ × BitVec 64}
    (hp : c.probe remap addr i s = some (.ok (.found found), s')) : ∃ info, (found.1, info) ∈ s'.symbols.entries := by
  rw [probe] at hp
  cases hindex : symbolIndex remap i with
  | none =>
    rw [hindex] at hp
    cases hp
  | some index =>
    rw [hindex] at hp
    dsimp only at hp
    cases hsym : c.readSym index with
    | error e =>
      rw [hsym] at hp
      cases hp
    | ok sym =>
      rw [hsym] at hp
      obtain ⟨hfound, rfl⟩ := Prod.mk.inj (Option.some.inj hp)
      obtain ⟨-, rfl⟩ := probe_eq_found.mp (Except.ok.inj hfound)
      exact ⟨_, Map.emplace_mem _ _ _⟩

omit hr in
theorem cachedOffset_eq {e : ℕ × SymInfo} {i : ℕ} (he : c.InfoOf remap e i) (hi : i < c.count) :
    cachedOffset addr e =
      if (c.sym i).stValue.toNat ≤ addr.toNat then some (addr - (c.sym i).stValue.setWidth 64) else none := by
  have hsub : BitVec.ofNat 64 (c.sym i).stop - BitVec.ofNat 64 (c.sym i).stSize.toNat =
      (c.sym i).stValue.setWidth 64 := by
    rw [h.exact i hi, BitVec.ofNat_add, BitVec.add_sub_cancel, BitVec.ofNat_toNat]
  have hle : ((c.sym i).stValue.setWidth 64 ≤ addr) ↔ (c.sym i).stValue.toNat ≤ addr.toNat := by
    have hlt := (c.sym i).stValue.isLt.trans_le (Nat.pow_le_pow_right (by decide) c.symType.width)
    rw [BitVec.le_def, BitVec.toNat_setWidth, Nat.mod_eq_of_lt hlt]
  rw [cachedOffset, he.stop, he.size, hsub]
  simp only [hle]

omit hr in
theorem Proper.start_le_stop {i : ℕ} (hi : i < c.count) : (c.sym i).stValue.toNat ≤ (c.sym i).stop := by
  rw [h.exact i hi]
  exact Nat.le_add_right _ _

/-- What is cached is a symbol of the table that is searched. -/
theorem cached_symbol {s : SymCaches} (hs : c.Cached remap s) {e : ℕ × SymInfo} (hmem : e ∈ s.symbols.entries) :
    ∃ i < c.count, c.InfoOf remap e i ∧
      ∃ hlt : e.2.index < (c.indices remap).length, (c.indices remap)[e.2.index] = i := by
  obtain ⟨i, he⟩ := hs.symbols e hmem
  obtain ⟨hlt, hi⟩ := List.getElem?_eq_some_iff.mp he.index
  exact ⟨i, h.lt_of_mem_indices hr (hi ▸ List.getElem_mem hlt), he, hlt, hi⟩

/-- What is cached on either side of an address is on that side in the table. -/
theorem between_cached {s : SymCaches} (hs : c.Cached remap s)
    (hmiss : ((s.symbols.upperBound addr.toNat).bind fun e => (cachedOffset addr e).map (e.1, ·)) = none)
    (hord : Ordered (c.probeAt remap addr) (c.indices remap).length) :
    Between (c.probeAt remap addr) (c.indices remap).length
      ((s.symbols.below addr.toNat).elim 0 (·.2.index + 1))
      ((s.symbols.upperBound addr.toNat).elim (c.indices remap).length (·.2.index)) := by
  constructor
  · intro j hj
    cases hb : s.symbols.below addr.toNat with
    | none =>
      rw [hb] at hj
      exact absurd hj (Nat.not_lt_zero _)
    | some e =>
      rw [hb] at hj
      obtain ⟨hmem, hle⟩ := Map.below_eq_some hb
      obtain ⟨i, hcount, he, hlt, hi⟩ := cached_symbol h hr hs hmem
      rw [he.stop] at hle
      have hafter : c.probeAt remap addr e.2.index = .after := by
        rw [probeAt_eq hlt, hi]
        exact probe_eq_after.mpr ⟨(h.start_le_stop hcount).trans hle, hle⟩
      rcases (Nat.lt_succ_iff.mp hj).eq_or_lt with rfl | hlt'
      · exact hafter
      · exact hord.after j _ hlt' hlt hafter
  · intro j hj hle
    cases hb : s.symbols.upperBound addr.toNat with
    | none =>
      rw [hb] at hle
      exact absurd hj (Nat.not_lt.mpr hle)
    | some e =>
      rw [hb] at hle hmiss
      obtain ⟨hmem, -, -⟩ := Map.upperBound_eq_some.mp hb
      obtain ⟨i, hcount, he, hlt, hi⟩ := cached_symbol h hr hs hmem
      have hbefore : c.probeAt remap addr e.2.index = .before := by
        rw [probeAt_eq hlt, hi]
        refine probe_eq_before.mpr (Nat.not_le.mp fun hstart => ?_)
        rw [Option.bind_some, cachedOffset_eq h he hcount, if_pos hstart] at hmiss
        cases hmiss
      rcases Nat.eq_or_lt_of_le hle with heq | hlt'
      · exact heq ▸ hbefore
      · exact hord.before _ j hlt' hj hbefore

omit h hr in
theorem middle_spec (n first last : ℕ) (hlt : first < last) (_ : last ≤ n) :
    first ≤ middle first last ∧ middle first last < last := by
  rw [middle]
  omega

/-- What `BinarySearch` gives: a symbol with the address, which is then cached,
or that none has it. -/
def Found (c : Symbols w) (remap : Option (List ℕ)) (addr : BitVec 64) (s : SymCaches) :
    Except Unit (ℕ × BitVec 64) → Prop
  | .ok found => (∃ info, (found.1, info) ∈ s.symbols.entries) ∧
      ∃ i ∈ c.indices remap, (c.sym i).Holds addr ∧ found = ((c.sym i).stop, addr - (c.sym i).stValue.setWidth 64)
  | .error _ => Ordered (c.probeAt remap addr) (c.indices remap).length → ∀ i ∈ c.indices remap, ¬ (c.sym i).Holds addr

theorem binarySearch_spec {s : SymCaches} (hs : c.Cached remap s) (addr : BitVec 64) :
    ∃ r s', c.binarySearch remap addr s = some (r, s') ∧ c.Cached remap s' ∧ c.Found remap addr s' r := by
  unfold binarySearch
  rw [Through.bind_ok (show (get : SymM SymCaches) s = some (.ok s, s) from rfl)]
  dsimp only
  cases hit : (s.symbols.upperBound addr.toNat).bind fun e => (cachedOffset addr e).map (e.1, ·) with
  | some found =>
    refine ⟨.ok found, s, rfl, hs, ?_⟩
    obtain ⟨e, hb, hfound⟩ := Option.bind_eq_some_iff.mp hit
    obtain ⟨off, hoff, rfl⟩ := Option.map_eq_some_iff.mp hfound
    obtain ⟨hmem, hend, -⟩ := Map.upperBound_eq_some.mp hb
    obtain ⟨i, hcount, he, hlt, hi⟩ := cached_symbol h hr hs hmem
    rw [cachedOffset_eq h he hcount] at hoff
    split at hoff
    · next hstart =>
      cases hoff
      exact ⟨⟨e.2, hmem⟩, i, hi ▸ List.getElem_mem hlt, ⟨hstart, he.stop ▸ hend⟩, by rw [he.stop]⟩
    · cases hoff
  | none =>
    rw [h.length_indices hr]
    have hlast : (s.symbols.upperBound addr.toNat).elim (c.indices remap).length (·.2.index) ≤
        (c.indices remap).length := by
      cases hb : s.symbols.upperBound addr.toNat with
      | none => exact Nat.le_refl _
      | some e =>
        obtain ⟨-, -, -, hlt, -⟩ := cached_symbol h hr hs (Map.upperBound_eq_some.mp hb).1
        exact hlt.le
    obtain ⟨r, hgives, hfound, hsplit⟩ := Search.gives_loop (middle_spec (c.indices remap).length)
      (fun i hi => gives_probe h hr hi) _ _ _ (Nat.lt_succ_self _) hlast (between_cached h hr hs hit)
    obtain ⟨s', hloop, hs'⟩ := hgives s hs
    cases r with
    | inl found =>
      refine ⟨.ok found, s', Through.bind_ok hloop, hs', ?_, ?_⟩
      · obtain ⟨i, s₀, hprobe⟩ := Search.loop_found hloop
        exact probe_found hprobe
      · obtain ⟨i, hi, hp⟩ := hfound found rfl
        rw [probeAt_eq hi, probe_eq_found] at hp
        exact ⟨_, List.getElem_mem hi, hp⟩
    | inr k =>
      refine ⟨.error (), s', Through.bind_ok hloop, hs', fun hord i hi hholds => ?_⟩
      obtain ⟨-, hbetween⟩ := hsplit k rfl hord
      obtain ⟨j, hj, rfl⟩ := List.mem_iff_getElem.mp hi
      have hat := (probeAt_eq hj).trans (probe_eq_found.mpr ⟨hholds, rfl⟩)
      rcases Nat.lt_or_ge j k with hlt | hge
      · rw [hbetween.after j hlt] at hat
        cases hat
      · rw [hbetween.before j hj hge] at hat
        cases hat

end Search

/-! ## What is looked up -/

theorem Readable.scanGlobal_eq (h : Readable c) (name : List (BitVec 8)) :
    ∀ fuel i : ℕ, c.count - i < fuel → i ≤ c.count → c.scanGlobal name fuel i =
      some (.ok (((List.range' i (c.count - i)).find? fun i => c.isNamed (c.sym i) name).map
        fun i => (c.sym i).stValue.setWidth 64))
  | 0, _, hfuel, _ => absurd hfuel (Nat.not_lt_zero _)
  | fuel + 1, i, hfuel, hle => by
    have hsmall := h.small
    rw [scanGlobal]
    split
    · next hlt =>
      rw [h.readSym_eq hlt, show c.count - i = c.count - (i + 1) + 1 by omega, List.range'_succ, List.find?_cons]
      dsimp only
      split
      · next hnamed =>
        rw [hnamed]
        rfl
      · next hnamed =>
        rw [Bool.not_eq_true] at hnamed
        rw [hnamed, Nat.mod_eq_of_lt (by omega)]
        exact Readable.scanGlobal_eq h name fuel (i + 1) (by omega) hlt
    · next hge =>
      rw [Nat.sub_eq_zero_of_le (Nat.not_lt.mp hge)]
      rfl

section Lookup

variable (h : Proper c)
include h

/-- The table made sorted is one to search. -/
theorem Proper.ordered (addr : BitVec 64) :
    Ordered (c.probeAt (some c.buildRemapTable) addr) (c.indices (some c.buildRemapTable)).length := by
  have hpair (i j : ℕ) (hij : i < j) (hj : j < c.buildRemapTable.length) :
      (c.sym c.buildRemapTable[i]).stop ≤ (c.sym c.buildRemapTable[j]).stValue.toNat := by
    have hlt := List.pairwise_iff_getElem.mp h.buildRemapTable_pairwise i j (hij.trans hj) hj hij
    obtain ⟨hi, hfunc⟩ := h.mem_buildRemapTable (List.getElem_mem (hij.trans hj))
    obtain ⟨hj', hfunc'⟩ := h.mem_buildRemapTable (List.getElem_mem hj)
    exact h.apart _ hi _ hj' hfunc hfunc' hlt
  have hle (i : ℕ) (hi : i < c.buildRemapTable.length) :
      (c.sym c.buildRemapTable[i]).stValue.toNat ≤ (c.sym c.buildRemapTable[i]).stop :=
    h.start_le_stop (h.mem_buildRemapTable (List.getElem_mem hi)).1
  constructor
  · intro i j hij hj hp
    have hi := hij.trans hj
    rw [probeAt_eq hj, probe_eq_after] at hp
    rw [probeAt_eq hi, probe_eq_after]
    have hstop := (hpair i j hij hj).trans hp.1
    exact ⟨(hle i hi).trans hstop, hstop⟩
  · intro i j hij hj hp
    have hi := hij.trans hj
    rw [probeAt_eq hi, probe_eq_before] at hp
    rw [probeAt_eq hj, probe_eq_before]
    exact hp.trans_le ((hle i hi).trans (hpair i j hij hj))

/-- The caches, whichever way is searched. -/
def AnyCached (c : Symbols w) (s : SymCaches) : Prop := ∃ remap, c.IsRemap remap ∧ c.Cached remap s

/-- Nothing is given up before the table is made sorted. -/
theorem find_spec {s : SymCaches} (hs : c.AnyCached s) (addr : BitVec 64) :
    ∃ r s' remap, c.find addr s = some (r, s') ∧ c.IsRemap remap ∧ c.Cached remap s' ∧ c.Found remap addr s' r ∧
      (∀ e, r = .error e → remap = some c.buildRemapTable) := by
  obtain ⟨remap, hr, hs⟩ := hs
  unfold find
  rw [Through.bind_ok (show (get : SymM SymCaches) s = some (.ok s, s) from rfl), hs.searched]
  rcases hr with rfl | rfl
  · obtain ⟨r, s₁, hsearch, hs₁, hfound⟩ := binarySearch_spec h (.inl rfl) hs addr
    dsimp only
    rw [Through.attempt_bind, hsearch, Option.bind_some]
    cases r with
    | ok found => exact ⟨_, s₁, none, rfl, .inl rfl, hs₁, hfound, nofun⟩
    | error e =>
      let s₂ : SymCaches := { s₁ with symbols := Map.empty, remap := some c.buildRemapTable }
      have hs₂ : c.Cached (some c.buildRemapTable) s₂ := ⟨rfl, nofun, hs₁.globals⟩
      obtain ⟨r, s₃, hsearch, hs₃, hfound⟩ := binarySearch_spec h (.inr rfl) hs₂ addr
      exact ⟨r, s₃, _, hsearch, .inr rfl, hs₃, hfound, fun _ _ => rfl⟩
  · obtain ⟨r, s₁, hsearch, hs₁, hfound⟩ := binarySearch_spec h (.inr rfl) hs addr
    exact ⟨r, s₁, _, hsearch, .inr rfl, hs₁, hfound, fun _ _ => rfl⟩

/-- A function of the address and its name, if it has one; or there is none. -/
def NameOf (c : Symbols w) (addr : BitVec 64) (r : Except Unit (List (BitVec 8) × BitVec 64)) : Prop :=
  (∃ i < c.count, (c.sym i).isFunc = true ∧ (c.sym i).Holds addr ∧
    r = (c.readName (c.sym i)).map fun name => (name, addr - (c.sym i).stValue.setWidth 64)) ∨
  (∀ i < c.count, (c.sym i).isFunc = true → ¬ (c.sym i).Holds addr) ∧ r = .error ()

omit h in
theorem readName_of_not_isFunc {sym : Sym w} (hfunc : sym.isFunc = false) : c.readName sym = .error () := by
  rw [readName, hfunc]
  exact ite_self _

/-- A symbol with the address is a function of it, or there is no other. -/
theorem Proper.nameOf {i : ℕ} (hi : i < c.count) (hholds : (c.sym i).Holds addr) :
    c.NameOf addr ((c.readName (c.sym i)).map fun name => (name, addr - (c.sym i).stValue.setWidth 64)) := by
  cases hfunc : (c.sym i).isFunc with
  | true => exact .inl ⟨i, hi, hfunc, hholds, rfl⟩
  | false =>
    refine .inr ⟨fun j hj hfunc' hholds' => h.others j hj i hi hfunc' hfunc addr hholds' hholds, ?_⟩
    rw [readName_of_not_isFunc hfunc]
    rfl

/-- Where no function of the sorted table has the address, none has. -/
theorem Proper.nameOf_none (hnone : ∀ i ∈ c.buildRemapTable, ¬ (c.sym i).Holds addr) : c.NameOf addr (.error ()) := by
  refine .inr ⟨fun i hi hfunc hholds => ?_, rfl⟩
  obtain ⟨j, hj, hvalue⟩ := h.exists_mem_buildRemapTable hi hfunc
  obtain ⟨hlt, hfunc'⟩ := h.mem_buildRemapTable hj
  have hstop := h.same j hlt i hi hfunc' hfunc hvalue
  refine hnone j hj ?_
  rw [Sym.Holds, hvalue, hstop]
  exact hholds

theorem ensures_getName (addr : BitVec 64) : Through.Ensures c.AnyCached (c.getName addr) (c.NameOf addr) := by
  intro s hs
  obtain ⟨r, s₁, remap, hfind, hr, hs₁, hfound, hsorted⟩ := find_spec h hs addr
  unfold getName
  cases r with
  | error e =>
    have hremap := hsorted e rfl
    subst hremap
    exact ⟨_, s₁, Through.bind_error hfind, ⟨_, hr, hs₁⟩, h.nameOf_none (hfound (h.ordered addr))⟩
  | ok found =>
    obtain ⟨⟨info, hmem⟩, j, hj, hholds, rfl⟩ := hfound
    rw [Through.bind_ok hfind, Through.bind_ok (show (get : SymM SymCaches) s₁ = some (.ok s₁, s₁) from rfl)]
    obtain ⟨info, hinfo⟩ := Map.exists_valueOf hmem
    rw [hinfo]
    dsimp only
    -- The symbol cached with this end may be another, but one with its start.
    obtain ⟨i, hcount, he, hlen, hi⟩ := cached_symbol h hr hs₁ (Map.mem_of_valueOf hinfo)
    have hvalue := h.ends j (h.lt_of_mem_indices hr hj) i hcount he.stop
    have hholds' : (c.sym i).Holds addr := by
      rw [Sym.Holds, ← hvalue, ← he.stop]
      exact hholds
    have hname := h.nameOf hcount hholds'
    rw [← hvalue] at hname
    cases hcached : info.name with
    | some name =>
      refine ⟨_, s₁, rfl, ⟨remap, hr, hs₁⟩, ?_⟩
      rwa [he.name name hcached] at hname
    | none =>
      dsimp only
      rw [hs₁.searched, symbolIndex_eq hlen, hi]
      dsimp only
      rw [h.readSym_eq hcount, Through.bind_ok (show (Through.ofResult (.ok (c.sym i)) : SymM (Sym w)) s₁ =
        some (.ok (c.sym i), s₁) from rfl)]
      cases hread : c.readName (c.sym i) with
      | error e =>
        rw [hread] at hname
        exact ⟨_, s₁, rfl, ⟨remap, hr, hs₁⟩, hname⟩
      | ok name =>
        rw [hread] at hname
        refine ⟨_, _, rfl, ⟨remap, hr, hs₁.searched, fun e hmem => ?_, hs₁.globals⟩, hname⟩
        rcases Map.mem_insert.mp hmem with rfl | ⟨hmem, -⟩
        · exact ⟨i, he.index, he.stop, he.size, by rintro _ ⟨⟩; exact hread⟩
        · exact hs₁.symbols e hmem

/-- The address of the global variable of a name, if there is one. -/
def GlobalOf (c : Symbols w) (name : List (BitVec 8)) (r : Except Unit (BitVec 64)) : Prop :=
  r = match c.globalOf name with
    | some address => .ok address
    | none => .error ()

theorem ensures_getGlobal {fuel : ℕ} (hfuel : c.count < fuel) (name : List (BitVec 8)) :
    Through.Ensures c.AnyCached (c.getGlobal fuel name) (c.GlobalOf name) := by
  have hscan (name : List (BitVec 8)) : c.scanGlobal name fuel 0 = some (.ok (c.globalOf name)) := by
    rw [h.scanGlobal_eq name fuel 0 (by omega) (Nat.zero_le _), Nat.sub_zero, ← List.range_eq_range']
    rfl
  have hlookup : Through.Gives c.AnyCached
      (Through.lookup (fun s => s.globalVariables)
        (fun s name v => { s with globalVariables := Function.update s.globalVariables name (some v) })
        (fun name => Through.ofRun (c.scanGlobal name fuel 0)) name) (.ok (c.globalOf name)) := by
    refine Through.Gives.lookup (f := fun name => .ok (c.globalOf name)) ?_ ?_ ?_
    · rintro s ⟨remap, -, hs⟩ v hv
      exact congrArg Except.ok (Option.some.inj (hs.globals name v hv))
    · rintro s ⟨remap, hr, hs⟩ v hv
      exact ⟨remap, hr, hs.searched, hs.symbols, hs.globals.update (congrArg some (Except.ok.inj hv))⟩
    · intro s hs
      refine ⟨s, ?_, hs⟩
      rw [Through.ofRun, hscan]
      rfl
  intro s hs
  obtain ⟨s', hfound, hs'⟩ := hlookup s hs
  unfold getGlobal
  rw [Through.bind_ok hfound]
  cases hglobal : c.globalOf name with
  | some address => exact ⟨_, s', rfl, hs', by rw [GlobalOf, hglobal]⟩
  | none => exact ⟨_, s', rfl, hs', by rw [GlobalOf, hglobal]⟩

end Lookup

/-! ## Runs -/

inductive SymCall
  | getName (addr : BitVec 64)
  | getGlobal (name : List (BitVec 8))
  | clearCache
  deriving DecidableEq, Repr

inductive SymAnswer
  | name (name : List (BitVec 8)) (funcOffset : BitVec 64)
  | address (memoryAddress : BitVec 64)
  | cleared
  deriving DecidableEq, Repr

def call (c : Symbols w) (fuel : ℕ) : SymCall → SymM SymAnswer
  | .getName addr => do
    let found ← c.getName addr
    return .name found.1 found.2
  | .getGlobal name => do
    let address ← c.getGlobal fuel name
    return .address address
  | .clearCache => do
    clearCache
    return .cleared

/-- What a call may answer, whatever was called before. -/
def Answers (c : Symbols w) : SymCall → Except Unit SymAnswer → Prop
  | .getName addr, r => ∃ r', c.NameOf addr r' ∧ r = r'.map fun found => .name found.1 found.2
  | .getGlobal name, r => ∃ r', c.GlobalOf name r' ∧ r = r'.map .address
  | .clearCache, r => r = .ok .cleared

theorem ensures_call (h : Proper c) {fuel : ℕ} (hfuel : c.count < fuel) (x : SymCall) :
    Through.Ensures c.AnyCached (c.call fuel x) (c.Answers x) := by
  cases x with
  | getName addr => exact (ensures_getName h addr).map _
  | getGlobal name => exact (ensures_getGlobal h hfuel name).map _
  | clearCache =>
    rintro s ⟨remap, -, hs⟩
    exact ⟨_, _, rfl, ⟨none, .inl rfl, rfl, nofun, hs.globals⟩, rfl⟩

/-- **Symbols are looked up**: in any run of lookups, through what each of them
caches, a name is that of a function that has the address, with the offset in
it, and is given where there is one; a global variable is the first of its
name. -/
theorem call_run (h : Proper c) {fuel : ℕ} (hfuel : c.count < fuel) (calls : List SymCall) :
    ∃ answers s, calls.mapM (fun x => Through.attempt (c.call fuel x)) SymCaches.empty = some (.ok answers, s) ∧
      List.Forall₂ c.Answers calls answers := by
  have hempty : c.AnyCached SymCaches.empty := ⟨none, .inl rfl, rfl, nofun, Memo.agrees_empty _⟩
  obtain ⟨answers, s, hrun, -, hanswers⟩ := Through.Ensures.mapM (ensures_call h hfuel) calls _ hempty
  exact ⟨answers, s, hrun, hanswers⟩

/-- Two functions that are not in order, and a variable. -/
def unsorted : Symbols 32 where
  elfMemory := Memory.buffer [1, 0, 0, 0, 0, 0x20, 0, 0, 16, 0, 0, 0, 0x12, 0, 1, 0,
    3, 0, 0, 0, 0, 0x10, 0, 0, 16, 0, 0, 0, 0x12, 0, 1, 0,
    5, 0, 0, 0, 0, 0x40, 0, 0, 4, 0, 0, 0, 0x11, 0, 2, 0,
    0, 0x66, 0, 0x67, 0, 0x76, 0] (by decide)
  symType := elf32Sym
  offset := 0
  size := 48
  entrySize := 16
  strOffset := 48
  strSize := 7

theorem proper_unsorted : Proper unsorted where
  bytes := ⟨_, by decide, holds_buffer (by decide) 0 48⟩
  wide := by decide
  small := by decide
  exact := by decide
  short := by decide
  ends := by decide
  same := by decide
  apart := by decide
  others i hi j hj hfunc hother addr hholds hholds' := by
    have hapart : ∀ i < unsorted.count, ∀ j < unsorted.count, (unsorted.sym i).isFunc = true →
        (unsorted.sym j).isFunc = false → (unsorted.sym i).stop ≤ (unsorted.sym j).stValue.toNat := by decide
    exact absurd hholds.2 (Nat.not_lt.mpr ((hapart i hi j hj hfunc hother).trans hholds'.1))

/-- The second lookup finds the table not sorted. -/
theorem call_run_unsorted :
    let calls : List SymCall := [.getName 0x1004, .getName 0x2008, .getGlobal [0x76], .clearCache, .getName 0x3000]
    ∃ answers s, calls.mapM (fun x => Through.attempt (unsorted.call 4 x)) SymCaches.empty = some (.ok answers, s) ∧
      List.Forall₂ unsorted.Answers calls answers :=
  call_run proper_unsorted (by decide) _

end Symbols

end AllocHook.Unwindstack
