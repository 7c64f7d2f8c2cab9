/-
The entries of `.eh_frame` and `.debug_frame` (`DwarfSection.cpp`): reading a
CIE or an FDE, and the index from which the FDE of a pc is found.

The index keeps, by the ends of ranges, which FDE they are of: an FDE gets the
part of its range that no FDE before it in the section has. Where the scan of
the section ends and some FDE of it has a range, looking a pc up in the index
is looking for the first FDE in the section that covers it
(`getFdeFromPc_run`). An index that is empty is built again by every lookup,
and a scan that meets a cached CIE need not read what the one before it read.

The scan of a section stops at the first entry it cannot read, or whose next
entry lies before where the cursor stands. The cursor of an FDE goes past its
augmentation data by a length that may take it around the addresses: a scan
may then come back to an entry, so it has fuel here.
-/
import AllocHook.Lib.EndMap
import AllocHook.Lib.Memo
import AllocHook.Lib.Through
import AllocHook.Unwindstack.DwarfCfa

namespace AllocHook.Unwindstack

/-- `DwarfEhFrame` or `DwarfDebugFrame`. -/
inductive SectionKind
  | ehFrame | debugFrame
  deriving DecidableEq, Repr

/-- A section as `Init` leaves it; `pc_offset_` is `entries_offset_`. -/
structure DwarfSection where
  memory : Memory
  kind : SectionKind
  sectionBias : BitVec 64
  entriesOffset : BitVec 64
  entriesEnd : BitVec 64

def cie32Value : SectionKind → BitVec 64
  | .ehFrame => 0
  | .debugFrame => 0xffffffff

def cie64Value : SectionKind → BitVec 64
  | .ehFrame => 0
  | .debugFrame => -1

variable (c : DwarfSection)

def DwarfSection.getCieOffsetFromFde32 (pointer off : BitVec 64) : BitVec 64 :=
  match c.kind with
  | .ehFrame => off - pointer - 4
  | .debugFrame => c.entriesOffset + pointer

def DwarfSection.getCieOffsetFromFde64 (pointer off : BitVec 64) : BitVec 64 :=
  match c.kind with
  | .ehFrame => off - pointer - 8
  | .debugFrame => c.entriesOffset + pointer

def DwarfSection.adjustPcFromFde (pc off : BitVec 64) : BitVec 64 :=
  match c.kind with
  | .ehFrame => pc + off - 4
  | .debugFrame => pc

/-- `memory_`, with this `pc_offset_`. -/
def DwarfSection.reader (pcOffset : BitVec 64) : DwarfMemory :=
  { memory := c.memory, pcOffset, dataOffset := c.entriesOffset }

/-- The length of an entry and what comes after it, a CIE id or the pointer of
an FDE: the end of the entry, that word, and whether they have 64 bits. -/
def DwarfSection.readEntryHeader (off : BitVec 64) : Result ((BitVec 64 × BitVec 64 × Bool) × BitVec 64) := do
  let d := c.reader c.entriesOffset
  let (length32, off) ← d.readUnsigned 4 off
  if length32 = 0xffffffff then do
    let (length64, off) ← d.readUnsigned 8 off
    let entryEnd := off + length64
    let (value64, off) ← d.readUnsigned 8 off
    return ((entryEnd, value64, true), off)
  else do
    let entryEnd := off + length32
    let (value32, off) ← d.readUnsigned 4 off
    return ((entryEnd, value32, false), off)

def isCie (kind : SectionKind) (value : BitVec 64) (is64 : Bool) : Bool :=
  value == if is64 then cie64Value kind else cie32Value kind

/-- A CIE before `FillInCie`. -/
def cieHeader (entryEnd : BitVec 64) (is64 : Bool) : DwarfCie :=
  { lsdaEncoding := DW_EH_PE_omit
    cfaInstructionsEnd := entryEnd
    fdeAddressEncoding := if is64 then DW_EH_PE_sdata8 else DW_EH_PE_sdata4 }

def DwarfSection.fillInCieHeader (off : BitVec 64) : Result (DwarfCie × BitVec 64) := do
  let ((entryEnd, value, is64), off) ← c.readEntryHeader off
  if isCie c.kind value is64 then return (cieHeader entryEnd is64, off) else .error illegalValue

/-- The loop over the augmentation string, its last byte the zero. A string
of `2^64` bytes does not fit anywhere. -/
def DwarfMemory.readAugmentation (d : DwarfMemory) : ℕ → BitVec 64 → Result (List (BitVec 8) × BitVec 64)
  | 0, off => .error (.error .memoryInvalid (some off))
  | left + 1, off => do
    let (augValue, off) ← d.readByte off
    if augValue = 0 then return ([0], off)
    else do
      let (rest, off) ← d.readAugmentation left off
      return (augValue :: rest, off)

/-- A letter of the augmentation after the first. -/
def DwarfSection.readAugmentationData (w : ℕ) (cie : DwarfCie) (letter : BitVec 8) (off : BitVec 64) :
    Result (DwarfCie × BitVec 64) :=
  let d := c.reader c.entriesOffset
  if letter = 0x4c then do -- 'L'
    let (lsdaEncoding, off) ← d.readByte off
    return ({ cie with lsdaEncoding }, off)
  else if letter = 0x50 then do -- 'P'
    let (encoding, off) ← d.readByte off
    let (personalityHandler, off) ← d.readEncodedValue w encoding off
    return ({ cie with personalityHandler }, off)
  else if letter = 0x52 then do -- 'R'
    let (fdeAddressEncoding, off) ← d.readByte off
    return ({ cie with fdeAddressEncoding }, off)
  else if letter = 0x53 then .ok ({ cie with isSignalFrame := true }, off) -- 'S'
  else .ok (cie, off)

def DwarfSection.readAugmentations (c : DwarfSection) (w : ℕ) :
    List (BitVec 8) → DwarfCie → BitVec 64 → Result (DwarfCie × BitVec 64)
  | [], cie, off => .ok (cie, off)
  | letter :: letters, cie, off => do
    let (cie, off) ← c.readAugmentationData w cie letter off
    c.readAugmentations w letters cie off

def DwarfSection.fillInCie (w : ℕ) (cie : DwarfCie) (off : BitVec 64) : Result (DwarfCie × BitVec 64) := do
  let d := c.reader c.entriesOffset
  let (version, off) ← d.readByte off
  if version ≠ 1 ∧ version ≠ 3 ∧ version ≠ 4 ∧ version ≠ 5 then .error (.error .unsupportedVersion none)
  else do
    let (augmentationString, off) ← d.readAugmentation (2 ^ 64) off
    let (segmentSize, off) ←
      -- The address size is skipped.
      if version = 4 ∨ version = 5 then d.readByte (off + 1) else pure (0, off)
    let (codeAlignmentFactor, off) ← d.readULEB128 off
    let (dataAlignmentFactor, off) ← d.readSLEB128 off
    let (returnAddressRegister, off) ← if version = 1 then d.readUnsigned 1 off else d.readULEB128 off
    let cie := { cie with
      version, augmentationString, segmentSize, codeAlignmentFactor, dataAlignmentFactor, returnAddressRegister }
    if augmentationString.head? ≠ some 0x7a then return ({ cie with cfaInstructionsOffset := off }, off) -- 'z'
    else do
      let (augLength, off) ← d.readULEB128 off
      c.readAugmentations w augmentationString.tail { cie with cfaInstructionsOffset := off + augLength } off

/-- The CIE at an offset, read anew. -/
def DwarfSection.readCie (w : ℕ) (offset : BitVec 64) : Result DwarfCie := do
  let (cie, off) ← c.fillInCieHeader offset
  let (cie, _) ← c.fillInCie w cie off
  return cie

/-- `FillInFde` after the header. -/
def DwarfSection.fillInFde (w : ℕ) (cie : DwarfCie) (cfaInstructionsEnd cieOffset off : BitVec 64) :
    Result (DwarfFde × BitVec 64) := do
  let off := off + cie.segmentSize.setWidth 64
  let (start, off) ← (c.reader c.sectionBias).readEncodedValue w cie.fdeAddressEncoding off
  let pcStart := c.adjustPcFromFde start off
  let (length, off) ← (c.reader 0).readEncodedValue w cie.fdeAddressEncoding off
  let fde : DwarfFde := { cieOffset, cfaInstructionsEnd, pcStart, pcEnd := length + pcStart, cie }
  if cie.augmentationString.head? = some 0x7a then do
    let (augLength, off) ← (c.reader 0).readULEB128 off
    let (lsdaAddress, _) ← (c.reader c.entriesOffset).readEncodedValue w cie.lsdaEncoding off
    return ({ fde with lsdaAddress, cfaInstructionsOffset := off + augLength }, off + augLength)
  else return ({ fde with cfaInstructionsOffset := off }, off)

/-- Where the CIE of an FDE is, the cursor being after the pointer to it. -/
def DwarfSection.cieOffset (value : BitVec 64) (is64 : Bool) (off : BitVec 64) : BitVec 64 :=
  if is64 then c.getCieOffsetFromFde64 value off else c.getCieOffsetFromFde32 value off

/-! ## Caches -/

/-- A row of locations with its CIE. -/
structure CachedRow where
  locRegs : DwarfLocations
  cie : DwarfCie

/-- What a section keeps of what it has read. -/
structure SectionCaches where
  fdeIndex : List (ℕ × BitVec 64)
  cieEntries : BitVec 64 → Option DwarfCie
  fdeEntries : BitVec 64 → Option DwarfFde
  cieLocRegs : BitVec 64 → Option Locations
  locRegs : EndMap.Map ℕ CachedRow

def SectionCaches.empty : SectionCaches :=
  { fdeIndex := [], cieEntries := fun _ => none, fdeEntries := fun _ => none, cieLocRegs := fun _ => none
    locRegs := EndMap.Map.empty }

abbrev SectionM (α : Type) := Through Fault SectionCaches α

def SectionCaches.storeCie (s : SectionCaches) (offset : BitVec 64) (cie : DwarfCie) : SectionCaches :=
  { s with cieEntries := Function.update s.cieEntries offset (some cie) }

def SectionCaches.storeFde (s : SectionCaches) (offset : BitVec 64) (fde : DwarfFde) : SectionCaches :=
  { s with fdeEntries := Function.update s.fdeEntries offset (some fde) }

open Through (ofResult)

def DwarfSection.getCieFromOffset (w : ℕ) : BitVec 64 → SectionM DwarfCie :=
  Through.lookup SectionCaches.cieEntries SectionCaches.storeCie fun offset => ofResult (c.readCie w offset)

/-- The FDE of an entry, and the cursor after it. -/
def DwarfSection.readFde (w : ℕ) (entryEnd value : BitVec 64) (is64 : Bool) (off : BitVec 64) :
    SectionM (DwarfFde × BitVec 64) := do
  let cieOffset := c.cieOffset value is64 off
  let cie ← c.getCieFromOffset w cieOffset
  ofResult (c.fillInFde w cie entryEnd cieOffset off)

def DwarfSection.getFdeFromOffset (w : ℕ) : BitVec 64 → SectionM DwarfFde :=
  Through.lookup SectionCaches.fdeEntries SectionCaches.storeFde fun offset => do
    let ((entryEnd, value, is64), off) ← ofResult (c.readEntryHeader offset)
    if isCie c.kind value is64 then ofResult (.error illegalValue)
    else do
      let (fde, _) ← c.readFde w entryEnd value is64 off
      return fde

/-! ## The index -/

/-- What `GetNextCieOrFde` makes of an entry: the FDE, if it is one, the offset
of the next entry, and the cursor. -/
structure NextEntry where
  fde : Option DwarfFde
  nextOffset : BitVec 64
  cursor : BitVec 64

def DwarfSection.getNextCieOrFde (w : ℕ) (offset : BitVec 64) : SectionM NextEntry := do
  let ((nextOffset, value, is64), off) ← ofResult (c.readEntryHeader offset)
  if isCie c.kind value is64 then
    match (← get).cieEntries offset with
    | some _ => return { fde := none, nextOffset, cursor := off }
    | none => do
      let (cie, cursor) ← ofResult (c.fillInCie w (cieHeader nextOffset is64) off)
      modify fun s => s.storeCie offset cie
      return { fde := none, nextOffset, cursor }
  else do
    let (fde, cursor) ← c.readFde w nextOffset value is64 off
    return { fde := some fde, nextOffset, cursor }

/-- The FDEs of a section with their offsets, in order: the scan of
`BuildFdeIndex`. -/
def DwarfSection.scan (c : DwarfSection) (w : ℕ) : ℕ → BitVec 64 → SectionM (List (BitVec 64 × DwarfFde))
  | 0, _ => Through.diverge
  | fuel + 1, offset =>
    if offset < c.entriesEnd then do
      match ← Through.attempt (c.getNextCieOrFde w offset) with
      | .error _ => return []
      | .ok next => do
        let found := next.fde.toList.map (offset, ·)
        if next.nextOffset < next.cursor then return found
        else return found ++ (← c.scan w fuel next.nextOffset)
    else return []

/-- The start of a range and the offset of its FDE, by the end of the range. -/
abbrev DwarfFdeMap := EndMap.Map ℕ (ℕ × BitVec 64)

/-- The loop of `InsertFde` over the entries from its iterator on. -/
def insertFdeFrom (fdeOffset : BitVec 64) (stop : ℕ) : ℕ → List (ℕ × (ℕ × BitVec 64)) → DwarfFdeMap → DwarfFdeMap
  | start, [], fdes => if start < stop then fdes.insert stop (start, fdeOffset) else fdes
  | start, it :: rest, fdes =>
    if start < stop ∧ it.2.1 < stop then
      let fdes := if start < it.2.1 then fdes.insert it.2.1 (start, fdeOffset) else fdes
      insertFdeFrom fdeOffset stop it.1 rest fdes
    else if start < stop then fdes.insert stop (start, fdeOffset)
    else fdes

def insertFde (fdes : DwarfFdeMap) (entry : BitVec 64 × DwarfFde) : DwarfFdeMap :=
  let start := entry.2.pcStart.toNat
  insertFdeFrom entry.1 entry.2.pcEnd.toNat start (fdes.beyond start) fdes

/-- The ends of the ranges and the offsets of their FDEs. -/
def indexOf (fdes : List (BitVec 64 × DwarfFde)) : List (ℕ × BitVec 64) :=
  (fdes.foldl insertFde EndMap.Map.empty).entries.map fun e => (e.1, e.2.2)

def DwarfSection.buildFdeIndex (w fuel : ℕ) : SectionM Unit := do
  let fdes ← c.scan w fuel c.entriesOffset
  modify fun s => { s with fdeIndex := indexOf fdes }

/-- `GetFdeFromPc`, the index there. -/
def DwarfSection.fdeFromIndex (w : ℕ) (pc : BitVec 64) : SectionM (Option DwarfFde) := do
  match (← get).fdeIndex.find? fun e => decide (pc.toNat < e.1) with
  | none => return none
  | some (_, offset) => do
    match ← Through.attempt (c.getFdeFromOffset w offset) with
    | .error _ => return none
    | .ok fde => return if fde.pcStart ≤ pc then some fde else none

def DwarfSection.getFdeFromPc (w fuel : ℕ) (pc : BitVec 64) : SectionM (Option DwarfFde) := do
  if (← get).fdeIndex.isEmpty then c.buildFdeIndex w fuel else pure ()
  c.fdeFromIndex w pc

/-! ## First come, first served -/

/-- The FDE that has a point. -/
def offsetAt (fdes : DwarfFdeMap) (p : ℕ) : Option (BitVec 64) := (EndMap.valueAt Prod.fst fdes p).map Prod.snd

variable {fdes : DwarfFdeMap} {start stop : ℕ} (fdeOffset : BitVec 64)

theorem offsetAt_insert (h : EndMap.Apart Prod.fst fdes) (hlt : start < stop)
    (hfree : ∀ e ∈ fdes.entries, e.1 ≤ start ∨ stop ≤ e.2.1) :
    EndMap.Apart Prod.fst (fdes.insert stop (start, fdeOffset)) ∧ ∀ p,
      offsetAt (fdes.insert stop (start, fdeOffset)) p =
        (offsetAt fdes p).or (if start ≤ p ∧ p < stop then some fdeOffset else none) := by
  refine ⟨h.insert (v := (start, fdeOffset)) hlt hfree, fun p => ?_⟩
  rw [offsetAt, h.valueAt_insert (v := (start, fdeOffset)) hlt hfree]
  split
  · next hp => rw [offsetAt, h.valueAt_of_free hfree hp.1 hp.2]; rfl
  · exact Option.or_none.symm

theorem insertFdeFrom_spec : ∀ {rest : List (ℕ × (ℕ × BitVec 64))} {start : ℕ} {fdes : DwarfFdeMap},
    EndMap.Apart Prod.fst fdes → fdes.beyond start = rest →
    EndMap.Apart Prod.fst (insertFdeFrom fdeOffset stop start rest fdes) ∧ ∀ p,
      offsetAt (insertFdeFrom fdeOffset stop start rest fdes) p =
        (offsetAt fdes p).or (if start ≤ p ∧ p < stop then some fdeOffset else none)
  | [], start, fdes, h, hb => by
    rw [insertFdeFrom]
    split
    · next hlt => exact offsetAt_insert fdeOffset h hlt fun e he => .inl (EndMap.Map.le_of_beyond_nil hb he)
    · next hlt =>
      refine ⟨h, fun p => ?_⟩
      rw [if_neg (by omega), Option.or_none]
  | it :: rest, start, fdes, h, hb => by
    have hfree := h.free_of_beyond hb
    rw [insertFdeFrom]
    split
    · next hlt =>
      obtain ⟨hit, hend⟩ := EndMap.Map.mem_beyond.mp (hb ▸ List.mem_cons_self : it ∈ fdes.beyond start)
      have hcover : ∀ p, it.2.1 ≤ p → p < it.1 → (offsetAt fdes p).isSome := fun p hlo hhi => by
        rw [offsetAt, h.valueAt_eq_some.mpr ⟨it, hit, hlo, hhi, rfl⟩]
        rfl
      have hnonempty := h.nonempty it hit
      by_cases hgap : start < it.2.1
      · -- The part before the next entry is free.
        obtain ⟨h', hat⟩ := offsetAt_insert fdeOffset h hgap hfree
        have hb' : (fdes.insert it.2.1 (start, fdeOffset)).beyond it.1 = rest := by
          rw [EndMap.Map.beyond_insert hnonempty.le, EndMap.Map.beyond_next hb]
        rw [if_pos hgap]
        obtain ⟨h'', hat'⟩ := insertFdeFrom_spec h' hb'
        refine ⟨h'', fun p => ?_⟩
        rw [hat', hat]
        have hc := hcover p
        cases hp : offsetAt fdes p with
        | some offset => rfl
        | none =>
          rw [hp] at hc
          simp only [Option.none_or]
          split <;> split <;> simp_all <;> omega
      · rw [if_neg hgap]
        obtain ⟨h', hat⟩ := insertFdeFrom_spec h (EndMap.Map.beyond_next hb)
        refine ⟨h', fun p => ?_⟩
        rw [hat]
        have hc := hcover p
        cases hp : offsetAt fdes p with
        | some offset => rfl
        | none =>
          rw [hp] at hc
          simp only [Option.none_or]
          split <;> split <;> simp_all <;> omega
    · next hlt =>
      split
      · next hlt' => exact offsetAt_insert fdeOffset h hlt' fun e he => (hfree e he).imp_right fun hle => by omega
      · next hlt' =>
        refine ⟨h, fun p => ?_⟩
        rw [if_neg (by omega), Option.or_none]

/-- The range of an FDE holds a point. -/
def DwarfFde.holds (fde : DwarfFde) (p : ℕ) : Bool := decide (fde.pcStart.toNat ≤ p ∧ p < fde.pcEnd.toNat)

theorem insertFde_spec (entry : BitVec 64 × DwarfFde) (h : EndMap.Apart Prod.fst fdes) :
    EndMap.Apart Prod.fst (insertFde fdes entry) ∧ ∀ p,
      offsetAt (insertFde fdes entry) p = (offsetAt fdes p).or (if entry.2.holds p then some entry.1 else none) := by
  have hs : EndMap.Apart Prod.fst (insertFde fdes entry) ∧ ∀ p, offsetAt (insertFde fdes entry) p = _ :=
    insertFdeFrom_spec entry.1 h (rfl : fdes.beyond entry.2.pcStart.toNat = _)
  refine ⟨hs.1, fun p => (hs.2 p).trans ?_⟩
  simp only [DwarfFde.holds, decide_eq_true_eq]

theorem foldl_insertFde_spec (entries : List (BitVec 64 × DwarfFde)) (h : EndMap.Apart Prod.fst fdes) :
    EndMap.Apart Prod.fst (entries.foldl insertFde fdes) ∧ ∀ p,
      offsetAt (entries.foldl insertFde fdes) p =
        (offsetAt fdes p).or ((entries.find? fun e => e.2.holds p).map Prod.fst) := by
  induction entries generalizing fdes with
  | nil => exact ⟨h, fun p => Option.or_none.symm⟩
  | cons entry entries ih =>
    obtain ⟨h', hat⟩ := insertFde_spec entry h
    obtain ⟨h'', hat'⟩ := ih h'
    refine ⟨h'', fun p => ?_⟩
    rw [List.foldl_cons, hat', hat, Option.or_assoc, List.find?_cons]
    cases entry.2.holds p <;> rfl

/-! ## What is cached -/

variable {c} {w : ℕ} {offset : BitVec 64} {s s' : SectionCaches}

/-- An FDE whose CIE is read anew. -/
def DwarfSection.plainFde (c : DwarfSection) (w : ℕ) (entryEnd value : BitVec 64) (is64 : Bool) (off : BitVec 64) :
    Result (DwarfFde × BitVec 64) := do
  let cie ← c.readCie w (c.cieOffset value is64 off)
  c.fillInFde w cie entryEnd (c.cieOffset value is64 off) off

/-- The FDE at an offset, without caches. -/
def DwarfSection.fdeAt (c : DwarfSection) (w : ℕ) (offset : BitVec 64) : Result DwarfFde := do
  let ((entryEnd, value, is64), off) ← c.readEntryHeader offset
  if isCie c.kind value is64 then .error illegalValue
  else do
    let (fde, _) ← c.plainFde w entryEnd value is64 off
    return fde

theorem toOption_eq_some {α : Type} {x : Result α} {v : α} : x.toOption = some v ↔ x = .ok v := by
  cases x with
  | error e => exact ⟨nofun, nofun⟩
  | ok v' => exact ⟨fun h => congrArg _ (Option.some.inj h), fun h => congrArg _ (Except.ok.inj h)⟩

theorem fillInFde_cie {cie : DwarfCie} {entryEnd cieOffset off off' : BitVec 64} {fde : DwarfFde}
    (h : c.fillInFde w cie entryEnd cieOffset off = .ok (fde, off')) : fde.cie = cie ∧ fde.cieOffset = cieOffset := by
  unfold DwarfSection.fillInFde at h
  obtain ⟨start, -, h⟩ := bind_eq_ok.mp h
  obtain ⟨length, -, h⟩ := bind_eq_ok.mp h
  dsimp only at h
  split at h
  · obtain ⟨augLength, -, h⟩ := bind_eq_ok.mp h
    obtain ⟨lsdaAddress, -, h⟩ := bind_eq_ok.mp h
    cases h
    exact ⟨rfl, rfl⟩
  · cases h
    exact ⟨rfl, rfl⟩

/-- An FDE has the CIE at the offset it has. -/
theorem readCie_of_fdeAt {fde : DwarfFde} (h : c.fdeAt w offset = .ok fde) :
    c.readCie w fde.cieOffset = .ok fde.cie := by
  unfold DwarfSection.fdeAt DwarfSection.plainFde at h
  obtain ⟨⟨⟨entryEnd, value, is64⟩, off⟩, -, h⟩ := bind_eq_ok.mp h
  dsimp only at h
  split at h
  · cases h
  · obtain ⟨⟨fde', off'⟩, hfde, h⟩ := bind_eq_ok.mp h
    obtain ⟨cie, hcie, hfill⟩ := bind_eq_ok.mp hfde
    cases h
    obtain ⟨hc, ho⟩ := fillInFde_cie hfill
    dsimp only
    rw [hc, ho, hcie]

/-- What is cached for an entry is what reading it gives; of the rest of the
caches `P` is known. -/
structure Agree (c : DwarfSection) (w : ℕ)
    (P : List (ℕ × BitVec 64) → (BitVec 64 → Option Locations) → EndMap.Map ℕ CachedRow → Prop)
    (s : SectionCaches) : Prop where
  cie : Memo.Agrees (fun offset => (c.readCie w offset).toOption) s.cieEntries
  fde : Memo.Agrees (fun offset => (c.fdeAt w offset).toOption) s.fdeEntries
  rest : P s.fdeIndex s.cieLocRegs s.locRegs

variable {P : List (ℕ × BitVec 64) → (BitVec 64 → Option Locations) → EndMap.Map ℕ CachedRow → Prop}

theorem Agree.storeCie (h : Agree c w P s) {cie : DwarfCie} (hcie : c.readCie w offset = .ok cie) :
    Agree c w P (s.storeCie offset cie) :=
  ⟨h.cie.update (toOption_eq_some.mpr hcie), h.fde, h.rest⟩

theorem Agree.storeFde (h : Agree c w P s) {fde : DwarfFde} (hfde : c.fdeAt w offset = .ok fde) :
    Agree c w P (s.storeFde offset fde) :=
  ⟨h.cie, h.fde.update (toOption_eq_some.mpr hfde), h.rest⟩

open Through (Gives)

theorem gives_getCieFromOffset (offset : BitVec 64) :
    Gives (Agree c w P) (c.getCieFromOffset w offset) (c.readCie w offset) :=
  Gives.lookup (fun _ h cie hc => toOption_eq_some.mp (h.cie offset cie hc)) (fun _ h _ => h.storeCie)
    (Gives.ofResult _)

theorem gives_readFde (entryEnd value : BitVec 64) (is64 : Bool) (off : BitVec 64) :
    Gives (Agree c w P) (c.readFde w entryEnd value is64 off) (c.plainFde w entryEnd value is64 off) :=
  Gives.bind (gives_getCieFromOffset _) fun _ _ => Gives.ofResult _

theorem gives_getFdeFromOffset (offset : BitVec 64) :
    Gives (Agree c w P) (c.getFdeFromOffset w offset) (c.fdeAt w offset) := by
  refine Gives.lookup (fun _ h fde hf => toOption_eq_some.mp (h.fde offset fde hf)) (fun _ h _ => h.storeFde) ?_
  refine Gives.bind (Gives.ofResult _) fun ⟨⟨entryEnd, value, is64⟩, off⟩ _ => ?_
  dsimp only
  split
  · exact Gives.ofResult _
  · exact Gives.bind (gives_readFde entryEnd value is64 off) fun _ _ => Gives.pure _

/-! ## The scanned entries -/

/-- An entry of the scan: if it is an FDE, it is the one at its offset. -/
theorem getNextCieOrFde_spec (h : Agree c w P s) {r : Result NextEntry}
    (hn : c.getNextCieOrFde w offset s = some (r, s')) :
    Agree c w P s' ∧ ∀ next, r = .ok next → ∀ fde, next.fde = some fde → c.fdeAt w offset = .ok fde := by
  unfold DwarfSection.getNextCieOrFde at hn
  unfold DwarfSection.fdeAt
  cases hh : c.readEntryHeader offset with
  | error e =>
    rw [hh] at hn
    cases hn
    exact ⟨h, nofun⟩
  | ok header =>
    obtain ⟨⟨entryEnd, value, is64⟩, off⟩ := header
    rw [hh, Through.bind_ok rfl] at hn
    dsimp only [bind_ok] at hn ⊢
    by_cases hcie : isCie c.kind value is64 = true
    · rw [if_pos hcie, Through.bind_ok rfl] at hn
      cases hc : s.cieEntries offset with
      | some cie =>
        rw [hc] at hn
        cases hn
        exact ⟨h, fun next hr => by cases hr; exact nofun⟩
      | none =>
        rw [hc] at hn
        cases hfill : c.fillInCie w (cieHeader entryEnd is64) off with
        | error e =>
          dsimp only at hn
          rw [hfill] at hn
          cases hn
          exact ⟨h, nofun⟩
        | ok filled =>
          obtain ⟨cie, cursor⟩ := filled
          dsimp only at hn
          rw [hfill] at hn
          cases hn
          refine ⟨h.storeCie ?_, fun next hr => by cases hr; exact nofun⟩
          have hheader : c.fillInCieHeader offset = .ok (cieHeader entryEnd is64, off) := by
            rw [DwarfSection.fillInCieHeader, hh, bind_ok]
            exact if_pos hcie
          rw [DwarfSection.readCie, hheader, bind_ok]
          dsimp only
          rw [hfill]
          rfl
    · rw [if_neg hcie] at hn ⊢
      obtain ⟨s'', hfde, h''⟩ := gives_readFde (c := c) (w := w) (P := P) entryEnd value is64 off s h
      cases hp : c.plainFde w entryEnd value is64 off with
      | error e =>
        rw [hp] at hfde
        rw [Through.bind_error hfde] at hn
        cases hn
        exact ⟨h'', nofun⟩
      | ok fde =>
        rw [hp] at hfde
        rw [Through.bind_ok hfde] at hn
        cases hn
        exact ⟨h'', fun next hr fde hf => by cases hr; cases hf; rfl⟩

/-- The scan caches what agrees, and finds FDEs that are at their offsets. -/
theorem scan_spec : ∀ {fuel : ℕ} {offset : BitVec 64} {s s' : SectionCaches}
    {r : Result (List (BitVec 64 × DwarfFde))}, Agree c w P s → c.scan w fuel offset s = some (r, s') →
    Agree c w P s' ∧ ∀ entries, r = .ok entries → ∀ e ∈ entries, c.fdeAt w e.1 = .ok e.2
  | 0, _, _, _, _, _, h => by cases h
  | fuel + 1, offset, s, s', r, hs, h => by
    rw [DwarfSection.scan] at h
    split at h
    · rw [Through.attempt_bind, Option.bind_eq_some_iff] at h
      obtain ⟨⟨next, s₁⟩, hn, h⟩ := h
      obtain ⟨hs₁, hfde⟩ := getNextCieOrFde_spec hs hn
      cases next with
      | error e =>
        cases h
        exact ⟨hs₁, fun entries hr => by cases hr; exact nofun⟩
      | ok next =>
        have hfound : ∀ e ∈ next.fde.toList.map (offset, ·), c.fdeAt w e.1 = .ok e.2 := by
          intro e he
          obtain ⟨fde, hf, rfl⟩ := List.mem_map.mp he
          exact hfde next rfl fde (Option.mem_toList.mp hf)
        dsimp only at h
        split at h
        · cases h
          exact ⟨hs₁, fun entries hr => by cases hr; exact hfound⟩
        · rcases Through.bind_eq_some h with ⟨e, s₂, hx, rfl, rfl⟩ | ⟨rest, s₂, hx, hr⟩
          · exact ⟨(scan_spec hs₁ hx).1, nofun⟩
          · obtain ⟨hs₂, hrest⟩ := scan_spec hs₁ hx
            cases hr
            refine ⟨hs₂, fun entries hr e he => ?_⟩
            cases hr
            rcases List.mem_append.mp he with he | he
            · exact hfound e he
            · exact hrest rest rfl e he
    · cases h
      exact ⟨hs, fun entries hr => by cases hr; exact nofun⟩

/-! ## Lookup -/

/-- The FDE of an entry of the index covers the points of its range. -/
theorem fde_of_mem_index {entries : List (BitVec 64 × DwarfFde)} {e : ℕ × (ℕ × BitVec 64)}
    (he : e ∈ (entries.foldl insertFde EndMap.Map.empty).entries) {p : ℕ} (hlo : e.2.1 ≤ p) (hhi : p < e.1) :
    ∃ fde, (entries.find? fun e => e.2.holds p) = some (e.2.2, fde) ∧ (e.2.2, fde) ∈ entries ∧
      fde.holds p = true := by
  obtain ⟨hapart, hoffset⟩ := foldl_insertFde_spec entries EndMap.Apart.empty
  have hat := hoffset p
  rw [offsetAt, hapart.valueAt_eq_some.mpr ⟨e, he, hlo, hhi, rfl⟩] at hat
  cases hf : entries.find? fun e => e.2.holds p with
  | none =>
    rw [hf] at hat
    cases hat
  | some entry =>
    rw [hf] at hat
    have hfst : e.2.2 = entry.1 := Option.some.inj hat
    refine ⟨entry.2, ?_, ?_, List.find?_some (p := fun e : BitVec 64 × DwarfFde => e.2.holds p) hf⟩
    · rw [hfst]
    · rw [hfst]
      exact List.mem_of_find?_eq_some hf

theorem find?_of_no_range {entries : List (BitVec 64 × DwarfFde)} {p : ℕ}
    (h : EndMap.valueAt Prod.fst (entries.foldl insertFde EndMap.Map.empty) p = none) :
    (entries.find? fun e => e.2.holds p) = none := by
  have hat := (foldl_insertFde_spec entries EndMap.Apart.empty).2 p
  rw [offsetAt, h] at hat
  cases hf : entries.find? fun e => e.2.holds p with
  | none => rfl
  | some entry =>
    rw [hf] at hat
    cases hat

theorem indexOf_ne_nil {entries : List (BitVec 64 × DwarfFde)} {e : BitVec 64 × DwarfFde} (he : e ∈ entries) {p : ℕ}
    (hp : e.2.holds p = true) : indexOf entries ≠ [] := by
  intro hnil
  have hentries : (entries.foldl insertFde EndMap.Map.empty).entries = [] := List.map_eq_nil_iff.mp hnil
  have hnone : EndMap.valueAt Prod.fst (entries.foldl insertFde EndMap.Map.empty) p = none := by
    rw [EndMap.valueAt, EndMap.Map.upperBound, hentries]
    rfl
  exact List.find?_eq_none.mp (find?_of_no_range hnone) e he hp

/-- The first FDE of the section that covers a pc. -/
def coveringFde (entries : List (BitVec 64 × DwarfFde)) (pc : BitVec 64) : Option DwarfFde :=
  (entries.find? fun e => e.2.holds pc.toNat).map Prod.snd

/-- The entry of the index for a pc is that of the FDE that covers it, if any
does: else the FDE of the entry begins later. -/
theorem find?_indexOf {entries : List (BitVec 64 × DwarfFde)} (hfdeAt : ∀ e ∈ entries, c.fdeAt w e.1 = .ok e.2)
    (pc : BitVec 64) :
    match (indexOf entries).find? fun e => decide (pc.toNat < e.1) with
    | none => coveringFde entries pc = none
    | some (_, offset) => ∃ fde, c.fdeAt w offset = .ok fde ∧
        coveringFde entries pc = if fde.pcStart ≤ pc then some fde else none := by
  have hindex : ((indexOf entries).find? fun e => decide (pc.toNat < e.1)) =
      ((entries.foldl insertFde EndMap.Map.empty).upperBound pc.toNat).map fun e => (e.1, e.2.2) :=
    List.find?_map ..
  have hapart := (foldl_insertFde_spec entries EndMap.Apart.empty).1
  rw [hindex, coveringFde]
  cases hu : (entries.foldl insertFde EndMap.Map.empty).upperBound pc.toNat with
  | none =>
    have hnone : EndMap.valueAt Prod.fst (entries.foldl insertFde EndMap.Map.empty) pc.toNat = none := by
      rw [EndMap.valueAt, hu]
      rfl
    exact congrArg _ (find?_of_no_range hnone)
  | some e =>
    obtain ⟨he, hlt, -⟩ := EndMap.Map.upperBound_eq_some.mp hu
    have hrange := hapart.nonempty e he
    -- The entry belongs to an FDE that covers its last point.
    obtain ⟨fde, -, hmem, hlast⟩ := fde_of_mem_index he (p := e.1 - 1) (by omega) (by omega)
    rw [DwarfFde.holds, decide_eq_true_eq] at hlast
    refine ⟨fde, hfdeAt _ hmem, ?_⟩
    by_cases hstart : e.2.1 ≤ pc.toNat
    · obtain ⟨fde', hfind, hmem', hholds⟩ := fde_of_mem_index he hstart hlt
      have hsame : fde' = fde := Except.ok.inj ((hfdeAt _ hmem').symm.trans (hfdeAt _ hmem))
      rw [DwarfFde.holds, decide_eq_true_eq, hsame] at hholds
      rw [hfind, if_pos (show fde.pcStart ≤ pc from hholds.1), hsame]
      rfl
    · have hnone : EndMap.valueAt Prod.fst (entries.foldl insertFde EndMap.Map.empty) pc.toNat = none := by
        rw [EndMap.valueAt, hu]
        exact if_neg hstart
      have hfind := find?_of_no_range hnone
      rw [hfind, if_neg]
      · rfl
      · intro hle
        refine List.find?_eq_none.mp hfind _ hmem ?_
        rw [DwarfFde.holds, decide_eq_true_eq]
        exact ⟨hle, show pc.toNat < fde.pcEnd.toNat by omega⟩

/-- Before the first lookup nothing is cached, and after it there is the index
of what the scan found; of what is cached for rows `Q` is known. -/
def Indexed (c : DwarfSection) (w : ℕ) (entries : List (BitVec 64 × DwarfFde))
    (Q : (BitVec 64 → Option Locations) → EndMap.Map ℕ CachedRow → Prop) (s : SectionCaches) : Prop :=
  s = SectionCaches.empty ∨ Agree c w (fun index cieLocRegs locRegs => index = indexOf entries ∧ Q cieLocRegs locRegs) s

section Lookup

variable {Q : (BitVec 64 → Option Locations) → EndMap.Map ℕ CachedRow → Prop} {fuel : ℕ}
  {entries : List (BitVec 64 × DwarfFde)} {scanned : SectionCaches}
  (hscan : c.scan w fuel c.entriesOffset SectionCaches.empty = some (.ok entries, scanned))
include hscan

theorem buildFdeIndex_empty (hQ : Q (fun _ => none) EndMap.Map.empty) :
    ∃ s', c.buildFdeIndex w fuel SectionCaches.empty = some (.ok (), s') ∧
      Agree c w (fun index cieLocRegs locRegs => index = indexOf entries ∧ Q cieLocRegs locRegs) s' := by
  have hempty : Agree c w (fun _ cieLocRegs locRegs => Q cieLocRegs locRegs) SectionCaches.empty :=
    ⟨Memo.agrees_empty _, Memo.agrees_empty _, hQ⟩
  obtain ⟨h, -⟩ := scan_spec hempty hscan
  refine ⟨{ scanned with fdeIndex := indexOf entries }, ?_, h.cie, h.fde, rfl, h.rest⟩
  rw [DwarfSection.buildFdeIndex, Through.bind_ok hscan]
  rfl

theorem gives_fdeFromIndex (pc : BitVec 64) :
    Gives (Agree c w fun index cieLocRegs locRegs => index = indexOf entries ∧ Q cieLocRegs locRegs)
      (c.fdeFromIndex w pc) (.ok (coveringFde entries pc)) := by
  have hempty : Agree c w (fun _ _ _ => True) SectionCaches.empty := ⟨Memo.agrees_empty _, Memo.agrees_empty _, trivial⟩
  have hspec := find?_indexOf ((scan_spec hempty hscan).2 entries rfl) pc
  refine Gives.get_bind fun s hs => ?_
  rw [hs.rest.1]
  cases hf : (indexOf entries).find? fun e => decide (pc.toNat < e.1) with
  | none =>
    rw [hf] at hspec
    exact ⟨s, by rw [hspec]; rfl, hs⟩
  | some e =>
    rw [hf] at hspec
    obtain ⟨fde, hfde, hcover⟩ := hspec
    obtain ⟨s', hget, hs'⟩ := gives_getFdeFromOffset e.2 s hs
    refine ⟨s', ?_, hs'⟩
    rw [hfde] at hget
    dsimp only
    rw [Through.attempt_bind, hget, hcover]
    rfl

theorem getFdeFromPc_eq (hne : indexOf entries ≠ []) (hQ : Q (fun _ => none) EndMap.Map.empty)
    (hs : Indexed c w entries Q s) (pc : BitVec 64) :
    ∃ s', c.getFdeFromPc w fuel pc s = some (.ok (coveringFde entries pc), s') ∧
      Agree c w (fun index cieLocRegs locRegs => index = indexOf entries ∧ Q cieLocRegs locRegs) s' := by
  unfold DwarfSection.getFdeFromPc
  rw [Through.bind_ok (show (get : SectionM SectionCaches) s = some (.ok s, s) from rfl)]
  rcases hs with rfl | hs
  · obtain ⟨s₁, hs₁, hagree⟩ := buildFdeIndex_empty hscan hQ
    obtain ⟨s₂, hs₂, hagree₂⟩ := gives_fdeFromIndex hscan pc s₁ hagree
    exact ⟨s₂, (Through.bind_ok hs₁).trans hs₂, hagree₂⟩
  · have hfull : ¬ s.fdeIndex.isEmpty = true := by rwa [hs.rest.1, List.isEmpty_iff]
    obtain ⟨s₂, hs₂, hagree₂⟩ := gives_fdeFromIndex hscan pc s hs
    rw [if_neg hfull]
    exact ⟨s₂, hs₂, hagree₂⟩

/-- **The FDE of a pc**: where the scan of a section ends, and some FDE it finds
has a range, in any run of lookups each gives the first FDE of the section that
covers its pc, if there is one. -/
theorem getFdeFromPc_run (hne : indexOf entries ≠ []) (pcs : List (BitVec 64)) :
    ∃ s', pcs.mapM (c.getFdeFromPc w fuel) SectionCaches.empty = some (.ok (pcs.map (coveringFde entries)), s') := by
  have hgives (pc : BitVec 64) : Gives (Indexed c w entries fun _ _ => True) (c.getFdeFromPc w fuel pc)
      (.ok (coveringFde entries pc)) := fun s hs => by
    obtain ⟨s', hs', hagree⟩ := getFdeFromPc_eq hscan hne trivial hs pc
    exact ⟨s', hs', .inr hagree⟩
  have hrun := Gives.mapM hgives pcs
  obtain ⟨s', hs', -⟩ := hrun SectionCaches.empty (.inl rfl)
  have hpure : pcs.mapM (fun pc => (.ok (coveringFde entries pc) : Result _)) = .ok (pcs.map (coveringFde entries)) :=
    List.mapM_pure
  rw [hpure] at hs'
  exact ⟨s', hs'⟩

end Lookup

/-- There is no index yet, or the one of these FDEs. -/
abbrev MaybeIndexed (c : DwarfSection) (w : ℕ) (entries : List (BitVec 64 × DwarfFde)) (s : SectionCaches) : Prop :=
  Agree c w (fun index _ _ => index = [] ∨ index = indexOf entries) s

/-- Where the scan does not depend on what is cached, neither does a lookup. -/
theorem gives_getFdeFromPc {entries : List (BitVec 64 × DwarfFde)} {fuel : ℕ}
    (hscan : Gives (MaybeIndexed c w entries) (c.scan w fuel c.entriesOffset) (.ok entries)) (pc : BitVec 64) :
    Gives (MaybeIndexed c w entries) (c.getFdeFromPc w fuel pc) (.ok (coveringFde entries pc)) := by
  obtain ⟨scanned, hempty, -⟩ := hscan SectionCaches.empty ⟨Memo.agrees_empty _, Memo.agrees_empty _, .inl rfl⟩
  have hindexed (s : SectionCaches)
      (hs : Agree c w (fun index _ _ => index = indexOf entries ∧ True) s) :
      ∃ s', c.fdeFromIndex w pc s = some (.ok (coveringFde entries pc), s') ∧ MaybeIndexed c w entries s' := by
    obtain ⟨s', hs', hagree⟩ := gives_fdeFromIndex (Q := fun _ _ => True) hempty pc s hs
    exact ⟨s', hs', hagree.cie, hagree.fde, .inr hagree.rest.1⟩
  unfold DwarfSection.getFdeFromPc
  refine Gives.get_bind fun s hs => ?_
  by_cases hnil : s.fdeIndex.isEmpty = true
  · obtain ⟨s₁, hs₁, hagree⟩ := hscan s hs
    have hbuild : c.buildFdeIndex w fuel s = some (.ok (), { s₁ with fdeIndex := indexOf entries }) := by
      rw [DwarfSection.buildFdeIndex, Through.bind_ok hs₁]
      rfl
    obtain ⟨s₂, hs₂, hagree₂⟩ := hindexed { s₁ with fdeIndex := indexOf entries } ⟨hagree.cie, hagree.fde, rfl, trivial⟩
    refine ⟨s₂, ?_, hagree₂⟩
    rw [if_pos hnil]
    exact (Through.bind_ok hbuild).trans hs₂
  · have hindex : s.fdeIndex = indexOf entries := by
      refine hs.rest.resolve_left fun h => hnil ?_
      rw [h]
      rfl
    obtain ⟨s₂, hs₂, hagree₂⟩ := hindexed s ⟨hs.cie, hs.fde, hindex, trivial⟩
    refine ⟨s₂, ?_, hagree₂⟩
    rw [if_neg hnil]
    exact hs₂

/-- `.eh_frame` with a CIE and a function of sixteen bytes. -/
def oneFunction : DwarfSection :=
  { memory := Memory.buffer [9, 0, 0, 0, 0, 0, 0, 0, 1, 0, 1, 0x78, 16,
      12, 0, 0, 0, 17, 0, 0, 0, 0xeb, 0x0f, 0, 0, 16, 0, 0, 0] (by decide)
    kind := .ehFrame, sectionBias := 0, entriesOffset := 0, entriesEnd := 29 }

theorem getFdeFromPc_run_twice :
    ∃ fde s', [0x100f, 0x1010].mapM (oneFunction.getFdeFromPc 64 3) SectionCaches.empty =
      some (.ok [some fde, none], s') := by
  obtain ⟨s, hscan⟩ : ∃ s, oneFunction.scan 64 3 0 SectionCaches.empty = some (.ok [(13,
      { cieOffset := 0, cfaInstructionsOffset := 29, cfaInstructionsEnd := 29, pcStart := 0x1000, pcEnd := 0x1010
        cie := { version := 1, fdeAddressEncoding := DW_EH_PE_sdata4, lsdaEncoding := DW_EH_PE_omit
                 augmentationString := [0], cfaInstructionsOffset := 13, cfaInstructionsEnd := 13
                 codeAlignmentFactor := 1, dataAlignmentFactor := -8, returnAddressRegister := 16 } })], s) := ⟨_, rfl⟩
  exact ⟨_, getFdeFromPc_run hscan (by decide) [0x100f, 0x1010]⟩

end AllocHook.Unwindstack
