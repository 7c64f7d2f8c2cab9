/-
`.eh_frame` as assemblers write it (`DwarfEhFrame.h`, `DwarfSection.cpp`): a
CIE of version 1 whose augmentation is `zR`, or `zRS` for a signal frame, with
four-byte pcs relative to where they are, and the FDEs that use it.

The scan of a section written so finds the functions it was written from, in
their order (`scan_encode`).
-/
import AllocHook.Unwindstack.DwarfRows
import AllocHook.Unwindstack.DwarfSection

namespace AllocHook.Unwindstack

open Leb128

variable {w : ℕ}

/-- What a CIE is written from. -/
structure CieSource (w : ℕ) where
  codeAlignmentFactor : BitVec 64
  dataAlignmentFactor : Offset 64
  returnAddressRegister : BitVec 8
  isSignalFrame : Bool
  program : List (Instruction w)

/-- What an FDE is written from: a function. -/
structure FdeSource (w : ℕ) where
  pcStart : BitVec 64
  length : ℕ
  program : List (Instruction w)

/-- `DW_EH_PE_pcrel | DW_EH_PE_sdata4`. -/
def pcrelSdata4 : BitVec 8 := 0x1b

/-- The length of an entry, its id or pointer, and the rest. -/
def entryBytes (value : ℕ) (content : List (BitVec 8)) : List (BitVec 8) :=
  fixed (4 + content.length) 4 ++ (fixed value 4 ++ content)

def CieSource.augmentation (cie : CieSource w) : List (BitVec 8) :=
  if cie.isSignalFrame then [0x7a, 0x52, 0x53, 0] else [0x7a, 0x52, 0]

def CieSource.fields (cie : CieSource w) : List (BitVec 8) :=
  [1] ++ (cie.augmentation ++ (unsigned cie.codeAlignmentFactor.toNat ++
    (signed cie.dataAlignmentFactor.1.toInt ++ ([cie.returnAddressRegister] ++ ([1] ++ [pcrelSdata4])))))

def CieSource.content (cie : CieSource w) : List (BitVec 8) := cie.fields ++ encodeProgram cie.program

def CieSource.bytes (cie : CieSource w) : List (BitVec 8) := entryBytes 0 cie.content

/-- The pc of an FDE whose entry is here, relative to where it is written. -/
def FdeSource.relative (fde : FdeSource w) (bias : BitVec 64) (off : ℕ) : BitVec 64 :=
  fde.pcStart - bias - BitVec.ofNat 64 (off + 8)

def FdeSource.fields (fde : FdeSource w) (bias : BitVec 64) (off : ℕ) : List (BitVec 8) :=
  fixed ((fde.relative bias off).setWidth 32).toNat 4 ++ (fixed fde.length 4 ++ [0])

def FdeSource.content (fde : FdeSource w) (bias : BitVec 64) (off : ℕ) : List (BitVec 8) :=
  fde.fields bias off ++ encodeProgram fde.program

def FdeSource.bytes (fde : FdeSource w) (bias : BitVec 64) (cieOffset off : ℕ) : List (BitVec 8) :=
  entryBytes (off + 4 - cieOffset) (fde.content bias off)

/-- The FDEs of a CIE, one after the other. -/
def fdesBytes (bias : BitVec 64) (cieOffset : ℕ) : ℕ → List (FdeSource w) → List (BitVec 8)
  | _, [] => []
  | off, fde :: fdes =>
    fde.bytes bias cieOffset off ++ fdesBytes bias cieOffset (off + (fde.bytes bias cieOffset off).length) fdes

/-- Each CIE, with its FDEs after it. -/
def sectionBytes (bias : BitVec 64) : ℕ → List (CieSource w × List (FdeSource w)) → List (BitVec 8)
  | _, [] => []
  | off, (cie, fdes) :: rest =>
    let fdesOffset := off + cie.bytes.length
    let bytes := fdesBytes bias off fdesOffset fdes
    cie.bytes ++ (bytes ++ sectionBytes bias (fdesOffset + bytes.length) rest)

/-! ## What is read back -/

def CieSource.decode (cie : CieSource w) (off : ℕ) : DwarfCie :=
  { version := 1
    fdeAddressEncoding := pcrelSdata4
    lsdaEncoding := DW_EH_PE_omit
    augmentationString := cie.augmentation
    cfaInstructionsOffset := BitVec.ofNat 64 (off + 8 + cie.fields.length)
    cfaInstructionsEnd := BitVec.ofNat 64 (off + cie.bytes.length)
    codeAlignmentFactor := cie.codeAlignmentFactor
    dataAlignmentFactor := cie.dataAlignmentFactor
    returnAddressRegister := cie.returnAddressRegister.setWidth 64
    isSignalFrame := cie.isSignalFrame }

def FdeSource.decode (fde : FdeSource w) (bias : BitVec 64) (cie : DwarfCie) (cieOffset off : ℕ) : DwarfFde :=
  { cieOffset := BitVec.ofNat 64 cieOffset
    cfaInstructionsOffset := BitVec.ofNat 64 (off + 17)
    cfaInstructionsEnd := BitVec.ofNat 64 (off + (fde.bytes bias cieOffset off).length)
    pcStart := fde.pcStart
    pcEnd := BitVec.ofNat 64 fde.length + fde.pcStart
    cie }

/-- An FDE with its CIE, and where they are. -/
structure PlacedFde (w : ℕ) where
  cieOffset : ℕ
  cie : CieSource w
  off : ℕ
  fde : FdeSource w

def PlacedFde.entry (bias : BitVec 64) (p : PlacedFde w) : BitVec 64 × DwarfFde :=
  (BitVec.ofNat 64 p.off, p.fde.decode bias (p.cie.decode p.cieOffset) p.cieOffset p.off)

def placeFdes (bias : BitVec 64) (cie : CieSource w) (cieOffset : ℕ) : ℕ → List (FdeSource w) → List (PlacedFde w)
  | _, [] => []
  | off, fde :: fdes =>
    { cieOffset, cie, off, fde } :: placeFdes bias cie cieOffset (off + (fde.bytes bias cieOffset off).length) fdes

def placeSection (bias : BitVec 64) : ℕ → List (CieSource w × List (FdeSource w)) → List (PlacedFde w)
  | _, [] => []
  | off, (cie, fdes) :: rest =>
    let fdesOffset := off + cie.bytes.length
    placeFdes bias cie off fdesOffset fdes ++
      placeSection bias (fdesOffset + (fdesBytes bias off fdesOffset fdes).length) rest

def decodeSection (bias : BitVec 64) (off : ℕ) (source : List (CieSource w × List (FdeSource w))) :
    List (BitVec 64 × DwarfFde) :=
  (placeSection bias off source).map (PlacedFde.entry bias)

/-! ## Entries -/

/-- A field read, and where the next one is. -/
theorem Reads.next {m : Memory} {α : Type} {read : BitVec 64 → Result (α × BitVec 64)} {bytes rest : List (BitVec 8)}
    {v : α} (h : Reads m read bytes v) {n : ℕ} (hb : m.Holds n (bytes ++ rest)) (hne : bytes ≠ []) :
    read (BitVec.ofNat 64 n) = .ok (v, BitVec.ofNat 64 (n + bytes.length)) ∧ m.Holds (n + bytes.length) rest := by
  obtain ⟨hbytes, hrest⟩ := holds_append.mp hb
  have hlt := hbytes.lt hne
  have hpos := List.length_pos_iff.mpr hne
  refine ⟨?_, hrest⟩
  rw [h (BitVec.ofNat 64 n), BitVec.ofNat_add]
  rwa [BitVec.toNat_ofNat, Nat.mod_eq_of_lt (by omega)]

theorem fixed_ne_nil (n : ℕ) : fixed n 4 ≠ [] := by simp [fixed]

theorem reads_fixed4 (d : DwarfMemory) {n : ℕ} (h : n < 2 ^ 32) :
    Reads d.memory (d.readUnsigned 4) (fixed n 4) (BitVec.ofNat 64 n) := reads_fixed (n := n) (by omega)

variable {c : DwarfSection} {off : ℕ} {value : ℕ} {content : List (BitVec 8)}

theorem length_entryBytes (value : ℕ) (content : List (BitVec 8)) :
    (entryBytes value content).length = 8 + content.length := by
  rw [entryBytes, List.length_append, List.length_append, length_fixed, length_fixed]
  omega

theorem length_cieBytes (cie : CieSource w) :
    cie.bytes.length = 8 + cie.fields.length + (encodeProgram cie.program).length := by
  rw [CieSource.bytes, length_entryBytes, CieSource.content, List.length_append]
  omega

theorem length_fdeBytes (fde : FdeSource w) (bias : BitVec 64) (cieOffset off : ℕ) :
    (fde.bytes bias cieOffset off).length = 17 + (encodeProgram fde.program).length := by
  rw [FdeSource.bytes, length_entryBytes, FdeSource.content, FdeSource.fields, List.length_append, List.length_append,
    List.length_append, length_fixed, length_fixed, List.length_singleton]
  omega

theorem holds_content {m : Memory} (hb : m.Holds off (entryBytes value content)) : m.Holds (off + 8) content := by
  have h := (holds_append.mp (holds_append.mp hb).2).2
  rwa [length_fixed, length_fixed, Nat.add_assoc] at h

theorem readEntryHeader_encode (hb : c.memory.Holds off (entryBytes value content)) (hvalue : value < 2 ^ 32)
    (hlen : 4 + content.length < 2 ^ 32 - 1) :
    c.readEntryHeader (BitVec.ofNat 64 off) = .ok ((BitVec.ofNat 64 (off + (entryBytes value content).length),
        BitVec.ofNat 64 value, false), BitVec.ofNat 64 (off + 8)) := by
  obtain ⟨hlength, hb⟩ := (reads_fixed4 (c.reader c.entriesOffset) (by omega)).next hb (fixed_ne_nil _)
  have hid := ((reads_fixed4 (c.reader c.entriesOffset) hvalue).next hb (fixed_ne_nil _)).1
  rw [length_fixed] at hlength hid
  rw [length_fixed] at hid
  have hne : BitVec.ofNat 64 (4 + content.length) ≠ 0xffffffff := by
    intro h
    have := congrArg BitVec.toNat h
    rw [BitVec.toNat_ofNat, Nat.mod_eq_of_lt (by omega)] at this
    have hmax : (0xffffffff : BitVec 64).toNat = 2 ^ 32 - 1 := rfl
    omega
  rw [DwarfSection.readEntryHeader, hlength, bind_ok]
  dsimp only
  rw [if_neg hne, hid, bind_ok, length_entryBytes, ← BitVec.ofNat_add,
    show off + 4 + (4 + content.length) = off + (8 + content.length) by omega]
  rfl

theorem reads_augmentation (d : DwarfMemory) : ∀ {letters : List (BitVec 8)} {left : ℕ}, 0 ∉ letters →
    letters.length < left → Reads d.memory (d.readAugmentation left) (letters ++ [0]) (letters ++ [0])
  | [], left + 1, _, _ => by
    intro off hoff
    rw [DwarfMemory.readAugmentation, readByte_of_holds 0 off hoff]
    rfl
  | letter :: letters, left + 1, h0, hlen => by
    have hne : letter ≠ 0 := fun h => h0 (h ▸ List.mem_cons_self)
    have hrest := reads_augmentation d (fun h => h0 (List.mem_cons_of_mem _ h)) (Nat.lt_of_succ_lt_succ hlen)
    refine (readByte_of_holds letter).bind (k := fun augValue off =>
      if augValue = 0 then (.ok ([0], off) : Result _)
      else do
        let r ← d.readAugmentation left off
        return (augValue :: r.1, r.2)) fun off hoff => ?_
    show (if letter = 0 then _ else d.readAugmentation left off >>= _) = _
    rw [if_neg hne, hrest off hoff]
    rfl

/-- A distance that four bytes hold. -/
def Near (v : BitVec 64) : Prop := (v.setWidth 32).signExtend 64 = v

theorem near_ofNat {n : ℕ} (h : n < 2 ^ 31) : Near (BitVec.ofNat 64 n) := by
  have hmsb : ((BitVec.ofNat 64 n).setWidth 32).msb = false := by
    rw [BitVec.msb_eq_decide, decide_eq_false_iff_not, BitVec.toNat_setWidth, BitVec.toNat_ofNat]
    omega
  rw [Near, BitVec.signExtend_eq_setWidth_of_msb_false hmsb]
  apply BitVec.eq_of_toNat_eq
  rw [BitVec.toNat_setWidth, BitVec.toNat_setWidth, BitVec.toNat_ofNat]
  omega

theorem reads_near (d : DwarfMemory) {v : BitVec 64} (hv : Near v) :
    Reads d.memory (d.readSigned 4) (fixed (v.setWidth 32).toNat 4) v := by
  have h := readSigned_of_holds (d := d) (fixed (v.setWidth 32).toNat 4)
  rw [length_fixed, littleEndian_fixed, show 256 ^ 4 = 2 ^ 32 from rfl, Nat.mod_eq_of_lt (v.setWidth 32).isLt,
    BitVec.ofNat_toNat] at h
  rwa [show ((v.setWidth 32).setWidth (8 * 4)).signExtend 64 = v from hv] at h

/-- A pc relative to where it is. -/
theorem reads_pcrelSdata4 (d : DwarfMemory) (hbias : d.pcOffset ≠ BitVec.ofNat 64 (2 ^ 63 - 1)) {v : BitVec 64}
    (hv : Near v) : Reads d.memory (d.readEncodedValue w pcrelSdata4) (fixed (v.setWidth 32).toNat 4)
      (v + d.pcOffset) := by
  intro off hoff
  have hdata : d.readData w pcrelSdata4 off = d.readSigned 4 off := rfl
  rw [DwarfMemory.readEncodedValue, if_neg (by decide), if_neg (by decide), hdata, reads_near d hv off hoff, bind_ok]
  dsimp only
  rw [show pcrelSdata4 &&& 0x70 = DW_EH_PE_pcrel from rfl, DwarfMemory.adjustEncodedValue, if_neg (by decide),
    if_pos rfl, if_neg hbias]
  rfl

theorem readAugmentations_encode (cie : CieSource w) {n n' : ℕ} {decoded : DwarfCie}
    (h : (c.reader c.entriesOffset).readByte (BitVec.ofNat 64 n) = .ok (pcrelSdata4, BitVec.ofNat 64 n')) :
    c.readAugmentations w cie.augmentation.tail decoded (BitVec.ofNat 64 n) =
      .ok ({ decoded with
        fdeAddressEncoding := pcrelSdata4
        isSignalFrame := cie.isSignalFrame || decoded.isSignalFrame }, BitVec.ofNat 64 n') := by
  have hr (cie : DwarfCie) : c.readAugmentationData w cie 0x52 (BitVec.ofNat 64 n) =
      .ok ({ cie with fdeAddressEncoding := pcrelSdata4 }, BitVec.ofNat 64 n') := by
    rw [DwarfSection.readAugmentationData]
    dsimp only
    rw [if_neg (by decide), if_neg (by decide), if_pos rfl, h]
    rfl
  cases hs : cie.isSignalFrame with
  | true =>
    rw [CieSource.augmentation, hs]
    show (c.readAugmentationData w decoded 0x52 _ >>= _) = _
    rw [hr]
    rfl
  | false =>
    rw [CieSource.augmentation, hs]
    show (c.readAugmentationData w decoded 0x52 _ >>= _) = _
    rw [hr]
    rfl

/-- A section that holds a CIE written from its source. -/
theorem fillInCie_encode (cie : CieSource w) (hb : c.memory.Holds (off + 8) cie.content) :
    c.fillInCie w (cieHeader (BitVec.ofNat 64 (off + cie.bytes.length)) false) (BitVec.ofNat 64 (off + 8)) =
        .ok (cie.decode off, BitVec.ofNat 64 (off + 8 + cie.fields.length)) ∧
      c.memory.Holds (off + 8 + cie.fields.length) (encodeProgram cie.program) := by
  have hprogram := (holds_append.mp hb).2
  refine ⟨?_, hprogram⟩
  have hfields := (holds_append.mp hb).1
  rw [CieSource.fields] at hfields
  let d := c.reader c.entriesOffset
  obtain ⟨hversion, hb⟩ := (readByte_of_holds (d := d) 1).next hfields (by simp)
  have haugmentation : Reads d.memory (d.readAugmentation (2 ^ 64)) cie.augmentation cie.augmentation := by
    unfold CieSource.augmentation
    split
    · exact reads_augmentation d (show 0 ∉ [0x7a, 0x52, 0x53] by decide) (by decide)
    · exact reads_augmentation d (show 0 ∉ [0x7a, 0x52] by decide) (by decide)
  obtain ⟨haug, hb⟩ := haugmentation.next hb (by unfold CieSource.augmentation; split <;> simp)
  obtain ⟨hcaf, hb⟩ := (reads_unsigned d cie.codeAlignmentFactor).next hb (terminated_unsigned _).ne_nil
  obtain ⟨hdaf, hb⟩ := (reads_signed d cie.dataAlignmentFactor.2).next hb (terminated_signed _).ne_nil
  have hra : Reads d.memory (d.readUnsigned 1) [cie.returnAddressRegister] (cie.returnAddressRegister.setWidth 64) := by
    have h := readUnsigned_of_holds (d := d) [cie.returnAddressRegister]
    rwa [littleEndian, List.map_singleton, Nat.ofDigits_singleton, BitVec.ofNat_toNat] at h
  obtain ⟨hra, hb⟩ := hra.next hb (by simp)
  have hlength := reads_unsigned d 1
  rw [show unsigned (1 : BitVec 64).toNat = [1] by rw [unsigned]; rfl] at hlength
  obtain ⟨hlength, hb⟩ := hlength.next hb (by simp)
  obtain ⟨hencoding, hb⟩ := (readByte_of_holds (d := d) pcrelSdata4).next
    (show d.memory.Holds _ ([pcrelSdata4] ++ []) by rwa [List.append_nil]) (by simp)
  have hhead : cie.augmentation.head? = some 0x7a := by unfold CieSource.augmentation; split <;> rfl
  rw [DwarfSection.fillInCie]
  dsimp only
  rw [show c.reader c.entriesOffset = d from rfl, hversion, bind_ok]
  dsimp only
  rw [if_neg (by decide), haug, bind_ok]
  dsimp only
  rw [if_neg (by decide)]
  simp only [pure, Except.pure, bind_ok]
  rw [hcaf, bind_ok]
  dsimp only
  rw [hdaf, bind_ok]
  dsimp only
  rw [if_pos trivial, hra, bind_ok]
  dsimp only
  rw [if_neg (not_not_intro hhead), hlength, bind_ok]
  dsimp only
  rw [readAugmentations_encode cie hencoding]
  have hsum : cie.fields.length = 1 + cie.augmentation.length + (unsigned cie.codeAlignmentFactor.toNat).length +
      (signed cie.dataAlignmentFactor.1.toInt).length + 1 + 1 + 1 := by
    simp only [CieSource.fields, List.length_append, List.length_singleton]
    omega
  rw [CieSource.decode, hsum]
  simp only [List.length_singleton, cieHeader]
  generalize cie.augmentation.length = a, (unsigned cie.codeAlignmentFactor.toNat).length = b,
    (signed cie.dataAlignmentFactor.1.toInt).length = n
  rw [show off + 8 + (1 + a + b + n + 1 + 1 + 1) = off + 8 + 1 + a + b + n + 1 + 1 + 1 by omega,
    BitVec.ofNat_add (off + 8 + 1 + a + b + n + 1 + 1) 1, Bool.or_false]
  rfl

theorem readCie_encode (hkind : c.kind = .ehFrame) (cie : CieSource w) (hb : c.memory.Holds off cie.bytes)
    (hlen : 4 + cie.content.length < 2 ^ 32 - 1) : c.readCie w (BitVec.ofNat 64 off) = .ok (cie.decode off) := by
  have hheader := readEntryHeader_encode hb (by decide) hlen
  rw [DwarfSection.readCie, DwarfSection.fillInCieHeader, hheader, bind_ok]
  dsimp only
  have hcie : isCie c.kind (BitVec.ofNat 64 0) false = true := by rw [hkind]; rfl
  rw [if_pos hcie]
  show (c.fillInCie w (cieHeader (BitVec.ofNat 64 (off + cie.bytes.length)) false) _ >>= _) = _
  rw [(fillInCie_encode cie (holds_content hb)).1]
  rfl

/-- An FDE can be written here. -/
structure FdeSource.Fits (fde : FdeSource w) (bias : BitVec 64) (cieOffset off : ℕ) : Prop where
  content : 4 + (fde.content bias off).length < 2 ^ 32 - 1
  pointer : off + 4 - cieOffset < 2 ^ 32
  length : fde.length < 2 ^ 31
  near : Near (fde.relative bias off)

theorem fillInFde_encode (hkind : c.kind = .ehFrame) (hbias : c.sectionBias ≠ BitVec.ofNat 64 (2 ^ 63 - 1))
    (cie : CieSource w) (fde : FdeSource w) {cieOffset : ℕ} (hfits : fde.Fits c.sectionBias cieOffset off)
    (hb : c.memory.Holds (off + 8) (fde.content c.sectionBias off)) :
    c.fillInFde w (cie.decode cieOffset) (BitVec.ofNat 64 (off + (fde.bytes c.sectionBias cieOffset off).length))
        (BitVec.ofNat 64 cieOffset) (BitVec.ofNat 64 (off + 8)) =
      .ok (fde.decode c.sectionBias (cie.decode cieOffset) cieOffset off, BitVec.ofNat 64 (off + 17)) ∧
      c.memory.Holds (off + 17) (encodeProgram fde.program) := by
  rw [FdeSource.content, FdeSource.fields, List.append_assoc, List.append_assoc] at hb
  obtain ⟨hstart, hb⟩ := (reads_pcrelSdata4 (w := w) (c.reader c.sectionBias) hbias hfits.near).next hb (fixed_ne_nil _)
  have hlength : Reads c.memory ((c.reader 0).readEncodedValue w pcrelSdata4) (fixed fde.length 4)
      (BitVec.ofNat 64 fde.length) := by
    have h := reads_pcrelSdata4 (w := w) (c.reader 0) (show (0 : BitVec 64) ≠ _ by decide) (near_ofNat hfits.length)
    rwa [BitVec.toNat_setWidth, BitVec.toNat_ofNat, Nat.mod_eq_of_lt (b := 2 ^ 64) (by have := hfits.length; omega),
      Nat.mod_eq_of_lt (by have := hfits.length; omega), show (c.reader 0).pcOffset = 0#64 from rfl,
      BitVec.add_zero] at h
  obtain ⟨hlength, hb⟩ := hlength.next hb (fixed_ne_nil _)
  have haug := reads_unsigned (c.reader 0) 0
  rw [show unsigned (0 : BitVec 64).toNat = [0] by rw [unsigned]; rfl] at haug
  obtain ⟨haug, hb⟩ := haug.next hb (by simp)
  rw [length_fixed] at hstart hlength haug hb
  rw [length_fixed] at hlength haug hb
  refine ⟨?_, hb⟩
  have hpc : c.adjustPcFromFde (fde.relative c.sectionBias off + (c.reader c.sectionBias).pcOffset)
      (BitVec.ofNat 64 (off + 8 + 4)) = fde.pcStart := by
    rw [DwarfSection.adjustPcFromFde, hkind, FdeSource.relative, BitVec.ofNat_add (off + 8) 4]
    show fde.pcStart - c.sectionBias - _ + c.sectionBias + (_ + 4#64) - 4 = _
    generalize BitVec.ofNat 64 (off + 8) = x
    grind
  have hz : (cie.decode cieOffset).augmentationString.head? = some 0x7a := by
    show cie.augmentation.head? = _
    unfold CieSource.augmentation
    split <;> rfl
  rw [DwarfSection.fillInFde]
  dsimp only
  rw [show (cie.decode cieOffset).segmentSize.setWidth 64 = 0#64 from rfl, BitVec.add_zero,
    show (cie.decode cieOffset).fdeAddressEncoding = pcrelSdata4 from rfl, hstart, bind_ok]
  dsimp only
  rw [hlength, bind_ok]
  dsimp only
  rw [if_pos hz, haug, bind_ok, hpc]
  have homit : (c.reader c.entriesOffset).readEncodedValue w (cie.decode cieOffset).lsdaEncoding
      (BitVec.ofNat 64 (off + 17)) = .ok (0, BitVec.ofNat 64 (off + 17)) := if_pos rfl
  have hoff : BitVec.ofNat 64 (off + 17) + (0 : BitVec 64) = BitVec.ofNat 64 (off + 17) := BitVec.add_zero _
  simp only [List.length_singleton, Nat.add_assoc, Nat.reduceAdd]
  rw [homit, bind_ok]
  dsimp only
  rw [hoff]
  rfl

section Section

variable {s : SectionCaches}
  {P : List (ℕ × BitVec 64) → (BitVec 64 → Option Locations) → EndMap.Map ℕ CachedRow → Prop}

theorem getNextCieOrFde_cie (hkind : c.kind = .ehFrame) (cie : CieSource w) (hb : c.memory.Holds off cie.bytes)
    (hlen : 4 + cie.content.length < 2 ^ 32 - 1) (hs : Agree c w P s) :
    ∃ n s', c.getNextCieOrFde w (BitVec.ofNat 64 off) s =
        some (.ok { fde := none
                    nextOffset := BitVec.ofNat 64 (off + cie.bytes.length)
                    cursor := BitVec.ofNat 64 n }, s') ∧
      n ≤ off + cie.bytes.length ∧ Agree c w P s' := by
  have hread := readCie_encode hkind cie hb hlen
  have hlength := length_cieBytes cie
  have hheader := readEntryHeader_encode hb (by decide) hlen
  unfold DwarfSection.getNextCieOrFde
  rw [hheader, Through.bind_ok rfl]
  dsimp only
  rw [if_pos (show isCie c.kind (BitVec.ofNat 64 0) false = true by rw [hkind]; rfl), Through.bind_ok rfl]
  cases hc : s.cieEntries (BitVec.ofNat 64 off) with
  | some _ => exact ⟨off + 8, s, rfl, by omega, hs⟩
  | none =>
    refine ⟨off + 8 + cie.fields.length, _, ?_, by omega, hs.storeCie hread⟩
    show (Through.ofResult (c.fillInCie w (cieHeader (BitVec.ofNat 64 (off + cie.bytes.length)) false) _) >>= _) s = _
    rw [(fillInCie_encode cie (holds_content hb)).1, Through.bind_ok rfl]
    rfl

theorem getNextCieOrFde_fde (hkind : c.kind = .ehFrame) (hbias : c.sectionBias ≠ BitVec.ofNat 64 (2 ^ 63 - 1))
    (cie : CieSource w) (fde : FdeSource w) {cieOffset : ℕ} (hcie : c.memory.Holds cieOffset cie.bytes)
    (hlen : 4 + cie.content.length < 2 ^ 32 - 1) (hle : cieOffset ≤ off)
    (hfits : fde.Fits c.sectionBias cieOffset off) (hb : c.memory.Holds off (fde.bytes c.sectionBias cieOffset off))
    (hs : Agree c w P s) :
    ∃ n s', c.getNextCieOrFde w (BitVec.ofNat 64 off) s =
        some (.ok { fde := some (fde.decode c.sectionBias (cie.decode cieOffset) cieOffset off)
                    nextOffset := BitVec.ofNat 64 (off + (fde.bytes c.sectionBias cieOffset off).length)
                    cursor := BitVec.ofNat 64 n }, s') ∧
      n ≤ off + (fde.bytes c.sectionBias cieOffset off).length ∧ Agree c w P s' := by
  have hheader := readEntryHeader_encode hb hfits.pointer hfits.content
  have hnotCie : ¬ isCie c.kind (BitVec.ofNat 64 (off + 4 - cieOffset)) false = true := by
    have hpointer := hfits.pointer
    rw [hkind, isCie, beq_iff_eq]
    intro h
    have hz := congrArg BitVec.toNat h
    rw [BitVec.toNat_ofNat, Nat.mod_eq_of_lt (by omega)] at hz
    have : (cie32Value .ehFrame).toNat = 0 := rfl
    simp only [Bool.false_eq_true, if_false] at hz
    omega
  have hoffset : c.cieOffset (BitVec.ofNat 64 (off + 4 - cieOffset)) false (BitVec.ofNat 64 (off + 8)) =
      BitVec.ofNat 64 cieOffset := by
    rw [DwarfSection.cieOffset, if_neg (by decide), DwarfSection.getCieOffsetFromFde32, hkind]
    show BitVec.ofNat 64 (off + 8) - BitVec.ofNat 64 (off + 4 - cieOffset) - 4#64 = _
    rw [show off + 8 = (off + 4 - cieOffset) + cieOffset + 4 by omega, BitVec.ofNat_add, BitVec.ofNat_add]
    grind
  have hplain : c.plainFde w (BitVec.ofNat 64 (off + (fde.bytes c.sectionBias cieOffset off).length))
      (BitVec.ofNat 64 (off + 4 - cieOffset)) false (BitVec.ofNat 64 (off + 8)) =
      .ok (fde.decode c.sectionBias (cie.decode cieOffset) cieOffset off, BitVec.ofNat 64 (off + 17)) := by
    rw [DwarfSection.plainFde, hoffset, readCie_encode hkind cie hcie hlen]
    exact (fillInFde_encode hkind hbias cie fde hfits (holds_content hb)).1
  obtain ⟨s', hread, hs'⟩ := gives_readFde (c := c) (w := w) (P := P)
    (BitVec.ofNat 64 (off + (fde.bytes c.sectionBias cieOffset off).length)) (BitVec.ofNat 64 (off + 4 - cieOffset))
    false (BitVec.ofNat 64 (off + 8)) s hs
  rw [hplain] at hread
  refine ⟨off + 17, s', ?_, ?_, hs'⟩
  · unfold DwarfSection.getNextCieOrFde
    rw [hheader, Through.bind_ok rfl]
    dsimp only
    rw [if_neg hnotCie]
    exact Through.bind_ok hread
  · rw [length_fdeBytes]
    omega

open Through (Gives)

/-- The scan goes on after an entry. -/
theorem gives_scan_next {fuel : ℕ} {fde : Option DwarfFde} {stop : ℕ} {rest : List (BitVec 64 × DwarfFde)}
    (hnext : ∀ s, Agree c w P s → ∃ n s', c.getNextCieOrFde w (BitVec.ofNat 64 off) s =
        some (.ok { fde, nextOffset := BitVec.ofNat 64 stop, cursor := BitVec.ofNat 64 n }, s') ∧
      n ≤ stop ∧ Agree c w P s')
    (hlt : off < stop) (hstop : stop ≤ c.entriesEnd.toNat)
    (hrest : Gives (Agree c w P) (c.scan w fuel (BitVec.ofNat 64 stop)) (.ok rest)) :
    Gives (Agree c w P) (c.scan w (fuel + 1) (BitVec.ofNat 64 off))
      (.ok (fde.toList.map (BitVec.ofNat 64 off, ·) ++ rest)) := by
  intro s hs
  have hend := c.entriesEnd.isLt
  obtain ⟨n, s', hn, hle, hs'⟩ := hnext s hs
  have hinside : BitVec.ofNat 64 off < c.entriesEnd := by
    rw [BitVec.lt_def, BitVec.toNat_ofNat, Nat.mod_eq_of_lt (by omega)]
    omega
  have hpast : ¬ BitVec.ofNat 64 stop < BitVec.ofNat 64 n := by
    rw [BitVec.lt_def, BitVec.toNat_ofNat, BitVec.toNat_ofNat, Nat.mod_eq_of_lt (by omega), Nat.mod_eq_of_lt (by omega)]
    omega
  obtain ⟨s'', hscan, hs''⟩ := hrest s' hs'
  refine ⟨s'', ?_, hs''⟩
  rw [DwarfSection.scan, if_pos hinside, Through.attempt_bind, hn, Option.bind_some]
  dsimp only
  rw [if_neg hpast, Through.bind_ok hscan]
  rfl

/-- The FDEs of a CIE can be written from here on. -/
def FdesFit (bias : BitVec 64) (cieOffset : ℕ) : ℕ → List (FdeSource w) → Prop
  | _, [] => True
  | off, fde :: fdes => fde.Fits bias cieOffset off ∧
      FdesFit bias cieOffset (off + (fde.bytes bias cieOffset off).length) fdes

/-- A section can be written from here on. -/
def SectionFits (bias : BitVec 64) : ℕ → List (CieSource w × List (FdeSource w)) → Prop
  | _, [] => True
  | off, (cie, fdes) :: rest =>
    let fdesOffset := off + cie.bytes.length
    4 + cie.content.length < 2 ^ 32 - 1 ∧ FdesFit bias off fdesOffset fdes ∧
      SectionFits bias (fdesOffset + (fdesBytes bias off fdesOffset fdes).length) rest

def entryCount : List (CieSource w × List (FdeSource w)) → ℕ
  | [] => 0
  | (_, fdes) :: rest => 1 + fdes.length + entryCount rest

theorem gives_scan_fdes (hkind : c.kind = .ehFrame) (hbias : c.sectionBias ≠ BitVec.ofNat 64 (2 ^ 63 - 1))
    (cie : CieSource w) {cieOffset : ℕ} (hcie : c.memory.Holds cieOffset cie.bytes)
    (hlen : 4 + cie.content.length < 2 ^ 32 - 1) {fuel : ℕ} {rest : List (BitVec 64 × DwarfFde)} :
    ∀ {fdes : List (FdeSource w)} {off : ℕ}, cieOffset ≤ off → FdesFit c.sectionBias cieOffset off fdes →
      c.memory.Holds off (fdesBytes c.sectionBias cieOffset off fdes) →
      off + (fdesBytes c.sectionBias cieOffset off fdes).length ≤ c.entriesEnd.toNat →
      Gives (Agree c w P)
        (c.scan w fuel (BitVec.ofNat 64 (off + (fdesBytes c.sectionBias cieOffset off fdes).length))) (.ok rest) →
      Gives (Agree c w P) (c.scan w (fuel + fdes.length) (BitVec.ofNat 64 off))
        (.ok ((placeFdes c.sectionBias cie cieOffset off fdes).map (PlacedFde.entry c.sectionBias) ++ rest))
  | [], _, _, _, _, _, hrest => hrest
  | fde :: fdes, off, hle, ⟨hfits, hfdes⟩, hb, hend, hrest => by
    obtain ⟨hfde, hb⟩ := holds_append.mp hb
    rw [fdesBytes, List.length_append, ← Nat.add_assoc] at hend hrest
    have hpos : 0 < (fde.bytes c.sectionBias cieOffset off).length := by
      rw [FdeSource.bytes, length_entryBytes]
      omega
    exact gives_scan_next (fun s => getNextCieOrFde_fde hkind hbias cie fde hcie hlen hle hfits hfde) (by omega)
      (by omega) (gives_scan_fdes hkind hbias cie hcie hlen (by omega) hfdes hb hend hrest)

theorem gives_scan (hkind : c.kind = .ehFrame) (hbias : c.sectionBias ≠ BitVec.ofNat 64 (2 ^ 63 - 1)) (fuel : ℕ) :
    ∀ {source : List (CieSource w × List (FdeSource w))} {off : ℕ}, SectionFits c.sectionBias off source →
      c.memory.Holds off (sectionBytes c.sectionBias off source) →
      off + (sectionBytes c.sectionBias off source).length = c.entriesEnd.toNat →
      Gives (Agree c w P) (c.scan w (fuel + 1 + entryCount source) (BitVec.ofNat 64 off))
        (.ok (decodeSection c.sectionBias off source))
  | [], off, _, _, hend => by
    have hnot : ¬ BitVec.ofNat 64 off < c.entriesEnd := by
      rw [BitVec.lt_def, BitVec.toNat_ofNat, ← hend, Nat.mod_eq_of_lt (by have := c.entriesEnd.isLt; omega)]
      exact lt_irrefl _
    intro s hs
    refine ⟨s, ?_, hs⟩
    show c.scan w (fuel + 1) _ s = _
    rw [DwarfSection.scan, if_neg hnot]
    rfl
  | (cie, fdes) :: rest, off, ⟨hlen, hfdes, hfits⟩, hb, hend => by
    obtain ⟨hcie, hb⟩ := holds_append.mp hb
    obtain ⟨hbfdes, hb⟩ := holds_append.mp hb
    simp only [sectionBytes, List.length_append, ← Nat.add_assoc] at hend
    have hpos : 0 < cie.bytes.length := by
      rw [CieSource.bytes, length_entryBytes]
      omega
    have hrest := gives_scan hkind hbias fuel hfits hb hend
    have hscanned := gives_scan_fdes hkind hbias cie hcie hlen (Nat.le_add_right _ _) hfdes hbfdes (by omega) hrest
    rw [show fuel + 1 + entryCount ((cie, fdes) :: rest) = fuel + 1 + entryCount rest + fdes.length + 1 by
      rw [entryCount]; omega, decodeSection, placeSection, List.map_append]
    exact gives_scan_next (fun s => getNextCieOrFde_cie hkind cie hcie hlen) (by omega) (by omega) hscanned

end Section

/-- The section is written at `entries_offset_`, and nothing comes after it. -/
structure WrittenFrom (c : DwarfSection) (source : List (CieSource w × List (FdeSource w))) : Prop where
  kind : c.kind = .ehFrame
  bias : c.sectionBias ≠ BitVec.ofNat 64 (2 ^ 63 - 1)
  fits : SectionFits c.sectionBias c.entriesOffset.toNat source
  bytes : c.memory.Holds c.entriesOffset.toNat (sectionBytes c.sectionBias c.entriesOffset.toNat source)
  stop : c.entriesOffset.toNat + (sectionBytes c.sectionBias c.entriesOffset.toNat source).length = c.entriesEnd.toNat

/-- **`.eh_frame` is read**: the scan of a section written from a source finds
its functions, in their order, each with its CIE. -/
theorem scan_encode {source : List (CieSource w × List (FdeSource w))} (h : WrittenFrom c source) {fuel : ℕ}
    (hfuel : entryCount source < fuel) :
    ∃ s, c.scan w fuel c.entriesOffset SectionCaches.empty =
      some (.ok (decodeSection c.sectionBias c.entriesOffset.toNat source), s) := by
  obtain ⟨k, rfl⟩ := Nat.exists_eq_add_of_lt hfuel
  have hempty : Agree c w (fun _ _ _ => True) SectionCaches.empty := ⟨Memo.agrees_empty _, Memo.agrees_empty _, trivial⟩
  obtain ⟨s, hs, -⟩ := gives_scan h.kind h.bias k h.fits h.bytes h.stop SectionCaches.empty hempty
  refine ⟨s, ?_⟩
  rwa [BitVec.ofNat_toNat, BitVec.setWidth_eq,
    show k + 1 + entryCount source = entryCount source + k + 1 by omega] at hs

end AllocHook.Unwindstack
