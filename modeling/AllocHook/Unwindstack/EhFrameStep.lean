/-
Steps in a section that was written from a source: its functions and programs
are those of the source, so what `Assembled` asks of a section is asked of the
source (`assembled_encode`), and in any run of steps each evaluates the row
that the programs of the source have at its pc (`step_written`). A program that
ends by restoring a state is not among them: its last row claims pcs that are
not its own (`getLocationInfo_restored`), and a step may find it for those.
-/
import AllocHook.Unwindstack.DwarfStep
import AllocHook.Unwindstack.EhFrame

namespace AllocHook.Unwindstack

open Leb128

variable {w : ℕ} {bias : BitVec 64} {cie : CieSource w} {cieOffset off : ℕ} {fdes : List (FdeSource w)}
  {source : List (CieSource w × List (FdeSource w))} {p p' : PlacedFde w}

/-! ## Where things are -/

def PlacedFde.cieEnd (p : PlacedFde w) : ℕ := p.cieOffset + p.cie.bytes.length

def PlacedFde.bytes (bias : BitVec 64) (p : PlacedFde w) : List (BitVec 8) := p.fde.bytes bias p.cieOffset p.off

def PlacedFde.stop (bias : BitVec 64) (p : PlacedFde w) : ℕ := p.off + (p.bytes bias).length

/-- Written before, after the same CIE or an earlier one. -/
structure PlacedFde.Before (p p' : PlacedFde w) : Prop where
  off : p.off + 17 < p'.off + 17
  cie : p'.cieOffset = p.cieOffset ∧ p'.cie = p.cie ∨ p.cieEnd ≤ p'.cieOffset

theorem mem_placeFdes (h : p ∈ placeFdes bias cie cieOffset off fdes) :
    p.cieOffset = cieOffset ∧ p.cie = cie ∧ p.fde ∈ fdes ∧ off ≤ p.off ∧
      p.stop bias ≤ off + (fdesBytes bias cieOffset off fdes).length := by
  induction fdes generalizing off with
  | nil => cases h
  | cons fde fdes ih =>
    rw [fdesBytes, List.length_append]
    rcases List.mem_cons.mp h with rfl | h
    · exact ⟨rfl, rfl, List.mem_cons_self, le_rfl, by simp only [PlacedFde.stop, PlacedFde.bytes]; omega⟩
    · obtain ⟨hoff, hcie, hfde, hle, hstop⟩ := ih h
      exact ⟨hoff, hcie, List.mem_cons_of_mem _ hfde, by omega, by omega⟩

theorem placeFdes_pairwise : (placeFdes bias cie cieOffset off fdes).Pairwise PlacedFde.Before := by
  induction fdes generalizing off with
  | nil => exact .nil
  | cons fde fdes ih =>
    refine .cons (fun p hp => ?_) ih
    obtain ⟨hoff, hcie, -, hle, -⟩ := mem_placeFdes hp
    rw [length_fdeBytes] at hle
    exact ⟨by dsimp only; omega, .inl ⟨hoff, hcie⟩⟩

/-- What is known of a function of a section written from `off` on. -/
structure PlacedFde.Inside (bias : BitVec 64) (off : ℕ) (source : List (CieSource w × List (FdeSource w)))
    (p : PlacedFde w) : Prop where
  mem : ∃ x ∈ source, p.cie = x.1 ∧ p.fde ∈ x.2
  cieOffset : off ≤ p.cieOffset
  cieEnd : p.cieEnd ≤ p.off
  stop : p.stop bias ≤ off + (sectionBytes bias off source).length

theorem inside_of_mem (h : p ∈ placeSection bias off source) : p.Inside bias off source := by
  induction source generalizing off with
  | nil => cases h
  | cons x rest ih =>
    obtain ⟨cie, fdes⟩ := x
    simp only [placeSection, List.mem_append] at h
    rcases h with h | h
    · obtain ⟨hoff, hcie, hfde, hle, hstop⟩ := mem_placeFdes h
      refine ⟨⟨_, List.mem_cons_self, hcie, hfde⟩, hoff.ge, ?_, ?_⟩
      · rwa [PlacedFde.cieEnd, hoff, hcie]
      · simp only [sectionBytes, List.length_append]
        omega
    · obtain ⟨⟨x, hx, hsource⟩, hoff, hend, hstop⟩ := ih h
      refine ⟨⟨x, List.mem_cons_of_mem _ hx, hsource⟩, by omega, hend, ?_⟩
      simp only [sectionBytes, List.length_append]
      omega

theorem placeSection_pairwise : (placeSection bias off source).Pairwise PlacedFde.Before := by
  induction source generalizing off with
  | nil => exact .nil
  | cons x rest ih =>
    obtain ⟨cie, fdes⟩ := x
    refine List.pairwise_append.mpr ⟨placeFdes_pairwise, ih, fun p hp p' hp' => ?_⟩
    obtain ⟨hoff, hcie, -, -, hstop⟩ := mem_placeFdes hp
    have hp' := inside_of_mem hp'
    have hend : p.cieEnd = off + cie.bytes.length := by rw [PlacedFde.cieEnd, hoff, hcie]
    have hcieOffset := hp'.cieOffset
    have hlt := hp'.cieEnd
    rw [PlacedFde.stop, PlacedFde.bytes, length_fdeBytes] at hstop
    rw [PlacedFde.cieEnd] at hlt
    exact ⟨by omega, .inr (by omega)⟩

/-- What the bytes of a section are, where a function is. -/
structure PlacedFde.Written (c : DwarfSection) (p : PlacedFde w) : Prop where
  cieBytes : c.memory.Holds p.cieOffset p.cie.bytes
  bytes : c.memory.Holds p.off (p.bytes c.sectionBias)

theorem written_of_mem_placeFdes {c : DwarfSection} (hcie : c.memory.Holds cieOffset cie.bytes)
    (hb : c.memory.Holds off (fdesBytes c.sectionBias cieOffset off fdes))
    (h : p ∈ placeFdes c.sectionBias cie cieOffset off fdes) : p.Written c := by
  induction fdes generalizing off with
  | nil => cases h
  | cons fde fdes ih =>
    obtain ⟨hfde, hb⟩ := holds_append.mp hb
    rcases List.mem_cons.mp h with rfl | h
    · exact ⟨hcie, hfde⟩
    · exact ih hb h

theorem written_of_mem {c : DwarfSection} (hb : c.memory.Holds off (sectionBytes c.sectionBias off source))
    (h : p ∈ placeSection c.sectionBias off source) : p.Written c := by
  induction source generalizing off with
  | nil => cases h
  | cons x rest ih =>
    obtain ⟨cie, fdes⟩ := x
    obtain ⟨hcie, hb⟩ := holds_append.mp hb
    obtain ⟨hfdes, hb⟩ := holds_append.mp hb
    rcases List.mem_append.mp h with h | h
    · exact written_of_mem_placeFdes hcie hfdes h
    · exact ih hb h

/-! ## Its programs -/

def PlacedFde.cieProgram (p : PlacedFde w) : ℕ := p.cieOffset + 8 + p.cie.fields.length

def PlacedFde.program (p : PlacedFde w) : ℕ := p.off + 17

/-- The programs of a section, by where they are. -/
def programsOf (placed : List (PlacedFde w)) : Programs w where
  cie cie := (placed.find? fun p => p.cieProgram = cie.cfaInstructionsOffset.toNat).elim [] (·.cie.program)
  fde fde := (placed.find? fun p => p.program = fde.cfaInstructionsOffset.toNat).elim [] (·.fde.program)

theorem before_or_after (hp : p ∈ placeSection bias off source) (hp' : p' ∈ placeSection bias off source)
    (hne : p ≠ p') : p.Before p' ∨ p'.Before p := by
  have : Std.Symm fun p p' : PlacedFde w => p.Before p' ∨ p'.Before p := ⟨fun _ _ => Or.symm⟩
  have hall : (placeSection bias off source).Pairwise fun p p' => p.Before p' ∨ p'.Before p :=
    placeSection_pairwise.imp .inl
  exact hall.forall hp hp' hne

theorem cie_eq_of_cieProgram (hp : p ∈ placeSection bias off source) (hp' : p' ∈ placeSection bias off source)
    (h : p.cieProgram = p'.cieProgram) : p.cie = p'.cie := by
  rw [PlacedFde.cieProgram, PlacedFde.cieProgram] at h
  have hlen := length_cieBytes p.cie
  have hlen' := length_cieBytes p'.cie
  by_cases heq : p = p'
  · rw [heq]
  · rcases before_or_after hp hp' heq with hb | hb
    · rcases hb.cie with hc | hc
      · exact hc.2.symm
      · rw [PlacedFde.cieEnd] at hc
        omega
    · rcases hb.cie with hc | hc
      · exact hc.2
      · rw [PlacedFde.cieEnd] at hc
        omega

theorem fde_eq_of_program (hp : p ∈ placeSection bias off source) (hp' : p' ∈ placeSection bias off source)
    (h : p.program = p'.program) : p = p' := by
  by_contra hne
  rcases before_or_after hp hp' hne with hb | hb
  · exact absurd h (ne_of_lt hb.off)
  · exact absurd h (ne_of_gt hb.off)

theorem elim_find? {α β : Type} {l : List α} {q : α → Bool} {a : α} (ha : a ∈ l) (hq : q a = true) {f : α → β} {b : β}
    (h : ∀ a' ∈ l, q a' = true → f a' = f a) : (l.find? q).elim b f = f a := by
  cases hf : l.find? q with
  | none => exact absurd hq (by simpa using List.find?_eq_none.mp hf a ha)
  | some a' => exact h a' (List.mem_of_find?_eq_some hf) (List.find?_some hf)

section Written

variable {c : DwarfSection} (h : WrittenFrom c source)
  (hp : p ∈ placeSection c.sectionBias c.entriesOffset.toNat source)
include h hp

theorem WrittenFrom.stop_lt : p.cieEnd ≤ p.off ∧ p.stop c.sectionBias < 2 ^ 64 := by
  have hin := inside_of_mem hp
  have hstop := hin.stop
  rw [h.stop] at hstop
  exact ⟨hin.cieEnd, hstop.trans_lt c.entriesEnd.isLt⟩

theorem programsOf_cie :
    (programsOf (placeSection c.sectionBias c.entriesOffset.toNat source)).cie (p.entry c.sectionBias).2.cie =
      p.cie.program := by
  obtain ⟨hend, hstop⟩ := h.stop_lt hp
  have hlen := length_cieBytes p.cie
  rw [PlacedFde.cieEnd] at hend
  rw [PlacedFde.stop] at hstop
  have hoff : (BitVec.ofNat 64 p.cieProgram).toNat = p.cieProgram := by
    rw [BitVec.toNat_ofNat, PlacedFde.cieProgram, Nat.mod_eq_of_lt (by omega)]
  refine elim_find? (f := fun p : PlacedFde w => p.cie.program) hp (decide_eq_true hoff.symm) fun p' hp' heq => ?_
  rw [cie_eq_of_cieProgram hp' hp ((of_decide_eq_true heq).trans hoff)]

theorem programsOf_fde :
    (programsOf (placeSection c.sectionBias c.entriesOffset.toNat source)).fde (p.entry c.sectionBias).2 =
      p.fde.program := by
  obtain ⟨-, hstop⟩ := h.stop_lt hp
  rw [PlacedFde.stop, PlacedFde.bytes, length_fdeBytes] at hstop
  have hoff : (BitVec.ofNat 64 p.program).toNat = p.program := by
    rw [BitVec.toNat_ofNat, PlacedFde.program, Nat.mod_eq_of_lt (by omega)]
  refine elim_find? (f := fun p : PlacedFde w => p.fde.program) hp (decide_eq_true hoff.symm) fun p' hp' heq => ?_
  rw [fde_eq_of_program hp' hp ((of_decide_eq_true heq).trans hoff)]

theorem placed_cie : Placed c.memory p.cie.program (p.entry c.sectionBias).2.cie.cfaInstructionsOffset
    (p.entry c.sectionBias).2.cie.cfaInstructionsEnd := by
  obtain ⟨hend, hstop⟩ := h.stop_lt hp
  have hlen := length_cieBytes p.cie
  rw [PlacedFde.cieEnd] at hend
  rw [PlacedFde.stop] at hstop
  have hprogram := (holds_append.mp (holds_content (written_of_mem h.bytes hp).cieBytes)).2
  have hstart : (p.entry c.sectionBias).2.cie.cfaInstructionsOffset.toNat = p.cieOffset + 8 + p.cie.fields.length := by
    show (BitVec.ofNat 64 (p.cieOffset + 8 + p.cie.fields.length)).toNat = _
    rw [BitVec.toNat_ofNat, Nat.mod_eq_of_lt (by omega)]
  have hstop' : ((p.entry c.sectionBias).2.cie.cfaInstructionsEnd).toNat = p.cieOffset + p.cie.bytes.length := by
    show (BitVec.ofNat 64 (p.cieOffset + p.cie.bytes.length)).toNat = _
    rw [BitVec.toNat_ofNat, Nat.mod_eq_of_lt (by omega)]
  refine ⟨by rwa [hstart], ?_⟩
  rw [hstart, hstop', hlen]
  omega

theorem placed_fde : Placed c.memory p.fde.program (p.entry c.sectionBias).2.cfaInstructionsOffset
    (p.entry c.sectionBias).2.cfaInstructionsEnd := by
  obtain ⟨-, hstop⟩ := h.stop_lt hp
  rw [PlacedFde.stop, PlacedFde.bytes, length_fdeBytes] at hstop
  have hprogram := (holds_append.mp (holds_content (written_of_mem h.bytes hp).bytes)).2
  rw [FdeSource.fields, List.length_append, List.length_append, length_fixed, length_fixed, List.length_singleton,
    Nat.add_assoc] at hprogram
  have hstart : ((p.entry c.sectionBias).2.cfaInstructionsOffset).toNat = p.off + 17 := by
    show (BitVec.ofNat 64 (p.off + 17)).toNat = _
    rw [BitVec.toNat_ofNat, Nat.mod_eq_of_lt (by omega)]
  have hend : (p.entry c.sectionBias).2.cfaInstructionsEnd.toNat =
      p.off + (17 + (encodeProgram p.fde.program).length) := by
    show (BitVec.ofNat 64 (p.off + (p.fde.bytes c.sectionBias p.cieOffset p.off).length)).toNat = _
    rw [length_fdeBytes, BitVec.toNat_ofNat, Nat.mod_eq_of_lt (by omega)]
  refine ⟨by rwa [hstart], ?_⟩
  rw [hstart, hend, Nat.add_assoc]

end Written

/-! ## Steps -/

def FdeSource.pcEnd (fde : FdeSource w) : BitVec 64 := BitVec.ofNat 64 fde.length + fde.pcStart

def FdeSource.holds (fde : FdeSource w) (p : ℕ) : Bool := decide (fde.pcStart.toNat ≤ p ∧ p < fde.pcEnd.toNat)

/-- A function with a program that goes forward inside of it, and does not end
by restoring a state. -/
structure FdeSource.Proper (cie : CieSource w) (fde : FdeSource w) : Prop where
  fits : fde.pcStart.toNat < 2 ^ w
  forward : Forward cie.codeAlignmentFactor (fde.pcStart.setWidth w) fde.program
  within : (lastLocation cie.codeAlignmentFactor (fde.pcStart.setWidth w) fde.program).setWidth 64 ≤ fde.pcEnd
  settled : fde.program.getLast? ≠ some .restoreState

def functions (source : List (CieSource w × List (FdeSource w))) : List (FdeSource w) := source.flatMap Prod.snd

def Apart (fdes : List (FdeSource w)) : Prop :=
  fdes.Pairwise fun fde fde' => ∀ p, ¬ (fde.holds p = true ∧ fde'.holds p = true)

/-- A source whose functions do not overlap, and whose CIEs neither move the
location nor remember a state. -/
structure Sound (source : List (CieSource w × List (FdeSource w))) : Prop where
  apart : Apart (functions source)
  initial : ∀ x ∈ source, ∀ i ∈ x.1.program, i.Initial
  proper : ∀ x ∈ source, ∀ fde ∈ x.2, fde.Proper x.1

theorem map_fde_placeFdes : (placeFdes bias cie cieOffset off fdes).map PlacedFde.fde = fdes := by
  induction fdes generalizing off with
  | nil => rfl
  | cons fde fdes ih => rw [placeFdes, List.map_cons, ih]

theorem map_fde_placeSection (bias : BitVec 64) (off : ℕ) (source : List (CieSource w × List (FdeSource w))) :
    (placeSection bias off source).map PlacedFde.fde = functions source := by
  induction source generalizing off with
  | nil => rfl
  | cons x rest ih =>
    rw [placeSection, List.map_append, map_fde_placeFdes, ih]
    rfl

theorem placed_apart (happart : Apart (functions source)) (hp : p ∈ placeSection bias off source)
    (hp' : p' ∈ placeSection bias off source) {pc : ℕ} (hpc : p.fde.holds pc = true) (hpc' : p'.fde.holds pc = true) :
    p = p' := by
  by_contra hne
  rw [Apart, ← map_fde_placeSection bias off, List.pairwise_map] at happart
  have : Std.Symm fun p p' : PlacedFde w => ∀ pc, ¬ (p.fde.holds pc = true ∧ p'.fde.holds pc = true) :=
    ⟨fun _ _ h pc hpc => h pc hpc.symm⟩
  exact happart.forall hp hp' hne pc ⟨hpc, hpc'⟩

/-- A section written from a sound source has its programs. -/
theorem assembled_encode {c : DwarfSection} (h : WrittenFrom c source) (hs : Sound source) :
    Assembled c (decodeSection c.sectionBias c.entriesOffset.toNat source)
      (programsOf (placeSection c.sectionBias c.entriesOffset.toNat source)) := by
  have hall {P : BitVec 64 × DwarfFde → Prop}
      (hP : ∀ p ∈ placeSection c.sectionBias c.entriesOffset.toNat source, P (p.entry c.sectionBias)) :
      ∀ e ∈ decodeSection c.sectionBias c.entriesOffset.toNat source, P e := List.forall_mem_map.mpr hP
  have hproper : ∀ p ∈ placeSection c.sectionBias c.entriesOffset.toNat source, p.fde.Proper p.cie := fun p hp => by
    obtain ⟨x, hx, hcie, hfde⟩ := (inside_of_mem hp).mem
    exact hcie ▸ hs.proper x hx p.fde hfde
  constructor
  case apart =>
    refine hall fun p hp => hall fun p' hp' pc hpc hpc' => ?_
    rw [placed_apart hs.apart hp hp' hpc hpc']
  case fits => exact hall fun p hp => (hproper p hp).fits
  case cie =>
    refine hall fun p hp => ?_
    rw [programsOf_cie h hp]
    exact placed_cie h hp
  case initial =>
    refine hall fun p hp => ?_
    rw [programsOf_cie h hp]
    obtain ⟨x, hx, hcie, -⟩ := (inside_of_mem hp).mem
    exact hcie ▸ hs.initial x hx
  case fde =>
    refine hall fun p hp => ?_
    rw [programsOf_fde h hp]
    exact placed_fde h hp
  case forward =>
    refine hall fun p hp => ?_
    rw [programsOf_fde h hp]
    exact (hproper p hp).forward
  case within =>
    refine hall fun p hp => ?_
    rw [programsOf_fde h hp]
    exact (hproper p hp).within
  case settled =>
    refine hall fun p hp => ?_
    rw [programsOf_fde h hp]
    exact (hproper p hp).settled

/-- The locations at a pc of a function, from the programs it was written
with. -/
def PlacedFde.row (c : DwarfSection) (arch : ArchEnum) (p : PlacedFde w) (pc : BitVec 64) : Result Locations := do
  let fde := (p.entry c.sectionBias).2
  let cie := c.cfa arch fde none
  let initial ← cie.locate fde.pcStart p.cie.program (cie.start w fde.cie.cfaInstructionsOffset { regs := ∅ } [])
  let cfa := c.cfa arch fde (some initial.locRegs.regs)
  (cfa.locate pc p.fde.program (cfa.start w fde.cfaInstructionsOffset { regs := ∅ } [])).map (·.locRegs.regs)

/-- The row of a pc in a section with these functions. -/
def sourceRow (c : DwarfSection) (arch : ArchEnum) (placed : List (PlacedFde w)) (pc : BitVec 64) :
    Result (Locations × DwarfCie) :=
  match placed.find? fun p => p.fde.holds pc.toNat with
  | none => .error illegalState
  | some p => do return (← p.row c arch pc, p.cie.decode p.cieOffset)

theorem coveringFde_decode (bias : BitVec 64) (off : ℕ) (source : List (CieSource w × List (FdeSource w)))
    (pc : BitVec 64) :
    coveringFde (decodeSection bias off source) pc =
      ((placeSection bias off source).find? fun p => p.fde.holds pc.toNat).map fun p => (p.entry bias).2 := by
  rw [coveringFde, decodeSection, List.find?_map, Option.map_map]
  rfl

theorem rowAt_encode {c : DwarfSection} (h : WrittenFrom c source) (arch : ArchEnum) (pc : BitVec 64) :
    c.rowAt arch (programsOf (placeSection c.sectionBias c.entriesOffset.toNat source))
        (decodeSection c.sectionBias c.entriesOffset.toNat source) pc =
      sourceRow c arch (placeSection c.sectionBias c.entriesOffset.toNat source) pc := by
  rw [DwarfSection.rowAt, coveringFde_decode, sourceRow]
  cases hf : (placeSection c.sectionBias c.entriesOffset.toNat source).find? fun p => p.fde.holds pc.toNat with
  | none => rfl
  | some p =>
    have hp := List.mem_of_find?_eq_some hf
    have hrow : c.rowOf arch (programsOf (placeSection c.sectionBias c.entriesOffset.toNat source))
        (p.entry c.sectionBias).2 pc = p.row c arch pc := by
      simp only [DwarfSection.rowOf, DwarfSection.cieRow, DwarfSection.fdeRow, programsOf_cie h hp, programsOf_fde h hp]
      rfl
    rw [Option.map_some]
    dsimp only
    rw [hrow]
    rfl

/-- **Steps of written functions**: in a section written from a source that is
`Sound`, some function of which has a range, whatever steps were made before,
each one evaluates the row its function was written to have at the pc. -/
theorem step_written {m : Machine w} {c : DwarfSection} (hw : w = 32 ∨ w = 64) (h : WrittenFrom c source)
    (hs : Sound source) (hne : ∃ fde ∈ functions source, ∃ pc, fde.holds pc = true) {fuel : ℕ}
    (hfuel : entryCount source < fuel)
    (hprograms : ∀ x ∈ source, x.1.program.length < fuel ∧ ∀ fde ∈ x.2, fde.program.length < fuel)
    (order : MapOrder) (calls : List (StepCall m)) :
    let placed := placeSection c.sectionBias c.entriesOffset.toNat source
    ∃ s, calls.mapM (fun x => Through.attempt (c.stepCall fuel order x)) SectionCaches.empty =
      some (.ok (calls.map fun x =>
        (sourceRow c m.arch placed x.pc).map (c.evalRow order x.processMemory x.regs)), s) := by
  intro placed
  obtain ⟨scanned, hscan⟩ := scan_encode h hfuel
  have hindex : indexOf (decodeSection c.sectionBias c.entriesOffset.toNat source) ≠ [] := by
    obtain ⟨fde, hfde, pc, hpc⟩ := hne
    rw [← map_fde_placeSection c.sectionBias c.entriesOffset.toNat] at hfde
    obtain ⟨p, hp, rfl⟩ := List.mem_map.mp hfde
    exact indexOf_ne_nil (List.mem_map_of_mem hp) hpc
  have hlength : ∀ e ∈ decodeSection c.sectionBias c.entriesOffset.toNat source,
      ((programsOf placed).cie e.2.cie).length < fuel ∧ ((programsOf placed).fde e.2).length < fuel := by
    refine List.forall_mem_map.mpr fun p hp => ?_
    obtain ⟨x, hx, hcie, hfde⟩ := (inside_of_mem hp).mem
    rw [programsOf_cie h hp, programsOf_fde h hp, hcie]
    exact ⟨(hprograms x hx).1, (hprograms x hx).2 p.fde hfde⟩
  obtain ⟨s, hs⟩ := step_run hw (assembled_encode h hs) hlength hscan hindex order calls
  refine ⟨s, ?_⟩
  simp only [rowAt_encode h] at hs
  exact hs

def pushingCie : CieSource 64 where
  codeAlignmentFactor := 1
  dataAlignmentFactor := ⟨-8, by decide⟩
  returnAddressRegister := 16
  isSignalFrame := false
  program := [.defCfa 7 8, .offset 16 1]

/-- A function that pushes a register with its first byte. -/
def pushingFde : FdeSource 64 where
  pcStart := 0x1000
  length := 16
  program := [.advanceLoc 1, .defCfaOffset 16]

theorem unsigned_of_lt {n : ℕ} (h : n < 128) : unsigned n = [last n] := by rw [unsigned, if_pos h]

theorem bytes_pushingCie : pushingCie.bytes =
    [18, 0, 0, 0, 0, 0, 0, 0, 1, 0x7a, 0x52, 0, 1, 0x78, 16, 1, 0x1b, 0x0c, 7, 8, 0x90, 1] := by
  have hsigned : signed (-8) = [last 0x78] := by
    rw [signed, if_pos (by decide)]
    rfl
  simp [pushingCie, CieSource.bytes, CieSource.content, CieSource.fields, CieSource.augmentation, entryBytes,
    encodeProgram, Instruction.encode, Instruction.head, Instruction.tail, unsigned_of_lt, hsigned, fixed, last,
    pcrelSdata4]

theorem bytes_pushingFde : pushingFde.bytes 0 0 22 =
    [16, 0, 0, 0, 26, 0, 0, 0, 0xe2, 0x0f, 0, 0, 16, 0, 0, 0, 0, 0x41, 0x0e, 16] := by
  simp [pushingFde, FdeSource.bytes, FdeSource.content, FdeSource.fields, FdeSource.relative, entryBytes, encodeProgram,
    Instruction.encode, Instruction.head, Instruction.tail, unsigned_of_lt, fixed, last]

theorem bytes_pushing : sectionBytes 0 0 [(pushingCie, [pushingFde])] =
    pushingCie.bytes ++ pushingFde.bytes 0 0 22 := by
  have hlen : 0 + pushingCie.bytes.length = 22 := by rw [bytes_pushingCie]; rfl
  simp only [sectionBytes, fdesBytes, hlen, List.append_nil]

def pushingSection : DwarfSection :=
  { memory := Memory.buffer [18, 0, 0, 0, 0, 0, 0, 0, 1, 0x7a, 0x52, 0, 1, 0x78, 16, 1, 0x1b, 0x0c, 7, 8, 0x90, 1,
      16, 0, 0, 0, 26, 0, 0, 0, 0xe2, 0x0f, 0, 0, 16, 0, 0, 0, 0, 0x41, 0x0e, 16] (by decide)
    kind := .ehFrame, sectionBias := 0, entriesOffset := 0, entriesEnd := 42 }

theorem written_pushing : WrittenFrom pushingSection [(pushingCie, [pushingFde])] where
  kind := rfl
  bias := by decide
  fits := by
    have hcie : 8 + pushingCie.content.length = 22 := by
      rw [← length_entryBytes 0, show entryBytes 0 _ = _ from bytes_pushingCie]
      rfl
    have hfde : 8 + (pushingFde.content 0 22).length = 20 := by
      rw [← length_entryBytes 26, show entryBytes 26 _ = _ from bytes_pushingFde]
      rfl
    have hfits : pushingFde.Fits 0 0 22 := by
      have hnear : (((pushingFde.relative 0 22).setWidth 32).signExtend 64) = pushingFde.relative 0 22 := by decide
      exact ⟨by omega, by decide, by decide, hnear⟩
    have hoff : 0 + pushingCie.bytes.length = 22 := by rw [bytes_pushingCie]; rfl
    refine ⟨by omega, ?_, trivial⟩
    rw [show pushingSection.entriesOffset.toNat = 0 from rfl, hoff]
    exact ⟨hfits, trivial⟩
  bytes := by
    show pushingSection.memory.Holds 0 (sectionBytes 0 0 _)
    rw [bytes_pushing, bytes_pushingCie, bytes_pushingFde]
    exact holds_buffer (by decide) 0 42
  stop := by
    show 0 + (sectionBytes 0 0 _).length = _
    rw [bytes_pushing, bytes_pushingCie, bytes_pushingFde]
    rfl

theorem sound_pushing : Sound [(pushingCie, [pushingFde])] where
  apart := List.pairwise_singleton ..
  initial := by simp [pushingCie, Instruction.Initial]
  proper := by
    have hproper : pushingFde.Proper pushingCie :=
      ⟨by decide, ⟨by decide, by decide, trivial⟩, by decide, by simp [pushingFde]⟩
    simpa using hproper

/-- A step before the register is pushed, one after it, and one outside. -/
theorem step_written_pushing :
    let placed : List (PlacedFde 64) := placeSection 0 0 [(pushingCie, [pushingFde])]
    let calls : List (StepCall Machine.x86_64) := [0x1000, 0x1001, 0x1010].map fun pc =>
      { pc, regs := { regs := fun _ => 0 }, processMemory := Memory.buffer [] (by decide) }
    ∃ order s, calls.mapM (fun x => Through.attempt (pushingSection.stepCall 3 order x)) SectionCaches.empty =
      some (.ok (calls.map fun x => (sourceRow pushingSection .ARCH_X86_64 placed x.pc).map
        (pushingSection.evalRow order x.processMemory x.regs)), s) := by
  intro placed calls
  have hpc : ∃ fde ∈ functions [(pushingCie, [pushingFde])], ∃ pc, fde.holds pc = true :=
    ⟨pushingFde, List.mem_singleton_self _, 0x1000, by decide⟩
  let order : MapOrder := ⟨fun locRegs => locRegs.entries.toList, fun _ => Multiset.coe_toList _⟩
  exact ⟨order, step_written (.inr rfl) written_pushing sound_pushing hpc (by decide)
    (by simp [pushingCie, pushingFde]) order calls⟩

end AllocHook.Unwindstack
