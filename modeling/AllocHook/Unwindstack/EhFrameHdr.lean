/-
`.eh_frame_hdr` (`DwarfEhFrameWithHdr.cpp`): a table of the starts of functions
and the offsets of their FDEs, in which the FDE of a pc is searched by halves,
instead of an index built by a scan of `.eh_frame`.

Where the table lists the functions of the section the two agree, whatever was
looked up before (`hdrGetFdeFromPc_run`). An entry for an FDE without a range
has the section's own index looked up instead.
-/
import AllocHook.Lib.Search
import AllocHook.Unwindstack.EhFrameStep

namespace AllocHook.Unwindstack

open Leb128

variable {w : ℕ}

structure FdeInfo (w : ℕ) where
  pc : BitVec w
  offset : BitVec 64
  deriving DecidableEq, Repr

/-- The header as `Init` leaves it. -/
structure EhFrameHdr where
  version : BitVec 8
  tableEncoding : BitVec 8
  tableEntrySize : ℕ
  hdrEntriesOffset : BitVec 64
  hdrEntriesDataOffset : BitVec 64
  hdrSectionBias : BitVec 64
  fdeCount : BitVec 64
  deriving DecidableEq, Repr

def isEncodingRelative (encoding : BitVec 8) : Bool :=
  decide (0 < encoding >>> 4 ∧ encoding >>> 4 ≤ DW_EH_PE_funcrel)

def EhFrameHdr.init (memory : Memory) (w : ℕ) (offset sectionBias : BitVec 64) : Result EhFrameHdr := do
  let d (pcOffset : BitVec 64) : DwarfMemory := { memory, pcOffset, dataOffset := offset }
  let (data, off) ← (d 0).readBytes 4 offset
  match data with
  | [version, ptrEncoding, fdeCountEncoding, tableEncoding] =>
    if version ≠ 1 then .error (.error .unsupportedVersion none)
    else if getEncodedSize w tableEncoding = 0 then .error illegalValue
    else do
      let (_, off) ← (d off).readEncodedValue w ptrEncoding off
      let (fdeCount, off) ← (d off).readEncodedValue w fdeCountEncoding off
      if fdeCount = 0 then .error (.error .noFdes none)
      else return {
        version, tableEncoding
        tableEntrySize := getEncodedSize w tableEncoding
        hdrEntriesOffset := off, hdrEntriesDataOffset := offset, hdrSectionBias := sectionBias, fdeCount }
  | _ => .error (.error .memoryInvalid (some offset))

/-- The caches of the section and `fde_info_`. -/
abbrev HdrCaches (w : ℕ) := SectionCaches × (BitVec 64 → Option (FdeInfo w))

abbrev HdrM (w : ℕ) (α : Type) := Through Fault (HdrCaches w) α

variable (h : EhFrameHdr) (c : DwarfSection)

/-- An entry of the table, read anew. -/
def EhFrameHdr.readFdeInfo (h : EhFrameHdr) (c : DwarfSection) (w : ℕ) (index : BitVec 64) : Result (FdeInfo w) := do
  let d : DwarfMemory := { memory := c.memory, pcOffset := 0, dataOffset := h.hdrEntriesDataOffset }
  let off := h.hdrEntriesOffset + 2 * index * BitVec.ofNat 64 h.tableEntrySize
  let (value, off) ← d.readEncodedValue w h.tableEncoding off
  let (offset, _) ← d.readEncodedValue w h.tableEncoding off
  -- Relative encodings require adding in the load bias.
  let value := if isEncodingRelative h.tableEncoding then value + h.hdrSectionBias else value
  return { pc := value.setWidth w, offset }

def EhFrameHdr.getFdeInfoFromIndex (w : ℕ) : BitVec 64 → HdrM w (FdeInfo w) :=
  Through.lookup (fun s => s.2) (fun s index info => (s.1, Function.update s.2 index (some info)))
    fun index => Through.ofResult (h.readFdeInfo c w index)

open Search (Probe)

/-- On which side of an entry a pc is. -/
def FdeInfo.probe (pc : BitVec 64) (info : FdeInfo w) : Probe (BitVec 64) :=
  if pc = info.pc.setWidth 64 then .found info.offset
  else if pc < info.pc.setWidth 64 then .before
  else .after

/-- `(first + last) / 2`. -/
def middle (first last : ℕ) : ℕ := (first + last) % 2 ^ 64 / 2

def EhFrameHdr.searchTable (w fuel : ℕ) (pc : BitVec 64) : HdrM w (BitVec 64 ⊕ ℕ) :=
  Search.loop middle (fun current => do return (← h.getFdeInfoFromIndex c w (BitVec.ofNat 64 current)).probe pc) fuel
    0 h.fdeCount.toNat

def EhFrameHdr.getFdeOffsetFromPc (w fuel : ℕ) (pc : BitVec 64) : HdrM w (Option (BitVec 64)) := do
  if h.fdeCount = 0 then return none
  else
    match ← Through.attempt (h.searchTable c w fuel pc) with
    | .error _ => return none
    | .ok (.inl fdeOffset) => return some fdeOffset
    | .ok (.inr last) =>
      if last ≠ 0 then do
        match ← Through.attempt (h.getFdeInfoFromIndex c w (BitVec.ofNat 64 (last - 1))) with
        | .error _ => return none
        | .ok info => return some info.offset
      else return none

/-- An FDE, if the pc is before its end. -/
def beforeEnd (pc : BitVec 64) (fde : DwarfFde) : Option DwarfFde := if pc < fde.pcEnd then some fde else none

def EhFrameHdr.getFdeFromPc (w fuel : ℕ) (pc : BitVec 64) : HdrM w (Option DwarfFde) := do
  match ← h.getFdeOffsetFromPc c w fuel pc with
  | none => return none
  | some fdeOffset => do
    match ← Through.attempt (Through.onFst (c.getFdeFromOffset w fdeOffset)) with
    | .error _ => return none
    | .ok fde =>
      -- The entry may be of an FDE without a range, by mistake.
      if fde.pcStart = fde.pcEnd then do
        match ← Through.onFst (c.getFdeFromPc w fuel pc) with
        | none => return none
        | some fde => return beforeEnd pc fde
      else return beforeEnd pc fde

/-! ## What the search finds -/

/-- The table can be read, and its entries are in the order of their starts. -/
structure Table (h : EhFrameHdr) (c : DwarfSection) (table : List (FdeInfo w)) : Prop where
  count : h.fdeCount.toNat = table.length
  small : table.length < 2 ^ 62
  read : ∀ i (hi : i < table.length), h.readFdeInfo c w (BitVec.ofNat 64 i) = .ok table[i]
  width : w ≤ 64
  sorted : table.Pairwise fun info info' => info.pc < info'.pc

/-- The entry with the last start that is not after the pc. -/
def IsLast (table : List (FdeInfo w)) (pc : BitVec 64) : Option (FdeInfo w) → Prop
  | none => ∀ info ∈ table, pc < info.pc.setWidth 64
  | some info => info ∈ table ∧ info.pc.setWidth 64 ≤ pc ∧
      ∀ info' ∈ table, info'.pc.setWidth 64 ≤ pc → info'.pc.setWidth 64 ≤ info.pc.setWidth 64

variable {h c} {table : List (FdeInfo w)} {inv : SectionCaches → Prop} {pc : BitVec 64}

theorem probe_eq_after {info : FdeInfo w} : info.probe pc = .after ↔ info.pc.setWidth 64 < pc := by
  rw [FdeInfo.probe]
  split
  · next heq => exact ⟨nofun, fun hlt => absurd hlt (by rw [heq]; exact BitVec.lt_irrefl _)⟩
  · next hne =>
    split
    · next hlt => exact ⟨nofun, fun hlt' => absurd hlt' (BitVec.not_lt.mpr (BitVec.le_of_lt hlt))⟩
    · next hnlt => exact ⟨fun _ => BitVec.lt_of_le_ne (BitVec.not_lt.mp hnlt) (Ne.symm hne), fun _ => rfl⟩

theorem probe_eq_before {info : FdeInfo w} : info.probe pc = .before ↔ pc < info.pc.setWidth 64 := by
  rw [FdeInfo.probe]
  split
  · next heq => exact ⟨nofun, fun hlt => absurd hlt (by rw [heq]; exact BitVec.lt_irrefl _)⟩
  · split
    · next hlt => exact ⟨fun _ => hlt, fun _ => rfl⟩
    · next hnlt => exact ⟨nofun, fun hlt => absurd hlt hnlt⟩

theorem probe_eq_found {info : FdeInfo w} {offset : BitVec 64} (hp : info.probe pc = .found offset) :
    pc = info.pc.setWidth 64 ∧ offset = info.offset := by
  rw [FdeInfo.probe] at hp
  split at hp
  · next heq =>
    cases hp
    exact ⟨heq, rfl⟩
  · split at hp <;> cases hp

/-- What the probe of an index finds. -/
def probeAt (table : List (FdeInfo w)) (pc : BitVec 64) (i : ℕ) : Probe (BitVec 64) :=
  (table[i]?.map (FdeInfo.probe pc)).getD .before

theorem probeAt_eq {i : ℕ} (hi : i < table.length) : probeAt table pc i = table[i].probe pc := by
  rw [probeAt, List.getElem?_eq_getElem hi]
  rfl

section Search

variable (ht : Table h c table)
include ht

theorem Table.pc_lt {i j : ℕ} (hij : i < j) (hj : j < table.length) :
    table[i].pc.setWidth 64 < table[j].pc.setWidth 64 := by
  rw [BitVec.lt_def, toNat_setWidth_of_le ht.width, toNat_setWidth_of_le ht.width, ← BitVec.lt_def]
  exact List.pairwise_iff_getElem.mp ht.sorted i j (hij.trans hj) hj hij

theorem Table.ordered (pc : BitVec 64) : Search.Ordered (probeAt table pc) table.length := by
  constructor
  · intro i j hij hj hp
    rw [probeAt_eq hj, probe_eq_after] at hp
    rw [probeAt_eq (hij.trans hj), probe_eq_after]
    exact BitVec.lt_trans (ht.pc_lt hij hj) hp
  · intro i j hij hj hp
    rw [probeAt_eq (hij.trans hj), probe_eq_before] at hp
    rw [probeAt_eq hj, probe_eq_before]
    exact BitVec.lt_trans hp (ht.pc_lt hij hj)

omit ht in
theorem middle_spec (hsmall : table.length < 2 ^ 62) (first last : ℕ) (hlt : first < last)
    (hlast : last ≤ table.length) :
    first ≤ middle first last ∧ middle first last < last := by
  rw [middle, Nat.mod_eq_of_lt (by omega)]
  omega

theorem Table.le_last {i : ℕ} (hi : i < table.length) (hle : table[i].pc.setWidth 64 ≤ pc)
    (hbefore : ∀ j (hj : j < table.length), i < j → pc < table[j].pc.setWidth 64) :
    IsLast table pc (some table[i]) := by
  refine ⟨List.getElem_mem hi, hle, fun info' hinfo' hle' => ?_⟩
  obtain ⟨j, hj, rfl⟩ := List.mem_iff_getElem.mp hinfo'
  rcases lt_trichotomy i j with hij | rfl | hij
  · exact absurd hle' (BitVec.not_le.mpr (hbefore j hj hij))
  · exact BitVec.le_refl _
  · exact BitVec.le_of_lt (ht.pc_lt hij hi)

/-- What the caches of a section satisfy, and that what is cached of the table
is what it says. -/
abbrev HdrAgree (inv : SectionCaches → Prop) (h : EhFrameHdr) (c : DwarfSection) (s : HdrCaches w) : Prop :=
  inv s.1 ∧ Memo.Agrees (fun index => (h.readFdeInfo c w index).toOption) s.2

omit ht in
theorem gives_getFdeInfoFromIndex (index : BitVec 64) :
    Through.Gives (HdrAgree inv h c) (h.getFdeInfoFromIndex c w index) (h.readFdeInfo c w index) :=
  Through.Gives.lookup (fun _ hs info hi => toOption_eq_some.mp (hs.2 index info hi))
    (fun _ hs _ hi => ⟨hs.1, hs.2.update (toOption_eq_some.mpr hi)⟩) (Through.Gives.ofResult _)

theorem gives_searchTable (inv : SectionCaches → Prop) {fuel : ℕ} (hfuel : table.length < fuel) (pc : BitVec 64) :
    ∃ r, Through.Gives (HdrAgree inv h c) (h.searchTable c w fuel pc) (.ok r) ∧
      (∀ offset, r = .inl offset → ∃ i < table.length, probeAt table pc i = .found offset) ∧
      ∀ k, r = .inr k → k ≤ table.length ∧ Search.Between (probeAt table pc) table.length k k := by
  have hprobe : ∀ i < table.length, Through.Gives (HdrAgree inv h c)
      (do return (← h.getFdeInfoFromIndex c w (BitVec.ofNat 64 i)).probe pc : HdrM w (Probe (BitVec 64)))
      (.ok (probeAt table pc i)) := by
    intro i hi
    have hinfo : Through.Gives (HdrAgree inv h c) (h.getFdeInfoFromIndex c w (BitVec.ofNat 64 i)) (.ok table[i]) := by
      rw [← ht.read i hi]
      exact gives_getFdeInfoFromIndex _
    rw [probeAt_eq hi]
    exact hinfo.bind (g := fun info => .ok (info.probe pc)) fun _ _ => Through.Gives.pure _
  obtain ⟨r, hr, hfound, hsplit⟩ := Search.gives_loop (middle_spec ht.small) hprobe fuel 0 table.length
    (by omega) le_rfl fun _ => ⟨fun i hi => absurd hi (Nat.not_lt_zero i), fun i hi hle => absurd hi (not_lt.mpr hle)⟩
  refine ⟨r, ?_, hfound, fun k hk => hsplit k hk (ht.ordered pc)⟩
  rw [EhFrameHdr.searchTable, ht.count]
  exact hr

/-- **The table is searched**: whatever is cached of it, the search gives the
offset with the last start that is not after the pc. -/
theorem gives_getFdeOffsetFromPc (inv : SectionCaches → Prop) {fuel : ℕ} (hfuel : table.length < fuel)
    (pc : BitVec 64) : ∃ r, IsLast table pc r ∧
      Through.Gives (HdrAgree inv h c) (h.getFdeOffsetFromPc c w fuel pc) (.ok (r.map FdeInfo.offset)) := by
  unfold EhFrameHdr.getFdeOffsetFromPc
  by_cases hzero : h.fdeCount = 0
  · have hnil : table = [] := List.eq_nil_of_length_eq_zero (by rw [← ht.count, hzero]; rfl)
    refine ⟨none, by rw [hnil]; exact nofun, ?_⟩
    rw [if_pos hzero]
    exact Through.Gives.pure _
  rw [if_neg hzero]
  obtain ⟨r, hr, hfound, hsplit⟩ := gives_searchTable ht inv hfuel pc
  have hgives {a : Option (BitVec 64)} {k : Except Fault (BitVec 64 ⊕ ℕ) → HdrM w (Option (BitVec 64))}
      (hk : Through.Gives (HdrAgree inv h c) (k (.ok r)) (.ok a)) :
      Through.Gives (HdrAgree inv h c) (Through.attempt (h.searchTable c w fuel pc) >>= k) (.ok a) :=
    hr.attempt.bind (g := fun _ => .ok a) fun r' hr' => by
      cases hr'
      exact hk
  cases r with
  | inl offset =>
    obtain ⟨i, hi, hp⟩ := hfound offset rfl
    rw [probeAt_eq hi] at hp
    obtain ⟨hpc, hoffset⟩ := probe_eq_found hp
    refine ⟨some table[i], ht.le_last hi (by rw [hpc]; exact BitVec.le_refl _) fun j hj hij => ?_, hgives ?_⟩
    · rw [hpc]
      exact ht.pc_lt hij hj
    · rw [Option.map_some, ← hoffset]
      exact Through.Gives.pure _
  | inr k =>
    obtain ⟨hk, hbetween⟩ := hsplit k rfl
    by_cases hk0 : k = 0
    · subst hk0
      refine ⟨none, fun info hinfo => ?_, hgives (Through.Gives.pure _)⟩
      obtain ⟨j, hj, rfl⟩ := List.mem_iff_getElem.mp hinfo
      have hp := hbetween.before j hj (Nat.zero_le _)
      rwa [probeAt_eq hj, probe_eq_before] at hp
    · have hi : k - 1 < table.length := by omega
      have hafter := hbetween.after (k - 1) (by omega)
      rw [probeAt_eq hi, probe_eq_after] at hafter
      refine ⟨some table[k - 1], ht.le_last hi (BitVec.le_of_lt hafter) fun j hj hij => ?_, hgives ?_⟩
      · have hp := hbetween.before j hj (by omega)
        rwa [probeAt_eq hj, probe_eq_before] at hp
      · dsimp only
        rw [if_pos hk0]
        have hinfo : Through.Gives (HdrAgree inv h c) (h.getFdeInfoFromIndex c w (BitVec.ofNat 64 (k - 1)))
            (.ok table[k - 1]) := by
          rw [← ht.read _ hi]
          exact gives_getFdeInfoFromIndex _
        refine hinfo.attempt.bind (g := fun _ => .ok _) fun r' hr' => ?_
        cases hr'
        exact Through.Gives.pure _

end Search

/-! ## The table lists the section -/

/-- A table of the functions of a section that do not overlap. -/
structure Lists (table : List (FdeInfo w)) (entries : List (BitVec 64 × DwarfFde)) : Prop where
  listed : ∀ info ∈ table, ∃ e ∈ entries, e.1 = info.offset ∧ e.2.pcStart = info.pc.setWidth 64
  starts : ∀ e ∈ entries, e.2.pcStart ≠ e.2.pcEnd → ∃ info ∈ table, info.pc.setWidth 64 = e.2.pcStart
  forward : ∀ e ∈ entries, e.2.pcStart ≤ e.2.pcEnd
  apart : ∀ e ∈ entries, ∀ e' ∈ entries, ∀ p, e.2.holds p = true → e'.2.holds p = true → e.2 = e'.2

variable {entries : List (BitVec 64 × DwarfFde)}

theorem holds_iff {fde : DwarfFde} {pc : BitVec 64} :
    fde.holds pc.toNat = true ↔ fde.pcStart ≤ pc ∧ pc < fde.pcEnd := by
  rw [DwarfFde.holds, decide_eq_true_eq, BitVec.le_def, BitVec.lt_def]

theorem coveringFde_eq_some {fde : DwarfFde} (h : coveringFde entries pc = some fde) :
    ∃ e ∈ entries, e.2 = fde ∧ fde.pcStart ≤ pc ∧ pc < fde.pcEnd := by
  obtain ⟨e, he, rfl⟩ := Option.map_eq_some_iff.mp h
  have hholds := List.find?_some (p := fun e : BitVec 64 × DwarfFde => e.2.holds pc.toNat) he
  exact ⟨e, List.mem_of_find?_eq_some he, rfl, holds_iff.mp hholds⟩

theorem coveringFde_of_holds (hl : Lists table entries) {e : BitVec 64 × DwarfFde} (he : e ∈ entries)
    (hpc : e.2.holds pc.toNat = true) : coveringFde entries pc = some e.2 := by
  cases hc : coveringFde entries pc with
  | none =>
    have hnone : (entries.find? fun e => e.2.holds pc.toNat) = none := Option.map_eq_none_iff.mp hc
    exact absurd hpc (List.find?_eq_none.mp hnone e he)
  | some fde =>
    obtain ⟨e', he', rfl, hrange⟩ := coveringFde_eq_some hc
    rw [hl.apart e' he' e he pc.toNat (holds_iff.mpr hrange) hpc]

/-- A pc has no FDE where no start is before it. -/
theorem coveringFde_of_none (hl : Lists table entries) (hlast : IsLast table pc none) :
    coveringFde entries pc = none := by
  cases hc : coveringFde entries pc with
  | none => rfl
  | some fde =>
    obtain ⟨e, he, rfl, hlo, hhi⟩ := coveringFde_eq_some hc
    obtain ⟨info, hinfo, hstart⟩ := hl.starts e he fun heq => absurd (heq ▸ hlo) (BitVec.not_le.mpr hhi)
    exact absurd (hstart ▸ hlo) (BitVec.not_le.mpr (hlast info hinfo))

/-- The FDE of the last start is that of the pc, if any is. -/
theorem coveringFde_of_last (hl : Lists table entries) {info : FdeInfo w} (hlast : IsLast table pc (some info))
    {e : BitVec 64 × DwarfFde} (he : e ∈ entries) (hstart : e.2.pcStart = info.pc.setWidth 64)
    (hne : e.2.pcStart ≠ e.2.pcEnd) : coveringFde entries pc = beforeEnd pc e.2 := by
  obtain ⟨-, hle, hgreatest⟩ := hlast
  rw [← hstart] at hle
  rw [beforeEnd]
  split
  · next hend => exact coveringFde_of_holds hl he (holds_iff.mpr ⟨hle, hend⟩)
  · next hend =>
    cases hc : coveringFde entries pc with
    | none => rfl
    | some fde =>
      obtain ⟨e', he', rfl, hlo, hhi⟩ := coveringFde_eq_some hc
      obtain ⟨info', hinfo', hstart'⟩ := hl.starts e' he' fun heq => absurd (heq ▸ hlo) (BitVec.not_le.mpr hhi)
      have hbefore := hgreatest info' hinfo' (hstart' ▸ hlo)
      rw [hstart', ← hstart] at hbefore
      have hforward := BitVec.lt_of_le_ne (hl.forward e he) hne
      -- Both have the start of the last, so they are the same.
      have hsame : e'.2 = e.2 := by
        refine hl.apart e' he' e he e.2.pcStart.toNat (holds_iff.mpr ⟨hbefore, ?_⟩)
          (holds_iff.mpr ⟨BitVec.le_refl _, hforward⟩)
        exact BitVec.lt_def.mpr ((BitVec.le_def.mp hle).trans_lt (BitVec.lt_def.mp hhi))
      exact absurd (hsame ▸ hhi) hend

theorem beforeEnd_covering {fde : DwarfFde} (hc : coveringFde entries pc = some fde) : beforeEnd pc fde = some fde := by
  obtain ⟨-, -, -, -, hhi⟩ := coveringFde_eq_some hc
  exact if_pos hhi

theorem gives_hdrGetFdeFromPc {fuel : ℕ} (ht : Table h c table) (hl : Lists table entries) (hfuel : table.length < fuel)
    (hscan : Through.Gives (MaybeIndexed c w entries) (c.scan w fuel c.entriesOffset) (.ok entries)) (pc : BitVec 64) :
    Through.Gives (HdrAgree (MaybeIndexed c w entries) h c) (h.getFdeFromPc c w fuel pc)
      (.ok (coveringFde entries pc)) := by
  have hfdeAt : ∀ e ∈ entries, c.fdeAt w e.1 = .ok e.2 := by
    obtain ⟨s, hs, -⟩ := hscan SectionCaches.empty ⟨Memo.agrees_empty _, Memo.agrees_empty _, .inl rfl⟩
    have hempty : Agree c w (fun _ _ _ => True) SectionCaches.empty :=
      ⟨Memo.agrees_empty _, Memo.agrees_empty _, trivial⟩
    exact (scan_spec hempty hs).2 entries rfl
  obtain ⟨r, hlast, hr⟩ := gives_getFdeOffsetFromPc ht (MaybeIndexed c w entries) hfuel pc
  unfold EhFrameHdr.getFdeFromPc
  refine hr.bind (g := fun _ => .ok _) fun r' hr' => ?_
  cases hr'
  cases r with
  | none =>
    rw [coveringFde_of_none hl hlast]
    exact Through.Gives.pure _
  | some info =>
    obtain ⟨e, he, hoffset, hstart⟩ := hl.listed info hlast.1
    have hfde : Through.Gives (HdrAgree (MaybeIndexed c w entries) h c)
        (Through.onFst (c.getFdeFromOffset w info.offset) : HdrM w DwarfFde) (.ok e.2) := by
      rw [← hfdeAt e he, hoffset]
      exact (gives_getFdeFromOffset info.offset).onFst
    refine hfde.attempt.bind (g := fun _ => .ok _) fun r' hr' => ?_
    cases hr'
    dsimp only
    by_cases heq : e.2.pcStart = e.2.pcEnd
    · rw [if_pos heq]
      refine (gives_getFdeFromPc hscan pc).onFst.bind (g := fun _ => .ok _) fun found hfound => ?_
      cases hfound
      cases hc : coveringFde entries pc with
      | none => exact Through.Gives.pure _
      | some fde =>
        have hpure : Through.Gives (HdrAgree (MaybeIndexed c w entries) h c)
            (pure (beforeEnd pc fde) : HdrM w (Option DwarfFde)) (.ok (some fde)) := by
          rw [beforeEnd_covering hc]
          exact Through.Gives.pure _
        exact hpure
    · rw [if_neg heq, coveringFde_of_last hl hlast he hstart heq]
      exact Through.Gives.pure _

/-- **The header agrees with the section**: where its table lists the functions
of the section, in any run of lookups each gives the FDE that a scan of the
section finds for the pc. -/
theorem hdrGetFdeFromPc_run {fuel : ℕ} (ht : Table h c table) (hl : Lists table entries) (hfuel : table.length < fuel)
    (hscan : Through.Gives (MaybeIndexed c w entries) (c.scan w fuel c.entriesOffset) (.ok entries))
    (pcs : List (BitVec 64)) :
    ∃ s, pcs.mapM (h.getFdeFromPc c w fuel) (SectionCaches.empty, fun _ => none) =
      some (.ok (pcs.map (coveringFde entries)), s) := by
  have hrun := Through.Gives.mapM (gives_hdrGetFdeFromPc ht hl hfuel hscan) pcs
  obtain ⟨s, hs, -⟩ := hrun (SectionCaches.empty, fun _ => none)
    ⟨⟨Memo.agrees_empty _, Memo.agrees_empty _, .inl rfl⟩, Memo.agrees_empty _⟩
  have hpure : pcs.mapM (fun pc => (.ok (coveringFde entries pc) : Result _)) = .ok (pcs.map (coveringFde entries)) :=
    List.mapM_pure
  rw [hpure] at hs
  exact ⟨s, hs⟩

/-! ## A header as linkers write it -/

/-- `DW_EH_PE_datarel | DW_EH_PE_sdata4`. -/
def datarelSdata4 : BitVec 8 := 0x3b

/-- The start of a function and its FDE, relative to the header. -/
def PlacedFde.hdrStart (bias hdrOffset : BitVec 64) (p : PlacedFde w) : BitVec 64 := p.fde.pcStart - bias - hdrOffset

def PlacedFde.hdrFde (hdrOffset : BitVec 64) (p : PlacedFde w) : BitVec 64 := BitVec.ofNat 64 p.off - hdrOffset

def PlacedFde.hdrEntry (bias hdrOffset : BitVec 64) (p : PlacedFde w) : List (BitVec 8) :=
  fixed ((p.hdrStart bias hdrOffset).setWidth 32).toNat 4 ++ fixed ((p.hdrFde hdrOffset).setWidth 32).toNat 4

def hdrBytes (bias hdrOffset : BitVec 64) (ehFrame : BitVec 32) (placed : List (PlacedFde w)) : List (BitVec 8) :=
  [1, pcrelSdata4, DW_EH_PE_udata4, datarelSdata4] ++ (fixed ehFrame.toNat 4 ++ (fixed placed.length 4 ++
    placed.flatMap (PlacedFde.hdrEntry bias hdrOffset)))

/-- The header that is read. -/
def hdrOf (hdrOffset : ℕ) (hdrBias : BitVec 64) (placed : List (PlacedFde w)) : EhFrameHdr :=
  { version := 1, tableEncoding := datarelSdata4, tableEntrySize := 4
    hdrEntriesOffset := BitVec.ofNat 64 (hdrOffset + 12), hdrEntriesDataOffset := BitVec.ofNat 64 hdrOffset
    hdrSectionBias := hdrBias, fdeCount := BitVec.ofNat 64 placed.length }

/-- The header can be written here. -/
structure HdrFits (hdrBias : BitVec 64) (hdrOffset : ℕ) (placed : List (PlacedFde w)) : Prop where
  count : placed.length < 2 ^ 31
  some : placed ≠ []
  start : ∀ p ∈ placed, Near (p.hdrStart hdrBias (BitVec.ofNat 64 hdrOffset))
  fde : ∀ p ∈ placed, Near (p.hdrFde (BitVec.ofNat 64 hdrOffset))

variable {placed : List (PlacedFde w)} {hdrOffset : ℕ} {hdrBias : BitVec 64} {ehFrame : BitVec 32}

theorem reads_datarelSdata4 (d : DwarfMemory) (hdata : d.dataOffset ≠ -1) {v : BitVec 64} (hv : Near v) :
    Reads d.memory (d.readEncodedValue w datarelSdata4) (fixed (v.setWidth 32).toNat 4) (v + d.dataOffset) := by
  intro off hoff
  have hread : d.readData w datarelSdata4 off = d.readSigned 4 off := rfl
  rw [DwarfMemory.readEncodedValue, if_neg (by decide), if_neg (by decide), hread, reads_near d hv off hoff, bind_ok]
  dsimp only
  rw [show datarelSdata4 &&& 0x70 = DW_EH_PE_datarel from rfl, DwarfMemory.adjustEncodedValue, if_neg (by decide),
    if_neg (by decide), if_neg (by decide), if_pos rfl, if_neg hdata]
  rfl

theorem reads_udata4 (d : DwarfMemory) {n : ℕ} (hn : n < 2 ^ 32) :
    Reads d.memory (d.readEncodedValue w DW_EH_PE_udata4) (fixed n 4) (BitVec.ofNat 64 n) := by
  intro off hoff
  have hread : d.readData w DW_EH_PE_udata4 off = d.readUnsigned 4 off := rfl
  rw [DwarfMemory.readEncodedValue, if_neg (by decide), if_neg (by decide), hread, reads_fixed4 d hn off hoff, bind_ok]
  rfl

theorem reads_pointer (d : DwarfMemory) (hpc : d.pcOffset ≠ BitVec.ofNat 64 (2 ^ 63 - 1)) (v : BitVec 32) :
    Reads d.memory (d.readEncodedValue w pcrelSdata4) (fixed v.toNat 4) (v.signExtend 64 + d.pcOffset) := by
  have hv : (v.signExtend 64).setWidth 32 = v := setWidth_signExtend (by decide) v
  have hr := reads_pcrelSdata4 (w := w) d hpc (v := v.signExtend 64) (by rw [Near, hv])
  rwa [hv] at hr

theorem init_encode {m : Memory} (hb : m.Holds hdrOffset (hdrBytes hdrBias (BitVec.ofNat 64 hdrOffset) ehFrame placed))
    (hfits : HdrFits hdrBias hdrOffset placed) (hoff : hdrOffset + 12 < 2 ^ 63) :
    EhFrameHdr.init m w (BitVec.ofNat 64 hdrOffset) hdrBias = .ok (hdrOf hdrOffset hdrBias placed) := by
  have hcount := hfits.count
  let d (pcOffset : BitVec 64) : DwarfMemory := { memory := m, pcOffset, dataOffset := BitVec.ofNat 64 hdrOffset }
  obtain ⟨hhead, hb⟩ :=
    (readBytes_of_holds (d := d 0) [1, pcrelSdata4, DW_EH_PE_udata4, datarelSdata4]).next hb (by simp)
  have hpc : BitVec.ofNat 64 (hdrOffset + 4) ≠ BitVec.ofNat 64 (2 ^ 63 - 1) := by
    intro heq
    have := congrArg BitVec.toNat heq
    rw [BitVec.toNat_ofNat, BitVec.toNat_ofNat, Nat.mod_eq_of_lt (by omega), Nat.mod_eq_of_lt (by omega)] at this
    omega
  obtain ⟨hptr, hb⟩ :=
    (reads_pointer (w := w) (d (BitVec.ofNat 64 (hdrOffset + 4))) hpc ehFrame).next hb (fixed_ne_nil _)
  have hread := ((reads_udata4 (w := w) (d (BitVec.ofNat 64 (hdrOffset + 8))) (n := placed.length) (by omega)).next hb
    (fixed_ne_nil _)).1
  rw [length_fixed] at hptr hread
  rw [length_fixed] at hread
  have hne : BitVec.ofNat 64 placed.length ≠ 0 := by
    intro heq
    have hzero := congrArg BitVec.toNat heq
    rw [BitVec.toNat_ofNat, Nat.mod_eq_of_lt (by omega)] at hzero
    exact hfits.some (List.eq_nil_of_length_eq_zero hzero)
  replace hhead : (d 0).readBytes 4 (BitVec.ofNat 64 hdrOffset) =
    .ok ([1, pcrelSdata4, DW_EH_PE_udata4, datarelSdata4], BitVec.ofNat 64 (hdrOffset + 4)) := hhead
  replace hptr : (d (BitVec.ofNat 64 (hdrOffset + 4))).readEncodedValue w pcrelSdata4
    (BitVec.ofNat 64 (hdrOffset + 4)) = .ok (_, BitVec.ofNat 64 (hdrOffset + 8)) := hptr
  replace hread : (d (BitVec.ofNat 64 (hdrOffset + 8))).readEncodedValue w DW_EH_PE_udata4
    (BitVec.ofNat 64 (hdrOffset + 8)) = .ok (_, BitVec.ofNat 64 (hdrOffset + 12)) := hread
  have hsize : getEncodedSize w datarelSdata4 = 4 := rfl
  show ((d 0).readBytes 4 (BitVec.ofNat 64 hdrOffset) >>= _) = _
  rw [hhead, bind_ok]
  dsimp only
  rw [if_neg (by decide), hsize, if_neg (by decide)]
  show ((d (BitVec.ofNat 64 (hdrOffset + 4))).readEncodedValue w pcrelSdata4 (BitVec.ofNat 64 (hdrOffset + 4)) >>= _)
    = _
  rw [hptr, bind_ok]
  show ((d (BitVec.ofNat 64 (hdrOffset + 8))).readEncodedValue w DW_EH_PE_udata4
    (BitVec.ofNat 64 (hdrOffset + 8)) >>= _) = _
  rw [hread, bind_ok]
  dsimp only
  rw [if_neg hne]
  rfl

/-- An element of pieces that are all of one length. -/
theorem holds_flatMap {α : Type} {m : Memory} {f : α → List (BitVec 8)} {n : ℕ} {l : List α}
    (hlen : ∀ x ∈ l, (f x).length = n) {a : ℕ} (hb : m.Holds a (l.flatMap f)) {i : ℕ} (hi : i < l.length) :
    m.Holds (a + n * i) (f l[i]) := by
  induction l generalizing a i with
  | nil => exact absurd hi (Nat.not_lt_zero i)
  | cons x l ih =>
    rw [List.flatMap_cons] at hb
    obtain ⟨hx, hl⟩ := holds_append.mp hb
    rw [hlen x List.mem_cons_self] at hl
    cases i with
    | zero => exact hx
    | succ i =>
      have := ih (fun y hy => hlen y (List.mem_cons_of_mem _ hy)) hl (Nat.lt_of_succ_lt_succ hi)
      rwa [Nat.add_assoc, Nat.add_comm n, ← Nat.mul_succ] at this

def PlacedFde.info (p : PlacedFde w) : FdeInfo w :=
  { pc := p.fde.pcStart.setWidth w, offset := BitVec.ofNat 64 p.off }

theorem readFdeInfo_encode (hb : c.memory.Holds hdrOffset (hdrBytes hdrBias (BitVec.ofNat 64 hdrOffset) ehFrame placed))
    (hfits : HdrFits hdrBias hdrOffset placed) (hoff : hdrOffset + 12 < 2 ^ 63) {i : ℕ} (hi : i < placed.length) :
    (hdrOf hdrOffset hdrBias placed).readFdeInfo c w (BitVec.ofNat 64 i) = .ok placed[i].info := by
  have hentries := (holds_append.mp (holds_append.mp (holds_append.mp hb).2).2).2
  rw [length_fixed, length_fixed] at hentries
  have hlen : ∀ p ∈ placed, (p.hdrEntry hdrBias (BitVec.ofNat 64 hdrOffset)).length = 8 := fun p _ => by
    rw [PlacedFde.hdrEntry, List.length_append, length_fixed, length_fixed]
  have hentry := holds_flatMap hlen hentries hi
  have hmem := List.getElem_mem hi
  have hdata : BitVec.ofNat 64 hdrOffset ≠ -1 := by
    intro heq
    have := congrArg BitVec.toNat heq
    rw [BitVec.toNat_ofNat, Nat.mod_eq_of_lt (by omega), show (-1 : BitVec 64).toNat = 2 ^ 64 - 1 from rfl] at this
    omega
  let d : DwarfMemory := { memory := c.memory, pcOffset := 0, dataOffset := BitVec.ofNat 64 hdrOffset }
  obtain ⟨hstart, hentry⟩ := (reads_datarelSdata4 (w := w) d hdata (hfits.start _ hmem)).next hentry (fixed_ne_nil _)
  rw [← List.append_nil (fixed _ 4)] at hentry
  have hfde := ((reads_datarelSdata4 (w := w) d hdata (hfits.fde _ hmem)).next hentry (fixed_ne_nil _)).1
  rw [length_fixed] at hstart hfde
  have hoffset : (hdrOf hdrOffset hdrBias placed).hdrEntriesOffset +
      2 * BitVec.ofNat 64 i * BitVec.ofNat 64 (hdrOf hdrOffset hdrBias placed).tableEntrySize =
        BitVec.ofNat 64 (hdrOffset + 4 + 4 + 4 + 8 * i) := by
    show BitVec.ofNat 64 (hdrOffset + 12) + BitVec.ofNat 64 2 * BitVec.ofNat 64 i * BitVec.ofNat 64 4 = _
    rw [← BitVec.ofNat_mul, ← BitVec.ofNat_mul, ← BitVec.ofNat_add]
    congr 1
    omega
  replace hstart : d.readEncodedValue w datarelSdata4 (BitVec.ofNat 64 (hdrOffset + 4 + 4 + 4 + 8 * i)) = .ok
    (placed[i].hdrStart hdrBias (BitVec.ofNat 64 hdrOffset) + BitVec.ofNat 64 hdrOffset,
      BitVec.ofNat 64 (hdrOffset + 4 + 4 + 4 + 8 * i + 4)) := hstart
  replace hfde : d.readEncodedValue w datarelSdata4 (BitVec.ofNat 64 (hdrOffset + 4 + 4 + 4 + 8 * i + 4)) = .ok
    (placed[i].hdrFde (BitVec.ofNat 64 hdrOffset) + BitVec.ofNat 64 hdrOffset, _) := hfde
  rw [EhFrameHdr.readFdeInfo]
  dsimp only
  rw [hoffset]
  show (d.readEncodedValue w datarelSdata4 _ >>= _) = _
  rw [hstart, bind_ok]
  show (d.readEncodedValue w datarelSdata4 (BitVec.ofNat 64 (hdrOffset + 4 + 4 + 4 + 8 * i + 4)) >>= _) = _
  rw [hfde, bind_ok]
  have hrelative : isEncodingRelative (hdrOf hdrOffset hdrBias placed).tableEncoding = true :=
    (by decide : isEncodingRelative datarelSdata4 = true)
  have hpc : placed[i].hdrStart hdrBias (BitVec.ofNat 64 hdrOffset) + BitVec.ofNat 64 hdrOffset + hdrBias =
      placed[i].fde.pcStart := by
    rw [PlacedFde.hdrStart]
    generalize BitVec.ofNat 64 hdrOffset = x
    grind
  have hoff : placed[i].hdrFde (BitVec.ofNat 64 hdrOffset) + BitVec.ofNat 64 hdrOffset =
      BitVec.ofNat 64 placed[i].off :=
    BitVec.sub_add_cancel ..
  rw [if_pos hrelative]
  show Except.ok (FdeInfo.mk ((placed[i].hdrStart hdrBias (BitVec.ofNat 64 hdrOffset) + BitVec.ofNat 64 hdrOffset +
    hdrBias).setWidth w) (placed[i].hdrFde (BitVec.ofNat 64 hdrOffset) + BitVec.ofNat 64 hdrOffset)) = _
  rw [hpc, hoff]
  rfl

/-- The functions of a section in the order of their starts. -/
structure Tabulated (c : DwarfSection) (source : List (CieSource w × List (FdeSource w)))
    (placed : List (PlacedFde w)) : Prop where
  perm : placed.Perm (placeSection c.sectionBias c.entriesOffset.toNat source)
  sorted : placed.Pairwise fun p p' => p.fde.pcStart < p'.fde.pcStart
  apart : Apart (functions source)
  fits : ∀ p ∈ placed, p.fde.pcStart.toNat < 2 ^ w
  forward : ∀ p ∈ placed, p.fde.pcStart ≤ p.fde.pcEnd

variable {source : List (CieSource w × List (FdeSource w))}

theorem Tabulated.setWidth_start (hw : w ≤ 64) (ht : Tabulated c source placed) {p : PlacedFde w} (hp : p ∈ placed) :
    p.info.pc.setWidth 64 = p.fde.pcStart :=
  setWidth_setWidth_of_lt hw (ht.fits p hp)

theorem Tabulated.readable (hw : w ≤ 64) (ht : Tabulated c source placed)
    (hb : c.memory.Holds hdrOffset (hdrBytes hdrBias (BitVec.ofNat 64 hdrOffset) ehFrame placed))
    (hfits : HdrFits hdrBias hdrOffset placed) (hoff : hdrOffset + 12 < 2 ^ 63) :
    Table (hdrOf hdrOffset hdrBias placed) c (placed.map PlacedFde.info) where
  count := by
    have hcount := hfits.count
    rw [List.length_map]
    exact Nat.mod_eq_of_lt (by omega)
  small := by
    have hcount := hfits.count
    rw [List.length_map]
    omega
  read i hi := by
    rw [List.length_map] at hi
    rw [readFdeInfo_encode hb hfits hoff hi, List.getElem_map]
  width := hw
  sorted := by
    refine List.pairwise_map.mpr (ht.sorted.imp_of_mem fun {p p'} hp hp' hlt => ?_)
    rw [BitVec.lt_def, ← toNat_setWidth_of_le hw, ← toNat_setWidth_of_le hw, ht.setWidth_start hw hp,
      ht.setWidth_start hw hp']
    exact BitVec.lt_def.mp hlt

theorem Tabulated.lists (hw : w ≤ 64) (ht : Tabulated c source placed) :
    Lists (placed.map PlacedFde.info) (decodeSection c.sectionBias c.entriesOffset.toNat source) where
  listed := List.forall_mem_map.mpr fun p hp =>
    ⟨p.entry c.sectionBias, List.mem_map_of_mem (ht.perm.mem_iff.mp hp), rfl, (ht.setWidth_start hw hp).symm⟩
  starts := List.forall_mem_map.mpr fun p hp _ =>
    have hp := ht.perm.mem_iff.mpr hp
    ⟨p.info, List.mem_map_of_mem hp, ht.setWidth_start hw hp⟩
  forward := List.forall_mem_map.mpr fun p hp => ht.forward p (ht.perm.mem_iff.mpr hp)
  apart := List.forall_mem_map.mpr fun p hp => List.forall_mem_map.mpr fun p' hp' pc hpc hpc' => by
    rw [placed_apart ht.apart hp hp' hpc hpc']

theorem length_placeFdes (bias : BitVec 64) (cie : CieSource w) (cieOffset off : ℕ) (fdes : List (FdeSource w)) :
    (placeFdes bias cie cieOffset off fdes).length = fdes.length := by
  rw [← List.length_map PlacedFde.fde, map_fde_placeFdes]

theorem length_placeSection_le (bias : BitVec 64) (off : ℕ) (source : List (CieSource w × List (FdeSource w))) :
    (placeSection bias off source).length ≤ entryCount source := by
  induction source generalizing off with
  | nil => exact Nat.le_refl 0
  | cons x rest ih =>
    rw [placeSection, List.length_append, length_placeFdes, entryCount]
    have := ih (off + x.1.bytes.length + (fdesBytes bias off (off + x.1.bytes.length) x.2).length)
    omega

/-- **`.eh_frame_hdr` from its source to a lookup**: with a section written from
functions that do not overlap, and a header written from their table, each
lookup of any run gives the FDE of the function that has the pc. -/
theorem hdrGetFdeFromPc_encode (hw : w ≤ 64) (hwritten : WrittenFrom c source) (ht : Tabulated c source placed)
    (hb : c.memory.Holds hdrOffset (hdrBytes hdrBias (BitVec.ofNat 64 hdrOffset) ehFrame placed))
    (hfits : HdrFits hdrBias hdrOffset placed) (hoff : hdrOffset + 12 < 2 ^ 63) {fuel : ℕ}
    (hfuel : entryCount source < fuel) (pcs : List (BitVec 64)) :
    ∃ header, EhFrameHdr.init c.memory w (BitVec.ofNat 64 hdrOffset) hdrBias = .ok header ∧
      ∃ s, pcs.mapM (header.getFdeFromPc c w fuel) (SectionCaches.empty, fun _ => none) =
        some (.ok (pcs.map fun pc =>
          ((placeSection c.sectionBias c.entriesOffset.toNat source).find? fun p => p.fde.holds pc.toNat).map
            fun p => (p.entry c.sectionBias).2), s) := by
  refine ⟨_, init_encode hb hfits hoff, ?_⟩
  have hlength : (placed.map PlacedFde.info).length < fuel := by
    rw [List.length_map, ht.perm.length_eq]
    exact (length_placeSection_le ..).trans_lt hfuel
  obtain ⟨k, rfl⟩ := Nat.exists_eq_add_of_lt hfuel
  have hscan : Through.Gives (MaybeIndexed c w (decodeSection c.sectionBias c.entriesOffset.toNat source))
      (c.scan w (entryCount source + k + 1) c.entriesOffset)
      (.ok (decodeSection c.sectionBias c.entriesOffset.toNat source)) := by
    have hgives := gives_scan (P := fun index _ _ => index = [] ∨
      index = indexOf (decodeSection c.sectionBias c.entriesOffset.toNat source)) hwritten.kind hwritten.bias k
      hwritten.fits hwritten.bytes hwritten.stop
    rwa [BitVec.ofNat_toNat, BitVec.setWidth_eq,
      show k + 1 + entryCount source = entryCount source + k + 1 by omega] at hgives
  obtain ⟨s, hs⟩ := hdrGetFdeFromPc_run (ht.readable hw hb hfits hoff) (ht.lists hw) hlength hscan pcs
  refine ⟨s, ?_⟩
  rw [hs, funext (coveringFde_decode c.sectionBias c.entriesOffset.toNat source)]

/-- The section of the function that pushes, with a header after it. -/
def pushingHdrSection : DwarfSection :=
  { pushingSection with
    memory := Memory.buffer [18, 0, 0, 0, 0, 0, 0, 0, 1, 0x7a, 0x52, 0, 1, 0x78, 16, 1, 0x1b, 0x0c, 7, 8, 0x90, 1,
      16, 0, 0, 0, 26, 0, 0, 0, 0xe2, 0x0f, 0, 0, 16, 0, 0, 0, 0, 0x41, 0x0e, 16,
      1, 0x1b, 3, 0x3b, 0xd2, 0xff, 0xff, 0xff, 1, 0, 0, 0, 0xd6, 0x0f, 0, 0, 0xec, 0xff, 0xff, 0xff] (by decide) }

theorem written_pushingHdr : WrittenFrom pushingHdrSection [(pushingCie, [pushingFde])] where
  kind := rfl
  bias := written_pushing.bias
  fits := written_pushing.fits
  bytes := by
    show pushingHdrSection.memory.Holds 0 (sectionBytes 0 0 _)
    rw [bytes_pushing, bytes_pushingCie, bytes_pushingFde]
    exact holds_buffer (by decide) 0 42
  stop := written_pushing.stop

def pushingPlaced : PlacedFde 64 := { cieOffset := 0, cie := pushingCie, off := 22, fde := pushingFde }

theorem placed_pushing : placeSection 0 0 [(pushingCie, [pushingFde])] = [pushingPlaced] := by
  have hlen : 0 + pushingCie.bytes.length = 22 := by rw [bytes_pushingCie]; rfl
  simp only [placeSection, placeFdes, hlen, List.append_nil]
  rfl

theorem tabulated_pushing : Tabulated pushingHdrSection [(pushingCie, [pushingFde])] [pushingPlaced] where
  perm := List.Perm.of_eq placed_pushing.symm
  sorted := List.pairwise_singleton ..
  apart := sound_pushing.apart
  fits := List.forall_mem_singleton.mpr (by decide)
  forward := List.forall_mem_singleton.mpr (by decide)

/-- Lookups before, in and after the function, by its header. -/
theorem hdrGetFdeFromPc_encode_pushing :
    let pcs : List (BitVec 64) := [0xfff, 0x1000, 0x100f, 0x1010]
    ∃ header, EhFrameHdr.init pushingHdrSection.memory 64 42 0 = .ok header ∧
      ∃ s, pcs.mapM (header.getFdeFromPc pushingHdrSection 64 3) (SectionCaches.empty, fun _ => none) =
        some (.ok (pcs.map fun pc =>
          ((placeSection 0 0 [(pushingCie, [pushingFde])]).find? fun p => p.fde.holds pc.toNat).map
            fun p => (p.entry 0).2), s) := by
  intro pcs
  have hbytes : pushingHdrSection.memory.Holds 42 (hdrBytes 0 42 0xffffffd2 [pushingPlaced]) :=
    holds_buffer (by decide) 42 20
  have hfits : HdrFits 0 42 [pushingPlaced] := by
    refine ⟨by decide, List.cons_ne_nil _ _, List.forall_mem_singleton.mpr ?_, List.forall_mem_singleton.mpr ?_⟩
    · show BitVec.signExtend 64 (BitVec.setWidth 32 _) = _
      decide
    · show BitVec.signExtend 64 (BitVec.setWidth 32 _) = _
      decide
  exact hdrGetFdeFromPc_encode (by decide) written_pushingHdr tabulated_pushing hbytes hfits (by decide) (by decide) pcs

end AllocHook.Unwindstack
