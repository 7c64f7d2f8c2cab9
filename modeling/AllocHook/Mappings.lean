/-
Anonymous mappings, byte for byte.

The kernel maps and unmaps ranges of pages. `debug_mmap` records a mapping
under its first address, and `debug_munmap` erases the record at the first
address it is given, whatever the length: part of a mapping takes the whole
record or none, and a range over several mappings takes the first alone.

`mapped_bytes_iff` says when the records are right: the recorded sizes are the
bytes still mapped, in every state of a run, if and only if every call is on a
range whose mapped bytes are those of the mapping recorded at its start.
-/
import AllocHook.HookEffects
import AllocHook.Lib.History
import AllocHook.Lib.Intervals

namespace AllocHook

open FiniteMap History Intervals

variable {Tid : Type*} {w : Nat} {cfg : Config w} {d : PointerData w}

/-! ## Calls on ranges -/

/-- An `mmap` or `munmap` of a thread. -/
inductive MapCall (Tid : Type*) (w : Nat)
  | mmap (t : Tid) (env : HookEnv w) (args : MmapArgs w)
  | munmap (t : Tid) (env : HookEnv w) (addr size : Word w)

namespace MapCall

def event : MapCall Tid w → Event Tid w
  | .mmap t env args => .call t env (.mmap args)
  | .munmap t env addr size => .call t env (.munmap addr size)

/-- The first address of the range, as the kernel has it. -/
def addr : MapCall Tid w → Word w
  | .mmap _ env args => (env.sys.mmap args).result
  | .munmap _ _ addr _ => addr

def size : MapCall Tid w → Word w
  | .mmap _ _ args => args.size
  | .munmap _ _ _ size => size

/-- The bytes of the range the call leaves mapped: all or none. -/
def kept : MapCall Tid w → ℕ
  | .mmap _ _ args => args.size.toNat
  | .munmap _ _ _ _ => 0

def range (c : MapCall Tid w) : Finset ℕ := Finset.Ico c.addr.toNat (c.addr.toNat + c.size.toNat)

theorem kept_le (c : MapCall Tid w) : c.kept ≤ c.size.toNat := by
  cases c with
  | mmap t env args => exact Nat.le_refl _
  | munmap t env addr size => exact Nat.zero_le _

/-- The bytes mapped after the call; an `mmap` may replace what was there. -/
def after (mapped : Finset ℕ) : MapCall Tid w → Finset ℕ
  | .mmap t env args => mapped ∪ (MapCall.mmap t env args).range
  | .munmap t env addr size => mapped \ (MapCall.munmap t env addr size).range

theorem after_eq (mapped : Finset ℕ) (c : MapCall Tid w) :
    c.after mapped = replace mapped c.addr.toNat c.size.toNat c.kept := by
  cases c with
  | mmap t env args => exact (replace_self mapped _ _).symm
  | munmap t env addr size => exact (replace_zero mapped _ _).symm

/-- The call succeeds on whole pages, without a descriptor, within `MaxSize`,
and its stack is kept. -/
def WellFormed (page : ℕ) (cfg : Config w) (c : MapCall Tid w) : Prop :=
  page ∣ c.addr.toNat ∧ page ∣ c.size.toNat ∧ 0 < c.size.toNat ∧ c.addr.toNat + c.size.toNat ≤ 2 ^ w ∧
    match c with
    | .mmap _ env args => args.fd.msb = true ∧ (env.sys.mmap args).result ≠ MAP_FAILED w ∧ args.size ≤ maxSize w ∧
        records cfg env.add args.size = true
    | .munmap _ env addr size => (env.sys.munmap addr size).result = 0

end MapCall

/-- The bytes mapped by the calls and not unmapped since. -/
def stillMapped (calls : List (MapCall Tid w)) : Finset ℕ := calls.foldl MapCall.after ∅

theorem stillMapped_concat (calls : List (MapCall Tid w)) (c : MapCall Tid w) :
    stillMapped (calls ++ [c]) = c.after (stillMapped calls) := by
  simp only [stillMapped, List.foldl_append, List.foldl_cons, List.foldl_nil]

def isMmap (t : MemType) : Bool := t = .mmap

/-- The bytes recorded under an address. -/
def PointerData.recordedAt (d : PointerData w) (addr : Word w) : ℕ :=
  (d.pointers.lookup (manglePointer addr)).elim 0 (·.size.toNat)

variable [DecidableEq Tid]

def Process.runMaps (cfg : Config w) (calls : List (MapCall Tid w)) : Process Tid w :=
  Process.run cfg (calls.map MapCall.event)

/-- The mapped bytes of the range are those of the mapping recorded at its
first address: all of it, and nothing where none is recorded. -/
def WholeMapping (cfg : Config w) (pre : List (MapCall Tid w)) (c : MapCall Tid w) : Prop :=
  stillMapped pre ∩ c.range =
    Finset.Ico c.addr.toNat (c.addr.toNat + (Process.runMaps cfg pre).pointer.recordedAt c.addr)

/-! ## What a call does to the records -/

theorem runMaps_concat (cfg : Config w) (calls : List (MapCall Tid w)) (c : MapCall Tid w) :
    Process.runMaps cfg (calls ++ [c]) = (Process.runMaps cfg calls).perform cfg c.event := by
  rw [Process.runMaps, List.map_append, List.map_singleton, Process.run_concat, Process.runMaps]

/-- The record at `addr` is now one of `size` bytes, none for 0. -/
structure Rerecorded (d d' : PointerData w) (addr : Word w) (size : ℕ) : Prop where
  recordedAt : d'.recordedAt = Function.update d.recordedAt addr size
  bytes : bytes isMmap d'.entries + d.recordedAt addr = bytes isMmap d.entries + size
  allMmap : ∀ k e, d'.pointers.lookup k = some e → e.memType = .mmap

omit [DecidableEq Tid] in
theorem bytes_erase (hall : ∀ k e, d.pointers.lookup k = some e → e.memType = .mmap) (addr : Word w) :
    bytes isMmap (values (d.pointers.erase (manglePointer addr))) + d.recordedAt addr = bytes isMmap d.entries := by
  unfold PointerData.recordedAt PointerData.entries
  cases hk : d.pointers.lookup (manglePointer addr) with
  | none => rw [erase_of_lookup_none hk]; rfl
  | some e =>
    rw [← values_erase hk, bytes_cons, if_pos (by rw [hall _ e hk]; rfl)]
    exact Nat.add_comm _ _

theorem Rerecorded.of_insert {d' : PointerData w} {addr : Word w} {e : PointerInfoType w}
    (hall : ∀ k e, d.pointers.lookup k = some e → e.memType = .mmap) (he : e.memType = .mmap)
    (hp : d'.pointers = d.pointers.insert (manglePointer addr) e) : Rerecorded d d' addr e.size.toNat := by
  refine ⟨?_, ?_, ?_⟩
  · funext a
    unfold PointerData.recordedAt
    rw [hp, lookup_insert_eq, Function.update_apply]
    by_cases ha : a = addr
    · rw [if_pos ha, if_pos (by rw [ha])]; rfl
    · rw [if_neg ha, if_neg (mt mangle_inj.mp ha)]
  · rw [PointerData.entries, hp, values_insert, bytes_cons, if_pos (by rw [he]; rfl), ← bytes_erase hall addr]
    omega
  · intro k e' hk
    rw [hp, lookup_insert_eq] at hk
    split at hk
    · cases hk; exact he
    · exact hall k e' hk

theorem Rerecorded.of_erase {d' : PointerData w} {addr : Word w}
    (hall : ∀ k e, d.pointers.lookup k = some e → e.memType = .mmap)
    (hp : d'.pointers = d.pointers.erase (manglePointer addr)) : Rerecorded d d' addr 0 := by
  refine ⟨?_, ?_, ?_⟩
  · funext a
    unfold PointerData.recordedAt
    rw [hp, lookup_erase_eq, Function.update_apply]
    by_cases ha : a = addr
    · rw [if_pos ha, if_pos (by rw [ha])]; rfl
    · rw [if_neg ha, if_neg (mt mangle_inj.mp ha)]
  · rw [PointerData.entries, hp, bytes_erase hall addr, Nat.add_zero]
  · intro k e hk
    rw [hp, lookup_erase_eq] at hk
    split at hk
    · cases hk
    · exact hall k e hk

/-- In every state of a run calls are enabled and only mappings are recorded. -/
structure MapsOnly (cfg : Config w) (p : Process Tid w) : Prop where
  enabled : ∀ t, (p.thread t).disabled = false
  reachable : Reachable cfg p.pointer
  allMmap : ∀ k e, p.pointer.pointers.lookup k = some e → e.memType = .mmap

/-- A call rewrites the record at the first address of its range. -/
theorem MapsOnly.rerecorded (hb : cfg.has BACKTRACE = true) (htrack : cfg.trackPointers = true) {p : Process Tid w}
    (hp : MapsOnly cfg p) {page : ℕ} {c : MapCall Tid w} (hc : c.WellFormed page cfg) :
    Rerecorded p.pointer (p.perform cfg c.event).pointer c.addr c.kept := by
  obtain ⟨L, hcharged⟩ := hp.reachable.charged hb
  obtain ⟨-, -, -, -, hcall⟩ := hc
  cases c with
  | mmap t env args =>
    obtain ⟨hfd, -, hmax, hrec⟩ := hcall
    have hpointer := p.call_pointer htrack t env (.mmap args)
    have hdis : (p.view t).disabled = false := hp.enabled t
    simp only [HookState.calls, hdis, Bool.false_eq_true, if_false, if_neg (BitVec.not_lt.mpr hmax), hfd, if_true,
      List.foldl_cons, List.foldl_nil] at hpointer
    have ha := add_added hcharged.held hrec (env.sys.mmap args).result .mmap
    exact .of_insert hp.allMmap rfl ((congrArg PointerData.pointers hpointer).trans ha.pointers)
  | munmap t env addr size =>
    have hpointer := p.call_pointer htrack t env (.munmap addr size)
    have hdis : (p.view t).disabled = false := hp.enabled t
    simp only [HookState.calls, hdis, Bool.false_eq_true, if_false, List.foldl_cons, List.foldl_nil] at hpointer
    exact .of_erase hp.allMmap ((congrArg PointerData.pointers hpointer).trans (remove_pointers cfg _ addr))

theorem MapsOnly.step (hb : cfg.has BACKTRACE = true) (htrack : cfg.trackPointers = true) {p : Process Tid w}
    (hp : MapsOnly cfg p) {page : ℕ} {c : MapCall Tid w} (hc : c.WellFormed page cfg) :
    MapsOnly cfg (p.perform cfg c.event) := by
  refine ⟨?_, Process.perform_reachable htrack hp.reachable _, (hp.rerecorded hb htrack hc).allMmap⟩
  cases c with
  | mmap t env args => exact Process.call_enabled htrack hp.enabled t env _
  | munmap t env addr size => exact Process.call_enabled htrack hp.enabled t env _

/-! ## Runs -/

theorem mapsOnly_run (hb : cfg.has BACKTRACE = true) (htrack : cfg.trackPointers = true) {page : ℕ}
    {calls : List (MapCall Tid w)} (h : ∀ c ∈ calls, c.WellFormed page cfg) :
    MapsOnly cfg (Process.runMaps cfg calls) := by
  induction calls using List.reverseRecOn with
  | nil =>
    refine ⟨fun _ => rfl, .initialized cfg, fun k e hk => ?_⟩
    cases hk
  | append_singleton calls c ih =>
    rw [List.forall_mem_append, List.forall_mem_singleton] at h
    rw [runMaps_concat]
    exact (ih h.1).step hb htrack h.2

/-- While every call was on a whole mapping the records tile what is mapped. -/
theorem tiles_run (hb : cfg.has BACKTRACE = true) (htrack : cfg.trackPointers = true) {page : ℕ}
    {calls : List (MapCall Tid w)} (h : ∀ c ∈ calls, c.WellFormed page cfg)
    (hwhole : Always (WholeMapping cfg) calls) :
    Tiles BitVec.toNat (Process.runMaps cfg calls).pointer.recordedAt (stillMapped calls) := by
  induction calls using List.reverseRecOn with
  | nil =>
    refine ⟨fun a => ?_, fun a b _ => ?_⟩
    · show Finset.Ico a.toNat (a.toNat + 0) ⊆ ∅
      rw [Nat.add_zero, Finset.Ico_self]
    · show Disjoint (Finset.Ico a.toNat (a.toNat + 0)) _
      rw [Nat.add_zero, Finset.Ico_self]
      exact Finset.disjoint_empty_left _
  | append_singleton calls c ih =>
    rw [List.forall_mem_append, List.forall_mem_singleton] at h
    obtain ⟨hc, hbefore⟩ := always_concat.mp hwhole
    rw [runMaps_concat, stillMapped_concat, MapCall.after_eq,
      ((mapsOnly_run hb htrack h.1).rerecorded hb htrack h.2).recordedAt]
    exact (ih h.1 hbefore).replace c.kept_le hc

/-- **Anonymous mappings.** In every state of a run of these calls the MMAP
entries have the bytes still mapped if and only if every call was on a range
whose mapped bytes are those of the mapping recorded at its start. -/
theorem mapped_bytes_iff (page : ℕ) (getenv : Environ) (calls : List (MapCall Tid w))
    (h : ∀ c ∈ calls, c.WellFormed page (Config.init w getenv)) :
    (∀ pre, pre <+: calls →
      bytes isMmap (Process.runMaps (Config.init w getenv) pre).pointer.entries = (stillMapped pre).card) ↔
      Always (WholeMapping (Config.init w getenv)) calls := by
  have hb := init_backtrace w getenv
  have htrack := init_trackPointers w getenv
  refine prefixes_iff_always rfl fun pre c hp hx hwhole => ?_
  have hwell : ∀ c' ∈ pre ++ [c], c'.WellFormed page (Config.init w getenv) := fun c' hc' => h c' (hp.subset hc')
  rw [List.forall_mem_append, List.forall_mem_singleton] at hwell
  have hbytes := ((mapsOnly_run hb htrack hwell.1).rerecorded hb htrack hwell.2).bytes
  have hcard := card_replace (stillMapped pre) c.addr.toNat c.kept_le
  rw [WholeMapping, MapCall.range, ← (tiles_run hb htrack hwell.1 hwhole).count_iff (i := c.addr), runMaps_concat,
    stillMapped_concat, MapCall.after_eq]
  omega

/-! ## Two pages -/

/-- A hook on a system where mappings go to `0x7f0000000000`. -/
def mapEnv : HookEnv 64 :=
  .plain { System.exhausted 64 with
    mmap := fun _ => { result := 0x7f0000000000, errno := 0 }
    munmap := fun _ _ => { result := 0, errno := 0 } }

/-- Two pages are mapped, and `size` bytes unmapped from `addr`. -/
def mappedTwoPages (addr size : Word 64) : List (MapCall Unit 64) :=
  [.mmap () mapEnv { addr := 0, size := 8192, prot := 3, flags := 0x22, fd := -1, offset := 0 },
    .munmap () mapEnv addr size]

theorem mappedTwoPages_wellFormed {addr size : Word 64} (haddr : 4096 ∣ addr.toNat) (hsize : 4096 ∣ size.toNat)
    (hpos : 0 < size.toNat) (hend : addr.toNat + size.toNat ≤ 2 ^ 64) :
    ∀ c ∈ mappedTwoPages addr size, c.WellFormed 4096 (Config.init 64 ⟨none, none⟩) := by
  intro c hc
  simp only [mappedTwoPages, List.mem_cons, List.not_mem_nil, or_false] at hc
  rcases hc with rfl | rfl
  · exact ⟨by decide, by decide, by decide, by decide, by decide, by decide, by decide, by decide⟩
  · exact ⟨haddr, hsize, hpos, hend, rfl⟩

/-- The bytes of the two pages. -/
def twoPages : Finset ℕ := Finset.Ico 0x7f0000000000 0x7f0000002000

theorem stillMapped_two (addr size : Word 64) :
    stillMapped (mappedTwoPages addr size) = twoPages \ Finset.Ico addr.toNat (addr.toNat + size.toNat) := by
  rw [← Finset.empty_union twoPages]
  rfl

theorem whole_twoPages :
    Always (WholeMapping (Config.init 64 ⟨none, none⟩)) (mappedTwoPages 0x7f0000000000 8192) := by
  refine always_cons.mpr ⟨?_, always_cons.mpr ⟨?_, always_nil⟩⟩
  · show ∅ ∩ twoPages = Finset.Ico 0x7f0000000000 (0x7f0000000000 + 0)
    rw [Finset.empty_inter, Nat.add_zero, Finset.Ico_self]
  · have hrecorded : PointerData.recordedAt (Process.runMaps (Config.init 64 ⟨none, none⟩)
        [.mmap () mapEnv { addr := 0, size := 8192, prot := 3, flags := 0x22, fd := -1, offset := 0 }]).pointer
        0x7f0000000000 = 8192 := by decide
    rw [WholeMapping, MapCall.addr, hrecorded]
    show (∅ ∪ twoPages) ∩ twoPages = twoPages
    rw [Finset.empty_union, Finset.inter_self]

/-- Unmapped whole, the two pages are gone from both. -/
theorem mapped_bytes_iff_whole :
    bytes isMmap (Process.runMaps (Config.init 64 ⟨none, none⟩) (mappedTwoPages 0x7f0000000000 8192)).pointer.entries =
      (stillMapped (mappedTwoPages 0x7f0000000000 8192)).card :=
  (mapped_bytes_iff 4096 ⟨none, none⟩ (mappedTwoPages 0x7f0000000000 8192)
    (mappedTwoPages_wellFormed (by decide) (by decide) (by decide) (by decide))).mpr whole_twoPages _ List.prefix_rfl

/-- Unmapped but for the first, one page is mapped and two are recorded. -/
theorem secondPage_not_counted :
    (∀ c ∈ mappedTwoPages 0x7f0000001000 4096, c.WellFormed 4096 (Config.init 64 ⟨none, none⟩)) ∧
    bytes isMmap (Process.runMaps (Config.init 64 ⟨none, none⟩) (mappedTwoPages 0x7f0000001000 4096)).pointer.entries ≠
      (stillMapped (mappedTwoPages 0x7f0000001000 4096)).card := by
  refine ⟨mappedTwoPages_wellFormed (by decide) (by decide) (by decide) (by decide), ?_⟩
  have hbytes : bytes isMmap (Process.runMaps (Config.init 64 ⟨none, none⟩)
      (mappedTwoPages 0x7f0000001000 4096)).pointer.entries = 8192 := by decide
  have hfirst : twoPages \ Finset.Ico 0x7f0000001000 0x7f0000002000 = Finset.Ico 0x7f0000000000 0x7f0000001000 := by
    ext p
    simp only [twoPages, Finset.mem_sdiff, Finset.mem_Ico]
    omega
  have hcard : (stillMapped (mappedTwoPages 0x7f0000001000 4096)).card = 4096 := by
    rw [stillMapped_two]
    show (twoPages \ Finset.Ico 0x7f0000001000 0x7f0000002000).card = 4096
    rw [hfirst, Nat.card_Ico]
  omega

end AllocHook
