/-
DMA buffers with several descriptors.

A buffer is recognised by its inode and recorded under the descriptor it was
first shown by. Its other descriptors, dup'd or imported, find the inode in
`inode_set` and get no entry; when the first is closed the entry goes, though
the others are open.

`counted_once_iff` says which orders are right: every buffer with a shown
descriptor is counted once in every state of a run if and only if the
descriptor that carries its entry is never closed before the others that were
shown, and none is shown whose inode was seen before or whose stack ends in
the exit function, unless a shown descriptor is on its buffer.
-/
import AllocHook.DmaTracking
import AllocHook.Accounting
import Mathlib.Algebra.BigOperators.Group.Finset.Piecewise
import Mathlib.Algebra.BigOperators.Group.Finset.Sigma

namespace AllocHook

open FiniteMap History

variable {Tid : Type*} {w : Nat} {cfg : Config w} {x : World Tid w}

/-! ## Buffers and their descriptors -/

/-- The buffer a descriptor is open on. -/
def World.info (x : World Tid w) (fd : Fd) : Option (BitVec 64 × Word w) := (x.files fd).bind File.info

theorem info_eq_some {fd : Fd} {inode : BitVec 64} {size : Word w} :
    x.info fd = some (inode, size) ↔ x.files fd = some (.dmaBuf inode size) := by
  unfold World.info
  cases x.files fd with
  | none => simp
  | some file => cases file <;> simp [File.info]

/-- The buffers with a descriptor that was shown and is open. -/
def World.buffers (x : World Tid w) : Finset (BitVec 64 × Word w) := x.shown.biUnion fun fd => (x.info fd).toFinset

theorem mem_buffers {b : BitVec 64 × Word w} : b ∈ x.buffers ↔ ∃ fd ∈ x.shown, x.info fd = some b := by
  simp only [World.buffers, Finset.mem_biUnion, Option.mem_toFinset, Option.mem_def]

/-- The descriptor was shown and is open on the buffer, and carries its entry. -/
def World.Carries (x : World Tid w) (fd : Fd) (b : BitVec 64 × Word w) : Prop :=
  fd ∈ x.shown ∧ x.info fd = some b ∧
    ∃ e, x.process.pointer.pointers.lookup (fdKey w fd) = some e ∧ e.memType = .dma ∧ e.size = b.2

/-- Every buffer with a shown descriptor is counted once, and nothing else is. -/
structure CountedOnce (x : World Tid w) : Prop where
  once : ∀ b ∈ x.buffers, ∃! fd, x.Carries fd b
  released : ∀ k e, x.process.pointer.pointers.lookup k = some e → ∃ fd b, k = fdKey w fd ∧ x.Carries fd b
  total : x.process.pointer.currentDma = ∑ b ∈ x.buffers, b.2

/-- The buffers of one inode have one size. -/
def OneSize (x : World Tid w) : Action Tid w → Prop
  | .opened _ file => ∀ inode size fd' size', file = .dmaBuf inode size → x.files fd' = some (.dmaBuf inode size') →
      size' = size
  | .call _ _ _ => True

/-- Any number of descriptors may reach one inode; the kernel gives it one size. -/
def AllowedAlias (x : World Tid w) (action : Action Tid w) : Prop := AllowedShared x action ∧ OneSize x action

/-- `close` leaves no other shown descriptor of a buffer it drops, and a
descriptor shown is of a new inode, with a stack that is kept, or of a buffer
that is counted. -/
def KeepsCount (cfg : Config w) (x : World Tid w) : Action Tid w → Prop
  | .opened _ _ => True
  | .call _ _ (.close fd) =>
    (x.process.pointer.pointers.lookup (fdKey w fd)).isSome = true → ∀ fd' ∈ x.shown, x.info fd' = x.info fd → fd' = fd
  | .call t env call => ∀ shown ∈ x.showing t call,
    (shown.2.1 ∉ x.process.inodeSet ∧ records cfg env.add shown.2.2 = true) ∨ shown.2 ∈ x.buffers

variable [DecidableEq Tid]

/-! ## What holds in every run -/

/-- The tracker is charged for DMA entries alone, each that of a shown
descriptor, of the size of the buffer it is open on. -/
structure Shared (cfg : Config w) (x : World Tid w) : Prop extends Registered cfg x where
  charged : Charged x.process.pointer 0 0
  carries : ∀ k e, x.process.pointer.pointers.lookup k = some e → ∃ fd b, k = fdKey w fd ∧ x.Carries fd b
  oneSize : ∀ fd fd' inode size size', x.info fd = some (inode, size) → x.info fd' = some (inode, size') → size' = size

omit [DecidableEq Tid] in
theorem Shared.init (cfg : Config w) : Shared cfg (World.init Tid w) := by
  refine { Registered.init cfg with charged := Charged.initialized, carries := ?_, oneSize := ?_ }
  · intro k e h
    simp [World.init, Process.init, PointerData.initialized] at h
  · intro fd fd' inode size size' h
    simp [World.init, World.info] at h

omit [DecidableEq Tid] in
/-- A descriptor with an entry carries it. -/
theorem Shared.carries_of_lookup (hw : 32 ≤ w) (hs : Shared cfg x) {fd : Fd} {e : PointerInfoType w}
    (h : x.process.pointer.pointers.lookup (fdKey w fd) = some e) : ∃ b, x.Carries fd b := by
  obtain ⟨fd', b, hk, hc⟩ := hs.carries _ e h
  rw [(fdKey_inj hw).mp hk]
  exact ⟨b, hc⟩

omit [DecidableEq Tid] in
theorem Shared.seen (hs : Shared cfg x) {fd : Fd} (hfd : fd ∈ x.shown) {inode : BitVec 64} {size : Word w}
    (hinfo : x.info fd = some (inode, size)) : inode ∈ x.process.inodeSet := by
  obtain ⟨inode', size', hfile, hseen⟩ := hs.open_of_shown fd hfd
  rw [info_eq_some.mp hinfo] at hfile
  cases hfile
  exact hseen

omit [DecidableEq Tid] in
theorem info_of_showing {t : Tid} {call : HookCall w} {fd : Fd} {b : BitVec 64 × Word w}
    (h : x.showing t call = some (fd, b)) : x.info fd = some b := info_eq_some.mpr (files_of_showing h)

omit [DecidableEq Tid] in
/-- A descriptor that shows a new inode has no entry. -/
theorem Shared.lookup_of_new (hw : 32 ≤ w) (hs : Shared cfg x) {t : Tid} {call : HookCall w} {fd : Fd}
    {inode : BitVec 64} {size : Word w} (h : x.showing t call = some (fd, inode, size))
    (hnew : inode ∉ x.process.inodeSet) : x.process.pointer.pointers.lookup (fdKey w fd) = none := by
  by_contra hne
  obtain ⟨e, he⟩ := Option.ne_none_iff_exists'.mp hne
  obtain ⟨b, hc⟩ := hs.carries_of_lookup hw he
  exact hnew (hs.seen hc.1 (info_of_showing h))

/-- The hooks charge the tracker for entries alone. -/
theorem Shared.charged_step (hw : 32 ≤ w) (hb : cfg.has BACKTRACE = true) (htrack : cfg.trackPointers = true)
    (hs : Shared cfg x) {action : Action Tid w} (h : AllowedShared x action) :
    Charged (x.step cfg action).process.pointer 0 0 := by
  cases action with
  | opened fd file => exact hs.charged
  | call t env call =>
    obtain ⟨hook, hinfo⟩ := h
    rw [step_process]
    by_cases hclose : ∃ fd, call = .close fd
    · obtain ⟨fd, rfl⟩ := hclose
      rw [(close_process htrack t (hs.enabled t) env fd).1]
      exact hs.charged.remove hb _
    · rw [Process.call_pointer htrack, calls_of_dmaHook (hs.enabled t) hook (fun fd hq => hclose ⟨fd, hq⟩) hinfo]
      refine hs.charged.fresh_calls hb ?_
      cases hshow : x.showing t call with
      | none => exact always_nil
      | some shown =>
        obtain ⟨fd, inode, size⟩ := shown
        dsimp only
        split
        · exact always_nil
        · next hnew => exact always_cons.mpr ⟨fun _ => hs.lookup_of_new hw hshow hnew, always_nil⟩

/-! ## What each action does to buffers and carriers -/

section Moves

variable {fd : Fd} {b : BitVec 64 × Word w} {process : Process Tid w}

omit [DecidableEq Tid] in
theorem info_update {fd' : Fd} (hne : fd' ≠ fd) (file : Option (File w)) :
    (Function.update x.files fd file fd').bind File.info = x.info fd' := by
  rw [Function.update_of_ne hne]
  rfl

omit [DecidableEq Tid] in
theorem info_opened (hr : Registered cfg x) {file : File w} (hclosed : x.files fd = none) {fd' : Fd}
    (hfd : fd' ∈ x.shown) : { x with files := Function.update x.files fd (some file) }.info fd' = x.info fd' :=
  info_update (hr.ne_of_closed hclosed hfd) _

omit [DecidableEq Tid] in
theorem buffers_opened (hr : Registered cfg x) {file : File w} (hclosed : x.files fd = none) :
    { x with files := Function.update x.files fd (some file) }.buffers = x.buffers :=
  Finset.biUnion_congr rfl fun _ hfd => by rw [info_opened hr hclosed hfd]

omit [DecidableEq Tid] in
theorem carries_opened (hr : Registered cfg x) {file : File w} (hclosed : x.files fd = none) {fd' : Fd} :
    { x with files := Function.update x.files fd (some file) }.Carries fd' b ↔ x.Carries fd' b := by
  refine and_congr_right fun hfd => ?_
  rw [info_opened hr hclosed hfd]

/-- The world after `close`. -/
abbrev World.closed (x : World Tid w) (fd : Fd) (process : Process Tid w) : World Tid w :=
  { process, files := Function.update x.files fd none, shown := x.shown.erase fd }

omit [DecidableEq Tid] in
theorem mem_buffers_closed : b ∈ (x.closed fd process).buffers ↔ ∃ fd' ∈ x.shown, fd' ≠ fd ∧ x.info fd' = some b := by
  rw [mem_buffers]
  constructor
  · intro h
    obtain ⟨fd', hfd, hinfo⟩ := h
    obtain ⟨hne, hfd⟩ := Finset.mem_erase.mp hfd
    exact ⟨fd', hfd, hne, (info_update hne none).symm.trans hinfo⟩
  · intro h
    obtain ⟨fd', hfd, hne, hinfo⟩ := h
    exact ⟨fd', Finset.mem_erase.mpr ⟨hne, hfd⟩, (info_update hne none).trans hinfo⟩

omit [DecidableEq Tid] in
theorem carries_closed (hw : 32 ≤ w)
    (hp : process.pointer.pointers = x.process.pointer.pointers.erase (fdKey w fd)) {fd' : Fd} :
    (x.closed fd process).Carries fd' b ↔ fd' ≠ fd ∧ x.Carries fd' b := by
  simp only [World.Carries, World.info, hp, lookup_erase_eq, fdKey_inj hw, Finset.mem_erase]
  by_cases hne : fd' = fd
  · simp [hne]
  · simp [hne]

/-- The world after a showing. -/
abbrev World.showed (x : World Tid w) (fd : Fd) (process : Process Tid w) : World Tid w :=
  { x with process, shown := insert fd x.shown }

omit [DecidableEq Tid] in
theorem mem_buffers_showed (hinfo : x.info fd = some b) {b' : BitVec 64 × Word w} :
    b' ∈ (x.showed fd process).buffers ↔ b' = b ∨ b' ∈ x.buffers := by
  rw [mem_buffers, mem_buffers, Finset.exists_mem_insert]
  refine or_congr ?_ Iff.rfl
  rw [show (x.showed fd process).info fd = some b from hinfo, Option.some.injEq, eq_comm]

omit [DecidableEq Tid] in
/-- A showing that adds nothing leaves the carriers. -/
theorem carries_passed (hw : 32 ≤ w) (hs : Shared cfg x)
    (hp : process.pointer.pointers = x.process.pointer.pointers) {fd' : Fd} {b' : BitVec 64 × Word w} :
    (x.showed fd process).Carries fd' b' ↔ x.Carries fd' b' := by
  refine ⟨fun ⟨_, hinfo, e, he, hte⟩ => ?_, fun ⟨hfd, hinfo, e, he, hte⟩ => ?_⟩
  · rw [hp] at he
    obtain ⟨b'', hfd, -, -⟩ := hs.carries_of_lookup hw he
    exact ⟨hfd, hinfo, e, he, hte⟩
  · exact ⟨Finset.mem_insert_of_mem hfd, hinfo, e, by rw [hp, he], hte⟩

omit [DecidableEq Tid] in
/-- A new buffer is carried by the descriptor shown. -/
theorem carries_added (hw : 32 ≤ w) {e : PointerInfoType w} (hinfo : x.info fd = some b)
    (ht : e.memType = .dma) (hsize : e.size = b.2)
    (hp : process.pointer.pointers = x.process.pointer.pointers.insert (fdKey w fd) e) {fd' : Fd}
    {b' : BitVec 64 × Word w} :
    (x.showed fd process).Carries fd' b' ↔ (fd' = fd ∧ b' = b) ∨ (fd' ≠ fd ∧ x.Carries fd' b') := by
  simp only [World.Carries, hp, lookup_insert_eq, fdKey_inj hw]
  by_cases hq : fd' = fd
  · rw [if_pos hq, show (x.showed fd process).info fd' = x.info fd' from rfl, hq, hinfo]
    constructor
    · intro h
      obtain ⟨-, hb, -⟩ := h
      exact .inl ⟨rfl, (Option.some.inj hb).symm⟩
    · intro h
      rcases h with ⟨-, rfl⟩ | ⟨hne, -⟩
      · exact ⟨Finset.mem_insert_self _ _, rfl, e, rfl, ht, hsize⟩
      · exact absurd rfl hne
  · rw [if_neg hq]
    constructor
    · intro h
      obtain ⟨hfd, hb, he⟩ := h
      exact .inr ⟨hq, Finset.mem_of_mem_insert_of_ne hfd hq, hb, he⟩
    · intro h
      rcases h with ⟨hq', -⟩ | ⟨-, hfd, hb, he⟩
      · exact absurd hq' hq
      · exact ⟨Finset.mem_insert_of_mem hfd, hb, he⟩

end Moves

theorem Shared.step (hw : 32 ≤ w) (hb : cfg.has BACKTRACE = true) (htrack : cfg.trackPointers = true)
    (hs : Shared cfg x) {action : Action Tid w} (h : AllowedShared x action) (hone : OneSize x action) :
    Shared cfg (x.step cfg action) := by
  have heff := step_effect htrack hs.charged hs.enabled h
  refine { hs.toRegistered.step hw hb htrack h with
    charged := hs.charged_step hw hb htrack h, carries := ?_, oneSize := ?_ }
  · generalize x.step cfg action = x' at heff
    intro k e he
    cases heff with
    | opened hclosed =>
      obtain ⟨fd', b, hk, hc⟩ := hs.carries k e he
      exact ⟨fd', b, hk, (carries_opened hs.toRegistered hclosed).mpr hc⟩
    | closed hp _ =>
      rw [hp, lookup_erase_eq] at he
      split at he
      · cases he
      · next hne =>
        obtain ⟨fd', b, hk, hc⟩ := hs.carries k e he
        exact ⟨fd', b, hk, (carries_closed hw hp).mpr ⟨fun hq => hne (hq ▸ hk), hc⟩⟩
    | silent _ hp _ =>
      rw [hp] at he
      obtain ⟨fd', b, hk, hfd, hinfo, hentry⟩ := hs.carries k e he
      exact ⟨fd', b, hk, hfd, hinfo, by rwa [hp]⟩
    | passed _ _ hp _ =>
      rw [hp] at he
      obtain ⟨fd', b, hk, hc⟩ := hs.carries k e he
      exact ⟨fd', b, hk, (carries_passed hw hs hp).mpr hc⟩
    | added hshow _ _ ht hsize hp _ =>
      have hcarries : ∀ fd' b', World.Carries _ fd' b' ↔ _ := fun fd' b' =>
        carries_added hw (info_of_showing hshow) ht hsize hp
      rw [hp, lookup_insert_eq] at he
      split at he
      · next hk => exact ⟨_, _, hk, (hcarries _ _).mpr (.inl ⟨rfl, rfl⟩)⟩
      · next hne =>
        obtain ⟨fd', b, hk, hc⟩ := hs.carries k e he
        exact ⟨fd', b, hk, (hcarries _ _).mpr (.inr ⟨fun hq => hne (hq ▸ hk), hc⟩)⟩
  · generalize x.step cfg action = x' at heff
    intro fd₁ fd₂ inode size size' h₁ h₂
    cases heff with
    | @opened fd file hclosed =>
      have hfile : ∀ {fd'}, fd' = fd →
          { x with files := Function.update x.files fd (some file) }.info fd' = file.info := by
        rintro fd' rfl
        simp only [World.info, Function.update_self, Option.bind_some]
      have hsize : ∀ {fd' s s'}, file.info = some (inode, s) → x.info fd' = some (inode, s') → s' = s := by
        intro fd' s s' hq hinfo
        refine hone inode s fd' s' ?_ (info_eq_some.mp hinfo)
        cases file <;> cases hq
        rfl
      by_cases hq₁ : fd₁ = fd <;> by_cases hq₂ : fd₂ = fd
      · rw [hfile hq₁] at h₁
        rw [hfile hq₂, h₁] at h₂
        cases h₂
        rfl
      · rw [hfile hq₁] at h₁
        exact hsize h₁ ((info_update hq₂ _).symm.trans h₂)
      · rw [hfile hq₂] at h₂
        exact (hsize h₂ ((info_update hq₁ _).symm.trans h₁)).symm
      · exact hs.oneSize fd₁ fd₂ inode size size' ((info_update hq₁ _).symm.trans h₁)
          ((info_update hq₂ _).symm.trans h₂)
    | @closed t env fd _ _ _ =>
      have hopen : ∀ {fd' b}, (x.closed fd ‹_›).info fd' = some b → x.info fd' = some b := by
        intro fd' b hinfo
        by_cases hq : fd' = fd
        · simp [World.info, hq] at hinfo
        · exact (info_update hq none).symm.trans hinfo
      exact hs.oneSize fd₁ fd₂ inode size size' (hopen h₁) (hopen h₂)
    | silent => exact hs.oneSize fd₁ fd₂ inode size size' h₁ h₂
    | passed => exact hs.oneSize fd₁ fd₂ inode size size' h₁ h₂
    | added => exact hs.oneSize fd₁ fd₂ inode size size' h₁ h₂

/-! ## The count -/

/-- Every buffer with a shown descriptor has one carrier. -/
def World.OneCarrier (x : World Tid w) : Prop := ∀ b ∈ x.buffers, ∃! fd, x.Carries fd b

/-- The bytes recorded under a descriptor. -/
def World.sizeAt (x : World Tid w) (fd : Fd) : Word w :=
  (x.process.pointer.pointers.lookup (fdKey w fd)).elim 0 (·.size)

omit [DecidableEq Tid] in
/-- With one carrier each, the buffers are the total. -/
theorem Shared.total (hw : 32 ≤ w) (hs : Shared cfg x) (hone : x.OneCarrier) :
    x.process.pointer.currentDma = ∑ b ∈ x.buffers, b.2 := by
  have hdma : ∀ e ∈ x.process.pointer.entries, isDma e.memType = true := by
    intro e he
    obtain ⟨k, hk⟩ := mem_values.mp he
    obtain ⟨fd, b, rfl, -, -, e', he', ht, -⟩ := hs.carries k e hk
    rw [hk] at he'
    cases he'
    rw [ht]
    rfl
  have hkeys : ∀ k e, x.process.pointer.pointers.lookup k = some e → k ∈ x.shown.image (fdKey w) := by
    intro k e he
    obtain ⟨fd, b, rfl, hfd, -⟩ := hs.carries k e he
    exact Finset.mem_image_of_mem _ hfd
  have hinfo : ∀ fd ∈ x.shown, ∃ b ∈ x.buffers, x.info fd = some b := by
    intro fd hfd
    obtain ⟨inode, size, hfile, -⟩ := hs.open_of_shown fd hfd
    have h := info_eq_some.mpr hfile
    exact ⟨_, mem_buffers.mpr ⟨fd, hfd, h⟩, h⟩
  calc x.process.pointer.currentDma
      = ((x.process.pointer.entries.filter fun e => isDma e.memType = true).map (·.size)).sum := by
        rw [hs.charged.dma, add_zero, ofNat_bytes]
    _ = ((values x.process.pointer.pointers).map (·.size)).sum := by
        rw [Multiset.filter_eq_self.mpr hdma, PointerData.entries]
    _ = ∑ fd ∈ x.shown, x.sizeAt fd := by
        rw [sum_values _ hkeys, Finset.sum_image fun fd _ fd' _ hq => (fdKey_inj hw).mp hq]
        rfl
    _ = ∑ fd ∈ x.shown, ∑ b ∈ x.buffers, if x.info fd = some b then x.sizeAt fd else 0 := by
        refine Finset.sum_congr rfl fun fd hfd => ?_
        obtain ⟨b, hb, hq⟩ := hinfo fd hfd
        simp only [hq, Option.some.injEq, Finset.sum_ite_eq, if_pos hb]
    _ = ∑ b ∈ x.buffers, ∑ fd ∈ x.shown, if x.info fd = some b then x.sizeAt fd else 0 := Finset.sum_comm
    _ = ∑ b ∈ x.buffers, b.2 := by
        refine Finset.sum_congr rfl fun b hb => ?_
        obtain ⟨fd, ⟨hfd, hq, e, he, -, hsize⟩, huniq⟩ := hone b hb
        rw [Finset.sum_eq_single fd]
        · rw [if_pos hq, World.sizeAt, he, Option.elim_some, hsize]
        · intro fd' hfd' hne
          split
          · next hq' =>
            rw [World.sizeAt]
            cases he' : x.process.pointer.pointers.lookup (fdKey w fd') with
            | none => rfl
            | some e' =>
              obtain ⟨b', hc⟩ := hs.carries_of_lookup hw he'
              obtain rfl : b = b' := Option.some.inj (hq'.symm.trans hc.2.1)
              exact absurd (huniq fd' hc) hne
          · rfl
        · exact fun hn => absurd hfd hn

omit [DecidableEq Tid] in
theorem Shared.countedOnce_iff (hw : 32 ≤ w) (hs : Shared cfg x) : CountedOnce x ↔ x.OneCarrier :=
  ⟨CountedOnce.once, fun hone => ⟨hone, hs.carries, hs.total hw hone⟩⟩

section OneCarrier

variable {fd : Fd} {b : BitVec 64 × Word w} {process : Process Tid w}

omit [DecidableEq Tid] in
theorem oneCarrier_closed_iff (hw : 32 ≤ w) (hs : Shared cfg x) (hone : x.OneCarrier)
    (hp : process.pointer.pointers = x.process.pointer.pointers.erase (fdKey w fd)) :
    (x.closed fd process).OneCarrier ↔ ((x.process.pointer.pointers.lookup (fdKey w fd)).isSome = true →
      ∀ fd' ∈ x.shown, x.info fd' = x.info fd → fd' = fd) := by
  constructor
  · intro hone' hsome fd' hfd' hinfo
    obtain ⟨e, he⟩ := Option.isSome_iff_exists.mp hsome
    obtain ⟨b, hc⟩ := hs.carries_of_lookup hw he
    by_contra hne
    -- The buffer is still shown, and its one carrier was the descriptor closed.
    obtain ⟨fd₂, hc₂, -⟩ := hone' b (mem_buffers_closed.mpr ⟨fd', hfd', hne, hinfo.trans hc.2.1⟩)
    obtain ⟨hne₂, hc₂⟩ := (carries_closed hw hp).mp hc₂
    exact hne₂ ((hone b (mem_buffers.mpr ⟨fd, hc.1, hc.2.1⟩)).unique hc₂ hc)
  · intro hkeep b hb
    obtain ⟨fd₁, hfd₁, hne₁, hinfo₁⟩ := mem_buffers_closed.mp hb
    obtain ⟨fd₀, hc₀, huniq⟩ := hone b (mem_buffers.mpr ⟨fd₁, hfd₁, hinfo₁⟩)
    have hne₀ : fd₀ ≠ fd := by
      rintro rfl
      obtain ⟨-, hinfo, e, he, -⟩ := hc₀
      exact hne₁ (hkeep (by rw [he]; rfl) fd₁ hfd₁ (hinfo₁.trans hinfo.symm))
    exact ⟨fd₀, (carries_closed hw hp).mpr ⟨hne₀, hc₀⟩, fun fd' hc' => huniq fd' ((carries_closed hw hp).mp hc').2⟩

omit [DecidableEq Tid] in
theorem oneCarrier_passed_iff (hw : 32 ≤ w) (hs : Shared cfg x) (hone : x.OneCarrier) (hinfo : x.info fd = some b)
    (hp : process.pointer.pointers = x.process.pointer.pointers) :
    (x.showed fd process).OneCarrier ↔ b ∈ x.buffers := by
  constructor
  · intro hone'
    obtain ⟨fd₀, hc₀, -⟩ := hone' b ((mem_buffers_showed hinfo).mpr (.inl rfl))
    have hc := (carries_passed hw hs hp).mp hc₀
    exact mem_buffers.mpr ⟨fd₀, hc.1, hc.2.1⟩
  · intro hb b' hb'
    have hb' : b' ∈ x.buffers := by
      rcases (mem_buffers_showed hinfo).mp hb' with rfl | hb'
      · exact hb
      · exact hb'
    obtain ⟨fd₀, hc₀, huniq⟩ := hone b' hb'
    exact ⟨fd₀, (carries_passed hw hs hp).mpr hc₀, fun fd' hc' => huniq fd' ((carries_passed hw hs hp).mp hc')⟩

omit [DecidableEq Tid] in
theorem OneCarrier.added (hw : 32 ≤ w) (hone : x.OneCarrier) {e : PointerInfoType w} (hinfo : x.info fd = some b)
    (hnew : b ∉ x.buffers) (ht : e.memType = .dma) (hsize : e.size = b.2)
    (hp : process.pointer.pointers = x.process.pointer.pointers.insert (fdKey w fd) e) :
    (x.showed fd process).OneCarrier := by
  have hcarries : ∀ {fd' b'}, (x.showed fd process).Carries fd' b' ↔ _ := carries_added hw hinfo ht hsize hp
  intro b' hb'
  by_cases hq : b' = b
  · rw [hq]
    refine ⟨fd, hcarries.mpr (.inl ⟨rfl, rfl⟩), fun fd' hc' => ?_⟩
    rcases hcarries.mp hc' with ⟨h, -⟩ | ⟨-, hc⟩
    · exact h
    · exact absurd (mem_buffers.mpr ⟨fd', hc.1, hc.2.1⟩) hnew
  · obtain ⟨fd₀, hc₀, huniq⟩ := hone b' (((mem_buffers_showed hinfo).mp hb').resolve_left hq)
    have hne : fd₀ ≠ fd := by
      rintro rfl
      exact hq (Option.some.inj (hc₀.2.1.symm.trans hinfo))
    refine ⟨fd₀, hcarries.mpr (.inr ⟨hne, hc₀⟩), fun fd' hc' => ?_⟩
    rcases hcarries.mp hc' with ⟨-, h⟩ | ⟨-, hc⟩
    · exact absurd h hq
    · exact huniq fd' hc

end OneCarrier

omit [DecidableEq Tid] in
theorem keepsCount_call {t : Tid} {env : HookEnv w} {call : HookCall w} (hne : ∀ fd, call ≠ .close fd) :
    KeepsCount cfg x (.call t env call) ↔ ∀ shown ∈ x.showing t call,
      (shown.2.1 ∉ x.process.inodeSet ∧ records cfg env.add shown.2.2 = true) ∨ shown.2 ∈ x.buffers := by
  cases call with
  | close fd => exact absurd rfl (hne fd)
  | _ => exact Iff.rfl

/-- An action keeps one carrier each just when it keeps the count. -/
theorem oneCarrier_step_iff (hw : 32 ≤ w) (htrack : cfg.trackPointers = true) (hs : Shared cfg x)
    (hone : x.OneCarrier) {action : Action Tid w} (h : AllowedShared x action) :
    (x.step cfg action).OneCarrier ↔ KeepsCount cfg x action := by
  by_cases hclose : ∃ t env fd, action = .call t env (.close fd)
  · obtain ⟨t, env, fd, rfl⟩ := hclose
    refine oneCarrier_closed_iff hw hs hone ?_
    rw [(close_process htrack t (hs.enabled t) env fd).1]
    exact remove_pointers cfg _ _
  have heff := step_effect htrack hs.charged hs.enabled h
  generalize x.step cfg action = x' at heff
  have hne : ∀ {t env call}, action = .call t env call → ∀ fd, call ≠ .close fd :=
    fun hq fd hcall => hclose ⟨_, _, fd, hcall ▸ hq⟩
  cases heff with
  | @opened fd file hclosed =>
    refine iff_of_true ?_ trivial
    intro b hb
    rw [buffers_opened hs.toRegistered hclosed] at hb
    simp only [carries_opened hs.toRegistered hclosed]
    exact hone b hb
  | closed _ _ => exact absurd ⟨_, _, _, rfl⟩ hclose
  | silent hshow hp _ =>
    rw [keepsCount_call (hne rfl), hshow]
    refine iff_of_true ?_ (by simp)
    intro b hb
    simp only [World.Carries, hp]
    exact hone b hb
  | @passed t env call process fd inode size hshow hpass hp _ =>
    rw [keepsCount_call (hne rfl), hshow, oneCarrier_passed_iff hw hs hone (info_of_showing hshow) hp]
    simp [hpass]
  | @added t env call process fd inode size e hshow hnew hrec ht hsize hp _ =>
    rw [keepsCount_call (hne rfl), hshow]
    refine iff_of_true (OneCarrier.added hw hone (info_of_showing hshow) ?_ ht hsize hp) (by simp [hnew, hrec])
    intro hb
    obtain ⟨fd', hfd, hinfo⟩ := mem_buffers.mp hb
    exact hnew (hs.seen hfd hinfo)

/-! ## Runs -/

theorem shared_run (hw : 32 ≤ w) (hb : cfg.has BACKTRACE = true) (htrack : cfg.trackPointers = true)
    {actions : List (Action Tid w)}
    (h : Always (fun pre action => AllowedAlias (World.run cfg pre) action) actions) :
    Shared cfg (World.run cfg actions) := by
  induction actions using List.reverseRecOn with
  | nil => exact .init cfg
  | append_singleton actions action ih =>
    obtain ⟨⟨hallowed, hsize⟩, hrest⟩ := always_concat.mp h
    rw [World.run_concat]
    exact (ih hrest).step hw hb htrack hallowed hsize

/-- **Buffers with several descriptors.** In a run of these hooks every buffer
with a shown open descriptor is counted once and every other not at all, in
every state, if and only if every action keeps the count. -/
theorem counted_once_iff (hw : 32 ≤ w) (getenv : Environ) (actions : List (Action Tid w))
    (h : Always (fun pre action => AllowedAlias (World.run (Config.init w getenv) pre) action)
      actions) :
    (∀ pre, pre <+: actions → CountedOnce (World.run (Config.init w getenv) pre)) ↔
      Always (fun pre action => KeepsCount (Config.init w getenv) (World.run (Config.init w getenv) pre) action)
        actions := by
  have hb := init_backtrace w getenv
  have htrack := init_trackPointers w getenv
  have hshared : ∀ {pre}, pre <+: actions → Shared (Config.init w getenv) (World.run (Config.init w getenv) pre) :=
    fun hp => shared_run hw hb htrack (h.mono hp)
  refine prefixes_iff_always ?_ fun pre action hp hx _ => ?_
  · rw [(hshared List.nil_prefix).countedOnce_iff hw]
    intro b hb
    simp [World.run, World.init, World.buffers] at hb
  · obtain ⟨⟨hallowed, -⟩, -⟩ := always_concat.mp (h.mono hp)
    have hs := hshared ((List.prefix_append pre [action]).trans hp)
    rw [hs.countedOnce_iff hw] at hx
    rw [(hshared hp).countedOnce_iff hw, World.run_concat]
    exact oneCarrier_step_iff hw htrack hs hx hallowed

/-! ## A duplicated descriptor -/

/-- A hook while the descriptors `fds` are open on one buffer, by what their
fdinfo says. -/
def aliasEnv (fds : List Fd) : HookEnv 64 :=
  { HookEnv.plain heapSystem with
    fdinfo := fun fd => if fd ∈ fds then (bufferEnv ['7'] ['4', '0', '9', '6']).fdinfo 5 else none }

theorem allowed_aliasEnv {y : World Unit 64} {fds : List Fd}
    (hfiles : ∀ fd, y.files fd = if fd ∈ fds then some (.dmaBuf 7 4096) else none) {call : HookCall 64}
    (hook : DmaHook call) :
    AllowedAlias y (.call () (aliasEnv fds) call) := by
  have hinfo : dmaInfo (bufferEnv ['7'] ['4', '0', '9', '6']) 5 = some (7, 4096) := by decide
  refine ⟨⟨hook, fun fd => ?_⟩, trivial⟩
  rw [hfiles]
  by_cases hfd : fd ∈ fds
  · have hline : (aliasEnv fds).fdinfo fd = (bufferEnv ['7'] ['4', '0', '9', '6']).fdinfo 5 := if_pos hfd
    rw [if_pos hfd, dmaInfo, hline]
    exact hinfo
  · have hline : (aliasEnv fds).fdinfo fd = none := if_neg hfd
    rw [if_neg hfd, dmaInfo, hline]
    rfl

/-- A buffer is allocated, dup'd, and mapped through the copy. -/
def duplicated : List (Action Unit 64) :=
  [.opened 5 (.dmaBuf 7 4096),
    .call () (aliasEnv [5]) (.ioctl 4 (.DMA_HEAP_IOCTL_ALLOC 5)),
    .opened 6 (.dmaBuf 7 4096),
    .call () (aliasEnv [5, 6]) (.mmap { addr := 0, size := 4096, prot := 3, flags := 1, fd := 6, offset := 0 })]

theorem duplicated_files (fd : Fd) : (World.run (Config.init 64 ⟨none, none⟩) duplicated).files fd =
    if fd ∈ ([5, 6] : List Fd) then some (.dmaBuf 7 4096) else none := by
  show Function.update (Function.update (fun _ => none) 5 _) 6 _ fd = _
  simp only [Function.update_apply, List.mem_cons, List.not_mem_nil, or_false]
  by_cases h₆ : fd = 6
  · rw [if_pos h₆, if_pos (Or.inr h₆)]
  · rw [if_neg h₆]
    by_cases h₅ : fd = 5
    · rw [if_pos h₅, if_pos (Or.inl h₅)]
    · rw [if_neg h₅, if_neg (not_or.mpr ⟨h₅, h₆⟩)]

theorem duplicated_allowed :
    Always (fun pre action =>
        AllowedAlias (World.run (Config.init 64 ⟨none, none⟩) pre) action) duplicated := by
  have hfirst : ∀ fd,
      Function.update (fun _ => none : Fd → Option (File 64)) 5 (some (.dmaBuf 7 4096)) fd =
      if fd ∈ ([5] : List Fd) then some (.dmaBuf 7 4096) else none := by
    intro fd
    simp only [Function.update_apply, List.mem_singleton]
  refine always_cons.mpr ⟨⟨rfl, fun _ _ _ _ _ hf => by cases hf⟩, ?_⟩
  refine always_cons.mpr ⟨allowed_aliasEnv hfirst trivial, ?_⟩
  refine always_cons.mpr ⟨⟨rfl, fun inode size fd' size' hfile hopen => ?_⟩, ?_⟩
  · cases hfile
    have hopen := (hfirst fd').symm.trans hopen
    split at hopen
    · cases hopen; rfl
    · cases hopen
  · exact always_cons.mpr ⟨allowed_aliasEnv duplicated_files rfl, always_nil⟩

theorem duplicated_keeps :
    Always (fun pre action =>
        KeepsCount (Config.init 64 ⟨none, none⟩) (World.run (Config.init 64 ⟨none, none⟩) pre) action) duplicated := by
  refine always_cons.mpr ⟨trivial, always_cons.mpr ⟨?_, always_cons.mpr ⟨trivial, always_cons.mpr ⟨?_, always_nil⟩⟩⟩⟩
  · -- The buffer is new.
    intro shown hshown
    obtain rfl : (5, 7, 4096) = shown := Option.some.inj hshown
    exact Or.inl ⟨by decide, records_of_unwind rfl _⟩
  · -- The copy shows it again, while the first descriptor is open.
    intro shown hshown
    obtain rfl : (6, 7, 4096) = shown := Option.some.inj hshown
    exact Or.inr (by decide)

/-- The buffer through the copy is closed through `fd` first. -/
def closedFirst (fd : Fd) : List (Action Unit 64) := duplicated ++ [.call () (aliasEnv [5, 6]) (.close fd)]

theorem closedFirst_allowed (fd : Fd) :
    Always (fun pre action =>
        AllowedAlias (World.run (Config.init 64 ⟨none, none⟩) pre) action)
      (closedFirst fd) :=
  always_concat.mpr ⟨allowed_aliasEnv duplicated_files trivial, duplicated_allowed⟩

theorem closedFirst_keeps :
    Always (fun pre action =>
        KeepsCount (Config.init 64 ⟨none, none⟩) (World.run (Config.init 64 ⟨none, none⟩) pre) action)
      (closedFirst 6) := by
  refine always_concat.mpr ⟨fun hsome => ?_, duplicated_keeps⟩
  exact absurd hsome (by decide)

/-- Closed first, the copy leaves the buffer counted. -/
theorem counted_once_iff_closedFirst : CountedOnce (World.run (Config.init 64 ⟨none, none⟩) (closedFirst 6)) :=
  (counted_once_iff (by decide) ⟨none, none⟩ (closedFirst 6) (closedFirst_allowed 6)).mpr closedFirst_keeps _
    List.prefix_rfl

/-- The descriptor shown first takes the buffer out of the count, though the
copy is open and mapped. -/
theorem closedFirst_not_counted :
    Always (fun pre action =>
        AllowedAlias (World.run (Config.init 64 ⟨none, none⟩) pre) action)
      (closedFirst 5) ∧
    ¬ CountedOnce (World.run (Config.init 64 ⟨none, none⟩) (closedFirst 5)) := by
  refine ⟨closedFirst_allowed 5, fun h => ?_⟩
  have hshown : (7, 4096) ∈ (World.run (Config.init 64 ⟨none, none⟩) (closedFirst 5)).buffers := by decide
  have hgone : (World.run (Config.init 64 ⟨none, none⟩) (closedFirst 5)).process.pointer.pointers = ∅ := by decide
  obtain ⟨fd, ⟨-, -, e, he, -⟩, -⟩ := h.once _ hshown
  rw [hgone] at he
  cases he

end AllocHook
