/-
The three tables of captured stacks are one shared store
(`AllocHook.Lib.SharedStore`): keys are program counter sequences, the
information under an index is the frames a dump prints, and `addFrames` and
`removeBacktrace` are its `acquire` and `release`.

`StackHeld d H` is the store's invariant for the tracker's tables: `H` has an
index once for every reference to it anywhere. The index 2 is the first in
use; 0 and 1 mean "do not record" and "no stack" and are never held.
-/
import AllocHook.PointerData
import AllocHook.Lib.SharedStore

namespace AllocHook

open FiniteMap SharedStore

variable {w : Nat} {cfg : Config w} {d d' : PointerData w} {H : Multiset ℕ}

/-- The stack tables, as the store they implement. -/
def PointerData.stackStore (d : PointerData w) : Store (FrameKeyType w) (List FrameData) :=
  { index := fun k => d.keyToIndex.lookup k
    slots := fun h => (d.frames.lookup h).map fun frameInfo => (frameInfo.references, frameInfo.frames)
    info := fun h => d.backtracesInfo.lookup h
    next := d.curHashIndex }

/-- The frames stored under an index are those of its key. -/
abbrev Fits (w : Nat) (k : FrameKeyType w) (info : List FrameData) : Prop := pcs w info = k

/-- The stack tables are exact about the references `H`. -/
def StackHeld (d : PointerData w) (H : Multiset ℕ) : Prop :=
  Held (Fits w) (kBacktraceEmptyIndex + 1) d.stackStore H

theorem slots_eq_some {h r : ℕ} {k : FrameKeyType w} :
    d.stackStore.slots h = some (r, k) ↔ d.frames.lookup h = some { references := r, frames := k } := by
  simp only [PointerData.stackStore, Option.map_eq_some_iff, Prod.mk.injEq]
  constructor
  · rintro ⟨⟨r', k'⟩, e, rfl, rfl⟩; exact e
  · intro e; exact ⟨_, e, rfl, rfl⟩

theorem slots_eq_none {h : ℕ} : d.stackStore.slots h = none ↔ d.frames.lookup h = none := by
  simp only [PointerData.stackStore, Option.map_eq_none_iff]

theorem StackHeld.initialized : StackHeld (PointerData.initialized w) 0 := by
  have : (PointerData.initialized w).stackStore = Store.empty (kBacktraceEmptyIndex + 1) := by
    simp [PointerData.stackStore, PointerData.initialized, Store.empty]
  rw [StackHeld, this]
  exact Held.empty

/-- A held index has its frames, and the frames a dump prints for it. -/
theorem StackHeld.lookup (hs : StackHeld d H) {h : ℕ} (hm : h ∈ H) :
    ∃ frames info, d.frames.lookup h = some { references := H.count h, frames } ∧
      d.backtracesInfo.lookup h = some info ∧ pcs w info = frames := by
  obtain ⟨r, k, e⟩ := Held.slot hs hm
  obtain ⟨info, hi, hf⟩ := Held.info hs e
  have hr := Held.count hs e
  subst hr
  exact ⟨k, info, slots_eq_some.mp e, hi, hf⟩

theorem StackHeld.lookup_none (hs : StackHeld d H) {h : ℕ} (hm : h ∉ H) : d.frames.lookup h = none :=
  slots_eq_none.mp (Held.slot_none hs hm)

/-- Nothing held, nothing stored. -/
theorem StackHeld.tables_empty (hs : StackHeld d 0) :
    d.frames = ∅ ∧ d.keyToIndex = ∅ ∧ d.backtracesInfo = ∅ := by
  have hf : ∀ h, d.frames.lookup h = none := fun h => hs.lookup_none (Multiset.notMem_zero h)
  refine ⟨eq_empty_of_lookup hf, eq_empty_of_lookup fun k => ?_, eq_empty_of_lookup fun h => ?_⟩
  · cases e : d.keyToIndex.lookup k with
    | none => rfl
    | some h => obtain ⟨r, e'⟩ := Held.index_slot hs e; rw [slots_eq_some, hf h] at e'; cases e'
  · cases e : d.backtracesInfo.lookup h with
    | none => rfl
    | some i => obtain ⟨r, k, e'⟩ := Held.info_slot hs e; rw [slots_eq_some, hf h] at e'; cases e'

/-! ## What the stack operations leave alone -/

/-- Everything but the stack tables is the same. -/
structure SameBooks (d d' : PointerData w) : Prop where
  pointers : d'.pointers = d.pointers
  currentUsed : d'.currentUsed = d.currentUsed
  currentHost : d'.currentHost = d.currentHost
  currentDma : d'.currentDma = d.currentDma
  peakTot : d'.peakTot = d.peakTot
  peakHost : d'.peakHost = d.peakHost
  peakDma : d'.peakDma = d.peakDma
  peakList : d'.peakList = d.peakList

theorem SameBooks.refl (d : PointerData w) : SameBooks d d := ⟨rfl, rfl, rfl, rfl, rfl, rfl, rfl, rfl⟩

/-- The stack tables are the same. -/
structure SameStacks (d d' : PointerData w) : Prop where
  keyToIndex : d'.keyToIndex = d.keyToIndex
  frames : d'.frames = d.frames
  backtracesInfo : d'.backtracesInfo = d.backtracesInfo
  curHashIndex : d'.curHashIndex = d.curHashIndex

theorem SameStacks.refl (d : PointerData w) : SameStacks d d := ⟨rfl, rfl, rfl, rfl⟩

theorem SameStacks.stackStore (h : SameStacks d d') : d'.stackStore = d.stackStore := by
  rw [PointerData.stackStore, PointerData.stackStore, h.keyToIndex, h.frames, h.backtracesInfo, h.curHashIndex]

theorem addFrames_sameBooks (cfg : Config w) (frames : List (Word w)) (info : List FrameData)
    (d : PointerData w) : SameBooks d (d.addFrames cfg frames info).2 := by
  unfold PointerData.addFrames
  split <;> exact ⟨rfl, rfl, rfl, rfl, rfl, rfl, rfl, rfl⟩

theorem addBacktrace_sameBooks (cfg : Config w) (env : AddEnv w) (size : Word w) (d : PointerData w) :
    SameBooks d (d.addBacktrace cfg env size).2 := by
  unfold PointerData.addBacktrace
  split
  · exact .refl d
  · exact .refl d
  · exact addFrames_sameBooks ..

theorem removeBacktrace_sameBooks (cfg : Config w) (h : ℕ) (d : PointerData w) :
    SameBooks d (d.removeBacktrace cfg h) := by
  unfold PointerData.removeBacktrace
  split
  · exact .refl d
  split
  · exact .refl d
  · next frameInfo _ =>
    by_cases hr : frameInfo.references - 1 = 0
    · simp only [if_pos hr]; exact ⟨rfl, rfl, rfl, rfl, rfl, rfl, rfl, rfl⟩
    · simp only [if_neg hr]; exact ⟨rfl, rfl, rfl, rfl, rfl, rfl, rfl, rfl⟩

/-! ## The stack operations are the store's -/

/-- A capture that yields a stack is one that was asked for, and its two
results agree. -/
theorem capture_stack {env : AddEnv w} {size : Word w} {frames info}
    (h : capture cfg env size = .stack frames info) : cfg.has BACKTRACE = true ∧ pcs w info = frames := by
  unfold capture at h
  split at h
  · cases h
  split at h
  · next hb =>
    refine ⟨hb, ?_⟩
    have hu := unwind_pcs w (env.unwinder cfg.backtraceFrames)
    dsimp only at h
    split at h <;> cases h <;> exact hu.symm
  · cases h

theorem addFrames_acquire (hs : StackHeld d H) (hb : cfg.has BACKTRACE = true) (frames : List (Word w))
    (info : List FrameData) :
    (d.addFrames cfg frames info).1 = (d.stackStore.acquire frames info).1 ∧
      (d.addFrames cfg frames info).2.stackStore = (d.stackStore.acquire frames info).2 := by
  cases e : d.keyToIndex.lookup frames with
  | none =>
    have hn : d.stackStore.slots d.curHashIndex = none := Held.slot_none hs (Held.next_notMem hs)
    have hi : d.backtracesInfo.lookup d.curHashIndex = none := by
      cases e' : d.backtracesInfo.lookup d.curHashIndex with
      | none => rfl
      | some i => obtain ⟨r, k, e''⟩ := Held.info_slot hs e'; rw [hn] at e''; cases e''
    rw [Store.acquire_of_none (s := d.stackStore) (i := info) e]
    simp only [PointerData.addFrames, e, hb, if_true, emplace_of_notMem e, emplace_of_notMem (slots_eq_none.mp hn),
      emplace_of_notMem hi]
    refine ⟨rfl, ?_⟩
    simp only [PointerData.stackStore, Store.mk.injEq]
    refine ⟨funext fun x => ?_, funext fun x => ?_, funext fun x => ?_, trivial⟩
    · rw [lookup_insert_eq, Function.update_apply]
    · rw [lookup_insert_eq, Function.update_apply]; split <;> rfl
    · rw [lookup_insert_eq, Function.update_apply]
  | some h =>
    obtain ⟨r, es⟩ := Held.index_slot hs e
    rw [Store.acquire_of_some (s := d.stackStore) (i := info) e es]
    simp only [PointerData.addFrames, e, slots_eq_some.mp es, Option.getD_some]
    refine ⟨trivial, ?_⟩
    simp only [PointerData.stackStore, Store.mk.injEq, and_true, true_and]
    funext x
    rw [lookup_insert_eq, Function.update_apply]
    split <;> rfl

/-- A captured stack is held under the index `addFrames` gives for it. -/
theorem StackHeld.addFrames (hs : StackHeld d H) (hb : cfg.has BACKTRACE = true) {frames : List (Word w)}
    {info : List FrameData} (hf : pcs w info = frames) :
    StackHeld (d.addFrames cfg frames info).2 ((d.addFrames cfg frames info).1 ::ₘ H) := by
  obtain ⟨h₁, h₂⟩ := addFrames_acquire hs hb frames info
  rw [StackHeld, h₁, h₂]
  exact Held.acquire hs hf

theorem addFrames_lookup (hs : StackHeld d H) (hb : cfg.has BACKTRACE = true) (frames : List (Word w))
    (info : List FrameData) :
    ∃ r, (d.addFrames cfg frames info).2.frames.lookup (d.addFrames cfg frames info).1 =
      some { references := r, frames } := by
  obtain ⟨h₁, h₂⟩ := addFrames_acquire hs hb frames info
  obtain ⟨r, hr⟩ := Held.acquire_slot hs frames info
  rw [← h₁, ← h₂] at hr
  exact ⟨r, slots_eq_some.mp hr⟩

/-- No index moves to another stack when a stack is added. -/
theorem addFrames_keeps (hs : StackHeld d H) (hb : cfg.has BACKTRACE = true) (frames : List (Word w))
    (info : List FrameData) {h r k} (e : d.frames.lookup h = some { references := r, frames := k }) :
    ∃ r, (d.addFrames cfg frames info).2.frames.lookup h = some { references := r, frames := k } := by
  obtain ⟨r, hr⟩ := Held.acquire_keeps hs frames info (slots_eq_some.mpr e)
  rw [← (addFrames_acquire hs hb frames info).2] at hr
  exact ⟨r, slots_eq_some.mp hr⟩

theorem removeBacktrace_release (hs : StackHeld d H) {h : ℕ} (hm : h ∈ H) (hb : cfg.has BACKTRACE = true) :
    (d.removeBacktrace cfg h).stackStore = d.stackStore.release h := by
  have hle : ¬ h ≤ kBacktraceEmptyIndex := Nat.not_le.mpr (Held.base_le_of_mem hs hm)
  obtain ⟨r, k, e⟩ := Held.slot hs hm
  simp only [PointerData.removeBacktrace, if_neg hle, slots_eq_some.mp e, Store.release, e, hb, if_true]
  split
  · simp only [PointerData.stackStore, Store.mk.injEq]
    refine ⟨funext fun x => ?_, funext fun x => ?_, funext fun x => ?_, trivial⟩
    · rw [lookup_erase_eq, Function.update_apply]
    · rw [lookup_erase_eq, Function.update_apply]; split <;> rfl
    · rw [lookup_erase_eq, Function.update_apply]
  · simp only [PointerData.stackStore, Store.mk.injEq, and_true, true_and]
    funext x
    rw [lookup_insert_eq, Function.update_apply]
    split <;> rfl

/-- A reference given back is held no more. -/
theorem StackHeld.removeBacktrace (hs : StackHeld d H) {h : ℕ} (hm : h ∈ H) (hb : cfg.has BACKTRACE = true) :
    StackHeld (d.removeBacktrace cfg h) (H.erase h) := by
  rw [StackHeld, removeBacktrace_release hs hm hb]
  exact Held.release hs hm

/-- A stack some other reference holds stays under its index. -/
theorem removeBacktrace_keeps (hs : StackHeld d H) {h : ℕ} (hm : h ∈ H) (hb : cfg.has BACKTRACE = true) {h' r k}
    (e : d.frames.lookup h' = some { references := r, frames := k }) (hk : h' ∈ H.erase h) :
    ∃ r, (d.removeBacktrace cfg h).frames.lookup h' = some { references := r, frames := k } := by
  obtain ⟨r, hr⟩ := Held.release_keeps hs hm (slots_eq_some.mpr e) hk
  rw [← removeBacktrace_release hs hm hb] at hr
  exact ⟨r, slots_eq_some.mp hr⟩

end AllocHook
