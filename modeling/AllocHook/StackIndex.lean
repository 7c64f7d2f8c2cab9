/-
The stack store as an index: what `key_to_index_`, `frames_` and
`backtraces_info_` say about each other in every state the threads reach.

Everything about one state is the invariant of the store (`Held`), read off
in the tracker's tables (`StackHeld.canonical`). That an index is never used
twice is about two states of one run: an index that was handed out and is
not in `frames_` any more (`Gone`) stays out, since a new stack gets
`cur_hash_index_`, which only grows. Indices and reference counts are
numbers here: none of them wraps.
-/
import AllocHook.FrameKeys
import AllocHook.Sections
import AllocHook.UniqueList
import Mathlib.Logic.Relation

namespace AllocHook

open FiniteMap SharedStore

variable {w : Nat} {cfg : Config w} {d : PointerData w} {H : Multiset ℕ}

/-! ## One state -/

/-- The stack tables are a canonical index of the stacks in use. -/
structure CanonicalIndex (d : PointerData w) : Prop where
  inverse : ∀ k h, d.keyToIndex.lookup k = some h ↔
    ∃ references, d.frames.lookup h = some { references, frames := k }
  info : ∀ h, h ∈ d.backtracesInfo ↔ h ∈ d.frames
  range : ∀ h frameInfo, d.frames.lookup h = some frameInfo →
    kBacktraceEmptyIndex + 1 ≤ h ∧ h < d.curHashIndex ∧ 1 ≤ frameInfo.references

theorem mem_frames_iff {h : ℕ} : h ∈ d.frames ↔ ∃ r k, d.stackStore.slots h = some (r, k) := by
  rw [mem_iff_lookup_ne_none, Option.ne_none_iff_exists']
  constructor
  · intro hx
    obtain ⟨⟨r, k⟩, e⟩ := hx
    exact ⟨r, k, slots_eq_some.mpr e⟩
  · intro hx
    obtain ⟨r, k, e⟩ := hx
    exact ⟨_, slots_eq_some.mp e⟩

theorem StackHeld.canonical (hs : StackHeld d H) : CanonicalIndex d := by
  refine ⟨fun k h => ⟨fun e => ?_, fun hx => ?_⟩, fun h => ⟨fun hm => ?_, fun hm => ?_⟩, fun h frameInfo e => ?_⟩
  · obtain ⟨r, es⟩ := Held.index_slot hs e
    exact ⟨r, slots_eq_some.mp es⟩
  · obtain ⟨r, e⟩ := hx
    exact Held.slot_index hs (slots_eq_some.mpr e)
  · obtain ⟨info, e⟩ := Option.ne_none_iff_exists'.mp (mem_iff_lookup_ne_none.mp hm)
    exact mem_frames_iff.mpr (Held.info_slot hs e)
  · obtain ⟨r, k, es⟩ := mem_frames_iff.mp hm
    obtain ⟨info, e, -⟩ := Held.info hs es
    exact mem_iff_lookup_ne_none.mpr (Option.ne_none_iff_exists'.mpr ⟨info, e⟩)
  · obtain ⟨r, k⟩ := frameInfo
    have es := slots_eq_some.mpr e
    have hpos : 0 < H.count h := Multiset.count_pos.mpr (Held.held hs es)
    refine ⟨Held.base_le hs es, Held.lt_next hs es, ?_⟩
    rw [Held.count hs es]
    exact hpos

/-- An index stands for one stack, a stack for one index. -/
theorem CanonicalIndex.index_eq_iff (hc : CanonicalIndex d) {h h' r r' : ℕ} {k k' : FrameKeyType w}
    (e : d.frames.lookup h = some { references := r, frames := k })
    (e' : d.frames.lookup h' = some { references := r', frames := k' }) : h = h' ↔ k = k' := by
  constructor
  · rintro rfl
    rw [e] at e'
    cases e'
    rfl
  · rintro rfl
    have hi := (hc.inverse k h).mpr ⟨r, e⟩
    rw [(hc.inverse k h').mpr ⟨r', e'⟩, Option.some.injEq] at hi
    exact hi.symm

theorem CanonicalIndex.next_absent (hc : CanonicalIndex d) : d.frames.lookup d.curHashIndex = none := by
  by_contra hx
  obtain ⟨frameInfo, e⟩ := Option.ne_none_iff_exists'.mp hx
  exact Nat.lt_irrefl _ (hc.range _ _ e).2.1

/-! ## Indices of the past -/

/-- The index was handed out and is no longer in use. -/
def PointerData.Gone (d : PointerData w) (h : ℕ) : Prop :=
  kBacktraceEmptyIndex < h ∧ h < d.curHashIndex ∧ h ∉ d.frames

theorem slots_none_iff {h : ℕ} : d.stackStore.slots h = none ↔ h ∉ d.frames := by
  rw [slots_eq_none, mem_iff_lookup_ne_none, not_not]

/-- `AddBacktrace` gives no index of the past. -/
theorem StackHeld.addBacktrace_gone (hs : StackHeld d H) (env : AddEnv w) (size : Word w) {h : ℕ} (hg : d.Gone h) :
    (d.addBacktrace cfg env size).1 ≠ h ∧ (d.addBacktrace cfg env size).2.Gone h := by
  obtain ⟨hlt, hcur, hn⟩ := hg
  unfold PointerData.addBacktrace
  cases e : capture cfg env size with
  | exit => exact ⟨Nat.ne_of_lt (Nat.lt_trans Nat.zero_lt_one hlt), hlt, hcur, hn⟩
  | empty => exact ⟨Nat.ne_of_lt hlt, hlt, hcur, hn⟩
  | stack frames info =>
    obtain ⟨hi, hst⟩ := addFrames_acquire hs (capture_stack e).1 frames info
    obtain ⟨hne, hcur', hn'⟩ := Held.acquire_gone hs hcur (slots_none_iff.mpr hn) frames info
    rw [← hi] at hne
    rw [← hst] at hcur' hn'
    exact ⟨hne, hlt, hcur', slots_none_iff.mp hn'⟩

theorem StackHeld.removeBacktrace_gone (hs : StackHeld d H) (hb : cfg.has BACKTRACE = true) {h h' : ℕ} (hm : h ∈ H)
    (hg : d.Gone h') : (d.removeBacktrace cfg h).Gone h' := by
  obtain ⟨hlt, hcur, hn⟩ := hg
  obtain ⟨hnext, hn'⟩ := Store.release_gone (slots_none_iff.mpr hn) h
  rw [← removeBacktrace_release hs hm hb] at hnext hn'
  exact ⟨hlt, by rwa [show (d.removeBacktrace cfg h).curHashIndex = d.curHashIndex from hnext], slots_none_iff.mp hn'⟩

theorem SameStacks.gone {d' : PointerData w} (hd : SameStacks d d') {h : ℕ} (hg : d.Gone h) : d'.Gone h := by
  rw [PointerData.Gone, hd.curHashIndex, hd.frames]
  exact hg

theorem addBacktrace_curHashIndex (cfg : Config w) (env : AddEnv w) (size : Word w) (d : PointerData w) :
    d.curHashIndex ≤ (d.addBacktrace cfg env size).2.curHashIndex := by
  unfold PointerData.addBacktrace
  split
  · exact le_rfl
  · exact le_rfl
  · unfold PointerData.addFrames
    split
    · exact Nat.le_succ _
    · exact le_rfl

theorem removeBacktrace_curHashIndex (cfg : Config w) (h : ℕ) (d : PointerData w) :
    (d.removeBacktrace cfg h).curHashIndex = d.curHashIndex := by
  unfold PointerData.removeBacktrace
  split
  · rfl
  split
  · rfl
  · dsimp only
    split
    · rfl
    · rfl

variable {Tid : Type*} [DecidableEq Tid]

/-- `cur_hash_index_` only grows. -/
theorem Step.curHashIndex {s s' : Sections Tid w} {t : Tid} {sec : Section w} (h : Step cfg s t sec s') :
    s.data.curHashIndex ≤ s'.data.curHashIndex := by
  cases h with
  | addBacktrace env ptr size type hidle => exact addBacktrace_curHashIndex cfg env size s.data
  | insertPointer hat hfree => exact (insertPointer_sameStacks ..).curHashIndex.ge
  | takeSnapshot hat => exact le_rfl
  | erasePointer ptr hidle hfree => exact (erasePointer_sameStacks ..).curHashIndex.ge
  | removeBacktrace hat => exact (removeBacktrace_curHashIndex ..).ge
  | dump it hidle hfree => exact le_rfl

/-- Reached by further sections of any threads. -/
abbrev Leads (cfg : Config w) : Sections Tid w → Sections Tid w → Prop :=
  Relation.ReflTransGen fun s s' => ∃ t sec, Step cfg s t sec s'

theorem Interleaved.leads_refl {s : Sections Tid w} (_ : Interleaved cfg s) : Leads cfg s s := .refl

theorem Leads.step {s s' s'' : Sections Tid w} {t : Tid} {sec : Section w} (hs : Leads cfg s s')
    (h : Step cfg s' t sec s'') : Leads cfg s s'' :=
  hs.tail ⟨t, sec, h⟩

theorem Leads.curHashIndex {s s' : Sections Tid w} (h : Leads cfg s s') :
    s.data.curHashIndex ≤ s'.data.curHashIndex := by
  induction h with
  | refl => exact le_rfl
  | tail _ h ih =>
    obtain ⟨t, sec, h⟩ := h
    exact ih.trans h.curHashIndex

theorem Interleaved.leads {s s' : Sections Tid w} (hs : Interleaved cfg s) (h : Leads cfg s s') :
    Interleaved cfg s' := by
  induction h with
  | refl => exact hs
  | tail _ h ih =>
    obtain ⟨t, sec, h⟩ := h
    exact ih.step h

variable [Fintype Tid]

/-- No section brings an index of the past back. -/
theorem Step.gone {s s' : Sections Tid w} {t : Tid} {sec : Section w} (hb : cfg.has BACKTRACE = true)
    (ha : Attributed cfg s) (h : Step cfg s t sec s') {i : ℕ} (hg : s.data.Gone i) : s'.data.Gone i := by
  obtain ⟨L, hc⟩ := ha.charged
  cases h with
  | addBacktrace env ptr size type hidle => exact (hc.held.addBacktrace_gone env size hg).2
  | insertPointer hat hfree =>
    exact (insertPointer_sameStacks ..).gone hg
  | takeSnapshot hat => exact hg
  | erasePointer ptr hidle hfree =>
    exact (erasePointer_sameStacks ..).gone hg
  | @removeBacktrace h hat =>
    by_cases hlt : kBacktraceEmptyIndex < h
    · rw [inFlight_eq s.threads t, hat, holding_unreferencing, holding_of_lt hlt] at hc
      exact hc.held.removeBacktrace_gone hb (by simp) hg
    · rw [PointerData.removeBacktrace, if_pos (Nat.not_lt.mp hlt)]
      exact hg
  | dump it hidle hfree => exact hg

theorem Interleaved.gone_of_leads (hb : cfg.has BACKTRACE = true) {s s' : Sections Tid w} (hs : Interleaved cfg s)
    (h : Leads cfg s s') {i : ℕ} (hg : s.data.Gone i) : s'.data.Gone i := by
  induction h with
  | refl => exact hg
  | tail hl h ih =>
    obtain ⟨t, sec, h⟩ := h
    exact h.gone hb ((hs.leads hl).attributed hb) ih

/-! ## The index -/

/-- **The stack store is a canonical index**, whatever the threads do: the
tables are inverse to each other, an index erased at one time is handed out
at no later one, and two entries share an index just when their `Add`s
captured one stack. Neither the next index nor a reference count wraps: that
would take `2 ^ w` stacks, or `2 ^ w` `Add`s of one. -/
theorem canonical_index (getenv : Environ) {s : Sections Tid w} (hs : Interleaved (Config.init w getenv) s) :
    CanonicalIndex s.data ∧
    (∀ s' s'' i, Leads (Config.init w getenv) s s' → Leads (Config.init w getenv) s' s'' →
      i ∈ s.data.frames → i ∉ s'.data.frames →
        i ∉ s''.data.frames ∧ ∀ env size, (s''.data.addBacktrace (Config.init w getenv) env size).1 ≠ i) ∧
    (∀ p q a b, s.data.TracedAt p a → s.data.TracedAt q b →
      ∃ x y, s.captured.lookup (manglePointer p) = some x ∧ s.captured.lookup (manglePointer q) = some y ∧
        x.stack.isSome ∧ y.stack.isSome ∧ (a.hashIndex = b.hashIndex ↔ x.stack = y.stack)) ∧
    ∀ key comp : FrameKeyType w, (FrameKeyType.equal key comp = true ↔ key = comp) ∧
      (FrameKeyType.equal key comp = true → FrameKeyType.hash key = FrameKeyType.hash comp) := by
  have hb := init_backtrace w getenv
  have ha := hs.attributed hb
  obtain ⟨L, hc⟩ := ha.charged
  have hcan := hc.held.canonical
  refine ⟨hcan, fun s' s'' i h₁ h₂ hi hn => ?_, fun p q a b hp hq => ?_, fun key comp => ⟨equal_iff, equal_hash⟩⟩
  · have hs' := hs.leads h₁
    obtain ⟨frameInfo, hf⟩ := Option.ne_none_iff_exists'.mp (mem_iff_lookup_ne_none.mp hi)
    obtain ⟨hbase, hlt, -⟩ := hcan.range i frameInfo hf
    have hg : s''.data.Gone i := hs'.gone_of_leads hb h₂ ⟨hbase, hlt.trans_le h₁.curHashIndex, hn⟩
    obtain ⟨L'', hc''⟩ := ((hs'.leads h₂).attributed hb).charged
    exact ⟨hg.2.2, fun env size => (hc''.held.addBacktrace_gone env size hg).1⟩
  · have hlook : ∀ ptr e, s.data.TracedAt ptr e → ∃ r k, s.data.frames.lookup e.hashIndex = some ⟨r, k⟩ ∧
        s.captured.lookup (manglePointer ptr) = some (s.data.live e) ∧ (s.data.live e).stack = some k := by
      intro ptr e hte
      obtain ⟨r, k, info, hf, -, -⟩ := hc.lookup (mem_references _ hte.1 hte.2)
      refine ⟨r, k, hf, ?_, stackAt_of_lookup hte.2 hf⟩
      rw [ha.shows, hte.1, Option.map_some]
    obtain ⟨r, k, hf, hx, hk⟩ := hlook p a hp
    obtain ⟨r', k', hf', hy, hk'⟩ := hlook q b hq
    refine ⟨_, _, hx, hy, by simp [hk], by simp [hk'], ?_⟩
    rw [hk, hk', Option.some.injEq]
    exact hcan.index_eq_iff hf hf'

/-- Two threads add a block each from one place, and take them away again. -/
theorem canonical_index_sharedPlace : ∃ s s' : Sections (Fin 2) 64, Interleaved (Config.init 64 ⟨none, none⟩) s ∧
    Leads (Config.init 64 ⟨none, none⟩) s s' ∧ CanonicalIndex s.data ∧
    (2 ∉ s'.data.frames ∧ ∀ env size, (s'.data.addBacktrace (Config.init 64 ⟨none, none⟩) env size).1 ≠ 2) ∧
    ∃ x y, s.captured.lookup (manglePointer 0x7f0000000000) = some x ∧
      s.captured.lookup (manglePointer 0x7f0000001000) = some y ∧ x.stack = y.stack := by
  have h₁ : Interleaved (Config.init 64 ⟨none, none⟩) _ :=
    Interleaved.init.step (.addBacktrace (t := (0 : Fin 2)) (.single 64 0x1000 1) 0x7f0000000000 4096 .host rfl)
  have h₂ := h₁.step (.addBacktrace (t := (1 : Fin 2)) (.single 64 0x1000 2) 0x7f0000001000 4096 .host rfl)
  have h₃ := h₂.step (.insertPointer (t := 1) rfl (by unfold Sections.PointerFree; decide))
  have h₄ := h₃.step (.insertPointer (t := 0) rfl (by unfold Sections.PointerFree; decide))
  have hcan := canonical_index ⟨none, none⟩ h₄
  have l₁ := h₄.leads_refl.step (.erasePointer (t := 0) 0x7f0000000000 rfl (by unfold Sections.PointerFree; decide))
  have l₂ := l₁.step (.removeBacktrace (t := 0) rfl)
  have l₃ := l₂.step (.erasePointer (t := 1) 0x7f0000001000 rfl (by unfold Sections.PointerFree; decide))
  have l₄ := l₃.step (.removeBacktrace (t := 1) rfl)
  have hgone := hcan.2.1 _ _ 2 l₄ .refl (by decide) (by decide)
  obtain ⟨x, y, hx, hy, -, -, hstack⟩ := hcan.2.2.1 0x7f0000000000 0x7f0000001000
    { size := 4096, hashIndex := 2, memType := .host, allocTime := { tvSec := 1, tvUsec := 0 } }
    { size := 4096, hashIndex := 2, memType := .host, allocTime := { tvSec := 2, tvUsec := 0 } }
    (by unfold PointerData.TracedAt; decide) (by unfold PointerData.TracedAt; decide)
  exact ⟨_, _, h₄, l₄, hcan.1, hgone, x, y, hx, hy, hstack.mp rfl⟩

end AllocHook
