/-
A checkpoint shows the live allocations and nothing of what came and went.

The run of the surviving `Add`s alone keeps the same ledger as the whole run
(`ledger_survivors`). Two states that show one ledger, with nothing charged
beside their entries, differ in the names of their hash indices only
(`Kept.renamed`): a stack has the same holders in both, so the stack tables
are one store up to renaming (`Held.renames`).
-/
import AllocHook.Ledger
import AllocHook.PeakSnapshot

namespace AllocHook

open FiniteMap SharedStore History

variable {w : Nat} {cfg : Config w} {d d' : PointerData w} {l : Ledger w}

/-! ## The surviving calls -/

def Call.removes (ptr : Word w) : Call w → Bool
  | .remove p => p = ptr
  | .add .. => false

def Call.adds (ptr : Word w) : Call w → Bool
  | .add _ p _ _ => p = ptr
  | .remove _ => false

/-- The recorded `Add`s after which nobody removes the pointer, in order. -/
def survivors (cfg : Config w) : List (Call w) → List (Call w)
  | [] => []
  | .remove _ :: rest => survivors cfg rest
  | .add env ptr size t :: rest =>
    if records cfg env size && !rest.any (Call.removes ptr) then .add env ptr size t :: survivors cfg rest
    else survivors cfg rest

theorem survivors_concat_add (env : AddEnv w) (ptr size : Word w) (t : MemType) : ∀ calls : List (Call w),
    survivors cfg (calls ++ [.add env ptr size t]) =
      survivors cfg calls ++ if records cfg env size then [.add env ptr size t] else []
  | [] => by simp [survivors]
  | .remove p :: rest => by simp only [List.cons_append, survivors, survivors_concat_add env ptr size t rest]
  | .add env' ptr' size' t' :: rest => by
    simp only [List.cons_append, survivors, survivors_concat_add env ptr size t rest, List.any_append, List.any_cons,
      List.any_nil, Call.removes, Bool.or_false]
    split <;> rfl

theorem survivors_concat_remove (ptr : Word w) : ∀ calls : List (Call w),
    survivors cfg (calls ++ [.remove ptr]) = (survivors cfg calls).filter fun call => !call.adds ptr
  | [] => rfl
  | .remove p :: rest => by simp only [List.cons_append, survivors, survivors_concat_remove ptr rest]
  | .add env ptr' size t :: rest => by
    simp only [List.cons_append, survivors, survivors_concat_remove ptr rest, List.any_append, List.any_cons,
      List.any_nil, Call.removes, Bool.or_false]
    by_cases hp : ptr = ptr'
    · subst hp
      cases records cfg env size <;> cases rest.any (Call.removes ptr) <;> simp [Call.adds]
    · have hp' : ptr' ≠ ptr := fun h => hp h.symm
      cases records cfg env size <;> cases rest.any (Call.removes ptr') <;> simp [Call.adds, hp, hp']

theorem survivors_add : ∀ {calls : List (Call w)} {call : Call w}, call ∈ survivors cfg calls →
    ∃ env ptr size t, call = .add env ptr size t
  | .remove p :: rest, call, h =>
    have hrest : call ∈ survivors cfg rest := h
    survivors_add hrest
  | .add env ptr size t :: rest, call, h => by
    simp only [survivors] at h
    split at h
    · rcases List.mem_cons.mp h with rfl | h
      · exact ⟨env, ptr, size, t, rfl⟩
      · exact survivors_add h
    · exact survivors_add h

/-! ## They keep the same ledger -/

/-- Without the `Add`s of a pointer, the ledger is without the pointer. -/
theorem ledger_filter (ptr : Word w) {s : List (Call w)} (hs : ∀ call ∈ s, ∃ env p size t, call = .add env p size t) :
    Ledger.run cfg (s.filter fun call => !call.adds ptr) = (Ledger.run cfg s).erase (manglePointer ptr) := by
  induction s using List.reverseRecOn with
  | nil => exact (erase_of_lookup_none (Finmap.lookup_empty _)).symm
  | append_singleton s call ih =>
    obtain ⟨env, p, size, t, rfl⟩ := hs call (by simp)
    have ih := ih fun c hc => hs c (by simp [hc])
    rw [List.filter_append, Ledger.run_concat]
    simp only [Ledger.exec]
    by_cases hp : p = ptr
    · have hnil : [Call.add env p size t].filter (fun call => !call.adds ptr) = [] := by simp [Call.adds, hp]
      rw [hnil, List.append_nil, ih]
      refine Finmap.ext_lookup fun k => ?_
      subst hp
      split
      · simp only [lookup_erase_eq, lookup_insert_eq]
        split <;> rfl
      · rfl
    · have hkeep : [Call.add env p size t].filter (fun call => !call.adds ptr) = [.add env p size t] := by
        simp [Call.adds, hp]
      rw [hkeep, Ledger.run_concat, ih]
      simp only [Ledger.exec]
      split
      · refine Finmap.ext_lookup fun k => ?_
        simp only [lookup_erase_eq, lookup_insert_eq]
        by_cases hk : k = manglePointer ptr
        · have : manglePointer ptr ≠ manglePointer p := fun h => hp (mangle_inj.mp h).symm
          simp [hk, this]
        · simp [hk]
      · rfl

theorem ledger_survivors (cfg : Config w) (calls : List (Call w)) :
    Ledger.run cfg (survivors cfg calls) = Ledger.run cfg calls := by
  induction calls using List.reverseRecOn with
  | nil => rfl
  | append_singleton calls call ih =>
    rw [Ledger.run_concat]
    cases call with
    | add env ptr size t =>
      rw [survivors_concat_add, Ledger.exec]
      split
      · next hr => rw [Ledger.run_concat, ih, Ledger.exec, if_pos hr]
      · rw [List.append_nil, ih]
    | remove ptr =>
      rw [survivors_concat_remove, ledger_filter ptr fun _ => survivors_add, ih]
      rfl

/-- `FreshCall`, read off the ledger. -/
def FreshIn (cfg : Config w) (l : Ledger w) : Call w → Prop
  | .add env ptr size _ => records cfg env size = true → l.lookup (manglePointer ptr) = none
  | .remove _ => True

theorem Shows.freshCall_iff (hv : Shows d l) (call : Call w) : FreshCall cfg d call ↔ FreshIn cfg l call := by
  cases call with
  | remove ptr => exact Iff.rfl
  | add env ptr size t => simp only [FreshCall, FreshIn, hv (manglePointer ptr), Option.map_eq_none_iff]

theorem noReAdd_iff (hb : cfg.has BACKTRACE = true) (calls : List (Call w)) :
    NoReAdd cfg calls ↔ Always (fun pre call => FreshIn cfg (Ledger.run cfg pre) call) calls :=
  forall_congr' fun pre => forall_congr' fun call => forall_congr' fun _ => forall_congr' fun _ =>
    (run_shows hb pre).freshCall_iff call

theorem freshIn_filter (ptr : Word w) {s : List (Call w)} (hs : ∀ call ∈ s, ∃ env p size t, call = .add env p size t)
    (h : Always (fun pre call => FreshIn cfg (Ledger.run cfg pre) call) s) :
    Always (fun pre call => FreshIn cfg (Ledger.run cfg pre) call) (s.filter fun call => !call.adds ptr) := by
  induction s using List.reverseRecOn with
  | nil => exact h
  | append_singleton s call ih =>
    obtain ⟨hcall, hrest⟩ := always_concat.mp h
    have hs' : ∀ c ∈ s, ∃ env p size t, c = .add env p size t := fun c hc => hs c (by simp [hc])
    have ih := ih hs' hrest
    rw [List.filter_append]
    cases hk : call.adds ptr with
    | true => simpa [hk] using ih
    | false =>
      have hkeep : [call].filter (fun call => !call.adds ptr) = [call] := by simp [hk]
      rw [hkeep, always_concat, ledger_filter ptr hs']
      refine ⟨?_, ih⟩
      cases call with
      | remove p => trivial
      | add env p size t =>
        intro hr
        rw [lookup_erase_eq]
        split
        · rfl
        · exact hcall hr

/-- A run that adds no pointer twice has survivors that do not either. -/
theorem NoReAdd.survivors (hb : cfg.has BACKTRACE = true) {calls : List (Call w)} (h : NoReAdd cfg calls) :
    NoReAdd cfg (survivors cfg calls) := by
  rw [noReAdd_iff hb] at h ⊢
  induction calls using List.reverseRecOn with
  | nil => exact h
  | append_singleton calls call ih =>
    obtain ⟨hcall, hrest⟩ := always_concat.mp h
    have ih := ih hrest
    cases call with
    | add env ptr size t =>
      rw [survivors_concat_add]
      split
      · exact always_concat.mpr ⟨by rw [ledger_survivors]; exact hcall, ih⟩
      · simpa using ih
    | remove ptr =>
      rw [survivors_concat_remove]
      exact freshIn_filter ptr (fun _ => survivors_add) ih

/-! ## One ledger, one state up to the names of the indices -/

/-- The same tracker state with the hash indices renamed by `σ`; peaks, the
peak list and the next index are left out. -/
structure Renamed (σ : ℕ → ℕ) (d d' : PointerData w) : Prop where
  bij : Set.BijOn σ {h | h ∈ d.frames} {h | h ∈ d'.frames}
  noStack : σ kBacktraceEmptyIndex = kBacktraceEmptyIndex
  pointers : ∀ k, d'.pointers.lookup k =
    (d.pointers.lookup k).map fun e => { e with hashIndex := σ e.hashIndex }
  currentUsed : d'.currentUsed = d.currentUsed
  currentHost : d'.currentHost = d.currentHost
  currentDma : d'.currentDma = d.currentDma
  frames : ∀ h, h ∈ d.frames → d'.frames.lookup (σ h) = d.frames.lookup h
  keyToIndex : ∀ k, d'.keyToIndex.lookup k = (d.keyToIndex.lookup k).map σ
  backtracesInfo : ∀ h frameInfo, d.frames.lookup h = some frameInfo →
    ∃ info info', d.backtracesInfo.lookup h = some info ∧ d'.backtracesInfo.lookup (σ h) = some info' ∧
      pcs w info = frameInfo.frames ∧ pcs w info' = frameInfo.frames
  onlyFrames : (∀ h, h ∈ d.backtracesInfo ↔ h ∈ d.frames) ∧ ∀ h, h ∈ d'.backtracesInfo ↔ h ∈ d'.frames

/-- The state holds the ledger `l` and is charged for nothing else. -/
structure Kept (d : PointerData w) (l : Ledger w) : Prop where
  charged : Charged d 0 0
  shows : Shows d l
  recorded : ∀ e ∈ d.entries, e.hashIndex ≠ kBacktraceExitIndex

theorem Kept.held (hk : Kept d l) : StackHeld d (stackIndices d.entries) := by simpa using hk.charged.held

theorem Kept.stackAt_lookup (hk : Kept d l) {e : PointerInfoType w} (he : e ∈ d.entries)
    (hlt : kBacktraceEmptyIndex < e.hashIndex) :
    ∃ r k, d.frames.lookup e.hashIndex = some { references := r, frames := k } ∧ d.stackAt e.hashIndex = some k := by
  obtain ⟨k, _, hf, _⟩ := hk.held.lookup (mem_stackIndices he hlt)
  exact ⟨_, k, hf, stackAt_of_lookup hlt hf⟩

/-- An entry with the stack `k` is one under the index of `k`. -/
theorem Kept.stackAt_iff (hk : Kept d l) {e : PointerInfoType w} (he : e ∈ d.entries) {h : ℕ} {k : FrameKeyType w}
    (hi : d.keyToIndex.lookup k = some h) : d.stackAt e.hashIndex = some k ↔ e.hashIndex = h := by
  obtain ⟨r, es⟩ := Held.index_slot hk.held hi
  constructor
  · intro hst
    by_cases hlt : kBacktraceEmptyIndex < e.hashIndex
    · obtain ⟨r', k', hf, hst'⟩ := hk.stackAt_lookup he hlt
      rw [hst, Option.some.injEq] at hst'
      subst hst'
      exact Held.slot_inj hk.held (slots_eq_some.mpr hf) es
    · rw [stackAt_of_le (by omega)] at hst
      cases hst
  · intro hq
    subst hq
    exact stackAt_of_lookup (Held.base_le hk.held es) (slots_eq_some.mp es)

/-- A stack has as many holders as the ledger has allocations with it. -/
theorem Kept.holders (hk : Kept d l) (k : FrameKeyType w) :
    d.stackStore.holders (stackIndices d.entries) k = (values l).countP (·.stack = some k) := by
  rw [hk.shows.entries, Multiset.countP_map, ← Multiset.countP_eq_card_filter]
  cases hi : d.keyToIndex.lookup k with
  | none =>
    have h0 : d.stackStore.holders (stackIndices d.entries) k = 0 := by simp [Store.holders, PointerData.stackStore, hi]
    rw [h0, eq_comm, Multiset.countP_eq_zero]
    intro e he hst
    by_cases hlt : kBacktraceEmptyIndex < e.hashIndex
    · obtain ⟨r, k', hf, hst'⟩ := hk.stackAt_lookup he hlt
      have hst : d.stackAt e.hashIndex = some k := hst
      rw [hst, Option.some.injEq] at hst'
      subst hst'
      have : d.keyToIndex.lookup k = some e.hashIndex := Held.slot_index hk.held (slots_eq_some.mpr hf)
      simp [hi] at this
    · have : d.stackAt e.hashIndex = none := stackAt_of_le (by omega)
      simp [PointerData.live, this] at hst
  | some h =>
    obtain ⟨r, es⟩ := Held.index_slot hk.held hi
    have hq : d.stackStore.holders (stackIndices d.entries) k = (stackIndices d.entries).count h := by
      simp [Store.holders, PointerData.stackStore, hi]
    rw [hq, count_stackIndices (Held.base_le hk.held es)]
    exact Multiset.countP_congr rfl fun e he => propext (hk.stackAt_iff he hi).symm

theorem Kept.bytes (hk : Kept d l) (c : MemType → Bool) :
    bytes c d.entries = ((values l).map fun a => if c a.memType then a.size.toNat else 0).sum := by
  rw [hk.shows.entries, Multiset.map_map]
  rfl

theorem mem_backtracesInfo_iff {H : Multiset ℕ} (hs : StackHeld d H) (h : ℕ) : h ∈ d.backtracesInfo ↔ h ∈ d.frames := by
  rw [mem_iff_lookup_ne_none, mem_iff_lookup_ne_none, ne_eq, ne_eq, ← slots_eq_none]
  constructor
  · intro hi hn
    obtain ⟨info, hinfo⟩ := Option.ne_none_iff_exists'.mp hi
    obtain ⟨r, k, es⟩ := Held.info_slot hs hinfo
    rw [hn] at es
    cases es
  · intro hf hn
    obtain ⟨⟨r, k⟩, es⟩ := Option.ne_none_iff_exists'.mp hf
    obtain ⟨info, hinfo, -⟩ := Held.info hs es
    have hinfo : d.backtracesInfo.lookup h = some info := hinfo
    rw [hn] at hinfo
    cases hinfo

/-- The renaming finds the index the other state has for an entry's stack. -/
theorem Kept.hashIndex_renamed (hk : Kept d l) (hk' : Kept d' l)
    (hr : Renames (Fits w) (d.stackStore.renaming d'.stackStore) d.stackStore d'.stackStore)
    {e e' : PointerInfoType w} (he : e ∈ d.entries) (he' : e' ∈ d'.entries)
    (hst : d.stackAt e.hashIndex = d'.stackAt e'.hashIndex) :
    e'.hashIndex = d.stackStore.renaming d'.stackStore e.hashIndex := by
  by_cases hlt : kBacktraceEmptyIndex < e.hashIndex
  · obtain ⟨r, k, hf, hk₁⟩ := hk.stackAt_lookup he hlt
    rw [hk₁] at hst
    have hi : d'.keyToIndex.lookup k = some (d.stackStore.renaming d'.stackStore e.hashIndex) := by
      have := hr.index k
      rw [Held.slot_index hk.held (slots_eq_some.mpr hf)] at this
      exact this
    exact (hk'.stackAt_iff he' hi).mp hst.symm
  · rw [stackAt_of_le (by omega)] at hst
    have hle' : ¬ kBacktraceEmptyIndex < e'.hashIndex := by
      intro hlt'
      obtain ⟨r, k, hf, hk₁⟩ := hk'.stackAt_lookup he' hlt'
      rw [hk₁] at hst
      cases hst
    have hn : d.stackStore.slots e.hashIndex = none := by
      cases es : d.stackStore.slots e.hashIndex with
      | none => rfl
      | some p => exact absurd (Held.base_le hk.held es) (by simp only [kBacktraceEmptyIndex] at hlt ⊢; omega)
    have h₁ := hk.recorded e he
    have h₂ := hk'.recorded e' he'
    simp only [Store.renaming, hn]
    simp only [kBacktraceEmptyIndex, kBacktraceExitIndex] at *
    omega

theorem Kept.renamed (hk : Kept d l) (hk' : Kept d' l) : Renamed (d.stackStore.renaming d'.stackStore) d d' := by
  have hr := Held.renames hk.held hk'.held fun k => by rw [hk.holders, hk'.holders]
  have hmem : ∀ {d : PointerData w} {h}, h ∈ d.frames ↔ d.stackStore.slots h ≠ none := fun {d h} => by
    rw [mem_iff_lookup_ne_none, ne_eq, ne_eq, slots_eq_none]
  have hempty : d.stackStore.slots kBacktraceEmptyIndex = none := by
    cases es : d.stackStore.slots kBacktraceEmptyIndex with
    | none => rfl
    | some p => exact absurd (Held.base_le hk.held es) (by omega)
  refine ⟨?_, ?_, ?_, ?_, ?_, ?_, ?_, hr.index, ?_, mem_backtracesInfo_iff hk.held, mem_backtracesInfo_iff hk'.held⟩
  · simpa only [hmem] using hr.bij
  · simp only [Store.renaming, hempty]
  · intro k
    have h₁ := hk.shows k
    have h₂ := hk'.shows k
    rw [h₁] at h₂
    cases hp : d.pointers.lookup k with
    | none =>
      rw [hp, Option.map_none, eq_comm, Option.map_eq_none_iff] at h₂
      rw [h₂, Option.map_none]
    | some e =>
      rw [hp, Option.map_some, eq_comm, Option.map_eq_some_iff] at h₂
      obtain ⟨e', hp', hq⟩ := h₂
      simp only [PointerData.live, Live.mk.injEq] at hq
      obtain ⟨hsize, htype, htime, hst⟩ := hq
      have hidx := hk.hashIndex_renamed hk' hr (mem_values.mpr ⟨k, hp⟩) (mem_values.mpr ⟨k, hp'⟩) hst.symm
      rw [hp', Option.map_some, ← hidx, ← hsize, ← htype, ← htime]
  · rw [hk.charged.used, hk'.charged.used, add_zero, add_zero, hk.bytes, hk'.bytes]
  · rw [hk.charged.host, hk'.charged.host, add_zero, add_zero, hk.bytes, hk'.bytes]
  · rw [hk.charged.dma, hk'.charged.dma, add_zero, add_zero, hk.bytes, hk'.bytes]
  · intro h hm
    have hs := hr.slots (hmem.mp hm)
    obtain ⟨⟨r, k⟩, es⟩ := Option.ne_none_iff_exists'.mp (hmem.mp hm)
    rw [es] at hs
    rw [slots_eq_some.mp es, slots_eq_some.mp hs]
  · intro h frameInfo hf
    obtain ⟨r, k⟩ := frameInfo
    exact hr.info (slots_eq_some.mpr hf)

/-- A run that adds no pointer twice is charged for its entries alone. -/
theorem run_kept (hb : cfg.has BACKTRACE = true) {calls : List (Call w)} (h : NoReAdd cfg calls) :
    Kept (PointerData.run cfg calls) (Ledger.run cfg calls) := by
  have hc := run_charged hb calls
  rw [h.leaked] at hc
  exact ⟨hc, run_shows hb calls, fun e => hashIndex_ne_exit hb⟩

/-- **Leak comparison is sound.** The state after a run is the state after
its surviving `Add`s alone, up to the names of the hash indices. -/
theorem leak_comparison (getenv : Environ) (calls : List (Call w)) (h : NoReAdd (Config.init w getenv) calls) :
    ∃ σ : ℕ → ℕ, Renamed σ (PointerData.run (Config.init w getenv) calls)
      (PointerData.run (Config.init w getenv) (survivors (Config.init w getenv) calls)) := by
  have hb := init_backtrace w getenv
  have hk' := run_kept hb (h.survivors hb)
  rw [ledger_survivors] at hk'
  exact ⟨_, (run_kept hb h).renamed hk'⟩

/-- Of two blocks the second survives, and a checkpoint shows it as if it had
been the only one. -/
theorem leak_comparison_peakOfTwo :
    survivors (Config.init 64 ⟨none, none⟩) peakOfTwo =
      [.add (.single 64 0x2000 2) 0x7f0000002000 2048 .host] ∧
    ∃ σ : ℕ → ℕ, Renamed σ (PointerData.run (Config.init 64 ⟨none, none⟩) peakOfTwo)
      (PointerData.run (Config.init 64 ⟨none, none⟩) (survivors (Config.init 64 ⟨none, none⟩) peakOfTwo)) :=
  ⟨rfl, leak_comparison ⟨none, none⟩ peakOfTwo (by decide)⟩

end AllocHook
