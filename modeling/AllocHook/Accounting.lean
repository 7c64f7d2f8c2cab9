/-
Totals and reference counts over whole runs.

Every run is charged for its entries and for those it overwrote
(`run_charged`). So the totals and counts are those of `pointers_` alone
exactly when nothing overwritten carries a size or a stack
(`accounting_exact_iff`): the one call that breaks them is an `Add` on a
pointer that is tracked already. What overwriting cannot break are the
inequalities and the peaks (`counters_and_peaks`).
-/
import AllocHook.Charges
import AllocHook.Lib.History

namespace AllocHook

open FiniteMap SharedStore History

variable {w : Nat} {cfg : Config w}

/-! ## No total wraps -/

/-- All sizes the `Add` calls of a run were given, added up. -/
def totalAdded (calls : List (Call w)) : ℕ :=
  (calls.map fun
    | .add _ _ size _ => size.toNat
    | .remove _ => 0).sum

@[simp] theorem totalAdded_concat (calls : List (Call w)) (call : Call w) :
    totalAdded (calls ++ [call]) = totalAdded calls + totalAdded [call] := by
  simp only [totalAdded, List.map_append, List.sum_append]

theorem totalAdded_mono {pre calls : List (Call w)} (h : pre <+: calls) : totalAdded pre ≤ totalAdded calls := by
  obtain ⟨post, rfl⟩ := h
  simp only [totalAdded, List.map_append, List.sum_append]
  omega

/-- A recorded `Add` charges one entry. -/
theorem entries_add {d : PointerData w} {H : Multiset ℕ} (hs : StackHeld d H) {env : AddEnv w} {size : Word w}
    (hr : records cfg env size = true) (ptr : Word w) (t : MemType) :
    (d.add cfg env ptr size t).entries + d.overwritten ptr = d.newEntry cfg env size t ::ₘ d.entries := by
  rw [PointerData.entries, (add_added hs hr ptr t).pointers, entries_insert]

theorem bytes_remove_le (cfg : Config w) (calls : List (Call w)) (ptr : Word w) :
    bytes anyType (((PointerData.run cfg calls).remove cfg ptr).entries + leaked cfg calls) ≤
      bytes anyType ((PointerData.run cfg calls).entries + leaked cfg calls) := by
  cases hk : (PointerData.run cfg calls).pointers.lookup (manglePointer ptr) with
  | none => rw [remove_of_none hk]
  | some e =>
    have hE : e ::ₘ ((PointerData.run cfg calls).remove cfg ptr).entries = (PointerData.run cfg calls).entries := by
      rw [PointerData.entries, (remove_removed hk).pointers, values_erase hk]; rfl
    rw [← hE, Multiset.cons_add, bytes_cons]
    exact Nat.le_add_left _ _

/-- What a run is charged for is no more than what it added. -/
theorem charged_bytes_le (hb : cfg.has BACKTRACE = true) (calls : List (Call w)) :
    bytes anyType ((PointerData.run cfg calls).entries + leaked cfg calls) ≤ totalAdded calls := by
  induction calls using List.reverseRecOn with
  | nil => exact Nat.le_refl 0
  | append_singleton calls call ih =>
    have hs := (run_charged hb calls).held
    rw [run_concat, leaked_concat, totalAdded_concat]
    cases call with
    | add env ptr size t =>
      simp only [PointerData.exec, PointerData.leaves]
      cases hr : records cfg env size with
      | false =>
        rw [add_of_not_records hr, if_neg (by simp), zero_add]
        exact Nat.le_add_right_of_le ih
      | true =>
        rw [if_pos rfl, ← add_assoc, entries_add hs hr, Multiset.cons_add, bytes_cons]
        simp only [anyType, if_true, PointerData.newEntry, totalAdded, List.map_cons, List.map_nil, List.sum_cons,
          List.sum_nil] at ih ⊢
        omega
    | remove ptr =>
      simp only [PointerData.exec, PointerData.leaves, zero_add]
      exact Nat.le_add_right_of_le ((bytes_remove_le cfg calls ptr).trans ih)

/-- What a run is charged for is less than a word. -/
def Unwrapped (cfg : Config w) (calls : List (Call w)) : Prop :=
  bytes anyType ((PointerData.run cfg calls).entries + leaked cfg calls) < 2 ^ w

theorem unwrapped_of_totalAdded (hb : cfg.has BACKTRACE = true) {calls : List (Call w)}
    (hsum : totalAdded calls < 2 ^ w) : Unwrapped cfg calls := (charged_bytes_le hb calls).trans_lt hsum

/-- A charged total as a number. -/
theorem Unwrapped.toNat_bytes {calls : List (Call w)} (h : Unwrapped cfg calls) (c : MemType → Bool) :
    (BitVec.ofNat w (bytes c ((PointerData.run cfg calls).entries + leaked cfg calls))).toNat =
      bytes c (PointerData.run cfg calls).entries + bytes c (leaked cfg calls) := by
  have hle := bytes_le_any c ((PointerData.run cfg calls).entries + leaked cfg calls)
  rw [BitVec.toNat_ofNat, Nat.mod_eq_of_lt (hle.trans_lt h), bytes_add]

/-- The call does not make the total wrap. -/
def FitsCall (cfg : Config w) (d : PointerData w) : Call w → Prop
  | .add env _ size _ => records cfg env size = true → d.currentUsed.toNat + size.toNat < 2 ^ w
  | .remove _ => True

instance (cfg : Config w) (d : PointerData w) : (call : Call w) → Decidable (FitsCall cfg d call)
  | .add .. => inferInstanceAs (Decidable (_ → _))
  | .remove _ => inferInstanceAs (Decidable True)

/-- No addition of the run wraps. -/
abbrev NoWrap (cfg : Config w) (calls : List (Call w)) : Prop :=
  Always (fun pre call => FitsCall cfg (PointerData.run cfg pre) call) calls

/-- A total is what the run is charged for, so the sum of an addition that does
not wrap is it again. -/
theorem NoWrap.unwrapped (hb : cfg.has BACKTRACE = true) {calls : List (Call w)} (h : NoWrap cfg calls) :
    Unwrapped cfg calls := by
  unfold Unwrapped
  induction calls using List.reverseRecOn with
  | nil => exact Nat.two_pow_pos w
  | append_singleton calls call ih =>
    obtain ⟨hfits, hpre⟩ := always_concat.mp h
    have hlt := ih hpre
    have hc := run_charged hb calls
    rw [run_concat, leaked_concat]
    cases call with
    | add env ptr size t =>
      simp only [PointerData.exec, PointerData.leaves]
      cases hr : records cfg env size with
      | false => rwa [add_of_not_records hr, if_neg (by simp), zero_add]
      | true =>
        have hsize := hfits hr
        rw [hc.used, BitVec.toNat_ofNat, Nat.mod_eq_of_lt hlt] at hsize
        rw [if_pos rfl, ← add_assoc, entries_add hc.held hr, Multiset.cons_add, bytes_cons]
        simp only [anyType, if_true, PointerData.newEntry]
        omega
    | remove ptr =>
      simp only [PointerData.exec, PointerData.leaves, zero_add]
      exact (bytes_remove_le cfg calls ptr).trans_lt hlt

/-! ## Exact accounting -/

/-- The totals and the reference counts are those of `pointers_`. -/
structure Exact (d : PointerData w) : Prop where
  dma : d.currentDma.toNat = bytes isDma d.entries
  host : d.currentHost.toNat = bytes isHost d.entries
  used : d.currentUsed.toNat = bytes anyType d.entries
  references : ∀ h, kBacktraceEmptyIndex < h →
    (d.frames.lookup h).map FrameInfoType.references =
      if d.entries.countP (·.hashIndex = h) = 0 then none else some (d.entries.countP (·.hashIndex = h))
  empty : d.pointers = ∅ → d.currentDma = 0 ∧ d.currentHost = 0 ∧ d.currentUsed = 0 ∧
    d.frames = ∅ ∧ d.keyToIndex = ∅ ∧ d.backtracesInfo = ∅

/-- Nothing is lost when the entry is overwritten: no size, no stack. -/
def Weightless (e : PointerInfoType w) : Prop := e.size = 0 ∧ e.hashIndex ≤ kBacktraceEmptyIndex

instance (e : PointerInfoType w) : Decidable (Weightless e) := inferInstanceAs (Decidable (_ ∧ _))

/-- The call overwrites no entry that carries a size or a stack. -/
def CleanCall (cfg : Config w) (d : PointerData w) : Call w → Prop
  | .add env ptr size _ =>
    records cfg env size = true → ∀ e ∈ d.pointers.lookup (manglePointer ptr), Weightless e
  | .remove _ => True

instance (cfg : Config w) (d : PointerData w) : (call : Call w) → Decidable (CleanCall cfg d call)
  | .add .. => inferInstanceAs (Decidable (_ → _))
  | .remove _ => inferInstanceAs (Decidable True)

theorem cleanCall_iff {d : PointerData w} {call : Call w} :
    CleanCall cfg d call ↔ ∀ e ∈ d.leaves cfg call, Weightless e := by
  cases call with
  | remove ptr => simp [CleanCall, PointerData.leaves]
  | add env ptr size t =>
    simp only [CleanCall, PointerData.leaves]
    cases records cfg env size with
    | false => simp
    | true =>
      unfold PointerData.overwritten
      cases d.pointers.lookup (manglePointer ptr) <;> simp

theorem bytes_eq_zero {c : MemType → Bool} {L : Multiset (PointerInfoType w)} (h : ∀ e ∈ L, e.size = 0) :
    bytes c L = 0 := by
  induction L using Multiset.induction_on with
  | empty => rfl
  | cons e L ih =>
    rw [bytes_cons, ih fun e he => h e (Multiset.mem_cons_of_mem he), h e (Multiset.mem_cons_self e L)]
    simp

theorem size_eq_zero {L : Multiset (PointerInfoType w)} (h : bytes anyType L = 0) : ∀ e ∈ L, e.size = 0 := by
  intro e he
  obtain ⟨L', rfl⟩ := Multiset.exists_cons_of_mem he
  simp only [bytes_cons, anyType, if_true] at h
  exact BitVec.eq_of_toNat_eq (by simp only [BitVec.ofNat_eq_ofNat, BitVec.toNat_ofNat, Nat.zero_mod]; omega)

theorem countP_eq_zero {L : Multiset (PointerInfoType w)} (hl : ∀ e ∈ L, e.hashIndex ≤ kBacktraceEmptyIndex) {h : ℕ}
    (hh : kBacktraceEmptyIndex < h) : L.countP (·.hashIndex = h) = 0 := by
  rw [Multiset.countP_eq_zero]
  intro e he hq
  exact absurd (hl e he) (by omega)

/-- The stored count of an index is its references among the entries and
among the overwritten ones. -/
theorem Charged.references {d : PointerData w} {L : Multiset (PointerInfoType w)} (hc : Charged d L 0) {h : ℕ}
    (hh : kBacktraceEmptyIndex < h) :
    (d.frames.lookup h).map FrameInfoType.references =
      if d.entries.countP (·.hashIndex = h) + L.countP (·.hashIndex = h) = 0 then none
      else some (d.entries.countP (·.hashIndex = h) + L.countP (·.hashIndex = h)) := by
  have hcount : (stackIndices (d.entries + L) + 0).count h =
      d.entries.countP (·.hashIndex = h) + L.countP (·.hashIndex = h) := by
    rw [add_zero, count_stackIndices hh, Multiset.countP_add]
  rw [← hcount]
  split
  · next h0 => rw [hc.held.lookup_none (Multiset.count_eq_zero.mp h0)]; rfl
  · next h0 =>
    obtain ⟨frames, _, hf, _⟩ := hc.held.lookup (Multiset.count_ne_zero.mp h0)
    rw [hf]; rfl

theorem exact_iff_leaked (hb : cfg.has BACKTRACE = true) {calls : List (Call w)} (hwrap : Unwrapped cfg calls) :
    Exact (PointerData.run cfg calls) ↔ ∀ e ∈ leaked cfg calls, Weightless e := by
  have hc := run_charged hb calls
  have hN := hwrap.toNat_bytes
  constructor
  · intro hx e he
    have hused : bytes anyType (leaked cfg calls) = 0 := by
      have := hx.used
      rw [hc.used, hN] at this
      omega
    refine ⟨size_eq_zero hused e he, ?_⟩
    by_contra hlt
    have hpos : 0 < (leaked cfg calls).countP (·.hashIndex = e.hashIndex) := Multiset.countP_pos.mpr ⟨e, he, rfl⟩
    have := hx.references e.hashIndex (Nat.not_le.mp hlt)
    rw [hc.references (Nat.not_le.mp hlt), if_neg (by omega)] at this
    split at this
    · cases this
    · simp only [Option.some.injEq] at this; omega
  · intro hw
    have hz : ∀ c, bytes c (leaked cfg calls) = 0 := fun c => bytes_eq_zero fun e he => (hw e he).1
    have hl : ∀ e ∈ leaked cfg calls, e.hashIndex ≤ kBacktraceEmptyIndex := fun e he => (hw e he).2
    refine ⟨?_, ?_, ?_, ?_, ?_⟩
    · rw [hc.dma, hN, hz, add_zero]
    · rw [hc.host, hN, hz, add_zero]
    · rw [hc.used, hN, hz, add_zero]
    · intro h hh
      rw [hc.references hh, countP_eq_zero hl hh, add_zero]
    · intro hp
      have hE : (PointerData.run cfg calls).entries = 0 := by rw [PointerData.entries, hp]; rfl
      have hS : stackIndices ((PointerData.run cfg calls).entries + leaked cfg calls) + 0 = 0 := by
        rw [add_zero, hE, zero_add, Multiset.eq_zero_iff_forall_notMem]
        intro h hm
        have hh : kBacktraceEmptyIndex < h := by
          have hheld := hc.held
          rw [add_zero, hE, zero_add] at hheld
          exact Held.base_le_of_mem hheld hm
        rw [← Multiset.count_pos, count_stackIndices hh, countP_eq_zero hl hh] at hm
        exact absurd hm (Nat.lt_irrefl 0)
      have hheld := hc.held
      rw [hS] at hheld
      refine ⟨?_, ?_, ?_, hheld.tables_empty⟩
      · rw [hc.dma, hE, zero_add, hz]; rfl
      · rw [hc.host, hE, zero_add, hz]; rfl
      · rw [hc.used, hE, zero_add, hz]; rfl

/-- What a run leaked is what each of its calls left. -/
theorem mem_leaked {calls : List (Call w)} {e : PointerInfoType w} :
    e ∈ leaked cfg calls ↔ Occurs (fun pre call => e ∈ (PointerData.run cfg pre).leaves cfg call) calls := by
  induction calls using List.reverseRecOn with
  | nil => exact ⟨fun h => absurd h (Multiset.notMem_zero e), fun h => absurd h occurs_nil⟩
  | append_singleton calls call ih => rw [leaked_concat, Multiset.mem_add, ih, occurs_concat]

/-- The call is not a recorded `Add` on a tracked pointer. -/
def FreshCall (cfg : Config w) (d : PointerData w) : Call w → Prop
  | .add env ptr size _ => records cfg env size = true → d.pointers.lookup (manglePointer ptr) = none
  | .remove _ => True

instance (cfg : Config w) (d : PointerData w) : (call : Call w) → Decidable (FreshCall cfg d call)
  | .add .. => inferInstanceAs (Decidable (_ → _))
  | .remove _ => inferInstanceAs (Decidable True)

/-- No recorded `Add` of the run finds its pointer tracked. -/
abbrev NoReAdd (cfg : Config w) (calls : List (Call w)) : Prop :=
  Always (fun pre call => FreshCall cfg (PointerData.run cfg pre) call) calls

theorem FreshCall.leaves {d : PointerData w} {call : Call w} (h : FreshCall cfg d call) : d.leaves cfg call = 0 := by
  cases call with
  | remove ptr => rfl
  | add env ptr size t =>
    simp only [PointerData.leaves]
    split
    · next hr => rw [PointerData.overwritten, h hr]
    · rfl

/-- Fresh calls charge nothing but entries. -/
theorem Charged.fresh_calls (hb : cfg.has BACKTRACE = true) {d : PointerData w} {calls : List (Call w)}
    (hc : Charged d 0 0) (h : Always (fun pre c => FreshCall cfg (pre.foldl (PointerData.exec cfg) d) c) calls) :
    Charged (calls.foldl (PointerData.exec cfg) d) 0 0 := by
  induction calls generalizing d with
  | nil => exact hc
  | cons c calls ih =>
    obtain ⟨hfresh, hrest⟩ := always_cons.mp h
    have hleaves : d.leaves cfg c = 0 := hfresh.leaves
    have hstep := hc.exec hb c
    rw [hleaves, add_zero] at hstep
    exact ih hstep hrest

/-- A run without them leaks nothing. -/
theorem NoReAdd.leaked {calls : List (Call w)} (h : NoReAdd cfg calls) : leaked cfg calls = 0 := by
  rw [Multiset.eq_zero_iff_forall_notMem]
  intro e he
  obtain ⟨pre, call, post, hq, he⟩ := mem_leaked.mp he
  rw [(h pre call post hq).leaves] at he
  exact Multiset.notMem_zero e he

/-- Every entry was written by an `Add` of the run. -/
theorem mem_entries_written (hb : cfg.has BACKTRACE = true) {calls : List (Call w)} {k : Word w}
    {e : PointerInfoType w} (he : (PointerData.run cfg calls).pointers.lookup k = some e) :
    Occurs (fun pre call => ∃ env ptr size t, call = .add env ptr size t ∧ records cfg env size = true ∧
      k = manglePointer ptr ∧ e = (PointerData.run cfg pre).newEntry cfg env size t) calls := by
  induction calls using List.reverseRecOn with
  | nil => simp [PointerData.run, PointerData.initialized] at he
  | append_singleton calls call ih =>
    rw [occurs_concat]
    rw [run_concat] at he
    cases call with
    | add env ptr size t =>
      cases hr : records cfg env size with
      | false =>
        rw [PointerData.exec, add_of_not_records hr] at he
        exact .inr (ih he)
      | true =>
        rw [PointerData.exec, (add_added (run_charged hb calls).held hr ptr t).pointers, lookup_insert_eq] at he
        split at he
        · next hk => exact .inl ⟨env, ptr, size, t, rfl, hr, hk, (Option.some.inj he).symm⟩
        · exact .inr (ih he)
    | remove ptr =>
      rw [PointerData.exec, remove_pointers, lookup_erase_eq] at he
      split at he
      · cases he
      · exact .inr (ih he)

/-- No entry is under the index of "do not record". -/
theorem hashIndex_ne_exit (hb : cfg.has BACKTRACE = true) {calls : List (Call w)} {e : PointerInfoType w}
    (he : e ∈ (PointerData.run cfg calls).entries) : e.hashIndex ≠ kBacktraceExitIndex := by
  obtain ⟨k, hk⟩ := mem_values.mp he
  obtain ⟨pre, _, _, _, env, ptr, size, t, -, hr, -, rfl⟩ := mem_entries_written hb hk
  exact addBacktrace_ne_exit (run_charged hb pre).held hr

/-- **Accounting over whole runs.** After a finite sequence of completed
calls, none of which makes a total wrap, the totals and reference counts are
those of `pointers_` if and only if no recorded `Add` found its pointer tracked
under an entry with a size or a stack. -/
theorem accounting_exact_iff (getenv : Environ) (calls : List (Call w))
    (hwrap : NoWrap (Config.init w getenv) calls) :
    Exact (PointerData.run (Config.init w getenv) calls) ↔
      Always (fun pre call => CleanCall (Config.init w getenv) (PointerData.run (Config.init w getenv) pre) call)
        calls := by
  rw [exact_iff_leaked (init_backtrace w getenv) (hwrap.unwrapped (init_backtrace w getenv))]
  constructor
  · intro h pre call post hq
    exact cleanCall_iff.mpr fun e he => h e (mem_leaked.mpr ⟨pre, call, post, hq, he⟩)
  · intro h e he
    obtain ⟨pre, call, post, hq, he⟩ := mem_leaked.mp he
    exact cleanCall_iff.mp (h pre call post hq) e he

/-- A mapping of two pages, and one of a page placed over it. -/
def mappedOver : List (Call 64) :=
  [.add (.single 64 0x1000 1) 0x7f0000000000 8192 .mmap, .add (.single 64 0x2000 2) 0x7f0000000000 4096 .mmap]

/-- Unmapping first, the books stay exact. -/
theorem accounting_exact_iff_unmapped :
    Exact (PointerData.run (Config.init 64 ⟨none, none⟩)
      [.add (.single 64 0x1000 1) 0x7f0000000000 8192 .mmap, .remove 0x7f0000000000,
        .add (.single 64 0x2000 2) 0x7f0000000000 4096 .mmap]) :=
  (accounting_exact_iff ⟨none, none⟩ _ (by decide)).mpr (by decide)

/-- The page placed over the mapping leaves 12288 bytes charged for 4096. -/
theorem mappedOver_not_exact : ¬ Exact (PointerData.run (Config.init 64 ⟨none, none⟩) mappedOver) := by
  intro h
  have hused : (PointerData.run (Config.init 64 ⟨none, none⟩) mappedOver).currentUsed = 12288 := by decide
  have hbytes : bytes anyType (PointerData.run (Config.init 64 ⟨none, none⟩) mappedOver).entries = 4096 := by decide
  have := h.used
  rw [hused, hbytes] at this
  exact absurd this (by decide)

/-! ## Counters and peaks -/

/-- No total is above its peak. -/
structure BelowPeaks (d : PointerData w) : Prop where
  host : d.currentHost ≤ d.peakHost
  dma : d.currentDma ≤ d.peakDma
  used : d.currentUsed ≤ d.peakTot

/-- Every peak is the old one or the new total, whichever is more. -/
structure Raised (d d' : PointerData w) : Prop where
  host : d'.peakHost.toNat = max d.peakHost.toNat d'.currentHost.toNat
  dma : d'.peakDma.toNat = max d.peakDma.toNat d'.currentDma.toNat
  tot : d'.peakTot.toNat = max d.peakTot.toNat d'.currentUsed.toNat

theorem toNat_ite_lt {p c : Word w} {P : Prop} [Decidable P] (h : ¬ P → c ≤ p) :
    (if P ∧ p < c then c else p).toNat = max p.toNat c.toNat := by
  by_cases hP : P
  · by_cases hlt : p < c
    · rw [if_pos ⟨hP, hlt⟩, max_eq_right (BitVec.lt_def.mp hlt).le]
    · rw [if_neg fun hc => hlt hc.2, max_eq_left (BitVec.le_def.mp (BitVec.not_lt.mp hlt))]
  · rw [if_neg fun hc => hP hc.1, max_eq_left (BitVec.le_def.mp (h hP))]

theorem Raised.of_below {d d' : PointerData w} (hb : BelowPeaks d')
    (hh : d'.peakHost = d.peakHost) (hd : d'.peakDma = d.peakDma) (ht : d'.peakTot = d.peakTot) : Raised d d' :=
  ⟨by rw [← hh, max_eq_left (BitVec.le_def.mp hb.host)], by rw [← hd, max_eq_left (BitVec.le_def.mp hb.dma)],
    by rw [← ht, max_eq_left (BitVec.le_def.mp hb.used)]⟩

theorem Added.raised {d d' : PointerData w} {ptr : Word w} {e : PointerInfoType w} (ha : Added d d' ptr e)
    (hb : BelowPeaks d) : Raised d d' := by
  refine ⟨?_, ?_, ?_⟩
  · rw [ha.peakHost]
    refine toNat_ite_lt fun hn => ?_
    rw [ha.currentHost, if_neg hn]
    exact hb.host
  · rw [ha.peakDma]
    refine toNat_ite_lt fun hn => ?_
    rw [ha.currentDma, if_neg hn]
    exact hb.dma
  · rw [ha.peakTot]
    simpa using toNat_ite_lt (p := d.peakTot) (c := d'.currentUsed) (P := True) (fun h => absurd trivial h)

/-- The totals of a run cover the sizes of its entries, class by class. -/
structure Covers (d : PointerData w) : Prop where
  used : bytes anyType d.entries ≤ d.currentUsed.toNat
  host : bytes isHost d.entries ≤ d.currentHost.toNat
  dma : bytes isDma d.entries ≤ d.currentDma.toNat

theorem run_covers (hb : cfg.has BACKTRACE = true) {calls : List (Call w)} (hsum : totalAdded calls < 2 ^ w) :
    Covers (PointerData.run cfg calls) := by
  have hc := run_charged hb calls
  have hN := (unwrapped_of_totalAdded hb hsum).toNat_bytes
  refine ⟨?_, ?_, ?_⟩
  · rw [hc.used, hN]; exact Nat.le_add_right _ _
  · rw [hc.host, hN]; exact Nat.le_add_right _ _
  · rw [hc.dma, hN]; exact Nat.le_add_right _ _

theorem size_le_bytes {c : MemType → Bool} {M : Multiset (PointerInfoType w)} {e : PointerInfoType w} (he : e ∈ M)
    (hc : c e.memType = true) : e.size.toNat ≤ bytes c M := by
  obtain ⟨M', rfl⟩ := Multiset.exists_cons_of_mem he
  rw [bytes_cons, if_pos hc]
  exact Nat.le_add_right _ _

/-- The subtractions of a `Remove` do not underflow. -/
theorem Covers.size_le {d : PointerData w} (hd : Covers d) {ptr : Word w} {e : PointerInfoType w}
    (hk : d.pointers.lookup (manglePointer ptr) = some e) :
    e.size ≤ d.currentUsed ∧ (isHost e.memType = true → e.size ≤ d.currentHost) ∧
      (isDma e.memType = true → e.size ≤ d.currentDma) := by
  have he : e ∈ d.entries := mem_values.mpr ⟨_, hk⟩
  refine ⟨?_, fun h => ?_, fun h => ?_⟩
  · exact BitVec.le_def.mpr ((size_le_bytes he rfl).trans hd.used)
  · exact BitVec.le_def.mpr ((size_le_bytes he h).trans hd.host)
  · exact BitVec.le_def.mpr ((size_le_bytes he h).trans hd.dma)

theorem sub_le_of_le {a b p : Word w} (h : b ≤ a) (hp : a ≤ p) : a - b ≤ p := by
  rw [BitVec.le_def] at hp ⊢
  rw [BitVec.toNat_sub_of_le h]
  exact (Nat.sub_le _ _).trans hp

theorem Removed.raised {d d' : PointerData w} {ptr : Word w} {e : PointerInfoType w} (hr : Removed d d' ptr e)
    (hk : d.pointers.lookup (manglePointer ptr) = some e) (hb : BelowPeaks d) (hd : Covers d) : Raised d d' := by
  obtain ⟨hu, hh, hm⟩ := hd.size_le hk
  refine .of_below ⟨?_, ?_, ?_⟩ hr.peakHost hr.peakDma hr.peakTot
  · rw [hr.currentHost, hr.peakHost]
    split
    · next h => exact sub_le_of_le (hh h) hb.host
    · exact hb.host
  · rw [hr.currentDma, hr.peakDma]
    split
    · next h => exact sub_le_of_le (hm h) hb.dma
    · exact hb.dma
  · rw [hr.currentUsed, hr.peakTot]
    exact sub_le_of_le hu hb.used

/-- One call raises the peaks to the totals it reached. -/
theorem Raised.exec (cfg : Config w) {d : PointerData w} {H : Multiset ℕ} (hs : StackHeld d H) (hb : BelowPeaks d)
    (hd : Covers d)
    (call : Call w) : Raised d (d.exec cfg call) := by
  cases call with
  | add env ptr size t =>
    cases hr : records cfg env size with
    | false => rw [PointerData.exec, add_of_not_records hr]; exact .of_below hb rfl rfl rfl
    | true => exact (add_added hs hr ptr t).raised hb
  | remove ptr =>
    cases hk : d.pointers.lookup (manglePointer ptr) with
    | none => rw [PointerData.exec, remove_of_none hk]; exact .of_below hb rfl rfl rfl
    | some e => exact (remove_removed hk).raised hk hb hd

/-- The peaks are the maxima the totals have had. -/
structure AtPeaks (cfg : Config w) (calls : List (Call w)) : Prop where
  host : Peak (fun l => (PointerData.run cfg l).currentHost.toNat) calls (PointerData.run cfg calls).peakHost.toNat
  dma : Peak (fun l => (PointerData.run cfg l).currentDma.toNat) calls (PointerData.run cfg calls).peakDma.toNat
  tot : Peak (fun l => (PointerData.run cfg l).currentUsed.toNat) calls (PointerData.run cfg calls).peakTot.toNat

theorem AtPeaks.below {calls : List (Call w)} (h : AtPeaks cfg calls) : BelowPeaks (PointerData.run cfg calls) :=
  ⟨BitVec.le_def.mpr (h.host.le List.prefix_rfl), BitVec.le_def.mpr (h.dma.le List.prefix_rfl),
    BitVec.le_def.mpr (h.tot.le List.prefix_rfl)⟩

theorem run_atPeaks (hb : cfg.has BACKTRACE = true) (calls : List (Call w)) (hsum : totalAdded calls < 2 ^ w) :
    AtPeaks cfg calls := by
  induction calls using List.reverseRecOn with
  | nil => exact ⟨Peak.nil, Peak.nil, Peak.nil⟩
  | append_singleton calls call ih =>
    have hpre : totalAdded calls < 2 ^ w := (totalAdded_mono (List.prefix_append calls [call])).trans_lt hsum
    have hp := ih hpre
    have hr := Raised.exec cfg (run_charged hb calls).held hp.below (run_covers hb hpre) call
    rw [← run_concat] at hr
    refine ⟨?_, ?_, ?_⟩
    · rw [hr.host]; exact hp.host.concat call
    · rw [hr.dma]; exact hp.dma.concat call
    · rw [hr.tot]; exact hp.tot.concat call

theorem run_used (hb : cfg.has BACKTRACE = true) {calls : List (Call w)} (hsum : totalAdded calls < 2 ^ w) :
    (PointerData.run cfg calls).currentUsed.toNat =
      (PointerData.run cfg calls).currentHost.toNat + (PointerData.run cfg calls).currentDma.toNat := by
  have hc := run_charged hb calls
  have hN := (unwrapped_of_totalAdded hb hsum).toNat_bytes
  rw [hc.used, hc.host, hc.dma, hN, hN, hN, bytes_any, bytes_any]
  omega

/-- **Counters and peaks over whole runs.** While nothing wraps, after every
call the total is the sum of its classes, each class covers its entries, no
`Remove` underflows, and the peaks are the maxima of the totals. -/
theorem counters_and_peaks (getenv : Environ) (calls : List (Call w)) (hsum : totalAdded calls < 2 ^ w)
    (pre : List (Call w)) (hpre : pre <+: calls) :
    let d := PointerData.run (Config.init w getenv) pre
    d.currentUsed.toNat = d.currentHost.toNat + d.currentDma.toNat ∧
    (bytes isHost d.entries ≤ d.currentHost.toNat ∧ bytes isDma d.entries ≤ d.currentDma.toNat) ∧
    (∀ ptr e, d.pointers.lookup (manglePointer ptr) = some e →
      e.size ≤ d.currentUsed ∧ (isHost e.memType = true → e.size ≤ d.currentHost) ∧
        (isDma e.memType = true → e.size ≤ d.currentDma)) ∧
    AtPeaks (Config.init w getenv) pre ∧
    max d.peakHost.toNat d.peakDma.toNat ≤ d.peakTot.toNat ∧
    d.peakTot.toNat ≤ d.peakHost.toNat + d.peakDma.toNat := by
  intro d
  have hb := init_backtrace w getenv
  have hlt : ∀ {l}, l <+: pre → totalAdded l < 2 ^ w := fun hl =>
    (totalAdded_mono (hl.trans hpre)).trans_lt hsum
  have hcov : Covers d := run_covers hb (hlt List.prefix_rfl)
  have hpeaks := run_atPeaks hb pre (hlt List.prefix_rfl)
  refine ⟨run_used hb (hlt List.prefix_rfl), ⟨hcov.host, hcov.dma⟩, fun ptr e hk => hcov.size_le hk, hpeaks, ?_, ?_⟩
  · refine max_le (hpeaks.host.mono hpeaks.tot ?_) (hpeaks.dma.mono hpeaks.tot ?_)
    · intro l hl
      rw [run_used hb (hlt hl)]
      exact Nat.le_add_right _ _
    · intro l hl
      rw [run_used hb (hlt hl)]
      exact Nat.le_add_left _ _
  · obtain ⟨l, hl, hq⟩ := hpeaks.tot.1
    dsimp only at hq
    rw [run_used hb (hlt hl)] at hq
    rw [← hq]
    exact Nat.add_le_add (hpeaks.host.le hl) (hpeaks.dma.le hl)

theorem counters_and_peaks_mappedOver :
    let d := PointerData.run (Config.init 64 ⟨none, none⟩) mappedOver
    d.currentUsed.toNat = d.currentHost.toNat + d.currentDma.toNat ∧ d.peakTot = 12288 :=
  ⟨(counters_and_peaks ⟨none, none⟩ mappedOver (by decide) mappedOver List.prefix_rfl).1, by decide⟩

end AllocHook
