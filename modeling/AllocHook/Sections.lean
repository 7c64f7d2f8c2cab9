/-
`Add`, `Remove` and the dump on any number of threads, one critical section
at a time.

`Add` takes `frame_mutex_` for the stack and then `pointer_mutex_` for the
entry; at a new peak it takes `frame_mutex_` again while it still holds
`pointer_mutex_`. `Remove` takes `pointer_mutex_` for the entry and then
`frame_mutex_` for the stack. Between the two sections of a call the
reference to the stack is neither an entry's nor free: it is the thread's
(`inFlight`). The state remembers with every entry what the `Add` that wrote
it had captured.

With the references of the threads counted in, the books are exact in every
reachable state (`Attributed`), and an index is never taken from a thread or
an entry that holds it.
-/
import AllocHook.Ledger
import AllocHook.RecordLists
import Mathlib.Algebra.BigOperators.Group.Finset.Basic

namespace AllocHook

open FiniteMap SharedStore

variable {w : Nat} {cfg : Config w} {Tid : Type*}

/-- Where a thread is in a call of the tracker. -/
inductive Progress (w : Nat)
  | idle
  /-- `Add` has its hash index and is to write its entry. -/
  | inserting (env : AddEnv w) (ptr size : Word w) (type : MemType) (hashIndex : ℕ)
  /-- `Add` has written its entry, holds `pointer_mutex_` and is to list the peak. -/
  | snapshotting (walk : Iteration (Word w) (PointerInfoType w))
  /-- `Remove` has erased its entry and is to give its stack back. -/
  | unreferencing (hashIndex : ℕ)

/-- The critical sections. -/
inductive Section (w : Nat)
  | addBacktrace (env : AddEnv w) (ptr size : Word w) (type : MemType)
  | insertPointer
  | takeSnapshot
  | erasePointer (ptr : Word w)
  | removeBacktrace
  | dump (it : Iteration (Word w) (PointerInfoType w))

/-- The tracker, its threads, and for every entry what its `Add` captured. -/
structure Sections (Tid : Type*) (w : Nat) where
  data : PointerData w
  threads : Tid → Progress w
  captured : Ledger w

def Sections.init (Tid : Type*) (w : Nat) : Sections Tid w :=
  { data := PointerData.initialized w, threads := fun _ => .idle, captured := ∅ }

/-- `pointer_mutex_` is held between sections only by an `Add` about to list
the peak. -/
def Progress.holdsPointerMutex : Progress w → Bool
  | .snapshotting _ => true
  | _ => false

/-- Nobody holds `pointer_mutex_`. -/
def Sections.PointerFree (s : Sections Tid w) : Prop := ∀ t, (s.threads t).holdsPointerMutex = false

/-- After `AddBacktrace`: on to the insertion, or out of `Add`. -/
def afterBacktrace (env : AddEnv w) (ptr size : Word w) (type : MemType) (hashIndex : ℕ) : Progress w :=
  if hashIndex = kBacktraceExitIndex then .idle else .inserting env ptr size type hashIndex

/-- After the erasure: on to the stack, or out of `Remove`. -/
def afterErase : Option ℕ → Progress w
  | none => .idle
  | some hashIndex => .unreferencing hashIndex

variable [DecidableEq Tid]

/-- One critical section of one thread. -/
inductive Step (cfg : Config w) (s : Sections Tid w) (t : Tid) : Section w → Sections Tid w → Prop
  | addBacktrace (env ptr size type) (hidle : s.threads t = .idle) :
    Step cfg s t (.addBacktrace env ptr size type)
      { s with
        data := (s.data.addBacktrace cfg env size).2
        threads := Function.update s.threads t
          (afterBacktrace env ptr size type (s.data.addBacktrace cfg env size).1) }
  | insertPointer {env ptr size type hashIndex} (hat : s.threads t = .inserting env ptr size type hashIndex)
    (hfree : s.PointerFree) :
    Step cfg s t .insertPointer
      { data := (s.data.insertPointer cfg env.now ptr size hashIndex type).1
        threads := Function.update s.threads t
          (if (s.data.insertPointer cfg env.now ptr size hashIndex type).2 then .snapshotting env.walk else .idle)
        captured := s.captured.insert (manglePointer ptr) (live cfg env size type) }
  | takeSnapshot {walk} (hat : s.threads t = .snapshotting walk) :
    Step cfg s t .takeSnapshot
      { s with data := s.data.takeSnapshot walk, threads := Function.update s.threads t .idle }
  | erasePointer (ptr) (hidle : s.threads t = .idle) (hfree : s.PointerFree) :
    Step cfg s t (.erasePointer ptr)
      { data := (s.data.erasePointer ptr).2
        threads := Function.update s.threads t (afterErase (s.data.erasePointer ptr).1)
        captured := s.captured.erase (manglePointer ptr) }
  | removeBacktrace {hashIndex} (hat : s.threads t = .unreferencing hashIndex) :
    Step cfg s t .removeBacktrace
      { s with data := s.data.removeBacktrace cfg hashIndex, threads := Function.update s.threads t .idle }
  | dump (it) (hidle : s.threads t = .idle) (hfree : s.PointerFree) :
    Step cfg s t (.dump it) { s with data := (s.data.dumpLiveToFile cfg it).2 }

/-! What a section does to the entries and to its thread. -/

section Effects

variable {s s' : Sections Tid w} {t : Tid}

theorem Step.others {sec : Section w} (h : Step cfg s t sec s') {t' : Tid} (hne : t' ≠ t) :
    s'.threads t' = s.threads t' := by
  cases h with
  | dump it hidle hfree => rfl
  | _ => exact Function.update_of_ne hne _ _

theorem Step.of_addBacktrace {env : AddEnv w} {ptr size : Word w} {type : MemType}
    (h : Step cfg s t (.addBacktrace env ptr size type) s') : s'.data.pointers = s.data.pointers ∧
      s'.threads t = afterBacktrace env ptr size type (s.data.addBacktrace cfg env size).1 := by
  cases h with
  | addBacktrace => exact ⟨(addBacktrace_sameBooks cfg env size s.data).pointers, Function.update_self ..⟩

theorem Step.of_insertPointer (h : Step cfg s t .insertPointer s') :
    ∃ env ptr size type hashIndex, s.threads t = .inserting env ptr size type hashIndex ∧
      s'.data.pointers = s.data.pointers.insert (manglePointer ptr)
        { size, hashIndex, memType := type, allocTime := env.now } ∧
      (s'.threads t = .idle ∨ ∃ walk, s'.threads t = .snapshotting walk) := by
  cases h with
  | insertPointer hat hfree =>
    refine ⟨_, _, _, _, _, hat, insertPointer_pointers .., ?_⟩
    simp only [Function.update_self]
    split
    · exact .inr ⟨_, rfl⟩
    · exact .inl rfl

theorem Step.of_takeSnapshot (h : Step cfg s t .takeSnapshot s') :
    ∃ walk, s.threads t = .snapshotting walk ∧ s'.data.pointers = s.data.pointers ∧ s'.threads t = .idle := by
  cases h with
  | takeSnapshot hat => exact ⟨_, hat, rfl, Function.update_self ..⟩

theorem Step.of_erasePointer {ptr : Word w} (h : Step cfg s t (.erasePointer ptr) s') :
    s'.data.pointers = s.data.pointers.erase (manglePointer ptr) ∧
      (s'.threads t = .idle ∨ ∃ hashIndex, s'.threads t = .unreferencing hashIndex) := by
  cases h with
  | erasePointer _ hidle hfree =>
    refine ⟨erasePointer_pointers ptr s.data, ?_⟩
    simp only [Function.update_self]
    cases (s.data.erasePointer ptr).1 with
    | none => exact .inl rfl
    | some hashIndex => exact .inr ⟨hashIndex, rfl⟩

theorem Step.of_removeBacktrace (h : Step cfg s t .removeBacktrace s') :
    ∃ hashIndex, s.threads t = .unreferencing hashIndex ∧ s'.data.pointers = s.data.pointers ∧
      s'.threads t = .idle := by
  cases h with
  | removeBacktrace hat =>
    exact ⟨_, hat, (removeBacktrace_sameBooks cfg _ s.data).pointers, Function.update_self ..⟩

end Effects

/-- Reached from the initial state by sections of any threads in any order. -/
inductive Interleaved (cfg : Config w) : Sections Tid w → Prop
  | init : Interleaved cfg (Sections.init Tid w)
  | step {s t sec s'} (hs : Interleaved cfg s) (h : Step cfg s t sec s') : Interleaved cfg s'

/-! ## References in flight -/

/-- The reference a thread holds between the sections of a call. -/
def Progress.holding : Progress w → Multiset ℕ
  | .inserting _ _ _ _ h => AllocHook.holding h
  | .unreferencing h => AllocHook.holding h
  | _ => 0

@[simp] theorem holding_idle : (Progress.idle : Progress w).holding = 0 := rfl

@[simp] theorem holding_snapshotting (walk : Iteration (Word w) (PointerInfoType w)) :
    (Progress.snapshotting walk).holding = 0 := rfl

@[simp] theorem holding_inserting (env : AddEnv w) (ptr size : Word w) (type : MemType) (h : ℕ) :
    (Progress.inserting env ptr size type h).holding = holding h := rfl

@[simp] theorem holding_unreferencing (h : ℕ) : (Progress.unreferencing h : Progress w).holding = holding h := rfl

theorem holding_afterBacktrace (env : AddEnv w) (ptr size : Word w) (type : MemType) (h : ℕ) :
    (afterBacktrace env ptr size type h).holding = holding h := by
  unfold afterBacktrace
  split
  · next hq => subst hq; rfl
  · rfl

variable [Fintype Tid]

def inFlight (threads : Tid → Progress w) : Multiset ℕ := ∑ t, (threads t).holding

/-- The references of all threads but one. -/
def inFlightBut (threads : Tid → Progress w) (t : Tid) : Multiset ℕ := ∑ i ∈ Finset.univ.erase t, (threads i).holding

theorem inFlight_eq (threads : Tid → Progress w) (t : Tid) :
    inFlight threads = (threads t).holding + inFlightBut threads t :=
  (Finset.add_sum_erase Finset.univ _ (Finset.mem_univ t)).symm

theorem inFlight_update (threads : Tid → Progress w) (t : Tid) (p : Progress w) :
    inFlight (Function.update threads t p) = p.holding + inFlightBut threads t := by
  rw [inFlight_eq _ t, Function.update_self]
  refine congrArg _ (Finset.sum_congr rfl fun i hi => ?_)
  rw [Function.update_of_ne (Finset.ne_of_mem_erase hi)]

theorem mem_inFlightBut {threads : Tid → Progress w} {t i : Tid} (hne : i ≠ t) {h : ℕ}
    (hm : h ∈ (threads i).holding) : h ∈ inFlightBut threads t :=
  Multiset.mem_sum.mpr ⟨i, Finset.mem_erase.mpr ⟨hne, Finset.mem_univ i⟩, hm⟩

theorem mem_holding {h : ℕ} (hlt : kBacktraceEmptyIndex < h) : h ∈ holding h := by
  rw [holding_of_lt hlt]
  exact Multiset.mem_singleton_self h

/-! ## The invariant -/

/-- The books count the threads' references, the entries have the stacks
their `Add`s captured, and so has every `Add` on its way to its entry. -/
structure Attributed (cfg : Config w) (s : Sections Tid w) : Prop where
  charged : ∃ L, Charged s.data L (inFlight s.threads)
  shows : Shows s.data s.captured
  inserting : ∀ t env ptr size type h, s.threads t = .inserting env ptr size type h →
    s.data.stackAt h = (capture cfg env size).stack?

omit [DecidableEq Tid] in
theorem Attributed.init : Attributed cfg (Sections.init Tid w) := by
  refine ⟨⟨0, ?_⟩, Shows.initialized, fun t env ptr size type h hat => by cases hat⟩
  have h0 : inFlight (fun _ : Tid => (Progress.idle : Progress w)) = 0 := Finset.sum_const_zero
  rw [Sections.init, h0]
  exact Charged.initialized

/-- What the other threads hold keeps its stack when nothing held moves. -/
theorem inserting_of_update {s : Sections Tid w} (hs : Attributed cfg s) {d : PointerData w} {t : Tid} {p : Progress w}
    (hself : ∀ env ptr size type h, p = .inserting env ptr size type h →
      d.stackAt h = (capture cfg env size).stack?)
    (hothers : ∀ h, IndexHeld h (inFlightBut s.threads t) → d.stackAt h = s.data.stackAt h) :
    ∀ i env ptr size type h, Function.update s.threads t p i = .inserting env ptr size type h →
      d.stackAt h = (capture cfg env size).stack? := by
  intro i env ptr size type h hat
  by_cases hi : i = t
  · subst hi
    rw [Function.update_self] at hat
    exact hself env ptr size type h hat
  · rw [Function.update_of_ne hi] at hat
    rw [← hs.inserting i env ptr size type h hat]
    refine hothers h fun hlt => mem_inFlightBut hi ?_
    rw [hat]
    exact mem_holding hlt

theorem IndexHeld.mono {h : ℕ} {F G : Multiset ℕ} (hF : IndexHeld h F) (hle : F ≤ G) : IndexHeld h G :=
  fun hlt => Multiset.mem_of_le hle (hF hlt)

/-- Every section keeps the invariant. -/
theorem Attributed.step {s s' : Sections Tid w} {t : Tid} {sec : Section w} (hb : cfg.has BACKTRACE = true)
    (hs : Attributed cfg s) (h : Step cfg s t sec s') : Attributed cfg s' := by
  obtain ⟨L, hc⟩ := hs.charged
  rw [inFlight_eq s.threads t] at hc
  cases h with
  | addBacktrace env ptr size type hidle =>
    rw [hidle, holding_idle, zero_add] at hc
    refine ⟨⟨L, ?_⟩, hs.shows.addBacktrace cfg hc env size, inserting_of_update hs ?_ ?_⟩
    · rw [inFlight_update, holding_afterBacktrace]
      exact hc.addBacktrace cfg env size
    · intro env' ptr' size' type' h' hq
      unfold afterBacktrace at hq
      split at hq
      · cases hq
      · cases hq
        exact stackAt_captured cfg hc.held env size
    · exact fun h' hh => stackAt_addBacktrace cfg hc.held env size (hh.mono (Multiset.le_add_left _ _))
  | insertPointer hat hfree =>
    rename_i env ptr size type h
    rw [hat, holding_inserting] at hc
    have hst := stackAt_congr (insertPointer_sameStacks cfg env.now ptr size h type s.data).frames
    have hv := hs.shows.insertPointer cfg env.now ptr size h type
    rw [hs.inserting t env ptr size type h hat] at hv
    refine ⟨⟨s.data.overwritten ptr + L, ?_⟩, hv, inserting_of_update hs ?_ fun h' _ => hst h'⟩
    · have hi := hc.insertPointer cfg env.now ptr size type
      rw [inFlight_update]
      split
      · simpa using hi
      · simpa using hi
    · intro env' ptr' size' type' h' hq
      split at hq <;> cases hq
  | takeSnapshot hat =>
    rename_i walk
    rw [hat, holding_snapshotting, zero_add] at hc
    refine ⟨⟨L, ?_⟩, hs.shows, inserting_of_update hs (fun _ _ _ _ _ hq => by cases hq) fun h' _ => rfl⟩
    rw [inFlight_update, holding_idle, zero_add]
    exact hc.takeSnapshot walk
  | erasePointer ptr hidle hfree =>
    rw [hidle, holding_idle, zero_add] at hc
    refine ⟨⟨L, ?_⟩, hs.shows.erasePointer ptr, inserting_of_update hs ?_ ?_⟩
    · rw [inFlight_update]
      cases hk : s.data.pointers.lookup (manglePointer ptr) with
      | none =>
        rw [erasePointer_of_none hk]
        simpa [afterErase] using hc
      | some e =>
        have he := hc.erasePointer hk
        rw [erasePointer_of_some hk] at he ⊢
        exact he
    · intro env ptr' size type h' hq
      cases hr : (s.data.erasePointer ptr).1 <;> simp [hr, afterErase] at hq
    · exact fun h' _ => stackAt_congr (erasePointer_sameStacks ptr s.data).frames h'
  | removeBacktrace hat =>
    rename_i h
    rw [hat, holding_unreferencing] at hc
    refine ⟨⟨L, ?_⟩, hs.shows.removeBacktrace hc hb, inserting_of_update hs (fun _ _ _ _ _ hq => by cases hq) ?_⟩
    · rw [inFlight_update, holding_idle, zero_add]
      exact hc.removeBacktrace hb
    · intro h' hh
      by_cases hlt : kBacktraceEmptyIndex < h
      · rw [holding_of_lt hlt] at hc
        refine stackAt_removeBacktrace hc.held (by simp) hb ?_
        rw [Multiset.singleton_add, Multiset.add_cons, Multiset.erase_cons_head]
        exact hh.mono (Multiset.le_add_left _ _)
      · rw [PointerData.removeBacktrace, if_pos (Nat.not_lt.mp hlt)]
  | dump it hidle hfree =>
    rw [← inFlight_eq] at hc
    exact ⟨⟨L, hc.of_peaks rfl rfl rfl rfl rfl⟩, hs.shows, hs.inserting⟩

theorem Interleaved.attributed {s : Sections Tid w} (hb : cfg.has BACKTRACE = true) (hs : Interleaved cfg s) :
    Attributed cfg s := by
  induction hs with
  | init => exact Attributed.init
  | step _ h ih => exact ih.step hb h

/-! ## Calls one after the other are one interleaving -/

omit [Fintype Tid]

/-- All threads idle but `t`. -/
def only (t : Tid) (p : Progress w) : Tid → Progress w := Function.update (fun _ => .idle) t p

@[simp] theorem only_self (t : Tid) (p : Progress w) : only t p t = p := Function.update_self ..

theorem only_idle (t : Tid) : (only t .idle : Tid → Progress w) = fun _ => .idle := Function.update_eq_self t _

theorem update_only (t : Tid) (p q : Progress w) : Function.update (only t p) t q = only t q :=
  Function.update_idem ..

theorem pointerFree_only {t : Tid} {p : Progress w} (hp : p.holdsPointerMutex = false) (d : PointerData w)
    (l : Ledger w) : Sections.PointerFree { data := d, threads := only t p, captured := l } := by
  intro i
  by_cases hi : i = t
  · simp only [hi, only_self]; exact hp
  · simp only [only, Function.update_of_ne hi]; rfl

/-- A thread that runs the sections of a call on its own makes the call. -/
theorem Interleaved.exec {d : PointerData w} {l : Ledger w} {t : Tid}
    (hs : Interleaved cfg { data := d, threads := only t .idle, captured := l }) (call : Call w) :
    ∃ l', Interleaved cfg { data := d.exec cfg call, threads := only t .idle, captured := l' } := by
  have hidle := only_self (w := w) t .idle
  cases call with
  | remove ptr =>
    have h₁ := hs.step (.erasePointer ptr hidle (pointerFree_only rfl d l))
    simp only [update_only] at h₁
    simp only [PointerData.exec, PointerData.remove]
    cases hr : (d.erasePointer ptr).1 with
    | none =>
      rw [hr] at h₁
      exact ⟨_, h₁⟩
    | some h =>
      rw [hr] at h₁
      have h₂ := h₁.step (.removeBacktrace (only_self t _))
      simp only [update_only] at h₂
      exact ⟨_, h₂⟩
  | add env ptr size type =>
    have h₁ := hs.step (.addBacktrace env ptr size type hidle)
    simp only [update_only, afterBacktrace] at h₁
    simp only [PointerData.exec, PointerData.add]
    split
    · next hexit =>
      rw [if_pos hexit] at h₁
      exact ⟨_, h₁⟩
    · next hexit =>
      rw [if_neg hexit] at h₁
      have h₂ := h₁.step (.insertPointer (only_self t _) (pointerFree_only rfl _ _))
      simp only [update_only] at h₂
      split
      · next hsnap =>
        rw [if_pos hsnap] at h₂
        have h₃ := h₂.step (.takeSnapshot (only_self t _))
        simp only [update_only] at h₃
        exact ⟨_, h₃⟩
      · next hsnap =>
        rw [if_neg hsnap] at h₂
        exact ⟨_, h₂⟩

/-- Every run of completed calls is reached. -/
theorem interleaved_run (cfg : Config w) (t : Tid) (calls : List (Call w)) :
    ∃ l, Interleaved cfg { data := PointerData.run cfg calls, threads := only t .idle, captured := l } := by
  induction calls using List.reverseRecOn with
  | nil => exact ⟨∅, by rw [only_idle]; exact .init⟩
  | append_singleton calls call ih =>
    obtain ⟨l, hl⟩ := ih
    rw [run_concat]
    exact hl.exec call

/-! ## Stack attribution -/

/-- **Stack attribution.** Whatever the threads do, an entry with a stack has
it in both stack tables, and it is the stack its `Add` captured; no list
dereferences an index that is not there, and no `RemoveBacktrace` misses one.
No reference count wraps: it would take `2 ^ w` `Add`s of one stack, as
re-adds of a tracked pointer leave theirs behind. -/
theorem stack_attribution [Fintype Tid] (getenv : Environ) {s : Sections Tid w}
    (hs : Interleaved (Config.init w getenv) s) :
    (∀ k e, s.data.pointers.lookup k = some e → kBacktraceEmptyIndex < e.hashIndex →
      ∃ r frames info a, s.data.frames.lookup e.hashIndex = some { references := r, frames } ∧
        s.data.backtracesInfo.lookup e.hashIndex = some info ∧ pcs w info = frames ∧
        s.captured.lookup k = some a ∧ a.stack = some frames) ∧
    (∀ it pred, ∀ a ∈ s.data.getList it true pred, a.frameInfo.isSome ∧ a.backtraceInfo.isSome) ∧
    (∀ t h, s.threads t = .unreferencing h → kBacktraceEmptyIndex < h → h ∈ s.data.frames) := by
  have hb := init_backtrace w getenv
  have ha := hs.attributed hb
  obtain ⟨L, hc⟩ := ha.charged
  have hentry : ∀ k e, s.data.pointers.lookup k = some e → kBacktraceEmptyIndex < e.hashIndex →
      ∃ r frames info, s.data.frames.lookup e.hashIndex = some { references := r, frames } ∧
        s.data.backtracesInfo.lookup e.hashIndex = some info ∧ pcs w info = frames := fun k e hk hlt =>
    hc.lookup (mem_references _ hk hlt)
  refine ⟨fun k e hk hlt => ?_, fun it pred a hm => ?_, fun t h hat hlt => ?_⟩
  · obtain ⟨r, frames, info, hf, hi, hp⟩ := hentry k e hk hlt
    refine ⟨r, frames, info, s.data.live e, hf, hi, hp, ?_, stackAt_of_lookup hlt hf⟩
    rw [ha.shows k, hk, Option.map_some]
  · obtain ⟨k, e, hk, hlt, rfl⟩ := mem_unsorted.mp ((getList_perm s.data it true pred).mem_iff.mp hm)
    obtain ⟨r, frames, info, hf, hi, hp⟩ := hentry k e hk (hlt rfl)
    have hmem : e.hashIndex ∈ s.data.frames := mem_iff_lookup_ne_none.mpr (by rw [hf]; simp)
    simp [PointerData.listInfo, hmem, hi]
  · have hm : h ∈ inFlight s.threads := by
      rw [inFlight_eq _ t, hat]
      exact Multiset.mem_add.mpr (.inl (mem_holding hlt))
    obtain ⟨r, frames, info, hf, -⟩ := hc.lookup (Multiset.mem_add.mpr (.inr hm))
    exact mem_iff_lookup_ne_none.mpr (by rw [hf]; simp)

/-- Two threads add the same pointer from the same place: the first takes the
stack, the second writes its entry before the first does. -/
theorem stack_attribution_sharedAdd : ∃ s : Sections (Fin 2) 64, Interleaved (Config.init 64 ⟨none, none⟩) s ∧
    (∃ r frames info a, s.data.frames.lookup 2 = some { references := r, frames } ∧
      s.data.backtracesInfo.lookup 2 = some info ∧ pcs 64 info = frames ∧
      s.captured.lookup (manglePointer 0x7f0000000000) = some a ∧ a.stack = some frames) := by
  have h₁ : Interleaved (Config.init 64 ⟨none, none⟩) _ :=
    Interleaved.init.step (.addBacktrace (t := (0 : Fin 2)) (.single 64 0x1000 1) 0x7f0000000000 4096 .host rfl)
  have h₂ := h₁.step (.addBacktrace (t := (1 : Fin 2)) (.single 64 0x1000 2) 0x7f0000000000 4096 .host rfl)
  have h₃ := h₂.step (.insertPointer (t := 1) rfl (by unfold Sections.PointerFree; decide))
  have h₄ := h₃.step (.insertPointer (t := 0) rfl (by unfold Sections.PointerFree; decide))
  refine ⟨_, h₄, ?_⟩
  exact (stack_attribution ⟨none, none⟩ h₄).1 (manglePointer 0x7f0000000000)
    { size := 4096, hashIndex := 2, memType := .host, allocTime := { tvSec := 1, tvUsec := 0 } } (by decide) (by decide)

end AllocHook
