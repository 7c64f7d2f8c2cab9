/-
What the tracker is for, in its own terms: a ledger of the allocations that
are live, each with its size, class, time and the stack that made it.

`Shows d l` says the tables of `d` hold exactly the ledger `l`: an entry's
stack is what the stack tables have under its hash index (`stackAt`). Every
section keeps it, because a section moves no index that is held; so a run
shows the ledger of its calls (`run_shows`), whatever indices it went through.
-/
import AllocHook.Accounting

namespace AllocHook

open FiniteMap SharedStore History

variable {w : Nat} {cfg : Config w} {d d' : PointerData w}

/-- A live allocation. -/
structure Live (w : Nat) where
  size : Word w
  memType : MemType
  allocTime : Timeval
  stack : Option (FrameKeyType w)
  deriving DecidableEq

/-- Live allocations by the (mangled) pointer. -/
abbrev Ledger (w : Nat) := Map (Word w) (Live w)

/-- The stack a capture ended with, if any. -/
def Capture.stack? : Capture w → Option (FrameKeyType w)
  | .stack frames _ => some frames
  | _ => none

/-- What an `Add` makes known. -/
def live (cfg : Config w) (env : AddEnv w) (size : Word w) (t : MemType) : Live w :=
  { size, memType := t, allocTime := env.now, stack := (capture cfg env size).stack? }

def Ledger.exec (cfg : Config w) (l : Ledger w) : Call w → Ledger w
  | .add env ptr size t => if records cfg env size then l.insert (manglePointer ptr) (live cfg env size t) else l
  | .remove ptr => l.erase (manglePointer ptr)

def Ledger.run (cfg : Config w) (calls : List (Call w)) : Ledger w := calls.foldl (Ledger.exec cfg) ∅

theorem Ledger.run_concat (cfg : Config w) (calls : List (Call w)) (call : Call w) :
    Ledger.run cfg (calls ++ [call]) = Ledger.exec cfg (Ledger.run cfg calls) call := by
  simp only [Ledger.run, List.foldl_append, List.foldl_cons, List.foldl_nil]

/-! ## The stack under an index -/

/-- The stack an entry with this hash index has. -/
def PointerData.stackAt (d : PointerData w) (h : ℕ) : Option (FrameKeyType w) :=
  if h ≤ kBacktraceEmptyIndex then none else (d.frames.lookup h).map FrameInfoType.frames

theorem stackAt_of_le {h : ℕ} (hh : h ≤ kBacktraceEmptyIndex) : d.stackAt h = none := if_pos hh

theorem stackAt_of_lookup {h r : ℕ} {k : FrameKeyType w} (hh : kBacktraceEmptyIndex < h)
    (e : d.frames.lookup h = some { references := r, frames := k }) : d.stackAt h = some k := by
  rw [PointerData.stackAt, if_neg (Nat.not_le.mpr hh), e]
  rfl

theorem stackAt_congr (hf : d'.frames = d.frames) (h : ℕ) : d'.stackAt h = d.stackAt h := by
  rw [PointerData.stackAt, PointerData.stackAt, hf]

/-- An index above "no stack" is held. -/
def IndexHeld (h : ℕ) (H : Multiset ℕ) : Prop := kBacktraceEmptyIndex < h → h ∈ H

variable {H : Multiset ℕ}

/-- What keeps the stacks of the held indices keeps every stack in use. -/
theorem stackAt_eq_of_keeps (hs : StackHeld d H) {h : ℕ} (hh : IndexHeld h H)
    (hk : ∀ r k, d.frames.lookup h = some { references := r, frames := k } →
      ∃ r, d'.frames.lookup h = some { references := r, frames := k }) : d'.stackAt h = d.stackAt h := by
  by_cases hlt : kBacktraceEmptyIndex < h
  · obtain ⟨k, _, e, _, _⟩ := hs.lookup (hh hlt)
    obtain ⟨r, e'⟩ := hk _ _ e
    rw [stackAt_of_lookup hlt e, stackAt_of_lookup hlt e']
  · rw [stackAt_of_le (by omega), stackAt_of_le (by omega)]

theorem stackAt_addBacktrace (cfg : Config w) (hs : StackHeld d H) (env : AddEnv w) (size : Word w) {h : ℕ}
    (hh : IndexHeld h H) : (d.addBacktrace cfg env size).2.stackAt h = d.stackAt h := by
  unfold PointerData.addBacktrace
  cases e : capture cfg env size with
  | exit => rfl
  | empty => rfl
  | stack frames info =>
    exact stackAt_eq_of_keeps hs hh fun r k => addFrames_keeps hs (capture_stack e).1 frames info

/-- The index `AddBacktrace` returns is that of the stack it captured. -/
theorem stackAt_captured (cfg : Config w) (hs : StackHeld d H) (env : AddEnv w) (size : Word w) :
    (d.addBacktrace cfg env size).2.stackAt (d.addBacktrace cfg env size).1 = (capture cfg env size).stack? := by
  unfold PointerData.addBacktrace
  cases e : capture cfg env size with
  | exit => rfl
  | empty => rfl
  | stack frames info =>
    obtain ⟨hb, hp⟩ := capture_stack e
    have hlt : kBacktraceEmptyIndex < (d.addFrames cfg frames info).1 :=
      Held.base_le_of_mem (hs.addFrames hb hp) (Multiset.mem_cons_self _ _)
    obtain ⟨r, hr⟩ := addFrames_lookup hs hb frames info
    exact stackAt_of_lookup hlt hr

theorem stackAt_removeBacktrace (hs : StackHeld d H) {h : ℕ} (hm : h ∈ H) (hb : cfg.has BACKTRACE = true) {h' : ℕ}
    (hh : IndexHeld h' (H.erase h)) : (d.removeBacktrace cfg h).stackAt h' = d.stackAt h' :=
  stackAt_eq_of_keeps hs (fun hlt => Multiset.mem_of_mem_erase (hh hlt)) fun r k e => by
    by_cases hlt : kBacktraceEmptyIndex < h'
    · exact removeBacktrace_keeps hs hm hb e (hh hlt)
    · have := Held.base_le_of_mem hs (Held.held hs (slots_eq_some.mpr e))
      omega

/-! ## The ledger a state shows -/

/-- The live allocation an entry stands for. -/
def PointerData.live (d : PointerData w) (e : PointerInfoType w) : Live w :=
  { size := e.size, memType := e.memType, allocTime := e.allocTime, stack := d.stackAt e.hashIndex }

def Shows (d : PointerData w) (l : Ledger w) : Prop := ∀ k, l.lookup k = (d.pointers.lookup k).map d.live

variable {L : Multiset (PointerInfoType w)} {F : Multiset ℕ} {l : Ledger w}

theorem Shows.initialized : Shows (PointerData.initialized w) ∅ := fun k => by
  simp [PointerData.initialized]

theorem Shows.entries (hv : Shows d l) : values l = d.entries.map d.live := values_map hv

/-- The ledger does not change while no entry's stack does. -/
theorem Shows.of_stackAt (hv : Shows d l) (hp : d'.pointers = d.pointers)
    (hst : ∀ k e, d.pointers.lookup k = some e → d'.stackAt e.hashIndex = d.stackAt e.hashIndex) : Shows d' l := by
  intro k
  rw [hv k, hp]
  cases hk : d.pointers.lookup k with
  | none => rfl
  | some e => simp only [Option.map_some, PointerData.live, hst k e hk]

/-- Entries hold their indices. -/
theorem indexHeld_of_lookup (L : Multiset (PointerInfoType w)) (F : Multiset ℕ) {k : Word w} {e : PointerInfoType w}
    (hk : d.pointers.lookup k = some e) : IndexHeld e.hashIndex (stackIndices (d.entries + L) + F) :=
  fun hlt => mem_references F hk hlt

theorem Shows.addBacktrace (hv : Shows d l) (cfg : Config w) (hc : Charged d L F) (env : AddEnv w) (size : Word w) :
    Shows (d.addBacktrace cfg env size).2 l :=
  hv.of_stackAt (addBacktrace_sameBooks cfg env size d).pointers fun _ _ hk =>
    stackAt_addBacktrace cfg hc.held env size (indexHeld_of_lookup L F hk)

/-- The insertion writes the allocation with the stack under its index. -/
theorem Shows.recordPointer (hv : Shows d l) (now : Timeval) (ptr size : Word w) (h : ℕ) (t : MemType) :
    Shows (d.recordPointer now ptr size h t)
      (l.insert (manglePointer ptr) { size, memType := t, allocTime := now, stack := d.stackAt h }) := by
  intro k
  rw [recordPointer_pointers, lookup_insert_eq, lookup_insert_eq]
  have hst := stackAt_congr (recordPointer_sameStacks now ptr size h t d).frames
  split
  · simp only [Option.map_some, PointerData.live, hst]
  · rw [hv k]
    cases d.pointers.lookup k with
    | none => rfl
    | some e => simp only [Option.map_some, PointerData.live, hst]

theorem Shows.insertPointer (hv : Shows d l) (cfg : Config w) (now : Timeval) (ptr size : Word w) (h : ℕ)
    (t : MemType) : Shows (d.insertPointer cfg now ptr size h t).1
      (l.insert (manglePointer ptr) { size, memType := t, allocTime := now, stack := d.stackAt h }) := by
  have hr := hv.recordPointer now ptr size h t
  rcases insertPointer_cases cfg now ptr size h t d with ⟨_, hq⟩ | ⟨_, hq⟩
  · rw [hq]; exact hr
  · rw [hq]; exact hr

theorem Shows.erasePointer (hv : Shows d l) (ptr : Word w) :
    Shows (d.erasePointer ptr).2 (l.erase (manglePointer ptr)) := by
  intro k
  cases hk : d.pointers.lookup (manglePointer ptr) with
  | none =>
    rw [erasePointer_of_none hk, erase_of_lookup_none (by rw [hv, hk]; rfl)]
    exact hv k
  | some e =>
    rw [erasePointer_of_some hk, lookup_erase_eq, lookup_erase_eq]
    split
    · rfl
    · exact hv k

theorem Shows.removeBacktrace (hv : Shows d l) {h : ℕ} (hc : Charged d L (holding h + F))
    (hb : cfg.has BACKTRACE = true) : Shows (d.removeBacktrace cfg h) l := by
  by_cases hh : kBacktraceEmptyIndex < h
  · rw [holding_of_lt hh] at hc
    have hm : h ∈ stackIndices (d.entries + L) + ({h} + F) := by simp
    refine hv.of_stackAt (removeBacktrace_sameBooks cfg h d).pointers fun k e hk => ?_
    refine stackAt_removeBacktrace hc.held hm hb ?_
    rw [Multiset.singleton_add, Multiset.add_cons, Multiset.erase_cons_head]
    exact indexHeld_of_lookup L F hk
  · rw [PointerData.removeBacktrace, if_pos (Nat.not_lt.mp hh)]
    exact hv

/-! ## Whole calls and runs -/

theorem Shows.add (hv : Shows d l) (hc : Charged d L F) {env : AddEnv w} {size : Word w}
    (hr : records cfg env size = true) (ptr : Word w) (t : MemType) :
    Shows (d.add cfg env ptr size t) (l.insert (manglePointer ptr) (AllocHook.live cfg env size t)) := by
  have hi := (hv.addBacktrace cfg hc env size).insertPointer cfg env.now ptr size (d.addBacktrace cfg env size).1 t
  rw [stackAt_captured cfg hc.held] at hi
  rw [add_of_records hc.held hr]
  dsimp only
  split
  · exact hi
  · exact hi

theorem Shows.remove (hv : Shows d l) (hc : Charged d L F) (hb : cfg.has BACKTRACE = true) (ptr : Word w) :
    Shows (d.remove cfg ptr) (l.erase (manglePointer ptr)) := by
  have he := hv.erasePointer ptr
  unfold PointerData.remove
  cases hk : d.pointers.lookup (manglePointer ptr) with
  | none =>
    rw [erasePointer_of_none hk] at he ⊢
    exact he
  | some e =>
    have hce := hc.erasePointer hk
    rw [erasePointer_of_some hk] at he hce ⊢
    exact he.removeBacktrace hce hb

/-- One call changes the ledger a state shows as the call says. -/
theorem Shows.exec (hv : Shows d l) (hc : Charged d L F) (hb : cfg.has BACKTRACE = true) (call : Call w) :
    Shows (d.exec cfg call) (Ledger.exec cfg l call) := by
  cases call with
  | remove ptr => exact hv.remove hc hb ptr
  | add env ptr size t =>
    cases hr : records cfg env size with
    | false =>
      rw [PointerData.exec, add_of_not_records hr, Ledger.exec, hr]
      exact hv
    | true =>
      rw [PointerData.exec, Ledger.exec, hr]
      exact hv.add hc hr ptr t

/-- **A run shows the ledger of its calls.** -/
theorem run_shows (hb : cfg.has BACKTRACE = true) (calls : List (Call w)) :
    Shows (PointerData.run cfg calls) (Ledger.run cfg calls) := by
  induction calls using List.reverseRecOn with
  | nil => exact Shows.initialized
  | append_singleton calls call ih =>
    rw [run_concat, Ledger.run_concat]
    exact ih.exec (run_charged hb calls) hb call

end AllocHook
