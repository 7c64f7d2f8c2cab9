/-
Locks taken in the order of a rank.

A thread is what it holds and the lock steps it has still to make. Some locks
are exclusive, the others are shared and never waited for. `Ordered` says of a
thread that each exclusive lock it is still to take has a higher rank than the
exclusive locks it holds by then. When every thread is ordered no thread asks
for a lock it holds (`not_waits_of_held`), and of the threads that wait none
waits, through others, for itself (`not_cycle`): along a chain of waiting
threads the rank of what they wait for rises.
-/
import Mathlib.Data.Multiset.AddSub
import Mathlib.Logic.Relation
import Mathlib.Logic.Function.Basic

namespace LockOrder

variable {L : Type*} [DecidableEq L]

/-- A step that takes or gives back a lock. -/
inductive Instr (L : Type*)
  | acquire (l : L)
  | release (l : L)
  deriving DecidableEq

/-- What is held after the steps of `code`. -/
def after (held : Multiset L) : List (Instr L) → Multiset L
  | [] => held
  | .acquire l :: code => after (l ::ₘ held) code
  | .release l :: code => after (held.erase l) code

@[simp] theorem after_nil (held : Multiset L) : after held [] = held := rfl

@[simp] theorem after_acquire (held : Multiset L) (l : L) (code : List (Instr L)) :
    after held (.acquire l :: code) = after (l ::ₘ held) code := rfl

@[simp] theorem after_release (held : Multiset L) (l : L) (code : List (Instr L)) :
    after held (.release l :: code) = after (held.erase l) code := rfl

theorem after_append (held : Multiset L) (c c' : List (Instr L)) : after held (c ++ c') = after (after held c) c' := by
  induction c generalizing held with
  | nil => rfl
  | cons i c ih => cases i <;> exact ih _

variable (exclusive : L → Bool) (rank : L → ℕ)

/-- No exclusive lock is held. -/
def Free (held : Multiset L) : Prop := ∀ l ∈ held, exclusive l = false

/-- Each exclusive lock that is taken ranks above those held by then. -/
def Ordered (held : Multiset L) : List (Instr L) → Prop
  | [] => True
  | .acquire l :: code =>
    (exclusive l = true → ∀ h ∈ held, exclusive h = true → rank h < rank l) ∧ Ordered (l ::ₘ held) code
  | .release l :: code => Ordered (held.erase l) code

/-- Code that, begun with no exclusive lock, keeps the order and gives back
what it takes. -/
def Clean (code : List (Instr L)) : Prop :=
  ∀ held, Free exclusive held → Ordered exclusive rank held code ∧ after held code = held

variable {exclusive rank}

theorem ordered_append (held : Multiset L) (c c' : List (Instr L)) :
    Ordered exclusive rank held (c ++ c') ↔
      Ordered exclusive rank held c ∧ Ordered exclusive rank (after held c) c' := by
  induction c generalizing held with
  | nil => exact ⟨fun h => ⟨trivial, h⟩, fun h => h.2⟩
  | cons i c ih =>
    cases i with
    | acquire l => simp only [List.cons_append, Ordered, after_acquire, ih, and_assoc]
    | release l => exact ih _

theorem Clean.nil : Clean exclusive rank [] := fun _ _ => ⟨trivial, rfl⟩

theorem Clean.append {c c' : List (Instr L)} (h : Clean exclusive rank c) (h' : Clean exclusive rank c') :
    Clean exclusive rank (c ++ c') := by
  intro held hfree
  obtain ⟨ho, ha⟩ := h held hfree
  rw [ordered_append, after_append, ha]
  exact ⟨⟨ho, (h' held hfree).1⟩, (h' held hfree).2⟩

theorem Clean.flatMap {α : Type*} {f : α → List (Instr L)} {l : List α} (h : ∀ a ∈ l, Clean exclusive rank (f a)) :
    Clean exclusive rank (l.flatMap f) := by
  induction l with
  | nil => exact Clean.nil
  | cons a l ih =>
    rw [List.flatMap_cons]
    exact (h a (List.mem_cons_self ..)).append (ih fun b hb => h b (List.mem_cons_of_mem a hb))

omit [DecidableEq L] in
theorem Free.shared_cons {held : Multiset L} (h : Free exclusive held) {l : L} (hl : exclusive l = false) :
    Free exclusive (l ::ₘ held) := by
  intro h' hm
  rcases Multiset.mem_cons.mp hm with rfl | hm
  · exact hl
  · exact h h' hm

/-- A shared lock around clean code. -/
theorem Clean.shared {l : L} (hl : exclusive l = false) {c : List (Instr L)} (h : Clean exclusive rank c) :
    Clean exclusive rank (.acquire l :: c ++ [.release l]) := by
  intro held hfree
  obtain ⟨ho, ha⟩ := h (l ::ₘ held) (hfree.shared_cons hl)
  rw [List.cons_append]
  refine ⟨⟨fun hx => absurd hx (by rw [hl]; simp), ?_⟩, ?_⟩
  · rw [ordered_append]
    exact ⟨ho, trivial⟩
  · rw [after_acquire, after_append, ha, after_release, Multiset.erase_cons_head, after_nil]

/-- One exclusive lock, taken and given back. -/
theorem Clean.one (l : L) : Clean exclusive rank [.acquire l, .release l] := by
  intro held hfree
  refine ⟨⟨fun _ h hm hx => absurd hx (by rw [hfree h hm]; simp), trivial⟩, ?_⟩
  rw [after_acquire, after_release, Multiset.erase_cons_head, after_nil]

/-- Two exclusive locks, one within the other, in the order of their ranks. -/
theorem Clean.nested {l l' : L} (hrank : rank l < rank l') :
    Clean exclusive rank [.acquire l, .acquire l', .release l', .release l] := by
  intro held hfree
  have hbelow : ∀ h ∈ held, exclusive h = true → False := fun h hm hx => by rw [hfree h hm] at hx; cases hx
  refine ⟨⟨fun _ h hm hx => (hbelow h hm hx).elim, fun _ h hm hx => ?_, trivial⟩, ?_⟩
  · rcases Multiset.mem_cons.mp hm with rfl | hm
    · exact hrank
    · exact (hbelow h hm hx).elim
  · rw [after_acquire, after_acquire, after_release, after_release, Multiset.erase_cons_head, Multiset.erase_cons_head,
      after_nil]

/-! ## Threads -/

/-- The locks a thread holds, and the lock steps before it. -/
structure Thread (L : Type*) where
  held : Multiset L
  code : List (Instr L)

variable {Tid : Type*}

variable (exclusive rank) in
/-- Every thread keeps the order with what is before it, and ends with no lock. -/
structure InOrder (s : Tid → Thread L) : Prop where
  ordered : ∀ t, Ordered exclusive rank (s t).held (s t).code
  returns : ∀ t, after (s t).held (s t).code = 0

/-- Thread `t` is about to take `l`. -/
def Asks (s : Tid → Thread L) (t : Tid) (l : L) : Prop := ∃ code, (s t).code = .acquire l :: code

variable (exclusive) in
/-- Thread `t` waits for an exclusive lock that `t'` holds. -/
def WaitsFor (s : Tid → Thread L) (t t' : Tid) : Prop := ∃ l, exclusive l = true ∧ Asks s t l ∧ l ∈ (s t').held

variable {s : Tid → Thread L} {t t' : Tid} {l l' : L}

/-- The thread asks for nothing it holds. -/
theorem not_waits_of_held (h : InOrder exclusive rank s) (hx : exclusive l = true) (ha : Asks s t l) :
    l ∉ (s t).held := by
  obtain ⟨code, hcode⟩ := ha
  intro hm
  have ho := h.ordered t
  rw [hcode] at ho
  exact Nat.lt_irrefl _ (ho.1 hx l hm hx)

/-- What a holder asks for ranks above what it holds. -/
theorem rank_lt (h : InOrder exclusive rank s) (hx : exclusive l = true) (hm : l ∈ (s t).held)
    (hx' : exclusive l' = true) (ha : Asks s t l') : rank l < rank l' := by
  obtain ⟨code, hcode⟩ := ha
  have ho := h.ordered t
  rw [hcode] at ho
  exact ho.1 hx' l hm hx

omit [DecidableEq L] in
theorem Asks.unique (ha : Asks s t l) (ha' : Asks s t l') : l = l' := by
  obtain ⟨code, hcode⟩ := ha
  obtain ⟨code', hcode'⟩ := ha'
  rw [hcode] at hcode'
  cases hcode'
  rfl

theorem rank_lt_of_chain (h : InOrder exclusive rank s) (hw : Relation.TransGen (WaitsFor exclusive s) t t')
    (ha : Asks s t l) (hx' : exclusive l' = true) (ha' : Asks s t' l') : rank l < rank l' := by
  induction hw generalizing l' with
  | single hw =>
    obtain ⟨k, hx, hk, hm⟩ := hw
    rw [ha.unique hk]
    exact rank_lt h hx hm hx' ha'
  | tail _ hw ih =>
    obtain ⟨k, hx, hk, hm⟩ := hw
    exact (ih hx hk).trans (rank_lt h hx hm hx' ha')

/-- No threads wait in a circle. -/
theorem not_cycle (h : InOrder exclusive rank s) : ¬ Relation.TransGen (WaitsFor exclusive s) t t := by
  intro hw
  obtain ⟨u, ⟨l, hx, ha, -⟩, -⟩ := Relation.TransGen.head'_iff.mp hw
  exact Nat.lt_irrefl _ (rank_lt_of_chain h hw ha hx ha)

variable [DecidableEq Tid]

variable (exclusive) in
/-- Thread `t` takes or gives back a lock; one that is held is not to be had. -/
inductive Exec (s : Tid → Thread L) (t : Tid) : (Tid → Thread L) → Prop
  | acquire {l : L} {code} (hcode : (s t).code = .acquire l :: code)
    (hfree : exclusive l = true → ∀ t', l ∉ (s t').held) :
    Exec s t (Function.update s t { held := l ::ₘ (s t).held, code })
  | release {l : L} {code} (hcode : (s t).code = .release l :: code) :
    Exec s t (Function.update s t { held := (s t).held.erase l, code })

theorem InOrder.update (h : InOrder exclusive rank s) {thread : Thread L}
    (ho : Ordered exclusive rank thread.held thread.code) (ha : after thread.held thread.code = 0) :
    InOrder exclusive rank (Function.update s t thread) := by
  refine ⟨fun u => ?_, fun u => ?_⟩
  · by_cases hu : u = t
    · rw [hu, Function.update_self]
      exact ho
    · rw [Function.update_of_ne hu]
      exact h.ordered u
  · by_cases hu : u = t
    · rw [hu, Function.update_self]
      exact ha
    · rw [Function.update_of_ne hu]
      exact h.returns u

theorem InOrder.exec (h : InOrder exclusive rank s) {s' : Tid → Thread L} (he : Exec exclusive s t s') :
    InOrder exclusive rank s' := by
  have ho := h.ordered t
  have ha := h.returns t
  cases he with
  | acquire hcode hfree =>
    rw [hcode] at ho ha
    exact h.update ho.2 ha
  | release hcode =>
    rw [hcode] at ho ha
    exact h.update ho ha

/-- Clean code put before what a thread with no exclusive lock is to do. -/
theorem InOrder.interrupt (h : InOrder exclusive rank s) (hfree : Free exclusive (s t).held) {code : List (Instr L)}
    (hclean : Clean exclusive rank code) :
    InOrder exclusive rank (Function.update s t { s t with code := code ++ (s t).code }) := by
  obtain ⟨ho, ha⟩ := hclean _ hfree
  refine h.update ?_ ?_
  · rw [ordered_append, ha]
    exact ⟨ho, h.ordered t⟩
  · rw [after_append, ha]
    exact h.returns t

omit [DecidableEq Tid] in
/-- A thread with nothing to do holds nothing. -/
theorem InOrder.held_of_idle (h : InOrder exclusive rank s) (hcode : (s t).code = []) : (s t).held = 0 := by
  have ha := h.returns t
  rwa [hcode] at ha

end LockOrder
