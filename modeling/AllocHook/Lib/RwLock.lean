/-
A read-write lock by the POSIX rules, as the calls of a thread change it.

A call that would wait has no result (`none`). A read lock asked for by the
writer itself is refused with `EDEADLK`: the call returns and the lock is as
it was. An unlock by the writer releases the write lock, one by another thread
a read lock of that thread.
-/
import Mathlib.Data.Multiset.AddSub

/-- Who holds the lock: one writer, or readers as often as they took it. -/
structure RwLock (Tid : Type*) where
  writer : Option Tid
  readers : Multiset Tid

namespace RwLock

variable {Tid : Type*} [DecidableEq Tid] {l l' : RwLock Tid} {t t' : Tid}

def init (Tid : Type*) : RwLock Tid := { writer := none, readers := 0 }

/-- `pthread_rwlock_rdlock`. -/
def rdlock (l : RwLock Tid) (t : Tid) : Option (RwLock Tid) :=
  match l.writer with
  | none => some { l with readers := t ::ₘ l.readers }
  | some t' => if t' = t then some l else none

/-- `pthread_rwlock_wrlock`. -/
def wrlock (l : RwLock Tid) (t : Tid) : Option (RwLock Tid) :=
  match l.writer with
  | none => if l.readers = 0 then some { l with writer := some t } else none
  | some t' => if t' = t then some l else none

/-- `pthread_rwlock_unlock`. -/
def unlock (l : RwLock Tid) (t : Tid) : RwLock Tid :=
  if l.writer = some t then { l with writer := none } else { l with readers := l.readers.erase t }

/-- A writer shares the lock with nobody. -/
def Exclusive (l : RwLock Tid) : Prop := l.writer ≠ none → l.readers = 0

omit [DecidableEq Tid] in
theorem Exclusive.init : Exclusive (init Tid) := fun h => absurd rfl h

/-- Who is not the writer gets a read lock when there is no writer. -/
theorem rdlock_eq_some (hne : l.writer ≠ some t) (h : l.rdlock t = some l') :
    l.writer = none ∧ l' = { l with readers := t ::ₘ l.readers } := by
  unfold rdlock at h
  cases hw : l.writer with
  | none => rw [hw] at h; exact ⟨rfl, (Option.some.inj h).symm⟩
  | some t' =>
    rw [hw] at h hne
    simp only at h
    rw [if_neg fun hq => hne (congrArg some hq)] at h
    cases h

theorem rdlock_of_writer (h : l.writer = some t) : l.rdlock t = some l := by
  simp only [rdlock, h, if_true]

theorem wrlock_eq_some (hne : l.writer ≠ some t) (h : l.wrlock t = some l') :
    l.writer = none ∧ l.readers = 0 ∧ l' = { l with writer := some t } := by
  unfold wrlock at h
  cases hw : l.writer with
  | none =>
    rw [hw] at h
    by_cases hr : l.readers = 0
    · simp only [hr, if_true] at h
      exact ⟨rfl, hr, (Option.some.inj h).symm.trans (by rw [hr])⟩
    · simp only [hr, if_false] at h
      cases h
  | some t' =>
    rw [hw] at h hne
    simp only at h
    rw [if_neg fun hq => hne (congrArg some hq)] at h
    cases h

theorem unlock_of_writer (h : l.writer = some t) : l.unlock t = { l with writer := none } := if_pos h

/-- A reader that unlocks gives up one read lock. -/
theorem unlock_of_reader (hl : l.Exclusive) (h : t ∈ l.readers) :
    l.unlock t = { l with readers := l.readers.erase t } := by
  refine if_neg fun hw => ?_
  rw [hl (by rw [hw]; simp)] at h
  exact Multiset.notMem_zero t h

end RwLock
