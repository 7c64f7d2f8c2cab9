/-
Computations that go through caches: a state of caches changes along the way,
a computation may fail, and one that does not end has no result.

`Gives inv x r` is what it means for the caches not to matter: from any state
that satisfies the invariant `x` gives `r`, and leaves such a state. It is
kept by sequencing (`Gives.bind`), and by a lookup that computes what it does
not find (`Gives.lookup`), whatever was looked up before. Where caches choose
among several right results, `Ensures` says what holds of the one they give.
-/
import Mathlib.Data.List.Forall2
import Mathlib.Logic.Function.Basic

universe u

variable {ε σ τ α β κ : Type u}

abbrev Through (ε σ α : Type u) := ExceptT ε (StateT σ Option) α

namespace Through

/-- A result that needs no cache. -/
def ofResult (r : Except ε α) : Through ε σ α := fun s => some (r, s)

/-- The result of a computation of its own, if it ends. -/
def ofRun (r : Option (Except ε α)) : Through ε σ α := fun s => r.map (·, s)

/-- A computation whose failure is a value. -/
def attempt (x : Through ε σ α) : Through ε σ (Except ε α) := fun s => (x s).map fun r => (.ok r.1, r.2)

/-- A computation that does not end. -/
def diverge : Through ε σ α := fun _ => none

/-- What is cached for a key, or else what is computed for it and then stored. -/
def lookup (view : σ → κ → Option β) (store : σ → κ → β → σ) (compute : κ → Through ε σ β) (key : κ) :
    Through ε σ β := do
  match view (← get) key with
  | some v => return v
  | none => do
    let v ← compute key
    modify fun s => store s key v
    return v

/-- A computation on the first of two states. -/
def onFst (x : Through ε σ α) : Through ε (σ × τ) α := fun s => (x s.1).map fun r => (r.1, (r.2, s.2))

def Gives (inv : σ → Prop) (x : Through ε σ α) (r : Except ε α) : Prop := ∀ s, inv s → ∃ s', x s = some (r, s') ∧ inv s'

variable {inv : σ → Prop} {x : Through ε σ α} {f : α → Through ε σ β} {s s' : σ} {r : Except ε α}

theorem bind_ok {a : α} (h : x s = some (.ok a, s')) : (x >>= f) s = f a s' := by
  show (x s >>= fun r => ExceptT.bindCont f r.1 r.2) = _
  rw [h]
  rfl

theorem bind_error {e : ε} (h : x s = some (.error e, s')) : (x >>= f) s = some (.error e, s') := by
  show (x s >>= fun r => ExceptT.bindCont f r.1 r.2) = _
  rw [h]
  rfl

theorem attempt_bind {f : Except ε α → Through ε σ β} :
    (attempt x >>= f) s = (x s).bind fun r => f r.1 r.2 := by
  cases h : x s with
  | none =>
    show (attempt x s >>= fun r => ExceptT.bindCont f r.1 r.2) = _
    rw [attempt, h]
    rfl
  | some r =>
    have hattempt : attempt x s = some (.ok r.1, r.2) := by
      rw [attempt, h]
      rfl
    rw [bind_ok hattempt]
    rfl

/-- What a sequence does that ends. -/
theorem bind_eq_some {r : Except ε β} {s'' : σ} (h : (x >>= f) s = some (r, s'')) :
    (∃ e s', x s = some (.error e, s') ∧ r = .error e ∧ s'' = s') ∨
      ∃ a s', x s = some (.ok a, s') ∧ f a s' = some (r, s'') := by
  cases hx : x s with
  | none =>
    have hnone : (x >>= f) s = none := by
      show (x s >>= fun r => ExceptT.bindCont f r.1 r.2) = _
      rw [hx]
      rfl
    rw [hnone] at h
    cases h
  | some p =>
    obtain ⟨res, s'⟩ := p
    cases res with
    | error e =>
      rw [bind_error hx] at h
      cases h
      exact .inl ⟨e, s'', rfl, rfl, rfl⟩
    | ok a =>
      rw [bind_ok hx] at h
      exact .inr ⟨a, s', rfl, h⟩

theorem Gives.ofResult (r : Except ε α) : Gives inv (Through.ofResult r) r := fun s hs => ⟨s, rfl, hs⟩

theorem Gives.pure (a : α) : Gives inv (pure a : Through ε σ α) (.ok a) := fun s hs => ⟨s, rfl, hs⟩

theorem Gives.bind {g : α → Except ε β} (hx : Gives inv x r) (hf : ∀ a, r = .ok a → Gives inv (f a) (g a)) :
    Gives inv (x >>= f) (r >>= g) := by
  intro s hs
  obtain ⟨s', hxs, hs'⟩ := hx s hs
  cases r with
  | error e => exact ⟨s', bind_error hxs, hs'⟩
  | ok a =>
    rw [bind_ok hxs]
    exact hf a rfl s' hs'

theorem Gives.attempt (hx : Gives inv x r) : Gives inv (Through.attempt x) (.ok r) := by
  intro s hs
  obtain ⟨s', hxs, hs'⟩ := hx s hs
  refine ⟨s', ?_, hs'⟩
  rw [Through.attempt, hxs]
  rfl

theorem Gives.onFst {inv' : τ → Prop} (hx : Gives inv x r) :
    Gives (fun s => inv s.1 ∧ inv' s.2) (Through.onFst x) r := by
  rintro ⟨s, t⟩ ⟨hs, ht⟩
  obtain ⟨s', hxs, hs'⟩ := hx s hs
  refine ⟨(s', t), ?_, hs', ht⟩
  rw [Through.onFst, hxs]
  rfl

/-- A sequence that begins by reading the state. -/
theorem Gives.get_bind {f : σ → Through ε σ β} {r : Except ε β}
    (h : ∀ s, inv s → ∃ s', f s s = some (r, s') ∧ inv s') : Gives inv (get >>= f) r := by
  intro s hs
  rw [bind_ok (show (get : Through ε σ σ) s = some (.ok s, s) from rfl)]
  exact h s hs

/-- One after the other. -/
theorem Gives.mapM {g : α → Except ε β} (hf : ∀ a, Gives inv (f a) (g a)) :
    ∀ l : List α, Gives inv (l.mapM f) (l.mapM g)
  | [] => Gives.pure []
  | a :: l => by
    rw [List.mapM_cons, List.mapM_cons]
    exact (hf a).bind fun b _ => (Gives.mapM hf l).bind fun bs _ => Gives.pure _

/-- A cache that agrees with what is computed is not seen, and agrees still. -/
theorem Gives.lookup {view : σ → κ → Option β} {store : σ → κ → β → σ} {compute : κ → Through ε σ β}
    {f : κ → Except ε β} {key : κ} (hview : ∀ s, inv s → ∀ v, view s key = some v → f key = .ok v)
    (hstore : ∀ s, inv s → ∀ v, f key = .ok v → inv (store s key v)) (hcompute : Gives inv (compute key) (f key)) :
    Gives inv (Through.lookup view store compute key) (f key) := by
  refine Gives.get_bind fun s hs => ?_
  cases hv : view s key with
  | some v => exact ⟨s, by rw [hview s hs v hv]; rfl, hs⟩
  | none =>
    obtain ⟨s', hxs, hs'⟩ := hcompute s hs
    dsimp only
    cases hf : f key with
    | error e =>
      rw [hf] at hxs
      exact ⟨s', bind_error hxs, hs'⟩
    | ok v =>
      rw [hf] at hxs
      rw [bind_ok hxs]
      exact ⟨store s' key v, rfl, hstore s' hs' v hf⟩

/-- From any state that satisfies the invariant `x` leaves such a state, with a
result of which `post` holds. -/
def Ensures (inv : σ → Prop) (x : Through ε σ α) (post : Except ε α → Prop) : Prop :=
  ∀ s, inv s → ∃ r s', x s = some (r, s') ∧ inv s' ∧ post r

theorem Ensures.map {post : Except ε α → Prop} (hx : Ensures inv x post) (g : α → β) :
    Ensures inv (x >>= fun a => pure (g a)) fun r => ∃ r', post r' ∧ r = r'.map g := by
  intro s hs
  obtain ⟨r, s', hxs, hs', hr⟩ := hx s hs
  cases r with
  | error e => exact ⟨.error e, s', bind_error hxs, hs', .error e, hr, rfl⟩
  | ok a => exact ⟨.ok (g a), s', bind_ok hxs, hs', .ok a, hr, rfl⟩

/-- Of each computation of a run its own result holds. -/
theorem Ensures.mapM {post : α → Except ε β → Prop} (hf : ∀ a, Ensures inv (f a) (post a)) : ∀ (l : List α) (s : σ),
    inv s → ∃ rs s', l.mapM (fun a => Through.attempt (f a)) s = some (.ok rs, s') ∧ inv s' ∧ List.Forall₂ post l rs
  | [], s, hs => ⟨[], s, rfl, hs, .nil⟩
  | a :: l, s, hs => by
    obtain ⟨r, s₁, hr, hs₁, hpost⟩ := hf a s hs
    obtain ⟨rs, s₂, hrs, hs₂, hposts⟩ := Ensures.mapM hf l s₁ hs₁
    refine ⟨r :: rs, s₂, ?_, hs₂, .cons hpost hposts⟩
    rw [List.mapM_cons, attempt_bind, hr, Option.bind_some, bind_ok hrs]
    rfl

end Through
