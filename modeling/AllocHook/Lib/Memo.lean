/-
Caches of a function that may have no value.

A cache agrees with the function when what it has is what the function gives.
Looking a key up in such a cache, and filling it on the way, gives the value
of the function, whatever was looked up before.
-/
import Mathlib.Logic.Function.Basic

namespace Memo

variable {κ β : Type*} {f : κ → Option β} {cache : κ → Option β}

def Agrees (f : κ → Option β) (cache : κ → Option β) : Prop := ∀ key v, cache key = some v → f key = some v

theorem agrees_empty (f : κ → Option β) : Agrees f fun _ => none := nofun

variable [DecidableEq κ]

/-- The cached value, or else that of the function, which is then cached; a key
without a value leaves the cache as it is. -/
def fetch (f : κ → Option β) (cache : κ → Option β) (key : κ) : Option β × (κ → Option β) :=
  match cache key with
  | some v => (some v, cache)
  | none =>
    match f key with
    | some v => (some v, Function.update cache key (some v))
    | none => (none, cache)

theorem Agrees.update (h : Agrees f cache) {key : κ} {v : β} (hv : f key = some v) :
    Agrees f (Function.update cache key (some v)) := by
  intro key' v' h'
  by_cases hk : key' = key
  · subst hk
    rw [Function.update_self] at h'
    exact hv.trans h'
  · rw [Function.update_of_ne hk] at h'
    exact h key' v' h'

theorem Agrees.fetch_fst (h : Agrees f cache) (key : κ) : (fetch f cache key).1 = f key := by
  unfold fetch
  cases hc : cache key with
  | some v => exact (h key v hc).symm
  | none => cases hf : f key <;> rfl

theorem Agrees.fetch_snd (h : Agrees f cache) (key : κ) : Agrees f (fetch f cache key).2 := by
  unfold fetch
  cases hc : cache key with
  | some v => exact h
  | none =>
    cases hf : f key with
    | some v => exact h.update hf
    | none => exact h

end Memo
