/-
Searching indices by halves, where the probe that tells on which side of an
index the target is may read and change a state.

Of an ordered row of indices the search finds one that has the target, or the
index up to which all have it after them (`gives_loop`). In a row that is not
ordered what it finds is still the target's; it may miss it. The state it
leaves is that of the probe that found it (`loop_found`).
-/
import AllocHook.Lib.Through
import Mathlib.Order.Lattice

namespace Search

open Through (Gives)

variable {ε σ α : Type}

/-- Where the target is, seen from an index. -/
inductive Probe (α : Type)
  | found (a : α)
  | before
  | after

/-- What was found, or the index at which nothing is left to search. -/
def loop (mid : ℕ → ℕ → ℕ) (probe : ℕ → Through ε σ (Probe α)) : ℕ → ℕ → ℕ → Through ε σ (α ⊕ ℕ)
  | 0, _, _ => Through.diverge
  | fuel + 1, first, last =>
    if first < last then do
      match ← probe (mid first last) with
      | .found a => return .inl a
      | .before => loop mid probe fuel first (mid first last)
      | .after => loop mid probe fuel (mid first last + 1) last
    else return .inr last

/-- The target is after the first indices and before the last. -/
structure Ordered (p : ℕ → Probe α) (n : ℕ) : Prop where
  after : ∀ i j, i < j → j < n → p j = .after → p i = .after
  before : ∀ i j, i < j → j < n → p i = .before → p j = .before

/-- The target is nowhere else. -/
structure Between (p : ℕ → Probe α) (n first last : ℕ) : Prop where
  after : ∀ i < first, p i = .after
  before : ∀ i < n, last ≤ i → p i = .before

variable {inv : σ → Prop} {mid : ℕ → ℕ → ℕ} {probe : ℕ → Through ε σ (Probe α)} {p : ℕ → Probe α} {n : ℕ}

theorem Between.to_left (hp : Ordered p n) {first last i : ℕ} (h : Between p n first last)
    (hbefore : p i = .before) : Between p n first i := by
  refine ⟨h.after, fun j hj hle => ?_⟩
  rcases hle.eq_or_lt with rfl | hlt
  · exact hbefore
  · exact hp.before i j hlt hj hbefore

theorem Between.to_right (hp : Ordered p n) {first last i : ℕ} (h : Between p n first last) (hi : i < n)
    (hafter : p i = .after) : Between p n (i + 1) last := by
  refine ⟨fun j hj => ?_, h.before⟩
  rcases (Nat.lt_succ_iff.mp hj).eq_or_lt with rfl | hlt
  · exact hafter
  · exact hp.after j i hlt hi hafter

theorem gives_loop (hmid : ∀ first last, first < last → last ≤ n → first ≤ mid first last ∧ mid first last < last)
    (hprobe : ∀ i < n, Gives inv (probe i) (.ok (p i))) : ∀ fuel first last : ℕ, last - first < fuel → last ≤ n →
      (Ordered p n → Between p n first last) →
      ∃ r, Gives inv (loop mid probe fuel first last) (.ok r) ∧ (∀ a, r = .inl a → ∃ i < n, p i = .found a) ∧
        ∀ k, r = .inr k → Ordered p n → k ≤ n ∧ Between p n k k
  | 0, _, _, hfuel, _, _ => absurd hfuel (Nat.not_lt_zero _)
  | fuel + 1, first, last, hfuel, hlast, hbetween => by
    by_cases hlt : first < last
    · obtain ⟨hle, hgt⟩ := hmid first last hlt hlast
      have hi : mid first last < n := hgt.trans_le hlast
      have hstep {x : Through ε σ (α ⊕ ℕ)} {r : α ⊕ ℕ} (hx : Gives inv x (.ok r))
          (hrest : (match p (mid first last) with
            | .found a => return .inl a
            | .before => loop mid probe fuel first (mid first last)
            | .after => loop mid probe fuel (mid first last + 1) last) = x) :
          Gives inv (loop mid probe (fuel + 1) first last) (.ok r) := by
        rw [loop, if_pos hlt]
        refine (hprobe _ hi).bind (g := fun _ => .ok r) fun q hq => ?_
        cases hq
        rw [hrest]
        exact hx
      cases hpi : p (mid first last) with
      | found a =>
        refine ⟨.inl a, hstep (Gives.pure _) (by rw [hpi]), ?_, nofun⟩
        rintro a' ⟨⟩
        exact ⟨_, hi, hpi⟩
      | before =>
        obtain ⟨r, hr, houtcome⟩ := gives_loop hmid hprobe fuel first (mid first last) (by omega)
          (by omega) fun hp => (hbetween hp).to_left hp hpi
        exact ⟨r, hstep hr (by rw [hpi]), houtcome⟩
      | after =>
        obtain ⟨r, hr, houtcome⟩ := gives_loop hmid hprobe fuel (mid first last + 1) last (by omega)
          hlast fun hp => (hbetween hp).to_right hp hi hpi
        exact ⟨r, hstep hr (by rw [hpi]), houtcome⟩
    · refine ⟨.inr last, ?_, nofun, ?_⟩
      · rw [loop, if_neg hlt]
        exact Gives.pure _
      · rintro k ⟨⟩ hp
        obtain ⟨hafter, hbefore⟩ := hbetween hp
        exact ⟨hlast, fun i hi => hafter i (by omega), hbefore⟩

/-- What is found was found by a probe, the last. -/
theorem loop_found {a : α} {s' : σ} : ∀ {fuel first last : ℕ} {s : σ},
    loop mid probe fuel first last s = some (.ok (.inl a), s') → ∃ i s₀, probe i s₀ = some (.ok (.found a), s')
  | 0, _, _, _, h => nomatch h
  | fuel + 1, first, last, s, h => by
    rw [loop] at h
    split at h
    · obtain ⟨e, s₁, -, hr, -⟩ | ⟨q, s₁, hprobe, hrest⟩ := Through.bind_eq_some h
      · cases hr
      · cases q with
        | found b =>
          cases hrest
          exact ⟨_, s, hprobe⟩
        | before => exact loop_found hrest
        | after => exact loop_found hrest
    · cases h

end Search
