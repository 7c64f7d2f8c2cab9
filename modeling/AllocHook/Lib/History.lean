/-
The maximum of a quantity over the history of a run.

A history is a list of events, a quantity a function of the events so far.
`Peak f l p` says `p` is the greatest value `f` has had at the start or after
any event of `l`; a recorded value that is raised to `f` whenever `f` exceeds
it is that maximum (`Peak.concat`).

`Occurs P l` says some event of `l` met `P` given the events before it,
`Always P l` that each did, `Since P Q l` that one met `P` and none after it
`Q`. A property of histories holds all along just when each event keeps it
(`prefixes_iff_always`). `Latest key l i a` says `a`, at position `i`, is the
last event of `l` with its key.
-/
import Mathlib.Order.Bounds.Basic
import Mathlib.Data.List.Infix

namespace History

variable {α β : Type*} [LinearOrder β] {f : List α → β} {l : List α} {a : α} {p : β}

/-- `p` is the greatest value `f` takes on the prefixes of `l`. -/
def Peak (f : List α → β) (l : List α) (p : β) : Prop := IsGreatest {b | ∃ pre, pre <+: l ∧ f pre = b} p

theorem Peak.nil : Peak f [] (f []) := by
  refine ⟨⟨[], List.prefix_rfl, rfl⟩, ?_⟩
  rintro b ⟨pre, hp, rfl⟩
  rw [List.prefix_nil.mp hp]

theorem Peak.le (h : Peak f l p) {pre : List α} (hp : pre <+: l) : f pre ≤ p := h.2 ⟨pre, hp, rfl⟩

/-- One more event raises the maximum to the value after it, if at all. -/
theorem Peak.concat (h : Peak f l p) (a : α) : Peak f (l ++ [a]) (max p (f (l ++ [a]))) := by
  constructor
  · rcases le_total p (f (l ++ [a])) with hle | hle
    · exact ⟨l ++ [a], List.prefix_rfl, (max_eq_right hle).symm⟩
    · obtain ⟨pre, hp, hf⟩ := h.1
      exact ⟨pre, hp.trans (List.prefix_append l [a]), by rw [hf, max_eq_left hle]⟩
  · rintro b ⟨pre, hp, rfl⟩
    rcases List.prefix_concat_iff.mp hp with rfl | hp
    · exact le_max_right _ _
    · exact (h.le hp).trans (le_max_left _ _)

/-- A quantity bounded on the whole history by another has no higher maximum. -/
theorem Peak.mono {g : List α → β} {q : β} (hf : Peak f l p) (hg : Peak g l q)
    (h : ∀ pre, pre <+: l → f pre ≤ g pre) : p ≤ q := by
  obtain ⟨pre, hp, rfl⟩ := hf.1
  exact (h pre hp).trans (hg.le hp)

/-! ## Events and what came before them -/

/-- Some event of `l` is `P` of the history before it. -/
def Occurs (P : List α → α → Prop) (l : List α) : Prop := ∃ pre a post, l = pre ++ a :: post ∧ P pre a

theorem occurs_nil {P : List α → α → Prop} : ¬ Occurs P [] := by
  intro hx
  obtain ⟨pre, a, post, h, _⟩ := hx
  simp at h

theorem occurs_concat {P : List α → α → Prop} : Occurs P (l ++ [a]) ↔ P l a ∨ Occurs P l := by
  constructor
  · intro hx
    obtain ⟨pre, b, post, hq, hb⟩ := hx
    rcases List.eq_nil_or_concat post with rfl | ⟨post, c, rfl⟩
    · obtain ⟨rfl, hc⟩ := List.append_inj' hq rfl
      rw [List.singleton_inj.mp hc]
      exact .inl hb
    · rw [List.concat_eq_append, ← List.cons_append, ← List.append_assoc] at hq
      obtain ⟨rfl, -⟩ := List.append_inj' hq rfl
      exact .inr ⟨pre, b, post, rfl, hb⟩
  · intro hx
    rcases hx with h | ⟨pre, b, post, rfl, hb⟩
    · exact ⟨l, a, [], rfl, h⟩
    · exact ⟨pre, b, post ++ [a], by rw [List.append_assoc, List.cons_append], hb⟩

/-- Every event of `l` is `P` of the history before it. -/
def Always (P : List α → α → Prop) (l : List α) : Prop := ∀ pre a post, l = pre ++ a :: post → P pre a

theorem Always.mono {P : List α → α → Prop} {pre : List α} (h : Always P l) (hp : pre <+: l) : Always P pre := by
  obtain ⟨post, rfl⟩ := hp
  rintro pre a post' rfl
  exact h pre a (post' ++ post) (by rw [List.append_assoc, List.cons_append])

theorem always_nil {P : List α → α → Prop} : Always P [] := by
  intro pre a post h
  simp at h

theorem always_concat {P : List α → α → Prop} : Always P (l ++ [a]) ↔ P l a ∧ Always P l := by
  constructor
  · exact fun h => ⟨h l a [] rfl, h.mono (List.prefix_append l [a])⟩
  · rintro ⟨ha, hl⟩ pre b post hq
    rcases (occurs_concat (P := fun q c => q = pre ∧ c = b)).mp ⟨pre, b, post, hq, rfl, rfl⟩ with ⟨rfl, rfl⟩ | h
    · exact ha
    · obtain ⟨pre', b', post', rfl, rfl, rfl⟩ := h
      exact hl _ _ _ rfl

/-- A property of histories that holds at the start holds all along just when
each event keeps it, `C` being what an event has to be to keep it. -/
theorem prefixes_iff_always {P : List α → Prop} {C : List α → α → Prop} (h₀ : P [])
    (step : ∀ pre a, pre ++ [a] <+: l → P pre → Always C pre → (P (pre ++ [a]) ↔ C pre a)) :
    (∀ pre, pre <+: l → P pre) ↔ Always C l := by
  induction l using List.reverseRecOn with
  | nil =>
    refine ⟨fun _ => always_nil, fun _ pre hp => ?_⟩
    rw [List.prefix_nil.mp hp]
    exact h₀
  | append_singleton l a ih =>
    have hl : l <+: l ++ [a] := List.prefix_append l [a]
    have ih := ih fun pre b hp => step pre b (hp.trans hl)
    rw [always_concat]
    constructor
    · intro hall
      have hC := ih.mp fun pre hp => hall pre (hp.trans hl)
      exact ⟨(step l a List.prefix_rfl (hall l hl) hC).mp (hall _ List.prefix_rfl), hC⟩
    · rintro ⟨ha, hC⟩ pre hp
      have hall := ih.mpr hC
      rcases List.prefix_concat_iff.mp hp with rfl | hp
      · exact (step l a List.prefix_rfl (hall l List.prefix_rfl) hC).mpr ha
      · exact hall pre hp

theorem always_cons {P : List α → α → Prop} :
    Always P (a :: l) ↔ P [] a ∧ Always (fun pre b => P (a :: pre) b) l := by
  constructor
  · exact fun h => ⟨h [] a l rfl, fun pre b post hq => h (a :: pre) b post (by rw [hq]; rfl)⟩
  · intro h pre b post hq
    cases pre with
    | nil => cases hq; exact h.1
    | cons c pre => cases hq; exact h.2 pre b post rfl

/-- What comes later has what came earlier before it. -/
theorem always_append {P : List α → α → Prop} {l' : List α} :
    Always P (l ++ l') ↔ Always P l ∧ Always (fun pre b => P (l ++ pre) b) l' := by
  induction l' using List.reverseRecOn with
  | nil => simp only [List.append_nil, always_nil, and_true]
  | append_singleton l' b ih =>
    rw [← List.append_assoc, always_concat, ih, always_concat]
    exact and_left_comm

theorem always_congr {P Q : List α → α → Prop} (h : ∀ pre a, pre ++ [a] <+: l → (P pre a ↔ Q pre a)) :
    Always P l ↔ Always Q l := by
  have hpre : ∀ {pre a post}, l = pre ++ a :: post → pre ++ [a] <+: l := by
    rintro pre a post rfl
    exact ⟨post, by rw [List.append_assoc, List.singleton_append]⟩
  exact ⟨fun hP pre a post hq => (h pre a (hpre hq)).mp (hP pre a post hq),
    fun hQ pre a post hq => (h pre a (hpre hq)).mpr (hQ pre a post hq)⟩

theorem always_iff_getElem {P : List α → α → Prop} :
    Always P l ↔ ∀ i (h : i < l.length), P (l.take i) l[i] := by
  constructor
  · intro h i hi
    refine h (l.take i) l[i] (l.drop (i + 1)) ?_
    rw [List.getElem_cons_drop hi, List.take_append_drop]
  · rintro h pre a post rfl
    simpa using h pre.length (by simp)

instance {P : List α → α → Prop} [∀ pre a, Decidable (P pre a)] : Decidable (Always P l) :=
  decidable_of_iff _ always_iff_getElem.symm

/-- Some event of `l` is `P`, and no later one is `Q`. -/
def Since (P Q : α → Prop) (l : List α) : Prop := ∃ pre a post, l = pre ++ a :: post ∧ P a ∧ ∀ b ∈ post, ¬ Q b

theorem since_nil {P Q : α → Prop} : ¬ Since P Q [] := by
  intro hx
  obtain ⟨pre, a, post, h, _⟩ := hx
  simp at h

theorem since_concat {P Q : α → Prop} : Since P Q (l ++ [a]) ↔ P a ∨ Since P Q l ∧ ¬ Q a := by
  constructor
  · intro h
    obtain ⟨pre, b, post, hq, hb, hpost⟩ := h
    rcases List.eq_nil_or_concat post with rfl | ⟨post, c, rfl⟩
    · obtain ⟨-, hc⟩ := List.append_inj' hq rfl
      rw [List.singleton_inj.mp hc]
      exact .inl hb
    · rw [List.concat_eq_append, ← List.cons_append, ← List.append_assoc] at hq
      obtain ⟨rfl, hc⟩ := List.append_inj' hq rfl
      rw [List.singleton_inj.mp hc]
      rw [List.concat_eq_append, List.forall_mem_append] at hpost
      exact .inr ⟨⟨pre, b, post, rfl, hb, hpost.1⟩, hpost.2 c (List.mem_singleton_self c)⟩
  · intro h
    rcases h with ha | ⟨⟨pre, b, post, rfl, hb, hpost⟩, ha⟩
    · exact ⟨l, a, [], rfl, ha, by simp⟩
    · refine ⟨pre, b, post ++ [a], by rw [List.append_assoc, List.cons_append], hb, ?_⟩
      rw [List.forall_mem_append]
      exact ⟨hpost, by simpa using ha⟩

/-! ## The last event of a key -/

section Latest

variable {κ : Type*} {key : α → κ} {b : α} {i j : ℕ}

/-- `a` is the event at position `i`, and no later one has its key. -/
def Latest (key : α → κ) (l : List α) (i : ℕ) (a : α) : Prop :=
  l[i]? = some a ∧ ∀ j b, i < j → l[j]? = some b → key b ≠ key a

theorem latest_concat_self (key : α → κ) (l : List α) (a : α) : Latest key (l ++ [a]) l.length a := by
  refine ⟨List.getElem?_concat_length, fun j b hj hb => ?_⟩
  rw [List.getElem?_eq_none (by simp; omega)] at hb
  cases hb

/-- An event of another key leaves it the last. -/
theorem Latest.concat (h : Latest key l i a) (hne : key b ≠ key a) : Latest key (l ++ [b]) i a := by
  have hi : i < l.length := (List.getElem?_eq_some_iff.mp h.1).1
  refine ⟨by rw [List.getElem?_append_left hi, h.1], fun j c hj hc => ?_⟩
  rcases Nat.lt_trichotomy j l.length with hlt | rfl | hgt
  · rw [List.getElem?_append_left hlt] at hc
    exact h.2 j c hj hc
  · rw [List.getElem?_concat_length] at hc
    cases hc
    exact hne
  · rw [List.getElem?_eq_none (by simp; omega)] at hc
    cases hc

/-- Two events are in the order of their positions. -/
theorem Latest.of_pairwise {r : α → α → Prop} (ha : Latest key l i a) (hl : l.Pairwise r) (hb : Latest key l j b)
    (hij : i < j) : r a b := by
  obtain ⟨hi, rfl⟩ := List.getElem?_eq_some_iff.mp ha.1
  obtain ⟨hj, rfl⟩ := List.getElem?_eq_some_iff.mp hb.1
  exact List.pairwise_iff_getElem.mp hl i j hi hj hij

theorem Latest.mem (h : Latest key l i a) : a ∈ l := List.mem_of_getElem? h.1

end Latest

end History
