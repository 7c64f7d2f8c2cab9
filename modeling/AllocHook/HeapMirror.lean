/-
The tracker mirrors the heap.

A hook tracks a block after the allocator has given it out and untracks it
before the allocator has it back. In between the block is the hook's alone,
so no other thread can be given its address: at every address `pointers_`
has an entry exactly if a block is there that a hook asked for and no hook
is outside its `Add` and `Remove` with it (`Mirrors.shows`).
-/
import AllocHook.HeapHooks

namespace AllocHook

open FiniteMap

variable {w : Nat} {cfg : Config w} {Tid : Type*}

/-! ## The invariant -/

/-- Where a thread can be in the tracker, given where it is in a hook. -/
def Consistent : HookProgress w → Progress w → Prop
  | .added ptr size, .inserting _ ptr' size' type _ => ptr' = ptr ∧ size' = size ∧ type = .host
  | .added _ _, .snapshotting _ => True
  | .removed _ _, .unreferencing _ => True
  | _, .idle => True
  | _, _ => False

/-- The block a hook got is of the size asked for. -/
def HookProgress.Fits (b : Block Tid w) : HookProgress w → Prop
  | .adding _ size | .added _ size => b.size = size ∧ b.hooked = true
  | _ => True

/-- A hook's block has its entry from the insertion to the erasure. -/
def shownBy : HookProgress w → Progress w → Bool
  | .added _ _, .inserting .. => false
  | .added _ _, _ => true
  | .removing _ _, _ => true
  | _, _ => false

/-- Whether a block has an entry: whether a hook asked for it, and the hook
that holds it, if one does, is between its insertion and its erasure. -/
def HeapWorld.shown (x : HeapWorld Tid w) (b : Block Tid w) : Bool :=
  b.hooked && match b.owner with
    | .hook t => shownBy (x.hooks t) (x.sections.threads t)
    | _ => true

/-- What is tracked at `ptr`: a size and a type. -/
def HeapWorld.tracked (x : HeapWorld Tid w) (ptr : Word w) : Option (Word w × MemType) :=
  (x.sections.data.pointers.lookup (manglePointer ptr)).map fun e => (e.size, e.memType)

/-- The blocks of the heap that `p` holds of, as what should be tracked. -/
def HeapWorld.mirrored (x : HeapWorld Tid w) (p : Block Tid w → Bool) (ptr : Word w) : Option (Word w × MemType) :=
  ((x.heap.lookup ptr).filter p).map fun b => (b.size, .host)

structure Mirrors (x : HeapWorld Tid w) : Prop where
  shows : ∀ ptr, x.tracked ptr = x.mirrored x.shown ptr
  owned : ∀ ptr b t, x.heap.lookup ptr = some b → b.owner = .hook t → (x.hooks t).block = some ptr
  holds : ∀ t ptr, (x.hooks t).block = some ptr →
    ∃ b, x.heap.lookup ptr = some b ∧ b.owner = .hook t ∧ (x.hooks t).Fits b
  consistent : ∀ t, Consistent (x.hooks t) (x.sections.threads t)

theorem Mirrors.init : Mirrors (HeapWorld.init Tid w) := by
  refine ⟨fun ptr => rfl, fun ptr b t h => ?_, fun t ptr h => ?_, fun t => trivial⟩
  · simp [HeapWorld.init] at h
  · simp [HeapWorld.init, HookProgress.block] at h

variable {x x' : HeapWorld Tid w}

/-- Whether a block is shown depends on the hook that holds it. -/
theorem shown_congr {b : Block Tid w}
    (h : ∀ t, b.owner = .hook t → x'.hooks t = x.hooks t ∧ x'.sections.threads t = x.sections.threads t) :
    x'.shown b = x.shown b := by
  unfold HeapWorld.shown
  cases ho : b.owner with
  | hook t =>
    obtain ⟨hh, ht⟩ := h t ho
    simp only [hh, ht]
  | _ => rfl

theorem mirrored_congr {p q : Block Tid w → Bool} {ptr : Word w} (hheap : x'.heap.lookup ptr = x.heap.lookup ptr)
    (hpq : ∀ b, x.heap.lookup ptr = some b → p b = q b) : x'.mirrored p ptr = x.mirrored q ptr := by
  unfold HeapWorld.mirrored
  rw [hheap]
  cases hb : x.heap.lookup ptr with
  | none => rfl
  | some b => simp only [Option.filter, hpq b hb]

/-- A change that concerns the threads of `moved` and the addresses they hold,
and is right there, is right everywhere. -/
theorem Mirrors.of_local (hx : Mirrors x) (moved : Tid → Prop) (touched : Word w → Prop)
    (hmine : ∀ ptr b t, x.heap.lookup ptr = some b → b.owner = .hook t → (touched ptr ↔ moved t))
    (hheap : ∀ ptr, ¬ touched ptr → x'.heap.lookup ptr = x.heap.lookup ptr)
    (htracked : ∀ ptr, ¬ touched ptr → x'.tracked ptr = x.tracked ptr)
    (hothers : ∀ t, ¬ moved t → x'.hooks t = x.hooks t ∧ x'.sections.threads t = x.sections.threads t)
    (hshows : ∀ ptr, touched ptr → x'.tracked ptr = x'.mirrored x'.shown ptr)
    (howned : ∀ ptr b t, touched ptr → x'.heap.lookup ptr = some b → b.owner = .hook t →
      (x'.hooks t).block = some ptr)
    (hholds : ∀ t ptr, moved t → (x'.hooks t).block = some ptr →
      ∃ b, x'.heap.lookup ptr = some b ∧ b.owner = .hook t ∧ (x'.hooks t).Fits b)
    (hconsistent : ∀ t, moved t → Consistent (x'.hooks t) (x'.sections.threads t)) : Mirrors x' := by
  refine ⟨fun ptr => ?_, fun ptr b t hb ho => ?_, fun t ptr hp => ?_, fun t => ?_⟩
  · by_cases ht : touched ptr
    · exact hshows ptr ht
    · rw [htracked ptr ht, hx.shows ptr]
      refine (mirrored_congr (hheap ptr ht) fun b hb => ?_).symm
      exact shown_congr fun t ho => hothers t fun hm => ht ((hmine ptr b t hb ho).mpr hm)
  · by_cases ht : touched ptr
    · exact howned ptr b t ht hb ho
    · rw [hheap ptr ht] at hb
      rw [(hothers t fun hm => ht ((hmine ptr b t hb ho).mpr hm)).1]
      exact hx.owned ptr b t hb ho
  · by_cases hm : moved t
    · exact hholds t ptr hm hp
    · rw [(hothers t hm).1] at hp ⊢
      obtain ⟨b, hb, ho, hf⟩ := hx.holds t ptr hp
      refine ⟨b, ?_, ho, hf⟩
      rw [hheap ptr fun ht => hm ((hmine ptr b t hb ho).mp ht), hb]
  · by_cases hm : moved t
    · exact hconsistent t hm
    · rw [(hothers t hm).1, (hothers t hm).2]
      exact hx.consistent t

/-- The block a thread holds is the only one it holds, and no one else holds it. -/
theorem Mirrors.holder (hx : Mirrors x) {t : Tid} {ptr : Word w} (hblock : (x.hooks t).block = some ptr) :
    ∀ ptr' b t', x.heap.lookup ptr' = some b → b.owner = .hook t' → (ptr' = ptr ↔ t' = t) := by
  intro ptr' b t' hb ho
  constructor
  · intro hq
    obtain ⟨b', hb', ho', -⟩ := hx.holds t ptr hblock
    rw [hq, hb'] at hb
    cases hb
    rw [ho'] at ho
    cases ho
    rfl
  · intro hq
    have := hx.owned ptr' b t' hb ho
    rw [hq, hblock] at this
    exact (Option.some.inj this).symm

/-- A thread that holds no block, and an address that no thread holds. -/
theorem Mirrors.no_holder (hx : Mirrors x) {t : Tid} {ptr : Word w} (hblock : (x.hooks t).block = none)
    (hptr : ∀ b t', x.heap.lookup ptr = some b → b.owner ≠ .hook t') :
    ∀ ptr' b t', x.heap.lookup ptr' = some b → b.owner = .hook t' → (ptr' = ptr ↔ t' = t) := by
  intro ptr' b t' hb ho
  constructor
  · intro hq
    rw [hq] at hb
    exact absurd ho (hptr b t' hb)
  · intro hq
    have := hx.owned ptr' b t' hb ho
    rw [hq, hblock] at this
    cases this

theorem tracked_congr {ptr : Word w}
    (h : x'.sections.data.pointers.lookup (manglePointer ptr) = x.sections.data.pointers.lookup (manglePointer ptr)) :
    x'.tracked ptr = x.tracked ptr := by
  rw [HeapWorld.tracked, HeapWorld.tracked, h]

theorem mirrored_of_lookup {p : Block Tid w → Bool} {ptr : Word w} {b : Block Tid w} (hb : x.heap.lookup ptr = some b) :
    x.mirrored p ptr = if p b then some (b.size, .host) else none := by
  rw [HeapWorld.mirrored, hb]
  cases hp : p b <;> simp [Option.filter, hp]

theorem mirrored_of_none {p : Block Tid w → Bool} {ptr : Word w} (hb : x.heap.lookup ptr = none) :
    x.mirrored p ptr = none := by
  rw [HeapWorld.mirrored, hb]
  rfl

theorem shown_of_hook {b : Block Tid w} {t : Tid} (ho : b.owner = .hook t) :
    x.shown b = (b.hooked && shownBy (x.hooks t) (x.sections.threads t)) := by
  rw [HeapWorld.shown, ho]

/-- `x'` differs from `x` at one address and in one thread. -/
structure HeapWorld.Near (x x' : HeapWorld Tid w) (t : Tid) (ptr : Word w) : Prop where
  heap : ∀ ptr', ptr' ≠ ptr → x'.heap.lookup ptr' = x.heap.lookup ptr'
  tracked : ∀ ptr', ptr' ≠ ptr → x'.tracked ptr' = x.tracked ptr'
  others : ∀ t', t' ≠ t → x'.hooks t' = x.hooks t' ∧ x'.sections.threads t' = x.sections.threads t'

/-- What a thread does to a block that it holds afterwards. -/
theorem Mirrors.of_held (hx : Mirrors x) {t : Tid} {ptr : Word w} {b : Block Tid w} (hnear : x.Near x' t ptr)
    (hmine : ∀ ptr' b t', x.heap.lookup ptr' = some b → b.owner = .hook t' → (ptr' = ptr ↔ t' = t))
    (hblock : (x'.hooks t).block = some ptr) (hb : x'.heap.lookup ptr = some b) (ho : b.owner = .hook t)
    (hfits : (x'.hooks t).Fits b) (hconsistent : Consistent (x'.hooks t) (x'.sections.threads t))
    (hshows : x'.tracked ptr =
      if b.hooked && shownBy (x'.hooks t) (x'.sections.threads t) then some (b.size, .host) else none) :
    Mirrors x' := by
  refine hx.of_local (· = t) (· = ptr) hmine hnear.heap hnear.tracked hnear.others ?_ ?_ ?_ ?_
  · intro ptr' hq
    rw [hq, hshows, mirrored_of_lookup hb, shown_of_hook ho]
  · intro ptr' b' t' hq hb' ho'
    rw [hq] at hb' ⊢
    rw [hb] at hb'
    cases hb'
    rw [ho] at ho'
    cases ho'
    exact hblock
  · intro t' ptr' hq hp
    rw [hq] at hp ⊢
    rw [hblock] at hp
    cases hp
    exact ⟨b, hb, ho, hfits⟩
  · intro t' hq
    rw [hq]
    exact hconsistent

/-- What a thread does to a block that no hook holds afterwards. -/
theorem Mirrors.of_left (hx : Mirrors x) {t : Tid} {ptr : Word w} (hnear : x.Near x' t ptr)
    (hmine : ∀ ptr' b t', x.heap.lookup ptr' = some b → b.owner = .hook t' → (ptr' = ptr ↔ t' = t))
    (hblock : (x'.hooks t).block = none) (hno : ∀ b t', x'.heap.lookup ptr = some b → b.owner ≠ .hook t')
    (hconsistent : Consistent (x'.hooks t) (x'.sections.threads t))
    (hshows : x'.tracked ptr = x'.mirrored x'.shown ptr) : Mirrors x' := by
  refine hx.of_local (· = t) (· = ptr) hmine hnear.heap hnear.tracked hnear.others ?_ ?_ ?_ ?_
  · intro ptr' hq
    rw [hq]
    exact hshows
  · intro ptr' b t' hq hb ho
    rw [hq] at hb
    exact absurd ho (hno b t' hb)
  · intro t' ptr' hq hp
    rw [hq, hblock] at hp
    cases hp
  · intro t' hq
    rw [hq]
    exact hconsistent

/-- A block a thread holds, and what is tracked of it. -/
theorem Mirrors.held (hx : Mirrors x) {t : Tid} {ptr : Word w} (hblock : (x.hooks t).block = some ptr) :
    ∃ b, x.heap.lookup ptr = some b ∧ b.owner = .hook t ∧ (x.hooks t).Fits b ∧
      x.tracked ptr =
        if b.hooked && shownBy (x.hooks t) (x.sections.threads t) then some (b.size, .host) else none := by
  obtain ⟨b, hb, ho, hf⟩ := hx.holds t ptr hblock
  refine ⟨b, hb, ho, hf, ?_⟩
  rw [hx.shows ptr, mirrored_of_lookup hb, shown_of_hook ho]

theorem consistent_of_idle {p : Progress w} (hidle : p = .idle) (k : HookProgress w) : Consistent k p := by
  rw [hidle]
  cases k <;> trivial

/-- Only an `Add` for the hook's block is under way in a hook. -/
theorem consistent_inserting {k : HookProgress w} {env : AddEnv w} {ptr size : Word w} {type : MemType} {h : ℕ}
    (hc : Consistent k (.inserting env ptr size type h)) : k = .added ptr size ∧ type = .host := by
  cases k with
  | added ptr' size' =>
    obtain ⟨rfl, rfl, rfl⟩ := hc
    exact ⟨rfl, rfl⟩
  | _ => exact hc.elim

theorem consistent_snapshotting {k : HookProgress w} {walk : Iteration (Word w) (PointerInfoType w)}
    (hc : Consistent k (.snapshotting walk)) : ∃ ptr size, k = .added ptr size := by
  cases k with
  | added ptr size => exact ⟨ptr, size, rfl⟩
  | _ => exact hc.elim

theorem consistent_unreferencing {k : HookProgress w} {h : ℕ} (hc : Consistent k (.unreferencing h : Progress w)) :
    ∃ ptr release, k = .removed ptr release := by
  cases k with
  | removed ptr release => exact ⟨ptr, release, rfl⟩
  | _ => exact hc.elim

/-! ## The steps of the hooks -/

variable [DecidableEq Tid]

omit [DecidableEq Tid] in
theorem Mirrors.idle (hx : Mirrors x) {t : Tid} (h : (∀ ptr size, x.hooks t ≠ .added ptr size) ∧
    ∀ ptr release, x.hooks t ≠ .removed ptr release) : x.sections.threads t = .idle := by
  have hc := hx.consistent t
  obtain ⟨ha, hr⟩ := h
  cases hk : x.hooks t with
  | added ptr size => exact absurd hk (ha ptr size)
  | removed ptr release => exact absurd hk (hr ptr release)
  | _ =>
    rw [hk] at hc
    cases hp : x.sections.threads t with
    | idle => rfl
    | _ => rw [hp] at hc; exact hc.elim

theorem Mirrors.enter (hx : Mirrors x) {t : Tid} {k : HookProgress w} (hold : (x.hooks t).block = none)
    (hidle : x.sections.threads t = .idle) (hnew : k.block = none) : Mirrors (x.setHook t k) := by
  have hself : (x.setHook t k).hooks t = k := Function.update_self ..
  refine hx.of_local (· = t) (fun _ => False) ?_ (fun _ _ => rfl) (fun _ _ => rfl) ?_ ?_ ?_ ?_ ?_
  · intro ptr b t' hb ho
    refine ⟨False.elim, fun hq => ?_⟩
    have := hx.owned ptr b t' hb ho
    rw [hq, hold] at this
    cases this
  · exact fun t' ht => ⟨Function.update_of_ne ht _ _, rfl⟩
  · exact fun _ h => h.elim
  · exact fun _ _ _ h => h.elim
  · intro t' ptr hq hp
    rw [hq, hself, hnew] at hp
    cases hp
  · intro t' hq
    rw [hq, hself]
    exact consistent_of_idle hidle k

theorem Mirrors.take (hx : Mirrors x) {t : Tid} {ptr : Word w} {b : Block Tid w} {release : Release w}
    (hold : (x.hooks t).block = none) (hidle : x.sections.threads t = .idle) (hb : x.heap.lookup ptr = some b)
    (happ : b.owner = .app) :
    Mirrors { x.setHook t (.removing ptr release) with heap := x.heap.insert ptr { b with owner := .hook t } } := by
  have hself : (x.setHook t (.removing ptr release)).hooks t = .removing ptr release := Function.update_self ..
  have hnear : x.Near { x.setHook t (.removing ptr release) with
      heap := x.heap.insert ptr { b with owner := .hook t } } t ptr :=
    ⟨fun _ hne => Finmap.lookup_insert_of_ne _ hne, fun _ _ => rfl, fun _ hne => ⟨Function.update_of_ne hne _ _, rfl⟩⟩
  have hnot : ∀ b' t', x.heap.lookup ptr = some b' → b'.owner ≠ .hook t' := by
    intro b' t' hb'
    rw [hb] at hb'
    cases hb'
    rw [happ]
    simp
  refine hx.of_held hnear (hx.no_holder hold hnot) ?_ (Finmap.lookup_insert _) rfl ?_ ?_ ?_
  · simp only [hself, HookProgress.block]
  · simp only [hself, HookProgress.Fits]
  · simp only [hself]
    exact consistent_of_idle hidle _
  · refine (hx.shows ptr).trans ?_
    rw [mirrored_of_lookup hb]
    simp only [hself, shownBy, HeapWorld.shown, happ]

theorem Mirrors.allocate (hx : Mirrors x) {t : Tid} {ptr : Word w} (size : Word w) (hold : (x.hooks t).block = none)
    (hidle : x.sections.threads t = .idle) (hfresh : x.heap.lookup ptr = none) :
    Mirrors { x.setHook t (.adding ptr size) with
      heap := x.heap.insert ptr { size, owner := .hook t, hooked := true } } := by
  have hself : (x.setHook t (.adding ptr size)).hooks t = .adding ptr size := Function.update_self ..
  have hnear : x.Near { x.setHook t (.adding ptr size) with
      heap := x.heap.insert ptr { size, owner := .hook t, hooked := true } } t ptr :=
    ⟨fun _ hne => Finmap.lookup_insert_of_ne _ hne, fun _ _ => rfl, fun _ hne => ⟨Function.update_of_ne hne _ _, rfl⟩⟩
  refine hx.of_held hnear (hx.no_holder hold fun b' t' hb' => ?_) ?_ (Finmap.lookup_insert _) rfl ?_ ?_ ?_
  · rw [hfresh] at hb'
    cases hb'
  · simp only [hself, HookProgress.block]
  · simp only [hself, HookProgress.Fits, and_self]
  · simp only [hself]
    exact consistent_of_idle hidle _
  · refine (hx.shows ptr).trans ?_
    rw [mirrored_of_none hfresh]
    simp only [hself, shownBy, Bool.and_false, Bool.false_eq_true, if_false]

/-- A critical section of `Add` or `Remove` for the block the thread holds. -/
theorem Mirrors.of_section (hx : Mirrors x) {t : Tid} {ptr : Word w} {k : HookProgress w} {s : Sections Tid w}
    {sec : Section w} (hsec : Step cfg x.sections t sec s) (hblock : (x.hooks t).block = some ptr)
    (hkeeps : k.block = some ptr) (hfits : ∀ b : Block Tid w, (x.hooks t).Fits b → k.Fits b)
    (hpointers : ∀ k', k' ≠ manglePointer ptr → s.data.pointers.lookup k' = x.sections.data.pointers.lookup k')
    (hconsistent : Consistent k (s.threads t))
    (hshows : ∀ b : Block Tid w, (x.hooks t).Fits b →
      x.tracked ptr = (if b.hooked && shownBy (x.hooks t) (x.sections.threads t) then some (b.size, .host) else none) →
      (s.data.pointers.lookup (manglePointer ptr)).map (fun e => (e.size, e.memType)) =
        if b.hooked && shownBy k (s.threads t) then some (b.size, .host) else none) :
    Mirrors { x.setHook t k with sections := s } := by
  have hself : (x.setHook t k).hooks t = k := Function.update_self ..
  obtain ⟨b, hb, ho, hf, hbefore⟩ := hx.held hblock
  have hnear : x.Near { x.setHook t k with sections := s } t ptr := by
    refine ⟨fun _ _ => rfl, fun ptr' hne => ?_, fun t' hne => ⟨Function.update_of_ne hne _ _, hsec.others hne⟩⟩
    exact tracked_congr (hpointers _ fun hq => hne (mangle_inj.mp hq))
  refine hx.of_held hnear (hx.holder hblock) ?_ hb ho ?_ ?_ ?_
  · simp only [hself, hkeeps]
  · simp only [hself]; exact hfits b hf
  · simp only [hself]; exact hconsistent
  · simp only [hself]; exact hshows b hf hbefore

theorem Mirrors.add {H : Multiset ℕ} (hstack : StackHeld x.sections.data H) (hx : Mirrors x) {t : Tid}
    {ptr size : Word w} {env : AddEnv w} {s : Sections Tid w} (hat : x.hooks t = .adding ptr size)
    (henv : records cfg env size = true)
    (hsec : Step cfg x.sections t (.addBacktrace env ptr size .host) s) :
    Mirrors { x.setHook t (.added ptr size) with sections := s } := by
  obtain ⟨hp, ht⟩ := hsec.of_addBacktrace
  rw [afterBacktrace, if_neg (addBacktrace_ne_exit hstack henv)] at ht
  refine hx.of_section hsec (by rw [hat]; rfl) rfl (fun b hf => by rwa [hat] at hf) (fun k' _ => by rw [hp]) ?_ ?_
  · rw [ht]
    exact ⟨rfl, rfl, rfl⟩
  · intro b _ hbefore
    rw [hat] at hbefore
    rw [hp, ht]
    simpa [HeapWorld.tracked, shownBy] using hbefore

/-- A hook that stays where it is. -/
theorem setHook_self (x : HeapWorld Tid w) (t : Tid) : x.setHook t (x.hooks t) = x := by
  rw [HeapWorld.setHook, Function.update_eq_self]

theorem Mirrors.insertPointer (hx : Mirrors x) {t : Tid} {s : Sections Tid w}
    (hsec : Step cfg x.sections t .insertPointer s) : Mirrors { x with sections := s } := by
  obtain ⟨env, ptr, size, type, h, hat, hp, ht⟩ := hsec.of_insertPointer
  have hc := hx.consistent t
  rw [hat] at hc
  obtain ⟨hk, rfl⟩ := consistent_inserting hc
  rw [← setHook_self x t]
  refine hx.of_section hsec (by rw [hk]; rfl) (by rw [hk]; rfl) (fun b hf => hf) ?_ ?_ ?_
  · intro k' hne
    rw [hp, Finmap.lookup_insert_of_ne _ hne]
  · rcases ht with ht | ⟨walk, ht⟩ <;> rw [hk, ht] <;> trivial
  · intro b hf _
    rw [hk] at hf ⊢
    obtain ⟨hsize, hhooked⟩ := hf
    have hshown : shownBy (.added ptr size) (s.threads t) = true := by
      rcases ht with ht | ⟨walk, ht⟩ <;> rw [ht] <;> rfl
    rw [hp, Finmap.lookup_insert, hhooked, hshown, hsize]
    rfl

theorem Mirrors.takeSnapshot (hx : Mirrors x) {t : Tid} {s : Sections Tid w}
    (hsec : Step cfg x.sections t .takeSnapshot s) : Mirrors { x with sections := s } := by
  obtain ⟨walk, hat, hp, ht⟩ := hsec.of_takeSnapshot
  have hc := hx.consistent t
  rw [hat] at hc
  obtain ⟨ptr, size, hk⟩ := consistent_snapshotting hc
  rw [← setHook_self x t]
  refine hx.of_section hsec (by rw [hk]; rfl) (by rw [hk]; rfl) (fun b hf => hf) (fun _ _ => by rw [hp]) ?_ ?_
  · exact consistent_of_idle ht _
  · intro b _ hbefore
    rw [hk, hat] at hbefore
    rw [hk, hp, ht]
    exact hbefore

theorem Mirrors.remove (hx : Mirrors x) {t : Tid} {ptr : Word w} {release : Release w} {s : Sections Tid w}
    (hat : x.hooks t = .removing ptr release) (hsec : Step cfg x.sections t (.erasePointer ptr) s) :
    Mirrors { x.setHook t (.removed ptr release) with sections := s } := by
  obtain ⟨hp, ht⟩ := hsec.of_erasePointer
  refine hx.of_section hsec (by rw [hat]; rfl) rfl (fun b _ => trivial) ?_ ?_ ?_
  · intro k' hne
    rw [hp, Finmap.lookup_erase_ne hne]
  · rcases ht with ht | ⟨h, ht⟩ <;> rw [ht] <;> trivial
  · intro b _ _
    rw [hp, Finmap.lookup_erase]
    simp [shownBy]

theorem Mirrors.removeBacktrace (hx : Mirrors x) {t : Tid} {s : Sections Tid w}
    (hsec : Step cfg x.sections t .removeBacktrace s) : Mirrors { x with sections := s } := by
  obtain ⟨h, hat, hp, ht⟩ := hsec.of_removeBacktrace
  have hc := hx.consistent t
  rw [hat] at hc
  obtain ⟨ptr, release, hk⟩ := consistent_unreferencing hc
  rw [← setHook_self x t]
  refine hx.of_section hsec (by rw [hk]; rfl) (by rw [hk]; rfl) (fun b hf => hf) (fun _ _ => by rw [hp]) ?_ ?_
  · exact consistent_of_idle ht _
  · intro b _ hbefore
    rw [hk] at hbefore ⊢
    rw [hp]
    simpa [HeapWorld.tracked, shownBy] using hbefore

/-- A hook gives its block up, to the application or to the allocator, or for
another: it is shown from then on as any block there. -/
theorem Mirrors.give (hx : Mirrors x) {t : Tid} {ptr : Word w} {k : HookProgress w} {heap : Heap Tid w}
    (hblock : (x.hooks t).block = some ptr) (hidle : x.sections.threads t = .idle) (hgone : k.block = none)
    (hheap : ∀ ptr', ptr' ≠ ptr → heap.lookup ptr' = x.heap.lookup ptr')
    (hno : ∀ b t', heap.lookup ptr = some b → b.owner ≠ .hook t')
    (hshows : x.tracked ptr =
      HeapWorld.mirrored { x.setHook t k with heap } (HeapWorld.shown { x.setHook t k with heap }) ptr) :
    Mirrors { x.setHook t k with heap } := by
  have hself : (x.setHook t k).hooks t = k := Function.update_self ..
  refine hx.of_left ⟨hheap, fun _ _ => rfl, fun t' hne => ⟨Function.update_of_ne hne _ _, rfl⟩⟩ (hx.holder hblock)
    ?_ hno ?_ hshows
  · simp only [hself, hgone]
  · simp only [hself]
    exact consistent_of_idle hidle k

theorem Mirrors.returned (hx : Mirrors x) {t : Tid} {ptr size : Word w} {b : Block Tid w}
    (hat : x.hooks t = .added ptr size) (hidle : x.sections.threads t = .idle) (hb : x.heap.lookup ptr = some b) :
    Mirrors { x.setHook t .outside with heap := x.heap.insert ptr { b with owner := .app } } := by
  have hblock : (x.hooks t).block = some ptr := by rw [hat]; rfl
  refine hx.give hblock hidle rfl (fun _ hne => Finmap.lookup_insert_of_ne _ hne) ?_ ?_
  · intro b' t' hb'
    rw [Finmap.lookup_insert] at hb'
    cases hb'
    simp
  · obtain ⟨b', hb', ho, -, hbefore⟩ := hx.held hblock
    rw [hb] at hb'
    cases hb'
    rw [hbefore, hat, hidle, mirrored_of_lookup (Finmap.lookup_insert _)]
    simp [shownBy, HeapWorld.shown]

/-- The block at `ptr` goes back to the allocator, untracked. -/
theorem Mirrors.release (hx : Mirrors x) {t : Tid} {ptr : Word w} {release : Release w} {k : HookProgress w}
    (hat : x.hooks t = .removed ptr release) (hidle : x.sections.threads t = .idle) (hgone : k.block = none) :
    Mirrors { x.setHook t k with heap := x.heap.erase ptr } := by
  have hblock : (x.hooks t).block = some ptr := by rw [hat]; rfl
  refine hx.give hblock hidle hgone (fun _ hne => Finmap.lookup_erase_ne hne) ?_ ?_
  · intro b t' hb
    rw [Finmap.lookup_erase] at hb
    cases hb
  · obtain ⟨b, _, _, _, hbefore⟩ := hx.held hblock
    rw [hbefore, hat, mirrored_of_none (Finmap.lookup_erase _ _)]
    simp [shownBy]

theorem Mirrors.realloc (hx : Mirrors x) {t : Tid} {ptr bytes new : Word w}
    (hat : x.hooks t = .removed ptr (.realloc bytes)) (hidle : x.sections.threads t = .idle)
    (hfresh : (x.heap.erase ptr).lookup new = none) :
    Mirrors { x.setHook t (.adding new bytes) with
      heap := (x.heap.erase ptr).insert new { size := bytes, owner := .hook t, hooked := true } } := by
  -- As if the block were freed and a new one allocated, with no step between.
  have hfreed : Mirrors { x.setHook t .outside with heap := x.heap.erase ptr } := hx.release hat hidle rfl
  have hself : (x.setHook t .outside).hooks t = .outside := Function.update_self ..
  have := hfreed.allocate (t := t) bytes (by simp only [hself, HookProgress.block]) hidle hfresh
  simpa only [HeapWorld.setHook, Function.update_idem] using this

omit [DecidableEq Tid] in
theorem mirrored_of_not_hooked {ptr : Word w} (h : ∀ b, x.heap.lookup ptr = some b → b.hooked = false) :
    x.mirrored x.shown ptr = none := by
  cases hb : x.heap.lookup ptr with
  | none => exact mirrored_of_none hb
  | some b =>
    rw [mirrored_of_lookup hb, HeapWorld.shown, h b hb]
    rfl

omit [DecidableEq Tid] in
/-- What other code does to a block no hook has been asked for. -/
theorem Mirrors.other (hx : Mirrors x) {ptr : Word w} {heap : Heap Tid w}
    (hheap : ∀ ptr', ptr' ≠ ptr → heap.lookup ptr' = x.heap.lookup ptr')
    (hbefore : ∀ b, x.heap.lookup ptr = some b → b.hooked = false ∧ ∀ t, b.owner ≠ .hook t)
    (hafter : ∀ b, heap.lookup ptr = some b → b.hooked = false ∧ ∀ t, b.owner ≠ .hook t) :
    Mirrors { x with heap } := by
  refine hx.of_local (fun _ => False) (· = ptr) ?_ hheap (fun _ _ => rfl) (fun _ _ => ⟨rfl, rfl⟩) ?_ ?_
    (fun _ _ h => h.elim) (fun _ h => h.elim)
  · intro ptr' b t hb ho
    refine ⟨fun hq => ?_, False.elim⟩
    rw [hq] at hb
    exact (hbefore b hb).2 t ho
  · intro ptr' hq
    rw [hq]
    refine (hx.shows ptr).trans ?_
    rw [mirrored_of_not_hooked fun b hb => (hbefore b hb).1]
    exact (mirrored_of_not_hooked (x := { x with heap }) fun b hb => (hafter b hb).1).symm
  · intro ptr' b t hq hb ho
    rw [hq] at hb
    exact absurd ho ((hafter b hb).2 t)

theorem Mirrors.dump (hx : Mirrors x) {t : Tid} {it : Iteration (Word w) (PointerInfoType w)} {s : Sections Tid w}
    (hsec : Step cfg x.sections t (.dump it) s) : Mirrors { x with sections := s } := by
  cases hsec with
  | dump _ hidle hfree =>
    exact hx.of_local (fun _ => False) (fun _ => False) (fun _ _ _ _ _ => Iff.rfl) (fun _ _ => rfl) (fun _ _ => rfl)
      (fun _ _ => ⟨rfl, rfl⟩) (fun _ h => h.elim) (fun _ _ _ h => h.elim) (fun _ _ h => h.elim) (fun _ h => h.elim)

/-- Every step keeps the mirror. -/
theorem Mirrors.step {H : Multiset ℕ} (hstack : StackHeld x.sections.data H) (hx : Mirrors x) (h : HeapStep cfg x x') :
    Mirrors x' := by
  cases h with
  | enter call hout hblock =>
    refine hx.enter (by rw [hout]; rfl) (hx.idle ?_) hblock
    simp [hout]
  | take call hout hblock hb happ =>
    obtain ⟨release, hq⟩ := enter_block hblock
    rw [hq]
    refine hx.take (by rw [hout]; rfl) (hx.idle ?_) hb happ
    simp [hout]
  | allocate hat hnull hfresh =>
    refine hx.allocate _ (by rw [hat]; rfl) (hx.idle ?_) hfresh
    simp [hat]
  | add hat henv hsec => exact hx.add hstack hat henv hsec
  | insertPointer hsec => exact hx.insertPointer hsec
  | takeSnapshot hsec => exact hx.takeSnapshot hsec
  | returned hat hidle hb => exact hx.returned hat hidle hb
  | remove hat hsec => exact hx.remove hat hsec
  | removeBacktrace hsec => exact hx.removeBacktrace hsec
  | free hat hidle => exact hx.release hat hidle rfl
  | realloc hat hidle hnull hfresh => exact hx.realloc hat hidle hfresh
  | otherMalloc hnull hfresh hb howner =>
    refine hx.other (fun _ hne => Finmap.lookup_insert_of_ne _ hne) (fun b' hb' => ?_) (fun b' hb' => ?_)
    · rw [hfresh] at hb'
      cases hb'
    · rw [Finmap.lookup_insert] at hb'
      cases hb'
      exact ⟨hb, howner⟩
  | otherFree hlookup hb howner =>
    refine hx.other (fun _ hne => Finmap.lookup_erase_ne hne) (fun b' hb' => ?_) (fun b' hb' => ?_)
    · rw [hlookup] at hb'
      cases hb'
      exact ⟨hb, howner⟩
    · rw [Finmap.lookup_erase] at hb'
      cases hb'
  | dump hsec => exact hx.dump hsec

theorem HeapReachable.mirrors [Fintype Tid] (hb : cfg.has BACKTRACE = true) (hx : HeapReachable cfg x) : Mirrors x := by
  induction hx with
  | init => exact Mirrors.init
  | step hx h ih =>
    obtain ⟨L, hc⟩ := (hx.interleaved.attributed hb).charged
    exact ih.step hc.held h

/-! ## Tracker and heap -/

/-- **The tracker mirrors the heap.** Whatever the threads do, a tracked
address is that of an allocated block, an `Add` about to write its entry
finds none at its key, and when no hook is running `pointers_` holds exactly
the blocks the hooks were asked for, with their sizes. -/
theorem heap_mirror [Fintype Tid] (getenv : Environ) {x : HeapWorld Tid w}
    (hx : HeapReachable (Config.init w getenv) x) :
    (∀ k ∈ x.sections.data.pointers, demanglePointer k ∈ x.heap) ∧
    (∀ t env ptr size type h, x.sections.threads t = .inserting env ptr size type h →
      manglePointer ptr ∉ x.sections.data.pointers) ∧
    ((∀ t, x.hooks t = .outside) → ∀ ptr, x.tracked ptr = x.mirrored Block.hooked ptr) := by
  have hm := hx.mirrors (init_backtrace w getenv)
  refine ⟨fun k hk => ?_, fun t env ptr size type h hat => ?_, fun hout ptr => ?_⟩
  · have hs := hm.shows (demanglePointer k)
    rw [HeapWorld.tracked, mangle_demangle] at hs
    by_contra hn
    rw [mirrored_of_none (Finmap.lookup_eq_none.mpr hn), Option.map_eq_none_iff] at hs
    exact mem_iff_lookup_ne_none.mp hk hs
  · have hc := hm.consistent t
    rw [hat] at hc
    obtain ⟨hk, -⟩ := consistent_inserting hc
    obtain ⟨b, -, -, -, hs⟩ := hm.held (t := t) (by rw [hk]; rfl)
    rw [hk, hat] at hs
    simp only [shownBy, Bool.and_false, Bool.false_eq_true, if_false, HeapWorld.tracked, Option.map_eq_none_iff] at hs
    exact Finmap.lookup_eq_none.mp hs
  · rw [hm.shows ptr]
    refine mirrored_congr rfl fun b hb => ?_
    unfold HeapWorld.shown
    cases ho : b.owner with
    | hook t =>
      have := hm.owned ptr b t hb ho
      rw [hout t] at this
      cases this
    | _ => simp

/-- Thread 1 is given the block that thread 0 has freed, and it is tracked as
thread 1's. -/
theorem heap_mirror_reused : ∃ x : HeapWorld (Fin 2) 64, HeapReachable (Config.init 64 ⟨none, none⟩) x ∧
    x.tracked 0x7f0000000000 = some (200, .host) := by
  have h₁ : HeapReachable (Config.init 64 ⟨none, none⟩) _ :=
    HeapReachable.init.step (.enter (t := (0 : Fin 2)) (.malloc 100) rfl rfl)
  have h₂ := h₁.step (.allocate (t := 0) (rfl : _ = HookProgress.allocating (.malloc 100))
    (by decide : (0x7f0000000000 : Word 64) ≠ 0) rfl)
  have h₃ := h₂.step (.add (t := 0) rfl (records_of_unwind rfl _) (.addBacktrace (.single 64 0x1000 1) _ _ _ rfl))
  have h₄ := h₃.step (.insertPointer (t := 0) (.insertPointer rfl (by unfold Sections.PointerFree; decide)))
  have h₅ := h₄.step (.returned (t := 0) rfl rfl rfl)
  have h₆ := h₅.step (.take (t := 0) (.free 0x7f0000000000) rfl rfl rfl rfl)
  have h₇ := h₆.step (.remove (t := 0) (rfl : _ = HookProgress.removing 0x7f0000000000 .free)
    (.erasePointer _ rfl (by unfold Sections.PointerFree; decide)))
  have h₈ := h₇.step (.removeBacktrace (t := 0) (.removeBacktrace rfl))
  have h₉ := h₈.step (.enter (t := 1) (.malloc 200) rfl rfl)
  have h₁₀ := h₉.step (.free (t := 0) (rfl : _ = HookProgress.removed 0x7f0000000000 .free) rfl)
  have h₁₁ := h₁₀.step (.allocate (t := 1) (rfl : _ = HookProgress.allocating (.malloc 200))
    (by decide : (0x7f0000000000 : Word 64) ≠ 0) rfl)
  have h₁₂ := h₁₁.step (.add (t := 1) rfl (records_of_unwind rfl _) (.addBacktrace (.single 64 0x2000 2) _ _ _ rfl))
  have h₁₃ := h₁₂.step (.insertPointer (t := 1) (.insertPointer rfl (by unfold Sections.PointerFree; decide)))
  have h₁₄ := h₁₃.step (.returned (t := 1) rfl rfl rfl)
  exact ⟨_, h₁₄, ((heap_mirror ⟨none, none⟩ h₁₄).2.2 (Fin.forall_fin_two.mpr ⟨rfl, rfl⟩) 0x7f0000000000).trans rfl⟩

end AllocHook
