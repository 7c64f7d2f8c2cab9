/-
The allocator's hooks on any number of threads, over a heap.

A hook is taken apart where another thread can come in: its call of the
system allocator, and the critical sections of `Add` and `Remove`
(`Sections`). `HookCall.enter` is the hook up to the first of these,
`HeapStep` the rest. The allocator answers any address but null that is not
allocated at that moment; nothing is assumed of how it chooses, so a block
may come back at the address another thread has just released.

Blocks the tracker never sees, its own nodes among them, are allocated and
freed by other code at any time. `TrackPointers()` holds of every
configuration (`init_trackPointers`), and its tests are left out.
-/
import AllocHook.Sections
import AllocHook.HookEffects

namespace AllocHook

open FiniteMap

variable {w : Nat} {cfg : Config w} {Tid : Type*}

/-! ## The heap -/

/-- Whose a block is: the application's, a hook's while it is on its way to
or from the application, or other code's. -/
inductive Owner (Tid : Type*)
  | app
  | hook (t : Tid)
  | other
  deriving DecidableEq

/-- An allocated block. `hooked` says that a hook asked for it. -/
structure Block (Tid : Type*) (w : Nat) where
  size : Word w
  owner : Owner Tid
  hooked : Bool
  deriving DecidableEq

/-- The blocks the system allocator has allocated, by address. -/
abbrev Heap (Tid : Type*) (w : Nat) := Map (Word w) (Block Tid w)

/-- A call for a new block. -/
inductive AllocRequest (w : Nat)
  | malloc (size : Word w)
  | calloc (nmemb bytes : Word w)
  | memalign (alignment bytes : Word w)

def AllocRequest.size : AllocRequest w → Word w
  | .malloc size => size
  | .calloc nmemb bytes => nmemb * bytes
  | .memalign _ bytes => bytes

/-- What follows `Remove`: `m_sys_free` or `m_sys_realloc`. -/
inductive Release (w : Nat)
  | free
  | realloc (bytes : Word w)

/-! ## The hooks, step by step -/

/-- Where a thread is in a hook. -/
inductive HookProgress (w : Nat)
  | outside
  /-- It is to call the allocator. -/
  | allocating (request : AllocRequest w)
  /-- It has its block and is to call `Add`. -/
  | adding (ptr size : Word w)
  /-- It is in `Add`, or about to return its block. -/
  | added (ptr size : Word w)
  /-- It is to call `Remove`. -/
  | removing (ptr : Word w) (release : Release w)
  /-- It is in `Remove`, or about to release the block. -/
  | removed (ptr : Word w) (release : Release w)

/-- `debug_memalign` up to the allocator. -/
def enterMemalign (alignment bytes : Word w) : HookProgress w :=
  if maxSize w < bytes then .outside else .allocating (.memalign alignment bytes)

/-- A hook up to its first call of the allocator or the tracker; `outside`
when it returns without one. The hooks of descriptors and mappings are not
run here. -/
def HookCall.enter : HookCall w → HookProgress w
  | .malloc size => if maxSize w < size then .outside else .allocating (.malloc size)
  | .free pointer => if pointer = 0 then .outside else .removing pointer .free
  | .calloc nmemb bytes =>
    if 2 ^ w ≤ nmemb.toNat * bytes.toNat then .outside else .allocating (.calloc 1 (nmemb * bytes))
  | .realloc pointer bytes =>
    if pointer = 0 then .allocating (.malloc bytes)
    else if bytes = 0 then .removing pointer .free
    else if maxSize w < bytes then .outside
    else .removing pointer (.realloc bytes)
  | .memalign alignment bytes => enterMemalign alignment bytes
  | .posixMemalign _ alignment size =>
    if alignment < BitVec.ofNat w (w / 8) || !powerof2 alignment then .outside else enterMemalign alignment size
  | _ => .outside

/-- The block a hook holds. -/
def HookProgress.block : HookProgress w → Option (Word w)
  | .adding ptr _ | .added ptr _ | .removing ptr _ | .removed ptr _ => some ptr
  | _ => none

/-- The only block a hook enters with is one it is to give up. -/
theorem enter_block {call : HookCall w} {ptr : Word w} (h : call.enter.block = some ptr) :
    ∃ release, call.enter = .removing ptr release := by
  have hmem : ∀ alignment bytes : Word w, (enterMemalign alignment bytes).block = none := by
    intro alignment bytes
    unfold enterMemalign
    split <;> rfl
  cases call with
  | free pointer =>
    simp only [HookCall.enter] at h ⊢
    split at h
    · cases h
    · next hp => rw [if_neg hp]; cases h; exact ⟨_, rfl⟩
  | realloc pointer bytes =>
    simp only [HookCall.enter] at h ⊢
    split at h
    · cases h
    split at h
    · next hp hb => rw [if_neg hp, if_pos hb]; cases h; exact ⟨_, rfl⟩
    split at h
    · cases h
    · next hp hb hm => rw [if_neg hp, if_neg hb, if_neg hm]; cases h; exact ⟨_, rfl⟩
  | memalign alignment bytes =>
    rw [HookCall.enter, hmem] at h
    cases h
  | posixMemalign memptr alignment size =>
    simp only [HookCall.enter] at h
    split at h
    · cases h
    · rw [hmem] at h; cases h
  | malloc size => simp only [HookCall.enter] at h; split at h <;> cases h
  | calloc nmemb bytes => simp only [HookCall.enter] at h; split at h <;> cases h
  | _ => cases h

/-- The tracker with its threads, where each is in a hook, and the heap. -/
structure HeapWorld (Tid : Type*) (w : Nat) where
  sections : Sections Tid w
  hooks : Tid → HookProgress w
  heap : Heap Tid w

def HeapWorld.init (Tid : Type*) (w : Nat) : HeapWorld Tid w :=
  { sections := Sections.init Tid w, hooks := fun _ => .outside, heap := ∅ }

variable [DecidableEq Tid]

def HeapWorld.setHook (x : HeapWorld Tid w) (t : Tid) (p : HookProgress w) : HeapWorld Tid w :=
  { x with hooks := Function.update x.hooks t p }

/-- One step of a thread, or of code that is not traced. -/
inductive HeapStep (cfg : Config w) (x : HeapWorld Tid w) : HeapWorld Tid w → Prop
  /-- A hook is called that needs no block of the application's. -/
  | enter {t} (call : HookCall w) (hout : x.hooks t = .outside) (hblock : call.enter.block = none) :
    HeapStep cfg x (x.setHook t call.enter)
  /-- A hook is called to free or resize a block of the application's. -/
  | take {t ptr b} (call : HookCall w) (hout : x.hooks t = .outside) (hblock : call.enter.block = some ptr)
    (hb : x.heap.lookup ptr = some b) (happ : b.owner = .app) :
    HeapStep cfg x { x.setHook t call.enter with heap := x.heap.insert ptr { b with owner := .hook t } }
  /-- `m_sys_malloc`, `m_sys_calloc` or `m_sys_memalign`. -/
  | allocate {t request ptr} (hat : x.hooks t = .allocating request) (hnull : ptr ≠ 0)
    (hfresh : x.heap.lookup ptr = none) :
    HeapStep cfg x
      { x.setHook t (.adding ptr request.size) with
        heap := x.heap.insert ptr { size := request.size, owner := .hook t, hooked := true } }
  /-- `Add` begins, its stack not ending in the exit function. -/
  | add {t ptr size env sections} (hat : x.hooks t = .adding ptr size) (henv : records cfg env size = true)
    (hsec : Step cfg x.sections t (.addBacktrace env ptr size .host) sections) :
    HeapStep cfg x { x.setHook t (.added ptr size) with sections }
  | insertPointer {t sections} (hsec : Step cfg x.sections t .insertPointer sections) :
    HeapStep cfg x { x with sections }
  | takeSnapshot {t sections} (hsec : Step cfg x.sections t .takeSnapshot sections) :
    HeapStep cfg x { x with sections }
  /-- `Add` has ended and the hook returns the block. -/
  | returned {t ptr size b} (hat : x.hooks t = .added ptr size) (hidle : x.sections.threads t = .idle)
    (hb : x.heap.lookup ptr = some b) :
    HeapStep cfg x { x.setHook t .outside with heap := x.heap.insert ptr { b with owner := .app } }
  /-- `Remove` begins. -/
  | remove {t ptr release sections} (hat : x.hooks t = .removing ptr release)
    (hsec : Step cfg x.sections t (.erasePointer ptr) sections) :
    HeapStep cfg x { x.setHook t (.removed ptr release) with sections }
  | removeBacktrace {t sections} (hsec : Step cfg x.sections t .removeBacktrace sections) :
    HeapStep cfg x { x with sections }
  /-- `m_sys_free`, and the hook returns. -/
  | free {t ptr} (hat : x.hooks t = .removed ptr .free) (hidle : x.sections.threads t = .idle) :
    HeapStep cfg x { x.setHook t .outside with heap := x.heap.erase ptr }
  /-- `m_sys_realloc`, in place or to a new address. -/
  | realloc {t ptr bytes new} (hat : x.hooks t = .removed ptr (.realloc bytes))
    (hidle : x.sections.threads t = .idle) (hnull : new ≠ 0) (hfresh : (x.heap.erase ptr).lookup new = none) :
    HeapStep cfg x
      { x.setHook t (.adding new bytes) with
        heap := (x.heap.erase ptr).insert new { size := bytes, owner := .hook t, hooked := true } }
  /-- Other code gets a block, for itself or for the application. -/
  | otherMalloc {ptr b} (hnull : ptr ≠ 0) (hfresh : x.heap.lookup ptr = none) (hb : b.hooked = false)
    (howner : ∀ t, b.owner ≠ .hook t) : HeapStep cfg x { x with heap := x.heap.insert ptr b }
  /-- Other code frees a block no hook has been asked for. -/
  | otherFree {ptr b} (hlookup : x.heap.lookup ptr = some b) (hb : b.hooked = false) (howner : ∀ t, b.owner ≠ .hook t) :
    HeapStep cfg x { x with heap := x.heap.erase ptr }
  | dump {t it sections} (hsec : Step cfg x.sections t (.dump it) sections) : HeapStep cfg x { x with sections }

/-- Reached from the start, before any call, by steps in any order. -/
inductive HeapReachable (cfg : Config w) : HeapWorld Tid w → Prop
  | init : HeapReachable cfg (HeapWorld.init Tid w)
  | step {x x'} (hx : HeapReachable cfg x) (h : HeapStep cfg x x') : HeapReachable cfg x'

/-- The tracker under the hooks is one whose sections interleave. -/
theorem HeapReachable.interleaved {x : HeapWorld Tid w} (hx : HeapReachable cfg x) : Interleaved cfg x.sections := by
  induction hx with
  | init => exact .init
  | step _ h ih =>
    cases h with
    | add _ _ hsec => exact ih.step hsec
    | insertPointer hsec => exact ih.step hsec
    | takeSnapshot hsec => exact ih.step hsec
    | remove _ hsec => exact ih.step hsec
    | removeBacktrace hsec => exact ih.step hsec
    | dump hsec => exact ih.step hsec
    | _ => exact ih

/-! ## A hook on its own -/

/-- The allocator's answer to a call for a new block. -/
def System.allocate (sys : System w) : AllocRequest w → Answer (Word w)
  | .malloc size => sys.malloc size
  | .calloc nmemb bytes => sys.calloc nmemb bytes
  | .memalign alignment bytes => sys.memalign alignment bytes

/-- The hooks that are run in steps here. -/
def HeapCall : HookCall w → Prop
  | .malloc _ | .free _ | .calloc _ _ | .realloc _ _ | .memalign _ _ | .posixMemalign _ _ _ => True
  | _ => False

/-- The tracker calls ahead of a hook, with the allocator's answers of `env`. -/
def HookProgress.calls (env : HookEnv w) : HookProgress w → List (Call w)
  | .allocating request => [.add env.add (env.sys.allocate request).result request.size .host]
  | .removing ptr .free => [.remove ptr]
  | .removing ptr (.realloc bytes) => [.remove ptr, .add env.add (env.sys.realloc ptr bytes).result bytes .host]
  | _ => []

/-- Where a hook enters leads to the tracker calls that it makes. -/
theorem calls_of_enter {env : HookEnv w} {s : HookState w} (hd : s.disabled = false)
    (hsys : ∀ request, (env.sys.allocate request).result ≠ 0) {call : HookCall w} (hcall : HeapCall call) :
    s.calls env call = call.enter.calls env := by
  have hmemalign : ∀ alignment bytes : Word w,
      (if maxSize w < bytes ∨ (env.sys.memalign alignment bytes).result = 0 then []
        else [Call.add env.add (env.sys.memalign alignment bytes).result bytes .host]) =
      (enterMemalign alignment bytes).calls env := by
    intro alignment bytes
    have hnull := hsys (.memalign alignment bytes)
    simp only [System.allocate] at hnull
    simp only [hnull, or_false, enterMemalign]
    split <;> rfl
  unfold HookState.calls
  simp only [hd, Bool.false_eq_true, if_false]
  cases call with
  | malloc size => simp only [HookCall.enter]; split <;> rfl
  | free pointer => simp only [HookCall.enter]; split <;> rfl
  | calloc nmemb bytes =>
    have hnull := hsys (.calloc 1 (nmemb * bytes))
    simp only [System.allocate] at hnull
    simp only [HookCall.enter, hnull, or_false]
    split
    · rfl
    · have hone : (1 : Word w) * (nmemb * bytes) = nmemb * bytes := BitVec.one_mul _
      simp only [HookProgress.calls, System.allocate, AllocRequest.size, hone]
  | realloc pointer bytes =>
    simp only [HookCall.enter]
    split
    · rfl
    split
    · rfl
    split <;> rfl
  | memalign alignment bytes => exact hmemalign alignment bytes
  | posixMemalign memptr alignment size =>
    simp only [HookCall.enter]
    split
    · rfl
    · exact hmemalign alignment size
  | _ => exact hcall.elim

/-- All threads outside but `t`. -/
def hookOnly (t : Tid) (k : HookProgress w) : Tid → HookProgress w := Function.update (fun _ => .outside) t k

@[simp] theorem hookOnly_self (t : Tid) (k : HookProgress w) : hookOnly t k t = k := Function.update_self ..

theorem update_hookOnly (t : Tid) (k k' : HookProgress w) : Function.update (hookOnly t k) t k' = hookOnly t k' :=
  Function.update_idem ..

/-- Nothing runs but thread `t`. -/
def HeapWorld.alone (t : Tid) (p : Progress w) (k : HookProgress w) (d : PointerData w) (l : Ledger w)
    (heap : Heap Tid w) : HeapWorld Tid w :=
  { sections := { data := d, threads := only t p, captured := l }
    hooks := hookOnly t k
    heap }

section Alone

variable {t : Tid} {k : HookProgress w} {d : PointerData w} {l : Ledger w} {heap : Heap Tid w}

/-- A hook runs `Add` and returns its block. -/
theorem HeapReachable.add_alone {ptr size : Word w} {b : Block Tid w} {env : AddEnv w}
    (hx : HeapReachable cfg (.alone t .idle (.adding ptr size) d l heap)) (henv : records cfg env size = true)
    (hb : heap.lookup ptr = some b) : ∃ l', HeapReachable cfg
      (.alone t .idle .outside (d.add cfg env ptr size .host) l' (heap.insert ptr { b with owner := .app })) := by
  have hreturn : ∀ {d' l'}, HeapReachable cfg (.alone t .idle (.added ptr size) d' l' heap) →
      HeapReachable cfg (.alone t .idle .outside d' l' (heap.insert ptr { b with owner := .app })) := by
    intro d' l' h
    have := h.step (.returned (t := t) (hookOnly_self t _) (only_self t _) hb)
    simpa only [HeapWorld.alone, HeapWorld.setHook, update_hookOnly] using this
  rw [HeapWorld.alone] at hx
  have h₁ := hx.step (.add (t := t) (hookOnly_self t _) henv (.addBacktrace env ptr size .host (only_self t _)))
  simp only [HeapWorld.setHook, update_hookOnly, update_only, afterBacktrace] at h₁
  simp only [PointerData.add]
  split
  · next hexit =>
    rw [if_pos hexit] at h₁
    exact ⟨l, hreturn h₁⟩
  · next hexit =>
    rw [if_neg hexit] at h₁
    have h₂ := h₁.step (.insertPointer (t := t) (.insertPointer (only_self t _) (pointerFree_only rfl _ _)))
    simp only [update_only] at h₂
    split
    · next hsnap =>
      rw [if_pos hsnap] at h₂
      have h₃ := h₂.step (.takeSnapshot (t := t) (.takeSnapshot (only_self t _)))
      simp only [update_only] at h₃
      exact ⟨_, hreturn h₃⟩
    · next hsnap =>
      rw [if_neg hsnap] at h₂
      exact ⟨_, hreturn h₂⟩

/-- A hook runs `Remove`. -/
theorem HeapReachable.remove_alone {ptr : Word w} {release : Release w}
    (hx : HeapReachable cfg (.alone t .idle (.removing ptr release) d l heap)) : ∃ l', HeapReachable cfg
      (.alone t .idle (.removed ptr release) (d.remove cfg ptr) l' heap) := by
  rw [HeapWorld.alone] at hx
  have h₁ := hx.step (.remove (t := t) (hookOnly_self t _)
    (.erasePointer ptr (only_self t _) (pointerFree_only rfl _ _)))
  simp only [HeapWorld.setHook, update_hookOnly, update_only] at h₁
  simp only [PointerData.remove]
  cases hr : (d.erasePointer ptr).1 with
  | none =>
    rw [hr] at h₁
    exact ⟨_, h₁⟩
  | some h =>
    rw [hr] at h₁
    have h₂ := h₁.step (.removeBacktrace (t := t) (.removeBacktrace (only_self t _)))
    simp only [update_only] at h₂
    exact ⟨_, h₂⟩

/-- **A hook on its own.** Its steps, taken without another's between them,
are the hook: they leave the tracker it leaves. -/
theorem HeapReachable.call_alone {env : HookEnv w} {s : HookState w} {call : HookCall w}
    (hx : HeapReachable cfg (.alone t .idle .outside s.pointer l heap)) (htrack : cfg.trackPointers = true)
    (hd : s.disabled = false) (hcall : HeapCall call)
    (hallocate : ∀ request, (env.sys.allocate request).result ≠ 0 ∧
      heap.lookup (env.sys.allocate request).result = none)
    (hrealloc : ∀ ptr bytes, (env.sys.realloc ptr bytes).result ≠ 0 ∧
      (heap.erase ptr).lookup (env.sys.realloc ptr bytes).result = none)
    (hrec : ∀ size, records cfg env.add size = true)
    (howns : ∀ ptr, call.enter.block = some ptr → ∃ b, heap.lookup ptr = some b ∧ b.owner = .app) :
    ∃ l' heap', HeapReachable cfg (.alone t .idle .outside (s.call cfg env call).pointer l' heap') := by
  rw [(call_did htrack env s call).pointer, calls_of_enter hd (fun request => (hallocate request).1) hcall]
  rw [HeapWorld.alone] at hx
  cases hk : call.enter with
  | outside => exact ⟨l, heap, hx⟩
  | allocating request =>
    have h₁ := hx.step (.enter (t := t) call (hookOnly_self t _) (by rw [hk]; rfl))
    rw [hk] at h₁
    simp only [HeapWorld.setHook, update_hookOnly] at h₁
    have h₂ := h₁.step (.allocate (t := t) (hookOnly_self t _) (hallocate request).1 (hallocate request).2)
    simp only [HeapWorld.setHook, update_hookOnly] at h₂
    obtain ⟨l', h₃⟩ := HeapReachable.add_alone h₂ (hrec request.size) (Finmap.lookup_insert _)
    exact ⟨l', _, h₃⟩
  | removing ptr release =>
    obtain ⟨b, hb, happ⟩ := howns ptr (by rw [hk]; rfl)
    have h₁ := hx.step (.take (t := t) call (hookOnly_self t _) (by rw [hk]; rfl) hb happ)
    rw [hk] at h₁
    simp only [HeapWorld.setHook, update_hookOnly] at h₁
    obtain ⟨l', h₂⟩ := HeapReachable.remove_alone h₁
    rw [HeapWorld.alone] at h₂
    cases release with
    | free =>
      have h₃ := h₂.step (.free (t := t) (hookOnly_self t _) (only_self t _))
      simp only [HeapWorld.setHook, update_hookOnly] at h₃
      exact ⟨l', _, h₃⟩
    | realloc bytes =>
      obtain ⟨hnull, hfresh⟩ := hrealloc ptr bytes
      have h₃ := h₂.step (.realloc (t := t) (hookOnly_self t _) (only_self t _) hnull
        (by rw [erase_insert_self]; exact hfresh))
      simp only [HeapWorld.setHook, update_hookOnly] at h₃
      obtain ⟨l'', h₄⟩ := HeapReachable.add_alone h₃ (hrec bytes) (Finmap.lookup_insert _)
      exact ⟨l'', _, h₄⟩
  | _ =>
    obtain ⟨release, hq⟩ := enter_block ((congrArg HookProgress.block hk).trans rfl)
    rw [hk] at hq
    cases hq

end Alone

end AllocHook
