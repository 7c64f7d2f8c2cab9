/-
The lazy resolution of the C library (`RESOLVE` in `alloc_hook.cpp`).

Each entry point resolves the function of its own name, `posix_memalign` that
of `memalign` besides, and the hook behind it calls others: `debug_realloc`
goes through `m_sys_malloc` for a null pointer and through `m_sys_free` for no
bytes, and `is_dma_buf` frees a line through `m_sys_free`. Those are set only
if some call, of the application or of the library code inside a hook, has
entered `malloc` or `free` before (`resolution_iff`).

A run is the intercepted calls of a process in order, each with the calls
made inside it: by the constructor, if it is the first to need the
`AllocHook`, and by the library code of the hook. The former run with
`allocHook_setup` set, the latter with calls disabled, so both go straight
through.
-/
import AllocHook.SystemCalls
import AllocHook.Lib.History
import Mathlib.Data.Finset.Dedup

namespace AllocHook

open History

variable {w : Nat} {cfg : Config w}

/-! ## The entry points -/

/-- The pointers of `memory_hook.cpp`. -/
inductive SysName
  | malloc | free | calloc | realloc | memalign | posixMemalign
  deriving DecidableEq

/-- What an entry point passes to `RESOLVE`. -/
def HookCall.resolves : HookCall w → List SysName
  | .malloc _ => [.malloc]
  | .free _ => [.free]
  | .calloc _ _ => [.calloc]
  | .realloc _ _ => [.realloc]
  | .memalign _ _ => [.memalign]
  | .posixMemalign _ _ _ => [.memalign, .posixMemalign]
  | _ => []

/-- The entry points that look at `allocHook_setup`. The others would wait in
the constructor for the constructor. -/
def HookCall.checksSetup : HookCall w → Bool
  | .memalign _ _ | .posixMemalign _ _ _ | .ioctl _ _ | .close _ => false
  | _ => true

/-- The entry points that look at `in_preinit_phase`. -/
def HookCall.checksPreinit : HookCall w → Bool
  | .mmap _ | .mmap64 _ | .munmap _ _ => true
  | _ => false

/-- The pointer a call underneath goes through; the kernel is called directly. -/
def SysCall.through : SysCall w → Option SysName
  | .malloc _ => some .malloc
  | .free _ | .freeLine => some .free
  | .calloc _ _ => some .calloc
  | .realloc _ _ => some .realloc
  | .memalign _ _ => some .memalign
  | .posixMemalign _ _ => some .posixMemalign
  | _ => none

/-! ## What is set -/

/-- An entry point is entered and resolves its names, or a pointer is called. -/
inductive LinkAct (w : Nat)
  | enter (call : HookCall w)
  | use (name : SysName)

/-- `RESOLVE`, `dlopen` and `dlsym` succeeding. -/
def resolve (m : Finset SysName) (name : SysName) : Finset SysName := if name ∈ m then m else insert name m

def LinkAct.after (m : Finset SysName) : LinkAct w → Finset SysName
  | .enter call => call.resolves.foldl resolve m
  | .use _ => m

/-- The pointers that are set after the acts. -/
def mSys (acts : List (LinkAct w)) : Finset SysName := acts.foldl LinkAct.after ∅

/-- Every pointer called has been set before, `hist` having come first. -/
def UsesSet (hist acts : List (LinkAct w)) : Prop :=
  Always (fun pre a => ∀ name, a = .use name → name ∈ mSys (hist ++ pre)) acts

/-! ## Intercepted calls -/

/-- An intercepted call of the application, with what its thread sees and what
the hook meets. `setup` are the calls of the constructor, should this call run
it, and `nested i` those of the hook's library code before the call
underneath of number `i`. -/
structure Intercepted (w : Nat) where
  call : HookCall w
  env : HookEnv w
  state : HookState w
  setup : List (HookCall w)
  nested : ℕ → List (HookCall w)
  setup_checked : ∀ c ∈ setup, c.checksSetup = true

/-- What happens: a call, or the end of the preinit phase. -/
inductive LinkEvent (w : Nat)
  | call (e : Intercepted w)
  | initDone

/-- The flags of `alloc_hook.cpp`: `in_preinit_phase`, and whether the static
`AllocHook` has been constructed. -/
structure Loader where
  preinit : Bool
  built : Bool

/-- At process start. -/
def Loader.start : Loader := { preinit := true, built := false }

/-- A call that goes straight to the kernel. -/
def Loader.bypasses (L : Loader) (call : HookCall w) : Bool := L.preinit && call.checksPreinit

def Loader.after (L : Loader) : LinkEvent w → Loader
  | .call e => if L.bypasses e.call then L else { L with built := true }
  | .initDone => { L with preinit := false }

/-- The pointers called underneath. -/
def SysCall.acts (c : SysCall w) : List (LinkAct w) := (c.through.map LinkAct.use).toList

/-- A call that goes straight through. -/
def Intercepted.direct (cfg : Config w) (e : Intercepted w) (c : HookCall w) : List (LinkAct w) :=
  .enter c :: (HookState.sysCalls cfg e.env { e.state with disabled := true } c).flatMap SysCall.acts

/-- The calls underneath from number `i` on, each after the calls nested
before it. -/
def Intercepted.body (cfg : Config w) (e : Intercepted w) (i : ℕ) : List (SysCall w) → List (LinkAct w)
  | [] => (e.nested i).flatMap (e.direct cfg)
  | c :: calls => (e.nested i).flatMap (e.direct cfg) ++ (c.acts ++ e.body cfg (i + 1) calls)

/-- The acts of a call. -/
def Intercepted.acts (cfg : Config w) (L : Loader) (e : Intercepted w) : List (LinkAct w) :=
  .enter e.call ::
    if L.bypasses e.call then []
    else (if L.built then [] else e.setup.flatMap (e.direct cfg)) ++
      e.body cfg 0 (HookState.sysCalls cfg e.env e.state e.call)

def LinkEvent.acts (cfg : Config w) (L : Loader) : LinkEvent w → List (LinkAct w)
  | .call e => e.acts cfg L
  | .initDone => []

/-- The flags after a run. -/
def loader (events : List (LinkEvent w)) : Loader := events.foldl Loader.after Loader.start

/-- The acts of a run from the flags `L`. -/
def traceFrom (cfg : Config w) (L : Loader) : List (LinkEvent w) → List (LinkAct w)
  | [] => []
  | event :: events => event.acts cfg L ++ traceFrom cfg (L.after event) events

/-- The acts of a run from process start. -/
def trace (cfg : Config w) (events : List (LinkEvent w)) : List (LinkAct w) := traceFrom cfg .start events

/-- No call goes through a pointer that is null. -/
def NoNullCall (cfg : Config w) (events : List (LinkEvent w)) : Prop := UsesSet [] (trace cfg events)

/-! ## Pointers and entries -/

theorem mem_resolve {m : Finset SysName} {name name' : SysName} : name ∈ resolve m name' ↔ name = name' ∨ name ∈ m := by
  unfold resolve
  split
  · next h =>
    refine ⟨.inr, fun hx => ?_⟩
    rcases hx with rfl | hx
    · exact h
    · exact hx
  · exact Finset.mem_insert

theorem mem_foldl_resolve {name : SysName} : ∀ (names : List SysName) (m : Finset SysName),
    name ∈ names.foldl resolve m ↔ name ∈ names ∨ name ∈ m
  | [], m => by simp
  | n :: names, m => by
    rw [List.foldl_cons, mem_foldl_resolve names, mem_resolve, List.mem_cons]
    exact or_left_comm.trans or_assoc.symm

/-- A pointer is set once a call that resolves it has been entered. -/
theorem mem_mSys {name : SysName} {acts : List (LinkAct w)} :
    name ∈ mSys acts ↔ ∃ c, .enter c ∈ acts ∧ name ∈ c.resolves := by
  unfold mSys
  induction acts using List.reverseRecOn with
  | nil => simp
  | append_singleton acts a ih =>
    rw [List.foldl_append, List.foldl_cons, List.foldl_nil]
    cases a with
    | enter c => simp [LinkAct.after, mem_foldl_resolve, ih, or_and_right, exists_or, or_comm]
    | use n => simp [LinkAct.after, ih]

theorem mem_mSys_append {name : SysName} {acts acts' : List (LinkAct w)} :
    name ∈ mSys (acts ++ acts') ↔ name ∈ mSys acts ∨ name ∈ mSys acts' := by
  simp only [mem_mSys, List.mem_append, or_and_right, exists_or]

theorem usesSet_append {hist acts acts' : List (LinkAct w)} :
    UsesSet hist (acts ++ acts') ↔ UsesSet hist acts ∧ UsesSet (hist ++ acts) acts' := by
  simp only [UsesSet, always_append, List.append_assoc]

theorem usesSet_enter {hist acts : List (LinkAct w)} {c : HookCall w} :
    UsesSet hist (.enter c :: acts) ↔ UsesSet (hist ++ [.enter c]) acts := by
  rw [show LinkAct.enter c :: acts = [.enter c] ++ acts from rfl, usesSet_append]
  refine and_iff_right (always_cons.mpr ⟨?_, always_nil⟩)
  intro name ha
  cases ha

theorem mSys_acts (c : SysCall w) : mSys c.acts = ∅ := by
  unfold SysCall.acts
  cases c.through <;> rfl

/-- A call underneath needs its pointer. -/
theorem usesSet_acts {hist : List (LinkAct w)} {c : SysCall w} :
    UsesSet hist c.acts ↔ ∀ name, c.through = some name → name ∈ mSys hist := by
  unfold SysCall.acts
  cases hc : c.through with
  | none => simp [UsesSet, always_nil]
  | some n =>
    simp only [Option.map_some, Option.toList_some, UsesSet, always_cons, always_nil, List.append_nil, and_true]
    constructor
    · intro h name hname
      cases hname
      exact h n rfl
    · intro h name hname
      cases hname
      exact h n rfl

/-! ## Calls that go straight through -/

section Direct

variable (e : Intercepted w)

/-- Straight through, a call uses what it resolves. -/
theorem Intercepted.direct_through {c : HookCall w} {c' : SysCall w} {name : SysName}
    (hc : c' ∈ HookState.sysCalls cfg e.env { e.state with disabled := true } c) (hname : c'.through = some name) :
    name ∈ c.resolves := by
  cases c <;> simp only [HookState.sysCalls, Bool.not_true, Bool.false_and, Bool.false_eq_true, if_false, if_true,
    List.mem_singleton] at hc <;> subst hc <;> cases hname <;> simp [HookCall.resolves]

theorem Intercepted.enter_mem_direct {c c' : HookCall w} : .enter c' ∈ e.direct cfg c ↔ c' = c := by
  have hno : ∀ calls : List (SysCall w), LinkAct.enter c' ∉ calls.flatMap SysCall.acts := by
    intro calls hm
    obtain ⟨x, -, hx⟩ := List.mem_flatMap.mp hm
    unfold SysCall.acts at hx
    cases hn : x.through <;> simp [hn] at hx
  simp [Intercepted.direct, hno]

theorem Intercepted.usesSet_direct (hist : List (LinkAct w)) (c : HookCall w) : UsesSet hist (e.direct cfg c) := by
  rw [Intercepted.direct, usesSet_enter]
  have hset : ∀ c' ∈ HookState.sysCalls cfg e.env { e.state with disabled := true } c, ∀ name,
      c'.through = some name → name ∈ c.resolves := fun c' hc name hname => e.direct_through hc hname
  generalize HookState.sysCalls cfg e.env { e.state with disabled := true } c = calls at hset
  have hc : ∀ name ∈ c.resolves, name ∈ mSys (hist ++ [.enter c]) := fun name hname =>
    mem_mSys.mpr ⟨c, by simp, hname⟩
  generalize hist ++ [.enter c] = hist' at hc
  induction calls generalizing hist' with
  | nil => exact always_nil
  | cons c' calls ih =>
    rw [List.flatMap_cons, usesSet_append]
    refine ⟨usesSet_acts.mpr fun name hname => hc name (hset c' List.mem_cons_self name hname), ?_⟩
    exact ih (fun x hx => hset x (List.mem_cons_of_mem _ hx)) _ fun name hname =>
      mem_mSys_append.mpr (.inl (hc name hname))

/-- So do any number of such calls. -/
theorem Intercepted.usesSet_directs (hist : List (LinkAct w)) (cs : List (HookCall w)) :
    UsesSet hist (cs.flatMap (e.direct cfg)) := by
  induction cs generalizing hist with
  | nil => exact always_nil
  | cons c cs ih => exact usesSet_append.mpr ⟨e.usesSet_direct hist c, ih _⟩

/-- They set what they resolve. -/
theorem Intercepted.mem_mSys_directs {cs : List (HookCall w)} {name : SysName} :
    name ∈ mSys (cs.flatMap (e.direct cfg)) ↔ ∃ c ∈ cs, name ∈ c.resolves := by
  simp only [mem_mSys, List.mem_flatMap, e.enter_mem_direct]
  constructor
  · intro h
    obtain ⟨c, ⟨c', hc', rfl⟩, hname⟩ := h
    exact ⟨c, hc', hname⟩
  · intro h
    obtain ⟨c, hc, hname⟩ := h
    exact ⟨c, ⟨c, hc, rfl⟩, hname⟩

/-- The calls underneath need their pointers set by what came before the hook
or by the calls nested so far. -/
theorem Intercepted.usesSet_body {i : ℕ} {calls : List (SysCall w)} {hist : List (LinkAct w)} :
    UsesSet hist (e.body cfg i calls) ↔ ∀ (j : ℕ) (c : SysCall w) (name : SysName), calls[j]? = some c →
      c.through = some name → name ∈ mSys hist ∨ ∃ k, i ≤ k ∧ k ≤ i + j ∧ ∃ c' ∈ e.nested k, name ∈ c'.resolves := by
  induction calls generalizing i hist with
  | nil => exact iff_of_true (e.usesSet_directs hist _) fun j c name hc => by cases hc
  | cons c calls ih =>
    rw [Intercepted.body, usesSet_append, usesSet_append, usesSet_acts, ih, and_iff_right (e.usesSet_directs hist _)]
    simp only [mem_mSys_append, e.mem_mSys_directs, mSys_acts, Finset.notMem_empty, or_false]
    constructor
    · intro h j c' name hc' hname
      cases j with
      | zero =>
        cases hc'
        refine (h.1 name hname).imp_right fun hnested => ?_
        exact ⟨i, le_rfl, by omega, hnested⟩
      | succ j =>
        rcases h.2 j c' name hc' hname with (hhist | hnested) | ⟨k, hik, hkj, hnested⟩
        · exact .inl hhist
        · exact .inr ⟨i, le_rfl, by omega, hnested⟩
        · exact .inr ⟨k, by omega, by omega, hnested⟩
    · intro h
      refine ⟨fun name hname => ?_, fun j c' name hc' hname => ?_⟩
      · refine (h 0 c name rfl hname).imp_right fun hx => ?_
        obtain ⟨k, hik, hki, hnested⟩ := hx
        obtain rfl : k = i := by omega
        exact hnested
      · rcases h (j + 1) c' name hc' hname with hhist | ⟨k, hik, hkj, hnested⟩
        · exact .inl (.inl hhist)
        · by_cases hk : k = i
          · subst hk
            exact .inl (.inr hnested)
          · exact .inr ⟨k, by omega, by omega, hnested⟩

end Direct

/-! ## What a hook calls besides its own -/

/-- The pointer of another entry point that the hook calls, and the number of
that call: `malloc` and `free` in `debug_realloc`, `free` in `is_dma_buf`. -/
def Intercepted.borrows (e : Intercepted w) : Option (SysName × ℕ) :=
  if e.state.disabled then none
  else
    match e.call with
    | .realloc pointer bytes =>
      if pointer = 0 then some (.malloc, 0) else if bytes = 0 then some (.free, 0) else none
    | .ioctl _ (.DMA_HEAP_IOCTL_ALLOC heapFd) => if (e.env.fdinfo heapFd).isSome then some (.free, 1) else none
    | .ioctl _ (.CAM_MEM_ION_MAP_PA memID) => if (e.env.fdinfo memID).isSome then some (.free, 1) else none
    | .mmap args =>
      if maxSize w < args.size then none
      else if args.fd.msb then none
      else if (e.env.fdinfo args.fd).isSome then some (.free, 1) else none
    | _ => none

theorem getElem?_dmaBufCalls {env : HookEnv w} {fd : Fd} {j : ℕ} {c : SysCall w} :
    (dmaBufCalls env fd)[j]? = some c ↔ (env.fdinfo fd).isSome = true ∧ j = 0 ∧ c = .freeLine := by
  unfold dmaBufCalls
  split
  · next h => cases j <;> simp [h, eq_comm]
  · next h => simp [h]

/-- A pointer called underneath is one the entry point resolves, or borrowed. -/
theorem through_cases (htrack : cfg.trackPointers = true) {e : Intercepted w} {j : ℕ} {c : SysCall w} {name : SysName}
    (hc : (HookState.sysCalls cfg e.env e.state e.call)[j]? = some c) (hname : c.through = some name) :
    name ∈ e.call.resolves ∨ e.borrows = some (name, j) := by
  -- With calls disabled it goes straight through.
  by_cases hd : e.state.disabled = true
  · have hstate : { e.state with disabled := true } = e.state := by rw [← hd]
    rw [← hstate] at hc
    exact .inl (e.direct_through (List.mem_of_getElem? hc) hname)
  have hfalse : e.state.disabled = false := by simpa using hd
  simp only [Intercepted.borrows, hfalse, Bool.false_eq_true, if_false]
  obtain ⟨call, env, s, setup, nested, hsetup⟩ := e
  dsimp only at *
  cases call with
  | realloc pointer bytes =>
    simp only [HookState.sysCalls, hfalse, Bool.false_eq_true, if_false] at hc
    split at hc
    · next hnull =>
      cases j with
      | zero => cases hc; cases hname; exact .inr (if_pos hnull)
      | succ j => cases hc
    next hnull =>
    split at hc
    · next hzero =>
      cases j with
      | zero => cases hc; cases hname; exact .inr ((if_neg hnull).trans (if_pos hzero))
      | succ j => cases hc
    split at hc
    · cases hc
    · obtain rfl := List.mem_singleton.mp (List.mem_of_getElem? hc)
      cases hname
      exact .inl (List.mem_singleton_self _)
  | ioctl fd request =>
    cases j with
    | zero => cases hc; cases hname
    | succ j =>
      simp only [HookState.sysCalls, hfalse, htrack, Bool.not_false, Bool.and_self, if_true,
        List.getElem?_cons_succ] at hc
      right
      cases request with
      | DMA_HEAP_IOCTL_ALLOC heapFd =>
        obtain ⟨hopens, rfl, rfl⟩ := getElem?_dmaBufCalls.mp hc
        cases hname
        exact if_pos hopens
      | CAM_MEM_ION_MAP_PA memID =>
        obtain ⟨hopens, rfl, rfl⟩ := getElem?_dmaBufCalls.mp hc
        cases hname
        exact if_pos hopens
      | _ => cases hc
  | mmap args =>
    simp only [HookState.sysCalls, hfalse, htrack, Bool.not_false, Bool.true_and, decide_eq_true_eq,
      Bool.not_eq_true'] at hc
    split at hc
    · cases hc
    next hmax =>
    cases j with
    | zero => cases hc; cases hname
    | succ j =>
      rw [List.getElem?_cons_succ] at hc
      split at hc
      · next hfd =>
        obtain ⟨hopens, rfl, rfl⟩ := getElem?_dmaBufCalls.mp hc
        cases hname
        right
        simp only [if_neg hmax, hfd, Bool.false_eq_true, if_false, hopens, if_true]
      · cases hc
  | mmap64 args =>
    obtain ⟨-, rfl⟩ := (mem_sysCalls_mmap64 hfalse).mp (List.mem_of_getElem? hc)
    cases hname
  | calloc nmemb bytes =>
    obtain ⟨-, rfl⟩ := (mem_sysCalls_calloc hfalse).mp (List.mem_of_getElem? hc)
    cases hname
    exact .inl (List.mem_singleton_self _)
  | posixMemalign memptr alignment size =>
    have hm := List.mem_of_getElem? hc
    simp only [HookState.sysCalls, hfalse, Bool.false_eq_true, if_false] at hm
    split at hm
    · cases hm
    split at hm
    · cases hm
    · obtain rfl := List.mem_singleton.mp hm
      cases hname
      exact .inl List.mem_cons_self
  | malloc size =>
    obtain ⟨-, rfl⟩ := (mem_sysCalls_malloc hfalse).mp (List.mem_of_getElem? hc)
    cases hname
    exact .inl (List.mem_singleton_self _)
  | memalign alignment bytes =>
    obtain ⟨-, rfl⟩ := (mem_sysCalls_memalign hfalse).mp (List.mem_of_getElem? hc)
    cases hname
    exact .inl (List.mem_singleton_self _)
  | free pointer =>
    obtain rfl := List.mem_singleton.mp (List.mem_of_getElem? hc)
    cases hname
    exact .inl (List.mem_singleton_self _)
  | close fd =>
    obtain rfl := List.mem_singleton.mp (List.mem_of_getElem? hc)
    cases hname
  | munmap addr size =>
    obtain rfl := List.mem_singleton.mp (List.mem_of_getElem? hc)
    cases hname

/-- What is borrowed is called, and the entry point does not resolve it. -/
theorem through_of_borrows (htrack : cfg.trackPointers = true) {e : Intercepted w} {name : SysName} {i : ℕ}
    (h : e.borrows = some (name, i)) : name ∉ e.call.resolves ∧
      ∃ c, (HookState.sysCalls cfg e.env e.state e.call)[i]? = some c ∧ c.through = some name := by
  unfold Intercepted.borrows at h
  split at h
  · cases h
  next hd =>
  have hfalse : e.state.disabled = false := by simpa using hd
  obtain ⟨call, env, s, setup, nested, hsetup⟩ := e
  dsimp only at *
  split at h
  · next pointer bytes =>
    simp only [HookState.sysCalls, hfalse, Bool.false_eq_true, if_false]
    split at h
    · next hnull =>
      cases h
      rw [if_pos hnull]
      exact ⟨by simp [HookCall.resolves], _, rfl, rfl⟩
    next hnull =>
    split at h
    · next hzero =>
      cases h
      rw [if_neg hnull, if_pos hzero]
      exact ⟨by simp [HookCall.resolves], _, rfl, rfl⟩
    · cases h
  · split at h
    · next hopens =>
      cases h
      refine ⟨by simp [HookCall.resolves], .freeLine, ?_, rfl⟩
      simp [HookState.sysCalls, hfalse, htrack, dmaNodeCalls, getElem?_dmaBufCalls, hopens]
    · cases h
  · split at h
    · next hopens =>
      cases h
      refine ⟨by simp [HookCall.resolves], .freeLine, ?_, rfl⟩
      simp [HookState.sysCalls, hfalse, htrack, dmaNodeCalls, getElem?_dmaBufCalls, hopens]
    · cases h
  · split at h
    · cases h
    next hmax =>
    split at h
    · cases h
    next hfd =>
    split at h
    · next hopens =>
      cases h
      refine ⟨by simp [HookCall.resolves], .freeLine, ?_, rfl⟩
      simp [HookState.sysCalls, hfalse, htrack, hmax, hfd, getElem?_dmaBufCalls, hopens]
    · cases h
  · cases h

/-! ## Runs -/

theorem traceFrom_append (cfg : Config w) (L : Loader) (events events' : List (LinkEvent w)) :
    traceFrom cfg L (events ++ events') =
      traceFrom cfg L events ++ traceFrom cfg (events.foldl Loader.after L) events' := by
  induction events generalizing L with
  | nil => rfl
  | cons event events ih =>
    rw [List.cons_append, traceFrom, traceFrom, ih, List.append_assoc, List.foldl_cons]

theorem trace_concat (cfg : Config w) (events : List (LinkEvent w)) (event : LinkEvent w) :
    trace cfg (events ++ [event]) = trace cfg events ++ event.acts cfg (loader events) := by
  rw [trace, traceFrom_append, traceFrom, traceFrom, List.append_nil]
  rfl

/-- The call `c` is entered before the call underneath of number `i` of the
hook: in the run before it, by the constructor if the hook runs it, or by the
hook's library code. -/
def Intercepted.EnteredBefore (cfg : Config w) (e : Intercepted w) (pre : List (LinkEvent w)) (i : ℕ)
    (c : HookCall w) : Prop :=
  .enter c ∈ trace cfg pre ∨ ((loader pre).built = false ∧ c ∈ e.setup) ∨ ∃ k ≤ i, c ∈ e.nested k

/-- A hook that goes through a pointer of another entry point comes after a
call of that entry point. -/
def BorrowsEntered (cfg : Config w) (pre : List (LinkEvent w)) (event : LinkEvent w) : Prop :=
  ∀ e, event = .call e → (loader pre).bypasses e.call = false → ∀ name i, e.borrows = some (name, i) →
    ∃ c, e.EnteredBefore cfg pre i c ∧ name ∈ c.resolves

/-- One event of a run. -/
theorem usesSet_event (htrack : cfg.trackPointers = true) (pre : List (LinkEvent w)) (event : LinkEvent w) :
    UsesSet (trace cfg pre) (event.acts cfg (loader pre)) ↔ BorrowsEntered cfg pre event := by
  cases event with
  | initDone => exact iff_of_true always_nil fun e he => by cases he
  | call e =>
    rw [LinkEvent.acts, Intercepted.acts, usesSet_enter]
    cases hbypass : (loader pre).bypasses e.call with
    | true =>
      refine iff_of_true always_nil fun e' he hnot => ?_
      cases he
      rw [hbypass] at hnot
      cases hnot
    | false =>
      set setup := if (loader pre).built then [] else e.setup.flatMap (e.direct cfg) with hsetup
      have hset : UsesSet (trace cfg pre ++ [.enter e.call]) setup := by
        rw [hsetup]
        split
        · exact always_nil
        · exact e.usesSet_directs _ _
      have hmem : ∀ name, name ∈ mSys setup ↔ (loader pre).built = false ∧ ∃ c ∈ e.setup, name ∈ c.resolves := by
        intro name
        rw [hsetup]
        cases (loader pre).built with
        | true => simp [mSys]
        | false => simp [e.mem_mSys_directs]
      have hown : ∀ name, name ∈ mSys [LinkAct.enter e.call] ↔ name ∈ e.call.resolves := by
        intro name
        simp [mem_mSys]
      simp only [Bool.false_eq_true, if_false]
      rw [usesSet_append, and_iff_right hset, e.usesSet_body]
      simp only [mem_mSys_append, hown, hmem, Nat.zero_le, true_and, Nat.zero_add]
      constructor
      · intro h e' he _ name i hborrows
        cases he
        obtain ⟨hnot, c, hc, hname⟩ := through_of_borrows htrack hborrows
        rcases h i c name hc hname with ((hpre | howns) | ⟨hbuilt, c', hc', hname'⟩) | ⟨k, hk, c', hc', hname'⟩
        · obtain ⟨c', hc', hname'⟩ := mem_mSys.mp hpre
          exact ⟨c', .inl hc', hname'⟩
        · exact absurd howns hnot
        · exact ⟨c', .inr (.inl ⟨hbuilt, hc'⟩), hname'⟩
        · exact ⟨c', .inr (.inr ⟨k, hk, hc'⟩), hname'⟩
      · intro h j c name hc hname
        rcases through_cases htrack hc hname with hown | hborrows
        · exact .inl (.inl (.inr hown))
        · obtain ⟨c', hentered, hname'⟩ := h e rfl hbypass name j hborrows
          rcases hentered with hpre | ⟨hbuilt, hc'⟩ | ⟨k, hk, hc'⟩
          · exact .inl (.inl (.inl (mem_mSys.mpr ⟨c', hpre, hname'⟩)))
          · exact .inl (.inr ⟨hbuilt, c', hc', hname'⟩)
          · exact .inr ⟨k, hk, c', hc', hname'⟩

/-- **No call through an unresolved function**, in any run from process start,
if and only if a `realloc` of a null pointer comes only after a call of
`malloc`, and a `realloc` to no bytes and a look at a descriptor that is open
only after a call of `free`. -/
theorem resolution_iff (getenv : Environ) (events : List (LinkEvent w)) :
    NoNullCall (Config.init w getenv) events ↔ Always (BorrowsEntered (Config.init w getenv)) events := by
  unfold NoNullCall
  induction events using List.reverseRecOn with
  | nil => exact iff_of_true always_nil always_nil
  | append_singleton events event ih =>
    rw [trace_concat, usesSet_append, ih, List.nil_append, usesSet_event (init_trackPointers w getenv), always_concat,
      and_comm]

/-- A call by a thread at the start, which needs nothing of the constructor. -/
def callNesting (env : HookEnv 64) (nested : ℕ → List (HookCall 64)) (call : HookCall 64) : LinkEvent 64 :=
  .call
    { call, env, nested
      state := (Process.init Unit 64).view ()
      setup := []
      setup_checked := fun c hc => by cases hc }

/-- The library code of `is_dma_buf` allocates a file and a line. -/
def readsFile (i : ℕ) : List (HookCall 64) := if i = 1 then [.malloc 472, .realloc 0 120] else []

/-- The first call is `realloc(nullptr, 10)`; or it allocates a buffer whose
descriptor is open, before anything has been freed. -/
theorem firstCall_null :
    ¬ NoNullCall (Config.init 64 ⟨none, none⟩)
      [callNesting (.plain (.exhausted 64)) (fun _ => []) (.realloc 0 10)] ∧
    ¬ NoNullCall (Config.init 64 ⟨none, none⟩)
      [callNesting { HookEnv.plain (.exhausted 64) with fdinfo := fun _ => some [] } readsFile
        (.ioctl 3 (.DMA_HEAP_IOCTL_ALLOC 5))] := by
  constructor
  · intro h
    obtain ⟨c, hc, hname⟩ := mem_mSys.mp (h [.enter (.realloc 0 10)] (.use .malloc) [] rfl .malloc rfl)
    obtain rfl : c = .realloc 0 10 := by simpa using hc
    cases List.mem_singleton.mp hname
  · intro h
    obtain ⟨c, hc, hname⟩ := mem_mSys.mp (h [.enter (.ioctl 3 (.DMA_HEAP_IOCTL_ALLOC 5)), .enter (.malloc 472),
      .use .malloc, .enter (.realloc 0 120), .use .realloc] (.use .free) [] rfl .free rfl)
    obtain rfl | rfl | rfl : c = .ioctl 3 (.DMA_HEAP_IOCTL_ALLOC 5) ∨ c = .malloc 472 ∨ c = .realloc 0 120 := by
      simpa using hc
    · cases hname
    · cases List.mem_singleton.mp hname
    · cases List.mem_singleton.mp hname

end AllocHook
