/-
DMA buffers, from the descriptors' side.

`is_dma_buf` registers a buffer by its inode, in a set that lives as long as
the process; `debug_close` releases it by its descriptor, in `pointers_`, and
leaves the set alone. A buffer shown for the first time gets its entry, and
one whose inode was seen before, under a descriptor since closed, gets none.

`buffers_tracked_iff` says that this is all that goes wrong: every open buffer
a hook has been shown has its entry, in every state of a run, if and only if
no descriptor is first shown with an inode already in `inode_set`.
-/
import AllocHook.HookEffects
import AllocHook.Lib.History

namespace AllocHook

open FiniteMap History

variable {Tid : Type*} {w : Nat}

/-! ## Descriptors -/

/-- What a descriptor is open on. -/
inductive File (w : Nat)
  | dmaBuf (inode : BitVec 64) (size : Word w)
  | other
  deriving DecidableEq

/-- What the kernel's fdinfo says of a DMA buffer. -/
def File.info : File w → Option (BitVec 64 × Word w)
  | .dmaBuf inode size => some (inode, size)
  | .other => none

/-- The process with its descriptors. `shown` holds those that a hook has been
shown to be a DMA buffer since they were opened. -/
structure World (Tid : Type*) (w : Nat) where
  process : Process Tid w
  files : Fd → Option (File w)
  shown : Finset Fd

def World.init (Tid : Type*) (w : Nat) : World Tid w :=
  { process := Process.init Tid w, files := fun _ => none, shown := ∅ }

/-- A descriptor is opened, by whatever means, or a thread calls a hook. -/
inductive Action (Tid : Type*) (w : Nat)
  | opened (fd : Fd) (file : File w)
  | call (t : Tid) (env : HookEnv w) (call : HookCall w)

/-- The DMA buffer a call shows to `is_dma_buf`: its descriptor, inode and size. -/
def World.showing (x : World Tid w) (t : Tid) (call : HookCall w) : Option (Fd × BitVec 64 × Word w) :=
  ((x.process.view t).shows call).bind fun fd => ((x.files fd).bind File.info).map fun info => (fd, info)

variable [DecidableEq Tid]

def World.step (cfg : Config w) (x : World Tid w) : Action Tid w → World Tid w
  | .opened fd file => { x with files := Function.update x.files fd (some file) }
  | .call t env (.close fd) =>
    { process := x.process.perform cfg (.call t env (.close fd))
      files := Function.update x.files fd none
      shown := x.shown.erase fd }
  | .call t env call =>
    { process := x.process.perform cfg (.call t env call)
      files := x.files
      shown := match x.showing t call with
        | none => x.shown
        | some (fd, _) => insert fd x.shown }

def World.run (cfg : Config w) (actions : List (Action Tid w)) : World Tid w :=
  actions.foldl (World.step cfg) (World.init Tid w)

theorem World.run_concat (cfg : Config w) (actions : List (Action Tid w)) (action : Action Tid w) :
    World.run cfg (actions ++ [action]) = (World.run cfg actions).step cfg action := by
  simp only [World.run, List.foldl_append, List.foldl_cons, List.foldl_nil]

/-! ## The runs -/

/-- The hooks that show a descriptor to `is_dma_buf`, and `close`. -/
def DmaHook : HookCall w → Prop
  | .ioctl _ (.DMA_HEAP_IOCTL_ALLOC _) | .ioctl _ (.CAM_MEM_ION_MAP_PA _) | .close _ => True
  | .mmap args => args.fd.msb = false
  | _ => False

/-- No two open descriptors reach one inode, fdinfo reports what each
descriptor is open on, and no stack ends in the exit function. -/
def Allowed (cfg : Config w) (x : World Tid w) : Action Tid w → Prop
  | .opened fd file =>
    x.files fd = none ∧
    ∀ inode size fd' size', file = .dmaBuf inode size → x.files fd' ≠ some (.dmaBuf inode size')
  | .call _ env call =>
    DmaHook call ∧ (∀ fd, dmaInfo env fd = (x.files fd).bind File.info) ∧ ∀ size, records cfg env.add size = true

/-- `Allowed`, however many descriptors reach an inode and whatever the stacks. -/
def AllowedShared (x : World Tid w) : Action Tid w → Prop
  | .opened fd _ => x.files fd = none
  | .call _ env call => DmaHook call ∧ ∀ fd, dmaInfo env fd = (x.files fd).bind File.info

omit [DecidableEq Tid] in
theorem Allowed.shared {cfg : Config w} {x : World Tid w} {action : Action Tid w} (h : Allowed cfg x action) :
    AllowedShared x action := by
  cases action with
  | opened fd file => exact h.1
  | call t env call => exact ⟨h.1, h.2.1⟩

/-- The key `fd` is tracked under. -/
def fdKey (w : Nat) (fd : Fd) : Word w := manglePointer (fdPtr w fd)

/-- Every open buffer a hook has been shown has its DMA entry, with its size. -/
def BuffersTracked (x : World Tid w) : Prop :=
  ∀ fd ∈ x.shown, ∀ inode size, x.files fd = some (.dmaBuf inode size) →
    ∃ e, x.process.pointer.pointers.lookup (fdKey w fd) = some e ∧ e.memType = .dma ∧ e.size = size

/-- A descriptor shown for the first time since it was opened has an inode not
yet in `inode_set`. -/
def FreshShowing (x : World Tid w) : Action Tid w → Prop
  | .opened _ _ => True
  | .call t _ call => ∀ info ∈ x.showing t call, info.1 ∈ x.shown ∨ info.2.1 ∉ x.process.inodeSet

instance (x : World Tid w) : (action : Action Tid w) → Decidable (FreshShowing x action)
  | .opened _ _ => inferInstanceAs (Decidable True)
  | .call t _ call => Option.decidableForallMem (x.showing t call)

/-! ## What a call does to descriptors and entries -/

theorem fdKey_inj (hw : 32 ≤ w) {fd fd' : Fd} : fdKey w fd = fdKey w fd' ↔ fd = fd' := by
  constructor
  · intro h
    have hptr : fdPtr w fd = fdPtr w fd' := mangle_inj.mp h
    refine BitVec.eq_of_toInt_eq ?_
    rw [← BitVec.toInt_signExtend_of_le hw, ← BitVec.toInt_signExtend_of_le hw]
    exact congrArg BitVec.toInt hptr
  · intro h
    rw [h]

variable {cfg : Config w} {x : World Tid w}

omit [DecidableEq Tid] in
/-- The hooks other than `close` add the buffer they are shown, if it is new. -/
theorem calls_of_dmaHook {env : HookEnv w} {t : Tid} {call : HookCall w}
    (hd : (x.process.view t).disabled = false) (hook : DmaHook call) (hclose : ∀ fd, call ≠ .close fd)
    (hinfo : ∀ fd, dmaInfo env fd = (x.files fd).bind File.info) :
    (x.process.view t).calls env call = match x.showing t call with
      | none => []
      | some (fd, inode, size) =>
        if inode ∈ x.process.inodeSet then [] else [.add env.add (fdPtr w fd) size .dma] := by
  have hdma : ∀ fd, (x.process.view t).dmaCalls env fd = match ((x.files fd).bind File.info).map fun i => (fd, i) with
      | none => []
      | some (fd, inode, size) =>
        if inode ∈ x.process.inodeSet then [] else [.add env.add (fdPtr w fd) size .dma] := by
    intro fd
    rw [HookState.dmaCalls, hinfo fd]
    cases (x.files fd).bind File.info <;> rfl
  unfold HookState.calls World.showing HookState.shows
  simp only [hd, Bool.false_eq_true, if_false]
  cases call with
  | ioctl fd request =>
    cases request with
    | DMA_HEAP_IOCTL_ALLOC heapFd => exact hdma heapFd
    | CAM_MEM_ION_MAP_PA memID => exact hdma memID
    | _ => exact hook.elim
  | mmap args =>
    have hfd : args.fd.msb = false := hook
    by_cases hmax : maxSize w < args.size
    · simp only [hmax, true_or, if_true, Option.bind_none]
    · simp only [hmax, hfd, Bool.false_eq_true, or_self, if_false]
      exact hdma args.fd
  | close fd => exact absurd rfl (hclose fd)
  | _ => exact hook.elim

omit [DecidableEq Tid] in
theorem inodes_of_call {env : HookEnv w} (t : Tid) (call : HookCall w)
    (hinfo : ∀ fd, dmaInfo env fd = (x.files fd).bind File.info) :
    (x.process.view t).inodesAfter env call = match x.showing t call with
      | none => x.process.inodeSet
      | some (_, inode, _) => insert inode x.process.inodeSet := by
  unfold HookState.inodesAfter World.showing
  cases (x.process.view t).shows call with
  | none => rfl
  | some fd =>
    simp only [Option.bind_some, hinfo fd]
    cases (x.files fd).bind File.info <;> rfl

omit [DecidableEq Tid] in
theorem files_of_showing {t : Tid} {call : HookCall w} {fd : Fd} {inode : BitVec 64} {size : Word w}
    (h : x.showing t call = some (fd, inode, size)) : x.files fd = some (.dmaBuf inode size) := by
  obtain ⟨fd', -, h⟩ := Option.bind_eq_some_iff.mp h
  obtain ⟨info, h, hq⟩ := Option.map_eq_some_iff.mp h
  obtain ⟨file, hfile, hinfo⟩ := Option.bind_eq_some_iff.mp h
  cases hq
  cases file with
  | dmaBuf inode' size' => cases hinfo; exact hfile
  | other => cases hinfo

/-- What an action does to descriptors, entries and inodes. -/
inductive Effect (cfg : Config w) (x : World Tid w) : Action Tid w → World Tid w → Prop
  | opened {fd : Fd} {file : File w} (hclosed : x.files fd = none) :
      Effect cfg x (.opened fd file) { x with files := Function.update x.files fd (some file) }
  | closed {t : Tid} {env : HookEnv w} {fd : Fd} {process : Process Tid w}
      (hp : process.pointer.pointers = x.process.pointer.pointers.erase (fdKey w fd))
      (hi : process.inodeSet = x.process.inodeSet) :
      Effect cfg x (.call t env (.close fd))
        { process, files := Function.update x.files fd none, shown := x.shown.erase fd }
  | silent {t : Tid} {env : HookEnv w} {call : HookCall w} {process : Process Tid w} (hs : x.showing t call = none)
      (hp : process.pointer.pointers = x.process.pointer.pointers) (hi : process.inodeSet = x.process.inodeSet) :
      Effect cfg x (.call t env call) { x with process }
  | passed {t : Tid} {env : HookEnv w} {call : HookCall w} {process : Process Tid w} {fd : Fd} {inode : BitVec 64}
      {size : Word w} (hs : x.showing t call = some (fd, inode, size))
      (hpass : ¬ (inode ∉ x.process.inodeSet ∧ records cfg env.add size = true))
      (hp : process.pointer.pointers = x.process.pointer.pointers)
      (hi : process.inodeSet = insert inode x.process.inodeSet) :
      Effect cfg x (.call t env call) { x with process, shown := insert fd x.shown }
  | added {t : Tid} {env : HookEnv w} {call : HookCall w} {process : Process Tid w} {fd : Fd} {inode : BitVec 64}
      {size : Word w} {e : PointerInfoType w} (hs : x.showing t call = some (fd, inode, size))
      (hnew : inode ∉ x.process.inodeSet) (hrec : records cfg env.add size = true) (ht : e.memType = .dma)
      (hsize : e.size = size)
      (hp : process.pointer.pointers = x.process.pointer.pointers.insert (fdKey w fd) e)
      (hi : process.inodeSet = insert inode x.process.inodeSet) :
      Effect cfg x (.call t env call) { x with process, shown := insert fd x.shown }

/-- `close` takes the descriptor's entry out and shows nothing. -/
theorem close_process (htrack : cfg.trackPointers = true) (t : Tid) (hd : (x.process.thread t).disabled = false)
    (env : HookEnv w) (fd : Fd) :
    (x.process.perform cfg (.call t env (.close fd))).pointer = x.process.pointer.remove cfg (fdPtr w fd) ∧
      (x.process.perform cfg (.call t env (.close fd))).inodeSet = x.process.inodeSet := by
  have hdid := call_did htrack env (x.process.view t) (.close fd)
  have hdis : (x.process.view t).disabled = false := hd
  constructor
  · rw [Process.call_pointer htrack]
    simp only [HookState.calls, hdis, Bool.false_eq_true, if_false, List.foldl_cons, List.foldl_nil]
    rfl
  · refine hdid.inodeSet.trans ?_
    simp only [HookState.inodesAfter, HookState.shows, hdis, Bool.false_eq_true, if_false, Option.bind_none]
    rfl

theorem step_effect (htrack : cfg.trackPointers = true) {L : Multiset (PointerInfoType w)}
    (hc : Charged x.process.pointer L 0) (hd : ∀ t, (x.process.thread t).disabled = false)
    {action : Action Tid w} (h : AllowedShared x action) : Effect cfg x action (x.step cfg action) := by
  cases action with
  | opened fd file => exact .opened h
  | call t env call =>
    obtain ⟨hook, hinfo⟩ := h
    have hdid := call_did htrack env (x.process.view t) call
    have hdis : (x.process.view t).disabled = false := hd t
    by_cases hclose : ∃ fd, call = .close fd
    · obtain ⟨fd, rfl⟩ := hclose
      obtain ⟨hp, hi⟩ := close_process htrack t (hd t) env fd
      exact .closed ((congrArg PointerData.pointers hp).trans (remove_pointers cfg _ _)) hi
    · have hne : ∀ fd, call ≠ .close fd := fun fd hq => hclose ⟨fd, hq⟩
      have hstep : x.step cfg (.call t env call) =
          { process := x.process.perform cfg (.call t env call)
            files := x.files
            shown := match x.showing t call with
              | none => x.shown
              | some (fd, _) => insert fd x.shown } := by
        cases call with
        | close fd => exact absurd rfl (hne fd)
        | _ => rfl
      have hpointer := x.process.call_pointer htrack t env call
      have hinodes : (x.process.perform cfg (.call t env call)).inodeSet = _ := hdid.inodeSet
      rw [calls_of_dmaHook hdis hook hne hinfo] at hpointer
      rw [inodes_of_call t call hinfo] at hinodes
      rw [hstep]
      cases hs : x.showing t call with
      | none =>
        simp only [hs, List.foldl_nil] at hpointer hinodes ⊢
        exact .silent hs (congrArg PointerData.pointers hpointer) hinodes
      | some p =>
        obtain ⟨fd, inode, size⟩ := p
        simp only [hs] at hpointer hinodes ⊢
        by_cases hm : inode ∈ x.process.inodeSet
        · rw [if_pos hm, List.foldl_nil] at hpointer
          exact .passed hs (fun h => h.1 hm) (congrArg PointerData.pointers hpointer) hinodes
        · rw [if_neg hm, List.foldl_cons, List.foldl_nil] at hpointer
          cases hrec : records cfg env.add size with
          | true =>
            have ha := add_added hc.held hrec (fdPtr w fd) .dma
            exact .added hs hm hrec rfl rfl ((congrArg PointerData.pointers hpointer).trans ha.pointers) hinodes
          | false =>
            have hsame := add_of_not_records hrec (fdPtr w fd) .dma x.process.pointer
            refine .passed hs (fun h => ?_) (congrArg PointerData.pointers (hpointer.trans hsame)) hinodes
            rw [hrec] at h
            exact Bool.false_ne_true h.2

/-! ## Runs -/

theorem step_process (cfg : Config w) (x : World Tid w) (t : Tid) (env : HookEnv w) (call : HookCall w) :
    (x.step cfg (.call t env call)).process = x.process.perform cfg (.call t env call) := by
  cases call <;> rfl

theorem step_enabled (htrack : cfg.trackPointers = true) (hd : ∀ t, (x.process.thread t).disabled = false)
    (action : Action Tid w) : ∀ t, ((x.step cfg action).process.thread t).disabled = false := by
  cases action with
  | opened fd file => exact hd
  | call t env call =>
    rw [step_process]
    exact Process.call_enabled htrack hd t env call

theorem step_reachable (htrack : cfg.trackPointers = true) (hd : Reachable cfg x.process.pointer)
    (action : Action Tid w) : Reachable cfg (x.step cfg action).process.pointer := by
  cases action with
  | opened fd file => exact hd
  | call t env call =>
    rw [step_process]
    exact Process.perform_reachable htrack hd _

/-- Calls are enabled, every descriptor's entry is that of a buffer shown
since it was opened, and what has been shown is open, with its inode seen. -/
structure Registered (cfg : Config w) (x : World Tid w) : Prop where
  enabled : ∀ t, (x.process.thread t).disabled = false
  reachable : Reachable cfg x.process.pointer
  shown_of_entry : ∀ fd e, x.process.pointer.pointers.lookup (fdKey w fd) = some e → fd ∈ x.shown
  open_of_shown : ∀ fd ∈ x.shown, ∃ inode size, x.files fd = some (.dmaBuf inode size) ∧ inode ∈ x.process.inodeSet

omit [DecidableEq Tid] in
theorem Registered.init (cfg : Config w) : Registered cfg (World.init Tid w) := by
  refine ⟨fun t => rfl, .initialized cfg, ?_, ?_⟩
  · intro fd e h
    simp [World.init, Process.init, PointerData.initialized] at h
  · intro fd h
    simp [World.init] at h

omit [DecidableEq Tid] in
theorem Registered.ne_of_closed (hr : Registered cfg x) {fd fd' : Fd} (hclosed : x.files fd = none)
    (hfd : fd' ∈ x.shown) : fd' ≠ fd := by
  intro hq
  obtain ⟨inode, size, hf, -⟩ := hr.open_of_shown fd' hfd
  rw [hq, hclosed] at hf
  cases hf

omit [DecidableEq Tid] in
/-- A showing is of an open descriptor, and its inode is seen by then. -/
theorem Registered.open_of_showing (hr : Registered cfg x) {t : Tid} {call : HookCall w} {fd : Fd} {inode : BitVec 64}
    {size : Word w} (hs : x.showing t call = some (fd, inode, size)) {fd' : Fd} (hfd : fd' ∈ insert fd x.shown) :
    ∃ inode' size', x.files fd' = some (.dmaBuf inode' size') ∧ inode' ∈ insert inode x.process.inodeSet := by
  rcases Finset.mem_insert.mp hfd with hq | hfd
  · exact ⟨_, _, hq ▸ files_of_showing hs, Finset.mem_insert_self _ _⟩
  · obtain ⟨inode', size', hf, hseen⟩ := hr.open_of_shown fd' hfd
    exact ⟨inode', size', hf, Finset.mem_insert_of_mem hseen⟩

theorem Registered.step (hw : 32 ≤ w) (hb : cfg.has BACKTRACE = true) (htrack : cfg.trackPointers = true)
    (hr : Registered cfg x) {action : Action Tid w} (h : AllowedShared x action) :
    Registered cfg (x.step cfg action) := by
  obtain ⟨L, hc⟩ := hr.reachable.charged hb
  have heff := step_effect htrack hc hr.enabled h
  refine ⟨step_enabled htrack hr.enabled action, step_reachable htrack hr.reachable action, ?_, ?_⟩
  · generalize x.step cfg action = x' at heff
    intro fd e he
    cases heff with
    | opened _ => exact hr.shown_of_entry fd e he
    | closed hp _ =>
      rw [hp, lookup_erase_eq] at he
      split at he
      · cases he
      · next hne => exact Finset.mem_erase.mpr ⟨fun hq => hne (hq ▸ rfl), hr.shown_of_entry fd e he⟩
    | silent _ hp _ => rw [hp] at he; exact hr.shown_of_entry fd e he
    | passed _ _ hp _ => rw [hp] at he; exact Finset.mem_insert_of_mem (hr.shown_of_entry fd e he)
    | added _ _ _ _ _ hp _ =>
      rw [hp, lookup_insert_eq] at he
      split at he
      · next hq => rw [(fdKey_inj hw).mp hq]; exact Finset.mem_insert_self _ _
      · exact Finset.mem_insert_of_mem (hr.shown_of_entry fd e he)
  · generalize x.step cfg action = x' at heff
    intro fd hfd
    cases heff with
    | opened hclosed =>
      obtain ⟨inode, size, hf, hi⟩ := hr.open_of_shown fd hfd
      exact ⟨inode, size, (Function.update_of_ne (hr.ne_of_closed hclosed hfd) _ _).trans hf, hi⟩
    | closed _ hi =>
      obtain ⟨hne, hfd⟩ := Finset.mem_erase.mp hfd
      obtain ⟨inode, size, hf, hseen⟩ := hr.open_of_shown fd hfd
      rw [hi]
      exact ⟨inode, size, (Function.update_of_ne hne _ _).trans hf, hseen⟩
    | silent _ _ hi => rw [hi]; exact hr.open_of_shown fd hfd
    | passed hs _ _ hi => rw [hi]; exact hr.open_of_showing hs hfd
    | added hs _ _ _ _ _ hi => rw [hi]; exact hr.open_of_showing hs hfd

/-- A fresh showing keeps every buffer tracked. -/
theorem BuffersTracked.step (hw : 32 ≤ w) (hb : cfg.has BACKTRACE = true) (htrack : cfg.trackPointers = true)
    (hr : Registered cfg x) (hx : BuffersTracked x) {action : Action Tid w} (h : Allowed cfg x action)
    (hfresh : FreshShowing x action) : BuffersTracked (x.step cfg action) := by
  obtain ⟨L, hc⟩ := hr.reachable.charged hb
  have heff := step_effect htrack hc hr.enabled h.shared
  generalize x.step cfg action = x' at heff
  intro fd hfd inode size hfile
  cases heff with
  | opened hclosed =>
    exact hx fd hfd inode size ((Function.update_of_ne (hr.ne_of_closed hclosed hfd) _ _).symm.trans hfile)
  | closed hp _ =>
    obtain ⟨hne, hfd⟩ := Finset.mem_erase.mp hfd
    rw [hp, lookup_erase_eq, if_neg (mt (fdKey_inj hw).mp hne)]
    exact hx fd hfd inode size ((Function.update_of_ne hne _ _).symm.trans hfile)
  | silent _ hp _ => rw [hp]; exact hx fd hfd inode size hfile
  | passed hs hpass hp _ =>
    rw [hp]
    have hbefore := (hfresh _ hs).resolve_right fun hn => hpass ⟨hn, h.2.2 _⟩
    rw [Finset.insert_eq_of_mem hbefore] at hfd
    exact hx fd hfd inode size hfile
  | added hs hnew _ ht hsize hp _ =>
    rw [hp, lookup_insert_eq]
    split
    · next hq =>
      rw [(fdKey_inj hw).mp hq, files_of_showing hs] at hfile
      cases hfile
      exact ⟨_, rfl, ht, hsize⟩
    · next hne => exact hx fd (Finset.mem_of_mem_insert_of_ne hfd fun hq => hne (hq ▸ rfl)) inode size hfile

/-- After a showing that is not fresh, a buffer has no entry. -/
theorem not_buffersTracked_of_not_fresh (hb : cfg.has BACKTRACE = true) (htrack : cfg.trackPointers = true)
    (hr : Registered cfg x) {action : Action Tid w} (h : Allowed cfg x action) (hfresh : ¬ FreshShowing x action) :
    ¬ BuffersTracked (x.step cfg action) := by
  obtain ⟨L, hc⟩ := hr.reachable.charged hb
  have heff := step_effect htrack hc hr.enabled h.shared
  generalize x.step cfg action = x' at heff
  intro hx
  cases heff with
  | opened _ => exact hfresh trivial
  | closed _ _ => exact hfresh (by simp [FreshShowing, World.showing, HookState.shows])
  | silent hs _ _ => exact hfresh (by simp [FreshShowing, hs])
  | added hs hnew _ _ _ _ _ => exact hfresh (by simp [FreshShowing, hs, hnew])
  | passed hs _ hp _ =>
    obtain ⟨e, he, -⟩ := hx _ (Finset.mem_insert_self _ _) _ _ (files_of_showing (x := x) hs)
    rw [hp] at he
    exact hfresh (by simp [FreshShowing, hs, hr.shown_of_entry _ e he])

theorem registered_run (hw : 32 ≤ w) (hb : cfg.has BACKTRACE = true) (htrack : cfg.trackPointers = true)
    {actions : List (Action Tid w)} (h : Always (fun pre action => Allowed cfg (World.run cfg pre) action) actions) :
    Registered cfg (World.run cfg actions) := by
  induction actions using List.reverseRecOn with
  | nil => exact .init cfg
  | append_singleton actions action ih =>
    obtain ⟨hallowed, hrest⟩ := always_concat.mp h
    rw [World.run_concat]
    exact (ih hrest).step hw hb htrack hallowed.shared

/-- **DMA buffers that come back.** In a run of these hooks every open buffer
that was shown since it was opened has its entry in every state if and only if
no first showing is of an inode seen before. -/
theorem buffers_tracked_iff (hw : 32 ≤ w) (getenv : Environ) (actions : List (Action Tid w))
    (h : Always (fun pre action => Allowed (Config.init w getenv) (World.run (Config.init w getenv) pre) action)
      actions) :
    (∀ pre, pre <+: actions → BuffersTracked (World.run (Config.init w getenv) pre)) ↔
      Always (fun pre action => FreshShowing (World.run (Config.init w getenv) pre) action) actions := by
  have hb := init_backtrace w getenv
  have htrack := init_trackPointers w getenv
  refine prefixes_iff_always ?_ fun pre action hp hx _ => ?_
  · intro fd hfd
    simp [World.run, World.init] at hfd
  · obtain ⟨hallowed, hrest⟩ := always_concat.mp (h.mono hp)
    have hr := registered_run hw hb htrack hrest
    rw [World.run_concat]
    refine ⟨fun hnext => ?_, fun hfresh => hx.step hw hb htrack hr hallowed hfresh⟩
    by_contra hfresh
    exact not_buffersTracked_of_not_fresh hb htrack hr hallowed hfresh hnext

/-! ## A buffer that comes back -/

/-- The system a buffer comes from. -/
def heapSystem : System 64 :=
  { System.exhausted 64 with
    ioctl := fun _ _ => { result := 0, errno := 0 }
    mmap := fun _ => { result := 0x7f0000000000, errno := 0 }
    close := fun _ => { result := 0, errno := 0 } }

/-- A hook while descriptor 5 alone is a DMA buffer, by what its fdinfo says. -/
def bufferEnv (ino size : CString) : HookEnv 64 :=
  { HookEnv.plain heapSystem with
    fdinfo := fun fd =>
      if fd = 5 then some [['i', 'n', 'o', ':', '\t'] ++ ino ++ ['\n'],
        ['s', 'i', 'z', 'e', ':', '\t'] ++ size ++ ['\n'],
        ['e', 'x', 'p', '_', 'n', 'a', 'm', 'e', ':', '\t', 's', 'y', 's', 't', 'e', 'm', '\n']]
      else none }

/-- A buffer is allocated and closed, and one of inode `inode` is imported and
mapped. -/
def comesBack (inode : BitVec 64) (ino : CString) : List (Action Unit 64) :=
  [.opened 5 (.dmaBuf 7 4096),
    .call () (bufferEnv ['7'] ['4', '0', '9', '6']) (.ioctl 4 (.DMA_HEAP_IOCTL_ALLOC 5)),
    .call () (bufferEnv ['7'] ['4', '0', '9', '6']) (.close 5),
    .opened 5 (.dmaBuf inode 8192),
    .call () (bufferEnv ino ['8', '1', '9', '2'])
      (.mmap { addr := 0, size := 8192, prot := 3, flags := 1, fd := 5, offset := 0 })]

theorem allowed_bufferEnv {y : World Unit 64} {inode : BitVec 64} {bytes : Word 64} {ino size : CString}
    (hfiles : ∀ fd, y.files fd = if fd = 5 then some (.dmaBuf inode bytes) else none)
    (hinfo : dmaInfo (bufferEnv ino size) 5 = some (inode, bytes)) {call : HookCall 64} (hook : DmaHook call) :
    Allowed (Config.init 64 ⟨none, none⟩) y (.call () (bufferEnv ino size) call) := by
  refine ⟨hook, fun fd => ?_, records_of_unwind rfl⟩
  rw [hfiles]
  split
  · next h => rw [h, hinfo]; rfl
  · next h =>
    have hnone : (bufferEnv ino size).fdinfo fd = none := if_neg h
    simp only [dmaInfo, hnone]
    rfl

/-- The run is one of those the theorem is about, whatever the second inode. -/
theorem comesBack_allowed {inode : BitVec 64} {ino : CString}
    (hinfo : dmaInfo (bufferEnv ino ['8', '1', '9', '2']) 5 = some (inode, 8192)) :
    Always (fun pre action =>
        Allowed (Config.init 64 ⟨none, none⟩) (World.run (Config.init 64 ⟨none, none⟩) pre) action)
      (comesBack inode ino) := by
  have hfirst : dmaInfo (bufferEnv ['7'] ['4', '0', '9', '6']) 5 = some (7, 4096) := by decide
  have hopened : ∀ (file : File 64) (fd : Fd),
      Function.update (fun _ => none) 5 (some file) fd = if fd = 5 then some file else none :=
    fun file fd => Function.update_apply _ _ _ fd
  have hclosed : Function.update (Function.update (fun _ => none) (5 : Fd) (some (File.dmaBuf 7 4096))) 5 none =
      (fun _ => none : Fd → Option (File 64)) := by
    rw [Function.update_idem, Function.update_eq_self]
  have hnew : ∀ (i : BitVec 64) (size : Word 64) (fd' : Fd) (size' : Word 64), File.dmaBuf inode 8192 = .dmaBuf i size →
      Function.update (Function.update (fun _ => none) (5 : Fd) (some (File.dmaBuf 7 4096))) 5 none fd' ≠
        some (.dmaBuf i size') := by
    intro i size fd' size' _
    rw [hclosed]
    simp
  have hagain : ∀ fd : Fd, Function.update
      (Function.update (Function.update (fun _ => none) (5 : Fd) (some (File.dmaBuf 7 4096))) 5 none) 5
      (some (File.dmaBuf inode (8192 : Word 64))) fd = if fd = 5 then some (.dmaBuf inode 8192) else none := by
    rw [hclosed]
    exact hopened _
  refine always_cons.mpr ⟨⟨rfl, fun _ _ _ _ _ => by simp [World.run, World.init]⟩, ?_⟩
  refine always_cons.mpr ⟨allowed_bufferEnv (hopened _) hfirst trivial, ?_⟩
  refine always_cons.mpr ⟨allowed_bufferEnv (hopened _) hfirst trivial, ?_⟩
  refine always_cons.mpr ⟨⟨rfl, hnew⟩, ?_⟩
  exact always_cons.mpr ⟨allowed_bufferEnv hagain hinfo rfl, always_nil⟩

/-- With another inode both showings are of new buffers. -/
theorem comesBack_fresh : Always (fun pre action => FreshShowing (World.run (Config.init 64 ⟨none, none⟩) pre) action)
    (comesBack 8 ['8']) := by
  refine always_cons.mpr ⟨trivial, always_cons.mpr ⟨?_, always_cons.mpr ⟨?_, always_cons.mpr ⟨trivial,
    always_cons.mpr ⟨?_, always_nil⟩⟩⟩⟩⟩
  · decide
  · decide
  · decide

/-- Another buffer under the same descriptor is tracked in its turn. -/
theorem buffers_tracked_iff_imported :
    BuffersTracked (World.run (Config.init 64 ⟨none, none⟩) (comesBack 8 ['8'])) :=
  (buffers_tracked_iff (by decide) ⟨none, none⟩ (comesBack 8 ['8']) (comesBack_allowed (by decide))).mpr
    comesBack_fresh _ List.prefix_rfl

/-- The same buffer is not: imported again and mapped it has no entry. -/
theorem reimported_not_tracked :
    Always (fun pre action =>
        Allowed (Config.init 64 ⟨none, none⟩) (World.run (Config.init 64 ⟨none, none⟩) pre) action)
      (comesBack 7 ['7']) ∧
    ¬ BuffersTracked (World.run (Config.init 64 ⟨none, none⟩) (comesBack 7 ['7'])) := by
  refine ⟨comesBack_allowed (by decide), fun h => ?_⟩
  have hgone : (World.run (Config.init 64 ⟨none, none⟩) (comesBack 7 ['7'])).process.pointer.pointers.lookup
      (fdKey 64 5) = none := by decide
  obtain ⟨e, he, -⟩ := h 5 (by decide) 7 8192 (by decide)
  rw [hgone] at he
  cases he

end AllocHook
