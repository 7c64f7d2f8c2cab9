/-
Dumps between and after the calls of a run.

A live dump reads the tables and leaves them alone. A dump in peak mode hands
out `peak_list_` by `std::move` and leaves nothing in its place, so the next
dump writes an empty list until a later peak is recorded. Dumping is an
observation exactly when there is no list to hand out (`dumps_observe_iff`).
-/
import AllocHook.PeakSnapshot

namespace AllocHook

open FiniteMap SharedStore SortMerge

variable {w : Nat} {cfg : Config w} {d d' : PointerData w}

/-! ## Reachable states -/

/-- What may happen to a tracker: a call, or a dump. -/
inductive Op (w : Nat)
  | call (call : Call w)
  | dump (it : Iteration (Word w) (PointerInfoType w))

def PointerData.perform (cfg : Config w) (d : PointerData w) : Op w → PointerData w
  | .call call => d.exec cfg call
  | .dump it => (d.dumpLiveToFile cfg it).2

/-- Reached from `Initialize` by calls and dumps. -/
def Reachable (cfg : Config w) (d : PointerData w) : Prop :=
  ∃ ops : List (Op w), d = ops.foldl (PointerData.perform cfg) (PointerData.initialized w)

/-- Induction over the operations that reached a state. -/
theorem Reachable.induction {P : PointerData w → Prop} (h₀ : P (PointerData.initialized w))
    (step : ∀ d op, P d → P (d.perform cfg op)) (hd : Reachable cfg d) : P d := by
  obtain ⟨ops, rfl⟩ := hd
  induction ops using List.reverseRecOn with
  | nil => exact h₀
  | append_singleton ops op ih =>
    rw [List.foldl_append]
    exact step _ op ih

theorem Reachable.charged (hb : cfg.has BACKTRACE = true) (hd : Reachable cfg d) : ∃ L, Charged d L 0 := by
  refine hd.induction (P := fun d => ∃ L, Charged d L 0) ⟨0, Charged.initialized⟩ ?_
  rintro d op ⟨L, hc⟩
  cases op with
  | call call => exact ⟨_, hc.exec hb call⟩
  | dump it => exact ⟨L, hc.of_peaks rfl rfl rfl rfl rfl⟩

/-- In live mode no snapshot is ever taken. -/
theorem Reachable.peakList_live (hb : cfg.has BACKTRACE = true) (hlive : cfg.has RECORD_MEMORY_PEAK = false)
    (hd : Reachable cfg d) : d.peakList = [] := by
  suffices h : (∃ L, Charged d L 0) ∧ d.peakList = [] from h.2
  refine hd.induction (P := fun d => (∃ L, Charged d L 0) ∧ d.peakList = []) ⟨⟨0, Charged.initialized⟩, rfl⟩ ?_
  rintro d op ⟨⟨L, hc⟩, hl⟩
  cases op with
  | dump it => exact ⟨⟨L, hc.of_peaks rfl rfl rfl rfl rfl⟩, rfl⟩
  | call call =>
    refine ⟨⟨_, hc.exec hb call⟩, ?_⟩
    rcases exec_peaks cfg hc.held call with ⟨-, h, -⟩ | ⟨-, -, -, -, h⟩
    · exact h.trans hl
    · exact (h fun hdue => by simp [hdue.1] at hlive).trans hl

/-! ## Totals by class -/

/-- What a record adds to the total of a class. -/
def classBytes (c : MemType → Bool) (a : ListInfoType w) : Word w :=
  if c a.memType then a.size * BitVec.ofNat w a.numAllocations else 0

/-- The totals of a header are sums over the records of the class. -/
theorem dumpUse_eq (list : List (ListInfoType w)) :
    dumpUse list = ((list.map (classBytes isHost)).sum, (list.map (classBytes isDma)).sum) := by
  have h : ∀ (l : List (ListInfoType w)) (use : Word w × Word w),
      l.foldl (fun use it =>
        if it.memType = .dma then (use.1, use.2 + it.size * BitVec.ofNat w it.numAllocations)
        else (use.1 + it.size * BitVec.ofNat w it.numAllocations, use.2)) use =
        (use.1 + (l.map (classBytes isHost)).sum, use.2 + (l.map (classBytes isDma)).sum) := by
    intro l
    induction l with
    | nil => simp
    | cons a l ih =>
      intro use
      rw [List.foldl_cons, ih]
      by_cases ht : a.memType = .dma <;> simp [ht, classBytes, isHost, isDma, add_assoc]
  exact (h list (0, 0)).trans (Prod.ext (zero_add _) (zero_add _))

/-- The bytes of the traced entries of a class. -/
def PointerData.tracedBytes (d : PointerData w) (c : MemType → Bool) : Word w :=
  ((d.traced.filter fun e => c e.memType = true).map (·.realSize)).sum

/-! ## Consecutive dumps -/

/-- Dumps with no call between them, each with the order its walk of the hash
map took: what they wrote, and the state they left. -/
def PointerData.dumps (cfg : Config w) (d : PointerData w) :
    List (Iteration (Word w) (PointerInfoType w)) → List (DumpOut w) × PointerData w
  | [] => ([], d)
  | it :: walks =>
    let r := d.dumpLiveToFile cfg it
    let rest := r.2.dumps cfg walks
    (r.1 :: rest.1, rest.2)

/-- The same header, and the same records: in live mode up to the order of
those of one time. -/
structure SameDump (a b : DumpOut w) : Prop where
  peak : a.peak = b.peak
  hostUse : a.hostUse = b.hostUse
  dmaUse : a.dmaUse = b.dmaUse
  records : a.records.Perm b.records
  times : a.records.map (·.allocTime.micros) = b.records.map (·.allocTime.micros)
  exact_of_peak : a.peak = true → a.records = b.records

theorem SameDump.refl (a : DumpOut w) : SameDump a a := ⟨rfl, rfl, rfl, .refl _, rfl, fun _ => rfl⟩

/-- The dumps all write the same, and the state is what it was. -/
def DumpsObserve (cfg : Config w) (d : PointerData w) (walks : List (Iteration (Word w) (PointerInfoType w))) : Prop :=
  (∀ a ∈ (d.dumps cfg walks).1, ∀ b ∈ (d.dumps cfg walks).1, SameDump a b) ∧ (d.dumps cfg walks).2 = d

/-- The totals of a header do not depend on the order of the records. -/
theorem dumpUse_perm {l l' : List (ListInfoType w)} (h : l.Perm l') : dumpUse l = dumpUse l' := by
  refine h.foldl_eq' (fun a _ b _ use => ?_) _
  by_cases ha : a.memType = .dma <;> by_cases hb : b.memType = .dma <;>
    simp only [ha, hb, if_true, if_false, Prod.mk.injEq, BitVec.add_assoc, true_and, and_true]
  · rw [BitVec.add_comm (_ * _)]
  · rw [BitVec.add_comm (_ * _)]

/-- Two dumps of states that differ in nothing they read write the same. -/
theorem dumpLiveToFile_same (cfg : Config w) (d : PointerData w) (it it' : Iteration (Word w) (PointerInfoType w))
    (hl : d.peakList = []) : SameDump (d.dumpLiveToFile cfg it).1 (d.dumpLiveToFile cfg it').1 := by
  cases hrec : cfg.has RECORD_MEMORY_PEAK with
  | true =>
    simp only [PointerData.dumpLiveToFile, hrec, hl]
    exact .refl _
  | false =>
    have hp : (d.getList it true timePred).Perm (d.getList it' true timePred) :=
      (getList_perm d it true timePred).trans
        ((unsorted_perm d it it' true).trans (getList_perm d it' true timePred).symm)
    simp only [PointerData.dumpLiveToFile, hrec]
    refine ⟨rfl, ?_, ?_, hp, sortBy_ranks timePred_ranked (unsorted_perm d it it' true), fun h => by cases h⟩
    · exact congrArg Prod.fst (dumpUse_perm hp)
    · exact congrArg Prod.snd (dumpUse_perm hp)

theorem dumpLiveToFile_state (cfg : Config w) (d : PointerData w) (it : Iteration (Word w) (PointerInfoType w)) :
    (d.dumpLiveToFile cfg it).2 = { d with peakList := [] } := rfl

/-- Dumps of a state with no list to hand out are dumps of that state. -/
theorem dumps_of_peakList_nil (hl : d.peakList = []) (walks : List (Iteration (Word w) (PointerInfoType w))) :
    d.dumps cfg walks = (walks.map fun it => (d.dumpLiveToFile cfg it).1, d) := by
  have hstate : ({ d with peakList := [] } : PointerData w) = d := by rw [← hl]
  induction walks with
  | nil => rfl
  | cons it walks ih => simp only [PointerData.dumps, dumpLiveToFile_state, hstate, ih, List.map_cons]

/-- After one dump or more there is no list left. -/
theorem dumps_peakList {walks : List (Iteration (Word w) (PointerInfoType w))} (hw : walks ≠ []) :
    (d.dumps cfg walks).2.peakList = [] := by
  cases walks with
  | nil => exact absurd rfl hw
  | cons it walks =>
    have hl : (d.dumpLiveToFile cfg it).2.peakList = [] := rfl
    simp only [PointerData.dumps, dumps_of_peakList_nil hl]
    exact hl

/-- **When dumping is an observation.** However many dumps follow each other
in a reachable state, they all write the same and change nothing if and only
if the tool is in live mode or holds no snapshot. -/
theorem dumps_observe_iff (getenv : Environ) (hd : Reachable (Config.init w getenv) d)
    (walks : List (Iteration (Word w) (PointerInfoType w))) (hw : walks ≠ []) :
    DumpsObserve (Config.init w getenv) d walks ↔
      (Config.init w getenv).has RECORD_MEMORY_PEAK = false ∨ d.peakList = [] := by
  constructor
  · intro hx
    obtain ⟨-, hstate⟩ := hx
    refine .inr ?_
    rw [← hstate]
    exact dumps_peakList hw
  · intro h
    have hl : d.peakList = [] := h.elim (fun hlive => hd.peakList_live (init_backtrace w getenv) hlive) id
    rw [DumpsObserve, dumps_of_peakList_nil hl]
    refine ⟨fun a ha b hb => ?_, rfl⟩
    obtain ⟨it, -, rfl⟩ := List.mem_map.mp ha
    obtain ⟨it', -, rfl⟩ := List.mem_map.mp hb
    exact dumpLiveToFile_same _ d it it' hl

/-- A run is reached by its calls. -/
theorem reachable_run (cfg : Config w) (calls : List (Call w)) : Reachable cfg (PointerData.run cfg calls) := by
  refine ⟨calls.map Op.call, ?_⟩
  rw [List.foldl_map]
  rfl

def byAddress (w : Nat) : Iteration (Word w) (PointerInfoType w) :=
  .ascending BitVec.toNat fun _ _ => BitVec.eq_of_toNat_eq

/-- Two live dumps of two blocks agree. -/
theorem dumps_observe_iff_live :
    DumpsObserve (Config.init 64 ⟨none, none⟩) (PointerData.run (Config.init 64 ⟨none, none⟩) peakOfTwo)
      [byAddress 64, byAddress 64] :=
  (dumps_observe_iff ⟨none, none⟩ (reachable_run _ peakOfTwo) [byAddress 64, byAddress 64] (by simp)).mpr
    (.inl (by decide))

/-- The tool recording peaks above 0 MB, with the two blocks of `peakOfTwo`. -/
def afterPeak : PointerData 64 := PointerData.run (Config.init 64 ⟨none, some ['0']⟩) peakOfTwo

/-- The first dump of the peak takes the list along: the second has no record. -/
theorem peakDump_not_observe :
    ¬ DumpsObserve (Config.init 64 ⟨none, some ['0']⟩) afterPeak [byAddress 64, byAddress 64] := by
  intro hx
  obtain ⟨hsame, -⟩ := hx
  have h := (hsame _ List.mem_cons_self _ (List.mem_cons_of_mem _ List.mem_cons_self)).records.length_eq
  have h₁ : (afterPeak.dumpLiveToFile (Config.init 64 ⟨none, some ['0']⟩) (byAddress 64)).1.records.length = 2 := by
    decide
  rw [h₁] at h
  exact absurd h (by decide)

end AllocHook
