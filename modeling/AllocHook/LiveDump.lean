/-
A dump in live mode, taken while any number of threads add and remove: one
record for each traced entry, in the order of their times.

The time of an entry is read inside the section that writes it. So where the
clock does not go back, the records of two entries of different times stand
in the order in which their `Add`s entered that section. The order of the
sections is not in the state: `Logged` runs keep a log of what was inserted,
and every entry is the last one logged for its pointer (`Logged.latest`).
-/
import AllocHook.Sections
import AllocHook.UniqueList

namespace AllocHook

open FiniteMap SharedStore SortMerge History

variable {w : Nat} {cfg : Config w} {d : PointerData w} {Tid : Type*} [DecidableEq Tid]

/-! ## The order of the sections -/

/-- An entry as it was written, with its pointer. -/
structure Insertion (w : Nat) where
  ptr : Word w
  entry : PointerInfoType w

/-- What a section of a thread inserts. -/
def insertions : Progress w → Section w → List (Insertion w)
  | .inserting env ptr size type hashIndex, .insertPointer =>
    [{ ptr, entry := { size, hashIndex, memType := type, allocTime := env.now } }]
  | _, _ => []

/-- Sections of any threads in any order, with what they inserted, the
earliest first. -/
inductive Logged (cfg : Config w) : List (Insertion w) → Sections Tid w → Prop
  | init : Logged cfg [] (Sections.init Tid w)
  | step {log s t sec s'} (hs : Logged cfg log s) (h : Step cfg s t sec s') :
    Logged cfg (log ++ insertions (s.threads t) sec) s'

theorem Logged.interleaved {log : List (Insertion w)} {s : Sections Tid w} (h : Logged cfg log s) :
    Interleaved cfg s := by
  induction h with
  | init => exact .init
  | step _ h ih => exact ih.step h

/-- Every reachable state is one of a logged run. -/
theorem Interleaved.logged {s : Sections Tid w} (h : Interleaved cfg s) : ∃ log, Logged cfg log s := by
  induction h with
  | init => exact ⟨[], .init⟩
  | step _ h ih =>
    obtain ⟨log, hlog⟩ := ih
    exact ⟨_, hlog.step h⟩

/-- An entry is the last one written for its pointer. -/
theorem Logged.latest {log : List (Insertion w)} {s : Sections Tid w} (hs : Logged cfg log s) {ptr : Word w}
    {e : PointerInfoType w} (hk : s.data.pointers.lookup (manglePointer ptr) = some e) :
    ∃ i, Latest Insertion.ptr log i ⟨ptr, e⟩ := by
  induction hs generalizing e with
  | init => simp [Sections.init, PointerData.initialized] at hk
  | @step log s t sec s' hs h ih =>
    cases sec with
    | insertPointer =>
      obtain ⟨env, ptr', size, type, hashIndex, hat, hp, -⟩ := h.of_insertPointer
      rw [hp, lookup_insert_eq] at hk
      rw [hat, insertions]
      split at hk
      · next hq =>
        cases hk
        rw [mangle_inj] at hq
        subst hq
        exact ⟨log.length, latest_concat_self ..⟩
      · next hq =>
        obtain ⟨i, hi⟩ := ih hk
        exact ⟨i, hi.concat fun he => hq (congrArg manglePointer he.symm)⟩
    | addBacktrace env ptr' size type =>
      rw [h.of_addBacktrace.1] at hk
      simpa [insertions] using ih hk
    | takeSnapshot =>
      obtain ⟨-, -, hp, -⟩ := h.of_takeSnapshot
      rw [hp] at hk
      simpa [insertions] using ih hk
    | erasePointer ptr' =>
      rw [h.of_erasePointer.1, lookup_erase_eq] at hk
      split at hk
      · cases hk
      · simpa [insertions] using ih hk
    | removeBacktrace =>
      obtain ⟨-, -, hp, -⟩ := h.of_removeBacktrace
      rw [hp] at hk
      simpa [insertions] using ih hk
    | dump it =>
      cases h with
      | dump _ hidle hfree => simpa [insertions] using ih hk

/-! ## The clock -/

/-- What `gettimeofday` read in the sections of a run: times with less than a
second of microseconds, none before an earlier one. -/
structure Clock (log : List (Insertion w)) : Prop where
  usec : ∀ x ∈ log, 0 ≤ x.entry.allocTime.tvUsec ∧ x.entry.allocTime.tvUsec < 1000000
  monotone : log.Pairwise fun x y => x.entry.allocTime.micros ≤ y.entry.allocTime.micros

theorem micros_inj {a b : Timeval} (ha : 0 ≤ a.tvUsec ∧ a.tvUsec < 1000000) (hb : 0 ≤ b.tvUsec ∧ b.tvUsec < 1000000)
    (h : a.micros = b.micros) : a = b := by
  obtain ⟨asec, ausec⟩ := a
  obtain ⟨bsec, busec⟩ := b
  simp only [Timeval.micros] at *
  simp only [Timeval.mk.injEq]
  omega

/-- Of two insertions of different times the earlier has the lesser. -/
theorem Clock.lt {log : List (Insertion w)} (hc : Clock log) {x y : Insertion w} {i j : ℕ}
    (hx : Latest Insertion.ptr log i x) (hy : Latest Insertion.ptr log j y) (hij : i < j)
    (hne : x.entry.allocTime ≠ y.entry.allocTime) : x.entry.allocTime.micros < y.entry.allocTime.micros :=
  lt_of_le_of_ne (hx.of_pairwise hc.monotone hy hij) fun h => hne (micros_inj (hc.usec x hx.mem) (hc.usec y hy.mem) h)

/-! ## The records -/

section Records

variable {it : Iteration (Word w) (PointerInfoType w)}

theorem dumpLiveToFile_records (hlive : cfg.has RECORD_MEMORY_PEAK = false) :
    (d.dumpLiveToFile cfg it).1.records = d.getList it true timePred := by
  simp only [PointerData.dumpLiveToFile, hlive, Bool.not_false, if_true]
  rfl

theorem timeList_sorted (d : PointerData w) (it : Iteration (Word w) (PointerInfoType w)) :
    (d.getList it true timePred).Pairwise fun x y => x.allocTime.micros ≤ y.allocTime.micros :=
  sortBy_pairwise timePred_ranked _

/-- The records of a pointer: one, of its entry. -/
theorem timeList_filter {ptr : Word w} {e : PointerInfoType w} (he : d.TracedAt ptr e) :
    (d.getList it true timePred).filter (fun x => x.pointer = ptr) = [d.record ptr e] := by
  have hnodup : (d.getList it true timePred).Nodup :=
    (getList_perm d it true timePred).nodup_iff.mpr (unsorted_nodup d it true)
  have hext := List.perm_ext_iff_of_nodup (hnodup.filter fun x => x.pointer = ptr)
    (List.nodup_singleton (d.record ptr e))
  refine List.perm_singleton.mp (hext.mpr fun x => ?_)
  rw [List.mem_filter, mem_getList, List.mem_singleton, decide_eq_true_eq]
  constructor
  · intro h
    obtain ⟨⟨p, a, ha, rfl⟩, hp⟩ := h
    rw [record_pointer] at hp
    subst hp
    rw [Option.some.inj (ha.1.symm.trans he.1)]
  · rintro rfl
    exact ⟨⟨ptr, e, he, rfl⟩, record_pointer ptr e⟩

end Records

/-- The record of an entry: its address, size, type and time, and the stack
its `Add` captured, as `frames_` and as the dump prints it. -/
structure LiveRecord (s : Sections Tid w) (ptr : Word w) (e : PointerInfoType w) (x : ListInfoType w) : Prop where
  pointer : x.pointer = ptr
  numAllocations : x.numAllocations = 1
  size : x.size = e.realSize
  memType : x.memType = e.memType
  allocTime : x.allocTime = e.allocTime
  stack : ∃ a references frames info, s.captured.lookup (manglePointer ptr) = some a ∧
    a.memType = e.memType ∧ a.allocTime = e.allocTime ∧ a.stack = some frames ∧
    x.frameInfo = some e.hashIndex ∧ s.data.frames.lookup e.hashIndex = some { references, frames } ∧
    x.backtraceInfo = some info ∧ pcs w info = frames

omit [DecidableEq Tid] in
theorem Attributed.liveRecord [Fintype Tid] {s : Sections Tid w} (ha : Attributed cfg s) {ptr : Word w}
    {e : PointerInfoType w} (he : s.data.TracedAt ptr e) : LiveRecord s ptr e (s.data.record ptr e) := by
  obtain ⟨L, hc⟩ := ha.charged
  obtain ⟨r, frames, info, hf, hi, hp⟩ := hc.lookup (mem_references _ he.1 he.2)
  refine ⟨record_pointer ptr e, rfl, rfl, rfl, rfl, s.data.live e, r, frames, info, ?_, rfl, rfl,
    stackAt_of_lookup he.2 hf, hc.record_frameInfo he, hf, hi, hp⟩
  rw [ha.shows, he.1, Option.map_some]

/-- **The live dump is complete and in the order of time**: in every state of
every run in live mode it has one record for each traced entry and none
besides, sorted by time; and where the clock has not gone back, of two
entries of different times the one whose `Add` came first to the section
comes first. -/
theorem live_dump [Fintype Tid] (getenv : Environ)
    (hlive : (Config.init w getenv).has RECORD_MEMORY_PEAK = false) {log : List (Insertion w)} {s : Sections Tid w}
    (hs : Logged (Config.init w getenv) log s) (it : Iteration (Word w) (PointerInfoType w)) :
    let out := (s.data.dumpLiveToFile (Config.init w getenv) it).1.records
    (∀ ptr e, s.data.TracedAt ptr e → out.filter (fun x => x.pointer = ptr) = [s.data.record ptr e] ∧
      LiveRecord s ptr e (s.data.record ptr e)) ∧
    (∀ x ∈ out, ∃ e, s.data.TracedAt x.pointer e) ∧
    (out.Pairwise fun x y => x.allocTime.micros ≤ y.allocTime.micros) ∧
    (∀ ptr e, s.data.TracedAt ptr e → ∃ i, Latest Insertion.ptr log i ⟨ptr, e⟩) ∧
    (Clock log → ∀ p q a b i j, s.data.TracedAt p a → s.data.TracedAt q b → a.allocTime ≠ b.allocTime →
      Latest Insertion.ptr log i ⟨p, a⟩ → Latest Insertion.ptr log j ⟨q, b⟩ → i < j →
        [s.data.record p a, s.data.record q b].Sublist out) := by
  intro out
  have ha := hs.interleaved.attributed (init_backtrace w getenv)
  have hout : out = s.data.getList it true timePred := dumpLiveToFile_records hlive
  rw [hout]
  refine ⟨fun ptr e he => ⟨timeList_filter he, ha.liveRecord he⟩, fun x hx => ?_, timeList_sorted s.data it,
    fun ptr e he => hs.latest he.1, fun hclock p q a b i j hp hq hne hi hj hij => ?_⟩
  · obtain ⟨p, a, hpa, rfl⟩ := mem_getList.mp hx
    exact ⟨a, by rwa [record_pointer]⟩
  · exact pair_sublist (timeList_sorted s.data it) (mem_getList.mpr ⟨p, a, hp, rfl⟩) (mem_getList.mpr ⟨q, b, hq, rfl⟩)
      (hclock.lt hi hj hij hne)

/-- The second thread captures its stack first and writes its entry last. -/
theorem live_dump_overtaken : ∃ (log : List (Insertion 64)) (s : Sections (Fin 2) 64),
    Logged (Config.init 64 ⟨none, none⟩) log s ∧ ∃ a b, s.data.TracedAt 0x7f0000000000 a ∧
      s.data.TracedAt 0x7f0000001000 b ∧
      [s.data.record 0x7f0000000000 a, s.data.record 0x7f0000001000 b].Sublist
        (s.data.dumpLiveToFile (Config.init 64 ⟨none, none⟩)
          (.ascending BitVec.toNat fun _ _ => BitVec.eq_of_toNat_eq)).1.records := by
  have h₁ : Logged (Config.init 64 ⟨none, none⟩) _ _ :=
    Logged.init.step (.addBacktrace (t := (1 : Fin 2)) (.single 64 0x1000 2) 0x7f0000001000 4096 .host rfl)
  have h₂ := h₁.step (.addBacktrace (t := (0 : Fin 2)) (.single 64 0x1000 1) 0x7f0000000000 4096 .host rfl)
  have h₃ := h₂.step (.insertPointer (t := 0) rfl (by unfold Sections.PointerFree; decide))
  have h₄ := h₃.step (.insertPointer (t := 1) rfl (by unfold Sections.PointerFree; decide))
  have hlog : Logged (Config.init 64 ⟨none, none⟩) [⟨0x7f0000000000, ⟨4096, 2, .host, ⟨1, 0⟩⟩⟩,
    ⟨0x7f0000001000, ⟨4096, 2, .host, ⟨2, 0⟩⟩⟩] _ := h₄
  have hd := (live_dump ⟨none, none⟩ (by decide) hlog
    (.ascending BitVec.toNat fun _ _ => BitVec.eq_of_toNat_eq)).2.2.2.2
  refine ⟨_, _, hlog, _, _, ?p, ?q, hd ⟨by simp, by simp [Timeval.micros]⟩ _ _ _ _ 0 1 ?p ?q ?_
    ((latest_concat_self _ [] _).concat ?_) (latest_concat_self _ [_] _) (by decide)⟩
  case p => exact ⟨rfl, by decide⟩
  case q => exact ⟨rfl, by decide⟩
  · decide
  · decide

end AllocHook
