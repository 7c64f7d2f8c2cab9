/-
The stack tables as they lie in memory. A `FrameKeyType` is a length and a
pointer. The pointer of a key in `key_to_index_` is to the buffer of the
vector in `frames_` under the key's index: the table compares keys through
memory that another table owns and frees.

`StackMemory` has the buffers, the nodes of the table with the hash each
keeps, and the vectors; a read outside of a live buffer is `none`. In every
run it stands for the tables of `PointerData` (`Backs`), where a key is the
sequence it points to, and the one read that fails is the first word of an
empty stack (`stackMemory_fails_iff`).
-/
import AllocHook.StackIndex

namespace AllocHook

open FiniteMap SharedStore

variable {w : Nat} {cfg : Config w}

/-- A node of `key_to_index_`. -/
structure KeyNode (w : Nat) where
  numFrames : ℕ
  frames : ℕ
  hash : Word w
  hashIndex : ℕ
  deriving DecidableEq

/-- A `FrameInfoType`: `data` and `size` are those of its vector. -/
structure FrameNode where
  references : ℕ := 0
  data : ℕ := 0
  size : ℕ := 0
  deriving DecidableEq

structure StackMemory (w : Nat) where
  heap : Map ℕ (List (Word w))
  keyToIndex : List (KeyNode w)
  frames : Map ℕ FrameNode
  curHashIndex : ℕ

/-- After `PointerData::Initialize`. -/
def StackMemory.initialized (w : Nat) : StackMemory w :=
  { heap := ∅, keyToIndex := [], frames := ∅, curHashIndex := kBacktraceEmptyIndex + 1 }

/-- The words of a key. -/
def StackMemory.read (m : StackMemory w) (frames numFrames : ℕ) : Option (FrameKeyType w) :=
  match m.heap.lookup frames with
  | none => none
  | some buffer => if numFrames ≤ buffer.length then some (buffer.take numFrames) else none

/-- `unordered_map::find` among some nodes: the kept hashes are compared
first, then `operator==` reads the node's buffer. -/
def StackMemory.find (m : StackMemory w) (hash : Word w) (key : FrameKeyType w) :
    List (KeyNode w) → Option (Option (KeyNode w))
  | [] => some none
  | node :: nodes =>
    if node.hash = hash ∧ node.numFrames = key.length then
      match m.read node.frames node.numFrames with
      | none => none
      | some comp => if FrameKeyType.equal comp key then some (some node) else m.find hash key nodes
    else m.find hash key nodes

/-- The lookup of the key of a vector. -/
def StackMemory.findKey (m : StackMemory w) (data size : ℕ) : Option (Word w × Option (KeyNode w)) :=
  match m.read data size with
  | none => none
  | some key =>
    match FrameKeyType.hash key with
    | none => none
    | some hash => (m.find hash key m.keyToIndex).map fun entry => (hash, entry)

/-- `AddBacktrace` under `frame_mutex_`, its vector `frames` at `data`. -/
def StackMemory.addFrames (data : ℕ) (frames : List (Word w)) (m : StackMemory w) : Option (ℕ × StackMemory w) :=
  let m := { m with heap := m.heap.insert data frames }
  (m.findKey data frames.length).map fun r =>
    match r.2 with
    | none =>
      let hashIndex := m.curHashIndex
      (hashIndex,
        { curHashIndex := m.curHashIndex + 1
          keyToIndex := { numFrames := frames.length, frames := data, hash := r.1, hashIndex } :: m.keyToIndex
          -- The buffer moves into the entry, if `emplace` makes one.
          frames := emplace m.frames hashIndex { references := 1, data, size := frames.length }
          heap := if hashIndex ∈ m.frames then m.heap.erase data else m.heap })
    | some node =>
      let frameInfo := (m.frames.lookup node.hashIndex).getD {}
      (node.hashIndex,
        { m with
          frames := m.frames.insert node.hashIndex { frameInfo with references := frameInfo.references + 1 }
          heap := m.heap.erase data })

/-- `AddBacktrace`. -/
def StackMemory.addBacktrace (cfg : Config w) (env : AddEnv w) (sizeBytes : Word w) (data : ℕ) (m : StackMemory w) :
    Option (ℕ × StackMemory w) :=
  match capture cfg env sizeBytes with
  | .exit => some (kBacktraceExitIndex, m)
  | .empty => some (kBacktraceEmptyIndex, m)
  | .stack frames _ => m.addFrames data frames

/-- `RemoveBacktrace`. -/
def StackMemory.removeBacktrace (hashIndex : ℕ) (m : StackMemory w) : Option (StackMemory w) :=
  if hashIndex ≤ kBacktraceEmptyIndex then some m
  else
    match m.frames.lookup hashIndex with
    | none => some m
    | some frameInfo =>
      let references := frameInfo.references - 1
      if references = 0 then
        (m.findKey frameInfo.data frameInfo.size).map fun r =>
          { m with
            keyToIndex := r.2.elim m.keyToIndex m.keyToIndex.erase
            frames := m.frames.erase hashIndex
            heap := m.heap.erase frameInfo.data }
      else some { m with frames := m.frames.insert hashIndex { frameInfo with references } }

/-! ## The search -/

/-- The node holds this key, and its hash. -/
structure KeyNode.Holds (m : StackMemory w) (node : KeyNode w) (key : FrameKeyType w) : Prop where
  read : m.read node.frames node.numFrames = some key
  length : node.numFrames = key.length
  hash : FrameKeyType.hash key = some node.hash

theorem KeyNode.Holds.unique {m : StackMemory w} {node : KeyNode w} {key key' : FrameKeyType w}
    (h : node.Holds m key) (h' : node.Holds m key') : key = key' :=
  Option.some.inj (h.read.symm.trans h'.read)

/-- What a search for `key` finds among some nodes. -/
structure Found (m : StackMemory w) (key : FrameKeyType w) (nodes : List (KeyNode w))
    (entry : Option (KeyNode w)) : Prop where
  some : ∀ node, entry = some node → node ∈ nodes ∧ node.Holds m key
  none : entry = none → ∀ node ∈ nodes, ¬ node.Holds m key

theorem Found.cons {m : StackMemory w} {key : FrameKeyType w} {nodes : List (KeyNode w)}
    {entry : Option (KeyNode w)} (h : Found m key nodes entry) {node : KeyNode w} (hn : ¬ node.Holds m key) :
    Found m key (node :: nodes) entry := by
  refine ⟨fun n he => ⟨List.mem_cons_of_mem _ (h.some n he).1, (h.some n he).2⟩, fun he n hm => ?_⟩
  rcases List.mem_cons.mp hm with rfl | hm
  · exact hn
  · exact h.none he n hm

/-- Where every node can be read the search reads no other memory, and leaves
out no node that has the key: equal keys have one hash. -/
theorem find_found {m : StackMemory w} {key : FrameKeyType w} {hash : Word w} (hh : FrameKeyType.hash key = some hash) :
    ∀ nodes : List (KeyNode w), (∀ node ∈ nodes, ∃ key, node.Holds m key) →
      ∃ entry, m.find hash key nodes = some entry ∧ Found m key nodes entry
  | [], _ => ⟨none, rfl, fun node h => (by cases h), fun _ node h => (by cases h)⟩
  | node :: nodes, hall => by
    obtain ⟨k, hk⟩ := hall node List.mem_cons_self
    obtain ⟨entry, hfind, hfound⟩ := find_found hh nodes fun n hn => hall n (List.mem_cons_of_mem _ hn)
    rw [StackMemory.find]
    by_cases hcond : node.hash = hash ∧ node.numFrames = key.length
    · rw [if_pos hcond, hk.read]
      dsimp only
      by_cases heq : FrameKeyType.equal k key = true
      · obtain rfl := equal_iff.mp heq
        rw [if_pos heq]
        refine ⟨some node, rfl, fun n hn => ?_, fun hn => by cases hn⟩
        cases hn
        exact ⟨List.mem_cons_self, hk⟩
      · rw [if_neg heq]
        exact ⟨entry, hfind, hfound.cons fun h => heq (equal_iff.mpr (hk.unique h))⟩
    · rw [if_neg hcond]
      refine ⟨entry, hfind, hfound.cons fun h => hcond ⟨?_, h.length⟩⟩
      exact Option.some.inj (h.hash.symm.trans hh)

theorem read_of_lookup {m : StackMemory w} {data : ℕ} {key : FrameKeyType w} (h : m.heap.lookup data = some key) :
    m.read data key.length = some key := by
  rw [StackMemory.read, h]
  simp

/-! ## The tables the memory stands for -/

/-- The memory stands for the stack tables of `d`: a vector for each stack,
in a buffer of its own, and a node for each vector, whose key is that
vector's buffer. -/
structure Backs (m : StackMemory w) (d : PointerData w) : Prop where
  next : m.curHashIndex = d.curHashIndex
  vector : ∀ {h r key}, d.frames.lookup h = some { references := r, frames := key } → key ≠ [] ∧
    ∃ data, m.frames.lookup h = some { references := r, data, size := key.length } ∧ m.heap.lookup data = some key
  absent : ∀ {h}, d.frames.lookup h = none → m.frames.lookup h = none
  owner : ∀ {h h' n n'}, m.frames.lookup h = some n → m.frames.lookup h' = some n' → n.data = n'.data → h = h'
  node : ∀ {node}, node ∈ m.keyToIndex → ∃ r key,
    d.frames.lookup node.hashIndex = some { references := r, frames := key } ∧
    m.frames.lookup node.hashIndex = some { references := r, data := node.frames, size := node.numFrames } ∧
    FrameKeyType.hash key = some node.hash
  indexed : ∀ {h r key}, d.frames.lookup h = some { references := r, frames := key } →
    ∃ node ∈ m.keyToIndex, node.hashIndex = h
  nodup : (m.keyToIndex.map KeyNode.hashIndex).Nodup

variable {m : StackMemory w} {d : PointerData w}

theorem Backs.initialized : Backs (StackMemory.initialized w) (PointerData.initialized w) := by
  constructor <;> simp [StackMemory.initialized, PointerData.initialized]

theorem Backs.congr (hm : Backs m d) {d' : PointerData w} (hf : d'.frames = d.frames)
    (hc : d'.curHashIndex = d.curHashIndex) : Backs m d' := by
  obtain ⟨h1, h2, h3, h4, h5, h6, h7⟩ := hm
  rw [← hc] at h1
  simp only [← hf] at h2 h3 h5 h6
  exact ⟨h1, h2, h3, h4, h5, h6, h7⟩

theorem Backs.of_sameStacks (hm : Backs m d) {d' : PointerData w} (hd : SameStacks d d') : Backs m d' :=
  hm.congr hd.frames hd.curHashIndex

/-- A vector's buffer is live. -/
theorem Backs.live (hm : Backs m d) {h : ℕ} {n : FrameNode} (hn : m.frames.lookup h = some n) :
    m.heap.lookup n.data ≠ none := by
  cases e : d.frames.lookup h with
  | none => rw [hm.absent e] at hn; cases hn
  | some frameInfo =>
    obtain ⟨-, data, e', hd⟩ := hm.vector e
    rw [hn, Option.some.injEq] at e'
    subst e'
    rw [hd]
    simp

/-- The heap may change where no vector is. -/
theorem Backs.of_heap (hm : Backs m d) {heap : Map ℕ (List (Word w))}
    (hh : ∀ data, m.heap.lookup data ≠ none → heap.lookup data = m.heap.lookup data) : Backs { m with heap } d := by
  refine ⟨hm.next, fun e => ?_, hm.absent, hm.owner, hm.node, hm.indexed, hm.nodup⟩
  obtain ⟨hne, data, hf, hd⟩ := hm.vector e
  exact ⟨hne, data, hf, by rw [hh data (by rw [hd]; simp), hd]⟩

/-- A node holds the stack under its index. -/
theorem Backs.holds (hm : Backs m d) {node : KeyNode w} (hn : node ∈ m.keyToIndex) :
    ∃ r key, d.frames.lookup node.hashIndex = some { references := r, frames := key } ∧ node.Holds m key := by
  obtain ⟨r, key, e, hf, hh⟩ := hm.node hn
  obtain ⟨-, data, hf', hd⟩ := hm.vector e
  rw [hf, Option.some.injEq, FrameNode.mk.injEq] at hf'
  obtain ⟨-, rfl, hsize⟩ := hf'
  exact ⟨r, key, e, by rw [hsize]; exact read_of_lookup hd, hsize, hh⟩

/-- The lookup of a key in live memory reads live memory only, and finds what
`key_to_index_` has for the sequence. -/
theorem Backs.findKey (hm : Backs m d) (hc : CanonicalIndex d) {data : ℕ} {key : FrameKeyType w} (hne : key ≠ [])
    (hd : m.heap.lookup data = some key) :
    ∃ hash entry, m.findKey data key.length = some (hash, entry) ∧ FrameKeyType.hash key = some hash ∧
      d.keyToIndex.lookup key = entry.map KeyNode.hashIndex ∧ ∀ node, entry = some node → node ∈ m.keyToIndex := by
  obtain ⟨hash, hh⟩ := Option.ne_none_iff_exists'.mp (mt hash_eq_none_iff.mp hne)
  have hall : ∀ node ∈ m.keyToIndex, ∃ key, node.Holds m key := fun node hn => by
    obtain ⟨r, k, -, hk⟩ := hm.holds hn
    exact ⟨k, hk⟩
  obtain ⟨entry, hfind, hfound⟩ := find_found hh m.keyToIndex hall
  refine ⟨hash, entry, ?_, hh, ?_, fun node he => (hfound.some node he).1⟩
  · rw [StackMemory.findKey, read_of_lookup hd]
    dsimp only
    rw [hh]
    dsimp only
    rw [hfind, Option.map_some]
  · cases entry with
    | some node =>
      obtain ⟨hmem, hholds⟩ := hfound.some node rfl
      obtain ⟨r, k, e, hk⟩ := hm.holds hmem
      rw [hk.unique hholds] at e
      exact (hc.inverse key node.hashIndex).mpr ⟨r, e⟩
    | none =>
      rw [Option.map_none]
      by_contra hx
      obtain ⟨h, e⟩ := Option.ne_none_iff_exists'.mp hx
      obtain ⟨r, ef⟩ := (hc.inverse key h).mp e
      obtain ⟨node, hmem, rfl⟩ := hm.indexed ef
      obtain ⟨r', k, e', hk⟩ := hm.holds hmem
      rw [ef, Option.some.injEq, FrameInfoType.mk.injEq] at e'
      obtain ⟨-, rfl⟩ := e'
      exact hfound.none rfl node hmem hk

/-! ## The operations -/

/-- A vector recounted. -/
theorem Backs.recount (hm : Backs m d) {h r data size : ℕ} {key : FrameKeyType w} (r' : ℕ)
    (e : d.frames.lookup h = some { references := r, frames := key })
    (en : m.frames.lookup h = some { references := r, data, size }) :
    Backs { m with frames := m.frames.insert h { references := r', data, size } }
      { d with frames := d.frames.insert h { references := r', frames := key } } := by
  refine ⟨hm.next, fun {h' r₁ k₁} ef => ?_, fun {h'} ef => ?_, fun {h₁ h₂ n n'} e₁ e₂ hd => ?_, fun {node} hn => ?_,
    fun {h' r₁ k₁} ef => ?_, hm.nodup⟩
  · dsimp only at ef ⊢
    rw [lookup_insert_eq] at ef ⊢
    split at ef
    · next hq =>
      cases ef
      obtain ⟨hne, data', e', hd⟩ := hm.vector e
      rw [en, Option.some.injEq, FrameNode.mk.injEq] at e'
      obtain ⟨-, rfl, rfl⟩ := e'
      exact ⟨hne, data, if_pos hq, hd⟩
    · next hq =>
      rw [if_neg hq]
      exact hm.vector ef
  · dsimp only at ef ⊢
    rw [lookup_insert_eq] at ef ⊢
    split at ef
    · cases ef
    · next hq =>
      rw [if_neg hq]
      exact hm.absent ef
  · -- A recounted vector keeps its buffer.
    have old : ∀ {i n}, (m.frames.insert h { references := r', data, size }).lookup i = some n →
        ∃ n', m.frames.lookup i = some n' ∧ n'.data = n.data := by
      intro i n hi
      rw [lookup_insert_eq] at hi
      split at hi
      · next hq =>
        cases hi
        exact ⟨{ references := r, data, size }, by rw [hq, en], rfl⟩
      · exact ⟨n, hi, rfl⟩
    obtain ⟨n₁, e₁, hd₁⟩ := old e₁
    obtain ⟨n₂, e₂, hd₂⟩ := old e₂
    exact hm.owner e₁ e₂ (by rw [hd₁, hd₂, hd])
  · obtain ⟨r₀, k, ef, en', hh⟩ := hm.node hn
    dsimp only
    rw [lookup_insert_eq, lookup_insert_eq]
    split
    · next hq =>
      rw [hq, e, Option.some.injEq, FrameInfoType.mk.injEq] at ef
      rw [hq, en, Option.some.injEq, FrameNode.mk.injEq] at en'
      obtain ⟨-, rfl⟩ := ef
      obtain ⟨-, rfl, rfl⟩ := en'
      exact ⟨r', key, rfl, rfl, hh⟩
    · exact ⟨r₀, k, ef, en', hh⟩
  · dsimp only at ef
    rw [lookup_insert_eq] at ef
    split at ef
    · next hq =>
      rw [hq]
      exact hm.indexed e
    · exact hm.indexed ef

/-- A vector moved into `frames_` under a new index, and a node with its key. -/
theorem Backs.fresh (hm : Backs m d) (hc : CanonicalIndex d) {data : ℕ} {key : FrameKeyType w} {hash : Word w}
    (hne : key ≠ []) (hfree : m.heap.lookup data = none) (hh : FrameKeyType.hash key = some hash) :
    Backs
      { curHashIndex := m.curHashIndex + 1
        keyToIndex := { numFrames := key.length, frames := data, hash, hashIndex := m.curHashIndex } :: m.keyToIndex
        frames := m.frames.insert m.curHashIndex { references := 1, data, size := key.length }
        heap := m.heap.insert data key }
      { d with
        curHashIndex := d.curHashIndex + 1
        frames := d.frames.insert d.curHashIndex { references := 1, frames := key } } := by
  -- Nothing is stored under the new index, nor in the new buffer.
  have hcur := hc.next_absent
  have hne_data : ∀ {h n}, m.frames.lookup h = some n → n.data ≠ data := by
    rintro h n hn rfl
    exact hm.live hn hfree
  rw [hm.next]
  refine ⟨rfl, fun {h' r₁ k₁} ef => ?_, fun {h'} ef => ?_, fun {h₁ h₂ n n'} e₁ e₂ hd => ?_, fun {node} hn => ?_,
    fun {h' r₁ k₁} ef => ?_, ?_⟩
  · dsimp only at ef ⊢
    rw [lookup_insert_eq] at ef ⊢
    split at ef
    · next hq =>
      cases ef
      exact ⟨hne, data, if_pos hq, by rw [lookup_insert_eq, if_pos rfl]⟩
    · next hq =>
      obtain ⟨hne', data', e', hd⟩ := hm.vector ef
      exact ⟨hne', data', by rw [if_neg hq, e'], by rw [lookup_insert_eq, if_neg (hne_data e'), hd]⟩
  · dsimp only at ef ⊢
    rw [lookup_insert_eq] at ef ⊢
    split at ef
    · cases ef
    · next hq =>
      rw [if_neg hq]
      exact hm.absent ef
  · dsimp only at e₁ e₂
    rw [lookup_insert_eq] at e₁ e₂
    split at e₁
    · next hq₁ =>
      cases e₁
      split at e₂
      · next hq₂ => rw [hq₁, hq₂]
      · exact absurd hd.symm (hne_data e₂)
    · split at e₂
      · cases e₂
        exact absurd hd (hne_data e₁)
      · exact hm.owner e₁ e₂ hd
  · dsimp only
    rw [lookup_insert_eq, lookup_insert_eq]
    rcases List.mem_cons.mp hn with rfl | hn
    · exact ⟨1, key, if_pos rfl, if_pos rfl, hh⟩
    · obtain ⟨r, k, ef, en, hk⟩ := hm.node hn
      have hq : node.hashIndex ≠ d.curHashIndex := by
        intro hq
        rw [hq, hcur] at ef
        cases ef
      exact ⟨r, k, by rw [if_neg hq, ef], by rw [if_neg hq, en], hk⟩
  · dsimp only at ef
    rw [lookup_insert_eq] at ef
    split at ef
    · next hq => exact ⟨_, List.mem_cons_self, hq.symm⟩
    · obtain ⟨node, hn, hi⟩ := hm.indexed ef
      exact ⟨node, List.mem_cons_of_mem _ hn, hi⟩
  · rw [List.map_cons, List.nodup_cons]
    refine ⟨fun hx => ?_, hm.nodup⟩
    obtain ⟨node, hn, hi⟩ := List.mem_map.mp hx
    obtain ⟨r, k, ef, -, -⟩ := hm.node hn
    rw [hi, hcur] at ef
    cases ef

/-- A vector freed, after the node with its key. -/
theorem Backs.drop (hm : Backs m d) {h r data size : ℕ} {node : KeyNode w}
    (en : m.frames.lookup h = some { references := r, data, size }) (hn : node ∈ m.keyToIndex)
    (hi : node.hashIndex = h) :
    Backs { m with keyToIndex := m.keyToIndex.erase node, frames := m.frames.erase h, heap := m.heap.erase data }
      { d with frames := d.frames.erase h } := by
  have hother : ∀ {n}, n ∈ m.keyToIndex.erase node → n ∈ m.keyToIndex ∧ n.hashIndex ≠ h := by
    intro n hm'
    obtain ⟨hne, hmem⟩ := (hm.nodup.of_map _).mem_erase_iff.mp hm'
    refine ⟨hmem, fun hq => hne ?_⟩
    exact List.inj_on_of_nodup_map hm.nodup hmem hn (hq.trans hi.symm)
  refine ⟨hm.next, fun {h' r₁ k₁} ef => ?_, fun {h'} ef => ?_, fun {h₁ h₂ n n'} e₁ e₂ hd => ?_, fun {n} hn' => ?_,
    fun {h' r₁ k₁} ef => ?_, hm.nodup.sublist (List.erase_sublist.map _)⟩
  · dsimp only at ef ⊢
    rw [lookup_erase_eq] at ef ⊢
    split at ef
    · cases ef
    · next hq =>
      obtain ⟨hne, data', e', hd⟩ := hm.vector ef
      have hdata : data' ≠ data := fun he => hq (hm.owner e' en he)
      exact ⟨hne, data', by rw [if_neg hq, e'], by rw [lookup_erase_eq, if_neg hdata, hd]⟩
  · dsimp only at ef ⊢
    rw [lookup_erase_eq] at ef ⊢
    split at ef
    · next hq => rw [if_pos hq]
    · next hq =>
      rw [if_neg hq]
      exact hm.absent ef
  · dsimp only at e₁ e₂
    rw [lookup_erase_eq] at e₁ e₂
    split at e₁
    · cases e₁
    split at e₂
    · cases e₂
    · exact hm.owner e₁ e₂ hd
  · obtain ⟨hmem, hne⟩ := hother hn'
    obtain ⟨r₀, k, ef, en', hk⟩ := hm.node hmem
    exact ⟨r₀, k, by rw [lookup_erase_eq, if_neg hne, ef], by rw [lookup_erase_eq, if_neg hne, en'], hk⟩
  · dsimp only at ef
    rw [lookup_erase_eq] at ef
    split at ef
    · cases ef
    · next hq =>
      obtain ⟨n, hmem, rfl⟩ := hm.indexed ef
      have hne : n ≠ node := fun he => hq (by rw [he, hi])
      exact ⟨n, (List.mem_erase_of_ne hne).mpr hmem, rfl⟩

variable {H : Multiset ℕ}

/-- `AddBacktrace` under the lock, with a stack that is not empty. -/
theorem Backs.addFrames (hm : Backs m d) (hs : StackHeld d H) {data : ℕ} (hfree : m.heap.lookup data = none)
    {frames : List (Word w)} (hne : frames ≠ []) (info : List FrameData) :
    ∃ m', m.addFrames data frames = some ((d.addFrames cfg frames info).1, m') ∧
      Backs m' (d.addFrames cfg frames info).2 := by
  have hc := hs.canonical
  have hkeeps : ∀ a, m.heap.lookup a ≠ none → (m.heap.insert data frames).lookup a = m.heap.lookup a := by
    intro a ha
    rw [lookup_insert_eq, if_neg]
    rintro rfl
    exact ha hfree
  have hm₁ := hm.of_heap hkeeps
  have hd : (m.heap.insert data frames).lookup data = some frames := Finmap.lookup_insert m.heap
  obtain ⟨hash, entry, hfind, hh, hindex, hmem⟩ := hm₁.findKey hc hne hd
  unfold StackMemory.addFrames
  dsimp only
  rw [hfind, Option.map_some]
  cases entry with
  | none =>
    have hcur := hc.next_absent
    have hcur' : m.frames.lookup m.curHashIndex = none := by
      rw [hm.next]
      exact hm.absent hcur
    have hmem : m.curHashIndex ∉ m.frames := Finmap.lookup_eq_none.mp hcur'
    simp only [PointerData.addFrames, hindex, Option.map_none, if_neg hmem, emplace_of_notMem hcur',
      emplace_of_notMem hcur]
    refine ⟨_, by rw [hm.next], ?_⟩
    have hfresh := hm.fresh hc hne hfree hh
    rw [hm.next] at hfresh
    exact hfresh.congr rfl rfl
  | some node =>
    have hfree' : ∀ a, m.heap.lookup a ≠ none →
        ((m.heap.insert data frames).erase data).lookup a = m.heap.lookup a := by
      intro a ha
      rw [lookup_erase_eq, if_neg, hkeeps a ha]
      rintro rfl
      exact ha hfree
    obtain ⟨r, ef⟩ := (hc.inverse frames node.hashIndex).mp hindex
    obtain ⟨-, data', en, -⟩ := hm.vector ef
    simp only [PointerData.addFrames, hindex, Option.map_some, ef, en, Option.getD_some]
    exact ⟨_, rfl, (hm.recount (r + 1) ef en).of_heap hfree'⟩

/-- `RemoveBacktrace` of a reference that is held. -/
theorem Backs.removeBacktrace (hm : Backs m d) (hs : StackHeld d H) {h : ℕ} (hh : h ∈ H) :
    ∃ m', m.removeBacktrace h = some m' ∧ Backs m' (d.removeBacktrace cfg h) := by
  have hc := hs.canonical
  have hle : ¬ h ≤ kBacktraceEmptyIndex := Nat.not_le.mpr (Held.base_le_of_mem hs hh)
  obtain ⟨key, info, ef, -, -⟩ := hs.lookup hh
  obtain ⟨hne, data, en, hd⟩ := hm.vector ef
  simp only [StackMemory.removeBacktrace, PointerData.removeBacktrace, if_neg hle, ef, en]
  split
  · -- The node of the key is that of the vector.
    obtain ⟨hash, entry, hfind, -, hindex, hmem⟩ := hm.findKey hc hne hd
    rw [(hc.inverse key h).mpr ⟨_, ef⟩] at hindex
    obtain ⟨node, rfl, hi⟩ := Option.map_eq_some_iff.mp hindex.symm
    rw [hfind, Option.map_some]
    exact ⟨_, rfl, (hm.drop en (hmem node rfl) hi).congr rfl rfl⟩
  · exact ⟨_, rfl, hm.recount _ ef en⟩

theorem addFrames_empty (data : ℕ) (m : StackMemory w) : m.addFrames data [] = none := by
  have hlook : (m.heap.insert data []).lookup data = some [] := Finmap.lookup_insert _
  have hread : StackMemory.read { m with heap := m.heap.insert data [] } data ([] : List (Word w)).length = some [] :=
    read_of_lookup hlook
  unfold StackMemory.addFrames StackMemory.findKey
  dsimp only
  rw [hread]
  rfl

/-- `AddBacktrace` fails on an empty stack and on no other. -/
theorem Backs.addBacktrace (hm : Backs m d) (hs : StackHeld d H) {data : ℕ} (hfree : m.heap.lookup data = none)
    (cfg : Config w) (env : AddEnv w) (size : Word w) :
    (capture cfg env size).stack? = some [] ∧ m.addBacktrace cfg env size data = none ∨
    (capture cfg env size).stack? ≠ some [] ∧ ∃ m', m.addBacktrace cfg env size data =
      some ((d.addBacktrace cfg env size).1, m') ∧ Backs m' (d.addBacktrace cfg env size).2 := by
  unfold StackMemory.addBacktrace PointerData.addBacktrace
  cases capture cfg env size with
  | exit => exact .inr ⟨by simp [Capture.stack?], m, rfl, hm⟩
  | empty => exact .inr ⟨by simp [Capture.stack?], m, rfl, hm⟩
  | stack frames info =>
    by_cases hne : frames = []
    · subst hne
      exact .inl ⟨rfl, addFrames_empty data m⟩
    · exact .inr ⟨by simpa [Capture.stack?] using hne, hm.addFrames hs hfree hne info⟩

/-! ## Runs -/

variable {Tid : Type*} [DecidableEq Tid]

/-- A section of a thread on the memory; `data` is where the vector of an
`AddBacktrace` is. -/
def StackMemory.perform (cfg : Config w) (data : ℕ) (p : Progress w) (m : StackMemory w) :
    Section w → Option (StackMemory w)
  | .addBacktrace env _ size _ => (m.addBacktrace cfg env size data).map (·.2)
  | .removeBacktrace =>
    match p with
    | .unreferencing hashIndex => m.removeBacktrace hashIndex
    | _ => some m
  | _ => some m

/-- The sections of a run, on the tables and on the memory. -/
inductive InMemory (cfg : Config w) : StackMemory w → Sections Tid w → Prop
  | init : InMemory cfg (StackMemory.initialized w) (Sections.init Tid w)
  | step {m s t sec s' data m'} (hs : InMemory cfg m s) (h : Step cfg s t sec s')
    (hfree : m.heap.lookup data = none) (hm : m.perform cfg data (s.threads t) sec = some m') : InMemory cfg m' s'

theorem InMemory.interleaved {s : Sections Tid w} (h : InMemory cfg m s) : Interleaved cfg s := by
  induction h with
  | init => exact .init
  | step _ h _ _ ih => exact ih.step h

/-- One section on both: the memory stands for the tables again, but for the
hash of an empty stack. -/
theorem Backs.step [Fintype Tid] {s s' : Sections Tid w} {t : Tid} {sec : Section w}
    (hm : Backs m s.data) (ha : Attributed cfg s) (h : Step cfg s t sec s') {data : ℕ}
    (hfree : m.heap.lookup data = none) :
    (∃ env ptr size type, sec = .addBacktrace env ptr size type ∧ (capture cfg env size).stack? = some []) ∧
      m.perform cfg data (s.threads t) sec = none ∨
    (¬ ∃ env ptr size type, sec = .addBacktrace env ptr size type ∧ (capture cfg env size).stack? = some []) ∧
      ∃ m', m.perform cfg data (s.threads t) sec = some m' ∧ Backs m' s'.data := by
  obtain ⟨L, hc⟩ := ha.charged
  cases h with
  | addBacktrace env ptr size type hidle =>
    rcases hm.addBacktrace hc.held hfree cfg env size with ⟨he, hn⟩ | ⟨he, m', hp, hm'⟩
    · exact .inl ⟨⟨env, ptr, size, type, rfl, he⟩, by simp [StackMemory.perform, hn]⟩
    · refine .inr ⟨?_, m', by simp [StackMemory.perform, hp], hm'⟩
      rintro ⟨env', ptr', size', type', hq, he'⟩
      cases hq
      exact he he'
  | insertPointer hat hfree' =>
    exact .inr ⟨by simp, m, rfl, hm.of_sameStacks (insertPointer_sameStacks ..)⟩
  | takeSnapshot hat => exact .inr ⟨by simp, m, rfl, hm.congr rfl rfl⟩
  | erasePointer ptr hidle hfree' =>
    exact .inr ⟨by simp, m, rfl, hm.of_sameStacks (erasePointer_sameStacks ..)⟩
  | @removeBacktrace h hat =>
    refine .inr ⟨by simp, ?_⟩
    simp only [StackMemory.perform, hat]
    by_cases hlt : kBacktraceEmptyIndex < h
    · rw [inFlight_eq s.threads t, hat, holding_unreferencing, holding_of_lt hlt] at hc
      exact hm.removeBacktrace hc.held (by simp)
    · have hle := Nat.not_lt.mp hlt
      simp only [StackMemory.removeBacktrace, PointerData.removeBacktrace, if_pos hle]
      exact ⟨m, rfl, hm⟩
  | dump it hidle hfree' => exact .inr ⟨by simp, m, rfl, hm.congr rfl rfl⟩

/-- The memory stands for the tables all along. -/
theorem InMemory.backs [Fintype Tid] (hb : cfg.has BACKTRACE = true) {s : Sections Tid w} (hs : InMemory cfg m s) :
    Backs m s.data := by
  induction hs with
  | init => exact Backs.initialized
  | step hs h hfree hp ih =>
    rcases ih.step (hs.interleaved.attributed hb) h hfree with ⟨-, hn⟩ | ⟨-, m', hq, hm'⟩
    · rw [hn] at hp
      cases hp
    · rw [hq] at hp
      cases hp
      exact hm'

/-- **No key dangles.** In every run of the threads the memory stands for the
tables, and the next section reads outside of a live buffer if and only if it
is an `AddBacktrace` that has captured an empty stack. -/
theorem stackMemory_fails_iff [Fintype Tid] (getenv : Environ) {s s' : Sections Tid w} {t : Tid} {sec : Section w}
    (hs : InMemory (Config.init w getenv) m s) (h : Step (Config.init w getenv) s t sec s') {data : ℕ}
    (hfree : m.heap.lookup data = none) :
    Backs m s.data ∧ (m.perform (Config.init w getenv) data (s.threads t) sec = none ↔
      ∃ env ptr size type, sec = .addBacktrace env ptr size type ∧
        (capture (Config.init w getenv) env size).stack? = some []) := by
  have hb := init_backtrace w getenv
  have hm := hs.backs hb
  refine ⟨hm, ?_⟩
  rcases hm.step (hs.interleaved.attributed hb) h hfree with ⟨he, hn⟩ | ⟨he, m', hq, -⟩
  · exact ⟨fun _ => he, fun _ => hn⟩
  · rw [hq]
    exact ⟨fun hx => (by cases hx), fun hx => absurd hx he⟩

end AllocHook
