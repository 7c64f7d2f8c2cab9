/-
The tracker (`PointerData.h`, `PointerData.cpp`): the pointer table, the
store of captured stacks, the counters and peaks, and every operation on
them as the code computes it.

`Add` and `Remove` are each two critical sections under two mutexes, and the
model keeps them apart: `addBacktrace` and `insertPointer` (with
`takeSnapshot` when a new peak is to be recorded), `erasePointer` and
`removeBacktrace`. `add` and `remove` run them one after the other; the
modules about threads interleave them.

Sizes, totals and addresses are words and wrap as in the code. What counts
calls (`references`, `cur_hash_index_`, `num_allocations`) is a `Nat`, for
runs of fewer than `2 ^ w` `Add`s of one stack and `2 ^ w` new stacks. A
`FrameKeyType` is the sequence of program counters it points to, which is
what its `operator==` compares; `StackMemory` has the pointers. A lookup
the code dereferences unchecked gives `none` here when it finds nothing.
-/
import AllocHook.Unwind
import AllocHook.Lib.FiniteMap
import AllocHook.Lib.SortMerge

namespace AllocHook

open FiniteMap SortMerge

inductive MemType
  | host | mmap | dma
  deriving DecidableEq, Repr

/-- `timeval`. -/
structure Timeval where
  tvSec : Int
  tvUsec : Int
  deriving DecidableEq, Repr

/-- The microseconds `operator<` compares. -/
def Timeval.micros (t : Timeval) : Int := t.tvSec * 1000000 + t.tvUsec

abbrev FrameKeyType (w : Nat) := List (Word w)

structure FrameInfoType (w : Nat) where
  references : Nat := 0
  frames : List (Word w) := []
  deriving DecidableEq

structure PointerInfoType (w : Nat) where
  size : Word w
  hashIndex : Nat
  memType : MemType
  allocTime : Timeval
  deriving DecidableEq

/-- `PointerInfoType::MaxSize`. -/
def maxSize (w : Nat) : Word w := BitVec.ofNat w (2 ^ 31 - 1)

/-- `size & ~(1U << 31)`: the mask is a 32-bit constant. -/
def PointerInfoType.realSize {w : Nat} (e : PointerInfoType w) : Word w :=
  e.size &&& BitVec.ofNat w (2 ^ 31 - 1)

/-- A record of a dump. `frameInfo` is the address of a node of `frames_`,
named by the key it is stored under; `none` is a null pointer. -/
structure ListInfoType (w : Nat) where
  pointer : Word w
  numAllocations : Nat
  size : Word w
  memType : MemType
  frameInfo : Option Nat
  backtraceInfo : Option (List FrameData)
  allocTime : Timeval
  deriving DecidableEq

/-- A hash index for "not to be recorded". -/
def kBacktraceExitIndex : Nat := 0
/-- A hash index for "no stack". -/
def kBacktraceEmptyIndex : Nat := 1

structure PointerData (w : Nat) where
  pointers : Map (Word w) (PointerInfoType w)
  keyToIndex : Map (FrameKeyType w) Nat
  frames : Map Nat (FrameInfoType w)
  backtracesInfo : Map Nat (List FrameData)
  curHashIndex : Nat
  currentUsed : Word w
  currentHost : Word w
  currentDma : Word w
  peakTot : Word w
  peakHost : Word w
  peakDma : Word w
  peakList : List (ListInfoType w)
  deriving DecidableEq

/-- `PointerData::Initialize`. -/
def PointerData.initialized (w : Nat) : PointerData w :=
  { pointers := ∅
    keyToIndex := ∅
    frames := ∅
    backtracesInfo := ∅
    curHashIndex := kBacktraceEmptyIndex + 1
    currentUsed := 0
    currentHost := 0
    currentDma := 0
    peakTot := 0
    peakHost := 0
    peakDma := 0
    peakList := [] }

variable {w : Nat}

def manglePointer (pointer : Word w) : Word w := pointer ^^^ BitVec.allOnes w
def demanglePointer (pointer : Word w) : Word w := pointer ^^^ BitVec.allOnes w

@[simp] theorem demangle_mangle (p : Word w) : demanglePointer (manglePointer p) = p := by
  simp only [demanglePointer, manglePointer, BitVec.xor_assoc, BitVec.xor_self, BitVec.xor_zero]

@[simp] theorem mangle_demangle (p : Word w) : manglePointer (demanglePointer p) = p := demangle_mangle p

@[simp] theorem mangle_inj {p q : Word w} : manglePointer p = manglePointer q ↔ p = q :=
  ⟨fun h => by rw [← demangle_mangle p, h, demangle_mangle], fun h => h ▸ rfl⟩

/-! ## Stacks -/

/-- `ShouldBacktraceAllocSize`. -/
def shouldBacktraceAllocSize (cfg : Config w) (sizeBytes : Word w) : Bool :=
  if !cfg.has BACKTRACE_SPECIFIC_SIZES then true
  else decide (cfg.backtraceMinSizeBytes ≤ sizeBytes) && decide (sizeBytes ≤ cfg.backtraceMaxSizeBytes)

/-- What one `Add` meets outside the tracker: the unwinder's answer for a
maximal number of frames, the time of day, and the order in which the hash
map is walked should a snapshot be taken. -/
structure AddEnv (w : Nat) where
  unwinder : Word w → UnwindAnswer
  now : Timeval
  walk : Iteration (Word w) (PointerInfoType w)

/-- A one-frame stack at `pc` captured at second `sec`, tables walked by key. -/
def AddEnv.single (w : Nat) (pc : BitVec 64) (sec : Int) : AddEnv w where
  unwinder _ := .single pc
  now := { tvSec := sec, tvUsec := 0 }
  walk := .ascending BitVec.toNat fun _ _ => BitVec.eq_of_toNat_eq

/-- What `AddBacktrace` has decided by the time it takes `frame_mutex_`: not
to record the pointer, to record it without a stack, or the stack. -/
inductive Capture (w : Nat)
  | exit
  | empty
  | stack (frames : List (Word w)) (framesInfo : List FrameData)

/-- `AddBacktrace` up to the lock. -/
def capture (cfg : Config w) (env : AddEnv w) (sizeBytes : Word w) : Capture w :=
  if !shouldBacktraceAllocSize cfg sizeBytes then .empty
  else if cfg.has BACKTRACE then
    let r := unwind w (env.unwinder cfg.backtraceFrames)
    match r.2.2 with
    | .none | .maxFramesExceeded => .stack r.1 r.2.1
    | .exitFunc => .exit
    | _ => .empty
  else .empty

/-- `AddBacktrace` under `frame_mutex_`: the index of the captured stack, new
or shared. -/
def PointerData.addFrames (cfg : Config w) (frames : List (Word w)) (framesInfo : List FrameData)
    (d : PointerData w) : Nat × PointerData w :=
  match d.keyToIndex.lookup frames with
  | none =>
    let hashIndex := d.curHashIndex
    (hashIndex,
      { d with
        curHashIndex := d.curHashIndex + 1
        keyToIndex := emplace d.keyToIndex frames hashIndex
        frames := emplace d.frames hashIndex { references := 1, frames }
        backtracesInfo :=
          if cfg.has BACKTRACE then emplace d.backtracesInfo hashIndex framesInfo else d.backtracesInfo })
  | some hashIndex =>
    -- `frames_[hash_index]` makes an entry where there is none.
    let frameInfo := (d.frames.lookup hashIndex).getD {}
    (hashIndex,
      { d with frames := d.frames.insert hashIndex { frameInfo with references := frameInfo.references + 1 } })

/-- `AddBacktrace`: the hash index for the entry about to be written. -/
def PointerData.addBacktrace (cfg : Config w) (env : AddEnv w) (sizeBytes : Word w) (d : PointerData w) :
    Nat × PointerData w :=
  match capture cfg env sizeBytes with
  | .exit => (kBacktraceExitIndex, d)
  | .empty => (kBacktraceEmptyIndex, d)
  | .stack frames framesInfo => d.addFrames cfg frames framesInfo

/-- `RemoveBacktrace`: one reference to a stack given back. -/
def PointerData.removeBacktrace (cfg : Config w) (hashIndex : Nat) (d : PointerData w) : PointerData w :=
  if hashIndex ≤ kBacktraceEmptyIndex then d
  else
    match d.frames.lookup hashIndex with
    | none => d
    | some frameInfo =>
      let references := frameInfo.references - 1
      if references = 0 then
        { d with
          keyToIndex := d.keyToIndex.erase frameInfo.frames
          frames := d.frames.erase hashIndex
          backtracesInfo :=
            if cfg.has BACKTRACE then d.backtracesInfo.erase hashIndex else d.backtracesInfo }
      else { d with frames := d.frames.insert hashIndex { frameInfo with references } }

/-! ## Lists of records -/

/-- The record `GetList` makes of an entry. -/
def PointerData.listInfo (d : PointerData w) (entry : Sigma fun _ : Word w => PointerInfoType w) :
    ListInfoType w :=
  { pointer := demanglePointer entry.1
    numAllocations := 1
    size := entry.2.realSize
    memType := entry.2.memType
    frameInfo := if entry.2.hashIndex ∈ d.frames then some entry.2.hashIndex else none
    backtraceInfo := d.backtracesInfo.lookup entry.2.hashIndex
    allocTime := entry.2.allocTime }

/-- `GetList`, with `pointers_` walked in the order `it` gives. -/
def PointerData.getList (it : Iteration (Word w) (PointerInfoType w)) (onlyWithBacktrace : Bool)
    (pred : ListInfoType w → ListInfoType w → Bool) (d : PointerData w) : List (ListInfoType w) :=
  let kept := (it.walk d.pointers).filter fun entry =>
    !(decide (entry.2.hashIndex ≤ kBacktraceEmptyIndex) && onlyWithBacktrace)
  sortBy pred (kept.map d.listInfo)

/-- `frame->frames.size()`. -/
def PointerData.depth (d : PointerData w) (frame : Nat) : Nat :=
  ((d.frames.lookup frame).map fun frameInfo => frameInfo.frames.length).getD 0

/-- The comparison `GetUniqueList` sorts by: the larger size, a stack before
none, the deeper stack, the lower address. -/
def PointerData.uniquePred (d : PointerData w) (a b : ListInfoType w) : Bool :=
  if a.size ≠ b.size then decide (b.size < a.size)
  else
    match a.frameInfo, b.frameInfo with
    | none, some _ => false
    | some _, none => true
    | none, none => decide (a.pointer < b.pointer)
    | some aFrame, some bFrame =>
      if d.depth aFrame ≠ d.depth bFrame then decide (d.depth bFrame < d.depth aFrame)
      else decide (a.pointer < b.pointer)

/-- The erase loop of `GetUniqueList`: a record counts the neighbours of its
size and stack and they go. -/
def removeDuplicates : List (ListInfoType w) → List (ListInfoType w) :=
  mergeRuns (fun a b => decide (a.size = b.size) && decide (a.frameInfo = b.frameInfo))
    fun a => { a with numAllocations := a.numAllocations + 1 }

/-- `GetUniqueList`. -/
def PointerData.getUniqueList (it : Iteration (Word w) (PointerInfoType w)) (onlyWithBacktrace : Bool)
    (d : PointerData w) : List (ListInfoType w) :=
  removeDuplicates (d.getList it onlyWithBacktrace d.uniquePred)

/-! ## Add and Remove -/

/-- `Add` under `pointer_mutex_` up to the test for a new total peak: the
entry, and the totals of its class. -/
def PointerData.recordPointer (now : Timeval) (ptr pointerSize : Word w) (hashIndex : Nat) (type : MemType)
    (d : PointerData w) : PointerData w :=
  let d :=
    { d with
      pointers := d.pointers.insert (manglePointer ptr)
        { size := pointerSize, hashIndex, memType := type, allocTime := now }
      currentUsed := d.currentUsed + pointerSize }
  if type = .dma then
    let current := d.currentDma + pointerSize
    { d with currentDma := current, peakDma := if d.peakDma < current then current else d.peakDma }
  else
    let current := d.currentHost + pointerSize
    { d with currentHost := current, peakHost := if d.peakHost < current then current else d.peakHost }

/-- `Add` under `pointer_mutex_`, and whether it goes on to take a snapshot. -/
def PointerData.insertPointer (cfg : Config w) (now : Timeval) (ptr pointerSize : Word w) (hashIndex : Nat)
    (type : MemType) (d : PointerData w) : PointerData w × Bool :=
  let d := d.recordPointer now ptr pointerSize hashIndex type
  if d.peakTot < d.currentUsed then
    ({ d with peakTot := d.currentUsed },
      cfg.has RECORD_MEMORY_PEAK && decide (cfg.backtraceDumpPeakVal < d.currentUsed))
  else (d, false)

/-- The end of `Add` at a new peak, under both mutexes. -/
def PointerData.takeSnapshot (it : Iteration (Word w) (PointerInfoType w)) (d : PointerData w) : PointerData w :=
  { d with peakList := d.getUniqueList it true }

/-- `PointerData::Add`. -/
def PointerData.add (cfg : Config w) (env : AddEnv w) (ptr pointerSize : Word w) (type : MemType)
    (d : PointerData w) : PointerData w :=
  let r := d.addBacktrace cfg env pointerSize
  if r.1 = kBacktraceExitIndex then r.2
  else
    let p := r.2.insertPointer cfg env.now ptr pointerSize r.1 type
    if p.2 then p.1.takeSnapshot env.walk else p.1

/-- `Remove` under `pointer_mutex_`: the entry's hash index, when there is an
entry. -/
def PointerData.erasePointer (ptr : Word w) (d : PointerData w) : Option Nat × PointerData w :=
  match d.pointers.lookup (manglePointer ptr) with
  | none => (none, d)
  | some entry =>
    let d := { d with currentUsed := d.currentUsed - entry.size }
    let d :=
      if entry.memType = .dma then { d with currentDma := d.currentDma - entry.size }
      else { d with currentHost := d.currentHost - entry.size }
    (some entry.hashIndex, { d with pointers := d.pointers.erase (manglePointer ptr) })

/-- `PointerData::Remove`. -/
def PointerData.remove (cfg : Config w) (ptr : Word w) (d : PointerData w) : PointerData w :=
  let r := d.erasePointer ptr
  match r.1 with
  | none => r.2
  | some hashIndex => r.2.removeBacktrace cfg hashIndex

/-! ## Dumps -/

/-- What a dump writes: which of the two header lines, the totals in it, the
records. -/
structure DumpOut (w : Nat) where
  peak : Bool
  hostUse : Word w
  dmaUse : Word w
  records : List (ListInfoType w)
  deriving DecidableEq

/-- The totals of the header: host, then DMA. -/
def dumpUse (list : List (ListInfoType w)) : Word w × Word w :=
  list.foldl
    (fun use it =>
      let btSize := it.size * BitVec.ofNat w it.numAllocations
      if it.memType = .dma then (use.1, use.2 + btSize) else (use.1 + btSize, use.2))
    (0, 0)

/-- `DumpLiveToFile`. `std::move` leaves `peak_list_` empty. -/
def PointerData.dumpLiveToFile (cfg : Config w) (it : Iteration (Word w) (PointerInfoType w))
    (d : PointerData w) : DumpOut w × PointerData w :=
  let list := d.peakList
  let d := { d with peakList := [] }
  let list :=
    if !cfg.has RECORD_MEMORY_PEAK then
      d.getList it true fun a b => decide (a.allocTime.micros < b.allocTime.micros)
    else list
  let use := dumpUse list
  ({ peak := cfg.has RECORD_MEMORY_PEAK, hostUse := use.1, dmaUse := use.2, records := list }, d)

/-- `DumpPeakInfo`: the three peaks it prints. -/
def PointerData.dumpPeakInfo (d : PointerData w) : Word w × Word w × Word w := (d.peakHost, d.peakDma, d.peakTot)

/-! ## Runs -/

/-- A call of `Add` with what it meets outside, or of `Remove`. -/
inductive Call (w : Nat)
  | add (env : AddEnv w) (ptr size : Word w) (type : MemType)
  | remove (ptr : Word w)

/-- One completed call. -/
def PointerData.exec (cfg : Config w) (d : PointerData w) : Call w → PointerData w
  | .add env ptr size type => d.add cfg env ptr size type
  | .remove ptr => d.remove cfg ptr

/-- A finite sequence of completed calls on a freshly initialised tracker. -/
def PointerData.run (cfg : Config w) (calls : List (Call w)) : PointerData w :=
  calls.foldl (PointerData.exec cfg) (PointerData.initialized w)

end AllocHook
