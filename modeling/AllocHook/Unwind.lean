/-
Stack capture (`UnwindBacktrace.cpp`): the wrapper `Unwind` over the answer
of the local unwinder, and the frames it hands to `PointerData`.

The unwinder itself walks another thread of control's stack through ELF
files; here it is a parameter, an `UnwindAnswer` for each call. All the
wrapper relies on is a field of it: `Unwinder::FillInFrame` numbers every
frame with its position.
-/
import AllocHook.Config

namespace AllocHook

/-- `unwindstack::ErrorCode`. -/
inductive ErrorCode
  | none | memoryInvalid | unwindInfo | unsupported | invalidMap | maxFramesExceeded
  | repeatedFrame | invalidElf | threadDoesNotExist | threadTimeout | systemCall | badArch
  | mapsParse | invalidParameter | ptraceCall | exitFunc
  deriving DecidableEq, Repr

/-- What a dump prints of a frame's `MapInfo`. -/
structure MapInfo where
  start : BitVec 64
  name : String
  deriving DecidableEq, Repr

/-- `unwindstack::FrameData`. -/
structure FrameData where
  num : Nat
  relPc : BitVec 64
  pc : BitVec 64
  functionName : String
  functionOffset : BitVec 64
  mapInfo : Option MapInfo
  deriving DecidableEq, Repr

/-- The frame's program counter as the `uintptr_t` the tracker keeps. -/
def FrameData.uintptrPc (w : Nat) (f : FrameData) : Word w := f.pc.setWidth w

/-- The program counters of captured frames. -/
def pcs (w : Nat) (info : List FrameData) : List (Word w) := info.map (FrameData.uintptrPc w)

/-- One call of `AndroidLocalUnwinder::Unwind`: what it returned and what it
left in `AndroidUnwinderData`. -/
structure UnwindAnswer where
  returned : Bool
  frames : List FrameData
  error : ErrorCode
  numbered : ∀ i (h : i < frames.length), (frames[i]).num = i

/-- An answer with one frame, at `pc`. -/
def UnwindAnswer.single (pc : BitVec 64) : UnwindAnswer where
  returned := true
  frames := [{ num := 0, relPc := pc, pc, functionName := "", functionOffset := 0, mapInfo := none }]
  error := .none
  numbered := by simp

/-- `Unwind`: the program counters, the frames and the error code. -/
def unwind (w : Nat) (data : UnwindAnswer) : List (Word w) × List FrameData × ErrorCode :=
  if !data.returned then ([], [], data.error)
  else
    let frames := List.replicate data.frames.length (0 : Word w)
    (data.frames.foldl (fun v f => v.set f.num (f.uintptrPc w)) frames, data.frames, data.error)

/-- Frames written each at its own number, from number `n` on. -/
theorem foldl_set_numbered {w : Nat} : ∀ (l : List FrameData) (done : List (Word w)),
    (∀ i (h : i < l.length), (l[i]).num = done.length + i) →
    l.foldl (fun v f => v.set f.num (f.uintptrPc w)) (done ++ List.replicate l.length 0) =
      done ++ pcs w l
  | [], done, _ => by simp [pcs]
  | f :: l, done, h => by
    have hf : f.num = done.length := h 0 (Nat.succ_pos _)
    have hl : ∀ i (hi : i < l.length), (l[i]).num = (done ++ [f.uintptrPc w]).length + i := by
      intro i hi
      have := h (i + 1) (by simpa using hi)
      simp only [List.getElem_cons_succ] at this
      rw [this, List.length_append, List.length_singleton]
      omega
    have step : (done ++ List.replicate (l.length + 1) (0 : Word w)).set f.num (f.uintptrPc w) =
        (done ++ [f.uintptrPc w]) ++ List.replicate l.length 0 := by
      rw [hf, List.replicate_succ, List.set_append_right _ _ (Nat.le_refl _), Nat.sub_self, List.set_cons_zero,
        List.append_assoc, List.singleton_append]
    rw [List.foldl_cons, List.length_cons, step, foldl_set_numbered l _ hl]
    simp [pcs]

/-- The two results of a capture agree: the program counters the tracker
keys a stack by are those of the frames it will print. -/
theorem unwind_pcs (w : Nat) (data : UnwindAnswer) : (unwind w data).1 = pcs w (unwind w data).2.1 := by
  unfold unwind
  split
  · rfl
  · have := foldl_set_numbered (w := w) data.frames [] (by simpa using data.numbered)
    simpa using this

end AllocHook
