/-
Equality and hashing of `FrameKeyType` (`PointerData.h`), on the sequence of
program counters a key points to.

The hash takes the first five frames only and reads the first one whether
there is one or not: it is `none` where that read is out of bounds, which is
for the empty sequence and no other (`hash_eq_none_iff`). Keys that are equal
have one hash (`equal_hash`), as the table `key_to_index_` needs.
-/
import AllocHook.PointerData

namespace AllocHook

variable {w : Nat}

/-- `FrameKeyType::operator==`. -/
def FrameKeyType.equal (key comp : FrameKeyType w) : Bool :=
  if key.length ≠ comp.length then false
  else (List.range key.length).all fun i => key[i]? == comp[i]?

/-- The loop of the hash: from frame 1 to frame `n`. -/
def FrameKeyType.hashUpTo (key : FrameKeyType w) (curHash : Word w) : Nat → Word w
  | 0 => curHash
  | n + 1 => key.hashUpTo curHash n ^^^ key[n + 1]?.getD 0

/-- `std::hash<FrameKeyType>`; `none` is a read of `frames[0]` out of bounds. -/
def FrameKeyType.hash (key : FrameKeyType w) : Option (Word w) :=
  let maxFrames := if 5 < key.length then 5 else key.length
  key[0]?.map fun frame => key.hashUpTo frame (maxFrames - 1)

/-- Equality is that of the sequences. -/
theorem equal_iff {key comp : FrameKeyType w} : FrameKeyType.equal key comp = true ↔ key = comp := by
  unfold FrameKeyType.equal
  split
  · next hne =>
    refine ⟨fun h => absurd h (by simp), fun h => ?_⟩
    subst h
    exact absurd rfl hne
  · next hlen =>
    rw [List.all_eq_true]
    constructor
    · intro h
      refine List.ext_getElem? fun i => ?_
      by_cases hi : i < key.length
      · exact eq_of_beq (h i (List.mem_range.mpr hi))
      · rw [List.getElem?_eq_none (by omega), List.getElem?_eq_none (by omega)]
    · intro h i _
      rw [h]
      exact beq_self_eq_true _

/-- The read is in bounds just when there is a frame. -/
theorem hash_eq_none_iff {key : FrameKeyType w} : FrameKeyType.hash key = none ↔ key = [] := by
  cases key <;> simp [FrameKeyType.hash]

/-- Equal keys have one hash, whatever the frames it leaves out. -/
theorem equal_hash {key comp : FrameKeyType w} (h : FrameKeyType.equal key comp = true) :
    FrameKeyType.hash key = FrameKeyType.hash comp := by
  rw [equal_iff.mp h]

end AllocHook
