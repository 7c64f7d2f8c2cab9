/-
The page caches over a memory (`MemoryCacheBase`).

A small read takes the page it begins in from the cache, and the page after it
if it goes on there; a page that cannot be read whole is not cached, and what
is left of the read goes to the memory itself. `MemoryCache` has one cache and
`MemoryThreadCache` one for each thread.

The page after the last one is numbered `2^52`, and shifting that number to an
address gives zero: a read past the end of the address space goes on from the
first byte of memory, where the last page can be read (`wrapped`).
-/
import AllocHook.Lib.Memo
import AllocHook.Unwindstack.Memory

namespace AllocHook.Unwindstack

def kCacheBits : ℕ := 12
def kCacheSize : ℕ := 2 ^ kCacheBits
def kCacheMask : BitVec 64 := 0xfff

/-- The pages that are cached, by their numbers. -/
abbrev CacheData := BitVec 64 → Option (List (BitVec 8))

variable (m : Memory)

/-- A page, where it can be read whole. -/
def Memory.page (addrPage : BitVec 64) : Option (List (BitVec 8)) := m.readFully (addrPage <<< kCacheBits) kCacheSize

def Memory.internalCachedRead (addr : BitVec 64) (size : ℕ) (cache : CacheData) : List (BitVec 8) × CacheData :=
  let addrPage := addr >>> kCacheBits
  match Memo.fetch m.page cache addrPage with
  | (none, cache) => (m.read addr size, cache)
  | (some cacheDst, cache) =>
    let maxRead := ((addrPage + 1) <<< kCacheBits - addr).toNat
    let cacheDst := cacheDst.drop (addr &&& kCacheMask).toNat
    if size ≤ maxRead then (cacheDst.take size, cache)
    else
      match Memo.fetch m.page cache (addrPage + 1) with
      | (none, cache) => (cacheDst.take maxRead ++ m.read ((addrPage + 1) <<< kCacheBits) (size - maxRead), cache)
      | (some nextDst, cache) => (cacheDst.take maxRead ++ nextDst.take (size - maxRead), cache)

/-- `MemoryCacheBase::Read`. -/
def Memory.cachedRead (addr : BitVec 64) (size : ℕ) (cache : CacheData) : List (BitVec 8) × CacheData :=
  if 64 < size then (m.read addr size, cache) else m.internalCachedRead addr size cache

/-! ## Pages -/

variable {m}

theorem toNat_page (addr : BitVec 64) : (addr >>> kCacheBits).toNat = addr.toNat / 4096 := by
  rw [BitVec.toNat_ushiftRight, Nat.shiftRight_eq_div_pow]
  rfl

theorem toNat_mask (addr : BitVec 64) : (addr &&& kCacheMask).toNat = addr.toNat % 4096 := by
  rw [BitVec.toNat_and]
  exact Nat.and_two_pow_sub_one_eq_mod addr.toNat 12

theorem toNat_page_start (addr : BitVec 64) :
    ((addr >>> kCacheBits) <<< kCacheBits).toNat = addr.toNat / 4096 * 4096 := by
  have := addr.isLt
  rw [BitVec.toNat_shiftLeft, toNat_page, Nat.shiftLeft_eq, Nat.mod_eq_of_lt]
  · rfl
  · show addr.toNat / 4096 * 4096 < 2 ^ 64
    omega

/-- The page after a page, and where it is: at zero, after the last. -/
theorem toNat_next_start (addr : BitVec 64) :
    ((addr >>> kCacheBits + 1) <<< kCacheBits).toNat = (addr.toNat / 4096 * 4096 + 4096) % 2 ^ 64 := by
  have := addr.isLt
  rw [BitVec.toNat_shiftLeft, BitVec.toNat_add, toNat_page, Nat.shiftLeft_eq,
    Nat.mod_eq_of_lt (a := addr.toNat / 4096 + (1 : BitVec 64).toNat)]
  · rw [Nat.add_mul]
    rfl
  · show addr.toNat / 4096 + 1 < 2 ^ 64
    omega

/-- What is left of a page. -/
theorem toNat_maxRead (addr : BitVec 64) :
    ((addr >>> kCacheBits + 1) <<< kCacheBits - addr).toNat = 4096 - addr.toNat % 4096 := by
  have := addr.isLt
  rw [BitVec.toNat_sub, toNat_next_start]
  omega

theorem page_eq_some {addrPage : BitVec 64} {bytes : List (BitVec 8)} :
    m.page addrPage = some bytes ↔ bytes.length = 4096 ∧ m.Holds (addrPage <<< kCacheBits).toNat bytes :=
  readFully_eq_some

/-- A slice of what is there is what a read of it gives. -/
theorem readFrom_slice {a i k : ℕ} {bytes : List (BitVec 8)} (h : m.Holds a bytes) (hk : i + k ≤ bytes.length) :
    m.readFrom (a + i) k = (bytes.drop i).take k := by
  have hlen : ((bytes.drop i).take k).length = k := by
    rw [List.length_take, List.length_drop]
    omega
  refine (readFrom_eq_iff m _ _ _).mpr ⟨hlen.le, fun j hj => ?_, fun hlt => absurd hlt (by omega)⟩
  rw [List.getElem_take, List.getElem_drop, Nat.add_assoc]
  exact h (i + j) _

/-- A read that goes on where another one ends. -/
theorem readFrom_add (m : Memory) (a j k : ℕ) (h : (m.readFrom a j).length = j) :
    m.readFrom a (j + k) = m.readFrom a j ++ m.readFrom (a + j) k := by
  refine (readFrom_eq_iff m _ _ _).mpr ⟨?_, holds_append.mpr ⟨holds_readFrom m a j, ?_⟩, fun hlt => ?_⟩
  · rw [List.length_append, h]
    exact Nat.add_le_add_left (length_readFrom_le m _ _) _
  · rw [h]
    exact holds_readFrom m _ _
  · rw [List.length_append, h] at hlt ⊢
    rw [← Nat.add_assoc]
    exact readFrom_stops (by omega)

theorem readFrom_beyond (m : Memory) {a : ℕ} (n : ℕ) (ha : 2 ^ 64 ≤ a) : m.readFrom a n = [] :=
  (readFrom_eq_iff m _ _ _).mpr ⟨Nat.zero_le _, holds_nil, fun _ => m.bounded _ ha⟩

/-! ## Reads -/

/-- What a read past the end of the address space gives besides. -/
def Memory.wrapped (m : Memory) (addr : BitVec 64) (size : ℕ) : List (BitVec 8) :=
  if size ≤ 64 ∧ 2 ^ 64 < addr.toNat + size ∧ (m.page (addr >>> kCacheBits)).isSome then
    m.read 0 (addr.toNat + size - 2 ^ 64)
  else []

/-- The two parts of a read that goes on in the next page. -/
theorem read_two_pages {addr : BitVec 64} {size : ℕ} {bytes : List (BitVec 8)} (hsize : size ≤ 64)
    (hpage : m.page (addr >>> kCacheBits) = some bytes) (hlt : 4096 - addr.toNat % 4096 < size) :
    (bytes.drop (addr &&& kCacheMask).toNat).take (4096 - addr.toNat % 4096) ++
        m.read ((addr >>> kCacheBits + 1) <<< kCacheBits) (size - (4096 - addr.toNat % 4096)) =
      m.read addr size ++ m.wrapped addr size := by
  obtain ⟨hlen, hb⟩ := page_eq_some.mp hpage
  rw [toNat_page_start] at hb
  have haddr := addr.isLt
  have hstart : addr.toNat / 4096 * 4096 + addr.toNat % 4096 = addr.toNat := by omega
  have hslice := readFrom_slice (i := addr.toNat % 4096) (k := 4096 - addr.toNat % 4096) hb (by omega)
  rw [hstart] at hslice
  have hfull : (m.readFrom addr.toNat (4096 - addr.toNat % 4096)).length = 4096 - addr.toNat % 4096 := by
    rw [hslice, List.length_take, List.length_drop]
    omega
  have hadd := readFrom_add m addr.toNat _ (size - (4096 - addr.toNat % 4096)) hfull
  rw [Nat.add_sub_cancel' hlt.le] at hadd
  rw [toNat_mask, ← hslice]
  show _ ++ m.readFrom _ _ = m.readFrom addr.toNat size ++ _
  rw [hadd, List.append_assoc, toNat_next_start, Memory.wrapped, hpage, Option.isSome_some]
  have hnext : addr.toNat + (4096 - addr.toNat % 4096) = addr.toNat / 4096 * 4096 + 4096 := by omega
  refine congrArg (_ ++ ·) ?_
  by_cases hwrap : 2 ^ 64 < addr.toNat + size
  · -- The page that follows begins at zero.
    have hlast : addr.toNat / 4096 * 4096 + 4096 = 2 ^ 64 := by omega
    have hleft : addr.toNat + size - 2 ^ 64 = size - (4096 - addr.toNat % 4096) := by omega
    rw [if_pos ⟨hsize, hwrap, rfl⟩, hnext, hlast, readFrom_beyond m _ (Nat.le_refl _), Nat.mod_self, List.nil_append,
      Memory.read, hleft, BitVec.ofNat_eq_ofNat, BitVec.toNat_zero]
  · rw [if_neg fun h => hwrap h.2.1, List.append_nil, hnext, Nat.mod_eq_of_lt (by omega)]

theorem internalCachedRead_fst {cache : CacheData} (h : Memo.Agrees m.page cache) (addr : BitVec 64) {size : ℕ}
    (hsize : size ≤ 64) :
    (m.internalCachedRead addr size cache).1 = m.read addr size ++ m.wrapped addr size := by
  have hfst := h.fetch_fst (addr >>> kCacheBits)
  have hagrees := h.fetch_snd (addr >>> kCacheBits)
  unfold Memory.internalCachedRead
  dsimp only
  generalize Memo.fetch m.page cache (addr >>> kCacheBits) = r at hfst hagrees ⊢
  obtain ⟨page, cache⟩ := r
  cases page with
  | none =>
    dsimp only at hfst ⊢
    rw [Memory.wrapped, ← hfst, if_neg fun h => Bool.false_ne_true h.2.2, List.append_nil]
  | some bytes =>
    dsimp only at hfst hagrees ⊢
    rw [toNat_maxRead]
    by_cases hle : size ≤ 4096 - addr.toNat % 4096
    · obtain ⟨hlen, hb⟩ := page_eq_some.mp hfst.symm
      rw [toNat_page_start] at hb
      have haddr := addr.isLt
      have hstart : addr.toNat / 4096 * 4096 + addr.toNat % 4096 = addr.toNat := by omega
      rw [if_pos hle, toNat_mask, ← readFrom_slice hb (by omega), hstart, Memory.wrapped, if_neg (by omega),
        List.append_nil]
      rfl
    · rw [if_neg hle, ← read_two_pages hsize hfst.symm (Nat.not_le.mp hle)]
      have hfst' := hagrees.fetch_fst (addr >>> kCacheBits + 1)
      generalize Memo.fetch m.page cache (addr >>> kCacheBits + 1) = r at hfst' ⊢
      obtain ⟨next, cache'⟩ := r
      cases next with
      | none => rfl
      | some nextDst =>
        obtain ⟨hlen, hb⟩ := page_eq_some.mp hfst'.symm
        have hslice := readFrom_slice (i := 0) (k := size - (4096 - addr.toNat % 4096)) hb (by omega)
        rw [List.drop_zero, Nat.add_zero] at hslice
        dsimp only
        rw [← hslice, Memory.read]

theorem internalCachedRead_agrees {cache : CacheData} (h : Memo.Agrees m.page cache) (addr : BitVec 64) (size : ℕ) :
    Memo.Agrees m.page (m.internalCachedRead addr size cache).2 := by
  have hagrees := h.fetch_snd (addr >>> kCacheBits)
  unfold Memory.internalCachedRead
  dsimp only
  generalize Memo.fetch m.page cache (addr >>> kCacheBits) = r at hagrees ⊢
  obtain ⟨page, cache⟩ := r
  cases page with
  | none => exact hagrees
  | some bytes =>
    dsimp only
    split
    · exact hagrees
    · have hagrees' := hagrees.fetch_snd (addr >>> kCacheBits + 1)
      generalize Memo.fetch m.page cache (addr >>> kCacheBits + 1) = r at hagrees' ⊢
      obtain ⟨next, cache'⟩ := r
      cases next <;> exact hagrees'

theorem cachedRead_fst {cache : CacheData} (h : Memo.Agrees m.page cache) (addr : BitVec 64) (size : ℕ) :
    (m.cachedRead addr size cache).1 = m.read addr size ++ m.wrapped addr size := by
  unfold Memory.cachedRead
  split
  · next hlt => rw [Memory.wrapped, if_neg fun h => absurd h.1 (Nat.not_le.mpr hlt), List.append_nil]
  · next hle => exact internalCachedRead_fst h addr (Nat.not_lt.mp hle)

theorem cachedRead_agrees {cache : CacheData} (h : Memo.Agrees m.page cache) (addr : BitVec 64) (size : ℕ) :
    Memo.Agrees m.page (m.cachedRead addr size cache).2 := by
  unfold Memory.cachedRead
  split
  · exact h
  · exact internalCachedRead_agrees h addr size

/-! ## Runs -/

variable {ι : Type} [DecidableEq ι]

/-- A thread reads, or clears its cache; all have the same one in a
`MemoryCache`. -/
inductive CacheOp (ι : Type)
  | read (cache : ι) (addr : BitVec 64) (size : ℕ)
  | clear (cache : ι)

/-- What the reads of a run give. -/
def Memory.cachedReads (m : Memory) : List (CacheOp ι) → (ι → CacheData) → List (List (BitVec 8))
  | [], _ => []
  | .read i addr size :: ops, caches =>
    let (dst, cache) := m.cachedRead addr size (caches i)
    dst :: m.cachedReads ops (Function.update caches i cache)
  | .clear i :: ops, caches => m.cachedReads ops (Function.update caches i fun _ => none)

/-- What they give without a cache. -/
def Memory.plainRead (m : Memory) : CacheOp ι → Option (List (BitVec 8))
  | .read _ addr size => some (m.read addr size ++ m.wrapped addr size)
  | .clear _ => none

theorem cachedReads_of_agrees {ops : List (CacheOp ι)} {caches : ι → CacheData}
    (h : ∀ i, Memo.Agrees m.page (caches i)) : m.cachedReads ops caches = ops.filterMap m.plainRead := by
  have hupdate {i : ι} {cache : CacheData} (caches : ι → CacheData) (h : ∀ i, Memo.Agrees m.page (caches i))
      (hc : Memo.Agrees m.page cache) (j : ι) : Memo.Agrees m.page (Function.update caches i cache j) := by
    by_cases hj : j = i
    · rw [hj, Function.update_self]
      exact hc
    · rw [Function.update_of_ne hj]
      exact h j
  induction ops generalizing caches with
  | nil => rfl
  | cons op ops ih =>
    cases op with
    | read i addr size =>
      rw [Memory.cachedReads, List.filterMap_cons, Memory.plainRead]
      exact congrArg₂ _ (cachedRead_fst (h i) addr size) (ih (hupdate caches h (cachedRead_agrees (h i) addr size)))
    | clear i => exact ih (hupdate caches h (Memo.agrees_empty _))

/-- **The caches are transparent**: in any run of reads and clears by any
threads, every read gives the bytes of the memory, with the first bytes of
memory after the last one where it goes past the end. -/
theorem cachedReads_eq (m : Memory) (ops : List (CacheOp ι)) :
    m.cachedReads ops (fun _ _ => none) = ops.filterMap m.plainRead :=
  cachedReads_of_agrees fun _ => Memo.agrees_empty _

end AllocHook.Unwindstack
