/-
A result that does not say failure is usable memory.

The seven interfaces that give memory say failure in three ways: a null
pointer, a status that is not zero, `MAP_FAILED`. They refuse a size over the
limit, or one that overflows, in one way: a null pointer and `ENOMEM`. In
`debug_mmap` and `debug_mmap64` that is not the convention, and the caller
gets the null address for a mapping; everywhere else the result is what the
call underneath gave, for at least the bytes asked for (`usable_result_iff`).
-/
import AllocHook.SystemCalls

namespace AllocHook

variable {w : Nat} {cfg : Config w} {env : HookEnv w} {s : HookState w} {live : Word w → ℕ → Prop}

/-! ## The conventions -/

/-- A pointer that is null on failure. -/
def unlessNull (p : Word w) : Option (Word w) := if p = 0 then none else some p

/-- A pointer that is `MAP_FAILED` on failure. -/
def unlessFailed (p : Word w) : Option (Word w) := if p = MAP_FAILED w then none else some p

/-- A pointer that goes with a status, 0 on success. -/
def onSuccess (ret : Int) (p : Word w) : Option (Word w) := if ret = 0 then some p else none

/-- The memory a call underneath gives, if it does not say failure. -/
def SysCall.obtained (sys : System w) : SysCall w → Option (Word w)
  | .malloc size => unlessNull (sys.malloc size).result
  | .calloc nmemb bytes => unlessNull (sys.calloc nmemb bytes).result
  | .realloc pointer bytes => unlessNull (sys.realloc pointer bytes).result
  | .memalign alignment bytes => unlessNull (sys.memalign alignment bytes).result
  | .posixMemalign alignment size =>
    onSuccess (sys.posixMemalign alignment size).1 (sys.posixMemalign alignment size).2
  | .mmap args => unlessFailed (sys.mmap args).result
  | _ => none

/-- The bytes a call underneath asks for. -/
def SysCall.bytes : SysCall w → ℕ
  | .malloc size => size.toNat
  | .calloc nmemb bytes => nmemb.toNat * bytes.toNat
  | .realloc _ bytes => bytes.toNat
  | .memalign _ bytes => bytes.toNat
  | .posixMemalign _ size => size.toNat
  | .mmap args => args.size.toNat
  | _ => 0

/-- The allocator and the kernel keep their contracts: memory they give is
live, with as many bytes as were asked for. -/
def System.Obeys (sys : System w) (live : Word w → ℕ → Prop) : Prop :=
  ∀ c p, SysCall.obtained sys c = some p → live p c.bytes

/-- The bytes the application asks for, in a call that gives memory. -/
def HookCall.requested : HookCall w → Option ℕ
  | .malloc size => some size.toNat
  | .calloc nmemb bytes => some (nmemb.toNat * bytes.toNat)
  | .realloc _ bytes => if bytes = 0 then none else some bytes.toNat
  | .memalign _ bytes => some bytes.toNat
  | .posixMemalign _ _ size => some size.toNat
  | .mmap64 args => some args.size.toNat
  | .mmap args => some args.size.toNat
  | _ => none

/-- The memory a result stands for, if it does not say failure in the
convention of the call. -/
def HookCall.obtained : HookCall w → Returned w → Option (Word w)
  | .mmap64 _, .pointer p => unlessFailed p
  | .mmap _, .pointer p => unlessFailed p
  | _, .pointer p => unlessNull p
  | _, .status ret p => onSuccess ret p
  | _, _ => none

/-- What a call that gives memory returns is failure, or a live region of at
least the bytes asked for that a call underneath gave; where none was made it
is failure. -/
structure UsableResult (cfg : Config w) (env : HookEnv w) (s : HookState w) (live : Word w → ℕ → Prop)
    (call : HookCall w) : Prop where
  usable : ∀ n p, call.requested = some n → call.obtained (s.returned cfg env call) = some p →
    ∃ c ∈ s.sysCalls cfg env call, c.obtained env.sys = some p ∧ n ≤ c.bytes ∧ live p c.bytes
  refused : ∀ n, call.requested = some n → s.sysCalls cfg env call = [] →
    call.obtained (s.returned cfg env call) = none

/-! ## What comes from underneath -/

/-- A mapping over the limit, with calls enabled. -/
def HookState.RefusedMapping (s : HookState w) (call : HookCall w) : Prop :=
  s.disabled = false ∧ ∃ args, (call = .mmap args ∨ call = .mmap64 args) ∧ maxSize w < args.size

section Results

variable (size nmemb bytes pointer alignment memptr : Word w) (args : MmapArgs w)

theorem debugMalloc_result : (debugMalloc cfg env size s).1 =
    if !s.disabled && decide (maxSize w < size) then 0 else (env.sys.malloc size).result := by
  unfold debugMalloc internalMalloc
  cases s.disabled with
  | true => rfl
  | false => by_cases hmax : maxSize w < size <;> simp [hmax]

theorem debugMemalign_result : (debugMemalign cfg env alignment bytes s).1 =
    if !s.disabled && decide (maxSize w < bytes) then 0 else (env.sys.memalign alignment bytes).result := by
  unfold debugMemalign
  cases s.disabled with
  | true => rfl
  | false => by_cases hmax : maxSize w < bytes <;> simp [hmax]

theorem debugMmap64_result : (debugMmap64 cfg env args s).1 =
    if !s.disabled && decide (maxSize w < args.size) then 0 else (env.sys.mmap args).result := by
  unfold debugMmap64
  cases s.disabled with
  | true => rfl
  | false => by_cases hmax : maxSize w < args.size <;> simp [hmax, apply_ite Prod.fst]

theorem debugMmap_result : (debugMmap cfg env args s).1 =
    if !s.disabled && decide (maxSize w < args.size) then 0 else (env.sys.mmap args).result := by
  unfold debugMmap
  cases s.disabled with
  | true => rfl
  | false => by_cases hmax : maxSize w < args.size <;> simp [hmax, apply_ite Prod.fst]

theorem debugCalloc_result : (debugCalloc cfg env nmemb bytes s).1 =
    if s.disabled then (env.sys.calloc nmemb bytes).result
    else if 2 ^ w ≤ nmemb.toNat * bytes.toNat then 0
    else (env.sys.calloc 1 (nmemb * bytes)).result := by
  unfold debugCalloc
  cases s.disabled with
  | true => rfl
  | false => by_cases hover : 2 ^ w ≤ nmemb.toNat * bytes.toNat <;> simp [hover]

theorem debugRealloc_result (hbytes : bytes ≠ 0) : (debugRealloc cfg env pointer bytes s).1 =
    if s.disabled then (env.sys.realloc pointer bytes).result
    else if pointer = 0 then (env.sys.malloc bytes).result
    else if maxSize w < bytes then 0
    else (env.sys.realloc pointer bytes).result := by
  unfold debugRealloc internalMalloc
  cases s.disabled with
  | true => rfl
  | false =>
    by_cases hnull : pointer = 0
    · simp only [hnull, Bool.false_eq_true, if_false, if_true]
    · by_cases hmax : maxSize w < bytes <;> simp only [hnull, hbytes, hmax, Bool.false_eq_true, if_false, if_true]

/-- `posix_memalign` reports what `memalign` gave by its status. -/
theorem debugPosixMemalign_result :
    onSuccess (debugPosixMemalign cfg env memptr alignment size s).1
        (debugPosixMemalign cfg env memptr alignment size s).2.1 =
      if s.disabled then onSuccess (env.sys.posixMemalign alignment size).1 (env.sys.posixMemalign alignment size).2
      else if alignment < BitVec.ofNat w (w / 8) || !powerof2 alignment then none
      else if maxSize w < size then none
      else unlessNull (env.sys.memalign alignment size).result := by
  unfold debugPosixMemalign
  cases hd : s.disabled with
  | true => rfl
  | false =>
    by_cases hinvalid : (alignment < BitVec.ofNat w (w / 8) || !powerof2 alignment) = true
    · simp only [hinvalid, Bool.false_eq_true, if_false, if_true]
      rfl
    · simp only [hinvalid, Bool.false_eq_true, if_false, debugMemalign_result, hd, Bool.not_false, Bool.true_and,
        decide_eq_true_eq]
      by_cases hmax : maxSize w < size
      · simp only [hmax, if_true, ne_eq, not_true_eq_false, if_false]
        rfl
      · by_cases hnull : (env.sys.memalign alignment size).result = 0 <;>
          simp only [hmax, hnull, onSuccess, unlessNull, ENOMEM, ne_eq, not_true_eq_false, not_false_eq_true, if_false,
            if_true, show ¬ (12 : Int) = 0 by decide]

end Results

/-- A product that does not overflow is asked for in full. -/
theorem bytes_calloc_one {nmemb bytes : Word w} (h : nmemb.toNat * bytes.toNat < 2 ^ w) :
    nmemb.toNat * bytes.toNat ≤ (SysCall.calloc 1 (nmemb * bytes)).bytes := by
  simp only [SysCall.bytes, BitVec.toNat_mul, Nat.mod_eq_of_lt h]
  cases w with
  | zero => omega
  | succ w => simp

/-- What a hook returns as memory a call underneath returned as memory, for
the bytes asked for. -/
theorem obtained_of_returned {call : HookCall w} {n : ℕ} {p : Word w} (hok : ¬ s.RefusedMapping call)
    (hn : call.requested = some n) (hp : call.obtained (s.returned cfg env call) = some p) :
    ∃ c ∈ s.sysCalls cfg env call, c.obtained env.sys = some p ∧ n ≤ c.bytes := by
  cases call with
  | malloc size =>
    cases hn
    simp only [HookCall.obtained, HookState.returned, debugMalloc_result] at hp
    simp only [HookState.sysCalls]
    split at hp
    · cases hp
    · next hm => rw [if_neg hm]; exact ⟨_, List.mem_singleton_self _, hp, le_rfl⟩
  | memalign alignment bytes =>
    cases hn
    simp only [HookCall.obtained, HookState.returned, debugMemalign_result] at hp
    simp only [HookState.sysCalls]
    split at hp
    · cases hp
    · next hm => rw [if_neg hm]; exact ⟨_, List.mem_singleton_self _, hp, le_rfl⟩
  | calloc nmemb bytes =>
    cases hn
    simp only [HookCall.obtained, HookState.returned, debugCalloc_result] at hp
    simp only [HookState.sysCalls]
    split at hp
    · next hd => rw [if_pos hd]; exact ⟨_, List.mem_singleton_self _, hp, le_rfl⟩
    next hd =>
    split at hp
    · cases hp
    · next hover =>
      rw [if_neg hd, if_neg hover]
      exact ⟨_, List.mem_singleton_self _, hp, bytes_calloc_one (by omega)⟩
  | realloc pointer bytes =>
    simp only [HookCall.requested] at hn
    split at hn
    · cases hn
    next hbytes =>
    cases hn
    simp only [HookCall.obtained, HookState.returned, debugRealloc_result _ _ hbytes] at hp
    simp only [HookState.sysCalls]
    split at hp
    · next hd => rw [if_pos hd]; exact ⟨_, List.mem_singleton_self _, hp, le_rfl⟩
    next hd =>
    rw [if_neg hd]
    split at hp
    · next hnull => rw [if_pos hnull]; exact ⟨_, List.mem_singleton_self _, hp, le_rfl⟩
    next hnull =>
    rw [if_neg hnull, if_neg hbytes]
    split at hp
    · cases hp
    · next hmax => rw [if_neg hmax]; exact ⟨_, List.mem_singleton_self _, hp, le_rfl⟩
  | posixMemalign memptr alignment size =>
    cases hn
    simp only [HookCall.obtained, HookState.returned, debugPosixMemalign_result] at hp
    simp only [HookState.sysCalls]
    split at hp
    · next hd => rw [if_pos hd]; exact ⟨_, List.mem_singleton_self _, hp, le_rfl⟩
    next hd =>
    rw [if_neg hd]
    split at hp
    · cases hp
    next hinvalid =>
    rw [if_neg hinvalid]
    split at hp
    · cases hp
    · next hmax => rw [if_neg hmax]; exact ⟨_, List.mem_singleton_self _, hp, le_rfl⟩
  | mmap64 args =>
    cases hn
    simp only [HookCall.obtained, HookState.returned, debugMmap64_result] at hp
    simp only [HookState.sysCalls]
    split at hp
    · next hm =>
      simp only [Bool.and_eq_true, Bool.not_eq_true', decide_eq_true_eq] at hm
      exact absurd ⟨hm.1, args, .inr rfl, hm.2⟩ hok
    · next hm => rw [if_neg hm]; exact ⟨_, List.mem_singleton_self _, hp, le_rfl⟩
  | mmap args =>
    cases hn
    simp only [HookCall.obtained, HookState.returned, debugMmap_result] at hp
    simp only [HookState.sysCalls]
    split at hp
    · next hm =>
      simp only [Bool.and_eq_true, Bool.not_eq_true', decide_eq_true_eq] at hm
      exact absurd ⟨hm.1, args, .inl rfl, hm.2⟩ hok
    · next hm => rw [if_neg hm]; exact ⟨_, List.mem_cons_self, hp, le_rfl⟩
  | free pointer => cases hn
  | ioctl fd request => cases hn
  | close fd => cases hn
  | munmap addr size => cases hn

/-- Where a size can be over the limit, the null address is not `MAP_FAILED`. -/
theorem zero_ne_mapFailed {size : Word w} (hmax : maxSize w < size) : (0 : Word w) ≠ MAP_FAILED w := by
  intro heq
  have hall : 0 = 2 ^ w - 1 := by simpa [MAP_FAILED] using congrArg BitVec.toNat heq
  have hsize := size.isLt
  rw [BitVec.lt_def] at hmax
  omega

/-- A refused mapping is reported as the null address, with no call made. -/
theorem HookState.RefusedMapping.reported (cfg : Config w) (env : HookEnv w) {call : HookCall w}
    (h : s.RefusedMapping call) :
    ∃ n, call.requested = some n ∧ s.sysCalls cfg env call = [] ∧
      call.obtained (s.returned cfg env call) = some 0 := by
  obtain ⟨hd, args, hcall, hmax⟩ := h
  have hne : unlessFailed (0 : Word w) = some 0 := if_neg (zero_ne_mapFailed hmax)
  rcases hcall with rfl | rfl
  · refine ⟨_, rfl, ?_, ?_⟩
    · simp [HookState.sysCalls, hd, hmax]
    · simp only [HookCall.obtained, HookState.returned, debugMmap_result, hd, hmax, Bool.not_false, decide_true,
        Bool.and_self, if_true, hne]
  · refine ⟨_, rfl, ?_, ?_⟩
    · simp [HookState.sysCalls, hd, hmax]
    · simp only [HookCall.obtained, HookState.returned, debugMmap64_result, hd, hmax, Bool.not_false, decide_true,
        Bool.and_self, if_true, hne]

/-- **A result that does not say failure is usable memory**, whenever the
allocator and the kernel keep their contracts, if and only if the call is no
mapping over the limit with calls enabled. -/
theorem usable_result_iff (cfg : Config w) (env : HookEnv w) (s : HookState w) (call : HookCall w)
    (hsys : env.sys.Obeys live) : UsableResult cfg env s live call ↔ ¬ s.RefusedMapping call := by
  constructor
  · intro h hr
    obtain ⟨n, hn, hnone, hp⟩ := hr.reported cfg env
    have := h.refused n hn hnone
    rw [hp] at this
    cases this
  · intro hok
    refine ⟨fun n p hn hp => ?_, fun n hn hnone => ?_⟩
    · obtain ⟨c, hc, hcp, hle⟩ := obtained_of_returned hok hn hp
      exact ⟨c, hc, hcp, hle, hsys c p hcp⟩
    · cases hp : call.obtained (s.returned cfg env call) with
      | none => rfl
      | some p =>
        obtain ⟨c, hc, -⟩ := obtained_of_returned hok hn hp
        rw [hnone] at hc
        cases hc

/-- A system with four gigabytes at one address, for `malloc` and `mmap`. -/
def fourGigabytes : System 64 :=
  { System.exhausted 64 with
    malloc := fun size =>
      if size.toNat ≤ 2 ^ 32 then { result := 0x7f0000000000, errno := 0 } else { result := 0, errno := ENOMEM }
    mmap := fun args =>
      if args.size.toNat ≤ 2 ^ 32 then { result := 0x7f0000000000, errno := 0 }
      else { result := MAP_FAILED 64, errno := ENOMEM } }

/-- What is live then. -/
def inFourGigabytes (p : Word 64) (n : ℕ) : Prop := p = 0x7f0000000000 ∧ n ≤ 2 ^ 32

theorem fourGigabytes_obeys : fourGigabytes.Obeys inFourGigabytes := by
  intro c p hp
  cases c with
  | malloc size =>
    simp only [SysCall.obtained, fourGigabytes] at hp
    split at hp
    · next hle =>
      cases hp
      exact ⟨rfl, hle⟩
    · cases hp
  | mmap args =>
    simp only [SysCall.obtained, fourGigabytes] at hp
    split at hp
    · next hle =>
      cases hp
      exact ⟨rfl, hle⟩
    · cases hp
  | _ => cases hp

/-- A thread at the start. -/
def atStart : HookState 64 := (Process.init Unit 64).view ()

/-- A page from `malloc` is a page. -/
theorem usable_result_iff_page : UsableResult (Config.init 64 ⟨none, none⟩) (.plain fourGigabytes) atStart
    inFourGigabytes (.malloc 4096) := by
  refine (usable_result_iff (Config.init 64 ⟨none, none⟩) (.plain fourGigabytes) atStart (.malloc 4096)
    fourGigabytes_obeys).mpr ?_
  intro h
  obtain ⟨-, args, hcall | hcall, -⟩ := h <;> cases hcall

/-- Two gigabytes, mapped anywhere, without a file. -/
def twoGigabytes : MmapArgs 64 := { addr := 0, size := 2 ^ 31, prot := 3, flags := 0x22, fd := -1, offset := 0 }

/-- Two gigabytes the kernel would map are reported as mapped at the null
address. -/
theorem twoGigabytes_not_usable : fourGigabytes.Obeys inFourGigabytes ∧
    ¬ UsableResult (Config.init 64 ⟨none, none⟩) (.plain fourGigabytes) atStart inFourGigabytes
      (.mmap twoGigabytes) ∧
    ¬ UsableResult (Config.init 64 ⟨none, none⟩) (.plain fourGigabytes) atStart inFourGigabytes
      (.mmap64 twoGigabytes) := by
  refine ⟨fourGigabytes_obeys, fun h => ?_, fun h => ?_⟩
  · exact absurd (h.refused _ rfl rfl) (by decide)
  · exact absurd (h.refused _ rfl rfl) (by decide)

end AllocHook
