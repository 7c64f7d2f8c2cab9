/-
The registers of the caller (`DwarfSection::Eval`): every register the row has
a location for is restored, one after the other, in the order in which an
unordered map comes.

What is overwritten is saved first, and registers are read as they were saved,
so all of them are restored from the registers of the callee, as if at once:
the order does not matter (`eval_row_iff`). Two locations that both tell the pc of
an interpreter are the exception, whose last one stays.
-/
import AllocHook.Unwindstack.Regs

namespace AllocHook.Unwindstack

variable {w : ℕ} {m : Machine w}

/-- What an evaluation reads: the section, the memory of the process and the
CIE. -/
structure EvalContext where
  memory : DwarfMemory
  regularMemory : Memory
  cie : DwarfCie

structure EvalInfo (m : Machine w) where
  regs : Regs m
  /-- `saved_reg_map` and `saved_regs`. -/
  saved : Fin m.total → Option (BitVec w)
  returnAddressUndefined : Bool

/-- `RegsInfo::Get`. -/
def EvalInfo.get (e : EvalInfo m) (reg : Fin m.total) : BitVec w := (e.saved reg).getD (e.regs.regs reg)

/-- `RegsInfo::Save`. -/
def EvalInfo.save (e : EvalInfo m) (reg : Fin m.total) : EvalInfo m :=
  { e with saved := Function.update e.saved reg (some (e.regs.regs reg)) }

def EvalInfo.set (e : EvalInfo m) (reg : Fin m.total) (v : BitVec w) : EvalInfo m := { e with regs := e.regs.set reg v }

variable (c : EvalContext)

/-- The value of an expression, and whether it is a pc of an interpreter. -/
def EvalContext.evalExpression (loc : DwarfLocation) (get : Fin m.total → BitVec w) : Result (BitVec w × Bool) := do
  let op : OpContext w := { memory := c.memory, regularMemory := c.regularMemory, total := m.total, get }
  let (s, dexPcSet) ← op.eval (loc.values₁ - loc.values₀) loc.values₁
  match s.stack with
  | [] => .error illegalState
  | value :: _ => if s.isRegister then .error (.error .notImplemented none) else return (value, dexPcSet)

/-- A register read from where it was saved. -/
def EvalContext.readRegister (w : ℕ) (addr : BitVec 64) : Result (BitVec w) :=
  match c.regularMemory.readFully addr (sizeofAddress w) with
  | none => .error (.error .memoryInvalid (some addr))
  | some dst => .ok (BitVec.ofNat w (littleEndian dst))

def EvalContext.evalRegister (cfa : BitVec w) (loc : DwarfLocation) (reg : Fin m.total) (e : EvalInfo m) :
    Result (EvalInfo m) :=
  match loc.type with
  | .OFFSET => do return e.set reg (← c.readRegister w (cfa.setWidth 64 + loc.values₀))
  | .VAL_OFFSET => .ok (e.set reg ((cfa.setWidth 64 + loc.values₀).setWidth w))
  | .REGISTER =>
    if h : (loc.values₀.setWidth 32).toNat < m.total then
      .ok (e.set reg (((e.get ⟨_, h⟩).setWidth 64 + loc.values₁).setWidth w))
    else .error illegalValue
  | .EXPRESSION => do
    let (value, _) ← c.evalExpression loc e.get
    return e.set reg (← c.readRegister w (value.setWidth 64))
  | .VAL_EXPRESSION => do
    let (value, isDexPc) ← c.evalExpression loc e.get
    let e := e.set reg value
    return if isDexPc then { e with regs := { e.regs with dexPc := value.setWidth 64 } } else e
  | .UNDEFINED =>
    .ok (if BitVec.ofNat 64 reg = c.cie.returnAddressRegister then { e with returnAddressUndefined := true } else e)
  | .PSEUDO_REGISTER => .error illegalValue
  | .INVALID => .ok e

/-- An entry of the row. -/
abbrev Entry := (_ : BitVec 32) × DwarfLocation

def EvalContext.evalEntry (cfa : BitVec w) (e : EvalInfo m) (entry : Entry) : Result (EvalInfo m) :=
  if entry.1 = CFA_REG then .ok e
  else if h : entry.1.toNat < m.total then c.evalRegister cfa entry.2 ⟨_, h⟩ (e.save ⟨_, h⟩)
  else if entry.2.type ≠ .PSEUDO_REGISTER then .ok e
  else
    match e.regs.setPseudoRegister (entry.1.setWidth 16) entry.2.values₀ with
    | none => .error illegalValue
    | some regs => .ok { e with regs }

def EvalContext.cfaValue (loc : DwarfLocation) (get : Fin m.total → BitVec w) : Result (BitVec w) :=
  match loc.type with
  | .REGISTER =>
    if h : loc.values₀.toNat < m.total then .ok (get ⟨_, h⟩ + loc.values₁.setWidth w) else .error illegalValue
  | .VAL_EXPRESSION => do return (← c.evalExpression loc get).1
  | _ => .error illegalValue

/-- Before the first register: the pc of an interpreter and the pseudo registers
are reset. -/
def EvalInfo.start (regs : Regs m) : EvalInfo m :=
  { regs := { regs with dexPc := 0 }.resetPseudoRegisters, saved := fun _ => none, returnAddressUndefined := false }

/-- `Eval`: the registers of the caller, and whether there is none. The entries
are those of the row, in some order. -/
def EvalContext.eval (entries : List Entry) (locRegs : Locations) (regs : Regs m) : Result (Regs m × Bool) :=
  if h : c.cie.returnAddressRegister.toNat < m.total then
    match locRegs.lookup CFA_REG with
    | none => .error (.error .cfaNotDefined none)
    | some loc => do
      let e := EvalInfo.start regs
      let cfa ← c.cfaValue loc e.regs.regs
      let e ← entries.foldlM (c.evalEntry cfa) e
      let regs := e.regs.setPc (if e.returnAddressUndefined then 0 else e.regs.regs ⟨_, h⟩)
      return (regs.setSp cfa, decide (regs.pc = 0) && !c.cie.isSignalFrame)
  else .error illegalValue

/-! ## At once -/

/-- What a location gives a register, of the registers of the callee. -/
def EvalContext.value (cfa : BitVec w) (old : Fin m.total → BitVec w) (reg : Fin m.total) (loc : DwarfLocation) :
    Result (BitVec w) :=
  match loc.type with
  | .OFFSET => c.readRegister w (cfa.setWidth 64 + loc.values₀)
  | .VAL_OFFSET => .ok ((cfa.setWidth 64 + loc.values₀).setWidth w)
  | .REGISTER =>
    if h : (loc.values₀.setWidth 32).toNat < m.total then
      .ok (((old ⟨_, h⟩).setWidth 64 + loc.values₁).setWidth w)
    else .error illegalValue
  | .EXPRESSION => do c.readRegister w ((← c.evalExpression loc old).1.setWidth 64)
  | .VAL_EXPRESSION => do return (← c.evalExpression loc old).1
  | .UNDEFINED | .INVALID => .ok (old reg)
  | .PSEUDO_REGISTER => .error illegalValue

/-- The number of a register in a row. -/
def regNumber (reg : Fin m.total) : BitVec 32 := BitVec.ofNat 32 reg

/-- A register of the caller, but for pc and sp. -/
def EvalContext.restored (cfa : BitVec w) (old : Fin m.total → BitVec w) (locRegs : Locations) (reg : Fin m.total) :
    Result (BitVec w) :=
  match locRegs.lookup (regNumber reg) with
  | none => .ok (old reg)
  | some loc => c.value cfa old reg loc

/-- The pc of the caller, as it was saved. -/
def EvalContext.returnAddress (cfa : BitVec w) (old : Fin m.total → BitVec w) (locRegs : Locations)
    (ra : Fin m.total) : Result (BitVec w) :=
  if (locRegs.lookup (regNumber ra)).any (·.type = .UNDEFINED) then .ok 0 else c.restored cfa old locRegs ra

/-- Whether the row has the return address signed. -/
def signState (locRegs : Locations) : BitVec 64 :=
  match locRegs.lookup ARM64_PREG_RA_SIGN_STATE with
  | none => 0
  | some loc => if loc.type = .PSEUDO_REGISTER then loc.values₀ else 0

/-- The registers of the caller, all of them told by the row and the registers
of the callee. -/
structure EvalContext.Unwinds (c : EvalContext) (locRegs : Locations) (regs : Regs m) (ra : Fin m.total)
    (cfa : BitVec w) (caller : Fin m.total → BitVec w) : Prop where
  frame : ∃ loc, locRegs.lookup CFA_REG = some loc ∧ c.cfaValue loc regs.regs = .ok cfa
  restorable : ∀ reg, ∃ v, c.restored cfa regs.regs locRegs reg = .ok v
  pseudo : ∀ reg loc, locRegs.lookup reg = some loc → loc.type = .PSEUDO_REGISTER → m.arch = .ARCH_ARM64
  sp : caller m.spReg = cfa
  pc : (c.returnAddress cfa regs.regs locRegs ra).map { regs with raSignState := signState locRegs }.authentic =
    .ok (caller m.pcReg)
  others : ∀ reg, reg ≠ m.pcReg → reg ≠ m.spReg → c.restored cfa regs.regs locRegs reg = .ok (caller reg)

/-! ## One after the other -/

variable {c} {cfa : BitVec w} {old : Fin m.total → BitVec w} {e e' e'' : EvalInfo m} {entry : Entry}
  {entries : List Entry} {locRegs : Locations}

theorem toNat_regNumber (reg : Fin m.total) : (regNumber reg).toNat = reg := by
  have := reg.isLt
  have := m.total_le
  rw [regNumber, BitVec.toNat_ofNat, Nat.mod_eq_of_lt (by omega)]

theorem eq_regNumber {k : BitVec 32} {reg : Fin m.total} : k = regNumber reg ↔ k.toNat = reg := by
  rw [← BitVec.toNat_inj, toNat_regNumber]

@[simp] theorem EvalInfo.save_regs (e : EvalInfo m) (reg : Fin m.total) : (e.save reg).regs = e.regs := rfl

@[simp] theorem EvalInfo.save_saved (e : EvalInfo m) (reg : Fin m.total) :
    (e.save reg).saved = Function.update e.saved reg (some (e.regs.regs reg)) := rfl

/-- A saved register is read as it was, whatever it is set to. -/
theorem get_eq {reg : Fin m.total} (hget : e.get = old) (hreg : e.regs.regs reg = old reg)
    (hsaved : e'.saved = (e.save reg).saved) (hregs : ∀ reg', reg' ≠ reg → e'.regs.regs reg' = e.regs.regs reg') :
    e'.get = old := by
  funext reg'
  rw [EvalInfo.get, hsaved, EvalInfo.save_saved]
  by_cases hr : reg' = reg
  · rw [hr, Function.update_self, Option.getD_some, hreg]
  · rw [Function.update_of_ne hr, hregs reg' hr, ← hget]
    rfl

/-- What restoring one register does. -/
structure Written (c : EvalContext) (loc : DwarfLocation) (reg : Fin m.total) (v : BitVec w) (e e' : EvalInfo m) :
    Prop where
  regs : e'.regs.regs = Function.update e.regs.regs reg v
  saved : e'.saved = e.saved
  undefined : e'.returnAddressUndefined = (e.returnAddressUndefined ||
    decide (loc.type = .UNDEFINED ∧ BitVec.ofNat 64 reg = c.cie.returnAddressRegister))
  signState : e'.regs.raSignState = e.regs.raSignState
  pacMask : e'.regs.pacMask = e.regs.pacMask

variable {loc : DwarfLocation} {reg : Fin m.total} {v : BitVec w}

theorem written_set (h : loc.type ≠ .UNDEFINED) : Written c loc reg v e (e.set reg v) :=
  ⟨rfl, rfl, by simp [h, EvalInfo.set], rfl, rfl⟩

theorem written_dexPc (h : Written c loc reg v e e') (dexPc : BitVec 64) :
    Written c loc reg v e { e' with regs := { e'.regs with dexPc } } :=
  ⟨h.regs, h.saved, h.undefined, h.signState, h.pacMask⟩

theorem evalRegister_written (c : EvalContext) (cfa : BitVec w) (hget : e.get = old)
    (hreg : e.regs.regs reg = old reg) (loc : DwarfLocation) :
    match c.value cfa old reg loc with
    | .error f => c.evalRegister cfa loc reg e = .error f
    | .ok v => ∃ e', c.evalRegister cfa loc reg e = .ok e' ∧ Written c loc reg v e e' := by
  have hsame : Function.update e.regs.regs reg (old reg) = e.regs.regs := by rw [← hreg, Function.update_eq_self]
  unfold EvalContext.value EvalContext.evalRegister
  cases htype : loc.type with
  | OFFSET =>
    have hset (v) : Written c loc reg v e (e.set reg v) := written_set (by rw [htype]; nofun)
    cases c.readRegister w (cfa.setWidth 64 + loc.values₀) with
    | error f => rfl
    | ok v => exact ⟨_, rfl, hset v⟩
  | VAL_OFFSET => exact ⟨_, rfl, written_set (by rw [htype]; nofun)⟩
  | REGISTER =>
    rw [hget]
    dsimp only
    by_cases hlt : (loc.values₀.setWidth 32).toNat < m.total
    · rw [dif_pos hlt, dif_pos hlt]
      exact ⟨_, rfl, written_set (by rw [htype]; nofun)⟩
    · rw [dif_neg hlt, dif_neg hlt]
  | EXPRESSION =>
    have hset (v) : Written c loc reg v e (e.set reg v) := written_set (by rw [htype]; nofun)
    rw [hget]
    cases c.evalExpression loc old with
    | error f => rfl
    | ok r =>
      dsimp only [bind_ok]
      cases c.readRegister w (r.1.setWidth 64) with
      | error f => rfl
      | ok v => exact ⟨_, rfl, hset v⟩
  | VAL_EXPRESSION =>
    have hset (v) : Written c loc reg v e (e.set reg v) := written_set (by rw [htype]; nofun)
    rw [hget]
    cases c.evalExpression loc old with
    | error f => rfl
    | ok r =>
      obtain ⟨value, isDexPc⟩ := r
      cases isDexPc
      · exact ⟨_, rfl, hset value⟩
      · exact ⟨_, rfl, written_dexPc (hset value) _⟩
  | UNDEFINED =>
    refine ⟨_, rfl, ?_⟩
    by_cases hra : BitVec.ofNat 64 reg = c.cie.returnAddressRegister
    · rw [if_pos hra]
      exact ⟨hsame.symm, rfl, by simp [htype, hra], rfl, rfl⟩
    · rw [if_neg hra]
      exact ⟨hsame.symm, rfl, by simp [hra], rfl, rfl⟩
  | INVALID => exact ⟨_, rfl, hsame.symm, rfl, by simp [htype], rfl, rfl⟩
  | PSEUDO_REGISTER => rfl

/-- An entry with something to restore from. -/
structure Restorable (c : EvalContext) (cfa : BitVec w) (old : Fin m.total → BitVec w) (entry : Entry) : Prop where
  value : ∀ reg : Fin m.total, entry.1 = regNumber reg → ∃ v, c.value cfa old reg entry.2 = .ok v
  pseudo : entry.2.type = .PSEUDO_REGISTER → m.arch = .ARCH_ARM64

/-- The entry of the return address, where it says that there is none. -/
def EvalContext.NoReturn (c : EvalContext) (m : Machine w) (entry : Entry) : Prop :=
  entry.2.type = .UNDEFINED ∧ ∃ reg : Fin m.total, entry.1 = regNumber reg ∧
    BitVec.ofNat 64 reg = c.cie.returnAddressRegister

def signAfter (sign : BitVec 64) (entry : Entry) : BitVec 64 :=
  if entry.2.type = .PSEUDO_REGISTER then entry.2.values₀ else sign

/-- What restoring some registers does. -/
structure Restores (c : EvalContext) (cfa : BitVec w) (old : Fin m.total → BitVec w) (entries : List Entry)
    (e e' : EvalInfo m) : Prop where
  get : e'.get = old
  restored : ∀ entry ∈ entries, ∀ reg : Fin m.total, entry.1 = regNumber reg →
    c.value cfa old reg entry.2 = .ok (e'.regs.regs reg)
  others : ∀ reg, (∀ entry ∈ entries, entry.1 ≠ regNumber reg) → e'.regs.regs reg = e.regs.regs reg
  undefined : e'.returnAddressUndefined = true ↔
    e.returnAddressUndefined = true ∨ ∃ entry ∈ entries, c.NoReturn m entry
  pseudo : ∀ entry ∈ entries, entry.2.type = .PSEUDO_REGISTER → m.arch = .ARCH_ARM64
  signState : e'.regs.raSignState = entries.foldl signAfter e.regs.raSignState
  pacMask : e'.regs.pacMask = e.regs.pacMask

theorem Restores.nil (hget : e.get = old) : Restores c cfa old [] e e :=
  ⟨hget, nofun, fun _ _ => rfl, by simp, nofun, rfl, rfl⟩

theorem Restores.cons (hnodup : ((entry :: entries).map Sigma.fst).Nodup) (h : Restores c cfa old [entry] e e')
    (h' : Restores c cfa old entries e' e'') : Restores c cfa old (entry :: entries) e e'' := by
  have hnot : ∀ entry' ∈ entries, entry'.1 ≠ entry.1 := fun entry' hmem heq =>
    (List.nodup_cons.mp hnodup).1 (heq ▸ List.mem_map_of_mem hmem)
  refine ⟨h'.get, ?_, ?_, ?_, ?_, ?_, h'.pacMask.trans h.pacMask⟩
  · intro entry' hmem reg hreg
    rcases List.mem_cons.mp hmem with rfl | hmem
    · rw [h'.others reg fun entry'' hmem'' => hreg ▸ hnot entry'' hmem'']
      exact h.restored entry' List.mem_cons_self reg hreg
    · exact h'.restored entry' hmem reg hreg
  · intro reg hreg
    rw [h'.others reg fun entry' hmem => hreg entry' (List.mem_cons_of_mem _ hmem)]
    exact h.others reg fun entry' hmem => hreg entry' (List.mem_singleton.mp hmem ▸ List.mem_cons_self)
  · rw [h'.undefined, h.undefined, or_assoc]
    simp
  · intro entry' hmem
    rcases List.mem_cons.mp hmem with rfl | hmem
    · exact h.pseudo entry' List.mem_cons_self
    · exact h'.pseudo entry' hmem
  · rw [h'.signState, h.signState]
    rfl

/-- An entry that is not a register's. -/
theorem restores_of_not_register (hget : e.get = old) {regs : Regs m}
    (hnum : ∀ reg : Fin m.total, entry.1 ≠ regNumber reg) (hregs : regs.regs = e.regs.regs)
    (hpac : regs.pacMask = e.regs.pacMask)
    (hsign : regs.raSignState = signAfter e.regs.raSignState entry)
    (hpseudo : entry.2.type = .PSEUDO_REGISTER → m.arch = .ARCH_ARM64) :
    Restores c cfa old [entry] e { e with regs } := by
  have hno {entry' : Entry} (hmem : entry' ∈ [entry]) (reg : Fin m.total) : entry'.1 ≠ regNumber reg :=
    List.mem_singleton.mp hmem ▸ hnum reg
  refine ⟨?_, fun _ hmem reg hreg => absurd hreg (hno hmem reg), fun reg _ => congrFun hregs reg, ?_, ?_, hsign, hpac⟩
  · rw [← hget]
    funext reg
    rw [EvalInfo.get, EvalInfo.get, hregs]
  · constructor
    · exact .inl
    · rintro (h | ⟨entry', hmem, -, reg, hreg, -⟩)
      · exact h
      · exact absurd hreg (hno hmem reg)
  · exact fun entry' hmem => List.mem_singleton.mp hmem ▸ hpseudo

theorem regNumber_injective {reg reg' : Fin m.total} (h : regNumber reg = regNumber reg') : reg = reg' :=
  Fin.ext ((eq_regNumber.mp h).symm.trans (toNat_regNumber reg)).symm

/-- An entry that is a register's. -/
theorem restores_of_written (hget : e.get = old) (hreg : e.regs.regs reg = old reg) (hnum : entry.1 = regNumber reg)
    (hv : c.value cfa old reg entry.2 = .ok v) (hw : Written c entry.2 reg v (e.save reg) e') :
    Restores c cfa old [entry] e e' := by
  have hplain : entry.2.type ≠ .PSEUDO_REGISTER := by
    intro h
    rw [EvalContext.value, h] at hv
    cases hv
  have hat : e'.regs.regs reg = v := by rw [hw.regs, Function.update_self]
  have haway (reg') (hne : reg' ≠ reg) : e'.regs.regs reg' = e.regs.regs reg' := by
    rw [hw.regs, Function.update_of_ne hne, EvalInfo.save_regs]
  refine ⟨get_eq hget hreg hw.saved haway, ?_, ?_, ?_, ?_, ?_, hw.pacMask⟩
  · intro entry' hmem reg' hreg'
    rw [List.mem_singleton.mp hmem] at hreg' ⊢
    rw [← regNumber_injective (hnum.symm.trans hreg'), hat, hv]
  · exact fun reg' hreg' => haway reg' fun heq => hreg' entry List.mem_cons_self (heq ▸ hnum)
  · rw [hw.undefined, Bool.or_eq_true, decide_eq_true_eq]
    refine or_congr_right ⟨fun h => ⟨entry, List.mem_cons_self, h.1, reg, hnum, h.2⟩, ?_⟩
    rintro ⟨entry', hmem, htype, reg', hreg', hra⟩
    rw [List.mem_singleton.mp hmem] at htype hreg'
    exact ⟨htype, regNumber_injective (hreg'.symm.trans hnum) ▸ hra⟩
  · exact fun entry' hmem h => absurd (List.mem_singleton.mp hmem ▸ h) hplain
  · rw [hw.signState]
    exact (if_neg hplain).symm

theorem evalEntry_spec (c : EvalContext) (cfa : BitVec w) (hget : e.get = old)
    (hfresh : ∀ reg : Fin m.total, entry.1 = regNumber reg → e.regs.regs reg = old reg)
    (hpseudo : entry.2.type = .PSEUDO_REGISTER → entry.1 = ARM64_PREG_RA_SIGN_STATE) :
    (∀ e', c.evalEntry cfa e entry = .ok e' → Restores c cfa old [entry] e e') ∧
      (Restorable c cfa old entry → ∃ e', c.evalEntry cfa e entry = .ok e') := by
  unfold EvalContext.evalEntry
  by_cases hcfa : entry.1 = CFA_REG
  · rw [if_pos hcfa]
    refine ⟨fun e' h => ?_, fun _ => ⟨e, rfl⟩⟩
    cases h
    have hplain : entry.2.type ≠ .PSEUDO_REGISTER := fun h => absurd (hcfa.symm.trans (hpseudo h)) (by decide)
    refine restores_of_not_register hget (fun reg hreg => ?_) rfl rfl (if_neg hplain).symm fun h => absurd h hplain
    have hlt := reg.isLt
    have htotal := m.total_le
    rw [hcfa, eq_regNumber] at hreg
    have hvalue : CFA_REG.toNat = 0xffff := rfl
    omega
  rw [if_neg hcfa]
  by_cases hlt : entry.1.toNat < m.total
  · rw [dif_pos hlt]
    have hnum : entry.1 = regNumber ⟨_, hlt⟩ := eq_regNumber.mpr rfl
    have hreg := hfresh _ hnum
    have hsaved : (e.save ⟨_, hlt⟩).get = old := get_eq hget hreg rfl fun _ _ => rfl
    have hwritten := evalRegister_written c cfa hsaved hreg entry.2
    constructor
    · intro e' h
      cases hv : c.value cfa old ⟨_, hlt⟩ entry.2 with
      | error f =>
        rw [hv] at hwritten
        rw [show c.evalRegister cfa entry.2 _ _ = .error f from hwritten] at h
        cases h
      | ok v =>
        rw [hv] at hwritten
        obtain ⟨e'', he'', hw⟩ := hwritten
        cases h.symm.trans he''
        exact restores_of_written hget hreg hnum hv hw
    · intro hr
      obtain ⟨v, hv⟩ := hr.value _ hnum
      rw [hv] at hwritten
      obtain ⟨e', he', -⟩ := hwritten
      exact ⟨e', he'⟩
  · have hnum (reg : Fin m.total) : entry.1 ≠ regNumber reg := fun h => hlt (eq_regNumber.mp h ▸ reg.isLt)
    rw [dif_neg hlt]
    by_cases htype : entry.2.type = .PSEUDO_REGISTER
    · rw [if_neg (not_not_intro htype), hpseudo htype, Regs.setPseudoRegister]
      by_cases harch : m.arch = .ARCH_ARM64
      · rw [if_pos ⟨harch, rfl⟩]
        refine ⟨fun e' h => ?_, fun _ => ⟨_, rfl⟩⟩
        cases h
        exact restores_of_not_register hget hnum rfl rfl (if_pos htype).symm fun _ => harch
      · rw [if_neg fun h => harch h.1]
        exact ⟨nofun, fun hr => absurd (hr.pseudo htype) harch⟩
    · rw [if_pos htype]
      refine ⟨fun e' h => ?_, fun _ => ⟨e, rfl⟩⟩
      cases h
      exact restores_of_not_register hget hnum rfl rfl (if_neg htype).symm fun h => absurd h htype

theorem foldlM_restores : ∀ {entries : List Entry} {e : EvalInfo m}, (entries.map Sigma.fst).Nodup →
    (∀ entry ∈ entries, entry.2.type = .PSEUDO_REGISTER → entry.1 = ARM64_PREG_RA_SIGN_STATE) → e.get = old →
    (∀ entry ∈ entries, ∀ reg : Fin m.total, entry.1 = regNumber reg → e.regs.regs reg = old reg) →
    (∀ e', entries.foldlM (c.evalEntry cfa) e = .ok e' → Restores c cfa old entries e e') ∧
      ((∀ entry ∈ entries, Restorable c cfa old entry) → ∃ e', entries.foldlM (c.evalEntry cfa) e = .ok e')
  | [], e, _, _, hget, _ => ⟨fun e' h => by cases h; exact .nil hget, fun _ => ⟨e, rfl⟩⟩
  | entry :: entries, e, hnodup, hpseudo, hget, hfresh => by
    have hstep := evalEntry_spec c cfa hget (hfresh entry List.mem_cons_self)
      (hpseudo entry List.mem_cons_self)
    have hnot := (List.nodup_cons.mp hnodup).1
    rw [List.foldlM_cons]
    have hrest {e₁} (h₁ : Restores c cfa old [entry] e e₁) :=
      foldlM_restores (List.nodup_cons.mp hnodup).2
        (fun entry' hmem => hpseudo entry' (List.mem_cons_of_mem _ hmem)) h₁.get fun entry' hmem reg hreg => by
          rw [h₁.others reg fun entry'' hmem'' heq => ?_]
          · exact hfresh entry' (List.mem_cons_of_mem _ hmem) reg hreg
          · rw [List.mem_singleton.mp hmem''] at heq
            exact hnot (List.mem_map.mpr ⟨entry', hmem, hreg.trans heq.symm⟩)
    constructor
    · intro e' h
      obtain ⟨e₁, h₁, h⟩ := bind_eq_ok.mp h
      exact .cons hnodup (hstep.1 e₁ h₁) ((hrest (hstep.1 e₁ h₁)).1 e' h)
    · intro hall
      obtain ⟨e₁, h₁⟩ := hstep.2 (hall entry List.mem_cons_self)
      rw [h₁]
      exact (hrest (hstep.1 e₁ h₁)).2 fun entry' hmem => hall entry' (List.mem_cons_of_mem _ hmem)

/-! ## The order does not matter -/

theorem foldl_signAfter_of_plain : ∀ {entries : List Entry} {sign : BitVec 64},
    (∀ entry ∈ entries, entry.2.type ≠ .PSEUDO_REGISTER) → entries.foldl signAfter sign = sign
  | [], _, _ => rfl
  | entry :: entries, sign, h => by
    rw [List.foldl_cons, signAfter, if_neg (h entry List.mem_cons_self)]
    exact foldl_signAfter_of_plain fun entry' hmem => h entry' (List.mem_cons_of_mem _ hmem)

theorem foldl_signAfter_of_mem : ∀ {entries : List Entry} {sign : BitVec 64}, (entries.map Sigma.fst).Nodup →
    (∀ entry ∈ entries, entry.2.type = .PSEUDO_REGISTER → entry.1 = ARM64_PREG_RA_SIGN_STATE) →
    ∀ entry ∈ entries, entry.2.type = .PSEUDO_REGISTER → entries.foldl signAfter sign = entry.2.values₀
  | [], _, _, _, _, hmem, _ => nomatch hmem
  | first :: entries, sign, hnodup, hpseudo, entry, hmem, htype => by
    obtain ⟨hnot, hnodup⟩ := List.nodup_cons.mp hnodup
    have hkey := hpseudo entry hmem htype
    rw [List.foldl_cons]
    rcases List.mem_cons.mp hmem with rfl | hmem
    · rw [signAfter, if_pos htype]
      refine foldl_signAfter_of_plain fun entry' hmem' htype' => hnot ?_
      rw [hkey, ← hpseudo entry' (List.mem_cons_of_mem _ hmem') htype']
      exact List.mem_map_of_mem hmem'
    · exact foldl_signAfter_of_mem hnodup (fun entry' hmem' => hpseudo entry' (List.mem_cons_of_mem _ hmem')) entry
        hmem htype

/-- The only pseudo register of a row is that of the signature. -/
def OnlySignState (locRegs : Locations) : Prop :=
  ∀ reg loc, locRegs.lookup reg = some loc → loc.type = .PSEUDO_REGISTER → reg = ARM64_PREG_RA_SIGN_STATE

theorem start_regs (regs : Regs m) : (EvalInfo.start regs).regs.regs = regs.regs := Regs.resetPseudoRegisters_regs _

section Order

variable (hentries : (entries : Multiset Entry) = locRegs.entries)
include hentries

theorem mem_iff_lookup {reg : BitVec 32} {loc : DwarfLocation} :
    (⟨reg, loc⟩ : Entry) ∈ entries ↔ locRegs.lookup reg = some loc := by
  rw [← FiniteMap.mem_entries, ← hentries, Multiset.mem_coe]

theorem nodup_keys : (entries.map Sigma.fst).Nodup := by
  have h := locRegs.nodupKeys.nodup_keys
  rw [← hentries] at h
  exact h

theorem foldl_signAfter_eq (h : OnlySignState locRegs) : entries.foldl signAfter 0 = signState locRegs := by
  have hpseudo : ∀ entry ∈ entries, entry.2.type = .PSEUDO_REGISTER → entry.1 = ARM64_PREG_RA_SIGN_STATE :=
    fun entry hmem => h entry.1 entry.2 ((mem_iff_lookup hentries).mp hmem)
  have hplain (hno : ∀ loc, locRegs.lookup ARM64_PREG_RA_SIGN_STATE = some loc → loc.type ≠ .PSEUDO_REGISTER) :
      entries.foldl signAfter 0 = 0 := by
    refine foldl_signAfter_of_plain fun entry hmem htype => hno entry.2 ?_ htype
    rw [← hpseudo entry hmem htype]
    exact (mem_iff_lookup hentries).mp hmem
  unfold signState
  cases hl : locRegs.lookup ARM64_PREG_RA_SIGN_STATE with
  | none => exact hplain (hl ▸ nofun)
  | some loc =>
    dsimp only
    split
    · next htype =>
      exact foldl_signAfter_of_mem (nodup_keys hentries) hpseudo ⟨_, loc⟩ ((mem_iff_lookup hentries).mpr hl) htype
    · next htype =>
      refine hplain fun loc' hl' => ?_
      cases hl.symm.trans hl'
      exact htype

theorem restored_eq {regs : Regs m} (hregs : e.regs.regs = regs.regs)
    (h : Restores c cfa regs.regs entries e e') (reg : Fin m.total) :
    c.restored cfa regs.regs locRegs reg = .ok (e'.regs.regs reg) := by
  unfold EvalContext.restored
  cases hl : locRegs.lookup (regNumber reg) with
  | none =>
    rw [h.others reg fun entry hmem heq => ?_, hregs]
    rw [← heq, (mem_iff_lookup hentries).mp hmem] at hl
    cases hl
  | some loc => exact h.restored ⟨_, loc⟩ ((mem_iff_lookup hentries).mpr hl) reg rfl

theorem noReturn_iff {ra : Fin m.total} (hra : c.cie.returnAddressRegister.toNat = ra) :
    (∃ entry ∈ entries, c.NoReturn m entry) ↔ (locRegs.lookup (regNumber ra)).any (·.type = .UNDEFINED) = true := by
  have hreg (reg : Fin m.total) : BitVec.ofNat 64 reg = c.cie.returnAddressRegister ↔ reg = ra := by
    have := reg.isLt
    have := m.total_le
    rw [← BitVec.toNat_inj, BitVec.toNat_ofNat, Nat.mod_eq_of_lt (by omega), hra, Fin.ext_iff]
  rw [Option.any_eq_true]
  constructor
  · rintro ⟨⟨k, loc⟩, hmem, htype, reg, rfl, hreg'⟩
    cases (hreg reg).mp hreg'
    exact ⟨loc, (mem_iff_lookup hentries).mp hmem, decide_eq_true htype⟩
  · rintro ⟨loc, hl, htype⟩
    exact ⟨⟨_, loc⟩, (mem_iff_lookup hentries).mpr hl, of_decide_eq_true htype, ra, rfl, (hreg ra).mpr rfl⟩

theorem foldlM_restores_start {regs : Regs m} (hsign : OnlySignState locRegs) :
    (∀ e', entries.foldlM (c.evalEntry cfa) (EvalInfo.start regs) = .ok e' →
        Restores c cfa regs.regs entries (EvalInfo.start regs) e') ∧
      ((∀ entry ∈ entries, Restorable c cfa regs.regs entry) →
        ∃ e', entries.foldlM (c.evalEntry cfa) (EvalInfo.start regs) = .ok e') :=
  foldlM_restores (nodup_keys hentries)
    (fun entry hmem => hsign entry.1 entry.2 ((mem_iff_lookup hentries).mp hmem)) (start_regs regs)
    fun _ _ reg _ => congrFun (start_regs regs) reg

variable {regs : Regs m} {ra : Fin m.total} (hra : c.cie.returnAddressRegister.toNat = ra)
include hra

theorem eval_unwinds (hsign : OnlySignState locRegs) {r : Regs m} {finished : Bool}
    (h : c.eval entries locRegs regs = .ok (r, finished)) :
    (∃ cfa, c.Unwinds locRegs regs ra cfa r.regs) ∧
      finished = (decide (r.regs m.pcReg = 0) && !c.cie.isSignalFrame) := by
  unfold EvalContext.eval at h
  rw [dif_pos (hra ▸ ra.isLt)] at h
  cases hl : locRegs.lookup CFA_REG with
  | none =>
    rw [hl] at h
    cases h
  | some loc =>
    rw [hl] at h
    obtain ⟨cfa, hcfa, h⟩ := bind_eq_ok.mp h
    obtain ⟨e, he, h⟩ := bind_eq_ok.mp h
    have hr := (foldlM_restores_start hentries hsign).1 e he
    have hrestored := restored_eq hentries (start_regs regs) hr
    have hundefined : e.returnAddressUndefined = (locRegs.lookup (regNumber ra)).any (·.type = .UNDEFINED) := by
      rw [Bool.eq_iff_iff, hr.undefined, noReturn_iff hentries hra]
      exact or_iff_right nofun
    have hauthentic : e.regs.authentic = { regs with raSignState := signState locRegs }.authentic := by
      refine Regs.authentic_congr (hr.pacMask.trans (Regs.resetPseudoRegisters_pacMask _)) fun harch => ?_
      rw [hr.signState, ← foldl_signAfter_eq hentries hsign]
      rw [EvalInfo.start, Regs.resetPseudoRegisters_raSignState _ harch]
    cases h
    rw [start_regs] at hcfa
    refine ⟨⟨cfa, ⟨loc, hl, hcfa⟩, fun reg => ⟨_, hrestored reg⟩, ?_, Regs.setSp_sp .., ?_, ?_⟩, ?_⟩
    · exact fun reg loc hloc => hr.pseudo ⟨reg, loc⟩ ((mem_iff_lookup hentries).mpr hloc)
    · have hra' : (⟨_, hra ▸ ra.isLt⟩ : Fin m.total) = ra := Fin.ext hra
      rw [EvalContext.returnAddress, ← hundefined, ← hauthentic, hra']
      show _ = Except.ok ((Regs.setSp _ cfa).pc)
      rw [Regs.setSp_pc, Regs.setPc_pc]
      split
      · rfl
      · rw [hrestored]
        rfl
    · intro reg hpc hsp
      rw [hrestored reg]
      refine congrArg _ (Eq.symm ?_)
      show Function.update (Function.update _ _ _) _ _ _ = _
      rw [Function.update_of_ne hsp, Function.update_of_ne hpc]
    · show _ = (decide ((Regs.setSp _ cfa).pc = 0) && _)
      rw [Regs.setSp_pc]

theorem eval_exists (h : ∃ cfa caller, c.Unwinds locRegs regs ra cfa caller) (hsign : OnlySignState locRegs) :
    ∃ r, c.eval entries locRegs regs = .ok r := by
  obtain ⟨cfa, caller, h⟩ := h
  obtain ⟨loc, hl, hcfa⟩ := h.frame
  have hall : ∀ entry ∈ entries, Restorable c cfa regs.regs entry := by
    intro entry hmem
    have hlookup := (mem_iff_lookup hentries).mp hmem
    refine ⟨fun reg hreg => ?_, h.pseudo entry.1 entry.2 hlookup⟩
    obtain ⟨v, hv⟩ := h.restorable reg
    rw [EvalContext.restored, ← hreg, hlookup] at hv
    exact ⟨v, hv⟩
  obtain ⟨e, he⟩ := (foldlM_restores_start hentries hsign).2 hall
  unfold EvalContext.eval
  rw [dif_pos (hra ▸ ra.isLt), hl]
  dsimp only
  rw [start_regs, hcfa, bind_ok, he]
  exact ⟨_, rfl⟩

omit hentries hra in
theorem EvalContext.Unwinds.unique {cfa' : BitVec w} {caller caller' : Fin m.total → BitVec w}
    (h : c.Unwinds locRegs regs ra cfa caller) (h' : c.Unwinds locRegs regs ra cfa' caller') : caller = caller' := by
  obtain ⟨loc, hl, hcfa⟩ := h.frame
  obtain ⟨loc', hl', hcfa'⟩ := h'.frame
  cases hl.symm.trans hl'
  cases hcfa.symm.trans hcfa'
  funext reg
  by_cases hsp : reg = m.spReg
  · rw [hsp, h.sp, h'.sp]
  by_cases hpc : reg = m.pcReg
  · rw [hpc]
    exact Except.ok.inj (h.pc.symm.trans h'.pc)
  · exact Except.ok.inj ((h.others reg hpc hsp).symm.trans (h'.others reg hpc hsp))

/-- **Registers are restored at once**: in whatever order the entries of the row
come, the evaluation goes through if each of them can be restored from the
registers of the callee, and then gives the registers of the caller so. -/
theorem eval_iff (hsign : OnlySignState locRegs) (caller : Fin m.total → BitVec w) (finished : Bool) :
    (∃ r, c.eval entries locRegs regs = .ok (r, finished) ∧ r.regs = caller) ↔
      (∃ cfa, c.Unwinds locRegs regs ra cfa caller) ∧
        finished = (decide (caller m.pcReg = 0) && !c.cie.isSignalFrame) := by
  constructor
  · rintro ⟨r, h, rfl⟩
    exact eval_unwinds hentries hra hsign h
  · rintro ⟨⟨cfa, h⟩, hfinished⟩
    obtain ⟨⟨r, finished'⟩, hr⟩ := eval_exists hentries hra ⟨cfa, caller, h⟩ hsign
    obtain ⟨⟨cfa', h'⟩, hfinished'⟩ := eval_unwinds hentries hra hsign hr
    have hcaller := h'.unique h
    rw [hcaller, ← hfinished] at hfinished'
    exact ⟨r, hfinished' ▸ hr, hcaller⟩

end Order

/-! ## Rows have no other pseudo register -/

theorem OnlySignState.insert (h : OnlySignState locRegs) {reg : BitVec 32} {loc : DwarfLocation}
    (hloc : loc.type = .PSEUDO_REGISTER → reg = ARM64_PREG_RA_SIGN_STATE) :
    OnlySignState (Finmap.insert reg loc locRegs) := by
  intro reg' loc' hlookup htype
  rw [FiniteMap.lookup_insert_eq] at hlookup
  split at hlookup
  · next heq =>
    cases hlookup
    exact heq ▸ hloc htype
  · exact h reg' loc' hlookup htype

theorem OnlySignState.erase (h : OnlySignState locRegs) (reg : BitVec 32) :
    OnlySignState (Finmap.erase reg locRegs) := by
  intro reg' loc' hlookup htype
  rw [FiniteMap.lookup_erase_eq] at hlookup
  split at hlookup
  · cases hlookup
  · exact h reg' loc' hlookup htype

/-- The locations, now and remembered, have only the sign state. -/
structure OnlySigned (s : CfaState w) : Prop where
  regs : OnlySignState s.locRegs.regs
  remembered : ∀ locRegs ∈ s.locRegState, OnlySignState locRegs.regs

/-- What comes out, if anything does, has a property. -/
def Ensures {α : Type} (P : α → Prop) (x : Result α) : Prop := ∀ v, x = .ok v → P v

theorem Ensures.ok {α : Type} {P : α → Prop} {v : α} (h : P v) : Ensures P (.ok v) := fun _ hv => by
  cases hv
  exact h

theorem Ensures.error {α : Type} {P : α → Prop} (e : Fault) : Ensures P (.error e) := nofun

theorem Ensures.bind {α β : Type} {P : β → Prop} {x : Result α} {f : α → Result β}
    (h : ∀ a, x = .ok a → Ensures P (f a)) : Ensures P (x >>= f) := by
  intro v hv
  obtain ⟨a, ha, hf⟩ := bind_eq_ok.mp hv
  exact h a ha v hf

variable {s : CfaState w} {cfa : CfaContext}

theorem OnlySigned.set (h : OnlySigned s) (reg : BitVec w) {loc : DwarfLocation} (hloc : loc.type ≠ .PSEUDO_REGISTER) :
    OnlySigned (s.set reg loc) :=
  ⟨h.regs.insert fun htype => absurd htype hloc, h.remembered⟩

theorem OnlySigned.setCfa (h : OnlySigned s) {loc : DwarfLocation} (hloc : loc.type ≠ .PSEUDO_REGISTER) :
    OnlySigned (s.setCfa loc) :=
  ⟨h.regs.insert fun htype => absurd htype hloc, h.remembered⟩

theorem OnlySigned.erase (h : OnlySigned s) (reg : BitVec w) : OnlySigned (s.erase reg) :=
  ⟨h.regs.erase _, h.remembered⟩

theorem cfaRegister_type : Ensures (fun loc => loc.type ≠ .PSEUDO_REGISTER) s.cfaRegister := by
  unfold CfaState.cfaRegister
  split
  · split
    · next htype => exact .ok (by rw [htype]; nofun)
    · exact .error _
  · exact .error _

theorem onlySigned_handle (hcie : ∀ locRegs, cfa.cieLocRegs = some locRegs → OnlySignState locRegs) (h : OnlySigned s)
    (operands : List (BitVec w)) (func : CfaFunc) : Ensures OnlySigned (cfa.handle operands s func) := by
  cases func with
  | nop => exact .ok h
  | setLoc | advanceLoc => exact .bind fun _ _ => .ok ⟨h.regs, h.remembered⟩
  | offset | register | expression | valExpression => exact .bind fun _ _ => .bind fun _ _ => .ok (h.set _ nofun)
  | offsetExtendedSf | valOffset | valOffsetSf | gnuNegativeOffsetExtended =>
    exact .bind fun _ _ => .bind fun _ _ => .bind fun _ _ => .ok (h.set _ nofun)
  | undefined => exact .bind fun _ _ => .ok (h.set _ nofun)
  | sameValue => exact .bind fun _ _ => .ok (h.erase _)
  | restore =>
    refine .bind fun reg _ => ?_
    split
    · exact .error _
    · next cieLocRegs hc =>
      split
      · exact .ok (h.erase _)
      · next loc hl => exact .ok ⟨h.regs.insert fun htype => hcie _ hc _ _ hl htype, h.remembered⟩
  | rememberState =>
    refine .ok ⟨h.regs, ?_⟩
    rintro locRegs (_ | ⟨_, hmem⟩)
    · exact h.regs
    · exact h.remembered locRegs hmem
  | restoreState =>
    show Ensures _ (cfaRestoreState s)
    unfold cfaRestoreState
    split
    · exact .ok h
    · next top rest hs =>
      exact .ok ⟨h.remembered top (hs ▸ List.mem_cons_self), fun locRegs hmem =>
        h.remembered locRegs (hs ▸ List.mem_cons_of_mem _ hmem)⟩
  | defCfa => exact .bind fun _ _ => .bind fun _ _ => .ok (h.setCfa nofun)
  | defCfaRegister | defCfaOffset => exact .bind fun loc hl => .bind fun _ _ => .ok (h.setCfa (cfaRegister_type loc hl))
  | defCfaOffsetSf =>
    exact .bind fun loc hl => .bind fun _ _ => .bind fun _ _ => .ok (h.setCfa (cfaRegister_type loc hl))
  | defCfaExpression => exact .bind fun _ _ => .ok (h.setCfa nofun)
  | defCfaSf => exact .bind fun _ _ => .bind fun _ _ => .bind fun _ _ => .ok (h.setCfa nofun)
  | aarch64NegateRaState =>
    show Ensures _ (cfaAarch64NegateRaState cfa s)
    unfold cfaAarch64NegateRaState
    split
    · exact .error _
    · exact .ok ⟨h.regs.insert fun _ => rfl, h.remembered⟩

theorem onlySigned_step (hcie : ∀ locRegs, cfa.cieLocRegs = some locRegs → OnlySignState locRegs) (h : OnlySigned s) :
    Ensures OnlySigned (cfa.step s) := by
  refine .bind fun b _ => ?_
  dsimp only
  split
  · exact .ok ⟨h.regs, h.remembered⟩
  · exact .bind fun _ _ => .bind fun _ _ => .ok ⟨h.regs.insert nofun, h.remembered⟩
  · split
    · exact .error _
    · next cieLocRegs hc =>
      refine .ok ⟨?_, h.remembered⟩
      dsimp only
      split
      · exact h.regs.erase _
      · next loc hl => exact h.regs.insert fun htype => hcie _ hc _ _ hl htype
  · unfold CfaContext.extended
    split
    · refine .bind fun _ _ => onlySigned_handle hcie ?_ _ _
      exact ⟨h.regs, h.remembered⟩
    · exact .error _

theorem onlySigned_locationLoop (hcie : ∀ locRegs, cfa.cieLocRegs = some locRegs → OnlySignState locRegs)
    {pc endOffset : BitVec 64} : ∀ {fuel : ℕ} {s s' : CfaState w}, OnlySigned s →
      cfa.locationLoop pc endOffset fuel s = some (.ok s') → OnlySigned s'
  | 0, _, _, _, h => by cases h
  | fuel + 1, s, s', hs, h => by
    rw [CfaContext.locationLoop] at h
    split at h
    · cases h
      exact ⟨hs.regs, hs.remembered⟩
    · split at h
      · cases h
        exact ⟨hs.regs, hs.remembered⟩
      · cases hstep : cfa.step s with
        | error e =>
          rw [hstep] at h
          cases h
        | ok s₁ =>
          rw [hstep] at h
          exact onlySigned_locationLoop hcie (onlySigned_step hcie hs s₁ hstep) h

/-- Whatever the bytes of a program, its rows have no pseudo register but the
sign state. -/
theorem onlySigned_getLocationInfo (hcie : ∀ locRegs, cfa.cieLocRegs = some locRegs → OnlySignState locRegs)
    {fuel : ℕ} {pc startOffset endOffset : BitVec 64} {locRegs : DwarfLocations} {locRegState : List DwarfLocations}
    (hstart : OnlySigned { off := startOffset, curPc := cfa.fde.pcStart.setWidth w, locRegs, locRegState })
    (h : cfa.getLocationInfo w fuel pc startOffset endOffset locRegs locRegState = some (.ok s)) : OnlySigned s := by
  refine onlySigned_locationLoop hcie ?_ h
  unfold CfaContext.start
  split
  · exact ⟨hstart.regs, hstart.remembered⟩
  · next cieLocRegs hc =>
    refine ⟨fun reg loc hl htype => ?_, hstart.remembered⟩
    dsimp only [overwrite] at hl
    by_cases hmem : reg ∈ cieLocRegs
    · rw [Finmap.lookup_union_left hmem] at hl
      exact hcie _ hc reg loc hl htype
    · rw [Finmap.lookup_union_right hmem] at hl
      exact hstart.regs reg loc hl htype

theorem onlySignState_empty : OnlySignState ∅ := fun _ _ h => by
  rw [Finmap.lookup_empty] at h
  cases h

/-- **Rows are carried out at once**: of the row that the programs of a CIE and
an FDE give, whatever their bytes, where the return address has a register,
the evaluation goes through if each entry can be restored from the registers of
the callee, and then gives the registers of the caller so, in whatever order
the entries come. -/
theorem eval_row_iff {m : Machine w} {cie fde : CfaContext} {fuel fuel' : ℕ}
    {pc cieStart cieEnd fdeStart fdeEnd : BitVec 64}
    {initial row : CfaState w} (hnone : cie.cieLocRegs = none) (hsome : fde.cieLocRegs = some initial.locRegs.regs)
    (hinitial : cie.getLocationInfo w fuel pc cieStart cieEnd { regs := ∅ } [] = some (.ok initial))
    (hrow : fde.getLocationInfo w fuel' pc fdeStart fdeEnd initial.locRegs initial.locRegState = some (.ok row))
    {c : EvalContext} {entries : List Entry} (hentries : (entries : Multiset Entry) = row.locRegs.regs.entries)
    {ra : Fin m.total} (hra : c.cie.returnAddressRegister.toNat = ra) (regs : Regs m) (caller : Fin m.total → BitVec w)
    (finished : Bool) :
    (∃ r, c.eval entries row.locRegs.regs regs = .ok (r, finished) ∧ r.regs = caller) ↔
      (∃ cfa, c.Unwinds row.locRegs.regs regs ra cfa caller) ∧
        finished = (decide (caller m.pcReg = 0) && !c.cie.isSignalFrame) := by
  have hcie : OnlySigned initial :=
    onlySigned_getLocationInfo (fun _ h => by rw [hnone] at h; cases h)
      ⟨onlySignState_empty, fun _ h => absurd h List.not_mem_nil⟩ hinitial
  have hfde : OnlySigned row := by
    refine onlySigned_getLocationInfo (fun _ h => ?_) ⟨hcie.regs, hcie.remembered⟩ hrow
    rw [hsome] at h
    cases h
    exact hcie.regs
  exact eval_iff hentries hra hfde.regs caller finished

/-- The programs of a CIE and of a function that has pushed a register, on
x86-64. -/
def pushedPrograms : Memory := Memory.buffer [0x0c, 7, 8, 0x90, 1, 0x0e, 16] (by decide)

def pushedCfa (cieLocRegs : Option Locations) : CfaContext where
  memory := { memory := pushedPrograms }
  fde := { pcStart := 0x1000, pcEnd := 0x1010, cie := { codeAlignmentFactor := 1, dataAlignmentFactor := -8 } }
  arch := .ARCH_X86_64
  cieLocRegs

def pushedContext : EvalContext where
  memory := { memory := pushedPrograms }
  regularMemory := Memory.buffer [0, 0, 0, 0, 0, 0, 0, 0, 0x34, 0x12, 0, 0, 0, 0, 0, 0] (by decide)
  cie := { returnAddressRegister := 16 }

def pushedCaller : Fin Machine.x86_64.total → BitVec 64 :=
  Function.update (Function.update (fun _ => 0) Machine.x86_64.pcReg 0x1234) Machine.x86_64.spReg 16

theorem eval_row_iff_pushed : ∃ (row : CfaState 64) (cfa : BitVec 64),
    pushedContext.Unwinds row.locRegs.regs { regs := fun _ => 0 } Machine.x86_64.pcReg cfa pushedCaller := by
  obtain ⟨initial, hinitial⟩ : ∃ initial, (pushedCfa none).getLocationInfo 64 3 0x1000 0 5 { regs := ∅ } [] =
    some (.ok initial) := ⟨_, rfl⟩
  have h : ∃ row, (pushedCfa (some initial.locRegs.regs)).getLocationInfo 64 3 0x1000 5 7 initial.locRegs
    initial.locRegState = some (.ok row) := by
    cases hinitial
    exact ⟨_, rfl⟩
  obtain ⟨row, hrow⟩ := h
  let entries : List Entry :=
    [⟨CFA_REG, { type := .REGISTER, values₀ := 7, values₁ := 16 }⟩, ⟨16, { type := .OFFSET, values₀ := -8 }⟩]
  have hentries : (entries : Multiset Entry) = row.locRegs.regs.entries := by
    cases hinitial
    cases hrow
    decide +kernel
  have hra : pushedContext.cie.returnAddressRegister.toNat = Machine.x86_64.pcReg := rfl
  have h : ∃ r, pushedContext.eval entries row.locRegs.regs (m := Machine.x86_64) { regs := fun _ => 0 } =
      .ok (r, false) ∧ r.regs = pushedCaller := by
    cases hinitial
    cases hrow
    exact ⟨_, rfl, funext (by decide +kernel)⟩
  obtain ⟨cfa, hcfa⟩ := ((eval_row_iff rfl rfl hinitial hrow hentries hra _ pushedCaller false).mp h).1
  exact ⟨row, cfa, hcfa⟩

end AllocHook.Unwindstack
