/-
The registers of a frame (`Regs*.cpp`, `Machine*.h`): their numbers are those
of the debug information, and `AddressType` has `w` bits.

Of the pseudo registers only ARM64 has one, whether the return address is
signed; `set_pc` takes the signature out of a pc that is.
-/
import AllocHook.Unwindstack.DwarfCfa

namespace AllocHook.Unwindstack

/-- An architecture. Its `RegsInfo` has room for all registers. -/
structure Machine (w : ℕ) where
  arch : ArchEnum
  total : ℕ
  total_le : total ≤ 64
  pcReg : Fin total
  spReg : Fin total
  spReg_ne_pcReg : spReg ≠ pcReg
  /-- `__bionic_clear_pac_bits`, or nothing where the library is not there. -/
  clearPacBits : BitVec w → BitVec w := id

def Machine.arm : Machine 32 :=
  { arch := .ARCH_ARM, total := 16, total_le := by decide, pcReg := 15, spReg := 13, spReg_ne_pcReg := by decide }

def Machine.arm64 (clearPacBits : BitVec 64 → BitVec 64) : Machine 64 :=
  { arch := .ARCH_ARM64, total := 34, total_le := by decide, pcReg := 32, spReg := 31, spReg_ne_pcReg := by decide
    clearPacBits }

def Machine.x86 : Machine 32 :=
  { arch := .ARCH_X86, total := 16, total_le := by decide, pcReg := 8, spReg := 4, spReg_ne_pcReg := by decide }

def Machine.x86_64 : Machine 64 :=
  { arch := .ARCH_X86_64, total := 17, total_le := by decide, pcReg := 16, spReg := 7, spReg_ne_pcReg := by decide }

def Machine.mips : Machine 32 :=
  { arch := .ARCH_MIPS, total := 33, total_le := by decide, pcReg := 32, spReg := 29, spReg_ne_pcReg := by decide }

def Machine.mips64 : Machine 64 :=
  { arch := .ARCH_MIPS64, total := 33, total_le := by decide, pcReg := 32, spReg := 29, spReg_ne_pcReg := by decide }

variable {w : ℕ} {m : Machine w}

structure Regs (m : Machine w) where
  regs : Fin m.total → BitVec w
  dexPc : BitVec 64 := 0
  /-- `pseudo_regs_`. -/
  raSignState : BitVec 64 := 0
  pacMask : BitVec w := 0

def Regs.pc (r : Regs m) : BitVec w := r.regs m.pcReg

def Regs.sp (r : Regs m) : BitVec w := r.regs m.spReg

def Regs.set (r : Regs m) (reg : Fin m.total) (v : BitVec w) : Regs m := { r with regs := Function.update r.regs reg v }

def Regs.resetPseudoRegisters (r : Regs m) : Regs m :=
  if m.arch = .ARCH_ARM64 then { r with raSignState := 0 } else r

def Regs.setPseudoRegister (r : Regs m) (id : BitVec 16) (value : BitVec 64) : Option (Regs m) :=
  if m.arch = .ARCH_ARM64 ∧ id = ARM64_PREG_RA_SIGN_STATE.setWidth 16 then some { r with raSignState := value }
  else none

/-- `strip_pac`. -/
def stripPac (m : Machine w) (pc mask : BitVec w) : BitVec w := if mask ≠ 0 then pc &&& ~~~mask else m.clearPacBits pc

/-- What `set_pc` makes of a pc. -/
def Regs.authentic (r : Regs m) (pc : BitVec w) : BitVec w :=
  if m.arch = .ARCH_ARM64 ∧ pc ≠ 0 ∧ r.raSignState ≠ 0 then stripPac m pc r.pacMask else pc

def Regs.setPc (r : Regs m) (pc : BitVec w) : Regs m := r.set m.pcReg (r.authentic pc)

def Regs.setSp (r : Regs m) (sp : BitVec w) : Regs m := r.set m.spReg sp

@[simp] theorem Regs.setPc_pc (r : Regs m) (pc : BitVec w) : (r.setPc pc).pc = r.authentic pc := Function.update_self ..

@[simp] theorem Regs.setSp_sp (r : Regs m) (sp : BitVec w) : (r.setSp sp).sp = sp := Function.update_self ..

@[simp] theorem Regs.setSp_pc (r : Regs m) (sp : BitVec w) : (r.setSp sp).pc = r.pc :=
  Function.update_of_ne m.spReg_ne_pcReg.symm ..

@[simp] theorem Regs.resetPseudoRegisters_regs (r : Regs m) : r.resetPseudoRegisters.regs = r.regs := by
  unfold Regs.resetPseudoRegisters
  split <;> rfl

@[simp] theorem Regs.resetPseudoRegisters_pacMask (r : Regs m) : r.resetPseudoRegisters.pacMask = r.pacMask := by
  unfold Regs.resetPseudoRegisters
  split <;> rfl

theorem Regs.resetPseudoRegisters_raSignState (r : Regs m) (h : m.arch = .ARCH_ARM64) :
    r.resetPseudoRegisters.raSignState = 0 := by rw [Regs.resetPseudoRegisters, if_pos h]

theorem Regs.authentic_congr {r r' : Regs m} (hpac : r.pacMask = r'.pacMask)
    (hsign : m.arch = .ARCH_ARM64 → r.raSignState = r'.raSignState) : r.authentic = r'.authentic := by
  funext pc
  unfold Regs.authentic
  by_cases h : m.arch = .ARCH_ARM64
  · rw [hsign h, hpac]
  · rw [if_neg fun h' => h h'.1, if_neg fun h' => h h'.1]

end AllocHook.Unwindstack
