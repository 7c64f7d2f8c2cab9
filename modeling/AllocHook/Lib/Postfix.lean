/-
Expressions, and their code on a stack machine.

An expression is a tree of leaves and of operations on one value or two, and
its postfix code does the operands of an operation before it. Operations may
fail: the code then fails as the tree does, at the first of its operations in
order that fails.
-/
import Mathlib.Data.List.Basic

namespace Postfix

variable {L U B V ε : Type}

inductive Expr (L U B : Type)
  | leaf (l : L)
  | unary (u : U) (e : Expr L U B)
  | binary (b : B) (e₁ e₂ : Expr L U B)

inductive Op (L U B : Type)
  | leaf (l : L)
  | unary (u : U)
  | binary (b : B)

/-- What leaves are and operations do. -/
structure Meaning (L U B V ε : Type) where
  leaf : L → Except ε V
  unary : U → V → Except ε V
  binary : B → V → V → Except ε V

/-- The postfix code. -/
def Expr.code : Expr L U B → List (Op L U B)
  | leaf l => [.leaf l]
  | unary u e => e.code ++ [.unary u]
  | binary b e₁ e₂ => e₁.code ++ e₂.code ++ [.binary b]

/-- One operation on a stack, its head the top; `short` is the error of a
stack with too few values. -/
def Op.step (m : Meaning L U B V ε) (short : ε) : Op L U B → List V → Except ε (List V)
  | leaf l, stack => do return (← m.leaf l) :: stack
  | unary u, v :: stack => do return (← m.unary u v) :: stack
  | binary b, v₂ :: v₁ :: stack => do return (← m.binary b v₁ v₂) :: stack
  | _, _ => .error short

def run (m : Meaning L U B V ε) (short : ε) : List (Op L U B) → List V → Except ε (List V)
  | [], stack => .ok stack
  | op :: ops, stack => do run m short ops (← op.step m short stack)

variable {m : Meaning L U B V ε} {short : ε}

end Postfix
