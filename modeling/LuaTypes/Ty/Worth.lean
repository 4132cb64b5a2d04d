import LuaTypes.Ty.Basic

namespace LuaTypes

/-- Declared classes say most; table constructors come before global classes, and those before
anonymous ones. -/
def ClassForm.worth : ClassForm → Nat
  | .declared _ => 80
  | .tableLiteral _ => 40
  | .global _ => 30
  | .anonymous _ => 20

namespace Ty

/-- The worth of a type. -/
def worth : Ty → Nat
  | .ofClass c => c.form.worth
  | .array _ | .generic _ _ => 70
  | .function _ => 60
  | .primitive _ => 50
  | .tuple _ | .param _ _ | .union _ => 10
  | .nil => 5
  | .unknown | .void => 0

/-- Highest worth first; equal worth keeps its order. -/
def rank (types : List Ty) : List Ty :=
  types.mergeSort fun a b => b.worth ≤ a.worth

end Ty

end LuaTypes
