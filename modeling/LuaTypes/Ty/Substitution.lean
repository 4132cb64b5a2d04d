import LuaTypes.Ty.Union

namespace LuaTypes

mutual

/-- Replaces each leaf for which the rule has an answer. -/
def Ty.substitute (rule : Ty → Option Ty) : Ty → Ty
  | .array element => .array (element.substitute rule)
  | .tuple members => .ofValues (Ty.substituteList rule members)
  | .union members => .uniteAll (Ty.substituteList rule members)
  | .generic base args => .generic (base.substitute rule) (Ty.substituteList rule args)
  | .function ⟨params, returns, varargs, generics, colon⟩ =>
      .function ⟨Ty.substituteParams rule params, returns.substitute rule,
        Ty.substituteOption rule varargs, generics, colon⟩
  | .unknown => (rule .unknown).getD .unknown
  | .nil => (rule .nil).getD .nil
  | .void => (rule .void).getD .void
  | .primitive p => (rule (.primitive p)).getD (.primitive p)
  | .ofClass c => (rule (.ofClass c)).getD (.ofClass c)
  | .param name bound => (rule (.param name bound)).getD (.param name bound)
termination_by structural t => t

def Ty.substituteList (rule : Ty → Option Ty) : List Ty → List Ty
  | [] => []
  | t :: ts => t.substitute rule :: Ty.substituteList rule ts
termination_by structural ts => ts

def Ty.substituteParams (rule : Ty → Option Ty) : List (String × Ty) → List (String × Ty)
  | [] => []
  | (name, t) :: ps => (name, t.substitute rule) :: Ty.substituteParams rule ps
termination_by structural ps => ps

def Ty.substituteOption (rule : Ty → Option Ty) : Option Ty → Option Ty
  | none => none
  | some t => some (t.substitute rule)
termination_by structural o => o

end

namespace Ty

theorem substituteList_eq_map (rule : Ty → Option Ty) (ts : List Ty) :
    substituteList rule ts = ts.map (substitute rule) := by
  induction ts with
  | nil => rfl
  | cons t ts ih => simp [substituteList, ih]

theorem substituteParams_eq_map (rule : Ty → Option Ty) (ps : List (String × Ty)) :
    substituteParams rule ps = ps.map fun p => (p.1, p.2.substitute rule) := by
  induction ps with
  | nil => rfl
  | cons p ps ih => simp [substituteParams, ih]

theorem substituteOption_eq_map (rule : Ty → Option Ty) (t : Option Ty) :
    substituteOption rule t = t.map (substitute rule) := by
  cases t <;> rfl

/-- The class that stands for the receiver in the signature of a method. -/
def selfName : String := "self"

/-- Replaces the `self` class by the receiver. -/
def selfRule (receiver : Ty) : Ty → Option Ty
  | .ofClass c => if c.name = selfName then some receiver else none
  | _ => none

end Ty

end LuaTypes
