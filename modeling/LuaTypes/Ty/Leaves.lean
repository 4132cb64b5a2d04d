import LuaTypes.Ty.Basic

namespace LuaTypes

mutual

/-- The leaves from left to right. -/
def Ty.leaves : Ty → List Ty
  | .array element => element.leaves
  | .function ⟨params, returns, varargs, _, _⟩ =>
      Ty.leavesOfParams params ++ (returns.leaves ++ Ty.leavesOfOption varargs)
  | .union members => Ty.leavesOfList members
  | .tuple members => Ty.leavesOfList members
  | .generic base args => base.leaves ++ Ty.leavesOfList args
  | .unknown => [.unknown]
  | .nil => [.nil]
  | .void => [.void]
  | .primitive p => [.primitive p]
  | .ofClass c => [.ofClass c]
  | .param name bound => [.param name bound]
termination_by structural t => t

def Ty.leavesOfList : List Ty → List Ty
  | [] => []
  | t :: ts => t.leaves ++ Ty.leavesOfList ts
termination_by structural ts => ts

def Ty.leavesOfParams : List (String × Ty) → List Ty
  | [] => []
  | (_, t) :: ps => t.leaves ++ Ty.leavesOfParams ps
termination_by structural ps => ps

def Ty.leavesOfOption : Option Ty → List Ty
  | none => []
  | some t => t.leaves
termination_by structural o => o

end

namespace Ty

theorem leavesOfList_eq_flatMap (ts : List Ty) : leavesOfList ts = ts.flatMap leaves := by
  induction ts with
  | nil => rfl
  | cons t ts ih => simp [leavesOfList, ih]

theorem leavesOfParams_eq_flatMap (ps : List (String × Ty)) :
    leavesOfParams ps = ps.flatMap fun p => p.2.leaves := by
  induction ps with
  | nil => rfl
  | cons p ps ih => simp [leavesOfParams, ih]

theorem leavesOfOption_eq_flatMap (t : Option Ty) :
    leavesOfOption t = t.toList.flatMap leaves := by
  cases t <;> simp [leavesOfOption]

end Ty

end LuaTypes
