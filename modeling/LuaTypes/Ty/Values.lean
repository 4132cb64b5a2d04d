import LuaTypes.Ty.Union

namespace LuaTypes

namespace Ty

/-- The types of the values one by one. -/
def values : Ty → List Ty
  | .tuple members => members
  | .void => []
  | t => [t]

end Ty

mutual

/-- The type of the value at a position. A position past the last value holds nil, and of a union
each member is asked. -/
def Ty.valueAt (position : Nat) : Ty → Ty
  | .tuple members => members[position]?.getD .nil
  | .union members => .uniteAll (Ty.valuesAt position members)
  | .void => .nil
  | .unknown => .unknown
  | .nil => .nil
  | .primitive p => if position = 0 then .primitive p else .nil
  | .ofClass c => if position = 0 then .ofClass c else .nil
  | .array element => if position = 0 then .array element else .nil
  | .function signature => if position = 0 then .function signature else .nil
  | .generic base args => if position = 0 then .generic base args else .nil
  | .param name bound => if position = 0 then .param name bound else .nil
termination_by structural t => t

def Ty.valuesAt (position : Nat) : List Ty → List Ty
  | [] => []
  | t :: ts => t.valueAt position :: Ty.valuesAt position ts
termination_by structural ts => ts

end

namespace Ty

theorem valuesAt_eq_map (position : Nat) (ts : List Ty) :
    valuesAt position ts = ts.map (valueAt position) := by
  induction ts with
  | nil => rfl
  | cons t ts ih => simp [valuesAt, ih]

end Ty

end LuaTypes
