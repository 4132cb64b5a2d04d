/-!
How names share out the values of a list of expressions. Each expression gives its first value to
the name at its place, and the last one gives its further values to the names that are left over.
-/

namespace LuaTypes

/-- Which expression of a list answers, and with which of its values. -/
structure Slot where
  expr : Nat
  position : Nat
  deriving DecidableEq

/-- The slot that answers a position, of a list of so many expressions. -/
def Slot.distribute (count requested : Nat) : Option Slot :=
  match count with
  | 0 => none
  | 1 => some { expr := 0, position := requested }
  | _ =>
      if requested < count then some { expr := requested, position := 0 }
      else some { expr := count - 1, position := requested + 1 - count }

end LuaTypes
