import LuaTypes.Ty.Worth

/-!
The text of a type. A union shows its members by worth, and leaves out the anonymous and global
ones as long as others remain.
-/

namespace LuaTypes

namespace Ty

/-- Of types with their texts, those that a union shows: the members that are neither anonymous nor
global; if there are none, those that are not anonymous; if there are none either, all. -/
def shown (members : List (Ty × String)) : List (Ty × String) :=
  let named := members.filter fun m => !m.1.flags.anonymous
  let plain := named.filter fun m => !m.1.flags.global
  if !plain.isEmpty then plain else if !named.isEmpty then named else members

/-- The text of a union from its members and their texts. -/
def displayUnion (members : List (Ty × String)) : String :=
  "|".intercalate ((shown (members.mergeSort fun a b => b.1.worth ≤ a.1.worth)).map Prod.snd)

end Ty

mutual

/-- The text of a type. -/
def Ty.display : Ty → String
  | .unknown => "any"
  | .nil => "nil"
  | .void => "void"
  | .primitive p => p.name
  | .ofClass c => c.name
  | .array element => element.display ++ "[]"
  | .function ⟨params, returns, varargs, _, _⟩ =>
      "fun(" ++ ", ".intercalate (Ty.displayParams params ++ Ty.displayVarargs varargs) ++ ")" ++
        (if returns.kind = .void then "" else ": " ++ returns.display)
  | .union members => Ty.displayUnion (members.zip (Ty.displayList members))
  | .tuple members => "(" ++ ", ".intercalate (Ty.displayList members) ++ ")"
  | .generic base args => base.display ++ "<" ++ ", ".intercalate (Ty.displayList args) ++ ">"
  | .param name _ => name
termination_by structural t => t

def Ty.displayList : List Ty → List String
  | [] => []
  | t :: ts => t.display :: Ty.displayList ts
termination_by structural ts => ts

def Ty.displayParams : List (String × Ty) → List String
  | [] => []
  | (name, t) :: ps => (name ++ ": " ++ t.display) :: Ty.displayParams ps
termination_by structural ps => ps

def Ty.displayVarargs : Option Ty → List String
  | none => []
  | some t => ["...: " ++ t.display]
termination_by structural o => o

end

namespace Ty

theorem displayList_eq_map (ts : List Ty) : displayList ts = ts.map display := by
  induction ts with
  | nil => rfl
  | cons t ts ih => simp [displayList, ih]

theorem displayParams_eq_map (ps : List (String × Ty)) :
    displayParams ps = ps.map fun p => p.1 ++ ": " ++ p.2.display := by
  induction ps with
  | nil => rfl
  | cons p ps ih => simp [displayParams, ih]

theorem display_of_builtin {t : Ty} {name : String} (h : t.builtin? = some name) :
    t.display = name := by
  cases t <;> simp_all [builtin?, display]

end Ty

end LuaTypes
