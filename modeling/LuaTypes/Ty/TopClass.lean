import LuaTypes.Ty.Basic

/-!
The classes at the top of a type: of a union, those of each member; of a generic, those of its
base; of a tuple, those of its first value. Elements, fields and parameters are not entered.
-/

namespace LuaTypes

mutual

/-- Visits the top classes in order for as long as the visitor asks for more. The answer tells
whether it asked for more to the end. -/
def Ty.eachTopClass {m : Type → Type} [Monad m] (visit : ClassTy → m Bool) : Ty → m Bool
  | .ofClass c => visit c
  | .union members => Ty.eachTopClassOf visit members
  | .tuple (t :: _) => t.eachTopClass visit
  | .generic base _ => base.eachTopClass visit
  | _ => pure true
termination_by structural t => t

def Ty.eachTopClassOf {m : Type → Type} [Monad m] (visit : ClassTy → m Bool) : List Ty → m Bool
  | [] => pure true
  | t :: ts => do
      if ← t.eachTopClass visit then Ty.eachTopClassOf visit ts else pure false
termination_by structural ts => ts

end

/-- The best class seen so far, and the best ones below it. -/
structure PerfectClass where
  concrete : Option ClassTy := none
  global : Option ClassTy := none
  anonymous : Option ClassTy := none

namespace PerfectClass

/-- The first of each sort is kept; a concrete class ends the search. -/
def visit (c : ClassTy) : StateM PerfectClass Bool := do
  let best ← get
  if c.isAnonymous then
    set { best with anonymous := best.anonymous <|> some c }
    return true
  else if c.isGlobal then
    set { best with global := best.global <|> some c }
    return true
  else
    set { best with concrete := some c }
    return false

end PerfectClass

namespace Ty

/-- The class behind a type: a concrete one before a global one before an anonymous one. -/
def perfectClass (t : Ty) : Option ClassTy :=
  let best := ((t.eachTopClass PerfectClass.visit).run {}).2
  best.concrete <|> best.global <|> best.anonymous

/-- All top classes, in the order in which they are visited. -/
def topClasses (t : Ty) : List ClassTy :=
  ((t.eachTopClass fun c => (do modify (· ++ [c]); return true : StateM (List ClassTy) Bool)).run
    []).2

end Ty

end LuaTypes
