import LuaTypes.Subtype.Climbing
import LuaTypes.Ty.Equality

/-!
When a value of one type may stand where another type is expected. The rules are tried in order:
everything goes where nothing is known; a union on the left goes if one of its members does; a
union on the right takes what one of its members takes; and then part by part. How classes climb to
their ancestors is left open.
-/

namespace LuaTypes

section Rules

variable {m : Type → Type} [Monad m] (nilStrict : Bool) (climbs : ClassTy → String → m Bool)

mutual

/-- The check. The rules are tried from the top, and the first that applies decides. -/
def Ty.isSubtypeM (sub sup : Ty) : m Bool :=
  match sub, sup with
  | _, .unknown => pure true
  | .union members, sup => Ty.anyIsSubtypeM members sup
  | sub, .union members => Ty.isSubtypeOfAnyM sub members
  | .unknown, _ => pure true
  | .void, _ => pure false
  | .nil, sup => pure (!nilStrict || sup == .nil)
  | .array _, .primitive .table => pure true
  | .ofClass _, .primitive .table => pure true
  | .function _, .primitive .function => pure true
  | .array a, .array b => Ty.isSubtypeM a b
  | .tuple as, .tuple bs =>
      if as.length = bs.length then Ty.areSubtypesM as bs else pure false
  | .generic a as, .generic b bs => do
      if Ty.generic a as == Ty.generic b bs then return true
      else if as.length = bs.length then
        if ← Ty.isSubtypeM a b then return as == bs else return false
      else return false
  | .generic base _, sup => Ty.isSubtypeM base sup
  | .param name bound, sup =>
      if Ty.param name bound == sup then pure true
      else Ty.boundIsSubtypeM bound sup
  | .ofClass c, .ofClass d => if c.name = d.name then pure true else climbs c d.name
  | sub, sup => pure (sub == sup)
termination_by sizeOf sub + sizeOf sup

/-- One of several types is a subtype. -/
def Ty.anyIsSubtypeM (subs : List Ty) (sup : Ty) : m Bool :=
  match subs with
  | [] => pure false
  | sub :: subs => do
      if ← Ty.isSubtypeM sub sup then return true else Ty.anyIsSubtypeM subs sup
termination_by sizeOf subs + sizeOf sup

/-- A type is a subtype of one of several. -/
def Ty.isSubtypeOfAnyM (sub : Ty) (sups : List Ty) : m Bool :=
  match sups with
  | [] => pure false
  | sup :: sups => do
      if ← Ty.isSubtypeM sub sup then return true else Ty.isSubtypeOfAnyM sub sups
termination_by sizeOf sub + sizeOf sups

/-- Types are subtypes pair by pair. -/
def Ty.areSubtypesM (subs sups : List Ty) : m Bool :=
  match subs, sups with
  | [], [] => pure true
  | sub :: subs, sup :: sups => do
      if ← Ty.isSubtypeM sub sup then Ty.areSubtypesM subs sups else return false
  | _, _ => pure false
termination_by sizeOf subs + sizeOf sups

/-- The bound of a parameter is a subtype, if it has one. -/
def Ty.boundIsSubtypeM (bound : Option Ty) (sup : Ty) : m Bool :=
  match bound with
  | none => pure false
  | some bound => Ty.isSubtypeM bound sup
termination_by sizeOf bound + sizeOf sup

end

end Rules

namespace Ty

/-- The check with a given answer to whether a class has another one above it. -/
def isSubtypeBy (nilStrict : Bool) (climbs : ClassTy → String → Bool) (sub sup : Ty) : Bool :=
  Id.run (isSubtypeM nilStrict (fun c ancestor => pure (climbs c ancestor)) sub sup)

/-- The check without an index, where a class has no other one above it. -/
def isSubtype (nilStrict : Bool) (sub sup : Ty) : Bool :=
  isSubtypeBy nilStrict (fun _ _ => false) sub sup

/-- The check with an index. -/
def isSubtypeIn (ix : SymbolIndex) (t : LinkTable) (nilStrict : Bool) (sub sup : Ty) : Bool :=
  isSubtypeBy nilStrict (ix.extends? t) sub sup

/-- The class values whose links the check with an index asks for. -/
def consultedClasses (ix : SymbolIndex) (t : LinkTable) (nilStrict : Bool) (sub sup : Ty) :
    List ClassTy :=
  ((isSubtypeM nilStrict (fun c ancestor => do
      modify (· ++ [c])
      return ix.extends? t c ancestor : ClassTy → String → StateM (List ClassTy) Bool)
    sub sup).run []).2

end Ty

end LuaTypes
