import LuaTypes.Ty.Display

/-!
The order of types: higher worth first, then by name, then by kind. The name that decides leaves
out parameter names and the order of union members, because neither makes a different type.
-/

namespace LuaTypes

/-- What the order of types compares. -/
structure RankKey where
  worth : Nat
  name : String
  kind : Ty.Kind

/-- Higher worth first, then the name, then the kind. -/
def RankKey.compare (a b : RankKey) : Ordering :=
  (Ord.compare b.worth a.worth).then ((Ord.compare a.name b.name).then (Ord.compare a.kind b.kind))

/-- Keys in order; equal ones keep theirs. -/
def RankKey.sort (keys : List RankKey) : List RankKey :=
  keys.mergeSort fun a b => (a.compare b).isLE

mutual

/-- The display text without parameter names, and with the members of a union in rank order. -/
def Ty.orderingName : Ty → String
  | .array element => element.orderingName ++ "[]"
  | .tuple members => "(" ++ ", ".intercalate (Ty.orderingNames members) ++ ")"
  | .generic base args =>
      base.orderingName ++ "<" ++ ", ".intercalate (Ty.orderingNames args) ++ ">"
  | .function ⟨params, returns, varargs, _, _⟩ =>
      "fun(" ++
        ", ".intercalate (Ty.orderingNamesOfParams params ++ Ty.orderingNameOfVarargs varargs) ++
        ")" ++ (if returns.kind = .void then "" else ": " ++ returns.orderingName)
  | .union members =>
      "|".intercalate ((RankKey.sort (Ty.rankKeys members)).map RankKey.name)
  | .unknown => Ty.unknown.display
  | .nil => Ty.nil.display
  | .void => Ty.void.display
  | .primitive p => p.name
  | .ofClass c => c.name
  | .param name _ => name
termination_by structural t => t

def Ty.orderingNames : List Ty → List String
  | [] => []
  | t :: ts => t.orderingName :: Ty.orderingNames ts
termination_by structural ts => ts

def Ty.orderingNamesOfParams : List (String × Ty) → List String
  | [] => []
  | (_, t) :: ps => t.orderingName :: Ty.orderingNamesOfParams ps
termination_by structural ps => ps

def Ty.orderingNameOfVarargs : Option Ty → List String
  | none => []
  | some t => ["..." ++ t.orderingName]
termination_by structural o => o

def Ty.rankKeys : List Ty → List RankKey
  | [] => []
  | t :: ts => ⟨t.worth, t.orderingName, t.kind⟩ :: Ty.rankKeys ts
termination_by structural ts => ts

end

namespace Ty

def rankKey (t : Ty) : RankKey :=
  ⟨t.worth, t.orderingName, t.kind⟩

/-- Higher worth comes first. -/
def compareWorth (a b : Ty) : Ordering :=
  a.rankKey.compare b.rankKey

/-- Types in order; types that rank equally keep their order. -/
def sort (types : List Ty) : List Ty :=
  types.mergeSort fun a b => (a.compareWorth b).isLE

/-- The members of a union, or the type itself. -/
def members : Ty → List Ty
  | .union members => members
  | t => [t]

/-- The first member in order. -/
def representative (t : Ty) : Ty :=
  (sort t.members).headD .unknown

theorem orderingNames_eq_map (ts : List Ty) : orderingNames ts = ts.map orderingName := by
  induction ts with
  | nil => rfl
  | cons t ts ih => simp [orderingNames, ih]

theorem orderingNamesOfParams_eq_map (ps : List (String × Ty)) :
    orderingNamesOfParams ps = ps.map fun p => p.2.orderingName := by
  induction ps with
  | nil => rfl
  | cons p ps ih => simp [orderingNamesOfParams, ih]

theorem orderingNameOfVarargs_eq_map (varargs : Option Ty) :
    orderingNameOfVarargs varargs = varargs.toList.map fun t => "..." ++ t.orderingName := by
  cases varargs <;> rfl

theorem orderingName_function (s : Signature Ty) :
    (function s).orderingName =
      "fun(" ++ ", ".intercalate ((s.params.map Prod.snd).map orderingName ++
        (s.varargs.toList.map orderingName).map ("..." ++ ·)) ++ ")" ++
        (if s.returns.kind = .void then "" else ": " ++ s.returns.orderingName) := by
  obtain ⟨params, returns, varargs, generics, colon⟩ := s
  rw [orderingName, orderingNamesOfParams_eq_map, orderingNameOfVarargs_eq_map, List.map_map,
    List.map_map]
  rfl

theorem rankKeys_eq_map (ts : List Ty) : rankKeys ts = ts.map rankKey := by
  induction ts with
  | nil => rfl
  | cons t ts ih => simp [rankKeys, rankKey, ih]

end Ty

end LuaTypes
