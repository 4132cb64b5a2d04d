import LuaTypes.Ty.Equality
import LuaTypes.Ty.Order

/-!
Unions. Members are kept in the order of their first occurrence, no two of them are the same type,
none is a union, and none is without a value.
-/

namespace LuaTypes

/-- The members of a union under construction. -/
structure UnionBuilder where
  members : List Ty := []

namespace UnionBuilder

/-- Appends a type that is not yet among the members. -/
def insert (b : UnionBuilder) (t : Ty) : UnionBuilder :=
  if b.members.any fun m => m == t then b else { members := b.members ++ [t] }

/-- A union adds its members, a type without a value adds nothing. -/
def add (b : UnionBuilder) : Ty → UnionBuilder
  | .union members => members.foldl insert b
  | t => if t.isInvalid then b else b.insert t

/-- The union of the members; one alone is itself, and none is the unknown type. -/
def build (b : UnionBuilder) : Ty :=
  match b.members with
  | [] => .unknown
  | [t] => t
  | members => .union members

end UnionBuilder

namespace Ty

/-- The union of two types. A type without a value gives way to the other one. A union keeps its
members in front, also when it stands on the right of a single type. -/
def unite (a b : Ty) : Ty :=
  if a.isInvalid then b
  else if b.isInvalid then a
  else if b.kind = .union ∧ a.kind ≠ .union then (({} : UnionBuilder).add b |>.add a).build
  else (({} : UnionBuilder).add a |>.add b).build

/-- The union of any number of types. -/
def uniteAll (types : List Ty) : Ty :=
  types.foldl unite .unknown

end Ty

end LuaTypes
