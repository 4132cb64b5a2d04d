import LuaTypes.Inference.Rules

namespace LuaTypes

/-- What one recursion finds, another finds too. -/
structure Recursion.Extends (f g : Recursion Option) : Prop where
  infer : ∀ node ctx t, f.infer node ctx = some t → g.infer node ctx = some t
  make : ∀ t u, f.make t = some u → g.make t = some u
  consult : ∀ c u, f.consult c = some u → g.consult c = some u

namespace Sources

/-- Inference by the rules alone; `none` if the fuel does not suffice. -/
def inferPlain (src : Sources) : Nat → NodeId → SearchContext → Option Ty
  | 0, _, _ => none
  | fuel + 1, node, ctx =>
      src.inferExpr { infer := src.inferPlain fuel, make := some, consult := fun _ => some () }
        node ctx

end Sources

end LuaTypes
