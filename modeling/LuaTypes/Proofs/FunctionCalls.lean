import LuaTypes.Proofs.IdleSubstitution
import LuaTypes.Proofs.SlotQueries

namespace LuaTypes

theorem Signature.instantiate_without_params {returns : Ty} (h : returns.WellFormed)
    (generics : List String) :
    ({ params := [], returns, generics } : Signature Ty).instantiate none [] false = returns := by
  change returns.substitute (Bindings.rule {}) = returns
  refine Ty.substitute_of_untouched h (fun leaf _ => ?_)
  cases leaf <;> rfl

namespace Chunk

/-- The node is a name that takes its value, for want of a documented type, from the other node. -/
def NamesValue (c : Chunk) (node value : NodeId) : Prop :=
  ∃ name binding place slot, c.get? node = some (.ident name) ∧
    c.bindingFor? name = some (binding, place) ∧ binding.docType? place = none ∧
    Slot.distribute binding.values.length place = some slot ∧
    binding.values[slot.expr]? = some value

/-- Calls by name, without arguments, a function whose one return statement is of the list. -/
def CallsReturnOf (c : Chunk) (call : NodeId) (exprs : List NodeId) : Prop :=
  ∃ callee function generics, c.get? call = some (.call callee [] false) ∧
    c.NamesValue callee function ∧
    c.get? function = some (.function [] [exprs] none generics false)

end Chunk

namespace Sources

variable {src : Sources} {ctx : SearchContext} {node value function call : NodeId}
  {exprs : List NodeId} {position : Nat} {t : Ty}

theorem exists_inferExpr_of_meets_one (h : src.Meets (.one node ctx) t) :
    ∃ fuel, src.inferExpr (src.plain fuel) node ctx = some t := by
  obtain ⟨fuel, hfuel⟩ := h
  cases fuel with
  | zero => cases hfuel
  | succ fuel => exact ⟨fuel, hfuel⟩

theorem Meets.of_namesValue (h : src.Meets (.one node ctx) t)
    (hvalue : src.chunk.NamesValue node value) :
    ∃ position, src.Meets (.one value (ctx.atPosition position)) t := by
  obtain ⟨name, binding, place, slot, hnode, hbinding, hdoc, hslot, hexpr⟩ := hvalue
  obtain ⟨fuel, hfuel⟩ := exists_inferExpr_of_meets_one h
  unfold inferExpr at hfuel
  simp only [hnode, inferName, hbinding, hdoc, hslot, hexpr] at hfuel
  exact ⟨slot.position, fuel, hfuel⟩

theorem Meets.of_function {generics : List String}
    (h : src.Meets (.one function (ctx.atPosition position)) t)
    (hfunction : src.chunk.get? function = some (.function [] [exprs] none generics false)) :
    ∃ list, src.Meets (.list exprs ctx) list ∧ t = .function { returns := list, generics } := by
  obtain ⟨fuel, hfuel⟩ := exists_inferExpr_of_meets_one h
  unfold inferExpr at hfuel
  rw [hfunction] at hfuel
  obtain ⟨returns, hreturns, hpure⟩ := Option.bind_eq_some_iff.1 hfuel
  obtain ⟨lists, hlists, hunion⟩ := Option.bind_eq_some_iff.1 hreturns
  obtain ⟨list, hlist, hsingle⟩ := Option.bind_eq_some_iff.1 hlists
  cases hsingle
  cases hunion
  cases hpure
  exact ⟨list, ⟨fuel, hlist⟩, rfl⟩

theorem inferReceiver_plain {m : Type → Type} [Monad m] (eval : Recursion m) :
    src.inferReceiver eval node false ctx = pure none := by
  unfold inferReceiver
  split
  next hcolon => cases hcolon
  next => rfl

theorem Meets.of_callsReturnOf (h : src.Meets (.one call (ctx.atPosition position)) t)
    (hindex : src.index.WellFormed) (hcall : src.chunk.CallsReturnOf call exprs) :
    ∃ list, src.Meets (.list exprs ctx) list ∧ t = list.valueAt position := by
  obtain ⟨callee, function, generics, hnode, hcallee, hfunction⟩ := hcall
  obtain ⟨fuel, hfuel⟩ := exists_inferExpr_of_meets_one h
  unfold inferExpr at hfuel
  rw [hnode] at hfuel
  obtain ⟨calleeTy, hcalleeTy, hrest⟩ := Option.bind_eq_some_iff.1 hfuel
  obtain ⟨position', hvalue⟩ := Meets.of_namesValue ⟨fuel, hcalleeTy⟩ hcallee
  obtain ⟨list, hlist, rfl⟩ := Meets.of_function hvalue hfunction
  rw [inferReceiver_plain] at hrest
  have hreturned := Signature.instantiate_without_params (hlist.wellFormed hindex) generics
  exact ⟨list, hlist, (Option.some.inj hrest).symm.trans (congrArg (Ty.valueAt position) hreturned)⟩

end Sources

end LuaTypes
