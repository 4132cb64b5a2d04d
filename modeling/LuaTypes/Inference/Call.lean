import LuaTypes.Ty.Matching

namespace LuaTypes

/-- How a call lines up with a signature: the parameters and arguments that are matched one by one,
what the receiver has taught before, and the type of `self`. -/
structure CallAlignment where
  params : List (String × Ty)
  args : List Ty
  bindings : Bindings := {}
  self : Option Ty

namespace Signature

/-- A colon call of a function without colon passes the receiver as first argument. A call without
colon of a function with one passes its first argument as receiver. -/
def align (s : Signature Ty) (receiver : Option Ty) (args : List Ty) (colon : Bool) :
    CallAlignment :=
  match colon, s.colon with
  | true, false =>
      match s.params, receiver with
      | first :: rest, some r =>
          { params := rest, args, bindings := Bindings.learn {} first.2 r, self := receiver }
      | params, _ => { params, args, self := receiver }
  | false, true =>
      match args with
      | first :: rest => { params := s.params, args := rest, self := some first }
      | [] => { params := s.params, args, self := receiver }
  | _, _ => { params := s.params, args, self := receiver }

/-- What a function returns at a call. Generic parameters are replaced first, then `self`. -/
def instantiate (s : Signature Ty) (receiver : Option Ty) (args : List Ty) (colon : Bool) : Ty :=
  let call := s.align receiver args colon
  let bindings := call.bindings.learnList (call.params.map Prod.snd) call.args
  let returns := s.returns.substitute bindings.rule
  match call.self with
  | none => returns
  | some self => returns.substitute (Ty.selfRule self)

end Signature

end LuaTypes
