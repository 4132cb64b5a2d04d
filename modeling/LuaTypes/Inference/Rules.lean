import LuaTypes.Chunk.Basic
import LuaTypes.Inference.Call
import LuaTypes.Inference.Slot
import LuaTypes.Member.Search
import LuaTypes.Ty.Values

/-!
The rules that give an expression its type from the types of the expressions it refers to. They do
not say how those are found: the recursion is left open, so that the same rules serve an inference
that remembers its results and bounds its depth, and one that does neither.
-/

namespace LuaTypes

/-- What inference reads and never changes. -/
structure Sources where
  chunk : Chunk
  index : SymbolIndex := {}
  links : LinkTable := {}

/-- How the rules reach other expressions, what they make of the types they build themselves, and
whom they tell about the class values whose links they ask for. -/
structure Recursion (m : Type → Type) where
  infer : NodeId → SearchContext → m Ty
  make : Ty → m Ty
  consult : ClassTy → m Unit

/-- The type of a literal. -/
def Literal.ty : Literal → Ty
  | .nil => .nil
  | .boolean => .primitive .boolean
  | .number => .primitive .number
  | .string => .primitive .string

/-- The class that string methods are declared on. -/
def stringClassName : String := "string"

namespace Sources

/-- A name without binding that names a declared class is that class. -/
def globalClass (src : Sources) (name : String) (ctx : SearchContext) : Ty :=
  if src.index.unavailable ctx then .unknown
  else
    match src.index.declaration? name with
    | some d => .ofClass { form := .global name, source := .given d.toClassLinks }
    | none => .unknown

variable {m : Type → Type} [Monad m] (src : Sources) (eval : Recursion m)

/-- All values of a list of expressions: the first value of each but the last, and all values of
the last. -/
def inferList (exprs : List NodeId) (ctx : SearchContext) : m Ty :=
  match exprs.getLast? with
  | none => return .void
  | some last => do
      let firsts ← exprs.dropLast.mapM fun e => eval.infer e (ctx.atPosition 0)
      let rest ← eval.infer last ctx.forAllValues
      return .ofValues (firsts ++ rest.values)

/-- A name has its documented type, else that of the value it is bound to. -/
def inferName (name : String) (ctx : SearchContext) : m Ty :=
  match src.chunk.bindingFor? name with
  | none => return src.globalClass name ctx
  | some (binding, place) =>
      match binding.docType? place with
      | some node => eval.make node.toTy
      | none =>
          match Slot.distribute binding.values.length place with
          | none => return .unknown
          | some slot =>
              match binding.values[slot.expr]? with
              | none => return .unknown
              | some value => eval.infer value (ctx.atPosition slot.position)

/-- A member of a class value. The fields of a table constructor come before what the index
declares. -/
def classMember (c : ClassTy) (name : String) (ctx : SearchContext) : m (Option Ty) :=
  match c.tableNode?.bind fun node => src.chunk.tableField? node name with
  | some value => return some (← eval.infer value (ctx.atPosition 0))
  | none => do
      if src.index.consultsLinks .any c name ctx then eval.consult c
      return (src.index.findIn src.links c name ctx).map MemberDecl.ty

/-- What one member of the target's type has under a name or a computed key. -/
def partField (part : Ty) (name : Option String) (computed : Bool) (ctx : SearchContext) :
    m (Option Ty) :=
  match part, name with
  | .ofClass c, some name => src.classMember eval c name ctx
  | .generic (.ofClass c) _, some name => src.classMember eval c name ctx
  | .primitive .string, some name =>
      return (src.index.find stringClassName name ctx).map MemberDecl.ty
  | .array element, none => return if computed then some element else none
  | _, _ => return none

/-- A field of the target: the union of what the members of its type have there. Members without the
field do not count. -/
def inferIndex (target : NodeId) (name : Option String) (computed : Bool) (ctx : SearchContext) :
    m Ty := do
  let parent ← eval.infer target (ctx.atPosition 0)
  parent.members.foldlM (fun result part => do
    match ← src.partField eval part name computed ctx with
    | some t => return result.unite t
    | none => return result) .unknown

/-- The signatures among the members of a type. -/
def functionsOf (t : Ty) : List (Signature Ty) :=
  t.members.filterMap fun
    | .function s => some s
    | _ => none

/-- The receiver of a colon call is the target that the callee is a field of. -/
def inferReceiver (callee : NodeId) (colon : Bool) (ctx : SearchContext) : m (Option Ty) :=
  match src.chunk.get? callee, colon with
  | some (.index target _ _), true => some <$> eval.infer target (ctx.atPosition 0)
  | _, _ => return none

/-- A call returns what the functions among the callee's types return. -/
def inferCall (callee : NodeId) (args : List NodeId) (colon : Bool) (ctx : SearchContext) :
    m Ty := do
  let calleeTy ← eval.infer callee (ctx.atPosition 0)
  let receiver ← src.inferReceiver eval callee colon ctx
  let functions := functionsOf calleeTy
  if functions.isEmpty then return .unknown
  let argTys ← args.mapM fun a => eval.infer a (ctx.atPosition 0)
  let returns := Ty.uniteAll (functions.map fun s => s.instantiate receiver argTys colon)
  return if ctx.allValues then returns else returns.valueAt ctx.position

/-- A function returns what its comment says, else what one of its return statements returns. -/
def inferReturns (returns : List (List NodeId)) (docReturns : Option TypeNode)
    (ctx : SearchContext) : m Ty :=
  match docReturns with
  | some node => eval.make node.toTy
  | none =>
      if returns.isEmpty then return .void
      else return .uniteAll (← returns.mapM fun exprs => inferList eval exprs ctx)

/-- The rule for the expression at a node. A node that is not there is unknown. -/
def inferExpr (node : NodeId) (ctx : SearchContext) : m Ty :=
  match src.chunk.get? node with
  | none => return .unknown
  | some (.literal value) => return value.ty
  | some (.ident name) => src.inferName eval name ctx
  | some (.index target name key) => src.inferIndex eval target name key.isSome ctx
  | some (.call callee args colon) => src.inferCall eval callee args colon ctx
  | some (.table _) => eval.make (.ofClass { form := .tableLiteral node })
  | some (.function params returns docReturns generics colon) => do
      let returns ← inferReturns eval returns docReturns ctx
      let params ← params.mapM fun p => do
        return (p.name, ← eval.make ((p.node.map TypeNode.toTy).getD .unknown))
      return .function { params, returns, generics, colon }

end Sources

end LuaTypes
