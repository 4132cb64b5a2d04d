import LuaTypes.Error
import LuaTypes.TypeNode.Basic

/-!
Chunks of code: expressions that refer to each other by their position, and the bindings that give
names to some of them.
-/

namespace LuaTypes

/-- The position of an expression in its chunk. -/
abbrev NodeId := Nat

/-- What a literal is of; its value does not matter. -/
inductive Literal where
  | nil
  | boolean
  | number
  | string
  deriving DecidableEq

/-- A field of a table constructor, by name. -/
structure TableField where
  name : String
  value : NodeId

/-- A parameter of a function, with its type if a comment gives one. -/
structure ParamDecl where
  name : String
  node : Option TypeNode := none

/-- An expression. It refers to others by their positions, so that a chunk may hold cycles. -/
inductive Expr where
  | literal (value : Literal)
  | ident (name : String)
  /-- A field of the target, by name or by a key that is computed. -/
  | index (target : NodeId) (name : Option String) (key : Option NodeId)
  /-- With a colon the callee is a field, and its target is passed as receiver. -/
  | call (callee : NodeId) (args : List NodeId) (colon : Bool)
  | table (fields : List TableField)
  /-- `returns` has the list of each return statement. A documented return type outweighs them. -/
  | function (params : List ParamDecl) (returns : List (List NodeId))
      (docReturns : Option TypeNode) (generics : List String) (colon : Bool)

/-- One statement that gives names to the values of a list of expressions. -/
structure Binding where
  names : List String
  values : List NodeId := []
  /-- Documented types, name by name. -/
  docTypes : List (Option TypeNode) := []

/-- The expressions of a piece of code, and its bindings from first to last. -/
structure Chunk where
  nodes : List Expr := []
  bindings : List Binding := []

/-- The expressions that an expression refers to, in the order written. -/
def Expr.children : Expr → List NodeId
  | .literal _ => []
  | .ident _ => []
  | .index target _ key => target :: key.toList
  | .call callee args _ => callee :: args
  | .table fields => fields.map TableField.value
  | .function _ returns _ _ _ => returns.flatten

namespace Binding

/-- Where a name stands among the names of a binding. -/
def positionOf? (b : Binding) (name : String) : Option Nat :=
  b.names.findIdx? (· = name)

/-- The documented type at a position, if the comment gives one. -/
def docType? (b : Binding) (position : Nat) : Option TypeNode :=
  b.docTypes[position]?.join

end Binding

namespace Chunk

/-- Appends an expression; it gets the next position. -/
def push (c : Chunk) (e : Expr) : NodeId × Chunk :=
  (c.nodes.length, { c with nodes := c.nodes ++ [e] })

/-- Appends a binding, which from now on hides earlier ones of its names. -/
def bind (c : Chunk) (b : Binding) : Chunk :=
  { c with bindings := c.bindings ++ [b] }

def get? (c : Chunk) (id : NodeId) : Option Expr :=
  c.nodes[id]?

/-- The latest binding of a name, and the place of the name in it. -/
def bindingFor? (c : Chunk) (name : String) : Option (Binding × Nat) :=
  c.bindings.reverse.findSome? fun b => (b.positionOf? name).map (b, ·)

/-- The value of a field of a table constructor; of several fields of one name, the last. -/
def tableField? (c : Chunk) (id : NodeId) (name : String) : Option NodeId :=
  match c.get? id with
  | some (.table fields) => (fields.reverse.find? (·.name = name)).map TableField.value
  | _ => none

/-- All references to nodes, and what makes them: expressions first, then bindings. -/
def references (c : Chunk) : List (NodeOwner × NodeId) :=
  (c.nodes.zipIdx.flatMap fun (e, i) => e.children.map (NodeOwner.node i, ·)) ++
    c.bindings.flatMap fun b => b.values.map (NodeOwner.binding b.names, ·)

/-- Accepts a chunk all of whose references are to its own nodes. -/
def validate (c : Chunk) : Except Error Chunk :=
  match c.references.find? fun r => c.nodes.length ≤ r.2 with
  | none => .ok c
  | some (owner, id) => .error (.index (.missingNode owner id c.nodes.length))

end Chunk

end LuaTypes
