import LuaTypes.Chunk.Basic
import LuaTypes.Index.Document

namespace LuaTypes

open Decoder

def Json.ids (ids : List NodeId) : Json :=
  .array (ids.map Json.nat)

namespace Literal

/-- How documents spell a literal. -/
def word : Literal → String
  | .nil => "nil"
  | .boolean => "boolean"
  | .number => "number"
  | .string => "string"

def all : List Literal :=
  [.nil, .boolean, .number, .string]

/-- The literal of a word. -/
def ofWord? (w : String) : Option Literal :=
  all.find? fun l => l.word = w

/-- A literal, by itself or inside another document. -/
def decode (nested : Bool) : Decoder Literal := fun room j =>
  (Decoder.word nested (all.map word) room j).bind ofWord?

end Literal

namespace TableField

def toJson (f : TableField) : Json :=
  .record [("name", .string f.name), ("value", .nat f.value)]

/-- A table field; both parts are required. -/
def decode : Decoder TableField :=
  record ["name", "value"] fun
    | room, [name, value] => do
        let name ← required string room name
        let value ← required word32 room value
        return { name, value }
    | _, _ => none

end TableField

namespace ParamDecl

def toJson (p : ParamDecl) : Json :=
  .record ([("name", .string p.name)] ++ Json.fieldIfSome "ty" TypeNode.toJson p.node)

/-- A parameter, whose type may be left out. -/
def decode : Decoder ParamDecl :=
  record ["name", "ty"] fun
    | room, [name, ty] => do
        let name ← required string room name
        let node ← Decoder.optional TypeNode.decodeNested room ty
        return { name, node }
    | _, _ => none

end ParamDecl

namespace Expr

/-- The document of an expression, with the word for its form in front. -/
def toJson : Expr → Json
  | .literal value => .record [("expr", .string "literal"), ("value", .string value.word)]
  | .ident name => .record [("expr", .string "name"), ("name", .string name)]
  | .index target name key =>
      .record ([("expr", .string "index"), ("prefix", .nat target)] ++
        Json.fieldIfSome "name" Json.string name ++ Json.fieldIfSome "key" Json.nat key)
  | .call callee args colon =>
      .record [("expr", .string "call"), ("callee", .nat callee), ("args", .ids args),
        ("colon", .bool colon)]
  | .table fields =>
      .record [("expr", .string "table"), ("fields", .array (fields.map TableField.toJson))]
  | .function params returns docReturns generics colon =>
      .record ([("expr", .string "function"), ("params", .array (params.map ParamDecl.toJson)),
          ("returns", .array (returns.map Json.ids))] ++
        Json.fieldIfSome "doc_returns" TypeNode.toJson docReturns ++
        Json.fieldUnlessEmpty "generics" Json.string generics ++
        [("colon", .bool colon)])

/-- The forms of expressions in order. -/
def forms : List String :=
  ["literal", "name", "index", "call", "table", "function"]

/-- An expression of a given form from the rest of its document. -/
def decodeForm (form : String) : Decoder Expr :=
  match form with
  | "literal" => record ["value"] fun
      | room, [value] => return .literal (← required (Literal.decode true) room value)
      | _, _ => none
  | "name" => record ["name"] fun
      | room, [name] => return .ident (← required string room name)
      | _, _ => none
  | "index" => record ["prefix", "name", "key"] fun
      | room, [target, name, key] =>
          return .index (← required word32 room target) (← Decoder.optional string room name)
            (← Decoder.optional word32 room key)
      | _, _ => none
  | "call" => record ["callee", "args", "colon"] fun
      | room, [callee, args, colon] =>
          return .call (← required word32 room callee) (← listOrEmpty word32 room args)
            (← flag room colon)
      | _, _ => none
  | "table" => record ["fields"] fun
      | room, [fields] => return .table (← listOrEmpty TableField.decode room fields)
      | _, _ => none
  | "function" => record ["params", "returns", "doc_returns", "generics", "colon"] fun
      | room, [params, returns, docReturns, generics, colon] =>
          return .function (← listOrEmpty ParamDecl.decode room params)
            (← listOrEmpty word32.list room returns)
            (← Decoder.optional TypeNode.decodeNested room docReturns)
            (← listOrEmpty string room generics) (← flag room colon)
      | _, _ => none
  | _ => fun _ _ => none

/-- An expression from a document, all of which must be sound. -/
def decode : Decoder Expr := fun room j =>
  if j.isSound room then do
    let (form, rest) ← tagged "expr" false forms j
    decodeForm form room rest
  else none

end Expr

namespace Binding

/-- The document of a binding; its documented types are left out if there are none. -/
def toJson (b : Binding) : Json :=
  .record ([("names", .array (b.names.map Json.string)), ("values", .ids b.values)] ++
    Json.fieldUnlessEmpty "doc_types" (Json.optional TypeNode.toJson) b.docTypes)

/-- A binding, of which only the names are required. -/
def decode : Decoder Binding :=
  record ["names", "values", "doc_types"] fun
    | room, [names, values, docTypes] => do
        let names ← required string.list room names
        let values ← listOrEmpty word32 room values
        let docTypes ← listOrEmpty TypeNode.decode.orNull room docTypes
        return { names, values, docTypes }
    | _, _ => none

end Binding

namespace Chunk

/-- The document of a chunk. -/
def toJson (c : Chunk) : Json :=
  .record [("nodes", .array (c.nodes.map Expr.toJson)),
    ("bindings", .array (c.bindings.map Binding.toJson))]

/-- A chunk by its form alone; `validate` checks the references. -/
def decode : Decoder Chunk :=
  record ["nodes", "bindings"] fun
    | room, [nodes, bindings] => do
        let nodes ← listOrEmpty Expr.decode room nodes
        let bindings ← listOrEmpty Binding.decode room bindings
        return { nodes, bindings }
    | _, _ => none

/-- A chunk from a text, with all references inside the chunk. -/
def parse (text : String) : Except Error Chunk :=
  (decode.parse text).bind validate

end Chunk

end LuaTypes
