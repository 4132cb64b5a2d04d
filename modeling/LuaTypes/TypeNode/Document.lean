import LuaTypes.Json.Decode
import LuaTypes.TypeNode.Basic

namespace LuaTypes

mutual

/-- The document of a node, with the word for its kind in front. -/
def TypeNode.toJson : TypeNode → Json
  | .any => .record [("kind", .string "any")]
  | .nil => .record [("kind", .string "nil")]
  | .void => .record [("kind", .string "void")]
  | .named name args isGlobal =>
      .record ([("kind", .string "named"), ("name", .string name)] ++
        (if args.isEmpty then [] else [("args", .array (TypeNode.toJsonList args))]) ++
        Json.fieldIfTrue "global" isGlobal)
  | .array element => .record [("kind", .string "array"), ("element", element.toJson)]
  | .union members =>
      .record [("kind", .string "union"), ("members", .array (TypeNode.toJsonList members))]
  | .tuple elements =>
      .record [("kind", .string "tuple"), ("elements", .array (TypeNode.toJsonList elements))]
  | .function ⟨params, returns, varargs, generics, colon⟩ =>
      .record ([("kind", .string "function"), ("params", .array (TypeNode.toJsonParams params)),
          ("returns", returns.toJson)] ++
        TypeNode.toJsonVarargs varargs ++
        Json.fieldUnlessEmpty "generics" Json.string generics ++
        Json.fieldIfTrue "colon" colon)
  | .param name => .record [("kind", .string "param"), ("name", .string name)]
termination_by structural n => n

def TypeNode.toJsonList : List TypeNode → List Json
  | [] => []
  | n :: ns => n.toJson :: TypeNode.toJsonList ns
termination_by structural ns => ns

def TypeNode.toJsonParams : List (String × TypeNode) → List Json
  | [] => []
  | (name, n) :: ps =>
      .record [("name", .string name), ("ty", n.toJson)] :: TypeNode.toJsonParams ps
termination_by structural ps => ps

def TypeNode.toJsonVarargs : Option TypeNode → List (String × Json)
  | none => []
  | some n => [("varargs", n.toJson)]
termination_by structural o => o

end

namespace TypeNode

/-- The kinds of nodes in order. -/
def kinds : List String :=
  ["any", "nil", "void", "named", "array", "union", "tuple", "function", "param"]

open Decoder

/-- A parameter of a function node. -/
def decodeParam (node : Decoder TypeNode) : Decoder (String × TypeNode) :=
  record ["name", "ty"] fun
    | room, [name, ty] => return (← required string room name, ← required node room ty)
    | _, _ => none

/-- A node of a given kind from the rest of its document. -/
def decodeKind (node : Decoder TypeNode) (kind : String) : Decoder TypeNode :=
  match kind with
  | "any" => fun _ => tagOnly .any
  | "nil" => fun _ => tagOnly .nil
  | "void" => fun _ => tagOnly .void
  | "named" => record ["name", "args", "global"] fun
      | room, [name, args, isGlobal] =>
          return .named (← required string room name) (← listOrEmpty node room args)
            (← flag room isGlobal)
      | _, _ => none
  | "array" => record ["element"] fun
      | room, [element] => return .array (← required node room element)
      | _, _ => none
  | "union" => record ["members"] fun
      | room, [members] => return .union (← required node.list room members)
      | _, _ => none
  | "tuple" => record ["elements"] fun
      | room, [elements] => return .tuple (← required node.list room elements)
      | _, _ => none
  | "function" => record ["params", "returns", "varargs", "generics", "colon"] fun
      | room, [params, returns, varargs, generics, colon] =>
          return .function {
            params := ← listOrEmpty (decodeParam node) room params
            returns := ← withDefault node .void room returns
            varargs := ← Decoder.optional node room varargs
            generics := ← listOrEmpty string room generics
            colon := ← flag room colon }
      | _, _ => none
  | "param" => record ["name"] fun
      | room, [name] => return .param (← required string room name)
      | _, _ => none
  | _ => fun _ _ => none

/-- A node from a document all of which is sound. The fuel bounds the nesting of nodes. -/
def decodeTagged : Nat → Bool → Decoder TypeNode
  | 0, _ => fun _ _ => none
  | fuel + 1, nested => fun room j => do
      let (kind, rest) ← tagged "kind" nested kinds j
      decodeKind (decodeTagged fuel true) kind room rest

/-- A node inside a document that has been found sound. -/
def decodeNested : Decoder TypeNode := fun room j =>
  decodeTagged room true room j

/-- A node from a document. Everything in the document is read, also what no field asks for, so all
of it must be sound. -/
def decode : Decoder TypeNode := fun room j =>
  if j.isSound room then decodeTagged room false room j else none

end TypeNode

end LuaTypes
