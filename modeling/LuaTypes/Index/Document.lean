import LuaTypes.Index.Memory
import LuaTypes.Json.Reader
import LuaTypes.TypeNode.Document

namespace LuaTypes

/-- The declaration of a member as a document carries it, with the node of its type. -/
structure MemberRecord where
  className : String
  name : String
  kind : MemberKind
  node : TypeNode
  file : Option String := none

/-- The declarations of an index in the order in which they are added. -/
structure IndexFile where
  classes : List ClassDecl := []
  members : List MemberRecord := []

open Decoder

namespace ClassDecl

def toJson (d : ClassDecl) : Json :=
  .record ([("name", .string d.name)] ++ Json.fieldIfSome "super_class" Json.string d.superClass ++
    Json.fieldUnlessEmpty "aliases" Json.string d.aliases)

/-- A class declaration, of which only the name is required. -/
def decode : Decoder ClassDecl :=
  record ["name", "super_class", "aliases"] fun
    | room, [name, superClass, aliases] => do
        let name ← required string room name
        let superClass ← Decoder.optional string room superClass
        let aliases ← listOrEmpty string room aliases
        return { name, superClass, aliases }
    | _, _ => none

end ClassDecl

namespace MemberKind

/-- A member kind from its word. -/
def decode : Decoder MemberKind := fun room j =>
  (Decoder.word false (all.map MemberKind.word) room j).bind ofWord?

end MemberKind

namespace MemberRecord

def toJson (r : MemberRecord) : Json :=
  .record ([("class_name", .string r.className), ("name", .string r.name),
    ("kind", .string r.kind.word), ("ty", r.node.toJson)] ++
    Json.fieldIfSome "file" Json.string r.file)

/-- A member record; only the file may be left out. -/
def decode : Decoder MemberRecord :=
  record ["class_name", "name", "kind", "ty", "file"] fun
    | room, [className, name, kind, ty, file] => do
        let className ← required string room className
        let name ← required string room name
        let kind ← required MemberKind.decode room kind
        let node ← required TypeNode.decode room ty
        let file ← Decoder.optional string room file
        return { className, name, kind, node, file }
    | _, _ => none

/-- The declaration of a record, with the type that its node stands for. -/
def toDecl (r : MemberRecord) : MemberDecl :=
  { className := r.className, name := r.name, kind := r.kind, ty := r.node.toTy, file := r.file }

end MemberRecord

namespace IndexFile

def toJson (f : IndexFile) : Json :=
  .record [("classes", .array (f.classes.map ClassDecl.toJson)),
    ("members", .array (f.members.map MemberRecord.toJson))]

/-- An index document by its form alone; `SymbolIndex.ofFile` checks the names. -/
def decode : Decoder IndexFile :=
  record ["classes", "members"] fun
    | room, [classes, members] => do
        let classes ← listOrEmpty ClassDecl.decode room classes
        let members ← listOrEmpty MemberRecord.decode room members
        return { classes, members }
    | _, _ => none

end IndexFile

/-- A value from a text. The error does not tell a malformed text from one of another form. -/
def Decoder.parse (d : Decoder α) (text : String) : Except Error α :=
  match (Json.parse text).bind (d fullRoom) with
  | some a => .ok a
  | none => .error .json

namespace SymbolIndex

/-- Builds an index. Every class has a name, and the names of every member make a key. -/
def ofFile (f : IndexFile) : Except Error SymbolIndex :=
  if f.classes.any (·.name = "") then .error (.index .unnamedClass)
  else f.members.foldlM (fun ix r => ix.addMember r.toDecl) (f.classes.foldl addClass {})

/-- An index from a text. -/
def parse (text : String) : Except Error SymbolIndex :=
  (IndexFile.decode.parse text).bind ofFile

end SymbolIndex

end LuaTypes
