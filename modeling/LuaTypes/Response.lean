import LuaTypes.Index.Document
import LuaTypes.Json.Writer

namespace LuaTypes

/-- A type as its text and as its node. -/
def Ty.toJson (t : Ty) : Json :=
  .record [("display", .string t.display), ("node", (TypeNode.ofTy t).toJson)]

/-- A declaration; the file is left out if there is none. -/
def MemberDecl.toJson (d : MemberDecl) : Json :=
  .record ([("class_name", .string d.className), ("name", .string d.name),
    ("kind", .string d.kind.word), ("type", d.ty.toJson)] ++
    Json.fieldIfSome "file" Json.string d.file)

/-- The answer of a command that has succeeded. -/
inductive Response where
  | member (d : MemberDecl)
  | members (className : String) (shown : List MemberDecl)
  | inferred (node position : Nat) (allValues : Bool) (t : Ty)
  | subtype (sub sup : Ty) (nilStrict result : Bool)
  | union (t : Ty)

namespace Response

/-- The version of the form that answers have. -/
def schemaVersion : String := "1"

/-- The fields that every answer begins with. -/
def heading (status : String) : List (String × Json) :=
  [("status", .string status), ("schema_version", .string schemaVersion)]

/-- The texts of the members of a type in rank order. -/
def ranking (t : Ty) : List String :=
  (Ty.sort t.members).map Ty.display

/-- The fields that tell one answer from another. -/
def fields : Response → List (String × Json)
  | .member d => [("member", d.toJson)]
  | .members className shown =>
      [("class_name", .string className), ("members", .array (shown.map MemberDecl.toJson))]
  | .inferred node position allValues t =>
      [("node", .nat node), ("position", .nat position), ("tuple", .bool allValues),
        ("type", t.toJson)]
  | .subtype sub sup nilStrict result =>
      [("sub", .string sub.display), ("sup", .string sup.display),
        ("nil_strict", .bool nilStrict), ("result", .bool result)]
  | .union t => [("type", t.toJson), ("ranked", .array ((ranking t).map Json.string))]

/-- The document of an answer. -/
def toJson (r : Response) : Json :=
  .record (heading "ok" ++ r.fields)

end Response

namespace Error

/-- What an error is about, where it has parts. -/
def details : Error → List (String × Json)
  | .malformedKey key fault =>
      [("details", .record [("key", .string key), ("reason", .string fault.reason)])]
  | .memberNotFound className memberName =>
      [("details", .record [("class", .string className), ("member", .string memberName)])]
  | _ => []

/-- The document of an error. -/
def toJson (e : Error) : Json :=
  .record (Response.heading "error" ++ [("error",
    .record ([("code", .nat e.code), ("message", .string e.message)] ++ e.details))])

end Error

end LuaTypes
