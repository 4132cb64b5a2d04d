import LuaTypes.Chunk.Document
import LuaTypes.Inference.Request
import LuaTypes.Member.Listing
import LuaTypes.Response
import LuaTypes.Settings.Basic
import LuaTypes.Subtype.Check

namespace LuaTypes

/-- How far a member is searched. -/
inductive SearchMode where
  /-- On the class, its aliases and its superclasses. -/
  | deep
  /-- On the class alone. -/
  | shallow
  /-- As deep, but for methods only. -/
  | method
  deriving DecidableEq

/-- The search that a mode stands for. -/
def SearchMode.find (mode : SearchMode) (ix : SymbolIndex) (className memberName : String)
    (ctx : SearchContext) : Option MemberDecl :=
  match mode with
  | .deep => ix.find className memberName ctx
  | .shallow => ix.findShallow className memberName ctx
  | .method => ix.findMethod className memberName ctx

/-- A command; files are given by their paths, types by their documents. -/
inductive Command where
  | resolve (index className memberName : String) (mode : SearchMode)
  | members (index className : String)
  | infer (index : Option String) (chunk : String) (node position : Nat) (allValues : Bool)
  | subtype (sub sup : String) (index : Option String)
  | union (types : List String)

/-- A type from the text of its node. -/
def Ty.parse (text : String) : Except Error Ty :=
  (TypeNode.decode.parse text).map TypeNode.toTy

namespace Command

/-- The files that a command reads. -/
def paths : Command → List String
  | .resolve index _ _ _ => [index]
  | .members index _ => [index]
  | .infer index chunk _ _ _ => index.toList ++ [chunk]
  | .subtype _ _ index => index.toList
  | .union _ => []

variable (readFile : String → Option String)

/-- The text of a file, or an error if it cannot be read. -/
def load (path : String) : Except Error String :=
  (readFile path).elim (.error .io) .ok

/-- The index of a file. -/
def loadIndex (path : String) : Except Error SymbolIndex := do
  SymbolIndex.parse (← load readFile path)

/-- The chunk of a file, whose references have been checked. -/
def loadChunk (path : String) : Except Error Chunk := do
  Chunk.parse (← load readFile path)

/-- Carries out a command. The first document that is at fault decides the error. -/
def run (settings : Settings) : Command → Except Error Response
  | .resolve index className memberName mode => do
      let ix ← loadIndex readFile index
      match mode.find ix className memberName (.ofIndex ix) with
      | some d => return .member d
      | none => .error (.memberNotFound className memberName)
  | .members index className => do
      let ix ← loadIndex readFile index
      return .members className (ix.membersOf {} (.named className) (.ofIndex ix))
  | .infer index chunk node position allValues => do
      let ix ← index.elim (.ok {}) (loadIndex readFile)
      let chunk ← loadChunk readFile chunk
      if chunk.nodes.length ≤ node then
        .error (.index (.nodeOutOfRange node chunk.nodes.length))
      let ctx : SearchContext := .ofIndex ix
      let ctx := if allValues then ctx.forAllValues else ctx.atPosition position
      let (t, _) := Sources.inferAlone { chunk, index := ix } settings.maxDepth node ctx
      return .inferred node ctx.position allValues t
  | .subtype sub sup index => do
      let sub ← Ty.parse sub
      let sup ← Ty.parse sup
      let result ← match index with
        | none => pure (sub.isSubtype settings.nilStrict sup)
        | some path => do
            let ix ← loadIndex readFile path
            pure (sub.isSubtypeIn ix {} settings.nilStrict sup)
      return .subtype sub sup settings.nilStrict result
  | .union types => do
      return .union (.uniteAll (← types.mapM Ty.parse))

end Command

end LuaTypes
