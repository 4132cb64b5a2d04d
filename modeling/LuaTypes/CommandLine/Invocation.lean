import LuaTypes.Command
import LuaTypes.CommandLine.Arguments
import LuaTypes.Settings.Resolution

namespace LuaTypes

/-- The options that go with every command. -/
structure GlobalOptions where
  config : Option String := none
  nilStrict : Bool := false
  maxDepth : Option Nat := none

/-- A command line that has been understood. -/
structure Invocation where
  options : GlobalOptions
  command : Command

namespace GlobalOptions

/-- The options that go with every command, by name. -/
def arity : String → Option Arity
  | "log-level" => some .value
  | "config" => some .value
  | "nil-strict" => some .flag
  | "max-depth" => some .value
  | _ => none

def logLevels : List String :=
  ["trace", "debug", "info", "warn", "error"]

/-- A path is not empty. -/
def path? (text : String) : Option String :=
  if text = "" then none else some text

/-- A 32-bit number from a least one up, written with or without a sign. -/
def word32? (least : Nat) (text : String) : Option Nat := do
  let n ← Text.signed? text
  if (least : Int) ≤ n ∧ n < Text.word32Limit then some n.toNat else none

/-- The options that stand on one level, each with a value that it can have. -/
def ofArguments (a : Arguments) : Option GlobalOptions := do
  if !(a.get? "log-level").all logLevels.contains then none
  return {
    config := ← (a.get? "config").mapM path?
    nilStrict := a.has "nil-strict"
    maxDepth := ← (a.get? "max-depth").mapM (word32? 1) }

/-- What stands after the command outweighs what stands before it. -/
def overlay (before after : GlobalOptions) : GlobalOptions :=
  { config := after.config <|> before.config
    nilStrict := after.nilStrict || before.nilStrict
    maxDepth := after.maxDepth <|> before.maxDepth }

/-- The settings that the command line supplies. The flag can only turn strictness on. -/
def overrides (o : GlobalOptions) : PartialSettings :=
  { nilStrict := if o.nilStrict then some true else none, maxDepth := o.maxDepth }

end GlobalOptions

/-- A command by name: the options that it takes, whether it takes operands, and how it is read. -/
structure CommandForm where
  arity : String → Option Arity
  operands : Bool := false
  read : Arguments → Option Command

namespace CommandForm

/-- At most one of two options is given. -/
def exclude (a : Arguments) (first second : String) : Option Unit :=
  if a.has first ∧ a.has second then none else some ()

/-- A position among values, of 64 bits. -/
def position? (text : String) : Option Nat :=
  (Text.unsigned? text).filter (· < Text.word64Limit)

/-- The search for one member; without a flag it is deep. -/
def readResolve (a : Arguments) : Option Command := do
  exclude a "method" "shallow"
  let index ← (a.get? "index").bind GlobalOptions.path?
  let mode := if a.has "method" then .method else if a.has "shallow" then .shallow else .deep
  return .resolve index (← a.get? "class") (← a.get? "member") mode

/-- The listing of the members of a class. -/
def readMembers (a : Arguments) : Option Command := do
  let index ← (a.get? "index").bind GlobalOptions.path?
  return .members index (← a.get? "class")

/-- The inference of one expression, at position 0 unless the line says otherwise. -/
def readInfer (a : Arguments) : Option Command := do
  exclude a "tuple" "position"
  let index ← (a.get? "index").mapM GlobalOptions.path?
  let chunk ← (a.get? "chunk").bind GlobalOptions.path?
  let node ← (a.get? "node").bind (GlobalOptions.word32? 0)
  let position ← (a.get? "position").mapM position?
  return .infer index chunk node (position.getD 0) (a.has "tuple")

/-- The check of two types, with an index if one is named. -/
def readSubtype (a : Arguments) : Option Command := do
  let index ← (a.get? "index").mapM GlobalOptions.path?
  return .subtype (← a.get? "sub") (← a.get? "sup") index

/-- The union of its operands, at least one. -/
def readUnion (a : Arguments) : Option Command :=
  if a.operands.isEmpty then none else some (.union a.operands)

/-- The commands by name. -/
def named? : String → Option CommandForm
  | "resolve" => some {
      arity := fun
        | "index" | "class" | "member" => some .value
        | "method" | "shallow" => some .flag
        | _ => none
      read := readResolve }
  | "members" => some {
      arity := fun
        | "index" | "class" => some .value
        | _ => none
      read := readMembers }
  | "infer" => some {
      arity := fun
        | "index" | "chunk" | "node" | "position" => some .value
        | "tuple" => some .flag
        | _ => none
      read := readInfer }
  | "subtype" => some {
      arity := fun
        | "sub" | "sup" | "index" => some .value
        | _ => none
      read := readSubtype }
  | "union" => some { arity := fun _ => none, operands := true, read := readUnion }
  | _ => none

end CommandForm

namespace Invocation

/-- Reads a command line; `none` is a misuse. -/
def ofArguments? (args : List String) : Option Invocation := do
  let (before, rest) ← Arguments.scan GlobalOptions.arity true {} args
  match rest with
  | [] => none
  | name :: rest =>
      let form ← CommandForm.named? name
      let arity := fun option => form.arity option <|> GlobalOptions.arity option
      let (after, _) ← Arguments.scan arity false {} rest
      if !before.isUnambiguous || !after.isUnambiguous then none
      if !form.operands && !after.operands.isEmpty then none
      let first ← GlobalOptions.ofArguments before
      let second ← GlobalOptions.ofArguments after
      return { options := first.overlay second, command := ← form.read after }

/-- The files that an invocation reads. -/
def paths (i : Invocation) : List String :=
  i.options.config.toList ++ i.command.paths

/-- Resolves the settings, then runs the command. -/
def run (i : Invocation) (readFile env : String → Option String) : Except Error Response := do
  let settings ← LayeredSettings.resolve (i.options.config.map readFile) env i.options.overrides
  i.command.run readFile settings.settings

end Invocation

/-- How a command line ends. -/
inductive Outcome where
  | misuse
  | answer (r : Response)
  | failure (e : Error)

namespace Outcome

/-- Runs a command line on the files and the environment. -/
def ofArguments (args : List String) (readFile env : String → Option String) : Outcome :=
  match Invocation.ofArguments? args with
  | none => .misuse
  | some i =>
      match i.run readFile env with
      | .ok r => .answer r
      | .error e => .failure e

/-- The exit status. -/
def status : Outcome → Nat
  | .misuse => 2
  | .answer _ => 0
  | .failure e => e.code

/-- The text on the standard output. Errors are answers too, but a misuse is not. -/
def output : Outcome → String
  | .misuse => ""
  | .answer r => r.toJson.document
  | .failure e => e.toJson.document

end Outcome

end LuaTypes
