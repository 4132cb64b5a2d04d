import LuaTypes.Index.Document
import LuaTypes.Settings.Basic
import LuaTypes.Text.Blank
import LuaTypes.Text.Integer

/-!
How settings are resolved: defaults, below a settings file, below the environment, below the command
line. A layer that makes no sense is an error even where a stronger layer outweighs it.
-/

namespace LuaTypes

open Decoder

namespace Settings

/-- Settings from a document, where either may be left out. -/
def decode : Decoder Settings :=
  record ["nil_strict", "max_depth"] fun
    | room, [nilStrict, maxDepth] => do
        let nilStrict ← withDefault Decoder.bool false room nilStrict
        let maxDepth ← withDefault word32 64 room maxDepth
        return { nilStrict, maxDepth }
    | _, _ => none

end Settings

namespace PartialSettings

/-- The settings of a file. It holds nothing else, and as an array it holds both. -/
def decode : Decoder PartialSettings := fun room j =>
  let names := ["nil_strict", "max_depth"]
  let complete : Bool := match j with
    | .array items => items.length = names.length
    | .object entries => entries.all fun e => e.1.any names.contains
    | _ => false
  if complete then
    record names (fun
      | room, [nilStrict, maxDepth] => do
          let nilStrict ← Decoder.optional Decoder.bool room nilStrict
          let maxDepth ← Decoder.optional word32 room maxDepth
          return { nilStrict, maxDepth }
      | _, _ => none) room j
  else none

/-- Refuses a depth that would allow no inference at all. -/
def positiveDepth (p : PartialSettings) : Except Error PartialSettings :=
  if p.maxDepth = some 0 then .error (.settings .zeroDepth) else .ok p

/-- What a settings file supplies. `none` is a file that could not be read. -/
def ofFile : Option String → Except Error PartialSettings
  | none => .error (.settings .unreadableFile)
  | some text =>
      match decode.parse text with
      | .error _ => .error (.settings .invalidFile)
      | .ok p => p.positiveDepth

/-- The spellings of truth values in the environment. -/
def readBool? (raw : String) : Option Bool :=
  match (Text.trim raw).map Char.toLower with
  | "1" | "true" | "yes" => some true
  | "0" | "false" | "no" => some false
  | _ => none

/-- A depth in the environment, of 32 bits. -/
def readDepth? (raw : String) : Option Nat :=
  (Text.unsigned? (Text.trim raw)).filter (· < Text.word32Limit)

def nilStrictVariable : String := "LUATY_NIL_STRICT"

def maxDepthVariable : String := "LUATY_MAX_DEPTH"

/-- What the environment supplies. -/
def ofEnvironment (env : String → Option String) : Except Error PartialSettings := do
  let nilStrict ← (env nilStrictVariable).mapM fun raw =>
    match readBool? raw with
    | some b => Except.ok b
    | none => .error (Error.settings (.notBoolean nilStrictVariable raw))
  let maxDepth ← (env maxDepthVariable).mapM fun raw =>
    match readDepth? raw with
    | some n => Except.ok n
    | none => .error (Error.settings (.notInteger maxDepthVariable raw))
  ({ nilStrict, maxDepth } : PartialSettings).positiveDepth

/-- The command line cannot ask for less than one level. -/
def atLeastOne (p : PartialSettings) : PartialSettings :=
  { p with maxDepth := p.maxDepth.map (max 1) }

end PartialSettings

namespace LayeredSettings

/-- Resolves the settings. The file, if one is named, is given by its text, or by `none` if it
cannot be read. -/
def resolve (file : Option (Option String)) (env : String → Option String)
    (commandLine : PartialSettings) : Except Error LayeredSettings := do
  let fromFile ← file.elim (.ok {}) PartialSettings.ofFile
  let fromEnvironment ← PartialSettings.ofEnvironment env
  return (((({} : LayeredSettings).overlay .file fromFile).overlay .environment
    fromEnvironment).overlay .commandLine commandLine.atLeastOne)

end LayeredSettings

end LuaTypes
