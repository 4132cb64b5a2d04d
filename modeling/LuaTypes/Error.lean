namespace LuaTypes

/-- Why a text is no member key. -/
inductive KeyFault where
  | noSeparator
  | emptyClass
  | emptyMember
  | separatorInClass
  | separatorInMember
  deriving DecidableEq

/-- The part of the message that tells the fault. -/
def KeyFault.reason : KeyFault → String
  | .noSeparator => "missing '*' separator"
  | .emptyClass => "empty class name"
  | .emptyMember => "empty member name"
  | .separatorInClass => "class name contains '*'"
  | .separatorInMember => "member name contains '*'"

/-- Why settings cannot be used. -/
inductive SettingsFault where
  | unreadableFile
  | invalidFile
  /-- An environment variable that should hold a truth value. -/
  | notBoolean (variableName raw : String)
  | notInteger (variableName raw : String)
  | zeroDepth
  deriving DecidableEq

/-- What refers to a node of a chunk. -/
inductive NodeOwner where
  | node (id : Nat)
  | binding (names : List String)
  deriving DecidableEq

/-- Why an index or a chunk cannot be used. -/
inductive IndexFault where
  | unnamedClass
  | missingNode (owner : NodeOwner) (id count : Nat)
  | nodeOutOfRange (id count : Nat)
  deriving DecidableEq

/-- What a command can fail with. -/
inductive Error where
  | malformedKey (key : String) (fault : KeyFault)
  | settings (fault : SettingsFault)
  | index (fault : IndexFault)
  | memberNotFound (className memberName : String)
  /-- A file could not be read. -/
  | io
  /-- A text is not the JSON document it should be. -/
  | json
  deriving DecidableEq

/-- How a message names what refers to a node. -/
def NodeOwner.describe : NodeOwner → String
  | .node id => "#" ++ toString id
  | .binding names => "binding '" ++ ", ".intercalate names ++ "'"

/-- The part of the message that tells the fault of an index or a chunk. -/
def IndexFault.describe : IndexFault → String
  | .unnamedClass => "class declaration with empty name"
  | .missingNode owner id count =>
      owner.describe ++ " references missing node #" ++ toString id ++ " (chunk has " ++
        toString count ++ " nodes)"
  | .nodeOutOfRange id count =>
      "node #" ++ toString id ++ " out of range (chunk has " ++ toString count ++ " nodes)"

/-- The part of the message that tells the fault of the settings. -/
def SettingsFault.describe : SettingsFault → String
  | .unreadableFile => "cannot read the file"
  | .invalidFile => "invalid file"
  | .notBoolean variableName raw => variableName ++ ": expected a boolean, got '" ++ raw ++ "'"
  | .notInteger variableName raw => variableName ++ ": expected an integer, got '" ++ raw ++ "'"
  | .zeroDepth => "max_depth must be at least 1"

namespace Error

def message : Error → String
  | .malformedKey key fault => "malformed member key '" ++ key ++ "': " ++ fault.reason
  | .settings fault => "config error: " ++ fault.describe
  | .index fault => "index error: " ++ fault.describe
  | .memberNotFound className memberName =>
      "member '" ++ memberName ++ "' not found on class '" ++ className ++ "'"
  | .io => "IO error"
  | .json => "JSON error"

/-- Errors about a file or a text, whose message leaves out what only the file system or the place
in the text could add. -/
def isGeneral : Error → Bool
  | .io | .json | .settings .unreadableFile | .settings .invalidFile => true
  | _ => false

/-- The exit status: 2 for bad input, 3 for a member that is not there, 10 for the outside world. -/
def code : Error → Nat
  | .memberNotFound _ _ => 3
  | .io => 10
  | _ => 2

end Error

end LuaTypes
