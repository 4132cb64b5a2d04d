/-!
Splitting a command line into options and operands. An option is written `--name value` or
`--name=value`, a flag `--name`. A value that begins with a hyphen needs the equals sign, and after
a lone `--` everything is an operand.
-/

namespace LuaTypes

/-- What an option is followed by. -/
inductive Arity where
  | flag
  | value
  deriving DecidableEq

/-- The arguments of one level. A flag holds the empty text. -/
structure Arguments where
  options : List (String × String) := []
  operands : List String := []

/-- How an argument reads by itself. -/
inductive Argument where
  | operand (text : String)
  | option (name : String) (attached : Option String)
  /-- A lone `--`. -/
  | terminator
  /-- One hyphen and more. -/
  | short (text : String)

/-- Reads an argument by itself; what is attached begins after the first equals sign. -/
def Argument.ofString (s : String) : Argument :=
  match s.toList with
  | ['-', '-'] => .terminator
  | '-' :: '-' :: rest =>
      match rest.dropWhile (· ≠ '=') with
      | [] => .option (String.ofList rest) none
      | _ :: value =>
          .option (String.ofList (rest.takeWhile (· ≠ '='))) (some (String.ofList value))
  | '-' :: _ :: _ => .short s
  | _ => .operand s

namespace Arguments

def addOption (a : Arguments) (name value : String) : Arguments :=
  { a with options := a.options ++ [(name, value)] }

def addOperands (a : Arguments) (texts : List String) : Arguments :=
  { a with operands := a.operands ++ texts }

/-- Reads arguments up to their end, or up to the first operand if there is to be one command. What
is left then is the operand and what follows it. `none` is a misuse. -/
def scan (arity : String → Option Arity) (untilOperand : Bool) (a : Arguments) :
    List String → Option (Arguments × List String)
  | [] => some (a, [])
  | arg :: rest =>
      match Argument.ofString arg with
      | .operand text =>
          if untilOperand then some (a, arg :: rest)
          else scan arity untilOperand (a.addOperands [text]) rest
      | .terminator => if untilOperand then none else some (a.addOperands rest, [])
      | .short _ => none
      | .option name attached =>
          match arity name, attached, rest with
          | some .flag, none, rest => scan arity untilOperand (a.addOption name "") rest
          | some .value, some value, rest =>
              scan arity untilOperand (a.addOption name value) rest
          | some .value, none, value :: rest =>
              match Argument.ofString value with
              | .operand text => scan arity untilOperand (a.addOption name text) rest
              | _ => none
          | _, _, _ => none

/-- No option is given twice. -/
def isUnambiguous (a : Arguments) : Bool :=
  a.options.all fun o => (a.options.filter (·.1 = o.1)).length ≤ 1

/-- The value of an option. -/
def get? (a : Arguments) (name : String) : Option String :=
  a.options.lookup name

def has (a : Arguments) (name : String) : Bool :=
  (a.get? name).isSome

end Arguments

end LuaTypes
