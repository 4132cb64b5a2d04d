import LuaTypes.Json.Value

namespace LuaTypes

namespace Json

def hexDigit (n : Nat) : Char :=
  Nat.digitChar n

/-- Quotes, backslashes and control characters are escaped, nothing else is. -/
def escapeChar (c : Char) : List Char :=
  match c with
  | '"' => ['\\', '"']
  | '\\' => ['\\', '\\']
  | '\x08' => ['\\', 'b']
  | '\x0c' => ['\\', 'f']
  | '\n' => ['\\', 'n']
  | '\r' => ['\\', 'r']
  | '\t' => ['\\', 't']
  | c =>
      if c.toNat < 32 then
        ['\\', 'u', '0', '0', hexDigit (c.toNat / 16), hexDigit (c.toNat % 16)]
      else [c]

/-- A string in quotes. -/
def quote (s : String) : String :=
  "\"" ++ String.ofList (s.toList.flatMap escapeChar) ++ "\""

/-- A text that no string can hold is written as the escape of a lone surrogate. -/
def writeText : Option String → String
  | some s => quote s
  | none => "\"\\ud800\""

def writeBool (b : Bool) : String :=
  if b then "true" else "false"

/-- A number as it has been read. -/
def writeNumber (n : Numeral) : String :=
  (if n.negative then "-" else "") ++ String.ofList n.wholeDigits ++
    (if n.decimals.isSome then "." ++ String.ofList n.decimalDigits else "") ++
    (match n.exponent with
      | none => ""
      | some e => "e" ++ toString e)

end Json

mutual

/-- Text without any blanks between its parts. -/
def Json.compact : Json → String
  | .null => "null"
  | .bool b => Json.writeBool b
  | .number n => Json.writeNumber n
  | .text s => Json.writeText s
  | .array items => "[" ++ ",".intercalate (Json.compactItems items) ++ "]"
  | .object entries => "\x7b" ++ ",".intercalate (Json.compactEntries entries) ++ "\x7d"
termination_by structural j => j

def Json.compactItems : List Json → List String
  | [] => []
  | j :: js => j.compact :: Json.compactItems js
termination_by structural js => js

def Json.compactEntries : List (Option String × Json) → List String
  | [] => []
  | (key, j) :: es => (Json.writeText key ++ ":" ++ j.compact) :: Json.compactEntries es
termination_by structural es => es

end

namespace Json

/-- Lines between brackets, each one step deeper than the brackets; nothing between them if there
are no lines. -/
def block (opening closing : String) (margin : String) (lines : List String) : String :=
  if lines.isEmpty then opening ++ closing
  else opening ++ "\n" ++ ",\n".intercalate (lines.map fun line => margin ++ "  " ++ line) ++
    "\n" ++ margin ++ closing

end Json

mutual

/-- Text with one item or entry per line, indented by two spaces per level. -/
def Json.pretty (margin : String) : Json → String
  | .null => "null"
  | .bool b => Json.writeBool b
  | .number n => Json.writeNumber n
  | .text s => Json.writeText s
  | .array items => Json.block "[" "]" margin (Json.prettyItems (margin ++ "  ") items)
  | .object entries =>
      Json.block "\x7b" "\x7d" margin (Json.prettyEntries (margin ++ "  ") entries)
termination_by structural j => j

def Json.prettyItems (margin : String) : List Json → List String
  | [] => []
  | j :: js => j.pretty margin :: Json.prettyItems margin js
termination_by structural js => js

def Json.prettyEntries (margin : String) : List (Option String × Json) → List String
  | [] => []
  | (key, j) :: es =>
      (Json.writeText key ++ ": " ++ j.pretty margin) :: Json.prettyEntries margin es
termination_by structural es => es

end

/-- The indented text of a whole document, with a line end. -/
def Json.document (j : Json) : String :=
  j.pretty "" ++ "\n"

end LuaTypes
