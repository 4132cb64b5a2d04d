import LuaTypes.Json.Value

namespace LuaTypes

namespace Json

/-- The characters that may stand between the parts of a document. -/
def isBlank (c : Char) : Bool :=
  c = ' ' || c = '\t' || c = '\n' || c = '\r'

def skipBlanks (cs : List Char) : List Char :=
  cs.dropWhile isBlank

def hexValue? (c : Char) : Option Nat :=
  if c.isDigit then some (c.toNat - '0'.toNat)
  else if 'a' ≤ c ∧ c ≤ 'f' then some (c.toNat - 'a'.toNat + 10)
  else if 'A' ≤ c ∧ c ≤ 'F' then some (c.toNat - 'A'.toNat + 10)
  else none

/-- The code unit of four hexadecimal digits. -/
def hexUnit? (a b c d : Char) : Option Nat := do
  return (((← hexValue? a) * 16 + (← hexValue? b)) * 16 + (← hexValue? c)) * 16 + (← hexValue? d)

/-- The code that a backslash and one more character stand for. -/
def shortEscape? : Char → Option Nat
  | '"' => some 34
  | '\\' => some 92
  | '/' => some 47
  | 'b' => some 8
  | 'f' => some 12
  | 'n' => some 10
  | 'r' => some 13
  | 't' => some 9
  | _ => none

/-- The codes of a string up to its closing quote. Only escapes yield surrogates. -/
def stringUnits : List Char → Option (List Nat × List Char)
  | [] => none
  | '"' :: rest => some ([], rest)
  | '\\' :: 'u' :: a :: b :: c :: d :: rest => do
      let unit ← hexUnit? a b c d
      let (units, rest) ← stringUnits rest
      return (unit :: units, rest)
  | '\\' :: e :: rest => do
      let unit ← shortEscape? e
      let (units, rest) ← stringUnits rest
      return (unit :: units, rest)
  | c :: rest => do
      if c.toNat < 32 ∨ c = '\\' then none
      let (units, rest) ← stringUnits rest
      return (c.toNat :: units, rest)

def isLeadSurrogate (unit : Nat) : Bool :=
  0xd800 ≤ unit && unit ≤ 0xdbff

def isTrailSurrogate (unit : Nat) : Bool :=
  0xdc00 ≤ unit && unit ≤ 0xdfff

/-- Puts surrogate pairs together; one that is left over spoils the text. -/
def charsOfUnits : List Nat → Option (List Char)
  | [] => some []
  | [unit] =>
      if isLeadSurrogate unit || isTrailSurrogate unit then none else some [Char.ofNat unit]
  | unit :: next :: rest =>
      if isLeadSurrogate unit then
        if isTrailSurrogate next then
          (charsOfUnits rest).map
            (Char.ofNat (0x10000 + (unit - 0xd800) * 0x400 + (next - 0xdc00)) :: ·)
        else none
      else if isTrailSurrogate unit then none
      else (charsOfUnits (next :: rest)).map (Char.ofNat unit :: ·)

/-- A string after its opening quote. `none` inside is a text with an unpaired surrogate. -/
def readText (cs : List Char) : Option (Option String × List Char) := do
  let (units, rest) ← stringUnits cs
  return ((charsOfUnits units).map String.ofList, rest)

/-- The number that decimal digits stand for. -/
def natOfDigits (digits : List Char) : Nat :=
  digits.foldl (fun n c => n * 10 + (c.toNat - '0'.toNat)) 0

/-- One digit at least, and as many as there are. -/
def readDigits (cs : List Char) : Option (List Char × List Char) :=
  match cs.takeWhile Char.isDigit with
  | [] => none
  | digits => some (digits, cs.dropWhile Char.isDigit)

/-- The digits after a point, if there is a point. -/
def readDecimals : List Char → Option (Option (List Char) × List Char)
  | '.' :: rest => do
      let (digits, rest) ← readDigits rest
      return (some digits, rest)
  | cs => some (none, cs)

def readSign : List Char → Bool × List Char
  | '-' :: rest => (true, rest)
  | '+' :: rest => (false, rest)
  | cs => (false, cs)

/-- The exponent, if there is one. -/
def readExponent : List Char → Option (Option Int × List Char)
  | c :: rest =>
      if c = 'e' ∨ c = 'E' then do
        let (negative, rest) := readSign rest
        let (digits, rest) ← readDigits rest
        let n : Int := natOfDigits digits
        return (some (if negative then -n else n), rest)
      else some (none, c :: rest)
  | [] => some (none, [])

/-- A number without its minus sign. A zero at the front stands alone. -/
def readUnsigned (negative : Bool) (cs : List Char) : Option (Numeral × List Char) := do
  let (whole, rest) ← readDigits cs
  if whole.length ≠ 1 ∧ whole.head? = some '0' then none
  let (decimals, rest) ← readDecimals rest
  let (exponent, rest) ← readExponent rest
  return ({ negative, digits := natOfDigits (whole ++ decimals.getD []),
            decimals := decimals.map List.length, exponent }, rest)

/-- A number. -/
def readNumeral : List Char → Option (Numeral × List Char)
  | '-' :: rest => readUnsigned true rest
  | cs => readUnsigned false cs

/-- Takes a given word off the front. -/
def readWord (word : List Char) (cs : List Char) : Option (List Char) :=
  if word.isPrefixOf cs then some (cs.drop word.length) else none

mutual

/-- A value; the fuel bounds the number of nested and following values. -/
def readValue : Nat → List Char → Option (Json × List Char)
  | 0, _ => none
  | fuel + 1, cs =>
      match skipBlanks cs with
      | 'n' :: rest => (readWord ['u', 'l', 'l'] rest).map (Json.null, ·)
      | 't' :: rest => (readWord ['r', 'u', 'e'] rest).map (Json.bool true, ·)
      | 'f' :: rest => (readWord ['a', 'l', 's', 'e'] rest).map (Json.bool false, ·)
      | '"' :: rest => (readText rest).map fun r => (Json.text r.1, r.2)
      | '[' :: rest =>
          match skipBlanks rest with
          | ']' :: rest => some (.array [], rest)
          | rest => (readItems fuel rest).map fun r => (Json.array r.1, r.2)
      | '{' :: rest =>
          match skipBlanks rest with
          | '}' :: rest => some (.object [], rest)
          | rest => (readEntries fuel rest).map fun r => (Json.object r.1, r.2)
      | rest => (readNumeral rest).map fun r => (Json.number r.1, r.2)

/-- The items of an array up to its closing bracket, at least one. -/
def readItems : Nat → List Char → Option (List Json × List Char)
  | 0, _ => none
  | fuel + 1, cs => do
      let (item, rest) ← readValue fuel cs
      match skipBlanks rest with
      | ']' :: rest => return ([item], rest)
      | ',' :: rest =>
          let (items, rest) ← readItems fuel rest
          return (item :: items, rest)
      | _ => none

/-- The entries of an object up to its closing brace, at least one. -/
def readEntries : Nat → List Char → Option (List (Option String × Json) × List Char)
  | 0, _ => none
  | fuel + 1, cs =>
      match skipBlanks cs with
      | '"' :: rest => do
          let (key, rest) ← readText rest
          match skipBlanks rest with
          | ':' :: rest =>
              let (item, rest) ← readValue fuel rest
              match skipBlanks rest with
              | '}' :: rest => return ([(key, item)], rest)
              | ',' :: rest =>
                  let (entries, rest) ← readEntries fuel rest
                  return ((key, item) :: entries, rest)
              | _ => none
          | _ => none
      | _ => none

end

/-- A whole text: one value with nothing but blanks around it. -/
def parse (text : String) : Option Json := do
  let cs := text.toList
  let (value, rest) ← readValue (2 * cs.length + 2) cs
  if (skipBlanks rest).isEmpty then some value else none

end Json

end LuaTypes
