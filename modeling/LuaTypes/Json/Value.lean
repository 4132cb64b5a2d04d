import LuaTypes.Json.Numeral

/-!
JSON documents as trees. Objects keep their entries in the order written, repeated keys included,
and a number keeps how it is written, because a reader of documents tells these apart.
-/

namespace LuaTypes

/-- A document. -/
inductive Json where
  | null
  | bool (value : Bool)
  | number (value : Numeral)
  /-- `none` is a text with an unpaired surrogate, which no string can hold. -/
  | text (value : Option String)
  | array (items : List Json)
  | object (entries : List (Option String × Json))

namespace Json

instance : Inhabited Json := ⟨.null⟩

def string (s : String) : Json :=
  .text (some s)

def nat (n : Nat) : Json :=
  .number (.ofNat n)

def int (n : Int) : Json :=
  .number (.ofInt n)

/-- An object with the given fields in order. -/
def record (fields : List (String × Json)) : Json :=
  .object (fields.map fun f => (some f.1, f.2))

/-- A value, or `null` where there is none. -/
def optional (f : α → Json) : Option α → Json
  | none => .null
  | some a => f a

/-- A field that is left out when it has no value. -/
def fieldIfSome (name : String) (f : α → Json) (value : Option α) : List (String × Json) :=
  value.toList.map fun a => (name, f a)

/-- A field for a list that is left out when the list is empty. -/
def fieldUnlessEmpty (name : String) (f : α → Json) (values : List α) : List (String × Json) :=
  if values.isEmpty then [] else [(name, .array (values.map f))]

/-- A field for a truth value that is left out when it is false. -/
def fieldIfTrue (name : String) (value : Bool) : List (String × Json) :=
  if value then [(name, .bool true)] else []

end Json

mutual

/-- All texts and keys can be held by strings, no number overflows, and arrays and objects nest at
most as deep as there is room. -/
def Json.isSound : Nat → Json → Bool
  | _, .null => true
  | _, .bool _ => true
  | _, .number n => !n.overflows
  | _, .text s => s.isSome
  | 0, .array _ => false
  | room + 1, .array items => Json.areSound room items
  | 0, .object _ => false
  | room + 1, .object entries => Json.areSoundEntries room entries
termination_by structural _ j => j

def Json.areSound (room : Nat) : List Json → Bool
  | [] => true
  | j :: js => j.isSound room && Json.areSound room js
termination_by structural js => js

def Json.areSoundEntries (room : Nat) : List (Option String × Json) → Bool
  | [] => true
  | (key, j) :: entries => key.isSome && j.isSound room && Json.areSoundEntries room entries
termination_by structural es => es

end

end LuaTypes
