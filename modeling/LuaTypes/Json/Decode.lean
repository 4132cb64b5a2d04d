import LuaTypes.Json.Value
import LuaTypes.Text.Integer

/-!
Decoders: what a document must look like to stand for a value. A decoder is told how many levels
of arrays and objects the document may still nest. Records may be written as objects, where
unknown keys are passed over unread, or as arrays of their fields in order.
-/

namespace LuaTypes

/-- Reads a value from a document that nests no deeper than the given room. -/
abbrev Decoder (α : Type) := Nat → Json → Option α

namespace Decoder

/-- How deep the documents nest that are read at all. -/
def fullRoom : Nat := 127

/-- A text without unpaired surrogates. -/
def string : Decoder String
  | _, .text s => s
  | _, _ => none

def bool : Decoder Bool
  | _, .bool b => some b
  | _, _ => none

/-- A natural number below the limit, written with neither sign, point nor exponent. -/
def natBelow (limit : Nat) : Decoder Nat
  | _, .number n => n.toNat?.filter (· < limit)
  | _, _ => none

/-- A natural number of 32 bits. -/
def word32 : Decoder Nat :=
  natBelow Text.word32Limit

/-- An array of values, whose items have one level less to nest. -/
def list (d : Decoder α) : Decoder (List α)
  | room + 1, .array items => items.mapM (d room)
  | _, _ => none

/-- A value, or `null` for none. -/
def orNull (d : Decoder α) : Decoder (Option α)
  | _, .null => some none
  | room, j => (d room j).map some

/-- The entries of an object that has string keys only. -/
def stringKeys (entries : List (Option String × Json)) : Option (List (String × Json)) :=
  entries.mapM fun e => e.1.map fun key => (key, e.2)

/-- The fields of a record by their names. No name occurs twice. In an array the fields stand in
order, and none stands past the last. -/
def fields (names : List String) : Json → Option (List (Option Json))
  | .array items =>
      if items.length ≤ names.length then
        some ((List.range names.length).map fun i => items[i]?)
      else none
  | .object entries => do
      let entries ← stringKeys entries
      if (names.all fun name => (entries.filter (·.1 = name)).length ≤ 1) then
        some (names.map fun name => entries.lookup name)
      else none
  | _ => none

/-- Reads a record from its fields, which have one level less to nest. -/
def record (names : List String) (read : Nat → List (Option Json) → Option α) : Decoder α
  | room + 1, j => (fields names j).bind (read room)
  | 0, _ => none

/-- A field that must be there. -/
def required (d : Decoder α) (room : Nat) (field : Option Json) : Option α :=
  field.bind (d room)

/-- A field that has a value when it is left out. -/
def withDefault (d : Decoder α) (default : α) (room : Nat) (field : Option Json) : Option α :=
  match field with
  | none => some default
  | some j => d room j

/-- A field that may be `null` or left out. -/
def optional (d : Decoder α) (room : Nat) (field : Option Json) : Option (Option α) :=
  withDefault d.orNull none room field

/-- A list that is empty when it is left out. -/
def listOrEmpty (d : Decoder α) (room : Nat) (field : Option Json) : Option (List α) :=
  withDefault d.list [] room field

/-- A truth value that is false when it is left out. -/
def flag (room : Nat) (field : Option Json) : Option Bool :=
  withDefault bool false room field

/-- One of several words, by itself or as the only key of an object that holds `null`. Inside
another document the object may also hold an empty object. -/
def word (nested : Bool) (words : List String) : Decoder String
  | _, .text (some w) => if words.contains w then some w else none
  | _ + 1, .object [(some w, payload)] =>
      match payload with
      | .null => if words.contains w then some w else none
      | .object [] => if nested && words.contains w then some w else none
      | _ => none
  | _, _ => none

/-- The word that tags a document. Inside another document it may be given by its position. -/
def tagWord (nested : Bool) (words : List String) : Json → Option String
  | .text (some w) => if words.contains w then some w else none
  | .number n => if nested then n.toNat?.bind fun i => words[i]? else none
  | _ => none

/-- Takes the tag off a document: the only entry under the key, or the first item of an array. -/
def tagged (key : String) (nested : Bool) (words : List String) : Json → Option (String × Json)
  | .array (tag :: items) => (tagWord nested words tag).map (·, .array items)
  | .object entries =>
      match entries.filter (·.1 = some key) with
      | [(_, tag)] =>
          (tagWord nested words tag).map (·, .object (entries.filter (·.1 ≠ some key)))
      | _ => none
  | _ => none

/-- What is left of a document that is no more than its tag: any entries, but no items. -/
def tagOnly (a : α) : Json → Option α
  | .array [] => some a
  | .object _ => some a
  | _ => none

end Decoder

end LuaTypes
