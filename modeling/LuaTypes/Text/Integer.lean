namespace LuaTypes

namespace Text

/-- Two to the power of 32. -/
def word32Limit : Nat := 4294967296

/-- Two to the power of 64. -/
def word64Limit : Nat := 18446744073709551616

/-- One decimal digit at least, and nothing else. -/
def digits? : List Char → Option Nat
  | [] => none
  | cs =>
      if cs.all Char.isDigit then some (cs.foldl (fun n c => n * 10 + (c.toNat - '0'.toNat)) 0)
      else none

/-- Digits that may follow a plus sign. -/
def unsigned? (s : String) : Option Nat :=
  match s.toList with
  | '+' :: cs => digits? cs
  | cs => digits? cs

/-- Digits that may follow a plus or a minus sign. -/
def signed? (s : String) : Option Int :=
  match s.toList with
  | '-' :: cs => (digits? cs).map fun n => -n
  | _ => (unsigned? s).map Int.ofNat

end Text

end LuaTypes
