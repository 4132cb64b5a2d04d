import LuaTypes.Json.Binary64
import LuaTypes.Text.Integer

/-!
Numbers as documents write them. A whole number that fits 64 bits is exact. Any other is read for
its magnitude only, in two steps: its leading digits are taken in as long as they fit 64 bits, and
what they make is multiplied by a power of ten. The digits, the power of ten and the product are
each rounded.
-/

namespace LuaTypes

/-- A number as it is written. -/
structure Numeral where
  negative : Bool := false
  /-- All digits before the exponent, read as one number. -/
  digits : Nat
  /-- How many of the digits stand after the point. -/
  decimals : Option Nat := none
  exponent : Option Int := none
  deriving DecidableEq

/-- A number times a power of ten. -/
structure Scaled where
  significand : Nat
  exponent : Int
  deriving DecidableEq

namespace Numeral

/-- How a natural number is written. -/
def ofNat (n : Nat) : Numeral :=
  { digits := n }

/-- How an integer is written. -/
def ofInt (n : Int) : Numeral :=
  { negative := n < 0, digits := n.natAbs }

/-- The natural number, if it is written as one: with neither sign, point nor exponent. -/
def toNat? (n : Numeral) : Option Nat :=
  if n.negative ∨ n.decimals.isSome ∨ n.exponent.isSome then none else some n.digits

/-- The digits in order. One of them at least stands before the point. -/
def digitList (n : Numeral) : List Char :=
  let digits := Nat.toDigits 10 n.digits
  List.replicate (n.decimals.getD 0 + 1 - digits.length) '0' ++ digits

def wholeDigits (n : Numeral) : List Char :=
  n.digitList.take (n.digitList.length - n.decimals.getD 0)

def decimalDigits (n : Numeral) : List Char :=
  n.digitList.drop (n.digitList.length - n.decimals.getD 0)

/-- Puts digits behind a number as long as the result fits 64 bits. Also tells how many digits found
room. -/
def takeIn (n : Nat) : List Char → Nat × Nat
  | [] => (n, 0)
  | c :: cs =>
      let m := n * 10 + (c.toNat - '0'.toNat)
      if m < Text.word64Limit then
        let (m, count) := takeIn m cs
        (m, count + 1)
      else (n, 0)

/-- The number with the digits that found room, first before the point and then after it. A digit
before the point that found none counts as a zero, one after the point is left out. -/
def scaled (n : Numeral) : Scaled :=
  let (front, wholeCount) := takeIn 0 n.wholeDigits
  let (significand, decimalCount) := takeIn front n.decimalDigits
  { significand
    exponent := n.exponent.getD 0 + (n.wholeDigits.length - wholeCount : Nat) - decimalCount }

/-- Is read without rounding. -/
def isExact (n : Numeral) : Bool :=
  n.decimals.isNone && n.exponent.isNone && n.digits < Text.word64Limit

end Numeral

namespace Scaled

/-- Rounds to no finite binary64 number. The largest power of ten among these has exponent 308. -/
def overflows (s : Scaled) : Bool :=
  s.significand ≠ 0 && 0 ≤ s.exponent &&
    (308 < s.exponent || Binary64.limit ≤ Binary64.round
      (Binary64.round s.significand * Binary64.round (Nat.pow 10 s.exponent.toNat)))

end Scaled

namespace Numeral

/-- Cannot be read, because its magnitude is too large. -/
def overflows (n : Numeral) : Bool :=
  !n.isExact && n.scaled.overflows

theorem overflows_ofNat {n : Nat} (h : n < Text.word64Limit) : (ofNat n).overflows = false := by
  simp [overflows, isExact, ofNat, h]

end Numeral

end LuaTypes
