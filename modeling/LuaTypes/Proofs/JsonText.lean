import LuaTypes.Json.Reader
import LuaTypes.Json.Writer
import Mathlib.Data.List.Basic
import Mathlib.Tactic.IntervalCases

namespace LuaTypes.Json

variable {cs rest : List Char}

theorem hexUnit?_hexDigit {n : Nat} (h : n < 32) :
    hexUnit? '0' '0' (hexDigit (n / 16)) (hexDigit (n % 16)) = some n := by
  interval_cases n <;> rfl

theorem stringUnits_cons {c : Char} (hquote : c ≠ '"') (hbackslash : c ≠ '\\')
    (hprintable : ¬c.toNat < 32) :
    stringUnits (c :: cs) = (stringUnits cs).map fun r => (c.toNat :: r.1, r.2) := by
  rw [stringUnits.eq_def]
  split
  next h => cases h
  next h => exact absurd (List.cons.inj h).1 hquote
  next h => exact absurd (List.cons.inj h).1 hbackslash
  next h => exact absurd (List.cons.inj h).1 hbackslash
  next h =>
    obtain ⟨rfl, rfl⟩ := List.cons.inj h
    cases stringUnits cs <;> simp [hprintable, hbackslash]

theorem stringUnits_short {letter : Char} {unit : Nat}
    (hshort : shortEscape? letter = some unit) :
    stringUnits ('\\' :: letter :: cs) =
      (stringUnits cs).map fun r => (unit :: r.1, r.2) := by
  have hhex : letter ≠ 'u' := by
    rintro rfl
    cases hshort
  rw [stringUnits.eq_def]
  split
  next h => cases h
  next h => cases h
  next h => exact absurd (List.cons.inj (List.cons.inj h).2).1 hhex
  next h =>
    obtain ⟨rfl, rfl⟩ := List.cons.inj (List.cons.inj h).2
    cases stringUnits cs <;> simp [hshort]
  next hother h =>
    obtain ⟨rfl, rfl⟩ := List.cons.inj h
    exact (hother letter cs rfl rfl).elim

theorem stringUnits_escapeChar (c : Char) :
    stringUnits (escapeChar c ++ cs) =
      (stringUnits cs).map fun r => (c.toNat :: r.1, r.2) := by
  unfold escapeChar
  split
  next => exact stringUnits_short rfl
  next => exact stringUnits_short rfl
  next => exact stringUnits_short rfl
  next => exact stringUnits_short rfl
  next => exact stringUnits_short rfl
  next => exact stringUnits_short rfl
  next => exact stringUnits_short rfl
  next hquote hbackslash _ _ _ _ _ =>
    split
    next hcontrol =>
      cases hunits : stringUnits cs <;>
        simp [stringUnits, hunits, hexUnit?_hexDigit hcontrol]
    next hprintable => exact stringUnits_cons hquote hbackslash hprintable

theorem stringUnits_flatMap_escapeChar (text : List Char) :
    stringUnits (text.flatMap escapeChar ++ '"' :: rest) = some (text.map Char.toNat, rest) := by
  induction text with
  | nil => rfl
  | cons c text ih =>
      rw [List.flatMap_cons, List.append_assoc, stringUnits_escapeChar, ih]
      rfl

theorem not_surrogate (c : Char) :
    (isLeadSurrogate c.toNat || isTrailSurrogate c.toNat) = false := by
  have hvalid : c.toNat < 0xd800 ∨ 0xdfff < c.toNat ∧ c.toNat < 0x110000 := c.valid
  simp only [isLeadSurrogate, isTrailSurrogate, Bool.or_eq_false_iff, Bool.and_eq_false_iff,
    decide_eq_false_iff_not]
  omega

theorem charsOfUnits_map_toNat (text : List Char) :
    charsOfUnits (text.map Char.toNat) = some text := by
  induction text with
  | nil => rfl
  | cons c text ih =>
      obtain ⟨hlead, htrail⟩ := Bool.or_eq_false_iff.1 (not_surrogate c)
      cases text with
      | nil => simp [charsOfUnits, hlead, htrail]
      | cons d text =>
          rw [List.map_cons] at ih
          simp [charsOfUnits, hlead, htrail, ih]

theorem readText_quoted (s : String) :
    readText (s.toList.flatMap escapeChar ++ '"' :: rest) = some (some s, rest) := by
  simp [readText, stringUnits_flatMap_escapeChar, charsOfUnits_map_toNat]

theorem toList_quote (s : String) :
    (quote s).toList = '"' :: (s.toList.flatMap escapeChar ++ ['"']) := by
  simp [quote]

/-- A number in front of the text would end there. -/
def EndsNumber (cs : List Char) : Prop :=
  ∀ c ∈ cs.head?, c.isDigit = false ∧ c ≠ '.' ∧ c ≠ 'e' ∧ c ≠ 'E'

theorem head?_toDigits_ne_zero {n : Nat} (h : 0 < n) : (Nat.toDigits 10 n).head? ≠ some '0' := by
  induction n using Nat.strong_induction_on with
  | _ n ih =>
    rw [Nat.toDigits_eq_if (by decide)]
    split
    next hsmall => interval_cases n <;> decide
    next hlarge =>
      rw [List.head?_append_of_ne_nil _ Nat.toDigits_ne_nil]
      exact ih (n / 10) (by omega) (by omega)

theorem toDigits_no_leading_zero (n : Nat) :
    ¬((Nat.toDigits 10 n).length ≠ 1 ∧ (Nat.toDigits 10 n).head? = some '0') := by
  rintro ⟨hlength, hzero⟩
  cases n with
  | zero => exact hlength rfl
  | succ n => exact head?_toDigits_ne_zero n.succ_pos hzero

theorem natOfDigits_toDigits (n : Nat) : natOfDigits (Nat.toDigits 10 n) = n := by
  have h := Nat.ofDigitChars_toDigits (b := 10) (n := n) (by decide) (by decide)
  simpa only [natOfDigits, Nat.ofDigitChars, Nat.mul_comm] using h

theorem readDigits_toDigits (n : Nat) (h : EndsNumber rest) :
    readDigits (Nat.toDigits 10 n ++ rest) = some (Nat.toDigits 10 n, rest) := by
  have hdigits : ∀ c ∈ Nat.toDigits 10 n, c.isDigit :=
    fun c hc => Nat.isDigit_of_mem_toDigits (by decide) (by decide) hc
  have hrest : rest.takeWhile Char.isDigit = [] ∧ rest.dropWhile Char.isDigit = rest := by
    cases rest with
    | nil => exact ⟨rfl, rfl⟩
    | cons c rest => simp [(h c rfl).1]
  have hne : Nat.toDigits 10 n ≠ [] := Nat.toDigits_ne_nil
  rw [readDigits, List.takeWhile_append_of_pos hdigits, List.dropWhile_append_of_pos hdigits,
    hrest.1, hrest.2, List.append_nil]
  cases hcases : Nat.toDigits 10 n with
  | nil => exact absurd hcases hne
  | cons c digits => rfl

theorem readDecimals_of_endsNumber (h : EndsNumber rest) :
    readDecimals rest = some (none, rest) := by
  cases rest with
  | nil => rfl
  | cons c rest =>
      have hpoint := (h c rfl).2.1
      simp [readDecimals, hpoint]

theorem readExponent_of_endsNumber (h : EndsNumber rest) :
    readExponent rest = some (none, rest) := by
  cases rest with
  | nil => rfl
  | cons c rest =>
      obtain ⟨-, -, hlower, hupper⟩ := h c rfl
      simp [readExponent, hlower, hupper]

theorem readNumeral_toDigits (n : Nat) (h : EndsNumber rest) :
    readNumeral (Nat.toDigits 10 n ++ rest) = some (.ofNat n, rest) := by
  have hunsigned : readUnsigned false (Nat.toDigits 10 n ++ rest) = some (.ofNat n, rest) := by
    simp only [readUnsigned, readDigits_toDigits n h, readDecimals_of_endsNumber h,
      readExponent_of_endsNumber h, toDigits_no_leading_zero n, Option.bind_eq_bind,
      Option.bind_some, if_false, Option.getD_none, List.append_nil, natOfDigits_toDigits,
      Option.map_none]
    rfl
  cases hcases : Nat.toDigits 10 n with
  | nil => exact absurd hcases Nat.toDigits_ne_nil
  | cons c digits =>
      have hdigit : c.isDigit :=
        Nat.isDigit_of_mem_toDigits (by decide) (by decide) (hcases ▸ List.mem_cons_self)
      rw [hcases] at hunsigned
      rw [List.cons_append, readNumeral.eq_def]
      split
      next h =>
        obtain ⟨rfl, -⟩ := List.cons.inj h
        cases hdigit
      next => exact hunsigned

theorem toList_writeNumber_ofNat (n : Nat) :
    (writeNumber (.ofNat n)).toList = Nat.toDigits 10 n := by
  have hpadding : 1 - (Nat.toDigits 10 n).length = 0 := by
    have := Nat.length_toDigits_pos (b := 10) (n := n)
    omega
  simp [writeNumber, Numeral.ofNat, Numeral.wholeDigits, Numeral.digitList, hpadding]

end LuaTypes.Json
