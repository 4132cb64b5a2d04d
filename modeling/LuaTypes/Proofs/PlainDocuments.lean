import LuaTypes.Index.Document
import LuaTypes.Proofs.JsonText

/-!
The documents that records are written as: no text in them is spoiled, no key occurs that is not a
string, and their numbers are small. Such a document is read back from its compact text, and it is
sound as soon as it nests no deeper than there is room.
-/

namespace LuaTypes

mutual

/-- How deep arrays and objects nest in a document. -/
def Json.nesting : Json → Nat
  | .array items => Json.nestingOfItems items + 1
  | .object entries => Json.nestingOfEntries entries + 1
  | _ => 0
termination_by structural j => j

def Json.nestingOfItems : List Json → Nat
  | [] => 0
  | j :: js => max j.nesting (Json.nestingOfItems js)
termination_by structural js => js

def Json.nestingOfEntries : List (Option String × Json) → Nat
  | [] => 0
  | (_, j) :: entries => max j.nesting (Json.nestingOfEntries entries)
termination_by structural es => es

end

namespace Json

variable {items : List Json} {entries : List (Option String × Json)}
  {fields : List (String × Json)} {room fuel : Nat} {rest : List Char}

/-- Built from strings and 32-bit words by arrays and records. -/
inductive Plain : Json → Prop
  | null : Plain .null
  | bool (value : Bool) : Plain (.bool value)
  | string (s : String) : Plain (.string s)
  | nat {n : Nat} (small : n < Text.word32Limit) : Plain (.nat n)
  | array {items : List Json} (parts : ∀ j ∈ items, Plain j) : Plain (.array items)
  | record {fields : List (String × Json)} (parts : ∀ f ∈ fields, Plain f.2) :
      Plain (.record fields)

theorem nestingOfItems_le : nestingOfItems items ≤ room ↔ ∀ j ∈ items, j.nesting ≤ room := by
  induction items with
  | nil => simp [nestingOfItems]
  | cons j items ih => simp [nestingOfItems, ih]

theorem nestingOfEntries_le :
    nestingOfEntries (fields.map fun f => (some f.1, f.2)) ≤ room ↔
      ∀ f ∈ fields, f.2.nesting ≤ room := by
  induction fields with
  | nil => simp [nestingOfEntries]
  | cons f fields ih => simp [nestingOfEntries, ih]

theorem nesting_array_le : (array items).nesting ≤ room ↔
    ∃ inner, room = inner + 1 ∧ ∀ j ∈ items, j.nesting ≤ inner := by
  rw [nesting]
  constructor
  · intro h
    exact ⟨room - 1, by omega, nestingOfItems_le.1 (by omega)⟩
  · rintro ⟨inner, rfl, hitems⟩
    exact Nat.succ_le_succ (nestingOfItems_le.2 hitems)

theorem nesting_record_le : (record fields).nesting ≤ room ↔
    ∃ inner, room = inner + 1 ∧ ∀ f ∈ fields, f.2.nesting ≤ inner := by
  rw [record, nesting]
  constructor
  · intro h
    exact ⟨room - 1, by omega, nestingOfEntries_le.1 (by omega)⟩
  · rintro ⟨inner, rfl, hfields⟩
    exact Nat.succ_le_succ (nestingOfEntries_le.2 hfields)

theorem nesting_le_of_mem_array {j : Json} (h : (array items).nesting ≤ room) (hj : j ∈ items) :
    j.nesting ≤ room := by
  obtain ⟨inner, rfl, hitems⟩ := nesting_array_le.1 h
  exact (hitems j hj).trans (Nat.le_succ inner)

theorem nesting_le_of_mem_record {f : String × Json} (h : (record fields).nesting ≤ room)
    (hf : f ∈ fields) : f.2.nesting ≤ room := by
  obtain ⟨inner, rfl, hfields⟩ := nesting_record_le.1 h
  exact (hfields f hf).trans (Nat.le_succ inner)

theorem nesting_record_le_of_cons {f : String × Json}
    (h : (record (f :: fields)).nesting ≤ room) : (record fields).nesting ≤ room := by
  obtain ⟨inner, rfl, hfields⟩ := nesting_record_le.1 h
  exact nesting_record_le.2 ⟨inner, rfl, List.forall_mem_of_forall_mem_cons hfields⟩

theorem areSound_iff : areSound room items ↔ ∀ j ∈ items, j.isSound room := by
  induction items with
  | nil => simp [areSound]
  | cons j items ih => simp [areSound, ih]

theorem areSoundEntries_iff :
    areSoundEntries room (fields.map fun f => (some f.1, f.2)) ↔
      ∀ f ∈ fields, f.2.isSound room := by
  induction fields with
  | nil => simp [areSoundEntries]
  | cons f fields ih => simp [areSoundEntries, ih]

theorem Plain.isSound {j : Json} (h : j.Plain) (hroom : j.nesting ≤ room) : j.isSound room := by
  induction h generalizing room with
  | null | bool | string => rfl
  | nat small =>
      have hfits := Numeral.overflows_ofNat (small.trans (by decide : _ < Text.word64Limit))
      simp [Json.nat, Json.isSound, hfits]
  | array _ ih =>
      obtain ⟨inner, rfl, hitems⟩ := nesting_array_le.1 hroom
      exact areSound_iff.2 fun j hj => ih j hj (hitems j hj)
  | record _ ih =>
      obtain ⟨inner, rfl, hfields⟩ := nesting_record_le.1 hroom
      exact areSoundEntries_iff.2 fun f hf => ih f hf (hfields f hf)

/-- The value is read off the front of its text. The fuel may be twice as large as the text is
long, since an item takes one step to reach it and one to read it. -/
def ReadBack (j : Json) : Prop :=
  ∀ ⦃fuel : Nat⦄ ⦃rest : List Char⦄, 2 * j.compact.toList.length ≤ fuel → EndsNumber rest →
    readValue fuel (j.compact.toList ++ rest) = some (j, rest)

/-- The items or entries of a text, with commas between them. -/
def joined (texts : List String) : List Char :=
  (",".intercalate texts).toList

theorem joined_singleton (s : String) : joined [s] = s.toList := by
  simp [joined]

theorem joined_cons_cons (s t : String) (texts : List String) :
    joined (s :: t :: texts) = s.toList ++ ',' :: joined (t :: texts) := by
  simp [joined]

theorem endsNumber_cons {c : Char} (h : c = ',' ∨ c = ']' ∨ c = '}') :
    EndsNumber (c :: rest) := by
  rintro d ⟨⟩
  rcases h with rfl | rfl | rfl <;> decide

theorem skipBlanks_cons {c : Char} (h : isBlank c = false) :
    skipBlanks (c :: rest) = c :: rest := by
  simp [skipBlanks, h]

theorem Plain.exists_compact_eq_cons {j : Json} (h : j.Plain) :
    ∃ c cs, j.compact.toList = c :: cs ∧ isBlank c = false ∧ c ≠ ']' := by
  cases h with
  | null => exact ⟨'n', _, rfl, rfl, by decide⟩
  | bool value =>
      cases value with
      | false => exact ⟨'f', _, rfl, rfl, by decide⟩
      | true => exact ⟨'t', _, rfl, rfl, by decide⟩
  | string s => exact ⟨'"', _, toList_quote s, rfl, by decide⟩
  | @nat n small =>
      cases hdigits : Nat.toDigits 10 n with
      | nil => exact absurd hdigits Nat.toDigits_ne_nil
      | cons c digits =>
          have hdigit : c.isDigit :=
            Nat.isDigit_of_mem_toDigits (by decide) (by decide) (hdigits ▸ List.mem_cons_self)
          refine ⟨c, digits, (toList_writeNumber_ofNat n).trans hdigits, ?_, ?_⟩
          · simp only [isBlank, Bool.or_eq_false_iff, decide_eq_false_iff_not]
            refine ⟨⟨⟨?_, ?_⟩, ?_⟩, ?_⟩ <;> rintro rfl <;> cases hdigit
          · rintro rfl
            cases hdigit
  | array parts => exact ⟨'[', _, by simp [compact]; rfl, rfl, by decide⟩
  | record parts => exact ⟨'\x7b', _, by simp [Json.record, compact]; rfl, rfl, by decide⟩

theorem readItems_last {j : Json} (hj : ReadBack j) (hfuel : 2 * j.compact.toList.length ≤ fuel) :
    readItems (fuel + 1) (j.compact.toList ++ ']' :: rest) = some ([j], rest) := by
  rw [readItems, hj hfuel (endsNumber_cons (by decide))]
  rfl

theorem readItems_more {j : Json} (hj : ReadBack j) (hfuel : 2 * j.compact.toList.length ≤ fuel) :
    readItems (fuel + 1) (j.compact.toList ++ ',' :: rest) =
      (readItems fuel rest).map fun r => (j :: r.1, r.2) := by
  rw [readItems, hj hfuel (endsNumber_cons (by decide))]
  cases h : readItems fuel rest <;> simp [skipBlanks_cons, isBlank, h]

theorem readItems_joined (hne : items ≠ []) (hitems : ∀ j ∈ items, ReadBack j)
    (hfuel : 2 * (joined (compactItems items)).length + 1 ≤ fuel) :
    readItems fuel (joined (compactItems items) ++ ']' :: rest) = some (items, rest) := by
  induction items generalizing fuel with
  | nil => exact absurd rfl hne
  | cons j items ih =>
      obtain ⟨fuel, rfl⟩ := Nat.exists_eq_succ_of_ne_zero (by omega : fuel ≠ 0)
      have hj : ReadBack j := hitems j List.mem_cons_self
      cases items with
      | nil =>
          simp only [compactItems, joined_singleton] at hfuel ⊢
          exact readItems_last hj (by omega)
      | cons k items =>
          have hmore : 2 * (joined (compactItems (k :: items))).length + 1 ≤ fuel →
              readItems fuel (joined (compactItems (k :: items)) ++ ']' :: rest) =
                some (k :: items, rest) :=
            ih (List.cons_ne_nil k items) (List.forall_mem_of_forall_mem_cons hitems)
          simp only [compactItems, joined_cons_cons, List.length_append, List.length_cons]
            at hfuel hmore ⊢
          rw [List.append_assoc, List.cons_append, readItems_more hj (by omega),
            hmore (by omega), Option.map_some]

theorem toList_entry (key : String) (j : Json) :
    (writeText (some key) ++ ":" ++ j.compact).toList =
      '"' :: (key.toList.flatMap escapeChar ++ '"' :: ':' :: j.compact.toList) := by
  simp [writeText, toList_quote]

theorem readEntries_last {key : String} {j : Json} (hj : ReadBack j)
    (hfuel : 2 * j.compact.toList.length ≤ fuel) :
    readEntries (fuel + 1) ((writeText (some key) ++ ":" ++ j.compact).toList ++ '}' :: rest) =
      some ([(some key, j)], rest) := by
  have hend : EndsNumber ('}' :: rest) := endsNumber_cons (.inr (.inr rfl))
  have hvalue := hj hfuel hend
  rw [toList_entry, List.cons_append, readEntries, skipBlanks_cons rfl]
  simp [skipBlanks_cons, isBlank, readText_quoted, hvalue]

theorem readEntries_more {key : String} {j : Json} (hj : ReadBack j)
    (hfuel : 2 * j.compact.toList.length ≤ fuel) :
    readEntries (fuel + 1) ((writeText (some key) ++ ":" ++ j.compact).toList ++ ',' :: rest) =
      (readEntries fuel rest).map fun r => ((some key, j) :: r.1, r.2) := by
  have hend : EndsNumber (',' :: rest) := endsNumber_cons (.inl rfl)
  have hvalue := hj hfuel hend
  rw [toList_entry, List.cons_append, readEntries, skipBlanks_cons rfl]
  cases h : readEntries fuel rest <;>
    simp [skipBlanks_cons, isBlank, readText_quoted, hvalue, h]

theorem readEntries_joined (hne : entries ≠ [])
    (hentries : ∀ e ∈ entries, e.1.isSome ∧ ReadBack e.2)
    (hfuel : 2 * (joined (compactEntries entries)).length + 1 ≤ fuel) :
    readEntries fuel (joined (compactEntries entries) ++ '}' :: rest) = some (entries, rest) := by
  induction entries generalizing fuel with
  | nil => exact absurd rfl hne
  | cons e entries ih =>
      obtain ⟨fuel, rfl⟩ := Nat.exists_eq_succ_of_ne_zero (by omega : fuel ≠ 0)
      obtain ⟨key, j⟩ := e
      obtain ⟨hkey, hj⟩ : key.isSome ∧ ReadBack j := hentries _ List.mem_cons_self
      obtain ⟨key, rfl⟩ := Option.isSome_iff_exists.1 hkey
      have hlength := congrArg List.length (toList_entry key j)
      simp only [List.length_append, List.length_cons] at hlength
      cases entries with
      | nil =>
          simp only [compactEntries, joined_singleton] at hfuel ⊢
          exact readEntries_last hj (by omega)
      | cons e entries =>
          have hmore : 2 * (joined (compactEntries (e :: entries))).length + 1 ≤ fuel →
              readEntries fuel (joined (compactEntries (e :: entries)) ++ '}' :: rest) =
                some (e :: entries, rest) :=
            ih (List.cons_ne_nil e entries) (List.forall_mem_of_forall_mem_cons hentries)
          simp only [compactEntries, joined_cons_cons, List.length_append, List.length_cons]
            at hfuel hmore ⊢
          rw [List.append_assoc, List.cons_append, readEntries_more hj (by omega),
            hmore (by omega), Option.map_some]

theorem isBlank_of_isDigit {c : Char} (h : c.isDigit) : isBlank c = false := by
  simp only [isBlank, Bool.or_eq_false_iff, decide_eq_false_iff_not]
  refine ⟨⟨⟨?_, ?_⟩, ?_⟩, ?_⟩ <;> rintro rfl <;> cases h

theorem readValue_number {c : Char} {digits : List Char} (hdigit : c.isDigit) :
    readValue (fuel + 1) (c :: digits) =
      (readNumeral (c :: digits)).map fun r => (Json.number r.1, r.2) := by
  have hother {d : Char} {rest : List Char} (hd : d.isDigit = false) :
      c :: digits ≠ d :: rest := by
    intro h
    obtain ⟨rfl, -⟩ := List.cons.inj h
    rw [hd] at hdigit
    cases hdigit
  rw [readValue, skipBlanks_cons (isBlank_of_isDigit hdigit)]
  split
  next h => exact absurd h (hother rfl)
  next h => exact absurd h (hother rfl)
  next h => exact absurd h (hother rfl)
  next h => exact absurd h (hother rfl)
  next h => exact absurd h (hother rfl)
  next h => exact absurd h (hother rfl)
  next => rfl

theorem readBack_nat (n : Nat) : ReadBack (nat n) := by
  intro fuel rest hfuel hrest
  have htext : (nat n).compact.toList = Nat.toDigits 10 n := toList_writeNumber_ofNat n
  have hnumeral := readNumeral_toDigits n hrest
  rw [htext] at hfuel ⊢
  cases hdigits : Nat.toDigits 10 n with
  | nil => exact absurd hdigits Nat.toDigits_ne_nil
  | cons c digits =>
      have hdigit : c.isDigit :=
        Nat.isDigit_of_mem_toDigits (by decide) (by decide) (hdigits ▸ List.mem_cons_self)
      rw [hdigits] at hfuel hnumeral
      rw [List.length_cons] at hfuel
      obtain ⟨fuel, rfl⟩ := Nat.exists_eq_succ_of_ne_zero (by omega : fuel ≠ 0)
      rw [List.cons_append, readValue_number hdigit, ← List.cons_append, hnumeral]
      rfl

theorem readBack_string (s : String) : ReadBack (string s) := by
  intro fuel rest hfuel hrest
  have htext : (string s).compact.toList = '"' :: (s.toList.flatMap escapeChar ++ ['"']) :=
    toList_quote s
  rw [htext, List.length_cons] at hfuel
  obtain ⟨fuel, rfl⟩ := Nat.exists_eq_succ_of_ne_zero (by omega : fuel ≠ 0)
  rw [htext, List.cons_append, readValue, skipBlanks_cons rfl]
  simp only [List.append_assoc, List.singleton_append, readText_quoted, Option.map_some]
  rfl

theorem readValue_items {c : Char} (hblank : isBlank c = false) (hbracket : c ≠ ']') :
    readValue (fuel + 1) ('[' :: c :: rest) =
      (readItems fuel (c :: rest)).map fun r => (Json.array r.1, r.2) := by
  rw [readValue, skipBlanks_cons rfl]
  simp only [skipBlanks_cons hblank]
  split
  next h => exact absurd (List.cons.inj h).1 hbracket
  next => rfl

theorem Plain.exists_joined_eq_cons {j : Json} (h : j.Plain) (items : List Json) :
    ∃ c cs, joined (compactItems (j :: items)) = c :: cs ∧ isBlank c = false ∧ c ≠ ']' := by
  obtain ⟨c, cs, htext, hblank, hbracket⟩ := h.exists_compact_eq_cons
  cases items with
  | nil => exact ⟨c, cs, by simp [compactItems, joined_singleton, htext], hblank, hbracket⟩
  | cons k items =>
      refine ⟨c, cs ++ ',' :: joined (compactItems (k :: items)), ?_, hblank, hbracket⟩
      rw [compactItems, compactItems, joined_cons_cons, htext, List.cons_append]

theorem readBack_array (hplain : ∀ j ∈ items, j.Plain) (hitems : ∀ j ∈ items, ReadBack j) :
    ReadBack (array items) := by
  intro fuel rest hfuel hrest
  have htext : (array items).compact.toList = '[' :: (joined (compactItems items) ++ [']']) := by
    simp [compact, joined]
  simp only [htext, List.length_cons, List.length_append] at hfuel
  obtain ⟨fuel, rfl⟩ := Nat.exists_eq_succ_of_ne_zero (by omega : fuel ≠ 0)
  rw [htext, List.cons_append, List.append_assoc, List.singleton_append]
  cases items with
  | nil => rfl
  | cons j items =>
      obtain ⟨c, cs, hjoined, hblank, hbracket⟩ :=
        (hplain j List.mem_cons_self).exists_joined_eq_cons items
      have hread : readItems fuel (joined (compactItems (j :: items)) ++ ']' :: rest) =
          some (j :: items, rest) :=
        readItems_joined (List.cons_ne_nil j items) hitems (by omega)
      rw [hjoined, List.cons_append] at hread ⊢
      rw [readValue_items hblank hbracket, hread, Option.map_some]

theorem exists_joined_entries_eq_cons (key : String) (j : Json)
    (entries : List (Option String × Json)) :
    ∃ cs, joined (compactEntries ((some key, j) :: entries)) = '"' :: cs := by
  cases entries with
  | nil => exact ⟨_, by rw [compactEntries, compactEntries, joined_singleton, toList_entry]⟩
  | cons e entries =>
      exact ⟨_, by rw [compactEntries, compactEntries, joined_cons_cons, toList_entry,
        List.cons_append]⟩

theorem readBack_object (hentries : ∀ e ∈ entries, e.1.isSome ∧ ReadBack e.2) :
    ReadBack (object entries) := by
  intro fuel rest hfuel hrest
  have htext : (object entries).compact.toList =
      '{' :: (joined (compactEntries entries) ++ ['}']) := by
    simp [compact, joined]
  simp only [htext, List.length_cons, List.length_append] at hfuel
  obtain ⟨fuel, rfl⟩ := Nat.exists_eq_succ_of_ne_zero (by omega : fuel ≠ 0)
  rw [htext, List.cons_append, List.append_assoc, List.singleton_append]
  cases entries with
  | nil => rfl
  | cons e entries =>
      obtain ⟨key, j⟩ := e
      obtain ⟨hkey, -⟩ : key.isSome ∧ ReadBack j := hentries _ List.mem_cons_self
      obtain ⟨key, rfl⟩ := Option.isSome_iff_exists.1 hkey
      obtain ⟨cs, hjoined⟩ := exists_joined_entries_eq_cons key j entries
      have hread : readEntries fuel
          (joined (compactEntries ((some key, j) :: entries)) ++ '}' :: rest) =
            some ((some key, j) :: entries, rest) :=
        readEntries_joined (List.cons_ne_nil _ _) hentries (by omega)
      rw [hjoined, List.cons_append] at hread ⊢
      rw [readValue, skipBlanks_cons rfl]
      simp only [skipBlanks_cons (rfl : isBlank '"' = false)]
      exact congrArg (Option.map _) hread

theorem Plain.readBack {j : Json} (h : j.Plain) : ReadBack j := by
  induction h with
  | null =>
      rintro (_ | fuel) rest hfuel -
      · simp [compact] at hfuel
      · rfl
  | bool value =>
      rintro (_ | fuel) rest hfuel -
      · cases value <;> simp [compact, writeBool] at hfuel
      · cases value <;> rfl
  | string s => exact readBack_string s
  | nat => exact readBack_nat _
  | array parts ih => exact readBack_array parts ih
  | @record fields _ ih =>
      have hentries : ∀ e ∈ fields.map fun f => (some f.1, f.2), e.1.isSome ∧ ReadBack e.2 :=
        List.forall_mem_map.2 fun f hf => ⟨rfl, ih f hf⟩
      exact readBack_object hentries

/-- Reading undoes writing. -/
theorem Plain.parse_compact {j : Json} (h : j.Plain) : parse j.compact = some j := by
  have hend : EndsNumber [] := by
    rintro c ⟨⟩
  have hread : readValue (2 * j.compact.toList.length + 2) (j.compact.toList ++ []) =
      some (j, []) :=
    h.readBack (by omega) hend
  rw [List.append_nil] at hread
  rw [parse, hread]
  rfl

end Json

end LuaTypes
