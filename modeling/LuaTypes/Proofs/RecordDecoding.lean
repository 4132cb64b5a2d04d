import LuaTypes.Proofs.PlainDocuments
import Mathlib.Data.List.Nodup

namespace LuaTypes

namespace Json

/-- What a list is written as where an empty one is left out. -/
def unlessEmpty (f : α → Json) (values : List α) : Option Json :=
  if values.isEmpty then none else some (.array (values.map f))

/-- What a flag is written as where one that is not set is left out. -/
def ifTrue (b : Bool) : Option Json :=
  if b then some (.bool true) else none

theorem string_ne_null (s : String) : string s ≠ .null :=
  nofun

theorem nat_ne_null (n : Nat) : nat n ≠ .null :=
  nofun

theorem record_ne_null {entries : List (String × Json)} : record entries ≠ .null :=
  nofun

end Json

namespace Decoder

variable {α : Type} {d : Decoder α} {j : Json} {a : α} {values : List α} {f : α → Json}
  {room : Nat} {entries : List (String × Json)} {names : List String}

/-- The value is read from the document wherever there is room for its nesting. -/
def Reads (d : Decoder α) (j : Json) (a : α) : Prop :=
  ∀ room : Nat, j.nesting ≤ room → d room j = some a

/-- The value is read from a field, which may be left out. -/
def ReadsField (read : Nat → Option Json → Option α) (field : Option Json) (a : α) : Prop :=
  ∀ room : Nat, (∀ j ∈ field, j.nesting ≤ room) → read room field = some a

theorem reads_string (s : String) : Reads string (.string s) s := by
  intro _ _
  rfl

theorem reads_bool (b : Bool) : Reads bool (.bool b) b := by
  intro _ _
  rfl

theorem reads_word32 {n : Nat} (h : n < Text.word32Limit) : Reads word32 (.nat n) n := by
  intro _ _
  simp [word32, natBelow, Json.nat, Numeral.ofNat, Numeral.toNat?, h]

theorem mapM_map_eq_some {β : Type} {write : α → β} {read : β → Option α}
    (h : ∀ a ∈ values, read (write a) = some a) : (values.map write).mapM read = some values := by
  induction values with
  | nil => rfl
  | cons a values ih =>
      obtain ⟨ha, hvalues⟩ := List.forall_mem_cons.1 h
      rw [List.map_cons, List.mapM_cons, ha, ih hvalues]
      rfl

theorem reads_list (h : ∀ a ∈ values, Reads d (f a) a) :
    Reads d.list (.array (values.map f)) values := by
  intro room hroom
  obtain ⟨inner, rfl, hitems⟩ := Json.nesting_array_le.1 hroom
  exact mapM_map_eq_some fun a ha => h a ha inner (hitems _ (List.mem_map_of_mem ha))

theorem reads_orNull {v : Option α} (h : ∀ a ∈ v, Reads d (f a) a ∧ f a ≠ .null) :
    Reads d.orNull (Json.optional f v) v := by
  intro room hroom
  cases v with
  | none => rfl
  | some a =>
      obtain ⟨hread, hne⟩ := h a rfl
      rw [Json.optional] at hroom ⊢
      rw [orNull, hread room hroom, Option.map_some]
      exact hne

theorem readsField_withDefault (default : α) (h : Reads d j a) :
    ReadsField (withDefault d default) (some j) a := by
  intro room hroom
  exact h room (hroom j rfl)

theorem readsField_required (h : Reads d j a) : ReadsField (required d) (some j) a := by
  intro room hroom
  exact h room (hroom j rfl)

theorem readsField_optional {v : Option α} (h : ∀ a ∈ v, Reads d (f a) a ∧ f a ≠ .null) :
    ReadsField (Decoder.optional d) (v.map f) v := by
  cases v with
  | none =>
      intro _ _
      rfl
  | some a => exact readsField_withDefault none (reads_orNull h)

theorem readsField_optionalString (v : Option String) :
    ReadsField (Decoder.optional string) (v.map Json.string) v :=
  readsField_optional fun s _ => ⟨reads_string s, Json.string_ne_null s⟩

theorem readsField_listOrEmpty (h : ∀ a ∈ values, Reads d (f a) a) :
    ReadsField (listOrEmpty d) (some (.array (values.map f))) values :=
  readsField_withDefault [] (reads_list h)

theorem readsField_unlessEmpty (h : ∀ a ∈ values, Reads d (f a) a) :
    ReadsField (listOrEmpty d) (Json.unlessEmpty f values) values := by
  cases values with
  | nil =>
      intro _ _
      rfl
  | cons a values => exact readsField_listOrEmpty h

theorem readsField_strings (values : List String) :
    ReadsField (listOrEmpty string) (Json.unlessEmpty Json.string values) values :=
  readsField_unlessEmpty fun s _ => reads_string s

theorem readsField_flag (b : Bool) : ReadsField flag (some (.bool b)) b :=
  readsField_withDefault false (reads_bool b)

theorem readsField_ifTrue (b : Bool) : ReadsField flag (Json.ifTrue b) b := by
  cases b with
  | false =>
      intro _ _
      rfl
  | true => exact readsField_flag true

theorem stringKeys_map : stringKeys (entries.map fun e => (some e.1, e.2)) = some entries := by
  apply mapM_map_eq_some
  intro _ _
  rfl

theorem length_filter_le_one (h : (entries.map Prod.fst).Nodup) (name : String) :
    (entries.filter (·.1 = name)).length ≤ 1 := by
  have hcount := List.nodup_iff_count_le_one.1 h name
  rw [List.count, List.countP_map, List.countP_eq_length_filter] at hcount
  exact hcount

theorem fields_record (h : (entries.map Prod.fst).Nodup) :
    fields names (.record entries) = some (names.map fun name => entries.lookup name) := by
  have hnames : names.all fun name => (entries.filter (·.1 = name)).length ≤ 1 :=
    List.all_eq_true.2 fun name _ => decide_eq_true (length_filter_le_one h name)
  rw [Json.record, fields, stringKeys_map, Option.bind_eq_bind, Option.bind_some, if_pos hnames]

/-- A record is read from its fields as they are found by their names. -/
theorem reads_record {read : Nat → List (Option Json) → Option α} (found : List (Option Json))
    (hkeys : (entries.map Prod.fst).Sublist names) (hnames : names.Nodup)
    (hfound : (names.map fun name => entries.lookup name) = found)
    (h : ∀ room, (∀ field ∈ found, ∀ j ∈ field, j.nesting ≤ room) → read room found = some a) :
    Reads (Decoder.record names read) (.record entries) a := by
  intro room hroom
  obtain ⟨inner, rfl, hfields⟩ := Json.nesting_record_le.1 hroom
  rw [Decoder.record, fields_record (hnames.sublist hkeys), Option.bind_some, hfound]
  apply h
  rw [← hfound, List.forall_mem_map]
  intro name _ j hj
  obtain ⟨before, after, rfl, -⟩ := List.lookup_eq_some_iff.1 hj
  exact hfields (name, j) (List.mem_append_right before List.mem_cons_self)

theorem reads_record_single {β : Type} {name : String} {read : Nat → Option Json → Option β}
    {b : β} {build : β → α} (h : ReadsField read (some j) b) :
    Reads (Decoder.record [name] fun
      | room, [field] => return build (← read room field)
      | _, _ => none) (.record [(name, j)]) (build b) := by
  refine reads_record [some j] (List.Sublist.refl _) (List.nodup_singleton name) (by simp) ?_
  intro room hroom
  simp [h room (List.forall_mem_singleton.1 hroom)]

theorem tagged_record {key word : String} {nested : Bool} {words : List String}
    (hword : word ∈ words) (hkeys : (entries.map Prod.fst).Sublist names) (hkey : key ∉ names) :
    tagged key nested words (.record ((key, .string word) :: entries)) =
      some (word, .record entries) := by
  have hother : ∀ e ∈ entries, e.1 ≠ key := by
    intro e he heq
    exact hkey (heq ▸ hkeys.subset (List.mem_map_of_mem he))
  have htagged : (entries.map fun e => (some e.1, e.2)).filter (·.1 = some key) = [] := by
    rw [List.filter_map, List.filter_eq_nil_iff.2, List.map_nil]
    exact fun e he => by simpa using hother e he
  have hrest : (entries.map fun e => (some e.1, e.2)).filter (·.1 ≠ some key) =
      entries.map fun e => (some e.1, e.2) := by
    refine List.filter_eq_self.2 (List.forall_mem_map.2 ?_)
    exact fun e he => by simpa using hother e he
  rw [Json.record, List.map_cons, tagged, List.filter_cons, if_pos (decide_eq_true rfl), htagged]
  simp only [List.filter_cons, hrest]
  simp [tagWord, Json.string, Json.record, hword]

end Decoder

namespace Json

variable {α : Type} {entries : List (String × Json)} {name : String}

@[simp]
theorem lookup_entries_cons (key : String) (j : Json) (entries : List (String × Json)) :
    List.lookup key ((name, j) :: entries) = if key = name then some j else entries.lookup key := by
  by_cases h : key = name
  · rw [h, List.lookup_cons_self, if_pos rfl]
  · rw [List.lookup_cons, beq_eq_false_iff_ne.2 h, if_neg h]

@[simp]
theorem lookup_fieldIfSome (key : String) (f : α → Json) (v : Option α) :
    (fieldIfSome name f v).lookup key = if key = name then v.map f else none := by
  cases v <;> simp [fieldIfSome]

@[simp]
theorem lookup_fieldUnlessEmpty (key : String) (f : α → Json) (values : List α) :
    (fieldUnlessEmpty name f values).lookup key =
      if key = name then unlessEmpty f values else none := by
  cases values <;> simp [fieldUnlessEmpty, unlessEmpty]

@[simp]
theorem lookup_fieldIfTrue (key : String) (b : Bool) :
    (fieldIfTrue name b).lookup key = if key = name then ifTrue b else none := by
  cases b <;> simp [fieldIfTrue, ifTrue]

theorem keys_fieldIfSome (f : α → Json) (v : Option α) :
    ((fieldIfSome name f v).map Prod.fst).Sublist [name] := by
  cases v <;> simp [fieldIfSome]

theorem keys_fieldUnlessEmpty (f : α → Json) (values : List α) :
    ((fieldUnlessEmpty name f values).map Prod.fst).Sublist [name] := by
  cases values <;> simp [fieldUnlessEmpty]

theorem keys_fieldIfTrue (b : Bool) : ((fieldIfTrue name b).map Prod.fst).Sublist [name] := by
  cases b <;> simp [fieldIfTrue]

theorem plain_strings (texts : List String) : (array (texts.map string)).Plain :=
  .array (List.forall_mem_map.2 fun s _ => .string s)

theorem plain_fieldIfSome {f : α → Json} {v : Option α} (h : ∀ a ∈ v, (f a).Plain) :
    ∀ e ∈ fieldIfSome name f v, e.2.Plain := by
  cases v with
  | none => exact List.forall_mem_nil _
  | some a => exact List.forall_mem_singleton.2 (h a rfl)

theorem plain_fieldUnlessEmpty {f : α → Json} {values : List α}
    (h : ∀ a ∈ values, (f a).Plain) : ∀ e ∈ fieldUnlessEmpty name f values, e.2.Plain := by
  cases values with
  | nil => exact List.forall_mem_nil _
  | cons a values => exact List.forall_mem_singleton.2 (.array (List.forall_mem_map.2 h))

theorem plain_fieldIfTrue (b : Bool) : ∀ e ∈ fieldIfTrue name b, e.2.Plain := by
  cases b with
  | false => exact List.forall_mem_nil _
  | true => exact List.forall_mem_singleton.2 (.bool true)

end Json

end LuaTypes
