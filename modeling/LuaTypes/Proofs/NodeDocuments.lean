import LuaTypes.Proofs.RecordDecoding

namespace LuaTypes

open Decoder

namespace TypeNode

variable {fuel : Nat} {nested : Bool}

theorem toJsonList_eq_map (ns : List TypeNode) : toJsonList ns = ns.map toJson := by
  induction ns with
  | nil => rfl
  | cons n ns ih => rw [toJsonList, ih, List.map_cons]

/-- What a parameter of a function node is written as. -/
def paramToJson (p : String × TypeNode) : Json :=
  .record [("name", .string p.1), ("ty", p.2.toJson)]

theorem toJsonParams_eq_map (ps : List (String × TypeNode)) :
    toJsonParams ps = ps.map paramToJson := by
  induction ps with
  | nil => rfl
  | cons p ps ih => rw [toJsonParams, ih, List.map_cons, paramToJson]

theorem toJsonVarargs_eq (varargs : Option TypeNode) :
    toJsonVarargs varargs = Json.fieldIfSome "varargs" toJson varargs := by
  cases varargs <;> rfl

/-- The fields of a node without its tag. -/
def entries : TypeNode → List (String × Json)
  | .any => []
  | .nil => []
  | .void => []
  | .named name args isGlobal =>
      [("name", .string name)] ++ Json.fieldUnlessEmpty "args" toJson args ++
        Json.fieldIfTrue "global" isGlobal
  | .array element => [("element", element.toJson)]
  | .union members => [("members", .array (members.map toJson))]
  | .tuple elements => [("elements", .array (elements.map toJson))]
  | .function s =>
      [("params", .array (s.params.map paramToJson)), ("returns", s.returns.toJson)] ++
        Json.fieldIfSome "varargs" toJson s.varargs ++
        Json.fieldUnlessEmpty "generics" Json.string s.generics ++
        Json.fieldIfTrue "colon" s.colon
  | .param name => [("name", .string name)]

def kindWord : TypeNode → String
  | .any => "any"
  | .nil => "nil"
  | .void => "void"
  | .named .. => "named"
  | .array _ => "array"
  | .union _ => "union"
  | .tuple _ => "tuple"
  | .function _ => "function"
  | .param _ => "param"

theorem toJson_eq (n : TypeNode) :
    n.toJson = .record (("kind", .string n.kindWord) :: n.entries) := by
  cases n with
  | function s =>
      rw [toJson, toJsonParams_eq_map, toJsonVarargs_eq]
      simp [kindWord, entries]
  | named name args isGlobal =>
      simp [toJson, kindWord, entries, toJsonList_eq_map, Json.fieldUnlessEmpty]
  | union | tuple => rw [toJson, toJsonList_eq_map]; rfl
  | any | nil | void | array | param => rfl

theorem toJson_ne_null (n : TypeNode) : n.toJson ≠ .null := by
  rw [toJson_eq]
  exact Json.record_ne_null

theorem kindWord_mem_kinds (n : TypeNode) : n.kindWord ∈ kinds := by
  cases n <;> simp [kindWord, kinds]

/-- The fields that a node may have. -/
def fieldNames : TypeNode → List String
  | .any | .nil | .void => []
  | .named .. => ["name", "args", "global"]
  | .array _ => ["element"]
  | .union _ => ["members"]
  | .tuple _ => ["elements"]
  | .function _ => ["params", "returns", "varargs", "generics", "colon"]
  | .param _ => ["name"]

theorem keys_entries (n : TypeNode) : (n.entries.map Prod.fst).Sublist n.fieldNames := by
  cases n with
  | named =>
      simp only [entries, List.map_append]
      exact ((List.Sublist.refl ["name"]).append (Json.keys_fieldUnlessEmpty _ _)).append
        (Json.keys_fieldIfTrue _)
  | function =>
      simp only [entries, List.map_append]
      exact (((List.Sublist.refl ["params", "returns"]).append (Json.keys_fieldIfSome _ _)).append
        (Json.keys_fieldUnlessEmpty _ _)).append (Json.keys_fieldIfTrue _)
  | any | nil | void | array | union | tuple | param => exact List.Sublist.refl _

theorem kind_notMem_fieldNames (n : TypeNode) : "kind" ∉ n.fieldNames := by
  cases n <;> simp [fieldNames]

theorem tagged_toJson (n : TypeNode) :
    tagged "kind" nested kinds n.toJson = some (n.kindWord, .record n.entries) := by
  rw [toJson_eq]
  exact tagged_record n.kindWord_mem_kinds n.keys_entries n.kind_notMem_fieldNames

theorem plain_paramToJson {p : String × TypeNode} (h : p.2.toJson.Plain) :
    (paramToJson p).Plain :=
  .record (List.forall_mem_cons.2 ⟨.string p.1, List.forall_mem_singleton.2 h⟩)

theorem plain_toJson_of_entries {n : TypeNode} (h : ∀ f ∈ n.entries, f.2.Plain) :
    n.toJson.Plain := by
  rw [toJson_eq]
  exact .record (List.forall_mem_cons.2 ⟨.string n.kindWord, h⟩)

theorem plain_toJson (n : TypeNode) : n.toJson.Plain := by
  induction n with
  | any | nil | void =>
      apply plain_toJson_of_entries
      exact List.forall_mem_nil _
  | param name => exact plain_toJson_of_entries (List.forall_mem_singleton.2 (.string name))
  | named name args isGlobal ih =>
      apply plain_toJson_of_entries
      simp only [entries, List.forall_mem_append, List.forall_mem_singleton]
      exact ⟨⟨.string name, Json.plain_fieldUnlessEmpty ih⟩, Json.plain_fieldIfTrue isGlobal⟩
  | array element ih => exact plain_toJson_of_entries (List.forall_mem_singleton.2 ih)
  | union members ih | tuple elements ih =>
      apply plain_toJson_of_entries
      exact List.forall_mem_singleton.2 (.array (List.forall_mem_map.2 ih))
  | function s hparams hreturns hvarargs =>
      apply plain_toJson_of_entries
      simp only [entries, List.forall_mem_append, List.forall_mem_cons]
      have hparams : (Json.array (s.params.map paramToJson)).Plain :=
        .array (List.forall_mem_map.2 fun p hp => plain_paramToJson (hparams p hp))
      exact ⟨⟨⟨⟨hparams, hreturns, List.forall_mem_nil _⟩,
        Json.plain_fieldIfSome hvarargs⟩,
        Json.plain_fieldUnlessEmpty fun g _ => .string g⟩, Json.plain_fieldIfTrue s.colon⟩

/-- The nodes right inside a node. -/
def children : TypeNode → List TypeNode
  | .named _ args _ => args
  | .array element => [element]
  | .union members => members
  | .tuple elements => elements
  | .function s => s.params.map Prod.snd ++ s.returns :: s.varargs.toList
  | _ => []

theorem reads_decodeParam {node : Decoder TypeNode} (p : String × TypeNode)
    (h : Reads node p.2.toJson p.2) : Reads (decodeParam node) (paramToJson p) p := by
  refine reads_record [some (.string p.1), some p.2.toJson] (List.Sublist.refl _) (by decide)
    (by simp) ?_
  intro room hroom
  simp only [List.forall_mem_cons] at hroom
  obtain ⟨hname, hty, -⟩ := hroom
  simp [readsField_required (reads_string p.1) room hname, readsField_required h room hty]

theorem reads_decodeKind {node : Decoder TypeNode} (n : TypeNode)
    (h : ∀ m ∈ n.children, Reads node m.toJson m) :
    Reads (decodeKind node n.kindWord) (.record n.entries) n := by
  have hkeys := n.keys_entries
  cases n with
  | any | nil | void =>
      intro _ _
      rfl
  | named name args isGlobal =>
      have hall : ∀ a ∈ args, Reads node a.toJson a := h
      refine reads_record [some (.string name), Json.unlessEmpty toJson args,
        Json.ifTrue isGlobal] hkeys (by decide) (by simp [entries, List.lookup_append]) ?_
      intro room hroom
      simp only [List.forall_mem_cons] at hroom
      obtain ⟨hname, hargs, hglobal, -⟩ := hroom
      have hargs := readsField_unlessEmpty hall room hargs
      simp [readsField_required (reads_string name) room hname, hargs,
        readsField_ifTrue isGlobal room hglobal]
  | array element => exact reads_record_single (readsField_required (h element List.mem_cons_self))
  | union members => exact reads_record_single (readsField_required (reads_list h))
  | tuple elements => exact reads_record_single (readsField_required (reads_list h))
  | function s =>
      obtain ⟨hparams, hreturns, hvarargs⟩ :
          (∀ p ∈ s.params, Reads node p.2.toJson p.2) ∧ Reads node s.returns.toJson s.returns ∧
            ∀ v ∈ s.varargs, Reads node v.toJson v := by
        simpa only [children, List.forall_mem_append, List.forall_mem_map, List.forall_mem_cons,
          Option.mem_toList, Option.mem_def] using h
      refine reads_record [some (.array (s.params.map paramToJson)), some s.returns.toJson,
        s.varargs.map toJson, Json.unlessEmpty Json.string s.generics, Json.ifTrue s.colon] hkeys
        (by decide) (by simp [entries, List.lookup_append]) ?_
      intro room hroom
      simp only [List.forall_mem_cons] at hroom
      obtain ⟨hparamsRoom, hreturnsRoom, hvarargsRoom, hgenerics, hcolon, -⟩ := hroom
      have hparams := readsField_listOrEmpty
        (fun p hp => reads_decodeParam p (hparams p hp)) room hparamsRoom
      have hreturns := readsField_withDefault .void hreturns room hreturnsRoom
      have hvarargs := readsField_optional
        (fun v hv => ⟨hvarargs v hv, v.toJson_ne_null⟩) room hvarargsRoom
      have hgenerics := readsField_strings s.generics room hgenerics
      simp [hparams, hreturns, hvarargs, hgenerics, readsField_ifTrue s.colon room hcolon]
  | param name => exact reads_record_single (readsField_required (reads_string name))

theorem nesting_le_of_mem_children {n m : TypeNode} {room : Nat}
    (h : ∀ f ∈ n.entries, f.2.nesting ≤ room) (hm : m ∈ n.children) : m.toJson.nesting ≤ room := by
  cases n with
  | any | nil | void | param => cases hm
  | named name args isGlobal =>
      have hargs : (Json.array (args.map toJson)).nesting ≤ room := by
        have hne : args ≠ [] := List.ne_nil_of_mem hm
        exact h ("args", _) (by simp [entries, Json.fieldUnlessEmpty, hne])
      exact Json.nesting_le_of_mem_array hargs (List.mem_map_of_mem hm)
  | array element =>
      obtain rfl := List.mem_singleton.1 hm
      exact h _ List.mem_cons_self
  | union | tuple =>
      exact Json.nesting_le_of_mem_array (h _ List.mem_cons_self) (List.mem_map_of_mem hm)
  | function s =>
      simp only [children, List.mem_append, List.mem_map, List.mem_cons, Option.mem_toList] at hm
      obtain ⟨p, hp, rfl⟩ | rfl | hv := hm
      · have hparams : (Json.array (s.params.map paramToJson)).nesting ≤ room :=
          h ("params", _) (by simp [entries])
        have hparam := Json.nesting_le_of_mem_array hparams (List.mem_map_of_mem hp)
        exact Json.nesting_le_of_mem_record (f := ("ty", p.2.toJson)) hparam (by simp)
      · exact h ("returns", _) (by simp [entries])
      · exact h ("varargs", _) (by simp [entries, Json.fieldIfSome, Option.mem_def.1 hv])

/-- The fuel may be as large as the document nests, since every node is an object. -/
theorem reads_decodeTagged {n : TypeNode} (hfuel : n.toJson.nesting ≤ fuel) :
    Reads (decodeTagged fuel nested) n.toJson n := by
  induction fuel generalizing n nested with
  | zero =>
      rw [toJson_eq] at hfuel
      obtain ⟨inner, hinner, -⟩ := Json.nesting_record_le.1 hfuel
      cases hinner
  | succ fuel ih =>
      intro room hroom
      have hchildren : ∀ m ∈ n.children, Reads (decodeTagged fuel true) m.toJson m := by
        intro m hm
        apply ih
        rw [toJson_eq] at hfuel
        obtain ⟨inner, hinner, hentries⟩ := Json.nesting_record_le.1 hfuel
        obtain rfl := Nat.succ.inj hinner
        exact nesting_le_of_mem_children (List.forall_mem_of_forall_mem_cons hentries) hm
      simp only [decodeTagged, tagged_toJson, Option.bind_eq_bind, Option.bind_some]
      apply reads_decodeKind n hchildren
      rw [toJson_eq] at hroom
      exact Json.nesting_record_le_of_cons hroom

theorem reads_decodeNested (n : TypeNode) : Reads decodeNested n.toJson n :=
  fun room hroom => reads_decodeTagged hroom room hroom

theorem reads_decode (n : TypeNode) : Reads decode n.toJson n := by
  intro room hroom
  rw [decode, if_pos (n.plain_toJson.isSound hroom)]
  exact reads_decodeTagged hroom room hroom

end TypeNode

end LuaTypes
