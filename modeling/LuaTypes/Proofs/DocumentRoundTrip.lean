import LuaTypes.Chunk.Document
import LuaTypes.Proofs.ChunkReferences
import LuaTypes.Proofs.NodeDocuments

namespace LuaTypes

open Decoder

theorem ClassDecl.plain_toJson (d : ClassDecl) : d.toJson.Plain := by
  refine .record ?_
  simp only [List.forall_mem_append, List.forall_mem_singleton]
  exact ⟨⟨.string d.name, Json.plain_fieldIfSome fun s _ => .string s⟩,
    Json.plain_fieldUnlessEmpty fun s _ => .string s⟩

theorem ClassDecl.reads_decode (d : ClassDecl) : Reads decode d.toJson d := by
  refine reads_record [some (.string d.name), d.superClass.map Json.string,
    Json.unlessEmpty Json.string d.aliases] ?_ (by decide) (by simp [List.lookup_append]) ?_
  · simp only [List.map_append]
    exact ((List.Sublist.refl ["name"]).append (Json.keys_fieldIfSome _ _)).append
      (Json.keys_fieldUnlessEmpty _ _)
  · intro room hroom
    simp only [List.forall_mem_cons] at hroom
    obtain ⟨hname, hsuper, haliases, -⟩ := hroom
    have hsuper := readsField_optionalString d.superClass room hsuper
    have haliases := readsField_strings d.aliases room haliases
    simp [readsField_required (reads_string d.name) room hname, hsuper, haliases]

theorem MemberKind.reads_decode (kind : MemberKind) :
    Reads decode (.string kind.word) kind := by
  intro room _
  cases kind <;> rfl

theorem MemberRecord.plain_toJson (r : MemberRecord) : r.toJson.Plain := by
  refine .record ?_
  simp only [List.forall_mem_append, List.forall_mem_cons]
  exact ⟨⟨.string r.className, .string r.name, .string r.kind.word, r.node.plain_toJson,
    List.forall_mem_nil _⟩, Json.plain_fieldIfSome fun s _ => .string s⟩

theorem MemberRecord.reads_decode (r : MemberRecord) : Reads decode r.toJson r := by
  refine reads_record [some (.string r.className), some (.string r.name),
    some (.string r.kind.word), some r.node.toJson, r.file.map Json.string] ?_ (by decide)
    (by simp) ?_
  · simp only [List.map_append]
    exact (List.Sublist.refl ["class_name", "name", "kind", "ty"]).append
      (Json.keys_fieldIfSome _ _)
  · intro room hroom
    simp only [List.forall_mem_cons] at hroom
    obtain ⟨hclass, hname, hkind, hnode, hfile, -⟩ := hroom
    have hclass := readsField_required (reads_string r.className) room hclass
    have hname := readsField_required (reads_string r.name) room hname
    have hkind := readsField_required r.kind.reads_decode room hkind
    have hnode := readsField_required r.node.reads_decode room hnode
    have hfile := readsField_optionalString r.file room hfile
    simp [hclass, hname, hkind, hnode, hfile]

theorem IndexFile.plain_toJson (f : IndexFile) : f.toJson.Plain := by
  refine .record ?_
  simp only [List.forall_mem_cons]
  exact ⟨.array (List.forall_mem_map.2 fun d _ => d.plain_toJson),
    .array (List.forall_mem_map.2 fun r _ => r.plain_toJson),
    List.forall_mem_nil _⟩

theorem IndexFile.reads_decode (f : IndexFile) : Reads decode f.toJson f := by
  refine reads_record [some (.array (f.classes.map ClassDecl.toJson)),
    some (.array (f.members.map MemberRecord.toJson))] (List.Sublist.refl _) (by decide)
    (by simp) ?_
  intro room hroom
  simp only [List.forall_mem_cons] at hroom
  obtain ⟨hclasses, hmembers, -⟩ := hroom
  have hclasses := readsField_listOrEmpty (fun d _ => ClassDecl.reads_decode d) room hclasses
  have hmembers := readsField_listOrEmpty (fun r _ => MemberRecord.reads_decode r) room hmembers
  simp [hclasses, hmembers]

theorem Json.plain_ids {ids : List NodeId} (h : ∀ id ∈ ids, id < Text.word32Limit) :
    (Json.ids ids).Plain :=
  .array (List.forall_mem_map.2 fun id hid => .nat (h id hid))

theorem reads_ids {ids : List NodeId} (h : ∀ id ∈ ids, id < Text.word32Limit) :
    Reads word32.list (.ids ids) ids :=
  reads_list fun id hid => reads_word32 (h id hid)

theorem readsField_ids {ids : List NodeId} (h : ∀ id ∈ ids, id < Text.word32Limit) :
    ReadsField (listOrEmpty word32) (some (.ids ids)) ids :=
  readsField_withDefault [] (reads_ids h)

theorem Literal.reads_decode (value : Literal) {nested : Bool} :
    Reads (decode nested) (.string value.word) value := by
  intro room _
  cases value <;> rfl

theorem TableField.plain_toJson {f : TableField} (h : f.value < Text.word32Limit) :
    f.toJson.Plain :=
  .record (List.forall_mem_cons.2 ⟨.string f.name, List.forall_mem_singleton.2 (.nat h)⟩)

theorem TableField.reads_decode {f : TableField} (h : f.value < Text.word32Limit) :
    Reads decode f.toJson f := by
  refine reads_record [some (.string f.name), some (.nat f.value)] (List.Sublist.refl _)
    (by decide) (by simp) ?_
  intro room hroom
  simp only [List.forall_mem_cons] at hroom
  obtain ⟨hname, hvalue, -⟩ := hroom
  simp [readsField_required (reads_string f.name) room hname,
    readsField_required (reads_word32 h) room hvalue]

theorem ParamDecl.plain_toJson (p : ParamDecl) : p.toJson.Plain := by
  refine .record (List.forall_mem_append.2 ⟨List.forall_mem_singleton.2 (.string p.name), ?_⟩)
  exact Json.plain_fieldIfSome fun n _ => n.plain_toJson

theorem readsField_optionalNode (node : Option TypeNode) :
    ReadsField (Decoder.optional TypeNode.decodeNested) (node.map TypeNode.toJson) node :=
  readsField_optional fun n _ => ⟨n.reads_decodeNested, n.toJson_ne_null⟩

theorem ParamDecl.reads_decode (p : ParamDecl) : Reads decode p.toJson p := by
  refine reads_record [some (.string p.name), p.node.map TypeNode.toJson] ?_ (by decide)
    (by simp) ?_
  · simp only [List.map_append]
    exact (List.Sublist.refl ["name"]).append (Json.keys_fieldIfSome _ _)
  · intro room hroom
    simp only [List.forall_mem_cons] at hroom
    obtain ⟨hname, hnode, -⟩ := hroom
    have hnode := readsField_optionalNode p.node room hnode
    simp [readsField_required (reads_string p.name) room hname, hnode]

namespace Expr

def formWord : Expr → String
  | .literal _ => "literal"
  | .ident _ => "name"
  | .index .. => "index"
  | .call .. => "call"
  | .table _ => "table"
  | .function .. => "function"

/-- The fields of an expression without its tag. -/
def entries : Expr → List (String × Json)
  | .literal value => [("value", .string value.word)]
  | .ident name => [("name", .string name)]
  | .index target name key =>
      [("prefix", .nat target)] ++ Json.fieldIfSome "name" Json.string name ++
        Json.fieldIfSome "key" Json.nat key
  | .call callee args colon =>
      [("callee", .nat callee), ("args", .ids args), ("colon", .bool colon)]
  | .table fields => [("fields", .array (fields.map TableField.toJson))]
  | .function params returns docReturns generics colon =>
      [("params", .array (params.map ParamDecl.toJson)),
          ("returns", .array (returns.map Json.ids))] ++
        Json.fieldIfSome "doc_returns" TypeNode.toJson docReturns ++
        Json.fieldUnlessEmpty "generics" Json.string generics ++ [("colon", .bool colon)]

/-- The fields that an expression may have. -/
def fieldNames : Expr → List String
  | .literal _ => ["value"]
  | .ident _ => ["name"]
  | .index .. => ["prefix", "name", "key"]
  | .call .. => ["callee", "args", "colon"]
  | .table _ => ["fields"]
  | .function .. => ["params", "returns", "doc_returns", "generics", "colon"]

theorem toJson_eq (e : Expr) : e.toJson = .record (("expr", .string e.formWord) :: e.entries) := by
  cases e <;> rfl

theorem formWord_mem_forms (e : Expr) : e.formWord ∈ forms := by
  cases e <;> simp [formWord, forms]

theorem keys_entries (e : Expr) : (e.entries.map Prod.fst).Sublist e.fieldNames := by
  cases e with
  | index =>
      simp only [entries, List.map_append]
      exact ((List.Sublist.refl ["prefix"]).append (Json.keys_fieldIfSome _ _)).append
        (Json.keys_fieldIfSome _ _)
  | function =>
      simp only [entries, List.map_append]
      exact (((List.Sublist.refl ["params", "returns"]).append (Json.keys_fieldIfSome _ _)).append
        (Json.keys_fieldUnlessEmpty _ _)).append (List.Sublist.refl ["colon"])
  | literal | ident | call | table => exact List.Sublist.refl _

theorem expr_notMem_fieldNames (e : Expr) : "expr" ∉ e.fieldNames := by
  cases e <;> simp [fieldNames]

theorem tagged_toJson (e : Expr) :
    tagged "expr" false forms e.toJson = some (e.formWord, .record e.entries) := by
  rw [toJson_eq]
  exact tagged_record e.formWord_mem_forms e.keys_entries e.expr_notMem_fieldNames

theorem plain_toJson {e : Expr} (h : ∀ id ∈ e.children, id < Text.word32Limit) :
    e.toJson.Plain := by
  suffices hfields : ∀ f ∈ e.entries, f.2.Plain by
    rw [toJson_eq]
    exact .record (List.forall_mem_cons.2 ⟨.string e.formWord, hfields⟩)
  cases e with
  | literal value => exact List.forall_mem_singleton.2 (.string value.word)
  | ident name => exact List.forall_mem_singleton.2 (.string name)
  | index target name key =>
      obtain ⟨htarget, hkey⟩ := List.forall_mem_cons.1 h
      simp only [entries, List.forall_mem_append, List.forall_mem_singleton]
      exact ⟨⟨.nat htarget, Json.plain_fieldIfSome fun s _ => .string s⟩,
        Json.plain_fieldIfSome fun id hid => .nat (hkey id (Option.mem_toList.2 hid))⟩
  | call callee args colon =>
      obtain ⟨hcallee, hargs⟩ := List.forall_mem_cons.1 h
      simp only [entries, List.forall_mem_cons]
      exact ⟨.nat hcallee, Json.plain_ids hargs, .bool colon,
        List.forall_mem_nil _⟩
  | table fields =>
      have hfields : ∀ f ∈ fields, f.value < Text.word32Limit := List.forall_mem_map.1 h
      exact List.forall_mem_singleton.2 (.array (List.forall_mem_map.2 fun f hf =>
        TableField.plain_toJson (hfields f hf)))
  | function params returns docReturns generics colon =>
      have hids : ∀ ids ∈ returns, ∀ id ∈ ids, id < Text.word32Limit :=
        fun ids hids id hid => h id (List.mem_flatten.2 ⟨ids, hids, hid⟩)
      simp only [entries, List.forall_mem_append, List.forall_mem_cons]
      exact ⟨⟨⟨⟨.array (List.forall_mem_map.2 fun p _ => p.plain_toJson),
        .array (List.forall_mem_map.2 fun ids h => Json.plain_ids (hids ids h)),
        List.forall_mem_nil _⟩,
        Json.plain_fieldIfSome fun n _ => n.plain_toJson⟩,
        Json.plain_fieldUnlessEmpty fun g _ => .string g⟩, .bool colon,
        List.forall_mem_nil _⟩

theorem reads_decodeForm {e : Expr} (h : ∀ id ∈ e.children, id < Text.word32Limit) :
    Reads (decodeForm e.formWord) (.record e.entries) e := by
  have hkeys := e.keys_entries
  cases e with
  | literal value => exact reads_record_single (readsField_required value.reads_decode)
  | ident name => exact reads_record_single (readsField_required (reads_string name))
  | index target name key =>
      obtain ⟨htarget, hkey⟩ := List.forall_mem_cons.1 h
      refine reads_record [some (.nat target), name.map Json.string, key.map Json.nat] hkeys
        (by decide) (by simp [entries, List.lookup_append]) ?_
      intro room hroom
      simp only [List.forall_mem_cons] at hroom
      obtain ⟨htargetRoom, hnameRoom, hkeyRoom, -⟩ := hroom
      have htarget := readsField_required (reads_word32 htarget) room htargetRoom
      have hname := readsField_optionalString name room hnameRoom
      have hkey := readsField_optional (fun id hid =>
        ⟨reads_word32 (hkey id (Option.mem_toList.2 hid)), Json.nat_ne_null id⟩) room hkeyRoom
      simp [htarget, hname, hkey]
  | call callee args colon =>
      obtain ⟨hcallee, hargs⟩ := List.forall_mem_cons.1 h
      refine reads_record [some (.nat callee), some (.ids args), some (.bool colon)] hkeys
        (by decide) (by simp [entries]) ?_
      intro room hroom
      simp only [List.forall_mem_cons] at hroom
      obtain ⟨hcalleeRoom, hargsRoom, hcolon, -⟩ := hroom
      have hcallee := readsField_required (reads_word32 hcallee) room hcalleeRoom
      have hargs := readsField_ids hargs room hargsRoom
      simp [hcallee, hargs, readsField_flag colon room hcolon]
  | table fields =>
      have hfields : ∀ f ∈ fields, f.value < Text.word32Limit := List.forall_mem_map.1 h
      exact reads_record_single (readsField_listOrEmpty fun f hf =>
        TableField.reads_decode (hfields f hf))
  | function params returns docReturns generics colon =>
      have hids : ∀ ids ∈ returns, ∀ id ∈ ids, id < Text.word32Limit :=
        fun ids hids id hid => h id (List.mem_flatten.2 ⟨ids, hids, hid⟩)
      refine reads_record [some (.array (params.map ParamDecl.toJson)),
        some (.array (returns.map Json.ids)), docReturns.map TypeNode.toJson,
        Json.unlessEmpty Json.string generics, some (.bool colon)] hkeys (by decide)
        (by simp [entries, List.lookup_append]) ?_
      intro room hroom
      simp only [List.forall_mem_cons] at hroom
      obtain ⟨hparams, hreturns, hdoc, hgenerics, hcolon, -⟩ := hroom
      have hparams := readsField_listOrEmpty (fun p _ => ParamDecl.reads_decode p) room hparams
      have hreturns := readsField_listOrEmpty (fun ids h => reads_ids (hids ids h)) room hreturns
      have hdoc := readsField_optionalNode docReturns room hdoc
      have hgenerics := readsField_strings generics room hgenerics
      simp [hparams, hreturns, hdoc, hgenerics, readsField_flag colon room hcolon]

theorem reads_decode {e : Expr} (h : ∀ id ∈ e.children, id < Text.word32Limit) :
    Reads decode e.toJson e := by
  intro room hroom
  rw [decode, if_pos ((plain_toJson h).isSound hroom), tagged_toJson, Option.bind_eq_bind,
    Option.bind_some]
  rw [toJson_eq] at hroom
  exact reads_decodeForm h room (Json.nesting_record_le_of_cons hroom)

end Expr

theorem Binding.plain_toJson {b : Binding} (h : ∀ id ∈ b.values, id < Text.word32Limit) :
    b.toJson.Plain := by
  refine .record ?_
  simp only [List.forall_mem_append, List.forall_mem_cons]
  have hdocTypes : ∀ t ∈ b.docTypes, (Json.optional TypeNode.toJson t).Plain := by
    rintro (_ | n) -
    · exact .null
    · exact n.plain_toJson
  exact ⟨⟨Json.plain_strings b.names, Json.plain_ids h, List.forall_mem_nil _⟩,
    Json.plain_fieldUnlessEmpty hdocTypes⟩

theorem Binding.reads_decode {b : Binding} (h : ∀ id ∈ b.values, id < Text.word32Limit) :
    Reads decode b.toJson b := by
  refine reads_record [some (.array (b.names.map Json.string)), some (.ids b.values),
    Json.unlessEmpty (Json.optional TypeNode.toJson) b.docTypes] ?_ (by decide) (by simp) ?_
  · simp only [List.map_append]
    exact (List.Sublist.refl ["names", "values"]).append (Json.keys_fieldUnlessEmpty _ _)
  · intro room hroom
    simp only [List.forall_mem_cons] at hroom
    obtain ⟨hnames, hvalues, hdocTypes, -⟩ := hroom
    have hnames := readsField_required (reads_list fun s _ => reads_string s) room hnames
    have hvalues := readsField_ids h room hvalues
    have hdocTypes := readsField_unlessEmpty (f := Json.optional TypeNode.toJson)
      (fun _ _ => reads_orNull fun n _ => ⟨n.reads_decode, n.toJson_ne_null⟩) room hdocTypes
    simp [hnames, hvalues, hdocTypes]

namespace Chunk

variable {c : Chunk}

/-- Every id fits the 32 bits that it is held in. -/
structure FitsWords (c : Chunk) : Prop where
  nodes : ∀ e ∈ c.nodes, ∀ id ∈ e.children, id < Text.word32Limit
  bindings : ∀ b ∈ c.bindings, ∀ id ∈ b.values, id < Text.word32Limit

theorem FitsWords.plain_toJson (h : c.FitsWords) : c.toJson.Plain := by
  refine .record ?_
  simp only [List.forall_mem_cons]
  exact ⟨.array (List.forall_mem_map.2 fun e he => Expr.plain_toJson (h.nodes e he)),
    .array (List.forall_mem_map.2 fun b hb => Binding.plain_toJson (h.bindings b hb)),
    List.forall_mem_nil _⟩

theorem FitsWords.reads_decode (h : c.FitsWords) : Reads decode c.toJson c := by
  refine reads_record [some (.array (c.nodes.map Expr.toJson)),
    some (.array (c.bindings.map Binding.toJson))] (List.Sublist.refl _) (by decide) (by simp) ?_
  intro room hroom
  simp only [List.forall_mem_cons] at hroom
  obtain ⟨hnodes, hbindings, -⟩ := hroom
  have hnodes := readsField_listOrEmpty (fun e he => Expr.reads_decode (h.nodes e he)) room hnodes
  have hbindings := readsField_listOrEmpty
    (fun b hb => Binding.reads_decode (h.bindings b hb)) room hbindings
  simp [hnodes, hbindings]

end Chunk

theorem Decoder.parse_compact {d : Decoder α} {j : Json} {a : α} (hplain : j.Plain)
    (hreads : Reads d j a) (hnesting : j.nesting ≤ fullRoom) : d.parse j.compact = .ok a := by
  rw [Decoder.parse, hplain.parse_compact, Option.bind_some, hreads fullRoom hnesting]

/-- What is written as compact text is read back, as long as it nests no deeper than any document
may: nodes, index documents, and chunks too, which have to be complete besides. -/
theorem Decoder.parse_written_documents :
    (∀ n : TypeNode, n.toJson.nesting ≤ fullRoom →
      TypeNode.decode.parse n.toJson.compact = .ok n) ∧
    (∀ f : IndexFile, f.toJson.nesting ≤ fullRoom →
      IndexFile.decode.parse f.toJson.compact = .ok f) ∧
    (∀ c : Chunk, c.FitsWords → c.toJson.nesting ≤ fullRoom →
      (Chunk.parse c.toJson.compact = .ok c ↔ ∀ r ∈ c.references, r.2 < c.nodes.length) ∧
      ((∃ r ∈ c.references, c.nodes.length ≤ r.2) →
        ∃ owner id, (owner, id) ∈ c.references ∧ c.nodes.length ≤ id ∧
          Chunk.parse c.toJson.compact =
            .error (.index (.missingNode owner id c.nodes.length)))) := by
  refine ⟨fun n hn => parse_compact n.plain_toJson n.reads_decode hn,
    fun f hf => parse_compact f.plain_toJson f.reads_decode hf, ?_⟩
  intro c hwords hnesting
  have hparse : Chunk.parse c.toJson.compact = c.validate := by
    rw [Chunk.parse, parse_compact hwords.plain_toJson hwords.reads_decode hnesting]
    rfl
  rw [hparse]
  exact ⟨Chunk.validate_eq_ok_iff, Chunk.validate_of_missing⟩

/-- Two names for the values of a call, of which only the second is documented. -/
def Chunk.documentedSecondName : Chunk :=
  { nodes := [.ident "f", .call 0 [] false]
    bindings := [{ names := ["a", "b"], values := [1], docTypes := [none, some (.array .any)] }] }

/-- A name for a node that there is none of. -/
def Chunk.missingValue : Chunk :=
  { bindings := [{ names := ["a"], values := [0] }] }

theorem Decoder.parse_written_documents_second_name :
    (TypeNode.decode.parse (TypeNode.named "List" [.nil] true).toJson.compact =
      .ok (.named "List" [.nil] true)) ∧
    (IndexFile.decode.parse ({ classes := [.named "List"] } : IndexFile).toJson.compact =
      .ok { classes := [.named "List"] }) ∧
    Chunk.documentedSecondName.FitsWords ∧
    Chunk.parse Chunk.documentedSecondName.toJson.compact = .ok Chunk.documentedSecondName ∧
    ∃ owner id, (owner, id) ∈ Chunk.missingValue.references ∧ 0 ≤ id ∧
      Chunk.parse Chunk.missingValue.toJson.compact =
        .error (.index (.missingNode owner id 0)) := by
  obtain ⟨hnode, hfile, hchunk⟩ := parse_written_documents
  have hwords : Chunk.documentedSecondName.FitsWords := ⟨by decide, by decide⟩
  refine ⟨hnode _ (by decide), hfile _ (by decide), hwords, ?_, ?_⟩
  · exact (hchunk _ hwords (by decide)).1.2 (by decide)
  · exact (hchunk Chunk.missingValue ⟨by decide, by decide⟩ (by decide)).2
      ⟨(.binding ["a"], 0), by decide, by decide⟩

end LuaTypes
