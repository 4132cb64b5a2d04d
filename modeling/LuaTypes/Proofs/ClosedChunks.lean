import LuaTypes.Proofs.Agreement
import LuaTypes.Proofs.DocumentRoundTrip
import LuaTypes.Proofs.ExpressionLists

namespace LuaTypes

/-- The ids that an expression is written with. -/
inductive Expr.Mentions : Expr → NodeId → Prop
  | target {id : NodeId} {name : Option String} {key : Option NodeId} :
      Mentions (.index id name key) id
  | key {target id : NodeId} {name : Option String} : Mentions (.index target name (some id)) id
  | callee {id : NodeId} {args : List NodeId} {colon : Bool} : Mentions (.call id args colon) id
  | argument {callee id : NodeId} {args : List NodeId} {colon : Bool} (h : id ∈ args) :
      Mentions (.call callee args colon) id
  | field {fields : List TableField} {f : TableField} (h : f ∈ fields) :
      Mentions (.table fields) f.value
  | returned {params : List ParamDecl} {returns : List (List NodeId)} {docReturns : Option TypeNode}
      {generics : List String} {colon : Bool} {exprs : List NodeId} {id : NodeId}
      (hexprs : exprs ∈ returns) (h : id ∈ exprs) :
      Mentions (.function params returns docReturns generics colon) id

theorem Expr.mentions_iff {e : Expr} {id : NodeId} : e.Mentions id ↔ id ∈ e.children := by
  constructor
  · intro h
    cases h with
    | target => exact List.mem_cons_self
    | key => exact List.mem_cons_of_mem _ List.mem_cons_self
    | callee => exact List.mem_cons_self
    | argument h => exact List.mem_cons_of_mem _ h
    | field h => exact List.mem_map_of_mem h
    | returned hexprs h => exact List.mem_flatten.2 ⟨_, hexprs, h⟩
  · intro h
    cases e with
    | literal value => exact absurd h List.not_mem_nil
    | ident name => exact absurd h List.not_mem_nil
    | index target name key =>
        rcases List.mem_cons.1 h with rfl | hkey
        · exact .target
        · obtain rfl := Option.mem_toList.1 hkey
          exact .key
    | call callee args colon =>
        rcases List.mem_cons.1 h with rfl | harg
        · exact .callee
        · exact .argument harg
    | table fields =>
        obtain ⟨f, hf, rfl⟩ := List.mem_map.1 h
        exact .field hf
    | function params returns docReturns generics colon =>
        obtain ⟨exprs, hexprs, hid⟩ := List.mem_flatten.1 h
        exact .returned hexprs hid

namespace Chunk

variable {c : Chunk} {id : NodeId}

/-- Some expression is written with the id, or some binding has it among its values. -/
def Mentions (c : Chunk) (id : NodeId) : Prop :=
  (∃ e ∈ c.nodes, e.Mentions id) ∨ ∃ b ∈ c.bindings, id ∈ b.values

theorem mentions_iff : c.Mentions id ↔ ∃ owner, (owner, id) ∈ c.references := by
  constructor
  · rintro (⟨e, he, hid⟩ | ⟨b, hb, hid⟩)
    · obtain ⟨i, hget⟩ := List.mem_iff_getElem?.1 he
      exact ⟨_, mem_references_of_child hget (Expr.mentions_iff.1 hid)⟩
    · exact ⟨_, mem_references_of_value hb hid⟩
  · rintro ⟨owner, h⟩
    rcases List.mem_append.1 h with hnode | hbinding
    · obtain ⟨⟨e, i⟩, he, hpair⟩ := List.mem_flatMap.1 hnode
      obtain ⟨child, hchild, heq⟩ := List.mem_map.1 hpair
      obtain rfl := (Prod.mk.inj heq).2
      exact .inl ⟨e, List.mem_of_getElem? (List.mem_zipIdx_iff_getElem?.1 he),
        Expr.mentions_iff.2 hchild⟩
    · obtain ⟨b, hb, hpair⟩ := List.mem_flatMap.1 hbinding
      obtain ⟨value, hvalue, heq⟩ := List.mem_map.1 hpair
      obtain rfl := (Prod.mk.inj heq).2
      exact .inr ⟨b, hb, hvalue⟩

theorem validate_eq_ok_iff_mentions :
    c.validate = .ok c ↔ ∀ id, c.Mentions id → id < c.nodes.length := by
  rw [validate_eq_ok_iff]
  constructor
  · intro h id hid
    obtain ⟨owner, howner⟩ := mentions_iff.1 hid
    exact h _ howner
  · exact fun h r hr => h r.2 (mentions_iff.2 ⟨r.1, hr⟩)

theorem eq_of_validate {accepted : Chunk} (h : c.validate = .ok accepted) : accepted = c := by
  unfold validate at h
  split at h
  · exact (Except.ok.inj h).symm
  · cases h

theorem parse_of_decode {text : String} (h : decode.parse text = .ok c) :
    Chunk.parse text = c.validate := by
  rw [Chunk.parse, h]
  rfl

end Chunk

def Event.query : Event → Query
  | .recalled q => q
  | .entered q _ => q
  | .cycle q _ => q
  | .tooDeep q => q
  | .left q => q

theorem Ty.Compositional.trivial : Ty.Compositional fun _ => True where
  unknown := True.intro
  nil := True.intro
  void := True.intro
  primitive _ := True.intro
  array_iff := Iff.rfl
  function_iff := by simp
  of_union _ _ _ := True.intro
  of_tuple _ _ _ := True.intro
  of_generic _ := by simp
  generic _ _ _ _ := True.intro
  unite _ _ := True.intro
  ofValues _ := True.intro

namespace Sources

variable {src : Sources} {base : SearchContext} {table : Option LinkTable}
  {inside : NodeId → Prop}

theorem keeps_trivial (src : Sources) : src.Keeps table fun _ => True where
  toCompositional := .trivial
  written _ _ _ := True.intro
  constructor _ _ := True.intro
  global _ _ := True.intro
  member _ _ _ _ := True.intro

section Confined

variable (h : src.Confines (fun _ => True) inside)

include h

theorem Confines.script {q : Query} (hq : inside q.node) :
    (src.script base q).Agrees table (fun _ => True) inside (src.script base q) :=
  h.agreesWith_self.inferExpr src.keeps_trivial hq (q.context base)

/-- A script that starts inside is carried out inside, at every level of the recursion. -/
theorem Confines.forall_moments_of_runs {s s' : Script Ty} {r r' : Request} {t : Ty}
    {js : List Moment} (hrun : src.Runs base s r t r' js)
    (htable : LinkTable.MayGrow r'.table table)
    (hs : s.Agrees table (fun _ => True) inside s') : ∀ m ∈ js, inside m.event.query.node := by
  induction hrun generalizing s' with
  | done => exact List.forall_mem_nil _
  | made rest ih =>
      cases hs with
      | make hnext =>
          exact ih htable (hnext _ (Ty.madeIn_placeIn (rest.mayGrow.trans htable)))
  | consult rest ih =>
      cases hs with
      | consult hc hnext => exact ih htable hnext
  | recalled known rest ih =>
      cases hs with
      | ask hq hnext => exact List.forall_mem_cons.2 ⟨hq, ih htable (hnext _ True.intro)⟩
  | cycle unknown inProgress rest ih =>
      cases hs with
      | ask hq hnext => exact List.forall_mem_cons.2 ⟨hq, ih htable (hnext _ True.intro)⟩
  | tooDeep unknown fresh full rest ih =>
      cases hs with
      | ask hq hnext => exact List.forall_mem_cons.2 ⟨hq, ih htable (hnext _ True.intro)⟩
  | @entered q next r a s inside t r' js unknown fresh room body rest ihBody ih =>
      cases hs with
      | ask hq hnext =>
          have hinsideTable : LinkTable.MayGrow s.table table :=
            Request.finish_table (r := s) ▸ rest.mayGrow.trans htable
          -- The body of an entered query is a rule for a node inside.
          have hbody := ihBody hinsideTable (h.script hq)
          have hrest := ih htable (hnext _ True.intro)
          refine List.forall_mem_cons.2 ⟨hq, List.forall_mem_append.2 ⟨hbody, ?_⟩⟩
          exact List.forall_mem_cons.2 ⟨hq, hrest⟩

theorem Confines.forall_moments_of_serves {demands : List Demand} {r r' : Request} {ts : List Ty}
    {js : List Moment} (hserves : src.Serves demands r ts r' js)
    (hdemands : ∀ d ∈ demands, d.Within inside) : ∀ m ∈ js, inside m.event.query.node := by
  induction hserves with
  | nil => exact List.forall_mem_nil _
  | cons first rest ih =>
      obtain ⟨hd, hds⟩ := List.forall_mem_cons.1 hdemands
      have hfirst := h.forall_moments_of_runs first (.refl _) (agrees_answer hd)
      exact List.forall_mem_append.2 ⟨hfirst, ih hds⟩

theorem Confines.forall_moments {demands : List Demand} {r : Request}
    (hdemands : ∀ d ∈ demands, d.Within inside) :
    ∀ m ∈ src.journal r demands, inside m.event.query.node :=
  h.forall_moments_of_serves (src.serves_serve demands r) hdemands

end Confined

end Sources

namespace Chunk

variable {c : Chunk}

theorem exists_value_of_bindingFor? (h : c.validate = .ok c) {name : String} {b : Binding}
    {place : Nat} {slot : Slot} (hbinding : c.bindingFor? name = some (b, place))
    (hslot : Slot.distribute b.values.length place = some slot) :
    ∃ value, b.values[slot.expr]? = some value ∧ value < c.nodes.length := by
  have hget := List.getElem?_eq_getElem (Slot.expr_lt_of_distribute hslot)
  have hreference := mem_references_of_value (mem_bindings_of_bindingFor? hbinding)
    (List.mem_of_getElem? hget)
  exact ⟨_, hget, validate_eq_ok_iff.1 h _ hreference⟩

/-- A chunk document is accepted exactly if every id mentioned in it is one of its nodes. In an
accepted chunk, whatever the index declares and whatever the request remembers, questions about
nodes lead to questions about nodes only, and every name that has a place among values finds one
there. -/
theorem accepted_chunk_is_closed {text : String} (hdecode : decode.parse text = .ok c) :
    ((∃ accepted, Chunk.parse text = .ok accepted) ↔
      ∀ id, c.Mentions id → id < c.nodes.length) ∧
    ∀ accepted, Chunk.parse text = .ok accepted → accepted = c ∧
      (∀ (index : SymbolIndex) (links : LinkTable) (r : Request) (demands : List Demand),
        (∀ d ∈ demands, d.Within (· < accepted.nodes.length)) →
        ∀ m ∈ ({ chunk := accepted, index, links } : Sources).journal r demands,
          m.event.query.node < accepted.nodes.length) ∧
      ∀ name b place slot, accepted.bindingFor? name = some (b, place) →
        Slot.distribute b.values.length place = some slot →
        ∃ value, b.values[slot.expr]? = some value ∧ value < accepted.nodes.length := by
  rw [parse_of_decode hdecode]
  have hsame : ∀ accepted, c.validate = .ok accepted → accepted = c := fun _ => eq_of_validate
  refine ⟨⟨?_, fun h => ⟨c, validate_eq_ok_iff_mentions.2 h⟩⟩, fun accepted haccepted => ?_⟩
  · rintro ⟨accepted, haccepted⟩
    obtain rfl := hsame accepted haccepted
    exact validate_eq_ok_iff_mentions.1 haccepted
  · obtain rfl := hsame accepted haccepted
    refine ⟨rfl, fun index links r demands hdemands => ?_, fun name b place slot => ?_⟩
    · have hconfines := Sources.confines_of_validate { chunk := accepted, index, links } haccepted
      exact (hconfines _).forall_moments hdemands
    · exact exists_value_of_bindingFor? haccepted

/-- A table with a method that returns its argument once or twice, a call of the method on the
table, and two names for what the call returns. -/
def methodOnTable : Chunk :=
  { nodes := [.ident "t", .index 0 (some "f") none, .call 1 [3] true, .literal .number,
      .table [⟨"f", 5⟩], .function [⟨"n", none⟩] [[3], [3, 3]] none [] true]
    bindings := [{ names := ["t"], values := [4] }, { names := ["a", "b"], values := [2] }] }

/-- The call leads through the constructor to the method, and from there to what it returns. -/
theorem accepted_chunk_is_closed_method_on_table :
    decode.parse methodOnTable.toJson.compact = .ok methodOnTable ∧
    Chunk.parse methodOnTable.toJson.compact = .ok methodOnTable ∧
    (∀ m ∈ ({ chunk := methodOnTable } : Sources).journal (.start 8) [.one 2 {}],
      m.event.query.node < 6) ∧
    5 ∈ (({ chunk := methodOnTable } : Sources).journal (.start 8) [.one 2 {}]).map
      (·.event.query.node) ∧
    (∃ b slot, methodOnTable.bindingFor? "b" = some (b, 1) ∧
      Slot.distribute b.values.length 1 = some slot ∧
      ∃ value, b.values[slot.expr]? = some value ∧ value < 6) ∧
    decode.parse missingValue.toJson.compact = .ok missingValue ∧
    ¬∃ accepted, Chunk.parse missingValue.toJson.compact = .ok accepted := by
  have hwords : methodOnTable.FitsWords := ⟨by decide, by decide⟩
  have hdecode : decode.parse methodOnTable.toJson.compact = .ok methodOnTable :=
    Decoder.parse_compact hwords.plain_toJson hwords.reads_decode (by decide)
  obtain ⟨haccepts, hclosed⟩ := accepted_chunk_is_closed hdecode
  have hvalid : methodOnTable.validate = .ok methodOnTable := validate_of_complete (by decide)
  obtain ⟨accepted, hparse⟩ := haccepts.2 (validate_eq_ok_iff_mentions.1 hvalid)
  obtain ⟨rfl, hasked, hnamed⟩ := hclosed accepted hparse
  refine ⟨hdecode, hparse, ?_, by decide +kernel, ?_, ?_⟩
  · exact hasked {} {} (.start 8) [.one 2 {}] (by simp [Demand.Within, methodOnTable])
  · exact ⟨_, _, rfl, rfl, hnamed "b" _ 1 _ rfl rfl⟩
  · have hwords : missingValue.FitsWords := ⟨by decide, by decide⟩
    have hdecode : decode.parse missingValue.toJson.compact = .ok missingValue :=
      Decoder.parse_compact hwords.plain_toJson hwords.reads_decode (by decide)
    refine ⟨hdecode, fun haccepted => ?_⟩
    have hmentioned : missingValue.Mentions 0 :=
      .inr ⟨_, List.mem_cons_self, List.mem_cons_self⟩
    exact absurd ((accepted_chunk_is_closed hdecode).1.1 haccepted 0 hmentioned) (by decide)

end Chunk

end LuaTypes
