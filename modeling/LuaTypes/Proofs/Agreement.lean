import LuaTypes.Proofs.ChunkReferences
import LuaTypes.Proofs.KeptProperties

namespace LuaTypes

/-- All expressions that a demand is on are among the given ones. -/
def Demand.Within (inside : NodeId → Prop) : Demand → Prop
  | .one node _ => inside node
  | .list exprs _ => ∀ e ∈ exprs, inside e

namespace Script

variable {α β : Type} {table : Option LinkTable} {P : Ty → Prop} {inside : NodeId → Prop}
  {R : α → Prop}

/-- Two scripts do the same as long as they are answered with types of a property: they ask about
the same expressions, which are among the given ones, build the same types, and ask for the links of
the same class values, which have the property. -/
inductive Agrees (table : Option LinkTable) (P : Ty → Prop) (inside : NodeId → Prop) :
    Script α → Script α → Prop
  | done (a : α) : Agrees table P inside (.done a) (.done a)
  | ask {q : Query} {next next' : Ty → Script α} (hq : inside q.node)
      (hnext : ∀ t, P t → Agrees table P inside (next t) (next' t)) :
      Agrees table P inside (.ask q next) (.ask q next')
  | make {t : Ty} {next next' : Ty → Script α}
      (hnext : ∀ u, t.MadeIn table u → Agrees table P inside (next u) (next' u)) :
      Agrees table P inside (.make t next) (.make t next')
  | consult {c : ClassTy} {next next' : Script α} (hc : P (.ofClass c))
      (hnext : Agrees table P inside next next') :
      Agrees table P inside (.consult c next) (.consult c next')

theorem agrees_asking_infer {node : NodeId} (h : inside node) (ctx : SearchContext) :
    (asking.infer node ctx).Agrees table P inside (asking.infer node ctx) :=
  .ask h fun t _ => .done t

theorem agrees_asking_make (t : Ty) :
    (asking.make t).Agrees table P inside (asking.make t) :=
  .make fun u _ => .done u

theorem Ensures.trivial (s : Script α) : s.Ensures table P fun _ => True := by
  induction s with
  | done a => exact True.intro
  | ask q next ih => exact fun t _ => ih t
  | make t next ih => exact fun u _ => ih u
  | consult c next ih => exact ih

theorem Agrees.bind {s s' : Script α} {f f' : α → Script β} (h : s.Agrees table P inside s')
    (hs : s.Ensures table P R) (hf : ∀ a, R a → (f a).Agrees table P inside (f' a)) :
    (s >>= f).Agrees table P inside (s' >>= f') := by
  induction h with
  | done a => exact hf a hs
  | ask hq hnext ih => exact .ask hq fun t ht => ih t ht (hs t ht)
  | make hnext ih => exact .make fun u hu => ih u hu (hs u hu)
  | consult hc hnext ih => exact .consult hc (ih hs)

theorem Agrees.bind_any {s s' : Script α} {f f' : α → Script β} (h : s.Agrees table P inside s')
    (hf : ∀ a, (f a).Agrees table P inside (f' a)) : (s >>= f).Agrees table P inside (s' >>= f') :=
  h.bind (.trivial s) fun a _ => hf a

theorem Agrees.mapM {f f' : α → Script β} {as : List α}
    (h : ∀ a ∈ as, (f a).Agrees table P inside (f' a)) :
    (as.mapM f).Agrees table P inside (as.mapM f') := by
  induction as with
  | nil =>
      rw [List.mapM_nil]
      exact .done []
  | cons a as ih =>
      rw [List.forall_mem_cons] at h
      rw [List.mapM_cons, List.mapM_cons]
      exact h.1.bind_any fun b => (ih h.2).bind_any fun bs => .done (b :: bs)

theorem Agrees.foldlM {f f' : β → α → Script β} {as : List α}
    (h : ∀ a ∈ as, ∀ b, (f b a).Agrees table P inside (f' b a)) (b : β) :
    (as.foldlM f b).Agrees table P inside (as.foldlM f' b) := by
  induction as generalizing b with
  | nil => exact .done b
  | cons a as ih =>
      rw [List.forall_mem_cons] at h
      rw [List.foldlM_cons, List.foldlM_cons]
      exact (h.1 b).bind_any fun b' => ih h.2 b'

end Script

namespace Sources

open Script

/-- The given expressions lead only to one another: to what they are written with, to the values
that names are bound to, and to the fields of the table constructors that types of the property
stand for. -/
structure Confines (src : Sources) (P : Ty → Prop) (inside : NodeId → Prop) : Prop where
  child {node : NodeId} {e : Expr} : inside node → src.chunk.get? node = some e →
    ∀ n ∈ e.children, inside n
  value : ∀ b ∈ src.chunk.bindings, ∀ n ∈ b.values, inside n
  field {c : ClassTy} {name : String} : P (.ofClass c) →
    ∀ n ∈ c.tableNode?.bind (src.chunk.tableField? · name), inside n

/-- On the given expressions the second chunk agrees with the first one, over the same index. -/
structure AgreesWith (src other : Sources) (P : Ty → Prop) (inside : NodeId → Prop) : Prop
    extends src.Confines P inside where
  index : other.index = src.index
  links : other.links = src.links
  node {n : NodeId} : inside n → other.chunk.get? n = src.chunk.get? n
  binding {n : NodeId} {name : String} : inside n → src.chunk.get? n = some (.ident name) →
    other.chunk.bindingFor? name = src.chunk.bindingFor? name
  sameField {c : ClassTy} {name : String} : P (.ofClass c) →
    c.tableNode?.bind (other.chunk.tableField? · name) =
      c.tableNode?.bind (src.chunk.tableField? · name)

variable {src other : Sources} {table : Option LinkTable} {P : Ty → Prop} {inside : NodeId → Prop}
  {ctx base : SearchContext}

theorem confines_of_validate (src : Sources) (h : src.chunk.validate = .ok src.chunk)
    (P : Ty → Prop) : src.Confines P (· < src.chunk.nodes.length) where
  child _ hget n hn := Chunk.validate_eq_ok_iff.1 h _ (Chunk.mem_references_of_child hget hn)
  value b hb n hn := Chunk.validate_eq_ok_iff.1 h _ (Chunk.mem_references_of_value hb hn)
  field := by
    intro d name _ value hvalue
    obtain ⟨node, -, hfield⟩ := Option.bind_eq_some_iff.1 hvalue
    obtain ⟨fields, hget, hmem⟩ := Chunk.exists_field_of_tableField? hfield
    exact Chunk.validate_eq_ok_iff.1 h _ (Chunk.mem_references_of_child hget hmem)

theorem Confines.agreesWith_self (h : src.Confines P inside) : src.AgreesWith src P inside :=
  { h with
    index := rfl
    links := rfl
    node := fun _ => rfl
    binding := fun _ _ => rfl
    sameField := fun _ => rfl }

theorem agrees_inferList {exprs : List NodeId} (h : ∀ e ∈ exprs, inside e) (ctx : SearchContext) :
    (inferList asking exprs ctx).Agrees table P inside (inferList asking exprs ctx) := by
  unfold inferList
  split
  · exact .done _
  next last hlast =>
    have hfirsts := fun e he => h e (List.dropLast_subset exprs he)
    refine Agrees.bind_any (.mapM fun e he => agrees_asking_infer (hfirsts e he) _) fun firsts => ?_
    refine (agrees_asking_infer (h last (List.mem_of_getLast? hlast)) _).bind_any fun rest => ?_
    exact .done _

theorem agrees_inferReturns {returns : List (List NodeId)} (h : ∀ e ∈ returns.flatten, inside e)
    (docReturns : Option TypeNode) (ctx : SearchContext) :
    (inferReturns asking returns docReturns ctx).Agrees table P inside
      (inferReturns asking returns docReturns ctx) := by
  unfold inferReturns
  split
  · exact agrees_asking_make _
  · split
    · exact .done _
    · refine Agrees.bind_any (.mapM fun exprs hexprs => agrees_inferList (fun e he => ?_) _)
        fun each => .done _
      exact h e (List.mem_flatten.2 ⟨exprs, hexprs, he⟩)

variable (h : src.AgreesWith other P inside)

include h

theorem AgreesWith.inferName {node : NodeId} {name : String} (hnode : inside node)
    (hname : src.chunk.get? node = some (.ident name)) (ctx : SearchContext) :
    (src.inferName asking name ctx).Agrees table P inside (other.inferName asking name ctx) := by
  unfold Sources.inferName
  rw [h.binding hnode hname]
  split
  · unfold globalClass
    rw [h.index]
    exact .done _
  next binding place hbinding =>
    split
    · exact agrees_asking_make _
    · split
      · exact .done _
      · split
        · exact .done _
        next value hvalue =>
          have hmem := Chunk.mem_bindings_of_bindingFor? hbinding
          have hinside := h.value binding hmem value (List.mem_of_getElem? hvalue)
          exact agrees_asking_infer hinside _

theorem AgreesWith.classMember {c : ClassTy} (hc : P (.ofClass c)) (name : String)
    (ctx : SearchContext) :
    (src.classMember asking c name ctx).Agrees table P inside
      (other.classMember asking c name ctx) := by
  unfold Sources.classMember
  rw [h.sameField hc, h.index, h.links]
  split
  next value hvalue =>
    exact (agrees_asking_infer (h.field hc value hvalue) _).bind_any fun t => .done _
  · split
    · exact .consult hc (.done _)
    · exact .done _

theorem AgreesWith.inferReceiver {callee : NodeId} (hcallee : inside callee) (colon : Bool)
    (ctx : SearchContext) :
    (src.inferReceiver asking callee colon ctx).Agrees table P inside
      (other.inferReceiver asking callee colon ctx) := by
  unfold Sources.inferReceiver
  rw [h.node hcallee]
  split
  next _ target name key hget =>
    rw [map_eq_pure_bind]
    have htarget := h.child hcallee hget target List.mem_cons_self
    exact (agrees_asking_infer htarget _).bind_any fun t => .done _
  · exact .done _

theorem AgreesWith.inferCall {callee : NodeId} (hcallee : inside callee) {args : List NodeId}
    (hargs : ∀ a ∈ args, inside a) (colon : Bool) (ctx : SearchContext) :
    (src.inferCall asking callee args colon ctx).Agrees table P inside
      (other.inferCall asking callee args colon ctx) := by
  refine (agrees_asking_infer hcallee _).bind_any fun calleeTy => ?_
  refine (h.inferReceiver hcallee colon ctx).bind_any fun receiver => ?_
  dsimp only
  split
  · exact .done _
  · refine Agrees.bind_any (.mapM fun a ha => agrees_asking_infer (hargs a ha) _) fun argTys => ?_
    exact .done _

variable (hkeeps : src.Keeps table P)

include hkeeps

theorem AgreesWith.partField {part : Ty} (hpart : P part) (name : Option String) (computed : Bool)
    (ctx : SearchContext) :
    (src.partField asking part name computed ctx).Agrees table P inside
      (other.partField asking part name computed ctx) := by
  unfold Sources.partField
  split
  · exact h.classMember hpart _ ctx
  · exact h.classMember (hkeeps.of_generic hpart).1 _ ctx
  · rw [h.index]
    exact .done _
  · exact .done _
  · exact .done _

theorem AgreesWith.inferIndex {target : NodeId} (htarget : inside target) (name : Option String)
    (computed : Bool) (ctx : SearchContext) :
    (src.inferIndex asking target name computed ctx).Agrees table P inside
      (other.inferIndex asking target name computed ctx) := by
  -- The parts that are searched are those of an answer, so they have the property.
  refine (agrees_asking_infer htarget _).bind (ensures_asking_infer _ _) fun parent hparent => ?_
  refine Agrees.foldlM (fun part hpart result => ?_) _
  have hpart := hkeeps.members hparent part hpart
  refine (h.partField hkeeps hpart name computed ctx).bind_any fun found => ?_
  cases found with
  | none => exact .done _
  | some t => exact .done _

theorem AgreesWith.inferExpr {node : NodeId} (hnode : inside node) (ctx : SearchContext) :
    (src.inferExpr asking node ctx).Agrees table P inside (other.inferExpr asking node ctx) := by
  unfold Sources.inferExpr
  rw [h.node hnode]
  split
  next => exact .done _
  next => exact .done _
  next hname => exact h.inferName hnode hname ctx
  next target name key hget =>
    have htarget := h.child hnode hget target List.mem_cons_self
    exact h.inferIndex hkeeps htarget name key.isSome ctx
  next callee args colon hget =>
    obtain ⟨hcallee, hargs⟩ := List.forall_mem_cons.1 (h.child hnode hget)
    exact h.inferCall hcallee hargs colon ctx
  next => exact agrees_asking_make _
  next params returns docReturns generics colon hget =>
    refine (agrees_inferReturns (h.child hnode hget) docReturns ctx).bind_any fun t => ?_
    refine Agrees.bind_any (.mapM fun p _ => ?_) fun ps => .done _
    exact (agrees_asking_make _).bind_any fun u => .done _

omit h hkeeps in
theorem agrees_answer {d : Demand} (hd : d.Within inside) :
    (d.answer asking).Agrees table P inside (d.answer asking) := by
  cases d with
  | one node ctx => exact agrees_asking_infer hd ctx
  | list exprs ctx => exact agrees_inferList hd ctx

/-- A run over one chunk is one over the other, and the class values whose links it asks for have
the property. -/
theorem Runs.of_agrees {s s' : Script Ty} {r r' : Request} {t : Ty} {js : List Moment}
    (hrun : src.Runs base s r t r' js) (hs : s.Agrees table P inside s') {Q : Ty → Prop}
    (htable : LinkTable.MayGrow r'.table table) (hensures : s.Ensures table P Q)
    (hr : ∀ e ∈ r.cache, P e.2) (hc : ∀ c ∈ r.consulted, P (.ofClass c)) :
    other.Runs base s' r t r' js ∧ ∀ c ∈ r'.consulted, P (.ofClass c) := by
  have hrules := fun q : Query => hkeeps.inferExpr q.node (q.context base)
  -- Every answer has the property, so the scripts go on agreeing: what is remembered has it, the
  -- unknown type has it, and what a body yields has it because the rules keep it.
  induction hrun generalizing s' Q with
  | done =>
      cases hs
      exact ⟨.done, hc⟩
  | made rest ih =>
      cases hs with
      | make hnext =>
          have hmade := Ty.madeIn_placeIn (rest.mayGrow.trans htable)
          obtain ⟨hother, hconsulted⟩ := ih (hnext _ hmade) htable (hensures _ hmade) hr hc
          exact ⟨.made hother, hconsulted⟩
  | consult rest ih =>
      cases hs with
      | consult hcons hnext =>
          have hnoted := List.forall_mem_append.2 ⟨hc, List.forall_mem_singleton.2 hcons⟩
          obtain ⟨hother, hconsulted⟩ := ih hnext htable hensures hr hnoted
          exact ⟨.consult hother, hconsulted⟩
  | recalled known rest ih =>
      cases hs with
      | ask hq hnext =>
          have ha := Request.of_remembered? hr known
          obtain ⟨hother, hconsulted⟩ := ih (hnext _ ha) htable (hensures _ ha) hr hc
          exact ⟨.recalled known hother, hconsulted⟩
  | cycle unknown inProgress rest ih =>
      cases hs with
      | ask hq hnext =>
          obtain ⟨hother, hconsulted⟩ :=
            ih (hnext _ hkeeps.unknown) htable (hensures _ hkeeps.unknown) hr hc
          exact ⟨.cycle unknown inProgress hother, hconsulted⟩
  | tooDeep unknown fresh full rest ih =>
      cases hs with
      | ask hq hnext =>
          obtain ⟨hother, hconsulted⟩ :=
            ih (hnext _ hkeeps.unknown) htable (hensures _ hkeeps.unknown) hr hc
          exact ⟨.tooDeep unknown fresh full hother, hconsulted⟩
  | @entered q next r a s inside t r' js unknown fresh room body rest ihBody ih =>
      cases hs with
      | ask hq hnext =>
          have hinsideTable : LinkTable.MayGrow s.table table :=
            Request.finish_table (r := s) ▸ rest.mayGrow.trans htable
          obtain ⟨hbody, hinside⟩ := ihBody (h.inferExpr hkeeps hq _) hinsideTable (hrules _) hr hc
          obtain ⟨ha, hcache⟩ := body.ensures hrules hkeeps.unknown hinsideTable (hrules _) hr
          obtain ⟨hother, hconsulted⟩ := ih (hnext _ ha) htable (hensures _ ha)
            (Request.forall_mem_cache_finish hcache ha) (by simpa using hinside)
          exact ⟨.entered unknown fresh room hbody hother, hconsulted⟩

theorem AgreesWith.answer {d : Demand} (hd : d.Within inside) {r : Request}
    (htable : LinkTable.MayGrow ((d.answer src.requesting).run r).2.table table)
    (hr : ∀ e ∈ r.cache, P e.2) (hc : ∀ c ∈ r.consulted, P (.ofClass c)) :
    (d.answer other.requesting).run r = (d.answer src.requesting).run r := by
  have hrun := src.runs_answer d r
  obtain ⟨hother, -⟩ := hrun.of_agrees h hkeeps (agrees_answer hd) htable (hkeeps.answer d) hr hc
  exact hother.run_answer .silent

end Sources

end LuaTypes
