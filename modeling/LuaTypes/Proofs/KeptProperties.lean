import LuaTypes.Proofs.LinkPlaces
import LuaTypes.Proofs.MemberListing
import LuaTypes.Proofs.PlainRefinement
import LuaTypes.Proofs.TypeComposition

/-!
Properties of types that inference keeps. If the documents and the index go in with such a property
and every question is answered with it, each rule yields it; so a request that remembers nothing
else goes on like that, whatever it is asked and wherever it is refused entry.
-/

namespace LuaTypes

namespace Script

variable {α β : Type} {table : Option LinkTable} {P : Ty → Prop} {R : α → Prop} {Q : β → Prop}

/-- If the questions are answered with types of the first property, and the types that are built get
their places in the table, the result has the second property. -/
def Ensures (table : Option LinkTable) (P : Ty → Prop) (Q : α → Prop) : Script α → Prop
  | .done a => Q a
  | .ask _ next => ∀ t, P t → (next t).Ensures table P Q
  | .make t next => ∀ u, t.MadeIn table u → (next u).Ensures table P Q
  | .consult _ next => next.Ensures table P Q

theorem ensures_asking_infer (node : NodeId) (ctx : SearchContext) :
    (asking.infer node ctx).Ensures table P P :=
  fun _ ht => ht

theorem ensures_asking_make {t : Ty} (h : ∀ u, t.MadeIn table u → P u) :
    (asking.make t).Ensures table P P :=
  h

theorem Ensures.bind {s : Script α} {f : α → Script β} (h : s.Ensures table P R)
    (hf : ∀ a, R a → (f a).Ensures table P Q) : (s >>= f).Ensures table P Q := by
  induction s with
  | done a => exact hf a h
  | ask q next ih => exact fun t ht => ih t (h t ht)
  | make t next ih => exact fun u hu => ih u (h u hu)
  | consult c next ih => exact ih h

theorem Ensures.map {s : Script α} {f : α → β} (h : s.Ensures table P R) (hf : ∀ a, R a → Q (f a)) :
    (f <$> s).Ensures table P Q := by
  rw [map_eq_pure_bind]
  exact h.bind hf

theorem Ensures.mapM {f : α → Script β} {as : List α} (h : ∀ a ∈ as, (f a).Ensures table P Q) :
    (as.mapM f).Ensures table P fun bs => ∀ b ∈ bs, Q b := by
  induction as with
  | nil =>
      rw [List.mapM_nil]
      exact fun b hb => absurd hb List.not_mem_nil
  | cons a as ih =>
      rw [List.forall_mem_cons] at h
      rw [List.mapM_cons]
      refine h.1.bind fun b hb => (ih h.2).bind fun bs hbs => ?_
      exact List.forall_mem_cons.2 ⟨hb, hbs⟩

theorem Ensures.foldlM {f : β → α → Script β} {as : List α} {b : β} (hb : Q b)
    (h : ∀ a ∈ as, ∀ b, Q b → (f b a).Ensures table P Q) : (as.foldlM f b).Ensures table P Q := by
  induction as generalizing b with
  | nil => exact hb
  | cons a as ih =>
      rw [List.forall_mem_cons] at h
      rw [List.foldlM_cons]
      exact (h.1 b hb).bind fun b' hb' => ih hb' h.2

theorem Ensures.of_run {src : Sources} {base : SearchContext} {fuel : Nat} {s : Script α} {a : α}
    (h : s.Ensures none P R)
    (heval : ∀ node ctx t, src.inferPlain fuel node ctx = some t → P t)
    (ha : s.run base (src.plain fuel) = some a) : R a := by
  induction s with
  | done b =>
      obtain rfl := Option.some.inj ha
      exact h
  | ask q next ih =>
      obtain ⟨t, ht, hnext⟩ := Option.bind_eq_some_iff.1 ha
      exact ih t (h t (heval _ _ t ht)) hnext
  | make t next ih => exact ih t (h t rfl) ha
  | consult c next ih => exact ih h ha

end Script

namespace Request

variable {P : Ty → Prop} {r : Request} {q : Query} {t : Ty}

theorem of_remembered? (hr : ∀ e ∈ r.cache, P e.2) (h : r.remembered? q = some t) : P t := by
  obtain ⟨before, after, hcache, -⟩ := List.lookup_eq_some_iff.1 h
  exact hr (q, t) (by simp [hcache])

theorem forall_mem_cache_finish (hr : ∀ e ∈ r.cache, P e.2) (ht : P t) {depth : Nat} :
    ∀ e ∈ (r.finish q depth t).cache, P e.2 := by
  cases hcut : r.cut.any (· < depth) with
  | true =>
      rw [finish_of_cut hcut]
      exact hr
  | false =>
      rw [finish_of_whole hcut]
      exact List.forall_mem_append.2 ⟨hr, List.forall_mem_singleton.2 ht⟩

end Request

namespace Sources

open Script

/-- A property that comes down to the parts of a type, and that everything has that a rule starts
from: what is written in the chunk, its table constructors, and what the index declares. -/
structure Keeps (src : Sources) (table : Option LinkTable) (P : Ty → Prop) : Prop
    extends Ty.Compositional P where
  written (n : TypeNode) {t : Ty} : n.toTy.MadeIn table t → P t
  constructor {node : NodeId} {fields : List TableField} {t : Ty} :
    src.chunk.get? node = some (.table fields) →
      (Ty.ofClass { form := .tableLiteral node }).MadeIn table t → P t
  global : ∀ d ∈ src.index.classes,
    P (.ofClass { form := .global d.name, source := .given d.toClassLinks })
  member : ∀ g ∈ src.index.groups, ∀ d ∈ g.2, P d.ty

variable {src : Sources} {P : Ty → Prop} {ctx base : SearchContext}

section Rules

variable {table : Option LinkTable} (h : src.Keeps table P)

include h

theorem Keeps.globalClass (name : String) (ctx : SearchContext) : P (src.globalClass name ctx) := by
  unfold Sources.globalClass
  split
  · exact h.unknown
  · split
    next d hdecl =>
      obtain ⟨hd, rfl⟩ := SymbolIndex.mem_classes_of_declaration? hdecl
      exact h.global d hd
    next => exact h.unknown

theorem Keeps.of_search {t : LinkTable} {accept : Accept} {c : ClassTy} {memberName : String} :
    ∀ u ∈ (src.index.search t accept c memberName ctx).map MemberDecl.ty, P u := by
  intro u hu
  obtain ⟨d, hd, rfl⟩ := Option.map_eq_some_iff.1 hu
  obtain ⟨className, members, hgroup, hmem⟩ := SymbolIndex.exists_group_of_search hd
  exact h.member _ hgroup d hmem

theorem Keeps.inferList (exprs : List NodeId) (ctx : SearchContext) :
    (inferList asking exprs ctx).Ensures table P P := by
  unfold Sources.inferList
  split
  · exact h.void
  · refine (Ensures.mapM fun e _ => ensures_asking_infer e _).bind fun firsts hfirsts =>
      (ensures_asking_infer _ _).bind fun rest hrest => ?_
    exact h.ofValues (List.forall_mem_append.2 ⟨hfirsts, h.values hrest⟩)

theorem Keeps.inferName (name : String) (ctx : SearchContext) :
    (src.inferName asking name ctx).Ensures table P P := by
  unfold Sources.inferName
  split
  · exact h.globalClass name ctx
  · split
    · exact ensures_asking_make fun t ht => h.written _ ht
    · split
      · exact h.unknown
      · split
        · exact h.unknown
        · exact ensures_asking_infer _ _

theorem Keeps.classMember (c : ClassTy) (name : String) (ctx : SearchContext) :
    (src.classMember asking c name ctx).Ensures table P fun found => ∀ t ∈ found, P t := by
  unfold Sources.classMember
  split
  · exact (ensures_asking_infer _ _).bind fun t ht u hu => Option.some.inj hu ▸ ht
  · split
    · exact h.of_search
    · exact h.of_search

theorem Keeps.partField {part : Ty} (hpart : P part) (name : Option String) (computed : Bool)
    (ctx : SearchContext) :
    (src.partField asking part name computed ctx).Ensures table P
      fun found => ∀ t ∈ found, P t := by
  unfold Sources.partField
  split
  · exact h.classMember _ _ ctx
  · exact h.classMember _ _ ctx
  · exact h.of_search
  · cases computed with
    | true => exact fun t ht => Option.some.inj ht ▸ h.array_iff.1 hpart
    | false => exact fun t ht => absurd ht (Option.not_mem_none t)
  · exact fun t ht => absurd ht (Option.not_mem_none t)

theorem Keeps.inferIndex (target : NodeId) (name : Option String) (computed : Bool)
    (ctx : SearchContext) : (src.inferIndex asking target name computed ctx).Ensures table P P := by
  refine (ensures_asking_infer _ _).bind fun parent hparent => ?_
  refine Ensures.foldlM h.unknown fun part hpart result hresult => ?_
  have hpart := h.members hparent part hpart
  refine (h.partField hpart name computed ctx).bind fun found hfound => ?_
  cases found with
  | none => exact hresult
  | some t => exact h.unite hresult (hfound t rfl)

omit h in
theorem ensures_inferReceiver (callee : NodeId) (colon : Bool) (ctx : SearchContext) :
    (src.inferReceiver asking callee colon ctx).Ensures table P
      fun receiver => ∀ t ∈ receiver, P t := by
  unfold inferReceiver
  split
  · exact (ensures_asking_infer _ _).map fun t ht u hu => Option.some.inj hu ▸ ht
  · exact fun t ht => absurd ht (Option.not_mem_none t)

theorem Keeps.returns {t : Ty} (ht : P t) : ∀ s ∈ functionsOf t, P s.returns := by
  intro s hs
  obtain ⟨m, hm, hsome⟩ := List.mem_filterMap.1 hs
  have hmember := h.members ht m hm
  cases m with
  | function u =>
      obtain rfl := Option.some.inj hsome
      exact (h.function_iff.1 hmember).2.1
  | _ => cases hsome

theorem Keeps.inferCall (callee : NodeId) (args : List NodeId) (colon : Bool)
    (ctx : SearchContext) : (src.inferCall asking callee args colon ctx).Ensures table P P := by
  refine (ensures_asking_infer _ _).bind fun calleeTy hcallee => ?_
  refine (ensures_inferReceiver callee colon ctx).bind fun receiver hreceiver => ?_
  dsimp only
  split
  · exact h.unknown
  · refine (Ensures.mapM fun a _ => ensures_asking_infer a _).bind fun argTys hargs => ?_
    have hreturns : P (Ty.uniteAll ((functionsOf calleeTy).map
        fun s => s.instantiate receiver argTys colon)) := by
      refine h.uniteAll (List.forall_mem_map.2 fun s hs => ?_)
      exact h.instantiate (h.returns hcallee s hs) hreceiver hargs colon
    split
    · exact hreturns
    · exact h.valueAt hreturns ctx.position

theorem Keeps.inferReturns (returns : List (List NodeId)) (docReturns : Option TypeNode)
    (ctx : SearchContext) : (inferReturns asking returns docReturns ctx).Ensures table P P := by
  unfold Sources.inferReturns
  split
  · exact ensures_asking_make fun t ht => h.written _ ht
  · split
    · exact h.void
    · refine (Ensures.mapM fun exprs _ => h.inferList exprs ctx).bind fun each heach => ?_
      exact h.uniteAll heach

theorem Keeps.inferParam (p : ParamDecl) :
    (do return (p.name, ← asking.make ((p.node.map TypeNode.toTy).getD .unknown)) :
      Script (String × Ty)).Ensures table P fun x => P x.2 := by
  refine (ensures_asking_make fun t ht => ?_).bind fun t ht => ht
  cases hnode : p.node with
  | none =>
      rw [hnode] at ht
      exact ht.unknown ▸ h.unknown
  | some n =>
      rw [hnode] at ht
      exact h.written n ht

/-- Each rule yields the property if the questions it asks are answered with it. -/
theorem Keeps.inferExpr (node : NodeId) (ctx : SearchContext) :
    (src.inferExpr asking node ctx).Ensures table P P := by
  unfold Sources.inferExpr
  split
  next => exact h.unknown
  next value _ =>
    cases value with
    | nil => exact h.nil
    | boolean => exact h.primitive _
    | number => exact h.primitive _
    | string => exact h.primitive _
  next => exact h.inferName _ ctx
  next => exact h.inferIndex _ _ _ ctx
  next => exact h.inferCall _ _ _ ctx
  next htable => exact ensures_asking_make fun t ht => h.constructor htable ht
  next params returns docReturns generics colon _ =>
    refine (h.inferReturns returns docReturns ctx).bind fun t ht => ?_
    refine (Ensures.mapM fun p _ => h.inferParam p).bind fun ps hps => ?_
    exact h.function_iff.2 ⟨hps, ht, nofun⟩

theorem Keeps.answer (d : Demand) : (d.answer asking).Ensures table P P := by
  cases d with
  | one node ctx => exact ensures_asking_infer node ctx
  | list exprs ctx => exact h.inferList exprs ctx

omit h in
/-- What every rule keeps is kept by a run, if it holds of the unknown type: the type is all that
may be missing where entry is refused. -/
theorem Runs.ensures {P Q : Ty → Prop} (hrules : ∀ q, (src.script base q).Ensures table P P)
    (hunknown : P .unknown) {s : Script Ty} {r r' : Request} {t : Ty} {js : List Moment}
    (h : src.Runs base s r t r' js) (htable : LinkTable.MayGrow r'.table table)
    (hs : s.Ensures table P Q) (hr : ∀ e ∈ r.cache, P e.2) :
    Q t ∧ ∀ e ∈ r'.cache, P e.2 := by
  induction h generalizing Q with
  | done => exact ⟨hs, hr⟩
  | made rest ih => exact ih htable (hs _ (Ty.madeIn_placeIn (rest.mayGrow.trans htable))) hr
  | consult rest ih => exact ih htable hs hr
  | recalled known rest ih => exact ih htable (hs _ (Request.of_remembered? hr known)) hr
  | cycle unknown inProgress rest ih => exact ih htable (hs _ hunknown) hr
  | tooDeep unknown fresh full rest ih => exact ih htable (hs _ hunknown) hr
  | @entered q next r a s inside t r' js unknown fresh room body rest ihBody ih =>
      have hinsideTable : LinkTable.MayGrow s.table table :=
        Request.finish_table (r := s) ▸ rest.mayGrow.trans htable
      obtain ⟨ha, hinside⟩ := ihBody hinsideTable (hrules q) hr
      exact ih htable (hs a ha) (Request.forall_mem_cache_finish hinside ha)

theorem Serves.keeps {demands : List Demand} {r r' : Request} {ts : List Ty} {js : List Moment}
    (hserves : src.Serves demands r ts r' js) (htable : LinkTable.MayGrow r'.table table)
    (hr : ∀ e ∈ r.cache, P e.2) : (∀ t ∈ ts, P t) ∧ ∀ e ∈ r'.cache, P e.2 := by
  induction hserves with
  | nil => exact ⟨fun t ht => absurd ht List.not_mem_nil, hr⟩
  | @cons d ds r t r₁ js ts r' js' first rest ih =>
      obtain ⟨ht, hr₁⟩ := first.ensures (fun q => h.inferExpr q.node _) h.unknown
        (rest.mayGrow.trans htable) (h.answer d) hr
      obtain ⟨hts, hr'⟩ := ih htable hr₁
      exact ⟨List.forall_mem_cons.2 ⟨ht, hts⟩, hr'⟩

end Rules

section NoTable

variable (h : src.Keeps none P)

include h

theorem Keeps.inferAlone (maxDepth : Nat) (node : NodeId) (ctx : SearchContext) :
    P (src.inferAlone maxDepth node ctx).1 := by
  have hrun := src.runs_infer node ctx (.start maxDepth)
  refine (hrun.ensures (fun q => h.inferExpr q.node _) h.unknown ?_ (fun _ ht => ht) ?_).1
  · rw [hrun.no_table rfl]
    exact .none
  · exact fun _ he => absurd he List.not_mem_nil

theorem Keeps.inferPlain {fuel : Nat} {node : NodeId} {t : Ty}
    (ht : src.inferPlain fuel node ctx = some t) : P t := by
  induction fuel generalizing node ctx t with
  | zero => cases ht
  | succ fuel ih =>
      have hrun : (src.inferExpr asking node ctx).run ctx (src.plain fuel) = some t := by
        rw [src.run_inferExpr _ (.refl ctx)]
        exact ht
      exact (h.inferExpr node ctx).of_run (fun node ctx t ht => ih ht) hrun

theorem Meets.keeps {d : Demand} {t : Ty} (hmeets : src.Meets d t) : P t := by
  obtain ⟨fuel, hfuel⟩ := hmeets
  rw [← d.run_answer _ (.refl _)] at hfuel
  exact (h.answer d).of_run (fun node ctx t ht => h.inferPlain ht) hfuel

end NoTable

theorem keeps_eachClass {table : Option LinkTable} {p : ClassTy → Prop}
    (hbare : ∀ c, p c.bare ↔ p c)
    (hwritten : ∀ form : ClassForm, (∀ node, form ≠ .tableLiteral node) → p { form })
    (htable : ∀ node fields, src.chunk.get? node = some (.table fields) →
      p { form := .tableLiteral node })
    (hglobal : ∀ d ∈ src.index.classes,
      p { form := .global d.name, source := .given d.toClassLinks })
    (hmember : src.index.EachClass p) : src.Keeps table (Ty.EachClass p) :=
  { Ty.compositional_eachClass with
    written := fun n _ ht => ht.eachClass hbare (TypeNode.eachClass_toTy hwritten n)
    constructor := fun hget ht =>
      ht.eachClass hbare (Ty.eachClass_ofClass_iff.2 (htable _ _ hget))
    global := fun d hd => Ty.eachClass_ofClass_iff.2 (hglobal d hd)
    member := hmember }

end Sources

end LuaTypes
