import LuaTypes.Member.Walk
import LuaTypes.Proofs.Sessions
import LuaTypes.Proofs.Likeness
import Mathlib.Data.List.Forall2

namespace LuaTypes

namespace SymbolIndex

variable {ix : SymbolIndex} {ctx : SearchContext}

theorem probe_empty (scope : SearchScope) (accept : Accept) (memberName className : String) :
    ({} : SymbolIndex).probe scope accept memberName className = none := by
  unfold probe
  split <;> rfl

theorem search_empty (t : LinkTable) (accept : Accept) (c : ClassTy) (memberName : String)
    (ctx : SearchContext) : ({} : SymbolIndex).search t accept c memberName ctx = none := by
  unfold search
  split
  · rfl
  · rw [probe_empty]
    dsimp only
    split
    · rfl
    · rw [searchLinks_eq_findSome?]
      exact List.findSome?_eq_none_iff.2 fun name _ => probe_empty ..

theorem search_of_unavailable (h : ix.unavailable ctx = true) (t : LinkTable) (accept : Accept)
    (c : ClassTy) (memberName : String) : ix.search t accept c memberName ctx = none := by
  rw [search, if_pos h]

end SymbolIndex

/-- The same demand on the index under other conditions: it may be at hand or not, and another part
of it may be in view. -/
def SearchContext.under (ctx : SearchContext) (dumb : Bool) (scope : SearchScope) : SearchContext :=
  { ctx with dumb, scope }

/-- The sources of the second have the same chunk and an empty index. -/
structure Sources.SameWithoutIndex (src empty : Sources) : Prop where
  chunk : empty.chunk = src.chunk
  index : empty.index = {}

namespace Sources

open Script

variable {src empty : Sources} (hempty : src.SameWithoutIndex empty) {ctx : SearchContext}
  (hctx : src.index.unavailable ctx = true) (dumb : Bool) (scope : SearchScope)

omit hempty in
theorem alike_inferList (exprs : List NodeId) :
    (inferList asking exprs ctx).Alike Ty.Alike
      (inferList asking exprs (ctx.under dumb scope)) := by
  unfold inferList
  split
  · exact .done rfl
  · refine Alike.bind (.mapM fun e _ => .asking_infer e rfl) fun firsts firsts' hfirsts => ?_
    refine (Alike.asking_infer _ rfl).bind fun rest rest' hrest => ?_
    exact .done (.ofValues (List.rel_append hfirsts hrest.values))

omit hempty in
theorem alike_inferReturns (returns : List (List NodeId)) (docReturns : Option TypeNode) :
    (inferReturns asking returns docReturns ctx).Alike Ty.Alike
      (inferReturns asking returns docReturns (ctx.under dumb scope)) := by
  unfold inferReturns
  split
  · exact .asking_make rfl
  · split
    · exact .done rfl
    · exact Alike.bind (.mapM fun exprs _ => alike_inferList dumb scope exprs)
        fun _ _ heach => .done (.uniteAll heach)

include hempty

theorem alike_inferReceiver (callee : NodeId) (colon : Bool) :
    (src.inferReceiver asking callee colon ctx).Alike (Option.Rel Ty.Alike)
      (empty.inferReceiver asking callee colon (ctx.under dumb scope)) := by
  unfold inferReceiver
  rw [hempty.chunk]
  split
  · rw [map_eq_pure_bind, map_eq_pure_bind]
    exact (Alike.asking_infer _ rfl).bind fun _ _ h => .done (.some h)
  · exact .done .none

theorem alike_inferCall (callee : NodeId) (args : List NodeId) (colon : Bool) :
    (src.inferCall asking callee args colon ctx).Alike Ty.Alike
      (empty.inferCall asking callee args colon (ctx.under dumb scope)) := by
  refine (Alike.asking_infer _ rfl).bind fun t u h => ?_
  refine (alike_inferReceiver hempty dumb scope callee colon).bind
    fun receiver receiver' hreceiver => ?_
  dsimp only
  rw [h.isEmpty_functionsOf]
  split
  · exact .done rfl
  · refine Alike.bind (.mapM fun a _ => .asking_infer a rfl) fun args args' hargs => ?_
    have hreturns := h.returns hreceiver hargs colon
    change Script.Alike _ (.done (if ctx.allValues then _ else _))
      (.done (if ctx.allValues then _ else _))
    split
    · exact .done hreturns
    · exact .done (hreturns.valueAt ctx.position)

include hctx

theorem globalClass_of_unavailable (name : String) :
    src.globalClass name ctx = empty.globalClass name (ctx.under dumb scope) := by
  rw [globalClass, if_pos hctx, globalClass, hempty.index]
  split <;> rfl

theorem alike_inferName (name : String) :
    (src.inferName asking name ctx).Alike Ty.Alike
      (empty.inferName asking name (ctx.under dumb scope)) := by
  unfold inferName
  rw [hempty.chunk, src.globalClass_of_unavailable hempty hctx dumb scope]
  split
  · exact .done rfl
  · split
    · exact .asking_make rfl
    · split
      · exact .done rfl
      · split
        · exact .done rfl
        · exact .asking_infer _ rfl

theorem alike_classMember {c d : ClassTy} (h : c.bare = d.bare) (name : String) :
    (src.classMember asking c name ctx).Alike (Option.Rel Ty.Alike)
      (empty.classMember asking d name (ctx.under dumb scope)) := by
  have hquiet : src.index.consultsLinks .any c name ctx = false := by
    simp [SymbolIndex.consultsLinks, hctx]
  have hnode : d.tableNode? = c.tableNode? := by
    rw [ClassTy.tableNode?, ClassTy.tableNode?, ← ClassTy.bare_form, ← h, ClassTy.bare_form]
  unfold classMember
  rw [hempty.chunk, hempty.index, hnode]
  split
  · exact (Alike.asking_infer _ rfl).bind fun _ _ h => .done (.some h)
  · simp only [SymbolIndex.findIn, SymbolIndex.search_of_unavailable hctx,
      SymbolIndex.search_empty, hquiet, Bool.false_eq_true, if_false]
    split
    · exact .consult (.done .none)
    · exact .done .none

theorem alike_partField {part part' : Ty} (h : part.Alike part') (name : Option String)
    (computed : Bool) :
    (src.partField asking part name computed ctx).Alike (Option.Rel Ty.Alike)
      (empty.partField asking part' name computed (ctx.under dumb scope)) := by
  unfold partField
  split
  next c name =>
    obtain ⟨d, rfl, hd⟩ := h.of_ofClass
    exact alike_classMember hempty hctx dumb scope hd name
  next c args name =>
    obtain ⟨base', args', rfl, hbase⟩ := h.of_generic
    obtain ⟨d, rfl, hd⟩ := hbase.of_ofClass
    exact alike_classMember hempty hctx dumb scope hd name
  next name =>
    obtain rfl := h.of_primitive
    simp only [SymbolIndex.find, SymbolIndex.findIn, hempty.index,
      SymbolIndex.search_of_unavailable hctx, SymbolIndex.search_empty]
    exact .done .none
  next element =>
    obtain ⟨element', rfl, helement⟩ := h.of_array
    cases computed with
    | true => exact .done (.some helement)
    | false => exact .done .none
  next hclass hgeneric hstring harray =>
    split
    next d name =>
      obtain ⟨c, rfl, -⟩ := h.symm.of_ofClass
      exact absurd rfl (hclass c name rfl)
    next d args name =>
      obtain ⟨base, args', rfl, hbase⟩ := h.symm.of_generic
      obtain ⟨c, rfl, -⟩ := hbase.of_ofClass
      exact absurd rfl (hgeneric c args' name rfl)
    next name => exact absurd rfl (hstring name (h.symm.of_primitive))
    next element =>
      obtain ⟨element', rfl, -⟩ := h.symm.of_array
      exact absurd rfl (harray element' rfl)
    next => exact .done .none

theorem alike_inferIndex (target : NodeId) (name : Option String) (computed : Bool) :
    (src.inferIndex asking target name computed ctx).Alike Ty.Alike
      (empty.inferIndex asking target name computed (ctx.under dumb scope)) := by
  refine (Alike.asking_infer _ rfl).bind fun parent parent' hparent => ?_
  refine Alike.foldlM hparent.members (fun part part' hpart result result' hresult => ?_) rfl
  refine (alike_partField hempty hctx dumb scope hpart name computed).bind fun _ _ hfound => ?_
  cases hfound with
  | none => exact .done hresult
  | some h => exact .done (hresult.unite h)

theorem alike_inferExpr (node : NodeId) :
    (src.inferExpr asking node ctx).Alike Ty.Alike
      (empty.inferExpr asking node (ctx.under dumb scope)) := by
  unfold inferExpr
  rw [hempty.chunk]
  split
  · exact .done rfl
  · exact .done rfl
  · exact alike_inferName hempty hctx dumb scope _
  · exact alike_inferIndex hempty hctx dumb scope _ _ _
  · exact alike_inferCall hempty dumb scope _ _ _
  · exact .asking_make rfl
  next params returns docReturns generics colon _ =>
    refine (alike_inferReturns dumb scope returns docReturns).bind fun t u h => ?_
    refine Alike.bind (.mapM fun p _ => ?_) fun ps ps' hps => .done (.function hps h generics colon)
    exact (Alike.asking_make rfl).bind fun _ _ h => .done ⟨rfl, h⟩

theorem alike_script (q : Query) :
    (src.script ctx q).Alike Ty.Alike (empty.script (ctx.under dumb scope) q) := by
  have hq : src.index.unavailable (q.context ctx) = true := hctx
  exact alike_inferExpr hempty hq dumb scope q.node

end Sources

/-- The demand for the same values of the same expressions, on an index that is at hand or not and
of which another part may be in view. -/
def Demand.under (d : Demand) (dumb : Bool) (scope : SearchScope) : Demand :=
  match d with
  | .one node ctx => .one node (ctx.under dumb scope)
  | .list exprs ctx => .list exprs (ctx.under dumb scope)

/-- The same question, on whatever conditions. -/
def Demand.Same (d d' : Demand) : Prop :=
  ∃ dumb scope, d' = d.under dumb scope

/-- One demand is answered as over an empty index, and looks up no links. -/
theorem Sources.answer_of_unavailable {src empty : Sources} (hempty : src.SameWithoutIndex empty)
    {d : Demand} (hd : src.index.unavailable d.ctx = true) (dumb : Bool) (scope : SearchScope)
    {r u : Request} (hr : r.Alike u) :
    ∃ a r', (d.answer src.requesting).run r = (a, r') ∧
      a.Alike (((d.under dumb scope).answer empty.requesting).run u).1 ∧
      r'.Alike (((d.under dumb scope).answer empty.requesting).run u).2 ∧
      r'.consulted = r.consulted ∧ LinkTable.MayGrow r.table r'.table := by
  have hrun := empty.runs_answer (d.under dumb scope) u
  have hctx : (d.under dumb scope).ctx = d.ctx.under dumb scope := by cases d <;> rfl
  have hasking : (d.answer Script.asking).Alike Ty.Alike
      ((d.under dumb scope).answer Script.asking) := by
    cases d with
    | one node ctx => exact .asking_infer node rfl
    | list exprs ctx => exact alike_inferList dumb scope exprs
  rw [hctx] at hrun
  obtain ⟨a, r', js, hruns, ha, hr', hconsulted⟩ :=
    hrun.alike (alike_script hempty hd dumb scope) hasking hr
  exact ⟨a, r', hruns.run_answer .silent, ha, hr', hconsulted, hruns.mayGrow⟩

/-- What is seen, but for the places of the class values in it. -/
def Observation.bare (o : Observation) : Observation :=
  { o with answer := o.answer.bare }

namespace RequestStep

def demands (steps : List RequestStep) : List Demand :=
  steps.filterMap fun
    | .demand d => some d
    | .setDumb _ => none

/-- At every demand either the context or the index says that the index is not at hand. -/
def Unavailable (ix : SymbolIndex) : List RequestStep → Prop
  | [] => True
  | .demand d :: steps => ix.unavailable d.ctx = true ∧ Unavailable ix steps
  | .setDumb dumb :: steps => Unavailable { ix with dumb } steps

end RequestStep

namespace Workspace

variable {w : Workspace}

theorem demand_of_unavailable (chunk : Chunk) {d : Demand}
    (hd : w.index.unavailable d.ctx = true) (dumb : Bool) (scope : SearchScope)
    (links : LinkTable) {r u : Request} (hr : r.Alike u) (hnew : r.consulted = []) :
    ∃ a r' b u', (d.answer (w.sources chunk).requesting).run (r.onTable w.links) = (a, r') ∧
      ((d.under dumb scope).answer (sources { index := {}, links } chunk).requesting).run
        (u.onTable links) = (b, u') ∧
      a.Alike b ∧ r'.Alike u' ∧ (w.takeBack r').index = w.index ∧
      w.links.Grows (w.takeBack r').links := by
  let empty : Sources := sources { index := {}, links } chunk
  have hempty : (w.sources chunk).SameWithoutIndex empty := ⟨rfl, rfl⟩
  have hon : (r.onTable w.links).Alike (u.onTable links) := ⟨hr.guard, hr.cache, hr.cut⟩
  obtain ⟨a, r', hanswer, ha, hr', hconsulted, hgrows⟩ :=
    Sources.answer_of_unavailable hempty hd dumb scope hon
  refine ⟨a, r', _, _, hanswer, rfl, ha, hr', rfl, ?_⟩
  rw [Request.onTable, Request.onTable] at *
  cases htable : r'.table with
  | none => rw [htable] at hgrows; cases hgrows
  | some table =>
      rw [htable] at hgrows
      cases hgrows with
      | some hgrows =>
          rw [takeBack, htable, hconsulted.trans hnew]
          exact hgrows

theorem observe_of_unavailable (chunk : Chunk) (links : LinkTable) {steps : List RequestStep}
    {demands : List Demand} {r u : Request} (haway : RequestStep.Unavailable w.index steps)
    (hsame : List.Forall₂ Demand.Same (RequestStep.demands steps) demands) (hr : r.Alike u)
    (hnew : r.consulted = []) :
    ((observe chunk steps r).run w).1.map Observation.bare =
        ((observe chunk (demands.map .demand) u).run { index := {}, links }).1.map
          Observation.bare ∧
      w.links.Grows ((observe chunk steps r).run w).2.links := by
  induction steps generalizing w links demands r u with
  | nil =>
      cases hsame
      exact ⟨rfl, .refl w.links⟩
  | cons step steps ih =>
      cases step with
      | setDumb dumb =>
          exact ih (w := { w with index := { w.index with dumb } }) links haway hsame hr hnew
      | demand d =>
          obtain ⟨hd, haway⟩ := haway
          change List.Forall₂ _ (d :: RequestStep.demands steps) _ at hsame
          obtain ⟨_, rest, ⟨dumb, scope, rfl⟩, hrest, rfl⟩ := List.forall₂_cons_left_iff.1 hsame
          obtain ⟨a, r', b, u', hrun, hempty, ha, hr', hindex, hgrows⟩ :=
            demand_of_unavailable chunk hd dumb scope links hr hnew
          have hput : r'.putAside.Alike u'.putAside := ⟨hr'.guard, hr'.cache, hr'.cut⟩
          obtain ⟨hobserved, hlinks⟩ :=
            ih (w := w.takeBack r') (takeBack { index := {}, links } u').links haway hrest hput rfl
          rw [List.map_cons, run_observe_demand hrun, run_observe_demand hempty]
          refine ⟨?_, hgrows.trans hlinks⟩
          have hfirst : Observation.bare ⟨a, r'.cached, r'.denied⟩ =
              Observation.bare ⟨b, u'.cached, u'.denied⟩ := by
            rw [Observation.bare, Observation.bare, hr'.cached_eq, hr'.denied_eq]
            exact congrArg (Observation.mk · u'.cached u'.denied) ha
          exact congrArg₂ List.cons hfirst hobserved

/-- While the index is not at hand, a request is answered, remembers and refuses as over the empty
index, whatever becomes of the index meanwhile. Class values that it makes have places of their own
in either table; no link of these or of any other class value is filled in. -/
theorem unavailable_index_is_empty (chunk : Chunk) (maxDepth : Nat) (w : Workspace)
    (links : LinkTable) (steps : List RequestStep) (demands : List Demand)
    (haway : RequestStep.Unavailable w.index steps)
    (hsame : List.Forall₂ Demand.Same (RequestStep.demands steps) demands) :
    ((observe chunk steps (.start maxDepth)).run w).1.map Observation.bare =
        ((observe chunk (demands.map .demand) (.start maxDepth)).run
          { index := {}, links }).1.map Observation.bare ∧
      w.links.Grows ((observe chunk steps (.start maxDepth)).run w).2.links :=
  observe_of_unavailable chunk links haway hsame (.refl _) rfl

theorem unavailable_index_is_empty_for_player :
    let chunk : Chunk :=
      { nodes := [.ident "player", .index 0 (some "hp") none, .ident "Player"]
        bindings := [{ names := ["player"], docTypes := [some (.named "Player" [] false)] }] }
    let hp : MemberDecl :=
      { className := "Player", name := "hp", kind := .docField, ty := .primitive .number }
    let w : Workspace :=
      { index := { classes := [.named "Player"], groups := [("Player", [hp])] }
        links := { slots := [{ className := "Player" }] } }
    let steps : List RequestStep :=
      [.demand (.one 1 { dumb := true }), .setDumb true, .demand (.one 1 {}),
        .demand (.list [2, 1] {})]
    let demands : List Demand := [.one 1 {}, .one 1 {}, .list [2, 1] {}]
    RequestStep.Unavailable w.index steps ∧
      List.Forall₂ Demand.Same (RequestStep.demands steps) demands ∧
      ((observe chunk steps (.start 64)).run w).1.map Observation.bare =
        ((observe chunk (demands.map .demand) (.start 64)).run
          { index := {}, links := {} }).1.map Observation.bare ∧
      w.links.Grows ((observe chunk steps (.start 64)).run w).2.links := by
  intro chunk hp w steps demands
  have haway : RequestStep.Unavailable w.index steps := ⟨rfl, rfl, rfl, trivial⟩
  have hsame : List.Forall₂ Demand.Same (RequestStep.demands steps) demands :=
    .cons ⟨false, .all, rfl⟩ (.cons ⟨false, .all, rfl⟩ (.cons ⟨false, .all, rfl⟩ .nil))
  exact ⟨haway, hsame, unavailable_index_is_empty chunk 64 w {} steps demands haway hsame⟩

end Workspace

end LuaTypes
