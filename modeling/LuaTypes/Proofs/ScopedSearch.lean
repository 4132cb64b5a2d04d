import LuaTypes.Proofs.IndexLog
import LuaTypes.Proofs.Sessions
import LuaTypes.Proofs.Runs
import LuaTypes.Proofs.SameClasses

namespace LuaTypes

namespace SymbolIndex

/-- The members of a class that a scope shows of the index, dumb or not. -/
def shown (ix : SymbolIndex) (className : String) (scope : SearchScope) : List MemberDecl :=
  ((ix.groups.lookup className).getD []).filter fun d => scope.contains d.file

/-- The index less the members outside of some files. -/
def restrictTo (ix : SymbolIndex) (files : List String) : SymbolIndex :=
  let inFiles (d : MemberDecl) : Bool := (SearchScope.files files).contains d.file
  { ix with groups := ix.groups.map fun g => (g.1, g.2.filter inFiles) }

theorem lookup_restrictTo (ix : SymbolIndex) (files : List String) (className : String) :
    (ix.restrictTo files).groups.lookup className =
      (ix.groups.lookup className).map
        (List.filter fun d => (SearchScope.files files).contains d.file) :=
  ix.lookup_keepMembers _ className

/-- What a scope shows of an index is what another scope shows of another one. -/
structure LooksLike (ix : SymbolIndex) (scope : SearchScope) (other : SymbolIndex)
    (view : SearchScope) : Prop where
  dumb : other.dumb = ix.dumb
  classes : other.classes = ix.classes
  shown : ∀ className, other.shown className view = ix.shown className scope

theorem looksLike_restrictTo (ix : SymbolIndex) (files : List String) :
    ix.LooksLike (.files files) (ix.restrictTo files) .all where
  dumb := rfl
  classes := rfl
  shown className := by
    have hall (members : List MemberDecl) :
        (members.filter fun d => SearchScope.all.contains d.file) = members :=
      List.filter_eq_self.2 fun _ _ => rfl
    rw [SymbolIndex.shown, hall, lookup_restrictTo, SymbolIndex.shown]
    cases ix.groups.lookup className <;> rfl

theorem looksLike_insertMember (ix : SymbolIndex) {scope : SearchScope} {d : MemberDecl}
    (hhidden : scope.contains d.file = false) :
    ix.LooksLike scope { ix with groups := insertMember d ix.groups } scope where
  dumb := rfl
  classes := rfl
  shown className := by
    rw [SymbolIndex.shown, lookup_insertMember, List.filter_append, SymbolIndex.shown]
    split <;> simp [hhidden]

end SymbolIndex

/-- The same wish, on what another scope shows. -/
def SearchContext.inScope (ctx : SearchContext) (scope : SearchScope) : SearchContext :=
  { ctx with scope }

namespace SymbolIndex.LooksLike

variable {ix other : SymbolIndex} {scope view : SearchScope} (h : ix.LooksLike scope other view)

include h

theorem withDumb (dumb : Bool) :
    ({ ix with dumb } : SymbolIndex).LooksLike scope { other with dumb } view :=
  ⟨rfl, h.classes, h.shown⟩

theorem sameClasses : ix.SameClasses other :=
  ⟨h.dumb, h.classes⟩

theorem unavailable_eq (ctx : SearchContext) :
    other.unavailable (ctx.inScope view) = ix.unavailable (ctx.inScope scope) :=
  h.sameClasses.unavailable_eq rfl

theorem settleAll_eq (t : LinkTable) (cs : List ClassTy) :
    t.settleAll other cs = t.settleAll ix cs := by
  have hsettle : (fun t c => LinkTable.settle t other c) = fun t c => t.settle ix c := by
    funext t c
    simp only [LinkTable.settle, h.sameClasses.links?_eq]
  exact congrArg (fun settle => cs.foldl settle t) hsettle

theorem group_eq (className : String) : other.group className view = ix.group className scope := by
  have hshown := h.shown className
  simp only [SymbolIndex.shown] at hshown
  simp only [group, h.dumb, hshown]

theorem membersAt_eq (key : MemberKey) : other.membersAt key view = ix.membersAt key scope := by
  simp only [membersAt, h.group_eq]

theorem lookup_eq (key : String) : other.lookup key view = ix.lookup key scope := by
  simp only [lookup, h.membersAt_eq, h.group_eq]

theorem probe_eq (accept : Accept) (memberName className : String) :
    other.probe view accept memberName className =
      ix.probe scope accept memberName className := by
  simp only [probe, h.membersAt_eq]

theorem collect_eq (found : List MemberDecl) (className : String) :
    other.collect view found className = ix.collect scope found className := by
  simp only [collect, h.lookup_eq]

theorem search_eq (t : LinkTable) (accept : Accept) (c : ClassTy) (memberName : String)
    (ctx : SearchContext) :
    other.search t accept c memberName (ctx.inScope view) =
      ix.search t accept c memberName (ctx.inScope scope) := by
  refine h.sameClasses.search_eq ?_ (fun className => ?_) t c
  · rfl
  · exact h.probe_eq accept memberName className

theorem findShallow_eq (className memberName : String) (ctx : SearchContext) :
    other.findShallow className memberName (ctx.inScope view) =
      ix.findShallow className memberName (ctx.inScope scope) := by
  rw [findShallow, findShallow, h.unavailable_eq]
  exact congrArg (fun found => if ix.unavailable (ctx.inScope scope) then none else found)
    (h.probe_eq .any memberName className)

theorem membersOf_eq (t : LinkTable) (c : ClassTy) (ctx : SearchContext) :
    other.membersOf t c (ctx.inScope view) = ix.membersOf t c (ctx.inScope scope) := by
  have hboth := h.unavailable_eq ctx
  have hcollect := funext fun found => funext (h.collect_eq found)
  cases haway : ix.unavailable (ctx.inScope scope) with
  | true => rw [membersOf, membersOf, if_pos haway, if_pos (hboth.trans haway)]
  | false =>
      rw [membersOf_eq_foldl_walk haway, membersOf_eq_foldl_walk (hboth.trans haway),
        h.sameClasses.walk_eq]
      exact congrArg (fun collect => (ix.walk t c).foldl collect []) hcollect

theorem consultsLinks_eq (accept : Accept) (c : ClassTy) (memberName : String)
    (ctx : SearchContext) :
    other.consultsLinks accept c memberName (ctx.inScope view) =
      ix.consultsLinks accept c memberName (ctx.inScope scope) := by
  rw [consultsLinks, consultsLinks, h.unavailable_eq]
  exact congrArg (fun found => !ix.unavailable (ctx.inScope scope) && Option.isNone found)
    (h.probe_eq accept memberName c.name)

end SymbolIndex.LooksLike

/-- The same chunk with the same links, and indexes that look alike. -/
structure Sources.LooksLike (src : Sources) (scope : SearchScope) (other : Sources)
    (view : SearchScope) : Prop where
  chunk : other.chunk = src.chunk
  links : other.links = src.links
  index : src.index.LooksLike scope other.index view

/-- The same demand, on what another scope shows. -/
def Demand.inScope (scope : SearchScope) : Demand → Demand
  | .one node ctx => .one node (ctx.inScope scope)
  | .list exprs ctx => .list exprs (ctx.inScope scope)

namespace Sources.LooksLike

open Script

variable {src other : Sources} {scope view : SearchScope} (h : src.LooksLike scope other view)
  (ctx : SearchContext)

include h

theorem globalClass_eq (name : String) :
    other.globalClass name (ctx.inScope view) = src.globalClass name (ctx.inScope scope) := by
  simp only [globalClass, h.index.unavailable_eq, h.index.sameClasses.declaration?_eq]

theorem inferName_eq (name : String) :
    other.inferName asking name (ctx.inScope view) =
      src.inferName asking name (ctx.inScope scope) := by
  unfold inferName
  rw [h.chunk, h.globalClass_eq]
  rfl

theorem classMember_eq (c : ClassTy) (name : String) :
    other.classMember asking c name (ctx.inScope view) =
      src.classMember asking c name (ctx.inScope scope) := by
  unfold classMember
  rw [h.chunk]
  split
  · rfl
  · simp only [SymbolIndex.findIn, h.links, h.index.consultsLinks_eq, h.index.search_eq]

theorem partField_eq (part : Ty) (name : Option String) (computed : Bool) :
    other.partField asking part name computed (ctx.inScope view) =
      src.partField asking part name computed (ctx.inScope scope) := by
  unfold partField
  split
  · exact h.classMember_eq ctx _ _
  · exact h.classMember_eq ctx _ _
  · simp only [SymbolIndex.find, SymbolIndex.findIn, h.index.search_eq]
  · rfl
  · rfl

theorem inferIndex_eq (target : NodeId) (name : Option String) (computed : Bool) :
    other.inferIndex asking target name computed (ctx.inScope view) =
      src.inferIndex asking target name computed (ctx.inScope scope) := by
  simp only [inferIndex, h.partField_eq]
  rfl

theorem inferCall_eq (callee : NodeId) (args : List NodeId) (colon : Bool) :
    other.inferCall asking callee args colon (ctx.inScope view) =
      src.inferCall asking callee args colon (ctx.inScope scope) := by
  simp only [inferCall, inferReceiver, h.chunk]
  rfl

theorem inferExpr_eq (node : NodeId) :
    other.inferExpr asking node (ctx.inScope view) =
      src.inferExpr asking node (ctx.inScope scope) := by
  unfold inferExpr
  rw [h.chunk]
  split
  · rfl
  · rfl
  · exact h.inferName_eq ctx _
  · exact h.inferIndex_eq ctx _ _ _
  · exact h.inferCall_eq ctx _ _ _
  · rfl
  · rfl

theorem script_eq (q : Query) :
    src.script (ctx.inScope scope) q = other.script (ctx.inScope view) q :=
  (h.inferExpr_eq (q.context ctx) q.node).symm

omit ctx in
theorem answer_eq (d : Demand) (r : Request) :
    ((d.inScope view).answer other.requesting).run r =
      ((d.inScope scope).answer src.requesting).run r := by
  have hrun := src.runs_answer (d.inScope scope) r
  have hctx (s : SearchScope) : (d.inScope s).ctx = d.ctx.inScope s := by cases d <;> rfl
  have hasking : (d.inScope scope).answer asking = (d.inScope view).answer asking := by
    cases d <;> rfl
  rw [hctx] at hrun
  have hview := hrun.of_scripts (h.script_eq d.ctx)
  rw [hasking, ← hctx] at hview
  exact hview.run_answer .silent

end Sources.LooksLike

def RequestStep.inScope (scope : SearchScope) : RequestStep → RequestStep
  | .demand d => .demand (d.inScope scope)
  | .setDumb dumb => .setDumb dumb

namespace Workspace

/-- What an operation gives, and the links that it leaves behind. -/
def outcome {α : Type} (act : StateM Workspace α) (w : Workspace) : α × LinkTable :=
  let (a, w) := act.run w
  (a, w.links)

/-- The workspace on the index less the members outside of some files. -/
def restrictTo (w : Workspace) (files : List String) : Workspace :=
  { w with index := w.index.restrictTo files }

/-- The workspace on the index with one member more. -/
def withMember (w : Workspace) (d : MemberDecl) : Workspace :=
  { w with index := { w.index with groups := SymbolIndex.insertMember d w.index.groups } }

/-- Workspaces with the same links, on indexes that look alike. -/
structure LooksLike (w : Workspace) (scope : SearchScope) (v : Workspace) (view : SearchScope) :
    Prop where
  links : v.links = w.links
  index : w.index.LooksLike scope v.index view

/-- All that can be asked with one scope comes out as with another scope in another workspace. -/
structure AnswersAlike (chunk : Chunk) (w : Workspace) (scope : SearchScope) (v : Workspace)
    (view : SearchScope) : Prop where
  find : ∀ className memberName (ctx : SearchContext),
    v.index.find className memberName (ctx.inScope view) =
      w.index.find className memberName (ctx.inScope scope)
  findShallow : ∀ className memberName (ctx : SearchContext),
    v.index.findShallow className memberName (ctx.inScope view) =
      w.index.findShallow className memberName (ctx.inScope scope)
  findMethod : ∀ className memberName (ctx : SearchContext),
    v.index.findMethod className memberName (ctx.inScope view) =
      w.index.findMethod className memberName (ctx.inScope scope)
  findIn : ∀ c memberName (ctx : SearchContext),
    outcome (Workspace.findIn c memberName (ctx.inScope view)) v =
      outcome (Workspace.findIn c memberName (ctx.inScope scope)) w
  membersOf : ∀ c (ctx : SearchContext),
    outcome (Workspace.membersOf c (ctx.inScope view)) v =
      outcome (Workspace.membersOf c (ctx.inScope scope)) w
  infer : ∀ maxDepth (steps : List RequestStep),
    outcome (observe chunk (steps.map (.inScope view)) (.start maxDepth)) v =
      outcome (observe chunk (steps.map (.inScope scope)) (.start maxDepth)) w

namespace LooksLike

variable {w v : Workspace} {scope view : SearchScope} (h : w.LooksLike scope v view)

include h

theorem sources (chunk : Chunk) : (w.sources chunk).LooksLike scope (v.sources chunk) view :=
  ⟨rfl, h.links, h.index⟩

theorem settled (cs : List ClassTy) : (w.settled cs).LooksLike scope (v.settled cs) view where
  links := by rw [Workspace.settled, Workspace.settled, h.links, h.index.settleAll_eq]
  index := h.index

theorem takeBack (r : Request) : (w.takeBack r).LooksLike scope (v.takeBack r) view where
  links := by
    simp only [Workspace.takeBack, Workspace.settled, h.links, h.index.settleAll_eq]
  index := h.index

theorem outcome_findIn (c : ClassTy) (memberName : String) (ctx : SearchContext) :
    outcome (findIn c memberName (ctx.inScope view)) v =
      outcome (findIn c memberName (ctx.inScope scope)) w := by
  simp only [outcome, run_findIn, SymbolIndex.findIn, h.links, h.index.search_eq,
    h.index.consultsLinks_eq, apply_ite Workspace.links, (h.settled [c]).links]

theorem outcome_membersOf (c : ClassTy) (ctx : SearchContext) :
    outcome (membersOf c (ctx.inScope view)) v =
      outcome (membersOf c (ctx.inScope scope)) w := by
  simp only [outcome, run_membersOf, h.links, h.index.membersOf_eq, h.index.unavailable_eq,
    apply_ite Workspace.links, (h.settled [c]).links]

theorem outcome_observe (chunk : Chunk) (steps : List RequestStep) (r : Request) :
    outcome (observe chunk (steps.map (.inScope view)) r) v =
      outcome (observe chunk (steps.map (.inScope scope)) r) w := by
  induction steps generalizing w v r with
  | nil => exact congrArg (([], ·)) h.links
  | cons step steps ih =>
      cases step with
      | setDumb dumb =>
          exact ih (w := { w with index := { w.index with dumb } })
            (v := { v with index := { v.index with dumb } }) ⟨h.links, h.index.withDumb dumb⟩ r
      | demand d =>
          rcases hanswer : ((d.inScope scope).answer (w.sources chunk).requesting).run
            (r.onTable w.links) with ⟨t, r'⟩
          have hview := (h.sources chunk).answer_eq d (r.onTable w.links)
          rw [hanswer, ← h.links] at hview
          have hrest := ih (h.takeBack r') r'.putAside
          simp only [List.map_cons, RequestStep.inScope, outcome, run_observe_demand hanswer,
            run_observe_demand hview]
          exact congrArg (Prod.map (⟨t, r'.cached, r'.denied⟩ :: ·) id) hrest

theorem answersAlike (chunk : Chunk) : AnswersAlike chunk w scope v view where
  find className memberName ctx := h.index.search_eq {} .any (.named className) memberName ctx
  findShallow := h.index.findShallow_eq
  findMethod className memberName ctx :=
    h.index.search_eq {} .method (.named className) memberName ctx
  findIn := h.outcome_findIn
  membersOf := h.outcome_membersOf
  infer maxDepth steps := h.outcome_observe chunk steps (.start maxDepth)

end LooksLike

/-- In the scope of some files everything comes out as on the index less the members outside of
them, and a member outside of them that is declared in addition makes no difference. -/
theorem search_in_files_is_search_of_restriction (chunk : Chunk) (w : Workspace)
    (files : List String) :
    w.AnswersAlike chunk (.files files) (w.restrictTo files) .all ∧
      ∀ hidden : MemberDecl, (SearchScope.files files).contains hidden.file = false →
        w.AnswersAlike chunk (.files files) (w.withMember hidden) (.files files) := by
  constructor
  · have hlooks : w.LooksLike (.files files) (w.restrictTo files) .all :=
      ⟨rfl, w.index.looksLike_restrictTo files⟩
    exact hlooks.answersAlike chunk
  · intro hidden hhidden
    have hlooks : w.LooksLike (.files files) (w.withMember hidden) (.files files) :=
      ⟨rfl, w.index.looksLike_insertMember hhidden⟩
    exact hlooks.answersAlike chunk

theorem search_in_files_is_search_of_restriction_for_player :
    let chunk : Chunk :=
      { nodes := [.ident "player", .index 0 (some "hp") none]
        bindings := [{ names := ["player"], docTypes := [some (.named "Player" [] false)] }] }
    let member (className file : String) (ty : Ty) : MemberDecl :=
      { className, name := "hp", kind := .docField, ty, file := some file }
    let w : Workspace :=
      { index :=
          { classes := [(ClassDecl.named "Player").withSuperClass "Unit"]
            groups := [("Unit", [member "Unit" "unit.lua" (.primitive .number)])] } }
    let hidden := member "Player" "patch.lua" (.primitive .string)
    let scope := SearchScope.files ["unit.lua"]
    scope.contains hidden.file = false ∧
      ((w.withMember hidden).index.find "Player" "hp" {}).map MemberDecl.ty =
        some (.primitive .string) ∧
      w.AnswersAlike chunk scope (w.restrictTo ["unit.lua"]) .all ∧
      w.AnswersAlike chunk scope (w.withMember hidden) scope := by
  intro chunk member w hidden scope
  have hhidden : scope.contains hidden.file = false := by decide
  have hshadows : ((w.withMember hidden).index.find "Player" "hp" {}).map MemberDecl.ty =
      some (.primitive .string) := by
    rfl
  obtain ⟨hrestricted, hunseen⟩ :=
    search_in_files_is_search_of_restriction chunk w ["unit.lua"]
  exact ⟨hhidden, hshadows, hrestricted, hunseen hidden hhidden⟩

end Workspace

end LuaTypes
