import LuaTypes.Proofs.KeptProperties
import LuaTypes.Proofs.MemberListing
import LuaTypes.Proofs.Sessions

/-!
The links of a class value in the course of a session. Whatever is done, and whatever becomes of the
index meanwhile, the place of a class value is filled at most once: by the first step that asks for
its links while the index is available, and with what the index declares then. All class values that
come up in a session have such places, those that inference makes among them.
-/

namespace LuaTypes

namespace LinkTable

variable {t : LinkTable} {ix : SymbolIndex} {c : ClassTy} {cs : List ClassTy}

theorem holds_of_cached? {links : ClassLinks} (h : t.cached? c = some links) : t.Holds c := by
  intro slot hslot
  simp only [cached?, ClassTy.place?_eq_some_iff.1 hslot] at h
  obtain ⟨p, hp, hlinks⟩ := Option.bind_eq_some_iff.1 h
  rw [LinkPlace.linksOf?] at hlinks
  split at hlinks
  next hname => rw [hp, Option.map_some, hname]
  next => cases hlinks

theorem placed_settleAll (h : t.Placed c) : (t.settleAll ix cs).Placed c :=
  ⟨h.1, holds_settleAll_iff.2 h.2⟩

end LinkTable

namespace Session

/-- The class values whose links a step asks for. -/
def consulted (s : Session) : Step → List ClassTy
  | .links c | .superClass c => [c]
  | .findIn c memberName ctx =>
      if s.workspace.index.consultsLinks .any c memberName ctx then [c] else []
  | .membersOf c ctx => if s.workspace.index.unavailable ctx then [] else [c]
  | .isSubtype nilStrict sub sup =>
      sub.consultedClasses s.workspace.index s.workspace.links nilStrict sup
  | .demand request d =>
      match s.requests[request]? with
      | none => []
      | some (chunk, r) =>
          ((d.answer (s.workspace.sources chunk).requesting).run
            (r.onTable s.workspace.links)).2.consulted
  | _ => []

section Links

variable {s : Session} {c : ClassTy} {step : Step}

theorem exists_table_of_demand {chunk : Chunk} {r : Request} {w : Workspace} {d : Demand}
    {r' : Request} {t : Ty}
    (h : (d.answer (w.sources chunk).requesting).run (r.onTable w.links) = (t, r')) :
    ∃ table, r'.table = some table ∧ w.links.Grows table := by
  have hgrows := ((w.sources chunk).runs_answer d (r.onTable w.links)).mayGrow
  rw [h] at hgrows
  change LinkTable.MayGrow (some w.links) r'.table at hgrows
  cases htable : r'.table with
  | none => rw [htable] at hgrows; cases hgrows
  | some table =>
      rw [htable] at hgrows
      cases hgrows with
      | some hgrows => exact ⟨table, rfl, hgrows⟩

/-- What a step does to the links: places may be added, and then the class values that it asks for
are settled. -/
theorem exists_links_apply (s : Session) (step : Step) :
    ∃ t, s.workspace.links.Grows t ∧
      (s.apply step).workspace.links = t.settleAll s.workspace.index (s.consulted step) := by
  cases step with
  | addClass d => exact ⟨_, .refl _, rfl⟩
  | addMember d =>
      refine ⟨_, (d.ty.enrols s.workspace.links).1, ?_⟩
      rw [apply, work, Workspace.run_addMember]
      split <;> rfl
  | setIndex ix => exact ⟨_, (ix.enrols s.workspace.links).1, rfl⟩
  | setDumb dumb => exact ⟨_, .refl _, rfl⟩
  | keep t => exact ⟨_, (t.enrols s.workspace.links).1, rfl⟩
  | links d => exact ⟨_, .refl _, rfl⟩
  | superClass d => exact ⟨_, .refl _, rfl⟩
  | findIn d memberName ctx =>
      refine ⟨_, .refl _, ?_⟩
      rw [apply, work, Workspace.run_findIn, consulted]
      split <;> rfl
  | membersOf d ctx =>
      refine ⟨_, .refl _, ?_⟩
      rw [apply, work, Workspace.run_membersOf, consulted]
      split <;> rfl
  | isSubtype nilStrict sub sup => exact ⟨_, .refl _, rfl⟩
  | request chunk maxDepth => exact ⟨_, .refl _, rfl⟩
  | demand i d =>
      rw [apply, consulted]
      cases hrequest : s.requests[i]? with
      | none => exact ⟨_, .refl _, by rw [demand, hrequest]; rfl⟩
      | some p =>
          obtain ⟨chunk, r⟩ := p
          rcases hanswer : (d.answer (s.workspace.sources chunk).requesting).run
            (r.onTable s.workspace.links) with ⟨t, r'⟩
          obtain ⟨table, htable, hgrows⟩ := exists_table_of_demand hanswer
          refine ⟨table, hgrows, ?_⟩
          rw [Workspace.demand_of_getElem? hrequest hanswer, Workspace.takeBack, htable]
          dsimp only
          rw [hanswer]
          rfl

theorem cached?_apply (hplace : (s.apply step).workspace.links.Holds c) :
    (s.apply step).workspace.links.cached? c =
      (s.workspace.links.cached? c <|> if ∃ d ∈ s.consulted step, c.Shares d then
        s.workspace.index.linksOf? c.name else none) := by
  obtain ⟨t, hgrows, hlinks⟩ := s.exists_links_apply step
  rw [hlinks] at hplace ⊢
  rw [LinkTable.cached?_settleAll (LinkTable.holds_settleAll_iff.1 hplace), hgrows.cached?_eq]

theorem holds_apply (h : s.workspace.links.Holds c) : (s.apply step).workspace.links.Holds c := by
  obtain ⟨t, hgrows, hlinks⟩ := s.exists_links_apply step
  rw [hlinks]
  exact LinkTable.holds_settleAll_iff.2 (hgrows.holds h)

theorem cached?_after {steps : List Step} {links : ClassLinks}
    (hknown : s.workspace.links.cached? c = some links) :
    (s.after steps).workspace.links.cached? c = some links := by
  induction steps generalizing s with
  | nil => exact hknown
  | cons step steps ih =>
      refine ih ?_
      rw [cached?_apply (holds_apply (LinkTable.holds_of_cached? hknown)), hknown]
      rfl

theorem run_linksOf?_of_cached {w : Workspace} {links : ClassLinks}
    (h : w.links.cached? c = some links) :
    ((Workspace.linksOf? c).run w).1 = some links := by
  have hsettled : (w.settled [c]).links.cached? c = some links := by
    rw [Workspace.settled, LinkTable.cached?_settleAll (LinkTable.holds_of_cached? h), h]
    rfl
  rw [Workspace.run_linksOf?, LinkTable.links?, hsettled]
  rfl

end Links

/-- The class values that a step brings along have places in the table, if they have any. -/
def Step.Fits (t : LinkTable) : Step → Prop
  | .addMember d => d.ty.EachClass t.Holds
  | .setIndex ix => ix.EachClass t.Holds
  | _ => True

/-- Each step fits the table as it is then. -/
def Fits (s : Session) : List Step → Prop
  | [] => True
  | step :: steps => step.Fits s.workspace.links ∧ (s.apply step).Fits steps

/-- All class values in the types of members, and in what the requests remember, have places in the
table or their links of their own. -/
structure Placed (s : Session) : Prop where
  index : s.workspace.index.EachClass s.workspace.links.Placed
  requests : ∀ p ∈ s.requests, ∀ e ∈ p.2.cache, e.2.EachClass s.workspace.links.Placed

section Places

variable {s : Session} {step : Step}

/-- Over an index whose class values have places, inference gives places to those that it makes. -/
theorem keeps_placed {w : Workspace} {table : LinkTable} (h : w.index.EachClass table.Placed)
    (chunk : Chunk) : (w.sources chunk).Keeps (some table) (Ty.EachClass table.Placed) :=
  { Ty.compositional_eachClass with
    written := fun n _ ht => ht.placed (TypeNode.eachClass_toTy (fun _ _ => nofun) n)
    constructor := fun _ ht => ht.placed (Ty.eachClass_ofClass_iff.2 nofun)
    global := fun _ _ => Ty.eachClass_ofClass_iff.2 ⟨nofun, nofun⟩
    member := h }

theorem eachClass_apply {t : Ty} (h : t.EachClass s.workspace.links.Placed) :
    t.EachClass (s.apply step).workspace.links.Placed := by
  obtain ⟨table, hgrows, hlinks⟩ := s.exists_links_apply step
  rw [hlinks]
  exact h.imp fun c hc => LinkTable.placed_settleAll (hgrows.placed hc)

theorem Placed.demand (hs : s.Placed) {chunk : Chunk} {r : Request}
    (hr : (chunk, r) ∈ s.requests) {d : Demand} {t : Ty} {r' : Request}
    (hanswer : (d.answer (s.workspace.sources chunk).requesting).run
      (r.onTable s.workspace.links) = (t, r')) :
    t.EachClass (s.workspace.takeBack r').links.Placed ∧
      ∀ e ∈ r'.cache, e.2.EachClass (s.workspace.takeBack r').links.Placed := by
  obtain ⟨table, htable, hgrows⟩ := exists_table_of_demand hanswer
  have hrun := (s.workspace.sources chunk).runs_answer d (r.onTable s.workspace.links)
  rw [hanswer] at hrun
  have hold {u : Ty} (hu : u.EachClass s.workspace.links.Placed) : u.EachClass table.Placed :=
    hu.imp fun c hc => hgrows.placed hc
  have hkeeps := keeps_placed (fun g hg e he => hold (hs.index g hg e he)) chunk
  obtain ⟨ht, hcache⟩ := hrun.ensures (fun q => hkeeps.inferExpr q.node _) hkeeps.unknown
    (htable ▸ .refl _) (hkeeps.answer d) fun e he => hold (hs.requests _ hr e he)
  have hback {u : Ty} (hu : u.EachClass table.Placed) :
      u.EachClass (s.workspace.takeBack r').links.Placed := by
    rw [Workspace.takeBack, htable]
    exact hu.imp fun c hc => LinkTable.placed_settleAll hc
  exact ⟨hback ht, fun e he => hback (hcache e he)⟩

theorem Placed.index_apply (hs : s.Placed) (h : step.Fits s.workspace.links) :
    (s.apply step).workspace.index.EachClass (s.apply step).workspace.links.Placed := by
  have hkept : s.workspace.index.EachClass (s.apply step).workspace.links.Placed :=
    fun g hg e he => eachClass_apply (hs.index g hg e he)
  cases step with
  | addMember d =>
      obtain ⟨hgrows, hd⟩ := d.ty.enrols s.workspace.links
      have hty := (hd _ (.refl _)).placed (Ty.EachClass.imp (fun c hc => hgrows.holds hc) h)
      rw [apply, work, Workspace.run_addMember] at hkept ⊢
      cases hadd : s.workspace.index.addMember
          { d with ty := (d.ty.enrol.run s.workspace.links).1 } with
      | error e =>
          rw [hadd] at hkept
          exact hkept
      | ok index =>
          rw [hadd] at hkept
          obtain ⟨-, rfl⟩ := SymbolIndex.addMember_eq_ok hadd
          refine SymbolIndex.forall_mem_insertMember (P := fun _ e => e.ty.EachClass _) ?_ hkept
          exact hty
  | setIndex ix =>
      obtain ⟨hgrows, hix⟩ := ix.enrols s.workspace.links
      exact hix _ (.refl _) fun g hg e he => (h g hg e he).imp fun c hc => hgrows.holds hc
  | findIn d memberName ctx =>
      have hindex : (s.apply (.findIn d memberName ctx)).workspace.index = s.workspace.index := by
        rw [apply, work, Workspace.run_findIn]
        split <;> rfl
      rw [hindex]
      exact hkept
  | membersOf d ctx =>
      have hindex : (s.apply (.membersOf d ctx)).workspace.index = s.workspace.index := by
        rw [apply, work, Workspace.run_membersOf]
        split <;> rfl
      rw [hindex]
      exact hkept
  | demand i d =>
      have hindex : (s.apply (.demand i d)).workspace.index = s.workspace.index := by
        rw [apply, Session.demand]
        split <;> rfl
      rw [hindex]
      exact hkept
  | _ => exact hkept

theorem Placed.requests_apply (hs : s.Placed) :
    ∀ p ∈ (s.apply step).requests, ∀ e ∈ p.2.cache,
      e.2.EachClass (s.apply step).workspace.links.Placed := by
  have hkept : ∀ p ∈ s.requests, ∀ e ∈ p.2.cache,
      e.2.EachClass (s.apply step).workspace.links.Placed :=
    fun p hp e he => eachClass_apply (hs.requests p hp e he)
  cases step with
  | request chunk maxDepth =>
      exact List.forall_mem_append.2 ⟨hkept, List.forall_mem_singleton.2 nofun⟩
  | demand i d =>
      cases hrequest : s.requests[i]? with
      | none =>
          have hsame : s.apply (.demand i d) = s := by rw [Session.apply, Session.demand, hrequest]
          rw [hsame]
          exact hs.requests
      | some p =>
          obtain ⟨chunk, r⟩ := p
          rcases hanswer : (d.answer (s.workspace.sources chunk).requesting).run
            (r.onTable s.workspace.links) with ⟨t, r'⟩
          have hnew := (hs.demand (List.mem_of_getElem? hrequest) hanswer).2
          rw [apply, Workspace.demand_of_getElem? hrequest hanswer] at hkept ⊢
          intro p hp
          rcases List.mem_or_eq_of_mem_set hp with hold | rfl
          · exact hkept p hold
          · exact hnew
  | _ => exact hkept

theorem Placed.apply (hs : s.Placed) (h : step.Fits s.workspace.links) : (s.apply step).Placed :=
  ⟨hs.index_apply h, hs.requests_apply⟩

theorem Placed.observation? (hs : s.Placed) :
    ∀ o ∈ s.observation? step, o.answer.EachClass (s.apply step).workspace.links.Placed := by
  cases step with
  | demand i d =>
      cases hrequest : s.requests[i]? with
      | none =>
          rw [Session.observation?, Session.demand, hrequest]
          exact fun o ho => absurd ho (Option.not_mem_none o)
      | some p =>
          obtain ⟨chunk, r⟩ := p
          rcases hanswer : (d.answer (s.workspace.sources chunk).requesting).run
            (r.onTable s.workspace.links) with ⟨t, r'⟩
          have ht := (hs.demand (List.mem_of_getElem? hrequest) hanswer).1
          rw [Session.observation?, Session.apply, Workspace.demand_of_getElem? hrequest hanswer]
          rintro o ho
          obtain rfl := Option.some.inj ho
          exact ht
  | _ => exact fun o ho => absurd ho (Option.not_mem_none o)

theorem eachClass_after {steps : List Step} {t : Ty} (h : t.EachClass s.workspace.links.Placed) :
    t.EachClass (s.after steps).workspace.links.Placed := by
  induction steps generalizing s with
  | nil => exact h
  | cons step steps ih => exact ih (eachClass_apply h)

theorem Placed.after {steps : List Step} (hs : s.Placed) (h : s.Fits steps) :
    (s.after steps).Placed ∧
      ∀ o ∈ s.observations steps, o.answer.EachClass (s.after steps).workspace.links.Placed := by
  induction steps generalizing s with
  | nil => exact ⟨hs, nofun⟩
  | cons step steps ih =>
      obtain ⟨hplaced, hlater⟩ := ih (hs.apply h.1) h.2
      refine ⟨hplaced, List.forall_mem_append.2 ⟨fun o ho => ?_, hlater⟩⟩
      exact eachClass_after (s := s.apply step) (hs.observation? o (by simpa using ho))

end Places

/-- The links of a class value are settled once. Once they are known they never change, and are what
everyone is told who asks for them, whatever has become of the index. Where they are not known, a
step fills them just if it asks for them while the index is available, with what the index declares
then; that is nothing for a class without a declaration. And that is so of each class value in the
type of a member, in what a request remembers and in what it answers: it has a place of its own, or
came with its links. -/
theorem links_are_settled_once (s : Session) (c : ClassTy) (steps : List Step) :
    (∀ before after, steps = before ++ after → ∀ links,
      (s.after before).workspace.links.cached? c = some links →
        (s.after steps).workspace.links.cached? c = some links ∧
        ((Workspace.linksOf? c).run (s.after steps).workspace).1 = some links ∧
        ((Workspace.superClassOf? c).run (s.after steps).workspace).1 = links.superClass) ∧
    (∀ before step after, steps = before ++ step :: after →
      (s.after before).workspace.links.cached? c = none →
      (s.after (before ++ [step])).workspace.links.Holds c →
        (s.after (before ++ [step])).workspace.links.cached? c =
          if (s.after before).workspace.index.dumb = false ∧
              ∃ d ∈ (s.after before).consulted step, c.Shares d then
            some (((s.after before).workspace.index.declaration? c.name).elim {}
              ClassDecl.toClassLinks)
          else none) ∧
    (s.Placed → s.Fits steps → (s.after steps).Placed ∧
      ∀ o ∈ s.observations steps, o.answer.EachClass (s.after steps).workspace.links.Placed) := by
  refine ⟨?_, ?_, fun hs hsteps => hs.after hsteps⟩
  · rintro before after rfl links hknown
    have hcached : (s.after (before ++ after)).workspace.links.cached? c = some links := by
      rw [Session.after, List.foldl_append]
      exact cached?_after hknown
    have hlinks := run_linksOf?_of_cached hcached
    refine ⟨hcached, hlinks, ?_⟩
    exact congrArg (Option.bind · ClassLinks.superClass) hlinks
  · rintro before step after - hunknown hplace
    rw [Session.after, List.foldl_append] at hplace ⊢
    refine (cached?_apply (s := s.after before) hplace).trans ?_
    -- What is filled in comes from `linksOf?`, which tells nothing while the index is dumb.
    rw [hunknown, SymbolIndex.linksOf?]
    cases (s.after before).workspace.index.dumb with
    | true => simp
    | false => simp

/-- A member of a documented player. -/
def healthOfPlayer : Chunk :=
  { nodes := [.ident "player", .index 0 (some "hp") none]
    bindings := [{ names := ["player"], docTypes := [some (.named "Player" [] false)] }] }

def playerOf (superClass : String) : Step :=
  .addClass ((ClassDecl.named "Player").withSuperClass superClass)

/-- The player is asked for while the index is dumb, and its member later on. -/
def playerWithoutLinks : List Step :=
  [.request healthOfPlayer 8, .setDumb true, .demand 0 (.one 0 {}), .setDumb false,
    playerOf "Entity"]

def playerWithLinks : List Step :=
  playerWithoutLinks ++ [.demand 0 (.one 1 {})]

/-- The class is declared anew. Another request makes a class value of its own. -/
def playerDeclaredAnew : List Step :=
  [playerOf "Ghost", .request healthOfPlayer 8, .demand 1 (.one 1 {}), .setDumb true,
    .demand 0 (.list [0, 1] {})]

/-- The class value that inference makes for the player, and the one that it makes later on. -/
theorem links_are_settled_once_for_player :
    let c : ClassTy := { form := .declared "Player", source := .kept 0 }
    let later : ClassTy := { form := .declared "Player", source := .kept 1 }
    let s : Session := {}
    s.Placed ∧ s.Fits (playerWithLinks ++ playerDeclaredAnew) ∧
      (s.observations playerWithoutLinks).map Observation.answer = [.ofClass c] ∧
      (s.after playerWithoutLinks).workspace.links.cached? c = none ∧
      (s.after playerWithLinks).workspace.links.Holds c ∧
      (s.after playerWithLinks).workspace.links.cached? c =
        some { superClass := some "Entity" } ∧
      (s.after (playerWithLinks ++ playerDeclaredAnew)).workspace.links.cached? c =
        some { superClass := some "Entity" } ∧
      (s.after (playerWithLinks ++ playerDeclaredAnew)).workspace.links.cached? later =
        some { superClass := some "Ghost" } ∧
      (s.after (playerWithLinks ++ playerDeclaredAnew)).Placed := by
  intro c later s
  have hs : s.Placed := ⟨nofun, nofun⟩
  have hfits : s.Fits (playerWithLinks ++ playerDeclaredAnew) := by
    simp [playerWithLinks, playerWithoutLinks, playerDeclaredAnew, playerOf, Fits, Step.Fits]
  obtain ⟨hkept, hfilled, hplaced⟩ :=
    links_are_settled_once s c (playerWithLinks ++ playerDeclaredAnew)
  have hanswer : (s.observations playerWithoutLinks).map Observation.answer = [.ofClass c] := by
    rfl
  have hunknown : (s.after playerWithoutLinks).workspace.links.cached? c = none := by
    decide +kernel
  have hholds : (s.after playerWithLinks).workspace.links.Holds c := by
    decide +kernel
  have hfill : (s.after playerWithLinks).workspace.links.cached? c =
      some { superClass := some "Entity" } :=
    (hfilled playerWithoutLinks _ playerDeclaredAnew (by simp [playerWithLinks]) hunknown
      hholds).trans (by decide +kernel)
  have hlater : (s.after (playerWithLinks ++ playerDeclaredAnew)).workspace.links.cached? later =
      some { superClass := some "Ghost" } := by
    decide +kernel
  exact ⟨hs, hfits, hanswer, hunknown, hholds, hfill, (hkept playerWithLinks _ rfl _ hfill).1,
    hlater, (hplaced hs hfits).1⟩

end Session

end LuaTypes
