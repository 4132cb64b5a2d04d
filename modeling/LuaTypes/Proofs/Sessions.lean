import LuaTypes.Proofs.Journal
import LuaTypes.Workspace

/-!
Sessions: what is done, step by step, with an index in use and with the requests that are under way
on it. A single request that is gone on with while the index becomes dumb or available again is a
session with that request alone.
-/

namespace LuaTypes

namespace Request

/-- The request as it goes on where class values get places in a table. -/
def onTable (r : Request) (links : LinkTable) : Request :=
  { r with table := some links }

/-- The request as it is put aside, with nothing noted for the workspace. -/
def putAside (r : Request) : Request :=
  { r with consulted := [], table := none }

end Request

/-- What can be seen of a request after a demand. -/
structure Observation where
  answer : Ty
  cached : Nat
  denied : Nat

namespace Workspace

def superClassOf? (c : ClassTy) : StateM Workspace (Option String) := do
  return (← linksOf? c).bind ClassLinks.superClass

/-- What a request in this workspace has to go by. -/
def sources (w : Workspace) (chunk : Chunk) : Sources :=
  { chunk, index := w.index, links := w.links }

/-- The workspace after the links of some class values have been settled. -/
def settled (w : Workspace) (cs : List ClassTy) : Workspace :=
  { w with links := w.links.settleAll w.index cs }

/-- The workspace after a request has given the table back and the links that it has asked for have
been settled. -/
def takeBack (w : Workspace) (r : Request) : Workspace :=
  ({ w with links := r.table.getD w.links } : Workspace).settled r.consulted

section Runs

variable (w : Workspace)

theorem run_keep (t : Ty) :
    (keep t).run w =
      ((t.enrol.run w.links).1, { w with links := (t.enrol.run w.links).2 }) := rfl

theorem run_addMember (d : MemberDecl) :
    (addMember d).run w =
      match w.index.addMember { d with ty := (d.ty.enrol.run w.links).1 } with
      | .ok index => (.ok (), { index, links := (d.ty.enrol.run w.links).2 })
      | .error e => (.error e, { w with links := (d.ty.enrol.run w.links).2 }) := by
  simp only [addMember, StateT.run_bind, run_keep]
  simp only [bind, StateT.run_get, pure]
  cases w.index.addMember { d with ty := (d.ty.enrol.run w.links).1 } <;> rfl

theorem run_linksOf? (c : ClassTy) :
    (linksOf? c).run w = ((w.settled [c]).links.links? w.index c, w.settled [c]) := rfl

theorem run_findIn (c : ClassTy) (memberName : String) (ctx : SearchContext) :
    (findIn c memberName ctx).run w =
      (w.index.findIn w.links c memberName ctx,
        if w.index.consultsLinks .any c memberName ctx then w.settled [c] else w) := by
  simp only [findIn, StateT.run_bind, StateT.run_get, pure_bind]
  split <;> rfl

theorem run_membersOf (c : ClassTy) (ctx : SearchContext) :
    (membersOf c ctx).run w =
      (w.index.membersOf w.links c ctx,
        if w.index.unavailable ctx then w else w.settled [c]) := by
  simp only [membersOf, StateT.run_bind, StateT.run_get, pure_bind]
  cases w.index.unavailable ctx <;> rfl

/-- Going on with a request is to infer with the table at hand, and to take it back. -/
theorem run_continueRequest (chunk : Chunk) (r : Request) (act : Sources → StateM Request Ty) :
    (continueRequest chunk r act).run w =
      let (t, r') := (act (w.sources chunk)).run (r.onTable w.links)
      ((t, r'.putAside), w.takeBack r') := rfl

end Runs

end Workspace

/-- A workspace, and the requests that are under way in it, each on its chunk. -/
structure Session where
  workspace : Workspace := {}
  requests : List (Chunk × Request) := []

namespace Session

open Workspace (continueRequest)

/-- What is done in a session: the index changes, a type is kept, the links of a class value are
asked for, for their own sake or on the way to an answer, or a request begins or goes on. -/
inductive Step where
  | addClass (d : ClassDecl)
  | addMember (d : MemberDecl)
  | setIndex (ix : SymbolIndex)
  | setDumb (dumb : Bool)
  | keep (t : Ty)
  | links (c : ClassTy)
  | superClass (c : ClassTy)
  | findIn (c : ClassTy) (memberName : String) (ctx : SearchContext)
  | membersOf (c : ClassTy) (ctx : SearchContext)
  | isSubtype (nilStrict : Bool) (sub sup : Ty)
  | request (chunk : Chunk) (maxDepth : Nat)
  /-- Of one of the requests under way. -/
  | demand (request : Nat) (d : Demand)

def work {α : Type} (s : Session) (act : StateM Workspace α) : Session :=
  { s with workspace := (act.run s.workspace).2 }

/-- Demands something of a request under way. There is no answer if there is no such request. -/
def demand (s : Session) (request : Nat) (d : Demand) : Option Observation × Session :=
  match s.requests[request]? with
  | none => (none, s)
  | some (chunk, r) =>
      let ((t, r), workspace) :=
        (continueRequest chunk r fun src => d.answer src.requesting).run s.workspace
      (some ⟨t, r.cached, r.denied⟩,
        { workspace, requests := s.requests.set request (chunk, r) })

def apply (s : Session) : Step → Session
  | .addClass d => s.work (Workspace.addClass d)
  | .addMember d => s.work (Workspace.addMember d)
  | .setIndex ix => s.work (Workspace.setIndex ix)
  | .setDumb dumb => s.work (Workspace.setDumb dumb)
  | .keep t => s.work (Workspace.keep t)
  | .links c => s.work (Workspace.linksOf? c)
  | .superClass c => s.work (Workspace.superClassOf? c)
  | .findIn c memberName ctx => s.work (Workspace.findIn c memberName ctx)
  | .membersOf c ctx => s.work (Workspace.membersOf c ctx)
  | .isSubtype nilStrict sub sup => s.work (Workspace.isSubtype nilStrict sub sup)
  | .request chunk maxDepth =>
      { s with requests := s.requests ++ [(chunk, .start maxDepth)] }
  | .demand request d => (s.demand request d).2

def after (s : Session) (steps : List Step) : Session :=
  steps.foldl apply s

/-- What can be seen of a request in a step, which is nothing unless it is demanded something. -/
def observation? (s : Session) : Step → Option Observation
  | .demand request d => (s.demand request d).1
  | _ => none

/-- All that can be seen of requests, step by step. -/
def observations (s : Session) : List Step → List Observation
  | [] => []
  | step :: steps => (s.observation? step).toList ++ (s.apply step).observations steps

/-- What happens inside the requests in a step. -/
def moments (s : Session) : Step → List Moment
  | .demand request d =>
      match s.requests[request]? with
      | none => []
      | some (chunk, r) =>
          (s.workspace.sources chunk).journal (r.onTable s.workspace.links) [d]
  | _ => []

/-- All that happens inside the requests, step by step. -/
def journal (s : Session) : List Step → List Moment
  | [] => []
  | step :: steps => s.moments step ++ (s.apply step).journal steps

end Session

/-- What happens during a request: something is asked of it, or the index becomes dumb or ceases to
be. -/
inductive RequestStep where
  | demand (d : Demand)
  | setDumb (dumb : Bool)

/-- As a step of the session of one request. -/
def RequestStep.inSession : RequestStep → Session.Step
  | .demand d => .demand 0 d
  | .setDumb dumb => .setDumb dumb

namespace Workspace

variable (chunk : Chunk) (steps : List RequestStep) (r : Request)

/-- Goes through the steps of a request and tells what can be seen after each demand. -/
def observe : StateM Workspace (List Observation) := fun w =>
  let s : Session := { workspace := w, requests := [(chunk, r)] }
  let taken := steps.map RequestStep.inSession
  (s.observations taken, (s.after taken).workspace)

/-- What happens inside a request while it goes through its steps. -/
def journal : StateM Workspace (List Moment) := fun w =>
  let s : Session := { workspace := w, requests := [(chunk, r)] }
  let taken := steps.map RequestStep.inSession
  (s.journal taken, (s.after taken).workspace)

variable {chunk steps r} {d : Demand} {r' : Request} {t : Ty} {w : Workspace}

theorem run_continueRequest_of_answer
    (h : (d.answer (w.sources chunk).requesting).run (r.onTable w.links) = (t, r')) :
    (continueRequest chunk r fun src => d.answer src.requesting).run w =
      ((t, r'.putAside), w.takeBack r') := by
  rw [run_continueRequest, h]

theorem demand_of_getElem? {s : Session} {i : Nat} (hrequest : s.requests[i]? = some (chunk, r))
    (h : (d.answer (s.workspace.sources chunk).requesting).run (r.onTable s.workspace.links) =
      (t, r')) :
    s.demand i d =
      (some ⟨t, r'.cached, r'.denied⟩,
        { workspace := s.workspace.takeBack r'
          requests := s.requests.set i (chunk, r'.putAside) }) := by
  simp only [Session.demand, hrequest, run_continueRequest_of_answer h]
  rfl

theorem demand_alone
    (h : (d.answer (w.sources chunk).requesting).run (r.onTable w.links) = (t, r')) :
    ({ workspace := w, requests := [(chunk, r)] } : Session).demand 0 d =
      (some ⟨t, r'.cached, r'.denied⟩,
        { workspace := w.takeBack r', requests := [(chunk, r'.putAside)] }) :=
  demand_of_getElem? rfl h

theorem run_observe_demand
    (h : (d.answer (w.sources chunk).requesting).run (r.onTable w.links) = (t, r')) :
    (observe chunk (.demand d :: steps) r).run w =
      Prod.map (⟨t, r'.cached, r'.denied⟩ :: ·) id
        ((observe chunk steps r'.putAside).run (w.takeBack r')) := by
  let s : Session := { workspace := w, requests := [(chunk, r)] }
  let rest := steps.map RequestStep.inSession
  change ((s.demand 0 d).1.toList ++ (s.demand 0 d).2.observations rest,
    ((s.demand 0 d).2.after rest).workspace) = _
  rw [demand_alone h]
  rfl

theorem run_journal_demand
    (h : (d.answer (w.sources chunk).requesting).run (r.onTable w.links) = (t, r')) :
    ((journal chunk (.demand d :: steps) r).run w).1 =
      (w.sources chunk).journal (r.onTable w.links) [d] ++
        ((journal chunk steps r'.putAside).run (w.takeBack r')).1 := by
  let s : Session := { workspace := w, requests := [(chunk, r)] }
  let rest := steps.map RequestStep.inSession
  change (w.sources chunk).journal (r.onTable w.links) [d] ++ (s.demand 0 d).2.journal rest = _
  rw [demand_alone h]
  rfl

end Workspace

end LuaTypes
