import LuaTypes.Proofs.Script

namespace LuaTypes

namespace Guard

variable {κ : Type} [DecidableEq κ] {g : Guard κ} {key : κ}

/-- Nothing is in progress. -/
structure Idle {κ : Type} (g : Guard κ) : Prop where
  depth : g.depth = 0
  inProgress : g.inProgress = []

theorem enter_of_entered {depth : Nat} (h : g.enteredAt? key = some depth) :
    g.enter key = (.cycle, { g with denied := g.denied + 1 }) := by
  simp [enter, isVisiting, h]

theorem enter_of_full (h : g.enteredAt? key = none) (hfull : g.maxDepth ≤ g.depth) :
    g.enter key = (.depthExceeded, { g with denied := g.denied + 1 }) := by
  simp [enter, isVisiting, h, hfull]

theorem enter_of_room (h : g.enteredAt? key = none) (hroom : g.depth < g.maxDepth) :
    g.enter key = (.entered, { g with
      depth := g.depth + 1, inProgress := (key, g.depth + 1) :: g.inProgress }) := by
  simp [enter, isVisiting, h, Nat.not_le.2 hroom]

theorem enteredAt?_eq_none_iff : g.enteredAt? key = none ↔ key ∉ g.inProgress.map Prod.fst := by
  simp only [enteredAt?, Option.map_eq_none_iff, List.find?_eq_none, decide_eq_true_eq,
    List.mem_map, not_exists, not_and]

theorem mem_of_enteredAt? {depth : Nat} (h : g.enteredAt? key = some depth) :
    key ∈ g.inProgress.map Prod.fst := by
  refine Classical.byContradiction fun hkey => ?_
  rw [← enteredAt?_eq_none_iff, h] at hkey
  cases hkey

end Guard

namespace Request

/-- The request after a query has been entered. -/
def enter (r : Request) (q : Query) : Request :=
  { r with guard := { r.guard with
      depth := r.guard.depth + 1, inProgress := (q, r.guard.depth + 1) :: r.guard.inProgress } }

/-- The request after entry has been refused because of the given depth. -/
def refuse (r : Request) (depth : Nat) : Request :=
  { r with guard := { r.guard with denied := r.guard.denied + 1 } }.markCut depth

end Request

/-- An event, and the request right after it. -/
structure Moment where
  event : Event
  after : Request

theorem append_eq_append_cons {α : Type} {as bs before after : List α} {x : α}
    (h : as ++ bs = before ++ x :: after) :
    (∃ es, as = before ++ x :: es ∧ after = es ++ bs) ∨
      ∃ es, before = as ++ es ∧ bs = es ++ x :: after := by
  rcases List.append_eq_append_iff.1 h with ⟨es, rfl, hes⟩ | ⟨es, rfl, hes⟩
  · exact .inr ⟨es, rfl, hes⟩
  · cases es with
    | nil => exact .inr ⟨[], by simp, hes.symm⟩
    | cons e es =>
        obtain ⟨rfl, rfl⟩ := List.cons.inj hes
        exact .inl ⟨es, rfl, rfl⟩

namespace Host

/-- A host that keeps a journal. -/
def diary : Host (StateM (List Moment)) where
  note event after := modify (· ++ [⟨event, after⟩])
  overflow := pure .unknown

/-- Tells a host of some moments, one after the other. -/
def noteAll {m : Type → Type} [Monad m] (host : Host m) (js : List Moment) : m Unit :=
  js.forM fun j => host.note j.event j.after

section Notes

variable {m : Type → Type} [Monad m] (host : Host m) (j : Moment) (js ks : List Moment)

@[simp] theorem noteAll_nil : host.noteAll [] = pure () := rfl

@[simp] theorem noteAll_cons :
    host.noteAll (j :: js) = host.note j.event j.after >>= fun _ => host.noteAll js := rfl

@[simp] theorem noteAll_append [LawfulMonad m] :
    host.noteAll (js ++ ks) = host.noteAll js >>= fun _ => host.noteAll ks :=
  List.forM_append

theorem run_noteAll_diary (before : List Moment) :
    (diary.noteAll js).run before = ((), before ++ js) := by
  induction js generalizing before with
  | nil =>
      rw [List.append_nil]
      rfl
  | cons j js ih =>
      rw [noteAll_cons, StateT.run_bind, List.append_cons]
      exact ih (before ++ [j])

end Notes

end Host

/-- A question to a request: the type of one expression, or of a list of them. -/
inductive Demand where
  | one (node : NodeId) (ctx : SearchContext)
  | list (exprs : List NodeId) (ctx : SearchContext)

namespace Demand

def ctx : Demand → SearchContext
  | .one _ ctx => ctx
  | .list _ ctx => ctx

def answer {m : Type → Type} [Monad m] (eval : Recursion m) : Demand → m Ty
  | .one node ctx => eval.infer node ctx
  | .list exprs ctx => Sources.inferList eval exprs ctx

theorem run_answer {m : Type → Type} [Monad m] [LawfulMonad m] (eval : Recursion m)
    (d : Demand) {base : SearchContext} (h : d.ctx.Under base) :
    (d.answer Script.asking).run base eval = d.answer eval := by
  cases d with
  | one node ctx => exact Script.run_asking_infer eval h node
  | list exprs ctx => exact Sources.run_inferList eval h exprs

theorem answer_requesting_one (src : Sources) (node : NodeId) (ctx : SearchContext) :
    (one node ctx).answer src.requesting = src.infer node ctx := rfl

theorem answer_requesting_list (src : Sources) (exprs : List NodeId) (ctx : SearchContext) :
    (list exprs ctx).answer src.requesting = src.inferMany exprs ctx := rfl

end Demand

namespace Sources

/-- Answers demands in turn. -/
def serve (src : Sources) (demands : List Demand) : StateM Request (List Ty) :=
  demands.mapM (Demand.answer src.requesting)

/-- What happens while a request answers demands in turn. -/
def journal (src : Sources) (r : Request) (demands : List Demand) : List Moment :=
  (((demands.mapM (Demand.answer (src.hosted .diary))).run r).run []).2

end Sources

end LuaTypes
