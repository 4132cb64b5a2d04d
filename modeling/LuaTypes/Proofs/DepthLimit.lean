import LuaTypes.Proofs.History
import LuaTypes.Proofs.Sessions

namespace LuaTypes

/-- The request with another limit. -/
def Request.withLimit (r : Request) (limit : Nat) : Request :=
  { r with guard := { r.guard with maxDepth := limit } }

theorem Request.withLimit_finish (r : Request) (limit : Nat) (q : Query) (depth : Nat) (t : Ty) :
    (r.finish q depth t).withLimit limit = (r.withLimit limit).finish q depth t := by
  cases hcut : r.cut.any (· < depth) with
  | true => rw [finish_of_cut hcut, finish_of_cut (r := r.withLimit limit) hcut]; rfl
  | false => rw [finish_of_whole hcut, finish_of_whole (r := r.withLimit limit) hcut]; rfl

def Moment.withLimit (limit : Nat) (m : Moment) : Moment :=
  { m with after := m.after.withLimit limit }

namespace Sources

variable {src : Sources} {base : SearchContext} {limit : Nat}

/-- A run that the limit refuses nothing in is also a run under a higher limit, moment by moment. -/
theorem Runs.withLimit {s : Script Ty} {r r' : Request} {t : Ty} {js : List Moment}
    (h : src.Runs base s r t r' js) (hle : r.guard.maxDepth ≤ limit)
    (hroom : ∀ m ∈ js, m.event.isTooDeep = false) :
    src.Runs base s (r.withLimit limit) t (r'.withLimit limit) (js.map (.withLimit limit)) := by
  induction h with
  | done => exact .done
  | made rest ih => exact .made (ih hle hroom)
  | consult rest ih => exact .consult (ih hle hroom)
  | recalled known rest ih => exact .recalled known (ih hle (List.forall_mem_cons.1 hroom).2)
  | cycle unknown inProgress rest ih =>
      exact .cycle unknown inProgress (ih hle (List.forall_mem_cons.1 hroom).2)
  | tooDeep unknown fresh full rest ih =>
      cases (List.forall_mem_cons.1 hroom).1
  | @entered q next r a s inside t r' js unknown fresh room body rest ihBody ih =>
      rw [List.forall_mem_cons, List.forall_mem_append, List.forall_mem_cons] at hroom
      obtain ⟨-, hinside, -, hjs⟩ := hroom
      have hleft : (s.finish q (r.guard.depth + 1) a).guard.maxDepth ≤ limit :=
        Nat.le_trans (Nat.le_of_eq body.left_maxDepth) hle
      have hrest := ih hleft hjs
      rw [Request.withLimit_finish] at hrest
      have hentered := Runs.entered (r := r.withLimit limit) unknown fresh
        (Nat.lt_of_lt_of_le room hle) (ihBody hle hinside) hrest
      rw [List.map_cons, List.map_append, List.map_cons, Moment.withLimit, Moment.withLimit,
        Request.withLimit_finish]
      exact hentered

theorem answer_withLimit {d : Demand} {r : Request} (hle : r.guard.maxDepth ≤ limit)
    (hroom : ∀ m ∈ src.journal r [d], m.event.isTooDeep = false) :
    (d.answer src.requesting).run (r.withLimit limit) =
      let (t, r') := (d.answer src.requesting).run r
      (t, r'.withLimit limit) := by
  have hraised := (src.runs_answer d r).withLimit hle hroom
  exact hraised.run_answer .silent

end Sources

namespace Workspace

theorem observe_withLimit (chunk : Chunk) {steps : List RequestStep} {w : Workspace} {r : Request}
    {limit : Nat} (hle : r.guard.maxDepth ≤ limit)
    (hroom : ∀ m ∈ ((journal chunk steps r).run w).1, m.event.isTooDeep = false) :
    (observe chunk steps (r.withLimit limit)).run w = (observe chunk steps r).run w := by
  induction steps generalizing w r with
  | nil => rfl
  | cons step steps ih =>
      cases step with
      | setDumb dumb => exact ih (w := { w with index := { w.index with dumb } }) hle hroom
      | demand d =>
          rcases hanswer : (d.answer (w.sources chunk).requesting).run (r.onTable w.links)
            with ⟨t, r'⟩
          have hruns := (w.sources chunk).runs_answer d (r.onTable w.links)
          rw [run_journal_demand hanswer, List.forall_mem_append] at hroom
          have hraised := (w.sources chunk).answer_withLimit (r := r.onTable w.links) hle hroom.1
          rw [hanswer] at hruns hraised
          rw [run_observe_demand hanswer, run_observe_demand (r := r.withLimit limit) hraised]
          have hle' : r'.guard.maxDepth ≤ limit := Nat.le_trans (Nat.le_of_eq hruns.maxDepth_eq) hle
          have hrest := ih (r := r'.putAside) hle' hroom.2
          exact congrArg (Prod.map (⟨t, r'.cached, r'.denied⟩ :: ·) id) hrest

/-- A limit that refuses nothing while a request goes through its steps could as well be higher:
each answer is the same, as much is remembered and as much is refused, cycles among it. -/
theorem unreached_limit_is_invisible (chunk : Chunk) (w : Workspace) (steps : List RequestStep)
    (limit higher : Nat) (hle : limit ≤ higher)
    (hroom : ∀ m ∈ ((journal chunk steps (.start limit)).run w).1, m.event.isTooDeep = false) :
    (observe chunk steps (.start higher)).run w = (observe chunk steps (.start limit)).run w :=
  observe_withLimit chunk (r := .start limit) hle hroom

theorem unreached_limit_is_invisible_in_cycle :
    let chunk : Chunk :=
      { nodes := [.function [] [[1], [2]] none [] false, .function [] [[0]] none [] false,
          .ident "x"]
        bindings := [{ names := ["x"], values := [2] }] }
    let steps : List RequestStep :=
      [.demand (.one 0 {}), .setDumb true, .demand (.list [2, 1] {}), .demand (.one 1 {})]
    5 ≤ 64 ∧
      (∀ m ∈ ((journal chunk steps (.start 5)).run {}).1, m.event.isTooDeep = false) ∧
      ((observe chunk steps (.start 5)).run {}).1.map Observation.denied = [3, 3, 3] ∧
      (observe chunk steps (.start 64)).run {} = (observe chunk steps (.start 5)).run {} := by
  intro chunk steps
  have hle : 5 ≤ 64 := by decide
  have hroom : ∀ m ∈ ((journal chunk steps (.start 5)).run {}).1, m.event.isTooDeep = false := by
    decide +kernel
  have hdenied :
      ((observe chunk steps (.start 5)).run {}).1.map Observation.denied = [3, 3, 3] := by
    decide +kernel
  exact ⟨hle, hroom, hdenied, unreached_limit_is_invisible chunk {} steps 5 64 hle hroom⟩

end Workspace

end LuaTypes
