import LuaTypes.Proofs.Runs
import Mathlib.Algebra.Ring.Int.Defs

namespace LuaTypes

/-- A host with a stack of bounded size, which a recursion overflows that has no level left. -/
def Host.stack : Host Option where
  note _ _ := some ()
  overflow := none

@[simp] theorem Host.noteAll_stack (js : List Moment) : Host.stack.noteAll js = some () := by
  induction js with
  | nil => rfl
  | cons j js ih => exact ih

namespace Sources

/-- Inference as a request does it, on a stack with so many places; `none` if the stack
overflows. -/
def onStack (src : Sources) (size : Nat) : Recursion (StateT Request Option) :=
  src.levels .stack size

/-- A stack with a place more than the levels that the guard will still let through is enough for a
run. -/
theorem Runs.run_onStack {src : Sources} {base : SearchContext} {script : Script Ty}
    {r r' : Request} {t : Ty} {js : List Moment} (h : src.Runs base script r t r' js) {size : Nat}
    (hsize : r.guard.maxDepth ≤ r.guard.depth + size) :
    (script.run base (src.onStack (size + 1))).run r = some (t, r') := by
  have hcarries : Carries .stack (script.run base (src.onStack (size + 1))) r t r' js :=
    h.carries_levels hsize
  rw [Carries, Host.noteAll_stack] at hcarries
  exact hcarries

end Sources

/-- By how many an event changes the number of frames in progress. -/
def Event.framesAdded : Event → Int
  | .entered _ _ => 1
  | .left _ => -1
  | .recalled _ | .cycle _ _ | .tooDeep _ => 0

/-- How many frames more are in progress after some moments than before. -/
def framesAdded (js : List Moment) : Int :=
  (js.map fun m => m.event.framesAdded).sum

@[simp] theorem framesAdded_nil : framesAdded [] = 0 := rfl

@[simp] theorem framesAdded_cons (m : Moment) (js : List Moment) :
    framesAdded (m :: js) = m.event.framesAdded + framesAdded js := by
  simp [framesAdded]

@[simp] theorem framesAdded_append (as bs : List Moment) :
    framesAdded (as ++ bs) = framesAdded as + framesAdded bs := by
  simp [framesAdded]

/-- From so many frames in progress, the guard counts them right at each moment and never lets them
become more than its limit. -/
def FramesWithin (limit : Nat) (js : List Moment) (depth : Int) : Prop :=
  ∀ soFar m later, js = soFar ++ m :: later →
    depth + framesAdded (soFar ++ [m]) = m.after.guard.depth ∧ m.after.guard.depth ≤ limit

namespace FramesWithin

variable {limit : Nat} {as bs : List Moment} {m : Moment} {depth : Int}

theorem nil : FramesWithin limit [] depth := by
  intro soFar m later h
  simp at h

theorem cons (hdepth : depth + m.event.framesAdded = m.after.guard.depth)
    (hle : m.after.guard.depth ≤ limit) (hb : FramesWithin limit bs m.after.guard.depth) :
    FramesWithin limit (m :: bs) depth := by
  intro soFar m' later h
  cases soFar with
  | nil =>
      obtain ⟨rfl, -⟩ := List.cons.inj h
      exact ⟨by simpa using hdepth, hle⟩
  | cons j soFar =>
      obtain ⟨rfl, hrest⟩ := List.cons.inj h
      rw [List.cons_append, framesAdded_cons, ← Int.add_assoc, hdepth]
      exact hb soFar m' later hrest

theorem append (ha : FramesWithin limit as depth)
    (hb : FramesWithin limit bs (depth + framesAdded as)) :
    FramesWithin limit (as ++ bs) depth := by
  intro soFar m later h
  rcases append_eq_append_cons h with ⟨es, rfl, -⟩ | ⟨es, rfl, hes⟩
  · exact ha soFar m es rfl
  · rw [List.append_assoc, framesAdded_append, ← Int.add_assoc]
    exact hb es m later hes

end FramesWithin

namespace Sources

variable {src : Sources} {base : SearchContext} {script : Script Ty} {r r' : Request} {t : Ty}
  {js : List Moment}

namespace Runs

theorem framesAdded_eq_zero (h : src.Runs base script r t r' js) : framesAdded js = 0 := by
  induction h with
  | done => rfl
  | made rest ih => exact ih
  | consult rest ih => exact ih
  | recalled known rest ih => simpa [Event.framesAdded] using ih
  | cycle unknown inProgress rest ih => simpa [Event.framesAdded] using ih
  | tooDeep unknown fresh full rest ih => simpa [Event.framesAdded] using ih
  | entered unknown fresh room body rest ihBody ih =>
      simp only [framesAdded_cons, framesAdded_append, Event.framesAdded, ihBody, ih]
      rfl

theorem framesWithin (h : src.Runs base script r t r' js)
    (hwithin : r.guard.depth ≤ r.guard.maxDepth) :
    FramesWithin r.guard.maxDepth js r.guard.depth := by
  induction h with
  | done => exact .nil
  | made rest ih => exact ih hwithin
  | consult rest ih => exact ih hwithin
  | recalled known rest ih => exact .cons (Int.add_zero _) hwithin (ih hwithin)
  | cycle unknown inProgress rest ih => exact .cons (Int.add_zero _) hwithin (ih hwithin)
  | tooDeep unknown fresh full rest ih => exact .cons (Int.add_zero _) hwithin (ih hwithin)
  | @entered q next r a s inside t r' js unknown fresh room body rest ihBody ih =>
      rw [body.left_depth, body.left_maxDepth] at ih
      refine .cons rfl room (.append (ihBody room) (.cons ?_ ?_ ?_))
      · simp only [body.framesAdded_eq_zero, body.left_depth, Event.framesAdded,
          Request.enter_depth]
        omega
      · rw [body.left_depth]
        exact hwithin
      · rw [body.left_depth]
        exact ih hwithin

end Runs

/-- Inference comes to an end: on any stack with a place more than the limit of the request, it
gives what the request gives. No more frames than the limit allows are in progress at any moment,
and none is afterwards. -/
theorem inference_comes_to_an_end (src : Sources) (d : Demand) (r : Request) (size : Nat)
    (hidle : r.guard.Idle) (hsize : r.guard.maxDepth < size) :
    (d.answer (src.onStack size)).run r = some ((d.answer src.requesting).run r) ∧
      FramesWithin r.guard.maxDepth (src.journal r [d]) 0 ∧
      ((d.answer src.requesting).run r).2.guard.Idle := by
  have hwithin : r.guard.depth ≤ r.guard.maxDepth := hidle.depth ▸ Nat.zero_le _
  have hrun := src.runs_answer d r
  obtain ⟨levels, rfl⟩ : ∃ n, size = n + 1 := Nat.exists_eq_succ_of_ne_zero (by omega)
  have hlevels : r.guard.maxDepth ≤ r.guard.depth + levels := by omega
  have hstack := hrun.run_onStack hlevels
  have hframes := hrun.framesWithin hwithin
  rw [d.run_answer _ (.refl _)] at hstack
  rw [hidle.depth] at hframes
  exact ⟨hstack, hframes, hrun.idle hidle⟩

theorem inference_comes_to_an_end_in_circles :
    let src : Sources :=
      { chunk :=
          { nodes := [.ident "x", .function [] [[2, 9], [4]] none [] false,
              .function [] [[1], [3]] none [] false, .index 4 (some "self") none,
              .table [{ name := "self", value := 3 }], .call 1 [8] true]
            bindings := [{ names := ["x"], values := [5, 0] }] } }
    let d : Demand := .list [0, 5, 1, 7] {}
    (Request.start 3).guard.Idle ∧ 3 < 4 ∧
      ((d.answer (src.onStack 3)).run (.start 3)).isNone ∧
      (d.answer (src.onStack 4)).run (.start 3) = some ((d.answer src.requesting).run (.start 3)) ∧
      FramesWithin 3 (src.journal (.start 3) [d]) 0 ∧
      ((d.answer src.requesting).run (.start 3)).2.guard.Idle := by
  intro src d
  have hsize : 3 < 4 := by decide
  have hoverflow : ((d.answer (src.onStack 3)).run (.start 3)).isNone := by decide +kernel
  have hidle : (Request.start 3).guard.Idle := ⟨rfl, rfl⟩
  exact ⟨hidle, hsize, hoverflow, src.inference_comes_to_an_end d (.start 3) 4 hidle hsize⟩

end Sources

end LuaTypes
