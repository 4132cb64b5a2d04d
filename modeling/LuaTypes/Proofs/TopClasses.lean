import LuaTypes.Ty.TopClass
import Mathlib.Tactic.Choose

namespace LuaTypes

section Lists

variable {m : Type → Type} [Monad m] {α β : Type}

theorem allM_congr {f g : α → m Bool} {xs : List α} (h : ∀ x ∈ xs, f x = g x) :
    xs.allM f = xs.allM g := by
  induction xs with
  | nil => rfl
  | cons x xs ih =>
      obtain ⟨hx, hxs⟩ := List.forall_mem_cons.1 h
      rw [List.allM_cons, List.allM_cons, hx, ih hxs]

variable [LawfulMonad m]

theorem allM_append (visit : α → m Bool) (xs ys : List α) :
    (xs ++ ys).allM visit =
      xs.allM visit >>= fun more => if more then ys.allM visit else pure false := by
  induction xs with
  | nil => simp [List.allM]
  | cons x xs ih =>
      rw [List.cons_append, List.allM_cons, List.allM_cons, ih, bind_assoc]
      refine bind_congr fun more => ?_
      cases more <;> simp

theorem allM_singleton (visit : α → m Bool) (x : α) : [x].allM visit = visit x := by
  rw [List.allM_cons, ← bind_pure (visit x), bind_assoc]
  refine bind_congr fun more => ?_
  cases more <;> simp [List.allM]

theorem allM_flatMap (visit : β → m Bool) (f : α → List β) (xs : List α) :
    (xs.flatMap f).allM visit = xs.allM fun x => (f x).allM visit := by
  induction xs with
  | nil => rfl
  | cons x xs ih => rw [List.flatMap_cons, allM_append, List.allM_cons, ih]

end Lists

namespace Ty

section Walk

variable {m : Type → Type} [Monad m]

theorem eachTopClassOf_eq_allM (visit : ClassTy → m Bool) (ts : List Ty) :
    eachTopClassOf visit ts = ts.allM (eachTopClass visit) := by
  induction ts with
  | nil => rfl
  | cons t ts ih => rw [eachTopClassOf, List.allM_cons, ih]

/-- Every visitor is led along the same classes. -/
theorem exists_walk (t : Ty) :
    ∃ classes : List ClassTy, ∀ {m : Type → Type} [Monad m] [LawfulMonad m]
      (visit : ClassTy → m Bool), t.eachTopClass visit = classes.allM visit := by
  induction t with
  | ofClass c =>
      exact ⟨[c], fun visit => (allM_singleton visit c).symm⟩
  | union members ih =>
      choose! classes hclasses using ih
      refine ⟨members.flatMap classes, fun visit => ?_⟩
      rw [eachTopClass, eachTopClassOf_eq_allM, allM_flatMap]
      exact allM_congr fun t ht => hclasses t ht visit
  | tuple members ih =>
      cases members with
      | nil => exact ⟨[], fun visit => rfl⟩
      | cons first rest => exact ih first List.mem_cons_self
  | generic base args ihBase _ => exact ihBase
  | _ => exact ⟨[], fun visit => rfl⟩

theorem run_allM_record (classes log : List ClassTy) :
    (classes.allM fun c =>
        (do modify (· ++ [c]); return true : StateM (List ClassTy) Bool)).run log =
      (true, log ++ classes) := by
  induction classes generalizing log with
  | nil => rw [List.append_nil]; rfl
  | cons c classes ih =>
      rw [List.append_cons]
      exact ih (log ++ [c])

variable [LawfulMonad m]

theorem eachTopClass_eq_allM (t : Ty) (visit : ClassTy → m Bool) :
    t.eachTopClass visit = t.topClasses.allM visit := by
  obtain ⟨classes, hwalk⟩ := t.exists_walk
  have hclasses : t.topClasses = classes := by
    rw [topClasses, hwalk, run_allM_record]
    rfl
  rw [hclasses, hwalk]

end Walk

theorem topClasses_union (members : List Ty) :
    (union members).topClasses = members.flatMap topClasses := by
  rw [topClasses, eachTopClass, eachTopClassOf_eq_allM, allM_congr fun t _ =>
    t.eachTopClass_eq_allM _, ← allM_flatMap, run_allM_record]
  rfl

section Visitor

variable {σ : Type} (visit : ClassTy → StateM σ Bool)

/-- The visitor, noting each class on which it is called. -/
def noting (c : ClassTy) : StateM (σ × List ClassTy) Bool := do
  let (s, called) ← get
  let (more, s') := (visit c).run s
  set (s', called ++ [c])
  return more

/-- The classes up to and including the first one on which the visitor asks for no more. -/
def untilRefused (classes : List ClassTy) (s : σ) : List ClassTy :=
  classes.take (((classes.mapM visit).run s).1.findIdx (!·) + 1)

section Step

variable {visit} {c : ClassTy} {more : Bool} {s s' : σ} (h : (visit c).run s = (more, s'))
  (classes : List ClassTy)

include h

theorem run_mapM_cons :
    ((c :: classes).mapM visit).run s =
      (more :: ((classes.mapM visit).run s').1, ((classes.mapM visit).run s').2) := by
  rw [List.mapM_cons, StateT.run_bind, h]
  rfl

theorem run_allM_cons :
    ((c :: classes).allM visit).run s =
      if more then (classes.allM visit).run s' else (false, s') := by
  rw [List.allM_cons, StateT.run_bind, h]
  cases more <;> rfl

theorem untilRefused_cons :
    untilRefused visit (c :: classes) s =
      c :: if more then untilRefused visit classes s' else [] := by
  rw [untilRefused, run_mapM_cons h, List.findIdx_cons, List.take_succ_cons]
  cases more <;> rfl

theorem run_noting (called : List ClassTy) :
    (noting visit c).run (s, called) = (more, s', called ++ [c]) := by
  change (((visit c).run s).1, ((visit c).run s).2, called ++ [c]) = _
  rw [h]

end Step

theorem run_allM (classes : List ClassTy) (s : σ) :
    let outcome := ((untilRefused visit classes s).mapM visit).run s
    (classes.allM visit).run s = (outcome.1.all id, outcome.2) := by
  induction classes generalizing s with
  | nil => rfl
  | cons c classes ih =>
      obtain ⟨more, s', h⟩ : ∃ more s', (visit c).run s = (more, s') := ⟨_, _, rfl⟩
      rw [untilRefused_cons h, run_mapM_cons h, run_allM_cons h]
      cases more with
      | true => exact ih s'
      | false => rfl

theorem run_allM_noting (classes called : List ClassTy) (s : σ) :
    let outcome := (classes.allM visit).run s
    (classes.allM (noting visit)).run (s, called) =
      (outcome.1, outcome.2, called ++ untilRefused visit classes s) := by
  induction classes generalizing s called with
  | nil =>
      rw [untilRefused, List.take_nil, List.append_nil]
      rfl
  | cons c classes ih =>
      obtain ⟨more, s', h⟩ : ∃ more s', (visit c).run s = (more, s') := ⟨_, _, rfl⟩
      rw [untilRefused_cons h, run_allM_cons h, run_allM_cons (run_noting h called)]
      cases more with
      | true =>
          have hrest := ih (called ++ [c]) s'
          simpa using hrest
      | false => rfl

theorem refused_last (classes : List ClassTy) (s : σ) :
    let answers := (((untilRefused visit classes s).mapM visit).run s).1
    (∀ more ∈ answers.dropLast, more = true) ∧
      (answers.all id → untilRefused visit classes s = classes) := by
  induction classes generalizing s with
  | nil => exact ⟨nofun, fun _ => rfl⟩
  | cons c classes ih =>
      obtain ⟨more, s', h⟩ : ∃ more s', (visit c).run s = (more, s') := ⟨_, _, rfl⟩
      rw [untilRefused_cons h, run_mapM_cons h]
      cases more with
      | true =>
          obtain ⟨hbefore, hall⟩ := ih s'
          refine ⟨fun answer hanswer => ?_, fun hmore => congrArg (c :: ·) (hall hmore)⟩
          cases hrest : (((untilRefused visit classes s').mapM visit).run s').1 with
          | nil => simp [hrest] at hanswer
          | cons next rest =>
              rw [hrest] at hbefore
              rcases List.mem_cons.1 (by simpa [hrest] using hanswer) with rfl | hanswer
              · rfl
              · exact hbefore answer hanswer
      | false => exact ⟨nofun, nofun⟩

end Visitor

end Ty

namespace PerfectClass

variable {c : ClassTy}

theorem run_visit_anonymous (h : c.isAnonymous = true) (best : PerfectClass) :
    (visit c).run best = (true, { best with anonymous := best.anonymous <|> some c }) := by
  change StateT.run (if c.isAnonymous then _ else _) best = _
  rw [if_pos h]
  rfl

theorem run_visit_global (h : c.isAnonymous = false) (hglobal : c.isGlobal = true)
    (best : PerfectClass) :
    (visit c).run best = (true, { best with global := best.global <|> some c }) := by
  change StateT.run (if c.isAnonymous then _ else if c.isGlobal then _ else _) best = _
  rw [if_neg (by simp [h]), if_pos hglobal]
  rfl

theorem run_visit_concrete (h : c.isConcrete = true) (best : PerfectClass) :
    (visit c).run best = (false, { best with concrete := some c }) := by
  obtain ⟨hglobal, hanonymous⟩ : c.isGlobal = false ∧ c.isAnonymous = false := by
    simpa [ClassTy.isConcrete] using h
  change StateT.run (if c.isAnonymous then _ else if c.isGlobal then _ else _) best = _
  rw [if_neg (by simp [hanonymous]), if_neg (by simp [hglobal])]
  rfl

/-- Of the classes of a walk, the first concrete one is the best, then the first global one, then
the first anonymous one. What was remembered before comes first among its kind. -/
theorem best_of_walk (classes : List ClassTy) (best : PerfectClass) (hbest : best.concrete = none) :
    let final := ((classes.allM visit).run best).2
    (final.concrete <|> final.global <|> final.anonymous) =
      (classes.find? ClassTy.isConcrete <|>
        (best.global <|> classes.find? fun c => c.isGlobal && !c.isAnonymous) <|>
        (best.anonymous <|> classes.find? ClassTy.isAnonymous)) := by
  induction classes generalizing best with
  | nil =>
      change (best.concrete <|> best.global <|> best.anonymous) = _
      simp [hbest]
  | cons c classes ih =>
      cases hanonymous : c.isAnonymous with
      | true =>
          rw [Ty.run_allM_cons (run_visit_anonymous hanonymous best), if_pos rfl]
          refine (ih { best with anonymous := best.anonymous <|> some c } hbest).trans ?_
          rw [List.find?_cons_of_neg (by simp [ClassTy.isConcrete, hanonymous]),
            List.find?_cons_of_neg (by simp [hanonymous]), List.find?_cons_of_pos hanonymous]
          cases best.anonymous <;> rfl
      | false =>
          cases hglobal : c.isGlobal with
          | true =>
              rw [Ty.run_allM_cons (run_visit_global hanonymous hglobal best), if_pos rfl]
              refine (ih { best with global := best.global <|> some c } hbest).trans ?_
              rw [List.find?_cons_of_neg (by simp [ClassTy.isConcrete, hglobal]),
                List.find?_cons_of_pos (by simp [hglobal, hanonymous]),
                List.find?_cons_of_neg (by simp [hanonymous])]
              cases best.global <;> rfl
          | false =>
              have hconcrete : c.isConcrete = true := by
                simp [ClassTy.isConcrete, hglobal, hanonymous]
              rw [Ty.run_allM_cons (run_visit_concrete hconcrete best), if_neg nofun,
                List.find?_cons_of_pos hconcrete]
              rfl

end PerfectClass

namespace Ty

theorem perfectClass_eq (t : Ty) :
    t.perfectClass =
      (t.topClasses.find? ClassTy.isConcrete <|>
        (t.topClasses.find? fun c => c.isGlobal && !c.isAnonymous) <|>
        t.topClasses.find? ClassTy.isAnonymous) := by
  rw [perfectClass, eachTopClass_eq_allM]
  exact PerfectClass.best_of_walk t.topClasses {} rfl

/-- A visitor is called on the top classes in order, up to and including the first one on which it
asks for no more, and the answer tells whether there was none. The class behind a type is the first
concrete top class, else the first global one, else the first anonymous one. -/
theorem traversal_is_walk_cut_short (t : Ty) :
    (∀ {σ : Type} (visit : ClassTy → StateM σ Bool) (s : σ),
      let called := untilRefused visit t.topClasses s
      let outcome := (called.mapM visit).run s
      (t.eachTopClass visit).run s = (outcome.1.all id, outcome.2) ∧
      (t.eachTopClass (noting visit)).run (s, []) = (outcome.1.all id, outcome.2, called) ∧
      (∀ more ∈ outcome.1.dropLast, more = true) ∧
      (outcome.1.all id → called = t.topClasses)) ∧
    t.perfectClass =
      (t.topClasses.find? ClassTy.isConcrete <|>
        (t.topClasses.find? fun c => c.isGlobal && !c.isAnonymous) <|>
        t.topClasses.find? ClassTy.isAnonymous) := by
  refine ⟨fun visit s => ?_, t.perfectClass_eq⟩
  rw [eachTopClass_eq_allM, eachTopClass_eq_allM, run_allM_noting, run_allM]
  exact ⟨rfl, rfl, refused_last visit t.topClasses s⟩

end Ty

end LuaTypes
