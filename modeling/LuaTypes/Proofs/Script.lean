import LuaTypes.Inference.Request

namespace LuaTypes

/-- The context that asks for a query under the conditions of another context. -/
def Query.context (q : Query) (base : SearchContext) : SearchContext :=
  { base with position := q.position, allValues := q.allValues }

/-- Two contexts set the same conditions: what they want may differ, not where it is sought. -/
def SearchContext.Under (ctx base : SearchContext) : Prop :=
  ctx.dumb = base.dumb ∧ ctx.scope = base.scope

theorem SearchContext.Under.refl (ctx : SearchContext) : ctx.Under ctx :=
  ⟨rfl, rfl⟩

theorem SearchContext.Under.query_context {ctx base : SearchContext} (h : ctx.Under base)
    (node : NodeId) : (ctx.query node).context base = ctx := by
  obtain ⟨position, allValues, dumb, scope⟩ := ctx
  obtain ⟨hdumb, hscope⟩ := h
  simp_all [SearchContext.query, Query.context]

theorem SearchContext.Under.context_eq {ctx base : SearchContext} (h : ctx.Under base)
    (q : Query) : q.context ctx = q.context base := by
  obtain ⟨hdumb, hscope⟩ := h
  simp [Query.context, hdumb, hscope]

@[simp] theorem SearchContext.atPosition_under_iff {ctx base : SearchContext} {position : Nat} :
    (ctx.atPosition position).Under base ↔ ctx.Under base :=
  Iff.rfl

@[simp] theorem SearchContext.forAllValues_under_iff {ctx base : SearchContext} :
    ctx.forAllValues.Under base ↔ ctx.Under base :=
  Iff.rfl

@[simp] theorem Query.query_context (q : Query) (base : SearchContext) :
    (q.context base).query q.node = q := rfl

theorem Query.context_under (q : Query) (base : SearchContext) : (q.context base).Under base :=
  ⟨rfl, rfl⟩

/-- A computation that asks for the types of expressions and builds types of its own. -/
inductive Script (α : Type) where
  | done (a : α)
  | ask (q : Query) (next : Ty → Script α)
  | make (t : Ty) (next : Ty → Script α)
  | consult (c : ClassTy) (next : Script α)

namespace Script

variable {α β : Type}

def bind : Script α → (α → Script β) → Script β
  | .done a, f => f a
  | .ask q next, f => .ask q fun t => (next t).bind f
  | .make t next, f => .make t fun u => (next u).bind f
  | .consult c next, f => .consult c (next.bind f)

instance : Monad Script where
  pure := done
  bind := bind

theorem bind_done (s : Script α) : s.bind done = s := by
  induction s with
  | done a => rfl
  | ask q next ih => exact congrArg (ask q) (funext ih)
  | make t next ih => exact congrArg (make t) (funext ih)
  | consult c next ih => exact congrArg (consult c) ih

theorem bind_bind {γ : Type} (s : Script α) (f : α → Script β) (g : β → Script γ) :
    (s.bind f).bind g = s.bind fun a => (f a).bind g := by
  induction s with
  | done a => rfl
  | ask q next ih => exact congrArg (ask q) (funext ih)
  | make t next ih => exact congrArg (make t) (funext ih)
  | consult c next ih => exact congrArg (consult c) ih

instance : LawfulMonad Script :=
  LawfulMonad.mk' Script bind_done (fun _ _ => rfl) bind_bind

/-- The recursion that writes down what it is asked for. -/
def asking : Recursion Script where
  infer node ctx := .ask (ctx.query node) .done
  make t := .make t .done
  consult c := .consult c (.done ())

section Run

variable {m : Type → Type} [Monad m] (base : SearchContext) (eval : Recursion m)

def run : Script α → m α
  | .done a => pure a
  | .ask q next => do (next (← eval.infer q.node (q.context base))).run
  | .make t next => do (next (← eval.make t)).run
  | .consult c next => do
      eval.consult c
      next.run

@[simp] theorem run_pure (a : α) : (pure a : Script α).run base eval = pure a := rfl

variable [LawfulMonad m]

@[simp] theorem run_bind (s : Script α) (f : α → Script β) :
    (s >>= f).run base eval = s.run base eval >>= fun a => (f a).run base eval := by
  induction s with
  | done a => exact (pure_bind a fun a => (f a).run base eval).symm
  | ask q next ih =>
      change (eval.infer _ _ >>= fun t => (next t >>= f).run base eval) = _
      simp only [ih, run, bind_assoc]
  | make t next ih =>
      change (eval.make t >>= fun u => (next u >>= f).run base eval) = _
      simp only [ih, run, bind_assoc]
  | consult c next ih =>
      change (eval.consult c >>= fun _ => (next >>= f).run base eval) = _
      simp only [ih, run, bind_assoc]

@[simp] theorem run_map (s : Script α) (f : α → β) :
    (f <$> s).run base eval = f <$> s.run base eval := by
  rw [map_eq_pure_bind, run_bind, map_eq_pure_bind]
  rfl

theorem run_mapM (f : α → Script β) (as : List α) :
    (as.mapM f).run base eval = as.mapM fun a => (f a).run base eval := by
  induction as with
  | nil => simp
  | cons a as ih => simp [ih]

theorem run_foldlM (f : β → α → Script β) (b : β) (as : List α) :
    (as.foldlM f b).run base eval = as.foldlM (fun b a => (f b a).run base eval) b := by
  induction as generalizing b with
  | nil => rfl
  | cons a as ih => simp [ih]

variable {base}

@[simp] theorem run_asking_infer {ctx : SearchContext} (h : ctx.Under base) (node : NodeId) :
    (asking.infer node ctx).run base eval = eval.infer node ctx := by
  simp only [asking, run, bind_pure, h.query_context]
  rfl

@[simp] theorem run_asking_make (t : Ty) : (asking.make t).run base eval = eval.make t :=
  bind_pure (eval.make t)

@[simp] theorem run_asking_consult (c : ClassTy) :
    (asking.consult c).run base eval = eval.consult c :=
  bind_pure (eval.consult c)

end Run

end Script

namespace Sources

open Script

variable {m : Type → Type} [Monad m] [LawfulMonad m] (src : Sources) {base ctx : SearchContext}
  (eval : Recursion m)

theorem run_inferList (h : ctx.Under base) (exprs : List NodeId) :
    (inferList asking exprs ctx).run base eval = inferList eval exprs ctx := by
  unfold inferList
  cases exprs.getLast? with
  | none => rfl
  | some last => simp [run_mapM, h]

theorem run_inferName (h : ctx.Under base) (name : String) :
    (src.inferName asking name ctx).run base eval = src.inferName eval name ctx := by
  unfold inferName
  split
  · rfl
  · split
    · exact run_asking_make eval _
    · split
      · rfl
      · split
        · rfl
        · exact run_asking_infer eval (SearchContext.atPosition_under_iff.2 h) _

theorem run_classMember (h : ctx.Under base) (c : ClassTy) (name : String) :
    (src.classMember asking c name ctx).run base eval = src.classMember eval c name ctx := by
  unfold classMember
  split
  · simp [h]
  · split <;> simp

theorem run_partField (h : ctx.Under base) (part : Ty) (name : Option String) (computed : Bool) :
    (src.partField asking part name computed ctx).run base eval =
      src.partField eval part name computed ctx := by
  unfold partField
  split
  · exact src.run_classMember eval h _ _
  · exact src.run_classMember eval h _ _
  all_goals rfl

theorem run_inferIndex (h : ctx.Under base) (target : NodeId) (name : Option String)
    (computed : Bool) :
    (src.inferIndex asking target name computed ctx).run base eval =
      src.inferIndex eval target name computed ctx := by
  simp only [inferIndex, run_bind, run_foldlM, src.run_partField eval h,
    run_asking_infer eval (SearchContext.atPosition_under_iff.2 h)]
  congr 1
  funext parent
  congr 1
  funext result part
  congr 1
  funext found
  cases found <;> rfl

theorem run_inferReceiver (h : ctx.Under base) (callee : NodeId) (colon : Bool) :
    (src.inferReceiver asking callee colon ctx).run base eval =
      src.inferReceiver eval callee colon ctx := by
  unfold inferReceiver
  split
  · simp [h]
  · rfl

theorem run_inferCall (h : ctx.Under base) (callee : NodeId) (args : List NodeId)
    (colon : Bool) :
    (src.inferCall asking callee args colon ctx).run base eval =
      src.inferCall eval callee args colon ctx := by
  simp only [inferCall, run_bind, src.run_inferReceiver eval h,
    run_asking_infer eval (SearchContext.atPosition_under_iff.2 h)]
  congr 1
  funext calleeTy
  congr 1
  funext receiver
  split
  · rfl
  · simp [run_mapM, h]

theorem run_inferReturns (h : ctx.Under base) (returns : List (List NodeId))
    (docReturns : Option TypeNode) :
    (inferReturns asking returns docReturns ctx).run base eval =
      inferReturns eval returns docReturns ctx := by
  unfold inferReturns
  split
  · exact run_asking_make eval _
  · split
    · rfl
    · simp [run_mapM, run_inferList eval h]

theorem run_inferExpr (h : ctx.Under base) (node : NodeId) :
    (src.inferExpr asking node ctx).run base eval = src.inferExpr eval node ctx := by
  unfold inferExpr
  split
  · rfl
  · rfl
  · exact src.run_inferName eval h _
  · exact src.run_inferIndex eval h _ _ _
  · exact src.run_inferCall eval h _ _ _
  · exact run_asking_make eval _
  · simp [run_inferReturns eval h, run_mapM]

def script (base : SearchContext) (q : Query) : Script Ty :=
  src.inferExpr asking q.node (q.context base)

theorem script_of_under (h : ctx.Under base) (q : Query) : src.script ctx q = src.script base q :=
  congrArg (src.inferExpr asking q.node) (h.context_eq q)

theorem run_script (base : SearchContext) (q : Query) :
    (src.script base q).run base eval = src.inferExpr eval q.node (q.context base) :=
  src.run_inferExpr eval (q.context_under base) q.node

end Sources

end LuaTypes
