import LuaTypes.Inference.Rules
import LuaTypes.Proofs.ClassReplacement

/-!
Operations on types whose class values are replaced by others of the same names. Types are told
apart by the names of their classes alone, so it makes no difference whether class values are
replaced before types are united, taken apart, filled in or matched, or afterwards.
-/

namespace LuaTypes

variable {f : ClassTy → ClassTy}

namespace UnionBuilder

def mapClasses (f : ClassTy → ClassTy) (b : UnionBuilder) : UnionBuilder :=
  { members := b.members.map (Ty.mapClasses f) }

theorem build_mapClasses (b : UnionBuilder) : (b.mapClasses f).build = b.build.mapClasses f := by
  obtain ⟨members⟩ := b
  match members with
  | [] => rfl
  | [t] => rfl
  | t :: u :: rest => exact congrArg Ty.union (Ty.mapClassesList_eq_map (t :: u :: rest)).symm

variable (hname : ∀ c, (f c).name = c.name) (b : UnionBuilder)

include hname

theorem insert_mapClasses (t : Ty) :
    (b.mapClasses f).insert (t.mapClasses f) = (b.insert t).mapClasses f := by
  have hany : ((b.members.map (Ty.mapClasses f)).any fun m => m == t.mapClasses f) =
      b.members.any fun m => m == t := by
    rw [List.any_map]
    exact List.any_congr rfl fun m => Ty.mapClasses_beq_mapClasses hname m t
  simp only [insert, mapClasses, hany]
  split
  · rfl
  · simp only [List.map_append, List.map_cons, List.map_nil]

theorem foldl_insert_mapClasses (ts : List Ty) :
    (ts.map (Ty.mapClasses f)).foldl insert (b.mapClasses f) =
      (ts.foldl insert b).mapClasses f := by
  induction ts generalizing b with
  | nil => rfl
  | cons t ts ih =>
      rw [List.map_cons, List.foldl_cons, List.foldl_cons, b.insert_mapClasses hname, ih]

theorem add_mapClasses (t : Ty) :
    (b.mapClasses f).add (t.mapClasses f) = (b.add t).mapClasses f := by
  cases t with
  | union members =>
      rw [Ty.mapClasses, Ty.mapClassesList_eq_map]
      exact b.foldl_insert_mapClasses hname members
  | unknown => rfl
  | nil => rfl
  | void => rfl
  | primitive p => exact b.insert_mapClasses hname (.primitive p)
  | ofClass c => exact b.insert_mapClasses hname (.ofClass c)
  | array element => exact b.insert_mapClasses hname (.array element)
  | function s => exact b.insert_mapClasses hname (.function s)
  | tuple members => exact b.insert_mapClasses hname (.tuple members)
  | generic base args => exact b.insert_mapClasses hname (.generic base args)
  | param name bound => exact b.insert_mapClasses hname (.param name bound)

end UnionBuilder

namespace Ty

theorem mapClasses_ne_unknown {t : Ty} (h : t ≠ .unknown) : t.mapClasses f ≠ .unknown := by
  cases t with
  | unknown => exact absurd rfl h
  | _ => nofun

theorem ofValues_mapClasses (ts : List Ty) :
    ofValues (ts.map (mapClasses f)) = (ofValues ts).mapClasses f := by
  match ts with
  | [] => rfl
  | [t] => rfl
  | t :: u :: rest => exact congrArg tuple (mapClassesList_eq_map (t :: u :: rest)).symm

theorem values_mapClasses (t : Ty) : (t.mapClasses f).values = t.values.map (mapClasses f) := by
  cases t with
  | tuple members => exact mapClassesList_eq_map members
  | _ => rfl

section Names

variable (hname : ∀ c, (f c).name = c.name)

include hname

theorem unite_mapClasses (a b : Ty) :
    (a.mapClasses f).unite (b.mapClasses f) = (a.unite b).mapClasses f := by
  have hbuild (first second : Ty) :
      ((({} : UnionBuilder).add (first.mapClasses f)).add (second.mapClasses f)).build =
        ((({} : UnionBuilder).add first).add second).build.mapClasses f := by
    rw [← UnionBuilder.build_mapClasses, ← UnionBuilder.add_mapClasses hname,
      ← UnionBuilder.add_mapClasses hname]
    rfl
  simp only [unite, isInvalid_mapClasses, kind_mapClasses, hbuild]
  split
  · rfl
  · split
    · rfl
    · split <;> rfl

theorem uniteAll_mapClasses (ts : List Ty) :
    uniteAll (ts.map (mapClasses f)) = (uniteAll ts).mapClasses f := by
  have hfold (start : Ty) : (ts.map (mapClasses f)).foldl unite (start.mapClasses f) =
      (ts.foldl unite start).mapClasses f := by
    induction ts generalizing start with
    | nil => rfl
    | cons t ts ih =>
        rw [List.map_cons, List.foldl_cons, List.foldl_cons, unite_mapClasses hname, ih]
  exact hfold .unknown

theorem valueAt_mapClasses (t : Ty) (position : Nat) :
    (t.mapClasses f).valueAt position = (t.valueAt position).mapClasses f := by
  have hsingle (u : Ty) : (if position = 0 then u.mapClasses f else .nil) =
      (if position = 0 then u else .nil).mapClasses f := by
    split <;> rfl
  induction t with
  | unknown => rfl
  | nil => rfl
  | void => rfl
  | primitive p => exact hsingle (.primitive p)
  | ofClass c => exact hsingle (.ofClass c)
  | array element ih => exact hsingle (.array element)
  | function s ihParams ihReturns ihVarargs => exact hsingle (.function s)
  | union members ih =>
      rw [mapClasses, valueAt, valueAt, valuesAt_eq_map, valuesAt_eq_map, mapClassesList_eq_map,
        ← uniteAll_mapClasses hname, List.map_map, List.map_map]
      exact congrArg uniteAll (List.map_congr_left ih)
  | tuple members ih =>
      rw [mapClasses, valueAt, valueAt, mapClassesList_eq_map, List.getElem?_map]
      cases members[position]? <;> rfl
  | generic base args ihBase ihArgs => exact hsingle (.generic base args)
  | param name bound ih => exact hsingle (.param name bound)

/-- Rules that replace the same leaves, the second one by what the first one has, with other class
values. -/
def RuleMapped (f : ClassTy → ClassTy) (rule rule' : Ty → Option Ty) : Prop :=
  ∀ t, rule' (t.mapClasses f) = (rule t).map (mapClasses f)

theorem substitute_mapClasses {rule rule' : Ty → Option Ty} (hrule : RuleMapped f rule rule')
    (t : Ty) : (t.mapClasses f).substitute rule' = (t.substitute rule).mapClasses f := by
  have hleaf (u : Ty) : (rule' (u.mapClasses f)).getD (u.mapClasses f) =
      ((rule u).getD u).mapClasses f := by
    rw [hrule]
    cases rule u <;> rfl
  have hlist {ts : List Ty}
      (ih : ∀ t ∈ ts, (t.mapClasses f).substitute rule' = (t.substitute rule).mapClasses f) :
      substituteList rule' (mapClassesList f ts) =
        (substituteList rule ts).map (mapClasses f) := by
    rw [substituteList_eq_map, substituteList_eq_map, mapClassesList_eq_map, List.map_map,
      List.map_map]
    exact List.map_congr_left ih
  induction t with
  | unknown => exact hleaf .unknown
  | nil => exact hleaf .nil
  | void => exact hleaf .void
  | primitive p => exact hleaf (.primitive p)
  | ofClass c => exact hleaf (.ofClass c)
  | array element ih => exact congrArg array ih
  | function s ihParams ihReturns ihVarargs =>
      obtain ⟨params, returns, varargs, generics, colon⟩ := s
      have hparams : substituteParams rule' (mapClassesParams f params) =
          mapClassesParams f (substituteParams rule params) := by
        simp only [substituteParams_eq_map, mapClassesParams_eq_map, List.map_map]
        exact List.map_congr_left fun x hx => congrArg (Prod.mk x.1) (ihParams x hx)
      have hvarargs : substituteOption rule' (mapClassesOption f varargs) =
          mapClassesOption f (substituteOption rule varargs) := by
        cases varargs with
        | none => rfl
        | some v => exact congrArg some (ihVarargs v rfl)
      simp only [mapClasses, substitute, hparams, hvarargs, ihReturns]
  | union members ih =>
      rw [mapClasses, substitute, substitute, hlist ih, uniteAll_mapClasses hname]
  | tuple members ih =>
      rw [mapClasses, substitute, substitute, hlist ih, ofValues_mapClasses]
  | generic base args ihBase ihArgs =>
      rw [mapClasses, substitute, substitute, hlist ihArgs, ihBase, mapClasses,
        mapClassesList_eq_map]
  | param name bound ih => exact hleaf (.param name bound)

theorem ruleMapped_selfRule (receiver : Ty) :
    RuleMapped f (selfRule receiver) (selfRule (receiver.mapClasses f)) := by
  intro t
  cases t with
  | ofClass c =>
      simp only [mapClasses, selfRule, hname]
      split <;> rfl
  | _ => rfl

end Names

end Ty

namespace Bindings

def mapClasses (f : ClassTy → ClassTy) (b : Bindings) : Bindings :=
  { entries := b.entries.map fun e => (e.1, e.2.mapClasses f) }

variable (b : Bindings)

theorem get?_mapClasses (name : String) :
    (b.mapClasses f).get? name = (b.get? name).map (Ty.mapClasses f) := by
  obtain ⟨entries⟩ := b
  change (entries.map fun e => (e.1, e.2.mapClasses f)).lookup name =
    (entries.lookup name).map (Ty.mapClasses f)
  induction entries with
  | nil => rfl
  | cons e entries ih =>
      rw [List.map_cons, List.lookup_cons, List.lookup_cons]
      cases name == e.1 with
      | true => rfl
      | false => exact ih

theorem ruleMapped_rule : Ty.RuleMapped f b.rule (b.mapClasses f).rule := by
  intro t
  cases t with
  | param name bound => exact b.get?_mapClasses name
  | _ => rfl

variable (hname : ∀ c, (f c).name = c.name)

include hname

theorem bind_mapClasses (name : String) (t : Ty) :
    (b.mapClasses f).bind name (t.mapClasses f) = (b.bind name t).mapClasses f := by
  obtain ⟨entries⟩ := b
  refine congrArg Bindings.mk ?_
  change bind.go name (t.mapClasses f) (entries.map fun e => (e.1, e.2.mapClasses f)) =
    (bind.go name t entries).map fun e => (e.1, e.2.mapClasses f)
  induction entries with
  | nil => rfl
  | cons e entries ih =>
      rw [List.map_cons, bind.go, bind.go, ih, Ty.unite_mapClasses hname]
      split <;> rfl

theorem foldl_learnMember_mapClasses (members : List Ty) (actual : Ty) :
    (members.map (Ty.mapClasses f)).foldl (learnMember (actual.mapClasses f)) (b.mapClasses f) =
      (members.foldl (learnMember actual) b).mapClasses f := by
  induction members generalizing b with
  | nil => rfl
  | cons m members ih =>
      have hmember : (b.mapClasses f).learnMember (actual.mapClasses f) (m.mapClasses f) =
          (b.learnMember actual m).mapClasses f := by
        cases m with
        | param name bound => exact b.bind_mapClasses hname name actual
        | _ => rfl
      rw [List.map_cons, List.foldl_cons, List.foldl_cons, hmember, ih]

omit hname in
theorem learn_param (name : String) (bound : Option Ty) {actual : Ty} (h : actual ≠ .unknown) :
    b.learn (.param name bound) actual = b.bind name actual := by
  cases actual with
  | unknown => exact absurd rfl h
  | _ => rfl

omit hname in
theorem learn_union (members : List Ty) {actual : Ty} (h : actual ≠ .unknown) :
    b.learn (.union members) actual = members.foldl (learnMember actual) b := by
  cases actual with
  | unknown => exact absurd rfl h
  | _ => rfl

omit hname in
theorem learnList_mapClasses_of {declared : List Ty} (actual : List Ty)
    (h : ∀ t ∈ declared, ∀ (b : Bindings) actual,
      (b.mapClasses f).learn (t.mapClasses f) (actual.mapClasses f) =
        (b.learn t actual).mapClasses f) :
    (b.mapClasses f).learnList (declared.map (Ty.mapClasses f)) (actual.map (Ty.mapClasses f)) =
      (b.learnList declared actual).mapClasses f := by
  induction declared generalizing b actual with
  | nil => cases actual <;> rfl
  | cons t declared ih =>
      rw [List.forall_mem_cons] at h
      cases actual with
      | nil => rfl
      | cons u actual => rw [List.map_cons, List.map_cons, learnList, learnList, h.1, ih _ _ h.2]

theorem learn_mapClasses (declared actual : Ty) :
    (b.mapClasses f).learn (declared.mapClasses f) (actual.mapClasses f) =
      (b.learn declared actual).mapClasses f := by
  induction declared generalizing b actual with
  | param name bound ih =>
      by_cases h : actual = .unknown
      · rw [h]
        rfl
      · rw [Ty.mapClasses, b.learn_param _ _ h, learn_param _ _ _ (Ty.mapClasses_ne_unknown h),
          b.bind_mapClasses hname]
  | array element ih =>
      cases actual with
      | array actual => exact ih b actual
      | _ => rfl
  | function s ihParams ihReturns ihVarargs =>
      cases actual with
      | function actual =>
          obtain ⟨params, returns, varargs, generics, colon⟩ := s
          obtain ⟨params', returns', varargs', generics', colon'⟩ := actual
          have hparams := b.learnList_mapClasses_of (params'.map Prod.snd)
            (List.forall_mem_map.2 ihParams)
          simp only [List.map_map] at hparams
          simp only [Ty.mapClasses, learn, learnParams_eq_learnList, Ty.mapClassesParams_eq_map,
            List.map_map, ← ihReturns]
          exact congrArg (fun b => learn b (returns.mapClasses f) (returns'.mapClasses f)) hparams
      | _ => rfl
  | union members ih =>
      by_cases h : actual = .unknown
      · rw [h]
        rfl
      · rw [Ty.mapClasses, b.learn_union _ h,
          learn_union _ _ (Ty.mapClasses_ne_unknown h), Ty.mapClassesList_eq_map,
          b.foldl_learnMember_mapClasses hname]
  | generic base args ihBase ihArgs =>
      cases actual with
      | generic base' args' =>
          simp only [Ty.mapClasses, Ty.mapClassesList_eq_map, learn, List.length_map]
          split
          · exact b.learnList_mapClasses_of args' ihArgs
          · rfl
      | _ => rfl
  | _ => cases actual <;> rfl

theorem learnList_mapClasses (declared actual : List Ty) :
    (b.mapClasses f).learnList (declared.map (Ty.mapClasses f)) (actual.map (Ty.mapClasses f)) =
      (b.learnList declared actual).mapClasses f :=
  b.learnList_mapClasses_of actual fun t _ b actual => b.learn_mapClasses hname t actual

end Bindings

namespace Signature

def mapClasses (f : ClassTy → ClassTy) (s : Signature Ty) : Signature Ty :=
  ⟨Ty.mapClassesParams f s.params, s.returns.mapClasses f, Ty.mapClassesOption f s.varargs,
    s.generics, s.colon⟩

end Signature

def CallAlignment.mapClasses (f : ClassTy → ClassTy) (call : CallAlignment) : CallAlignment :=
  { params := Ty.mapClassesParams f call.params
    args := call.args.map (Ty.mapClasses f)
    bindings := call.bindings.mapClasses f
    self := call.self.map (Ty.mapClasses f) }

section Calls

variable (hname : ∀ c, (f c).name = c.name)

include hname

theorem Signature.align_mapClasses (s : Signature Ty) (receiver : Option Ty) (args : List Ty)
    (colon : Bool) :
    (s.mapClasses f).align (receiver.map (Ty.mapClasses f)) (args.map (Ty.mapClasses f)) colon =
      (s.align receiver args colon).mapClasses f := by
  obtain ⟨params, returns, varargs, generics, scolon⟩ := s
  cases colon with
  | true =>
      cases scolon with
      | true => rfl
      | false =>
          match params, receiver with
          | first :: rest, some r =>
              have hlearn := Bindings.learn_mapClasses {} hname first.2 r
              exact congrArg (fun b => CallAlignment.mk (Ty.mapClassesParams f rest)
                (args.map (Ty.mapClasses f)) b (some (r.mapClasses f))) hlearn
          | [], _ => rfl
          | _ :: _, none => rfl
  | false =>
      cases scolon with
      | false => rfl
      | true => cases args <;> rfl

theorem Signature.instantiate_mapClasses (s : Signature Ty) (receiver : Option Ty)
    (args : List Ty) (colon : Bool) :
    (s.mapClasses f).instantiate (receiver.map (Ty.mapClasses f)) (args.map (Ty.mapClasses f))
        colon =
      (s.instantiate receiver args colon).mapClasses f := by
  unfold instantiate
  rw [align_mapClasses hname]
  obtain ⟨params, args, bindings, self⟩ := s.align receiver args colon
  have hlearnt := bindings.learnList_mapClasses hname (params.map Prod.snd) args
  rw [List.map_map] at hlearnt
  have hreturns : (s.returns.mapClasses f).substitute
      ((bindings.mapClasses f).learnList ((Ty.mapClassesParams f params).map Prod.snd)
        (args.map (Ty.mapClasses f))).rule =
      (s.returns.substitute (bindings.learnList (params.map Prod.snd) args).rule).mapClasses f := by
    rw [Ty.mapClassesParams_eq_map, List.map_map]
    refine Eq.trans ?_ (Ty.substitute_mapClasses hname (Bindings.ruleMapped_rule _) _)
    exact congrArg (fun b => (s.returns.mapClasses f).substitute (Bindings.rule b)) hlearnt
  cases self with
  | none => exact hreturns
  | some self =>
      refine Eq.trans ?_ (Ty.substitute_mapClasses hname (Ty.ruleMapped_selfRule hname self) _)
      exact congrArg (Ty.substitute (Ty.selfRule (self.mapClasses f))) hreturns

omit hname in
theorem Sources.functionsOf_mapClasses (t : Ty) :
    functionsOf (t.mapClasses f) = (functionsOf t).map (Signature.mapClasses f) := by
  rw [functionsOf, functionsOf, Ty.members_mapClasses, List.filterMap_map, List.map_filterMap]
  refine List.filterMap_congr fun m _ => ?_
  cases m <;> rfl

end Calls

end LuaTypes
