import LuaTypes.Proofs.TypeEquality
import LuaTypes.Ty.Parts

namespace LuaTypes

mutual

def Ty.mapClasses (f : ClassTy → ClassTy) : Ty → Ty
  | .ofClass c => .ofClass (f c)
  | .array element => .array (element.mapClasses f)
  | .function ⟨params, returns, varargs, generics, colon⟩ =>
      .function ⟨Ty.mapClassesParams f params, returns.mapClasses f,
        Ty.mapClassesOption f varargs, generics, colon⟩
  | .union members => .union (Ty.mapClassesList f members)
  | .tuple members => .tuple (Ty.mapClassesList f members)
  | .generic base args => .generic (base.mapClasses f) (Ty.mapClassesList f args)
  | .param name bound => .param name (Ty.mapClassesOption f bound)
  | .unknown => .unknown
  | .nil => .nil
  | .void => .void
  | .primitive p => .primitive p
termination_by structural t => t

def Ty.mapClassesList (f : ClassTy → ClassTy) : List Ty → List Ty
  | [] => []
  | t :: ts => t.mapClasses f :: Ty.mapClassesList f ts
termination_by structural ts => ts

def Ty.mapClassesParams (f : ClassTy → ClassTy) : List (String × Ty) → List (String × Ty)
  | [] => []
  | (name, t) :: ps => (name, t.mapClasses f) :: Ty.mapClassesParams f ps
termination_by structural ps => ps

def Ty.mapClassesOption (f : ClassTy → ClassTy) : Option Ty → Option Ty
  | none => none
  | some t => some (t.mapClasses f)
termination_by structural o => o

end

/-- Two classes are written, ranked and hidden in the same way. -/
structure ClassTy.LooksLike (c d : ClassTy) : Prop where
  name : c.name = d.name
  worth : c.form.worth = d.form.worth
  anonymous : c.isAnonymous = d.isAnonymous
  global : c.isGlobal = d.isGlobal

namespace Ty

variable {f : ClassTy → ClassTy}

theorem mapClassesList_eq_map (ts : List Ty) : mapClassesList f ts = ts.map (mapClasses f) := by
  induction ts with
  | nil => rfl
  | cons t ts ih => simp [mapClassesList, ih]

theorem mapClassesParams_eq_map (ps : List (String × Ty)) :
    mapClassesParams f ps = ps.map fun p => (p.1, p.2.mapClasses f) := by
  induction ps with
  | nil => rfl
  | cons p ps ih => simp [mapClassesParams, ih]

theorem mapClassesOption_eq_map (t : Option Ty) : mapClassesOption f t = t.map (mapClasses f) := by
  cases t <;> rfl

@[simp] theorem kind_mapClasses (t : Ty) : (t.mapClasses f).kind = t.kind := by
  cases t <;> rfl

@[simp] theorem isInvalid_mapClasses (t : Ty) : (t.mapClasses f).isInvalid = t.isInvalid := by
  cases t <;> rfl

theorem members_mapClasses (t : Ty) : (t.mapClasses f).members = t.members.map (mapClasses f) := by
  cases t with
  | union members => exact mapClassesList_eq_map members
  | _ => rfl

theorem parts_mapClasses (t : Ty) : (t.mapClasses f).parts = t.parts.map (mapClasses f) := by
  induction t with
  | unknown => rfl
  | nil => rfl
  | void => rfl
  | primitive p => rfl
  | ofClass c => rfl
  | array element ih => exact congrArg (_ :: ·) ih
  | function s ihParams ihReturns ihVarargs =>
      obtain ⟨params, returns, varargs, generics, colon⟩ := s
      have hparams : partsOfParams (mapClassesParams f params) =
          (partsOfParams params).map (mapClasses f) := by
        simp only [mapClassesParams_eq_map, partsOfParams_eq_flatMap, List.flatMap_map,
          List.map_flatMap]
        exact List.flatMap_congr ihParams
      have hvarargs : partsOfOption (mapClassesOption f varargs) =
          (partsOfOption varargs).map (mapClasses f) := by
        cases varargs with
        | none => rfl
        | some v => exact ihVarargs v rfl
      simp only [mapClasses, parts, hparams, hvarargs, ihReturns, List.map_cons, List.map_append]
  | union members ih =>
      simp only [mapClasses, parts, List.map_cons, partsOfList_eq_flatMap, mapClassesList_eq_map,
        List.flatMap_map, List.map_flatMap]
      exact congrArg (_ :: ·) (List.flatMap_congr ih)
  | tuple members ih =>
      simp only [mapClasses, parts, List.map_cons, partsOfList_eq_flatMap, mapClassesList_eq_map,
        List.flatMap_map, List.map_flatMap]
      exact congrArg (_ :: ·) (List.flatMap_congr ih)
  | generic base args ihBase ihArgs =>
      simp only [mapClasses, parts, List.map_cons, List.map_append, partsOfList_eq_flatMap,
        mapClassesList_eq_map, List.flatMap_map, List.map_flatMap, ihBase]
      exact congrArg (fun ps => _ :: (_ ++ ps)) (List.flatMap_congr ihArgs)
  | param name bound ih =>
      cases bound with
      | none => rfl
      | some b => exact congrArg (_ :: ·) (ih b rfl)

section Names

variable (hname : ∀ c, (f c).name = c.name)

include hname

theorem mapClasses_beq (t : Ty) : t.mapClasses f == t := by
  induction t with
  | unknown => rfl
  | nil => rfl
  | void => rfl
  | primitive p => exact beq_refl _
  | ofClass c => exact ofClass_beq_iff.2 ⟨c, rfl, hname c⟩
  | array element ih => exact ih
  | function s ihParams ihReturns ihVarargs =>
      obtain ⟨params, returns, varargs, generics, colon⟩ := s
      refine function_beq_iff.2 ⟨_, rfl, ?_, ihReturns, ?_, rfl⟩
      · rw [mapClassesParams_eq_map, List.map_map, List.forall₂_map_left_iff,
          List.forall₂_map_right_iff, List.forall₂_same]
        exact ihParams
      · cases varargs with
        | none => exact .nil
        | some v => exact .cons (ihVarargs v rfl) .nil
  | union members ih =>
      rw [mapClasses, mapClassesList_eq_map]
      refine union_beq_iff.2 ⟨members, rfl, by simp, List.forall_mem_map.2 fun m hm => ?_⟩
      exact ⟨m, hm, ih m hm⟩
  | tuple members ih =>
      rw [mapClasses, mapClassesList_eq_map]
      refine tuple_beq_iff.2 ⟨members, rfl, ?_⟩
      exact List.forall₂_map_left_iff.2 (List.forall₂_same.2 ih)
  | generic base args ihBase ihArgs =>
      rw [mapClasses, mapClassesList_eq_map]
      refine generic_beq_iff.2 ⟨base, args, rfl, ihBase, ?_⟩
      exact List.forall₂_map_left_iff.2 (List.forall₂_same.2 ihArgs)
  | param name bound ih =>
      cases bound with
      | none => exact beq_refl _
      | some b => exact param_beq_iff.2 ⟨_, rfl, .cons (ih b rfl) .nil⟩

omit hname in
theorem beq_map_mapClasses {as bs : List Ty}
    (h : ∀ a ∈ as, ∀ b, (a.mapClasses f == b.mapClasses f) = (a == b)) :
    (as.map (mapClasses f) == bs.map (mapClasses f)) = (as == bs) := by
  induction as generalizing bs with
  | nil => cases bs <;> rfl
  | cons a as ih =>
      rw [List.forall_mem_cons] at h
      cases bs with
      | nil => rfl
      | cons b bs => simp only [List.map_cons, List.cons_beq_cons, h.1, ih h.2]

omit hname in
theorem beq_option_mapClasses {x y : Option Ty}
    (h : ∀ a ∈ x, ∀ b, (a.mapClasses f == b.mapClasses f) = (a == b)) :
    (x.map (mapClasses f) == y.map (mapClasses f)) = (x == y) := by
  cases x with
  | none => cases y <;> rfl
  | some a =>
      cases y with
      | none => rfl
      | some b => exact h a rfl b

theorem mapClasses_beq_mapClasses (a b : Ty) :
    (a.mapClasses f == b.mapClasses f) = (a == b) := by
  induction a generalizing b with
  | unknown => cases b <;> rfl
  | nil => cases b <;> rfl
  | void => cases b <;> rfl
  | primitive p => cases b <;> rfl
  | ofClass c =>
      cases b with
      | ofClass d => simp only [mapClasses, ofClass_beq, hname]
      | _ => rfl
  | array element ih =>
      cases b with
      | array other => exact ih other
      | _ => rfl
  | function s ihParams ihReturns ihVarargs =>
      cases b with
      | function u =>
          obtain ⟨params, returns, varargs, generics, colon⟩ := s
          obtain ⟨params', returns', varargs', generics', colon'⟩ := u
          have htypes : ((params.map Prod.snd).map (mapClasses f) ==
              (params'.map Prod.snd).map (mapClasses f)) =
                (params.map Prod.snd == params'.map Prod.snd) :=
            beq_map_mapClasses (List.forall_mem_map.2 ihParams)
          simp only [List.map_map] at htypes
          simp only [mapClasses, function_beq, mapClassesParams_eq_map, mapClassesOption_eq_map,
            List.map_map, ihReturns, beq_option_mapClasses ihVarargs]
          exact congrArg (· && returns == returns' && varargs == varargs' && generics == generics')
            htypes
      | _ => rfl
  | union members ih =>
      cases b with
      | union others =>
          simp only [mapClasses, union_beq, mapClassesList_eq_map, List.length_map, List.all_map,
            List.any_map]
          refine congrArg (members.length == others.length && ·) ?_
          rw [Bool.eq_iff_iff, List.all_eq_true, List.all_eq_true]
          refine forall₂_congr fun a ha => Eq.congr_left ?_
          exact List.any_congr rfl fun b => ih a ha b
      | _ => rfl
  | tuple members ih =>
      cases b with
      | tuple others =>
          simp only [mapClasses, tuple_beq, mapClassesList_eq_map, beq_map_mapClasses ih]
      | _ => rfl
  | generic base args ihBase ihArgs =>
      cases b with
      | generic base' args' =>
          simp only [mapClasses, generic_beq, mapClassesList_eq_map, ihBase,
            beq_map_mapClasses ihArgs]
      | _ => rfl
  | param name bound ih =>
      cases b with
      | param name' bound' =>
          simp only [mapClasses, param_beq, mapClassesOption_eq_map, beq_option_mapClasses ih]
      | _ => rfl

theorem wellFormed_mapClasses_iff {t : Ty} : (t.mapClasses f).WellFormed ↔ t.WellFormed := by
  induction t with
  | unknown => rfl
  | nil => rfl
  | void => rfl
  | primitive p => rfl
  | ofClass c => rfl
  | array element ih => exact ih
  | function s ihParams ihReturns ihVarargs =>
      obtain ⟨params, returns, varargs, generics, colon⟩ := s
      rw [wellFormed_function_iff, mapClasses, wellFormed_function_iff, mapClassesParams_eq_map,
        mapClassesOption_eq_map, List.forall_mem_map, ihReturns]
      refine and_congr (forall₂_congr ihParams) (and_congr_right fun _ => ?_)
      cases varargs with
      | none => rfl
      | some v => simpa using ihVarargs v rfl
  | union members ih =>
      simp only [mapClasses, WellFormed, mapClassesList_eq_map, wellFormedList_iff,
        List.length_map, List.pairwise_map, mapClasses_beq_mapClasses hname, List.forall_mem_map,
        isInvalid_mapClasses, kind_mapClasses]
      refine and_congr_right fun _ => and_congr_right fun _ => and_congr_right fun _ => ?_
      exact forall₂_congr ih
  | tuple members ih =>
      simp only [mapClasses, WellFormed, mapClassesList_eq_map, wellFormedList_iff,
        List.length_map, List.forall_mem_map]
      exact and_congr_right fun _ => forall₂_congr ih
  | generic base args ihBase ihArgs =>
      simp only [mapClasses, WellFormed, mapClassesList_eq_map, wellFormedList_iff,
        List.forall_mem_map, ihBase]
      exact and_congr_right fun _ => forall₂_congr ihArgs
  | param name bound ih =>
      cases bound with
      | none => rfl
      | some b => exact ih b rfl

end Names

section Text

variable {t : Ty}

/-- A class comes out of the replacement looking as it did. -/
def LooksKept (f : ClassTy → ClassTy) : Ty → Prop
  | .ofClass c => (f c).LooksLike c
  | _ => True

theorem worth_mapClasses (h : t.LooksKept f) : (t.mapClasses f).worth = t.worth := by
  cases t with
  | ofClass c => exact h.worth
  | _ => rfl

theorem flags_mapClasses (h : t.LooksKept f) : (t.mapClasses f).flags = t.flags := by
  cases t with
  | ofClass c => simp [mapClasses, flags, h.anonymous, h.global]
  | _ => rfl

section Union

variable {g : Ty → Ty}

theorem shown_map {members : List (Ty × String)}
    (hflags : ∀ m ∈ members, (g m.1).flags = m.1.flags) :
    shown (members.map fun m => (g m.1, m.2)) = (shown members).map fun m => (g m.1, m.2) := by
  have hfilter : ∀ (hidden : Flags → Bool) (ms : List (Ty × String)),
      (∀ m ∈ ms, (g m.1).flags = m.1.flags) →
        (ms.map fun m => (g m.1, m.2)).filter (fun m => !hidden m.1.flags) =
          (ms.filter fun m => !hidden m.1.flags).map fun m => (g m.1, m.2) := by
    intro hidden ms hms
    rw [List.filter_map]
    refine congrArg _ (List.filter_congr fun m hm => ?_)
    simp [hms m hm]
  simp only [shown, hfilter Flags.anonymous members hflags,
    hfilter Flags.global _ fun m hm => hflags m (List.mem_of_mem_filter hm), List.isEmpty_map]
  split
  · rfl
  · split <;> rfl

theorem displayUnion_map {members : List (Ty × String)}
    (hworth : ∀ m ∈ members, (g m.1).worth = m.1.worth)
    (hflags : ∀ m ∈ members, (g m.1).flags = m.1.flags) :
    displayUnion (members.map fun m => (g m.1, m.2)) = displayUnion members := by
  have hsort : (members.map fun m => (g m.1, m.2)).mergeSort (fun a b => b.1.worth ≤ a.1.worth) =
      (members.mergeSort fun a b => b.1.worth ≤ a.1.worth).map fun m => (g m.1, m.2) := by
    refine (List.map_mergeSort fun a ha b hb => ?_).symm
    simp only [hworth a ha, hworth b hb]
  rw [displayUnion, hsort, shown_map fun m hm => hflags m (List.mem_mergeSort.1 hm), List.map_map]
  rfl

end Union

theorem map_display_mapClasses {ts : List Ty}
    (h : ∀ t ∈ ts, (t.mapClasses f).display = t.display) :
    (ts.map (mapClasses f)).map display = ts.map display := by
  rw [List.map_map]
  exact List.map_congr_left h

theorem display_mapClasses (h : t.Everywhere (LooksKept f)) :
    (t.mapClasses f).display = t.display := by
  induction t with
  | unknown => rfl
  | nil => rfl
  | void => rfl
  | primitive p => rfl
  | ofClass c => exact h.self.name
  | array element ih => exact congrArg (· ++ "[]") (ih (everywhere_array_iff.1 h).2)
  | function s ihParams ihReturns ihVarargs =>
      obtain ⟨-, hparams, hreturns, hvarargs⟩ := everywhere_function_iff.1 h
      obtain ⟨params, returns, varargs, generics, colon⟩ := s
      have hparams' : displayParams (mapClassesParams f params) = displayParams params := by
        simp only [displayParams_eq_map, mapClassesParams_eq_map, List.map_map]
        refine List.map_congr_left fun p hp => ?_
        simp [ihParams p hp (hparams p hp)]
      have hvarargs' : displayVarargs (mapClassesOption f varargs) = displayVarargs varargs := by
        cases varargs with
        | none => rfl
        | some v =>
            exact congrArg (fun text => ["...: " ++ text]) (ihVarargs v rfl (hvarargs v rfl))
      simp only [mapClasses, display, hparams', hvarargs', kind_mapClasses, ihReturns hreturns]
  | union members ih =>
      have hmembers := (everywhere_union_iff.1 h).2
      have htexts := map_display_mapClasses fun m hm => ih m hm (hmembers m hm)
      have hzip : (members.map (mapClasses f)).zip (members.map display) =
          (members.zip (members.map display)).map fun m => (m.1.mapClasses f, m.2) := by
        rw [List.zip_map_left]
        rfl
      rw [mapClasses, display, display, mapClassesList_eq_map, displayList_eq_map,
        displayList_eq_map, htexts, hzip]
      have hkept : ∀ m ∈ members.zip (members.map display), m.1.LooksKept f :=
        fun m hm => (hmembers m.1 (List.of_mem_zip hm).1).self
      exact displayUnion_map (fun m hm => worth_mapClasses (hkept m hm))
        fun m hm => flags_mapClasses (hkept m hm)
  | tuple members ih =>
      have hmembers := (everywhere_tuple_iff.1 h).2
      have htexts := map_display_mapClasses fun m hm => ih m hm (hmembers m hm)
      simp only [mapClasses, display, displayList_eq_map, mapClassesList_eq_map, htexts]
  | generic base args ihBase ihArgs =>
      obtain ⟨-, hbase, hargs⟩ := everywhere_generic_iff.1 h
      have htexts := map_display_mapClasses fun a ha => ihArgs a ha (hargs a ha)
      simp only [mapClasses, display, displayList_eq_map, mapClassesList_eq_map, htexts,
        ihBase hbase]
  | param name bound ih => rfl

end Text

end Ty

end LuaTypes
