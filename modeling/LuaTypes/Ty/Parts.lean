import LuaTypes.Ty.Basic

namespace LuaTypes

mutual

/-- The type and everything in it, at every depth. -/
def Ty.parts : Ty → List Ty
  | .array element => .array element :: element.parts
  | .function ⟨params, returns, varargs, generics, colon⟩ =>
      .function ⟨params, returns, varargs, generics, colon⟩ ::
        (Ty.partsOfParams params ++ (returns.parts ++ Ty.partsOfOption varargs))
  | .union members => .union members :: Ty.partsOfList members
  | .tuple members => .tuple members :: Ty.partsOfList members
  | .generic base args => .generic base args :: (base.parts ++ Ty.partsOfList args)
  | .param name bound => .param name bound :: Ty.partsOfOption bound
  | .unknown => [.unknown]
  | .nil => [.nil]
  | .void => [.void]
  | .primitive p => [.primitive p]
  | .ofClass c => [.ofClass c]
termination_by structural t => t

def Ty.partsOfList : List Ty → List Ty
  | [] => []
  | t :: ts => t.parts ++ Ty.partsOfList ts
termination_by structural ts => ts

def Ty.partsOfParams : List (String × Ty) → List Ty
  | [] => []
  | (_, t) :: ps => t.parts ++ Ty.partsOfParams ps
termination_by structural ps => ps

def Ty.partsOfOption : Option Ty → List Ty
  | none => []
  | some t => t.parts
termination_by structural o => o

end

namespace Ty

theorem partsOfList_eq_flatMap (ts : List Ty) : partsOfList ts = ts.flatMap parts := by
  induction ts with
  | nil => rfl
  | cons t ts ih => simp [partsOfList, ih]

theorem partsOfParams_eq_flatMap (ps : List (String × Ty)) :
    partsOfParams ps = ps.flatMap fun p => p.2.parts := by
  induction ps with
  | nil => rfl
  | cons p ps ih => simp [partsOfParams, ih]

theorem partsOfOption_eq_flatMap (t : Option Ty) : partsOfOption t = t.toList.flatMap parts := by
  cases t <;> simp [partsOfOption]

theorem self_mem_parts (t : Ty) : t ∈ t.parts := by
  cases t with
  | function signature =>
      obtain ⟨params, returns, varargs, generics, colon⟩ := signature
      exact List.mem_cons_self
  | _ => exact List.mem_cons_self

/-- Holds of the type and of everything in it. -/
def Everywhere (p : Ty → Prop) (t : Ty) : Prop :=
  ∀ u ∈ t.parts, p u

instance (p : Ty → Prop) [DecidablePred p] (t : Ty) : Decidable (t.Everywhere p) :=
  inferInstanceAs (Decidable (∀ u ∈ t.parts, p u))

section Everywhere

variable {p q : Ty → Prop} {t : Ty}

theorem Everywhere.self (h : t.Everywhere p) : p t :=
  h t t.self_mem_parts

theorem Everywhere.imp (himp : ∀ u, p u → q u) (h : t.Everywhere p) : t.Everywhere q :=
  fun u hu => himp u (h u hu)

theorem Everywhere.and (h : t.Everywhere p) (h' : t.Everywhere q) :
    t.Everywhere fun u => p u ∧ q u :=
  fun u hu => ⟨h u hu, h' u hu⟩

theorem everywhere_array_iff {element : Ty} :
    (array element).Everywhere p ↔ p (array element) ∧ element.Everywhere p :=
  List.forall_mem_cons

theorem everywhere_function_iff {s : Signature Ty} :
    (function s).Everywhere p ↔ p (function s) ∧ (∀ x ∈ s.params, x.2.Everywhere p) ∧
      s.returns.Everywhere p ∧ ∀ v ∈ s.varargs, v.Everywhere p := by
  obtain ⟨params, returns, varargs, generics, colon⟩ := s
  simp only [Everywhere, parts, partsOfParams_eq_flatMap, partsOfOption_eq_flatMap,
    List.forall_mem_cons, List.forall_mem_append, List.forall_mem_flatMap, Option.mem_toList,
    Option.mem_def]

theorem everywhere_union_iff {members : List Ty} :
    (union members).Everywhere p ↔ p (union members) ∧ ∀ m ∈ members, m.Everywhere p := by
  simp only [Everywhere, parts, partsOfList_eq_flatMap, List.forall_mem_cons,
    List.forall_mem_flatMap]

theorem everywhere_tuple_iff {members : List Ty} :
    (tuple members).Everywhere p ↔ p (tuple members) ∧ ∀ m ∈ members, m.Everywhere p := by
  simp only [Everywhere, parts, partsOfList_eq_flatMap, List.forall_mem_cons,
    List.forall_mem_flatMap]

theorem everywhere_generic_iff {base : Ty} {args : List Ty} :
    (generic base args).Everywhere p ↔
      p (generic base args) ∧ base.Everywhere p ∧ ∀ a ∈ args, a.Everywhere p := by
  simp only [Everywhere, parts, partsOfList_eq_flatMap, List.forall_mem_cons,
    List.forall_mem_append, List.forall_mem_flatMap]

theorem everywhere_param_iff {name : String} {bound : Option Ty} :
    (param name bound).Everywhere p ↔
      p (param name bound) ∧ ∀ b ∈ bound, b.Everywhere p := by
  simp only [Everywhere, parts, partsOfOption_eq_flatMap, List.forall_mem_cons,
    List.forall_mem_flatMap, Option.mem_toList, Option.mem_def]

theorem Everywhere.parts (h : t.Everywhere p) : t.Everywhere (Everywhere p) := by
  induction t with
  | unknown | nil | void | primitive _ | ofClass _ => exact List.forall_mem_singleton.2 h
  | array element ih =>
      exact everywhere_array_iff.2 ⟨h, ih (everywhere_array_iff.1 h).2⟩
  | function s ihParams ihReturns ihVarargs =>
      obtain ⟨-, hparams, hreturns, hvarargs⟩ := everywhere_function_iff.1 h
      exact everywhere_function_iff.2 ⟨h, fun x hx => ihParams x hx (hparams x hx),
        ihReturns hreturns, fun v hv => ihVarargs v hv (hvarargs v hv)⟩
  | union members ih =>
      have hmembers := (everywhere_union_iff.1 h).2
      exact everywhere_union_iff.2 ⟨h, fun m hm => ih m hm (hmembers m hm)⟩
  | tuple members ih =>
      have hmembers := (everywhere_tuple_iff.1 h).2
      exact everywhere_tuple_iff.2 ⟨h, fun m hm => ih m hm (hmembers m hm)⟩
  | generic base args ihBase ihArgs =>
      obtain ⟨-, hbase, hargs⟩ := everywhere_generic_iff.1 h
      exact everywhere_generic_iff.2 ⟨h, ihBase hbase, fun a ha => ihArgs a ha (hargs a ha)⟩
  | param name bound ih =>
      have hbound := (everywhere_param_iff.1 h).2
      exact everywhere_param_iff.2 ⟨h, fun b hb => ih b hb (hbound b hb)⟩

end Everywhere

end Ty

end LuaTypes
