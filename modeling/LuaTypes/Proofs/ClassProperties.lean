import LuaTypes.Index.Memory
import LuaTypes.Proofs.TypeComposition

namespace LuaTypes

variable {p : ClassTy → Prop}

namespace Ty

/-- Holds of the type if it is a class. -/
def IfClass (p : ClassTy → Prop) : Ty → Prop
  | .ofClass c => p c
  | _ => True

instance [DecidablePred p] : DecidablePred (IfClass p)
  | .ofClass c => inferInstanceAs (Decidable (p c))
  | .unknown | .nil | .void | .primitive _ | .array _ | .function _ | .union _ | .tuple _
  | .generic _ _ | .param _ _ => isTrue trivial

/-- Holds of all class values in a type. -/
def EachClass (p : ClassTy → Prop) : Ty → Prop :=
  Everywhere (IfClass p)

instance [DecidablePred p] : DecidablePred (EachClass p) := fun t =>
  inferInstanceAs (Decidable (t.Everywhere (IfClass p)))

theorem EachClass.imp {q : ClassTy → Prop} (himp : ∀ c, p c → q c) {t : Ty} (h : t.EachClass p) :
    t.EachClass q := by
  refine Everywhere.imp (fun u hu => ?_) h
  cases u with
  | ofClass c => exact himp c hu
  | _ => trivial

theorem eachClass_ofClass_iff {c : ClassTy} : (ofClass c).EachClass p ↔ p c :=
  List.forall_mem_singleton

section Parts

variable {element base : Ty} {s : Signature Ty} {members args : List Ty} {name : String}
  {bound : Option Ty}

theorem eachClass_array_iff : (array element).EachClass p ↔ element.EachClass p :=
  everywhere_array_iff.trans (and_iff_right trivial)

theorem eachClass_function_iff :
    (function s).EachClass p ↔ (∀ x ∈ s.params, x.2.EachClass p) ∧ s.returns.EachClass p ∧
      ∀ v ∈ s.varargs, v.EachClass p :=
  everywhere_function_iff.trans (and_iff_right trivial)

theorem eachClass_union_iff : (union members).EachClass p ↔ ∀ m ∈ members, m.EachClass p :=
  everywhere_union_iff.trans (and_iff_right trivial)

theorem eachClass_tuple_iff : (tuple members).EachClass p ↔ ∀ m ∈ members, m.EachClass p :=
  everywhere_tuple_iff.trans (and_iff_right trivial)

theorem eachClass_generic_iff :
    (generic base args).EachClass p ↔ base.EachClass p ∧ ∀ a ∈ args, a.EachClass p :=
  everywhere_generic_iff.trans (and_iff_right trivial)

theorem eachClass_param_iff : (param name bound).EachClass p ↔ ∀ b ∈ bound, b.EachClass p :=
  everywhere_param_iff.trans (and_iff_right trivial)

end Parts

theorem ofLeaves_ifClass : OfLeaves (IfClass p) where
  other {t} hkind _ _ := by
    cases t with
    | ofClass c => exact absurd rfl hkind
    | _ => trivial
  generic _ _ := trivial

theorem compositional_eachClass : Compositional (EachClass p) :=
  ofLeaves_ifClass.compositional

end Ty

theorem TypeNode.eachClass_toTy
    (hwritten : ∀ form : ClassForm, (∀ node, form ≠ .tableLiteral node) → p { form })
    (n : TypeNode) : n.toTy.EachClass p := by
  refine Ty.compositional_eachClass.toTy (fun form _ hform => ?_)
    (fun base args _ hbase hargs => ?_) (fun name => ?_) n
  · exact Ty.eachClass_ofClass_iff.2 (hwritten form hform)
  · exact Ty.eachClass_generic_iff.2 ⟨hbase, hargs⟩
  · exact List.forall_mem_singleton.2 trivial

/-- Holds of all class values in the types of the members. -/
def SymbolIndex.EachClass (p : ClassTy → Prop) (ix : SymbolIndex) : Prop :=
  ∀ g ∈ ix.groups, ∀ d ∈ g.2, d.ty.EachClass p

instance [DecidablePred p] (ix : SymbolIndex) : Decidable (ix.EachClass p) :=
  inferInstanceAs (Decidable (∀ g ∈ ix.groups, ∀ d ∈ g.2, d.ty.EachClass p))

end LuaTypes
