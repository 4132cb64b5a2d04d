import LuaTypes.Proofs.SubtypeCongruence
import LuaTypes.Ty.Order

namespace LuaTypes

namespace Ty

variable {nilStrict : Bool} {climbs : ClassTy → String → Bool} {base t : Ty} {args : List Ty}

/-- What puts a generic type below another type: above a generic the arguments and the bases count,
above any other type the base alone. -/
def Takes (below : Ty → Ty → Bool) (base : Ty) (args : List Ty) : Ty → Prop
  | .generic head params => args == params ∧ below base head
  | t => below base t

theorem takes_of_kind_ne {below : Ty → Ty → Bool} (hkind : t.kind ≠ .generic) :
    Takes below base args t ↔ below base t := by
  cases t with
  | generic head params => exact absurd rfl hkind
  | _ => rfl

/-- A generic type is below another type exactly if that one takes it. If it is equal to the other
one the bases are equal as well, and what is below itself is below its equals. -/
theorem isSubtypeBy_generic_iff_takes (hbase : base.WellFormed) (ht : t.WellFormed)
    (hkind : t.kind ≠ .union) (hself : base.isSubtypeBy nilStrict climbs base) :
    (generic base args).isSubtypeBy nilStrict climbs t ↔
      Takes (isSubtypeBy nilStrict climbs) base args t := by
  by_cases hunknown : t.kind = .unknown
  · obtain rfl := eq_unknown_of_kind_eq hunknown
    exact iff_of_true (isSubtypeBy_unknown _) (isSubtypeBy_unknown base)
  by_cases hgeneric : t.kind = .generic
  · obtain ⟨head, params, rfl⟩ := exists_of_kind_eq_generic hgeneric
    rw [isSubtypeBy_generic_generic_iff, Takes, forall₂_beq_iff]
    constructor
    · rintro (hsame | ⟨hheads, hargs⟩)
      · obtain ⟨head', params', heq, hheads, hargs⟩ := generic_beq_iff.1 hsame
        cases heq
        refine ⟨hargs, ?_⟩
        exact isSubtypeBy_of_beq_right hbase.hasSoundUnions hbase.hasSoundUnions
          ht.1.hasSoundUnions hself hheads
      · exact ⟨hargs, hheads⟩
    · rintro ⟨hargs, hheads⟩
      exact .inr ⟨hheads, hargs⟩
  · rw [isSubtypeBy_generic ⟨hunknown, hkind⟩ hgeneric, takes_of_kind_ne hgeneric]

theorem isSubtypeBy_generic_base_iff (args : List Ty) (hbase : base.WellFormed)
    (hself : base.isSubtypeBy nilStrict climbs base) :
    (generic base args).isSubtypeBy nilStrict climbs base ↔
      ∃ m ∈ base.members, Takes (isSubtypeBy nilStrict climbs) base args m := by
  cases base with
  | union members =>
      rw [isSubtypeBy_union_right_iff_of_kind_ne (by simp [kind])]
      refine exists_congr fun m => and_congr_right fun hm => ?_
      have hmember := (wellFormedList_iff members).1 hbase.2.2.2 m hm
      exact isSubtypeBy_generic_iff_takes hbase hmember (hbase.2.2.1 m hm).1 hself
  | _ =>
      rw [isSubtypeBy_generic_iff_takes hbase hbase (by simp [kind]) hself]
      simp [members]

/-- A generic type is below its base, whatever its arguments, if the base is below itself and no
generic, or a union below one of its members that is no generic. In all cases a generic type is below
a base that is below itself exactly if the base, or one of its members if it is a union, takes it: a
generic with the same arguments and a base that the base in question is below, or another type that
it is below. So it is without an index and with an index in any state, strictly or not. -/
theorem base_stands_above_generic (nilStrict : Bool) (ix : SymbolIndex) (t : LinkTable) (base : Ty)
    (args : List Ty) (hbase : base.WellFormed) :
    ∀ below ∈ [isSubtype nilStrict, isSubtypeIn ix t nilStrict], below base base →
      (base.kind ≠ .generic → base.kind ≠ .union → below (generic base args) base) ∧
      ((∃ m ∈ base.members, m.kind ≠ .generic ∧ below base m) → below (generic base args) base) ∧
      (below (generic base args) base ↔ ∃ m ∈ base.members, Takes below base args m) := by
  intro below hbelow hself
  obtain ⟨climbs, rfl⟩ : ∃ climbs, below = isSubtypeBy nilStrict climbs := by
    rcases List.mem_pair.1 hbelow with rfl | rfl
    · exact ⟨fun _ _ => false, rfl⟩
    · exact ⟨ix.extends? t, rfl⟩
  have hexact := isSubtypeBy_generic_base_iff args hbase hself
  have hmember : (∃ m ∈ base.members, m.kind ≠ .generic ∧ base.isSubtypeBy nilStrict climbs m) →
      (generic base args).isSubtypeBy nilStrict climbs base := by
    rintro ⟨m, hm, hkind, habove⟩
    exact hexact.2 ⟨m, hm, (takes_of_kind_ne hkind).2 habove⟩
  refine ⟨fun hgeneric hunion => hmember ⟨base, ?_, hgeneric, hself⟩, hmember, hexact⟩
  cases base with
  | union members => exact absurd rfl hunion
  | _ => exact List.mem_singleton_self _

theorem base_stands_above_generic_through_member :
    let base := union [generic (named "A") [primitive .number], primitive .string]
    base.WellFormed ∧ base.isSubtype true base ∧ (generic base [nil]).isSubtype true base := by
  intro base
  have hbase : base.WellFormed := by
    simp [base, WellFormed, WellFormedList, named, kind, isInvalid]
    rfl
  have hstring : (primitive .string).isSubtype true (primitive .string) :=
    (isSubtypeBy_primitive_iff (by decide)).2 rfl
  have hmember : base.isSubtype true (primitive .string) :=
    (isSubtypeBy_union_left_iff (by decide)).2
      ⟨_, List.mem_cons_of_mem _ List.mem_cons_self, hstring⟩
  have hself : base.isSubtype true base :=
    (isSubtypeBy_union_right_iff fun m hm => (hbase.hasSoundUnions.definite m hm).1).2
      ⟨_, List.mem_cons_of_mem _ List.mem_cons_self, hmember⟩
  obtain ⟨-, hbelow, -⟩ := base_stands_above_generic true {} {} base [nil] hbase (isSubtype true)
    List.mem_cons_self hself
  refine ⟨hbase, hself, hbelow ⟨primitive .string, ?_, by decide, hmember⟩⟩
  exact List.mem_cons_of_mem _ List.mem_cons_self

/-- A base with arguments of its own does not stand above what applies it to others, although its own
base does. -/
theorem generic_base_refuses_other_arguments :
    let base := generic (named "A") [primitive .number]
    base.WellFormed ∧ base.isSubtype false base ∧
      (generic base [primitive .string]).isSubtype false (named "A") ∧
      (generic base [primitive .string]).isSubtype false base = false := by
  intro base
  have hbase : base.WellFormed := by simp [base, WellFormed, WellFormedList, named]
  have hself : base.isSubtype false base := isSubtypeBy_generic_generic_iff.2 (.inl (beq_refl base))
  have hclass : (named "A").isSubtype false (named "A") :=
    isSubtypeBy_ofClass_ofClass_iff.2 (.inl rfl)
  refine ⟨hbase, hself, ?_, Bool.eq_false_iff.2 fun hsub => ?_⟩
  · rw [isSubtype, isSubtypeBy_generic (by decide) (by decide),
      isSubtypeBy_generic (by decide) (by decide)]
    exact hclass
  · obtain ⟨m, hm, htakes⟩ := (isSubtypeBy_generic_base_iff _ hbase hself).1 hsub
    obtain rfl := List.mem_singleton.1 hm
    exact absurd htakes.1 (by decide)

end Ty

end LuaTypes
