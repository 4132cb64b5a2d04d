import LuaTypes.Proofs.TypeEquality
import LuaTypes.Subtype.Check

namespace LuaTypes

namespace Ty

/-- Something is known of it, and it is not one of several types. -/
def IsDefinite (t : Ty) : Prop :=
  t.kind ≠ .unknown ∧ t.kind ≠ .union

instance (t : Ty) : Decidable t.IsDefinite :=
  inferInstanceAs (Decidable (_ ∧ _))

section

variable {nilStrict : Bool} {climbs : ClassTy → String → Bool} {base base' t : Ty}
  {as args args' : List Ty}

theorem run_bind_ite (x y : Id Bool) :
    Id.run (do if ← x then y else return false) = (Id.run x && Id.run y) := by
  change (if Id.run x = true then Id.run y else false) = _
  cases Id.run x <;> rfl

theorem areSubtypesM_iff {bs : List Ty} :
    Id.run (areSubtypesM nilStrict (fun c ancestor => pure (climbs c ancestor)) as bs) = true ↔
      List.Forall₂ (fun a b => isSubtypeBy nilStrict climbs a b) as bs := by
  induction as generalizing bs with
  | nil => cases bs <;> simp [areSubtypesM]
  | cons a as ih =>
      cases bs with
      | nil => simp [areSubtypesM]
      | cons b bs =>
          rw [List.forall₂_cons, ← ih, areSubtypesM, run_bind_ite, Bool.and_eq_true]
          rfl

theorem isSubtypeBy_void (h : t.IsDefinite) : isSubtypeBy nilStrict climbs void t = false := by
  cases t with
  | unknown => exact absurd rfl h.1
  | union members => exact absurd rfl h.2
  | _ => simp [isSubtypeBy, isSubtypeM]

theorem isSubtypeBy_nil (h : t.IsDefinite) :
    isSubtypeBy nilStrict climbs nil t = (!nilStrict || t == nil) := by
  cases t with
  | unknown => exact absurd rfl h.1
  | union members => exact absurd rfl h.2
  | _ => simp [isSubtypeBy, isSubtypeM]

theorem isSubtypeBy_primitive_iff {p : Primitive} (h : t.IsDefinite) :
    isSubtypeBy nilStrict climbs (primitive p) t ↔ t = primitive p := by
  rw [← primitive_beq_iff]
  cases t with
  | unknown => exact absurd rfl h.1
  | union members => exact absurd rfl h.2
  | _ => simp [isSubtypeBy, isSubtypeM]

theorem isSubtypeBy_ofClass_iff {c : ClassTy} (h : t.IsDefinite) :
    isSubtypeBy nilStrict climbs (ofClass c) t ↔
      t = primitive .table ∨ ∃ d, t = ofClass d ∧ (c.name = d.name ∨ climbs c d.name) := by
  cases t with
  | unknown => exact absurd rfl h.1
  | union members => exact absurd rfl h.2
  | primitive p => cases p <;> simp [isSubtypeBy, isSubtypeM] <;> rfl
  | ofClass d =>
      by_cases heq : c.name = d.name <;> simp [isSubtypeBy, isSubtypeM, heq]
  | _ =>
      simp [isSubtypeBy, isSubtypeM]
      rfl

theorem isSubtypeBy_ofClass_ofClass_iff {c d : ClassTy} :
    isSubtypeBy nilStrict climbs (ofClass c) (ofClass d) ↔ c.name = d.name ∨ climbs c d.name := by
  have hdefinite : (ofClass d).IsDefinite := ⟨nofun, nofun⟩
  rw [isSubtypeBy_ofClass_iff hdefinite]
  constructor
  · rintro (htable | ⟨d', heq, habove⟩)
    · cases htable
    · cases heq
      exact habove
  · exact fun habove => .inr ⟨d, rfl, habove⟩

theorem isSubtypeBy_array_iff {element : Ty} (h : t.IsDefinite) :
    isSubtypeBy nilStrict climbs (array element) t ↔
      t = primitive .table ∨ ∃ e, t = array e ∧ isSubtypeBy nilStrict climbs element e := by
  cases t with
  | unknown => exact absurd rfl h.1
  | union members => exact absurd rfl h.2
  | primitive p => cases p <;> simp [isSubtypeBy, isSubtypeM] <;> rfl
  | array e => simp [isSubtypeBy, isSubtypeM]
  | _ =>
      simp [isSubtypeBy, isSubtypeM]
      rfl

theorem isSubtypeBy_function_iff {s : Signature Ty} (h : t.IsDefinite) :
    isSubtypeBy nilStrict climbs (function s) t ↔ t = primitive .function ∨ function s == t := by
  cases t with
  | unknown => exact absurd rfl h.1
  | union members => exact absurd rfl h.2
  | primitive p => cases p <;> simp [isSubtypeBy, isSubtypeM]
  | _ => simp [isSubtypeBy, isSubtypeM]

theorem isSubtypeBy_tuple_iff (h : t.IsDefinite) :
    isSubtypeBy nilStrict climbs (tuple as) t ↔
      ∃ bs, t = tuple bs ∧
        List.Forall₂ (fun a b => isSubtypeBy nilStrict climbs a b) as bs := by
  cases t with
  | unknown => exact absurd rfl h.1
  | union members => exact absurd rfl h.2
  | tuple bs =>
      have hrule : isSubtypeBy nilStrict climbs (tuple as) (tuple bs) ↔
          as.length = bs.length ∧
            List.Forall₂ (fun a b => isSubtypeBy nilStrict climbs a b) as bs := by
        rw [← areSubtypesM_iff, isSubtypeBy, isSubtypeM]
        by_cases hlength : as.length = bs.length <;> simp [hlength]
      rw [hrule]
      constructor
      · rintro ⟨-, hparts⟩
        exact ⟨bs, rfl, hparts⟩
      · rintro ⟨bs', heq, hparts⟩
        obtain rfl := tuple.inj heq
        exact ⟨hparts.length_eq, hparts⟩
  | _ =>
      simp [isSubtypeBy, isSubtypeM]
      rfl

theorem isSubtypeBy_generic_generic_iff :
    isSubtypeBy nilStrict climbs (generic base args) (generic base' args') ↔
      generic base args == generic base' args' ∨
        isSubtypeBy nilStrict climbs base base' ∧
          List.Forall₂ (fun a b => a == b) args args' := by
  have hrule : isSubtypeBy nilStrict climbs (generic base args) (generic base' args') ↔
      generic base args == generic base' args' ∨ args.length = args'.length ∧
        isSubtypeBy nilStrict climbs base base' ∧ args == args' := by
    unfold isSubtypeBy
    rw [isSubtypeM]
    by_cases hsame : generic base args == generic base' args'
    · simp [hsame]
    · by_cases hlength : args.length = args'.length
      · rw [if_neg hsame, if_pos hlength, run_bind_ite]
        simp [hsame, hlength]
      · simp [hsame, hlength]
  rw [hrule]
  constructor
  · rintro (hsame | ⟨-, hbase, hargs⟩)
    · exact .inl hsame
    · exact .inr ⟨hbase, forall₂_beq_iff.1 hargs⟩
  · rintro (hsame | ⟨hbase, hargs⟩)
    · exact .inl hsame
    · exact .inr ⟨hargs.length_eq, hbase, forall₂_beq_iff.2 hargs⟩

theorem isSubtypeBy_generic (h : t.IsDefinite) (hkind : t.kind ≠ .generic) :
    isSubtypeBy nilStrict climbs (generic base args) t =
      isSubtypeBy nilStrict climbs base t := by
  cases t with
  | unknown => exact absurd rfl h.1
  | union members => exact absurd rfl h.2
  | generic base' args' => exact absurd rfl hkind
  | _ => simp [isSubtypeBy, isSubtypeM]

theorem isSubtypeBy_param_iff {name : String} {bound : Option Ty} (h : t.IsDefinite) :
    isSubtypeBy nilStrict climbs (param name bound) t ↔
      param name bound == t ∨ ∃ b ∈ bound, isSubtypeBy nilStrict climbs b t := by
  have hrule : isSubtypeBy nilStrict climbs (param name bound) t =
      (param name bound == t || Id.run
        (boundIsSubtypeM nilStrict (fun c ancestor => pure (climbs c ancestor)) bound t)) := by
    cases hsame : param name bound == t with
    | true =>
        cases t with
        | param name' bound' => simp [isSubtypeBy, isSubtypeM, hsame]
        | _ => cases hsame
    | false =>
        cases t with
        | unknown => exact absurd rfl h.1
        | union members => exact absurd rfl h.2
        | _ => simp [isSubtypeBy, isSubtypeM, hsame]
  rw [hrule, Bool.or_eq_true]
  cases bound <;> simp [boundIsSubtypeM, isSubtypeBy]

end

end Ty

end LuaTypes
