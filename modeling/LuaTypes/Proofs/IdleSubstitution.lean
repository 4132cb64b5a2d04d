import LuaTypes.Proofs.SingleValues
import LuaTypes.Ty.Leaves

namespace LuaTypes

namespace Ty

variable {rule : Ty → Option Ty} {t : Ty}

theorem ofValues_of_two_le {values : List Ty} (h : 2 ≤ values.length) :
    ofValues values = .tuple values := by
  match values with
  | _ :: _ :: _ => rfl

/-- The rule has no answer for any leaf of the type. -/
def Untouched (rule : Ty → Option Ty) (t : Ty) : Prop :=
  ∀ leaf ∈ t.leaves, rule leaf = none

theorem untouched_function_iff {s : Signature Ty} :
    (function s).Untouched rule ↔ (∀ p ∈ s.params, p.2.Untouched rule) ∧
      s.returns.Untouched rule ∧ ∀ v ∈ s.varargs, v.Untouched rule := by
  obtain ⟨params, returns, varargs, generics, colon⟩ := s
  simp only [Untouched, leaves, leavesOfParams_eq_flatMap, leavesOfOption_eq_flatMap,
    List.forall_mem_append, List.forall_mem_flatMap, Option.mem_toList, Option.mem_def]

theorem untouched_union_iff {members : List Ty} :
    (union members).Untouched rule ↔ ∀ m ∈ members, m.Untouched rule := by
  simp only [Untouched, leaves, leavesOfList_eq_flatMap, List.forall_mem_flatMap]

theorem untouched_tuple_iff {members : List Ty} :
    (tuple members).Untouched rule ↔ ∀ m ∈ members, m.Untouched rule := by
  simp only [Untouched, leaves, leavesOfList_eq_flatMap, List.forall_mem_flatMap]

theorem untouched_generic_iff {base : Ty} {args : List Ty} :
    (generic base args).Untouched rule ↔
      base.Untouched rule ∧ ∀ a ∈ args, a.Untouched rule := by
  simp only [Untouched, leaves, leavesOfList_eq_flatMap, List.forall_mem_append,
    List.forall_mem_flatMap]

/-- Types that the substitution leaves as they are. -/
def Fixed (rule : Ty → Option Ty) (t : Ty) : Prop :=
  t.WellFormed → t.Untouched rule → t.substitute rule = t

theorem substituteList_of_fixed {ts : List Ty} (hfixed : ∀ t ∈ ts, Fixed rule t)
    (h : WellFormedList ts) (huntouched : ∀ t ∈ ts, t.Untouched rule) :
    substituteList rule ts = ts := by
  rw [wellFormedList_iff] at h
  rw [substituteList_eq_map]
  refine (List.map_congr_left fun t ht => ?_).trans (List.map_id ts)
  exact hfixed t ht (h t ht) (huntouched t ht)

theorem substitute_of_untouched (h : t.WellFormed) (huntouched : t.Untouched rule) :
    t.substitute rule = t := by
  induction t with
  | array element ih => rw [substitute, ih h huntouched]
  | function signature ihParams ihReturns ihVarargs =>
      obtain ⟨params, returns, varargs, generics, colon⟩ := signature
      obtain ⟨hparams, hreturns, hvarargs⟩ := wellFormed_function_iff.1 h
      obtain ⟨hparams', hreturns', hvarargs'⟩ := untouched_function_iff.1 huntouched
      have hparamsEq : substituteParams rule params = params := by
        rw [substituteParams_eq_map]
        refine (List.map_congr_left fun p hp => ?_).trans (List.map_id params)
        exact Prod.ext rfl (ihParams p hp (hparams p hp) (hparams' p hp))
      have hvarargsEq : substituteOption rule varargs = varargs := by
        cases varargs with
        | none => rfl
        | some v => exact congrArg some (ihVarargs v rfl (hvarargs v rfl) (hvarargs' v rfl))
      rw [substitute, hparamsEq, ihReturns hreturns hreturns', hvarargsEq]
  | union members ih =>
      have hmembers := substituteList_of_fixed ih h.2.2.2 (untouched_union_iff.1 huntouched)
      rw [substitute, hmembers, uniteAll_members h]
  | tuple members ih =>
      have hmembers := substituteList_of_fixed ih h.2 (untouched_tuple_iff.1 huntouched)
      rw [substitute, hmembers, ofValues_of_two_le h.1]
  | generic base args ihBase ihArgs =>
      obtain ⟨hbase, hargs⟩ := untouched_generic_iff.1 huntouched
      rw [substitute, ihBase h.1 hbase, substituteList_of_fixed ihArgs h.2 hargs]
  | _ =>
      have hleaf := huntouched _ List.mem_cons_self
      rw [substitute, hleaf, Option.getD_none]

end Ty

end LuaTypes
