import LuaTypes.Proofs.TopClasses
import LuaTypes.Proofs.UnionMembers

namespace LuaTypes

namespace ClassTy

variable {c : ClassTy}

/-- A concrete class is better than a global one, and a global one better than an anonymous one. -/
def grade (c : ClassTy) : Nat :=
  if c.isConcrete then 3 else if c.isGlobal then 2 else 1

theorem grade_of_isConcrete (h : c.isConcrete = true) : c.grade = 3 :=
  if_pos h

theorem grade_of_isGlobal (h : c.isGlobal = true) : c.grade = 2 := by
  rw [grade, if_neg (by simp [isConcrete, h]), if_pos h]

theorem not_isGlobal_of_isAnonymous (h : c.isAnonymous = true) : c.isGlobal = false := by
  obtain ⟨form, source⟩ := c
  cases form with
  | declared _ | global _ => cases h
  | anonymous _ | tableLiteral _ => rfl

theorem grade_of_isAnonymous (h : c.isAnonymous = true) : c.grade = 1 := by
  rw [grade, if_neg (by simp [isConcrete, h]), if_neg (by simp [not_isGlobal_of_isAnonymous h])]

theorem grade_le_three (c : ClassTy) : c.grade ≤ 3 := by
  unfold grade
  split_ifs <;> omega

theorem grade_le_two (h : c.isConcrete = false) : c.grade ≤ 2 := by
  rw [grade, if_neg (by simp [h])]
  split_ifs <;> omega

end ClassTy

namespace Ty

/-- How good the class behind the type is; the worst is to have none. -/
def classGrade (t : Ty) : Nat :=
  t.perfectClass.elim 0 ClassTy.grade

variable {a b t : Ty} {n : Nat}

theorem classGrade_le_iff : t.classGrade ≤ n ↔ ∀ c ∈ t.topClasses, c.grade ≤ n := by
  -- a class that was found has the highest grade left, so that its grade bounds all others
  have hfound : ∀ c ∈ t.topClasses, (∀ d ∈ t.topClasses, d.grade ≤ c.grade) →
      (c.grade ≤ n ↔ ∀ d ∈ t.topClasses, d.grade ≤ n) := fun c hc hbest =>
    ⟨fun h d hd => Nat.le_trans (hbest d hd) h, fun h => h c hc⟩
  rw [classGrade, perfectClass_eq]
  cases hconcrete : t.topClasses.find? ClassTy.isConcrete with
  | some c =>
      refine hfound c (List.mem_of_find?_eq_some hconcrete) fun d _ => ?_
      rw [ClassTy.grade_of_isConcrete (List.find?_some hconcrete)]
      exact d.grade_le_three
  | none =>
      have hnone : ∀ c ∈ t.topClasses, c.isConcrete = false := by simpa using hconcrete
      cases hglobal : t.topClasses.find? fun c => c.isGlobal && !c.isAnonymous with
      | some c =>
          have hc : c.isGlobal = true ∧ c.isAnonymous = false := by
            simpa using List.find?_some hglobal
          refine hfound c (List.mem_of_find?_eq_some hglobal) fun d hd => ?_
          rw [ClassTy.grade_of_isGlobal hc.1]
          exact ClassTy.grade_le_two (hnone d hd)
      | none =>
          have hall : ∀ c ∈ t.topClasses, c.isAnonymous = true := by
            intro c hc
            have hplain := List.find?_eq_none.1 hglobal c hc
            have hvague := hnone c hc
            simp only [ClassTy.isConcrete] at hvague
            revert hplain hvague
            cases c.isGlobal <;> cases c.isAnonymous <;> decide
          cases hanonymous : t.topClasses.find? ClassTy.isAnonymous with
          | some c =>
              refine hfound c (List.mem_of_find?_eq_some hanonymous) fun d hd => ?_
              have hgrade := ClassTy.grade_of_isAnonymous (List.find?_some hanonymous)
              exact Nat.le_of_eq ((ClassTy.grade_of_isAnonymous (hall d hd)).trans hgrade.symm)
          | none =>
              have hempty : ∀ c ∈ t.topClasses, False := fun c hc =>
                List.find?_eq_none.1 hanonymous c hc (hall c hc)
              exact ⟨fun _ c hc => (hempty c hc).elim, fun _ => Nat.zero_le n⟩

theorem topClasses_eq_flatMap_members (t : Ty) : t.topClasses = t.members.flatMap topClasses := by
  cases t with
  | union members => exact topClasses_union members
  | _ => exact (List.flatMap_singleton topClasses _).symm

theorem mem_topClasses_of_mem_keptMembers {m : Ty} (hm : m ∈ t.keptMembers) {c : ClassTy}
    (hc : c ∈ m.topClasses) : c ∈ t.topClasses := by
  rw [topClasses_eq_flatMap_members]
  exact List.mem_flatMap.2 ⟨m, (mem_keptMembers_iff.1 hm).1, hc⟩

theorem classGrade_le_iff_members : t.classGrade ≤ n ↔ ∀ m ∈ t.members, m.classGrade ≤ n := by
  rw [classGrade_le_iff, topClasses_eq_flatMap_members, List.forall_mem_flatMap]
  exact forall₂_congr fun m _ => classGrade_le_iff.symm

theorem classGrade_le_iff_keptMembers :
    t.classGrade ≤ n ↔ ∀ m ∈ t.keptMembers, m.classGrade ≤ n := by
  rw [classGrade_le_iff_members]
  constructor
  · exact fun h m hm => h m (mem_keptMembers_iff.1 hm).1
  · intro h m hm
    cases hinvalid : m.isInvalid with
    | true =>
        cases m with
        | unknown | nil | void => exact Nat.zero_le n
        | _ => cases hinvalid
    | false => exact h m (mem_keptMembers_iff.2 ⟨hm, hinvalid⟩)

theorem exists_topClass_of_beq (h : a == b) {c : ClassTy} (hc : c ∈ a.topClasses) :
    ∃ d ∈ b.topClasses, c.name = d.name := by
  induction a generalizing b with
  | ofClass x =>
      obtain ⟨y, rfl, hxy⟩ := ofClass_beq_iff.1 h
      obtain rfl := List.mem_singleton.1 hc
      exact ⟨y, List.mem_singleton.2 rfl, hxy⟩
  | union as ih =>
      obtain ⟨bs, rfl, -, hwithin⟩ := union_beq_iff.1 h
      rw [topClasses_union] at hc ⊢
      obtain ⟨x, hx, hc⟩ := List.mem_flatMap.1 hc
      obtain ⟨y, hy, hxy⟩ := hwithin x hx
      obtain ⟨d, hd, hname⟩ := ih x hx hxy hc
      exact ⟨d, List.mem_flatMap.2 ⟨y, hy, hd⟩, hname⟩
  | tuple as ih =>
      obtain ⟨bs, rfl, hab⟩ := tuple_beq_iff.1 h
      cases hab with
      | nil => cases hc
      | cons hfirst _ =>
          obtain ⟨d, hd, hname⟩ := ih _ List.mem_cons_self hfirst hc
          exact ⟨d, hd, hname⟩
  | generic base args ihBase _ =>
      obtain ⟨base', args', rfl, hbase, -⟩ := generic_beq_iff.1 h
      obtain ⟨d, hd, hname⟩ := ihBase hbase hc
      exact ⟨d, hd, hname⟩
  | _ => cases hc

theorem classGrade_unite_le_iff (ha : a.WellFormed) (hb : b.WellFormed) :
    (a.unite b).classGrade ≤ n ↔ (a.leading b).classGrade ≤ n ∧
      ∀ m ∈ (a.leading b).newMembers (a.trailing b), m.classGrade ≤ n := by
  rw [classGrade_le_iff_keptMembers, keptMembers_unite ha hb, List.forall_mem_append,
    ← classGrade_le_iff_keptMembers]

/-- If no class at the top of the second type is better than one of its name in the first, its
members that are not new have nothing better behind them than the first. -/
theorem classGrade_le_of_newMembers (ha : a.WellFormed) (hb : b.WellFormed)
    (hbetter : ∀ c ∈ a.topClasses, ∀ d ∈ b.topClasses, c.name = d.name → d.grade ≤ c.grade)
    (h : a.classGrade ≤ n) (hnew : ∀ m ∈ a.newMembers b, m.classGrade ≤ n) :
    b.classGrade ≤ n := by
  rw [classGrade_le_iff_keptMembers]
  intro m hm
  by_cases hfound : ∃ l ∈ a.keptMembers, l == m
  · obtain ⟨l, hl, hlm⟩ := hfound
    have hml := beq_symm (wellFormed_keptMembers ha l hl) (wellFormed_keptMembers hb m hm) hlm
    refine classGrade_le_iff.2 fun d hd => ?_
    obtain ⟨c, hc, hname⟩ := exists_topClass_of_beq hml hd
    have hc := mem_topClasses_of_mem_keptMembers hl hc
    have hd := mem_topClasses_of_mem_keptMembers hm hd
    calc d.grade ≤ c.grade := hbetter c hc d hd hname.symm
      _ ≤ n := classGrade_le_iff.1 h c hc
  · exact hnew m (List.mem_filter.2 ⟨hm, by simpa using hfound⟩)

theorem max_classGrade_leading_trailing (a b : Ty) :
    max (a.leading b).classGrade (a.trailing b).classGrade = max a.classGrade b.classGrade := by
  rcases leading_and_trailing a b with ⟨hl, ht⟩ | ⟨hl, ht⟩
  · rw [hl, ht]
  · rw [hl, ht, Nat.max_comm]

theorem classGrade_leading_le (ha : a.WellFormed) (hb : b.WellFormed) :
    (a.leading b).classGrade ≤ (a.unite b).classGrade :=
  ((classGrade_unite_le_iff ha hb).1 (Nat.le_refl _)).1

theorem classGrade_unite_le (ha : a.WellFormed) (hb : b.WellFormed) :
    (a.unite b).classGrade ≤ max a.classGrade b.classGrade := by
  rw [← max_classGrade_leading_trailing, classGrade_unite_le_iff ha hb]
  refine ⟨Nat.le_max_left _ _, fun m hm => ?_⟩
  have hle : m.classGrade ≤ (a.trailing b).classGrade :=
    classGrade_le_iff_keptMembers.1 (Nat.le_refl _) m (List.mem_filter.1 hm).1
  exact Nat.le_trans hle (Nat.le_max_right _ _)

/-- The class behind a union is as good as the best one behind the leading type and the new members
of the trailing one, so never better than those behind both sides and never worse than that of the
leading type. It is as good as the best of both sides, if no class at the top of the trailing type
is better than one of its name in the leading type. -/
theorem union_class_is_best_kept (a b : Ty) (ha : a.WellFormed) (hb : b.WellFormed) :
    (∀ n, (a.unite b).classGrade ≤ n ↔ (a.leading b).classGrade ≤ n ∧
      ∀ m ∈ (a.leading b).newMembers (a.trailing b), m.classGrade ≤ n) ∧
    (a.leading b).classGrade ≤ (a.unite b).classGrade ∧
    (a.unite b).classGrade ≤ max a.classGrade b.classGrade ∧
    ((∀ c ∈ (a.leading b).topClasses, ∀ d ∈ (a.trailing b).topClasses,
        c.name = d.name → d.grade ≤ c.grade) →
      (a.unite b).classGrade = max a.classGrade b.classGrade) := by
  refine ⟨fun n => classGrade_unite_le_iff ha hb, classGrade_leading_le ha hb,
    classGrade_unite_le ha hb, fun hbetter => ?_⟩
  apply Nat.le_antisymm (classGrade_unite_le ha hb)
  obtain ⟨hleading, hnew⟩ := (classGrade_unite_le_iff ha hb).1 (Nat.le_refl (a.unite b).classGrade)
  rw [← max_classGrade_leading_trailing, Nat.max_le]
  exact ⟨hleading, classGrade_le_of_newMembers (wellFormed_leading ha hb)
    (wellFormed_trailing ha hb) hbetter hleading hnew⟩

theorem union_class_is_best_kept_behind_tuple :
    let a : Ty := .generic (.ofClass { form := .global "A" }) [.nil]
    let b : Ty := .union [.primitive .string, .tuple [named "A", .nil]]
    (a.WellFormed ∧ b.WellFormed ∧ ∀ c ∈ (a.leading b).topClasses,
      ∀ d ∈ (a.trailing b).topClasses, c.name = d.name → d.grade ≤ c.grade) ∧
    (a.unite b).classGrade = max a.classGrade b.classGrade ∧ a.classGrade = 2 ∧
    b.classGrade = 3 := by
  intro a b
  have ha : a.WellFormed := by simp [a, WellFormed, WellFormedList]
  have hb : b.WellFormed := by
    simp [b, WellFormed, WellFormedList, named, kind, isInvalid]
    rfl
  have hbetter : ∀ c ∈ (a.leading b).topClasses, ∀ d ∈ (a.trailing b).topClasses,
      c.name = d.name → d.grade ≤ c.grade := by decide
  have hbest := (union_class_is_best_kept a b ha hb).2.2.2
  exact ⟨⟨ha, hb, hbetter⟩, hbest hbetter, by decide, by decide⟩

/-- United with the global class of its name, a declared class is lost. -/
theorem union_forgets_declared_class :
    let global : Ty := .ofClass { form := .global "A" }
    let declared : Ty := named "A"
    (global.WellFormed ∧ declared.WellFormed) ∧ (global.unite declared).classGrade = 2 ∧
    max global.classGrade declared.classGrade = 3 := by
  intro global declared
  exact ⟨⟨trivial, trivial⟩, by decide, by decide⟩

end Ty

end LuaTypes
