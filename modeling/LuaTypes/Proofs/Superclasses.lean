import LuaTypes.Proofs.ClassWalk
import LuaTypes.Proofs.SubtypeRules
import Mathlib.Data.Nat.Find

namespace LuaTypes

namespace SymbolIndex

variable {ix : SymbolIndex} {first : Option String} {ancestor : String}

/-- The class at a place of the sequence, which ends above a class without superclass. -/
def superclassAt (ix : SymbolIndex) (first : Option String) : Nat → Option String
  | 0 => first
  | n + 1 => (ix.superclassAt first n).bind fun name => (ix.declaredLinks name).superClass

theorem superclassAt_add (m n : Nat) :
    ix.superclassAt first (m + n) = ix.superclassAt (ix.superclassAt first m) n := by
  induction n with
  | zero => rfl
  | succ n ih => exact congrArg (Option.bind · _) ih

theorem superclassAt_none (n : Nat) : ix.superclassAt none n = none := by
  induction n with
  | zero => rfl
  | succ n ih => rw [superclassAt, ih, Option.bind_none]

theorem superclassAt_some_succ (name : String) (n : Nat) :
    ix.superclassAt (some name) (n + 1) =
      ix.superclassAt (ix.declaredLinks name).superClass n := by
  rw [Nat.add_comm, superclassAt_add]
  rfl

theorem exists_superclassAt_before_repeat {n : Nat}
    (h : ix.superclassAt first n = some ancestor) :
    ∃ least ≤ n, ix.superclassAt first least = some ancestor ∧
      ∀ m, 0 < m → m ≤ least → ix.superclassAt first m ≠ first := by
  classical
  have hoccurs : ∃ n, ix.superclassAt first n = some ancestor := ⟨n, h⟩
  refine ⟨Nat.find hoccurs, Nat.find_min' hoccurs h, Nat.find_spec hoccurs, ?_⟩
  intro m hpos hm hrepeat
  -- were it to begin anew, the class would be as far from the beginning as from there
  obtain ⟨k, hk⟩ := Nat.exists_eq_add_of_le hm
  have hfound : ix.superclassAt first (m + k) = some ancestor := hk ▸ Nat.find_spec hoccurs
  rw [superclassAt_add, hrepeat] at hfound
  exact Nat.find_min hoccurs (hk ▸ Nat.lt_add_of_pos_left hpos) hfound

theorem superClass_eq_of_undeclared {name : String} (h : ix.declaration? name = none) :
    (ix.declaredLinks name).superClass = none := by
  rw [declaredLinks, h]
  rfl

theorem superClass_eq_of_declared {name : String} {decl : ClassDecl}
    (h : ix.declaration? name = some decl) :
    (ix.declaredLinks name).superClass = decl.superClass := by
  rw [declaredLinks, h]
  rfl

/-- The climb finds what the sequence comes to before it comes to a class visited at the outset. -/
theorem climbsTo_iff {visited : List String} :
    ix.climbsTo ancestor visited first = true ↔
      ∃ n, ix.superclassAt first n = some ancestor ∧
        ∀ m < n, ∀ name ∈ ix.superclassAt first m, name ∉ visited := by
  fun_induction climbsTo ix ancestor visited first with
  | case1 visited => simp [superclassAt_none]
  | case2 visited => exact iff_of_true rfl ⟨0, rfl, nofun⟩
  | case3 visited name hne hvisited =>
      refine iff_of_false nofun ?_
      rintro ⟨n | n, hn, hfresh⟩
      · exact hne (Option.some.inj hn)
      · exact hfresh 0 n.succ_pos name rfl hvisited
  | case4 visited name hne hfresh hdecl =>
      refine iff_of_false nofun ?_
      rintro ⟨n | n, hn, -⟩
      · exact hne (Option.some.inj hn)
      · rw [superclassAt_some_succ, superClass_eq_of_undeclared hdecl, superclassAt_none] at hn
        cases hn
  | case5 visited name hne hfresh decl hdecl ih =>
      have hup (n : Nat) : ix.superclassAt (some name) (n + 1) =
          ix.superclassAt decl.superClass n := by
        rw [superclassAt_some_succ, superClass_eq_of_declared hdecl]
      rw [ih]
      constructor
      · rintro ⟨n, hn, habove⟩
        refine ⟨n + 1, (hup n).trans hn, ?_⟩
        rintro (_ | m) hm other hother
        · obtain rfl := Option.some.inj hother
          exact hfresh
        · rw [hup] at hother
          exact fun hvisited => habove m (Nat.lt_of_succ_lt_succ hm) other hother
            (List.mem_cons_of_mem name hvisited)
      · rintro ⟨n, hn, habove⟩
        obtain ⟨least, hleast, hfound, hnew⟩ := exists_superclassAt_before_repeat hn
        cases least with
        | zero => exact absurd (Option.some.inj hfound) hne
        | succ least =>
            refine ⟨least, (hup least).symm.trans hfound, fun m hm other hother hmem => ?_⟩
            have hm' : m + 1 < least + 1 := Nat.succ_lt_succ hm
            rw [← hup] at hother
            rcases List.mem_cons.1 hmem with rfl | hvisited
            · exact hnew (m + 1) m.succ_pos hm'.le hother
            · exact habove (m + 1) (hm'.trans_le hleast) other hother hvisited

/-- The climb cut off after some rounds, without an answer if it has not come to its end by then. -/
def climbsToWithin (ix : SymbolIndex) (ancestor : String) :
    Nat → List String → Option String → Option Bool
  | 0, _, _ => none
  | _ + 1, _, none => some false
  | rounds + 1, visited, some name =>
      if name = ancestor then some true
      else if name ∈ visited then some false
      else ix.climbsToWithin ancestor rounds (name :: visited) (ix.declaredLinks name).superClass

theorem climbsToWithin_eq {rounds : Nat} {visited : List String}
    (h : ix.unvisited visited + 2 ≤ rounds) :
    ix.climbsToWithin ancestor rounds visited first =
      some (ix.climbsTo ancestor visited first) := by
  obtain ⟨rounds, rfl⟩ := Nat.exists_eq_add_of_le' (Nat.le_trans (Nat.le_add_left 2 _) h)
  fun_induction climbsTo ix ancestor visited first generalizing rounds with
  | case1 visited => rfl
  | case2 visited => rw [climbsToWithin, if_pos rfl]
  | case3 visited name hne hvisited => rw [climbsToWithin, if_neg hne, if_pos hvisited]
  | case4 visited name hne hfresh hdecl =>
      rw [climbsToWithin, if_neg hne, if_neg hfresh, superClass_eq_of_undeclared hdecl]
      rfl
  | case5 visited name hne hfresh decl hdecl ih =>
      have hfewer := unvisited_lt hdecl hfresh
      obtain ⟨rounds, rfl⟩ := Nat.exists_eq_add_of_lt (show 0 < rounds by omega)
      rw [climbsToWithin, if_neg hne, if_neg hfresh, superClass_eq_of_declared hdecl]
      exact ih (0 + rounds) (by omega)

theorem unvisited_le_classCount (visited : List String) : ix.unvisited visited ≤ ix.classCount :=
  List.countP_le_length

theorem superClass?_eq_declared {t : LinkTable} {c : ClassTy}
    (h : ∀ links ∈ t.cached? c, links.superClass = (ix.declaredLinks c.name).superClass) :
    t.superClass? ix c = (ix.declaredLinks c.name).superClass := by
  unfold LinkTable.superClass? LinkTable.links?
  cases hcached : t.cached? c with
  | some links => exact h links hcached
  | none =>
      cases hindex : ix.dumb with
      | true => simp [linksOf?, declaredLinks, declaration?, hindex]
      | false => simp [linksOf?, hindex, declaredLinks]

/-- From the declared superclass on, the sequence has come to all its classes when it comes back to
the class that it started from. -/
theorem exists_superclassAt_before_return {name : String}
    (hfirst : first = (ix.declaredLinks name).superClass) {n : Nat}
    (h : ix.superclassAt first n = some ancestor) :
    ∃ n, ix.superclassAt first n = some ancestor ∧
      ∀ m < n, ix.superclassAt first m ≠ some name := by
  obtain ⟨least, -, hfound, hnew⟩ := exists_superclassAt_before_repeat h
  refine ⟨least, hfound, fun m hm hreturn => hnew (m + 1) m.succ_pos hm ?_⟩
  rw [superclassAt, hreturn, hfirst]
  rfl

/-- With an index in any state, a class is a subtype of itself and of each class that the sequence
of its superclasses comes to without coming back to it before, and of no other class. These are all
classes of the sequence if the class value remembers no other superclass than the declared one, or
if the sequence never comes back. Two rounds more than there are declarations bring the climb to its
end. -/
theorem class_check_is_reachability (ix : SymbolIndex) (t : LinkTable) (nilStrict : Bool)
    (a b : ClassTy) :
    let above := ix.superclassAt (t.superClass? ix a)
    (∀ rounds, ix.classCount + 2 ≤ rounds →
      ix.climbsToWithin b.name rounds [a.name] (t.superClass? ix a) =
        some (ix.extends? t a b.name)) ∧
    ((Ty.ofClass a).isSubtypeIn ix t nilStrict (.ofClass b) ↔
      a.name = b.name ∨ ∃ n, above n = some b.name ∧ ∀ m < n, above m ≠ some a.name) ∧
    ((∀ links ∈ t.cached? a, links.superClass = (ix.declaredLinks a.name).superClass) ∨
        (∀ m, above m ≠ some a.name) →
      ((Ty.ofClass a).isSubtypeIn ix t nilStrict (.ofClass b) ↔
        a.name = b.name ∨ ∃ n, above n = some b.name)) := by
  intro above
  have hreach : (Ty.ofClass a).isSubtypeIn ix t nilStrict (.ofClass b) ↔
      a.name = b.name ∨ ∃ n, above n = some b.name ∧ ∀ m < n, above m ≠ some a.name := by
    refine Ty.isSubtypeBy_ofClass_ofClass_iff.trans (or_congr_right ?_)
    refine climbsTo_iff.trans (exists_congr fun n => and_congr_right fun _ => ?_)
    refine forall₂_congr fun m _ => ⟨fun hnew hreturn => ?_, fun hreturn name hname hmem => ?_⟩
    · exact hnew a.name hreturn List.mem_cons_self
    · exact hreturn (List.mem_singleton.1 hmem ▸ hname)
  refine ⟨fun rounds hrounds => ?_, hreach, fun hwhole => hreach.trans (or_congr_right ?_)⟩
  · have hleft := ix.unvisited_le_classCount [a.name]
    exact climbsToWithin_eq (Nat.le_trans (Nat.add_le_add_right hleft 2) hrounds)
  · constructor
    · rintro ⟨n, hn, -⟩
      exact ⟨n, hn⟩
    · rintro ⟨n, hn⟩
      rcases hwhole with hagree | hnever
      · exact exists_superclassAt_before_return (superClass?_eq_declared hagree) hn
      · exact ⟨n, hn, fun m _ => hnever m⟩

/-- The sequence of A comes to C, then to A again, and so on. -/
theorem class_check_is_reachability_on_cycle :
    let ix : SymbolIndex :=
      { classes :=
          [{ name := "A", superClass := some "B" }, { name := "B", superClass := some "C" },
            { name := "C", superClass := some "A" }] }
    (∀ links ∈ ({} : LinkTable).cached? (.named "A"),
        links.superClass = (ix.declaredLinks "A").superClass) ∧
      ix.classCount + 2 ≤ 5 ∧
      (Ty.named "A").isSubtypeIn ix {} true (.named "C") ∧
      ix.climbsToWithin "C" 5 ["A"] (some "B") = some (ix.extends? {} (.named "A") "C") := by
  intro ix
  have hagree : ∀ links ∈ ({} : LinkTable).cached? (.named "A"),
      links.superClass = (ix.declaredLinks "A").superClass := nofun
  obtain ⟨hends, -, hwhole⟩ := class_check_is_reachability ix {} true (.named "A") (.named "C")
  refine ⟨hagree, Nat.le_refl 5, ?_, hends 5 (Nat.le_refl 5)⟩
  exact (hwhole (.inl hagree)).2 (.inr ⟨1, by decide +kernel⟩)

/-- A class value that remembers a superclass from before the class was declared anew: the sequence
comes back to the class and goes on to the new superclass, which the check does not find. -/
theorem superclass_beyond_return_is_missed :
    let ix : SymbolIndex :=
      { classes := [{ name := "A", superClass := some "Y" },
          { name := "X", superClass := some "A" }] }
    let a : ClassTy := { form := .declared "A", source := .given { superClass := some "X" } }
    ix.superclassAt (({} : LinkTable).superClass? ix a) 2 = some "Y" ∧
      (Ty.ofClass a).isSubtypeIn ix {} false (.named "Y") = false := by
  intro ix a
  have hclimb : ix.extends? {} a "Y" = false := by
    have hrounds : ix.climbsToWithin "Y" 4 [a.name] (some "X") = some (ix.extends? {} a "Y") :=
      climbsToWithin_eq (by decide +kernel)
    have hanswer : ix.climbsToWithin "Y" 4 [a.name] (some "X") = some false := by decide +kernel
    exact Option.some.inj (hrounds.symm.trans hanswer)
  refine ⟨by decide +kernel, Bool.eq_false_iff.2 fun hsub => ?_⟩
  rcases Ty.isSubtypeBy_ofClass_ofClass_iff.1 hsub with hname | habove
  · exact absurd hname (by decide)
  · exact absurd habove (by simp [ClassTy.named, ClassTy.name, ClassForm.name, hclimb])

end SymbolIndex

end LuaTypes
