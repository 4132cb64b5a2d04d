import LuaTypes.Proofs.SubstitutionLaws

namespace LuaTypes

namespace Ty

def paramName? : Ty → Option String
  | .param name _ => some name
  | _ => none

/-- The names of the generic parameters in a type, one for each occurrence. -/
def paramNames (t : Ty) : List String :=
  t.leaves.filterMap paramName?

section ParamNames

theorem paramNames_function (s : Signature Ty) :
    (function s).paramNames = (s.params.map Prod.snd).flatMap paramNames ++
      (s.returns.paramNames ++ s.varargs.toList.flatMap paramNames) := by
  obtain ⟨params, returns, varargs, generics, colon⟩ := s
  simp only [paramNames, leaves, leavesOfParams_eq_flatMap, leavesOfOption_eq_flatMap,
    List.filterMap_append, List.filterMap_flatMap, List.flatMap_map]
  rfl

theorem paramNames_union (members : List Ty) :
    (union members).paramNames = members.flatMap paramNames := by
  simp only [paramNames, leaves, leavesOfList_eq_flatMap, List.filterMap_flatMap]
  rfl

theorem paramNames_generic (base : Ty) (args : List Ty) :
    (generic base args).paramNames = base.paramNames ++ args.flatMap paramNames := by
  simp only [paramNames, leaves, leavesOfList_eq_flatMap, List.filterMap_append,
    List.filterMap_flatMap]
  rfl

theorem untouched_of_paramNames_eq_nil {t : Ty} (h : t.paramNames = []) (b : Bindings) :
    t.Untouched b.rule := by
  intro leaf hleaf
  cases leaf with
  | param name bound => exact absurd (List.filterMap_eq_nil_iff.1 h _ hleaf) (by simp [paramName?])
  | _ => rfl

end ParamNames

/-- A declared type whose parameters matching comes across wherever a substitution puts something in
for them: none stands in a tuple, in a union, in a base or behind the three dots, and none has a
bound. -/
inductive Schematic : Ty → Prop where
  | param (name : String) : Schematic (.param name none)
  | closed {t : Ty} : t.WellFormed → t.paramNames = [] → Schematic t
  | array {element : Ty} : Schematic element → Schematic (.array element)
  | generic {base : Ty} {args : List Ty} : base.WellFormed → base.paramNames = [] →
      (∀ a ∈ args, Schematic a) → Schematic (.generic base args)
  | function {s : Signature Ty} : (∀ p ∈ s.params, Schematic p.2) → Schematic s.returns →
      (∀ v ∈ s.varargs, v.WellFormed ∧ v.paramNames = []) → Schematic (.function s)

end Ty

namespace Bindings

variable {b s : Bindings} {names : List String} {p : Ty}

section Closed

theorem foldl_learnMember_of_closed {members : List Ty} (h : members.flatMap Ty.paramNames = [])
    (actual : Ty) : members.foldl (learnMember actual) b = b := by
  induction members with
  | nil => rfl
  | cons m members ih =>
      rw [List.flatMap_cons, List.append_eq_nil_iff] at h
      rw [List.foldl_cons]
      cases m with
      | param name bound => cases h.1
      | _ => exact ih h.2

theorem learnList_of_closed {ts : List Ty}
    (hts : ∀ t ∈ ts, t.paramNames = [] → ∀ actual, b.learn t actual = b)
    (h : ts.flatMap Ty.paramNames = []) (actual : List Ty) : b.learnList ts actual = b := by
  induction ts generalizing actual with
  | nil => cases actual <;> rfl
  | cons t ts ih =>
      obtain ⟨ht, hts⟩ := List.forall_mem_cons.1 hts
      rw [List.flatMap_cons, List.append_eq_nil_iff] at h
      cases actual with
      | nil => rfl
      | cons u actual =>
          rw [learnList, ht h.1]
          exact ih hts h.2 actual

theorem learn_of_closed (h : p.paramNames = []) (actual : Ty) : b.learn p actual = b := by
  induction p generalizing actual with
  | param name bound => cases h
  | array element ih =>
      cases actual with
      | array actual => exact ih h actual
      | _ => rfl
  | union members ih =>
      rw [Ty.paramNames_union] at h
      cases actual with
      | unknown => rfl
      | _ => exact foldl_learnMember_of_closed h _
  | generic base args ihBase ihArgs =>
      rw [Ty.paramNames_generic, List.append_eq_nil_iff] at h
      cases actual with
      | generic actualBase actualArgs =>
          rw [learn, learnList_of_closed ihArgs h.2, ite_self]
      | _ => rfl
  | function signature ihParams ihReturns ihVarargs =>
      rw [Ty.paramNames_function, List.append_eq_nil_iff, List.append_eq_nil_iff] at h
      obtain ⟨params, returns, varargs, generics, colon⟩ := signature
      cases actual with
      | function actual =>
          rw [learn, learnParams_eq_learnList,
            learnList_of_closed (List.forall_mem_map.2 ihParams) h.1, ihReturns h.2.1]
      | _ => rfl
  | _ => cases actual <;> rfl

end Closed

/-- The names are bound to what the substitution has for them, and no others are bound. -/
structure Recovers (s : Bindings) (names : List String) (b : Bindings) : Prop where
  bound {name : String} : name ∈ names →
    ∃ t u, b.get? name = some t ∧ s.get? name = some u ∧ t.WellFormed ∧ t == u
  unbound {name : String} : name ∉ names → b.get? name = none

/-- The substitution has a well-formed type for the name, of which something is known. -/
def Instantiates (s : Bindings) (name : String) : Prop :=
  ∃ u, s.get? name = some u ∧ u.WellFormed ∧ u ≠ .unknown

theorem recovers_nil : Recovers s [] {} :=
  ⟨fun h => absurd h List.not_mem_nil, fun _ => rfl⟩

/-- To see the type of a parameter once more changes nothing about it. -/
theorem Recovers.bind (h : Recovers s names b) {name : String} {u : Ty}
    (hname : s.get? name = some u) (hu : u.WellFormed) :
    Recovers s (names ++ [name]) (b.bind name u) := by
  refine ⟨fun {other} hother => ?_, fun {other} hother => ?_⟩
  · by_cases heq : other = name
    · subst heq
      rw [get?_bind_self]
      by_cases hknown : other ∈ names
      · obtain ⟨t, u', hget, hget', ht, htu⟩ := h.bound hknown
        obtain rfl := Option.some.inj (hname.symm.trans hget')
        rw [hget]
        exact ⟨_, _, rfl, hname, Ty.wellFormed_unite ht hu, Ty.unite_of_beq ht hu htu⟩
      · rw [h.unbound hknown]
        exact ⟨u, u, rfl, hname, hu, u.beq_refl⟩
    · rw [get?_bind_of_ne b heq]
      refine h.bound ?_
      simpa [heq] using hother
  · have hother : other ∉ names ∧ other ≠ name := by simpa using hother
    rw [get?_bind_of_ne b hother.2]
    exact h.unbound hother.1

/-- Matching the type against its own instance recovers what the substitution has for its
parameters, besides what has been recovered before. -/
def Recoverable (s : Bindings) (p : Ty) : Prop :=
  (∀ name ∈ p.paramNames, s.Instantiates name) → ∀ {names : List String} {b : Bindings},
    Recovers s names b → Recovers s (names ++ p.paramNames) (b.learn p (p.substitute s.rule))

theorem Recovers.learnList (h : Recovers s names b) {ts : List Ty}
    (hts : ∀ t ∈ ts, Recoverable s t)
    (hs : ∀ name ∈ ts.flatMap Ty.paramNames, s.Instantiates name) :
    Recovers s (names ++ ts.flatMap Ty.paramNames)
      (b.learnList ts (ts.map (Ty.substitute s.rule))) := by
  induction ts generalizing names b with
  | nil => simpa [Bindings.learnList] using h
  | cons t ts ih =>
      obtain ⟨ht, hts⟩ := List.forall_mem_cons.1 hts
      rw [List.flatMap_cons, List.forall_mem_append] at hs
      rw [List.flatMap_cons, ← List.append_assoc]
      exact ih (ht hs.1 h) hts hs.2

theorem recoverable_of_schematic (hp : p.Schematic) : Recoverable s p := by
  induction hp with
  | param name =>
      intro hs names b h
      obtain ⟨u, hname, hu, hknown⟩ := hs name List.mem_cons_self
      have hinstance : (Ty.param name none).substitute s.rule = u := by
        rw [Ty.substitute]
        exact congrArg (Option.getD · _) hname
      have hlearn : b.learn (.param name none) u = b.bind name u := by
        cases u <;> first | rfl | exact absurd rfl hknown
      rw [hinstance, hlearn]
      exact h.bind hname hu
  | closed hwf hclosed =>
      intro hs names b h
      rw [learn_of_closed hclosed, hclosed, List.append_nil]
      exact h
  | array helement ih => exact fun hs _ _ h => ih hs h
  | @generic base args hbase hclosed hargs ih =>
      intro hs names b h
      rw [Ty.paramNames_generic, hclosed, List.nil_append] at hs ⊢
      rw [Ty.substitute, learn, Ty.substituteList_eq_map, if_pos (List.length_map _).symm]
      exact h.learnList ih hs
  | @function signature hparams hreturns hvarargs ihParams ihReturns =>
      intro hs names b h
      have hvarargsNil : signature.varargs.toList.flatMap Ty.paramNames = [] :=
        List.flatMap_eq_nil_iff.2 fun v hv => (hvarargs v (Option.mem_toList.1 hv)).2
      rw [Ty.paramNames_function, hvarargsNil, List.append_nil] at hs ⊢
      obtain ⟨params, returns, varargs, generics, colon⟩ := signature
      obtain ⟨hsParams, hsReturns⟩ := List.forall_mem_append.1 hs
      have hlearnt := h.learnList (List.forall_mem_map.2 ihParams) hsParams
      rw [List.map_map] at hlearnt
      rw [Ty.substitute, learn, learnParams_eq_learnList, Ty.substituteParams_eq_map, List.map_map,
        ← List.append_assoc]
      exact ihReturns hsReturns hlearnt

end Bindings

namespace Ty

variable {b s : Bindings} {p : Ty}

theorem Schematic.substitute_beq (hp : p.Schematic) (h : ∀ name ∈ p.paramNames,
      ∃ t u, b.get? name = some t ∧ s.get? name = some u ∧ t == u) :
    p.substitute b.rule == p.substitute s.rule := by
  have hclosed : ∀ {t : Ty}, t.WellFormed → t.paramNames = [] →
      t.substitute b.rule == t.substitute s.rule := by
    intro t hwf hnone
    rw [substitute_of_untouched hwf (untouched_of_paramNames_eq_nil hnone b),
      substitute_of_untouched hwf (untouched_of_paramNames_eq_nil hnone s)]
    exact t.beq_refl
  induction hp with
  | param name =>
      obtain ⟨t, u, ht, hu, htu⟩ := h name List.mem_cons_self
      change (b.get? name).getD _ == (s.get? name).getD _
      rw [ht, hu]
      exact htu
  | closed hwf hnone => exact hclosed hwf hnone
  | array helement ih => exact array_beq_iff.2 ⟨_, rfl, ih h⟩
  | @generic base args hbase hnone hargs ih =>
      rw [paramNames_generic, hnone, List.nil_append, List.forall_mem_flatMap] at h
      refine generic_beq_iff.2 ⟨_, _, rfl, hclosed hbase hnone, ?_⟩
      simp only [substituteList_eq_map, List.forall₂_map_left_iff, List.forall₂_map_right_iff,
        List.forall₂_same]
      exact fun a ha => ih a ha (h a ha)
  | @function signature hparams hreturns hvarargs ihParams ihReturns =>
      rw [paramNames_function, List.forall_mem_append, List.forall_mem_append,
        List.forall_mem_flatMap, List.forall_mem_map] at h
      refine function_beq_iff.2 ⟨_, rfl, ?_, ihReturns h.2.1, ?_, rfl⟩
      · simp only [substituteParams_eq_map, List.map_map, List.forall₂_map_left_iff,
          List.forall₂_map_right_iff, List.forall₂_same]
        exact fun x hx => ihParams x hx (h.1 x hx)
      · simp only [substituteOption_eq_map, Option.toList_map, List.forall₂_map_left_iff,
          List.forall₂_map_right_iff, List.forall₂_same, Option.mem_toList]
        exact fun v hv => hclosed (hvarargs v hv).1 (hvarargs v hv).2

/-- Matching a declared type against its instance under a substitution binds the parameters of the
type to what the substitution has for them and binds nothing else, however often a parameter occurs,
and so makes the same instance again. -/
theorem matching_recovers_instance (p : Ty) (s : Bindings) (hp : p.Schematic)
    (hs : ∀ name ∈ p.paramNames, ∃ u, s.get? name = some u ∧ u.WellFormed ∧ u ≠ .unknown) :
    let learnt := Bindings.learn {} p (p.substitute s.rule)
    (∀ name ∈ p.paramNames,
      ∃ t u, learnt.get? name = some t ∧ s.get? name = some u ∧ t == u) ∧
    (∀ name, name ∉ p.paramNames → learnt.get? name = none) ∧
    p.substitute learnt.rule == p.substitute s.rule := by
  intro learnt
  have hrecovers : Bindings.Recovers s p.paramNames learnt :=
    Bindings.recoverable_of_schematic hp hs Bindings.recovers_nil
  have hbound : ∀ name ∈ p.paramNames,
      ∃ t u, learnt.get? name = some t ∧ s.get? name = some u ∧ t == u := by
    intro name hname
    obtain ⟨t, u, hget, hget', -, htu⟩ := hrecovers.bound hname
    exact ⟨t, u, hget, hget', htu⟩
  exact ⟨hbound, fun _ hname => hrecovers.unbound hname, hp.substitute_beq hbound⟩

theorem matching_recovers_instance_of_callback :
    let t : Ty := .param "T" none
    let p : Ty := .function
      { params := [("each", .function { params := [("x", t)], returns := .param "R" none }),
          ("xs", .array t)]
        returns := .generic (named "Map") [t, .param "R" none]
        varargs := some (named "Option") }
    let s : Bindings :=
      { entries := [("R", .nil), ("T", .union [named "A", .array (named "A")])] }
    let learnt := Bindings.learn {} p (p.substitute s.rule)
    (p.Schematic ∧
      ∀ name ∈ p.paramNames, ∃ u, s.get? name = some u ∧ u.WellFormed ∧ u ≠ .unknown) ∧
    p.paramNames = ["T", "R", "T", "T", "R"] ∧ learnt.get? "S" = none ∧
    p.substitute learnt.rule == p.substitute s.rule := by
  intro t p s learnt
  have hp : p.Schematic := by
    refine .function (List.forall_mem_cons.2 ⟨?_, List.forall_mem_singleton.2 ?_⟩) ?_ ?_
    · refine .function (List.forall_mem_singleton.2 (.param "T")) (.param "R") fun v hv => ?_
      exact absurd hv (Option.not_mem_none v)
    · exact .array (.param "T")
    · refine .generic trivial rfl (List.forall_mem_cons.2 ⟨.param "T", ?_⟩)
      exact List.forall_mem_singleton.2 (.param "R")
    · intro v hv
      obtain rfl := Option.mem_some.1 hv
      exact ⟨trivial, rfl⟩
  have hnames : p.paramNames = ["T", "R", "T", "T", "R"] := rfl
  have hs : ∀ name ∈ p.paramNames,
      ∃ u, s.get? name = some u ∧ u.WellFormed ∧ u ≠ .unknown := by
    have hunion : (union [named "A", .array (named "A")]).WellFormed := by
      simp [WellFormed, WellFormedList, named, kind, isInvalid]
      rfl
    simp only [hnames, List.forall_mem_cons]
    have hT : ∃ u, s.get? "T" = some u ∧ u.WellFormed ∧ u ≠ .unknown :=
      ⟨_, rfl, hunion, Ty.noConfusion⟩
    have hR : ∃ u, s.get? "R" = some u ∧ u.WellFormed ∧ u ≠ .unknown :=
      ⟨_, rfl, trivial, Ty.noConfusion⟩
    exact ⟨hT, hR, hT, hT, hR, List.forall_mem_nil _⟩
  obtain ⟨-, hunbound, hsame⟩ := matching_recovers_instance p s hp hs
  exact ⟨⟨hp, hs⟩, hnames, hunbound "S" (by rw [hnames]; decide), hsame⟩

end Ty

end LuaTypes
