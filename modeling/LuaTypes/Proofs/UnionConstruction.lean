import LuaTypes.Proofs.UnionMembers

namespace LuaTypes

namespace Ty

variable {a t : Ty} {types : List Ty}

theorem keptMembers_of_not_union (h : t.kind ≠ .union) :
    t.keptMembers = if t.isInvalid then [] else [t] := by
  cases hinvalid : t.isInvalid with
  | true => exact keptMembers_of_isInvalid hinvalid
  | false => exact keptMembers_of_isPlain ⟨h, hinvalid⟩

theorem flatMap_keptMembers_of_not_union (h : ∀ t ∈ types, t.kind ≠ .union) :
    types.flatMap keptMembers = types.filter fun t => !t.isInvalid := by
  induction types with
  | nil => rfl
  | cons t types ih =>
      obtain ⟨ht, htypes⟩ := List.forall_mem_cons.1 h
      rw [List.flatMap_cons, ih htypes, keptMembers_of_not_union ht]
      cases hinvalid : t.isInvalid with
      | true => rw [List.filter_cons_of_neg (by simp [hinvalid])]; rfl
      | false => rw [List.filter_cons_of_pos (by simp [hinvalid])]; rfl

theorem keptMembers_unite_of_not_union {b : UnionBuilder} (ha : a.WellFormed) (ht : t.WellFormed)
    (hplain : t.kind ≠ .union) (hmembers : b.members = a.keptMembers) :
    (a.unite t).keptMembers = (b.add t).members := by
  have hleading : a.leading t = a := if_neg fun h => hplain h.1
  have htrailing : a.trailing t = t := if_neg fun h => hplain h.1
  rw [keptMembers_unite ha ht, hleading, htrailing, add_eq_foldl_insert _ ht,
    UnionBuilder.members_foldl_insert, firstOccurrences_of_distinct (distinct_keptMembers ht),
    hmembers]
  rfl

theorem keptMembers_foldl_unite {b : UnionBuilder} (h : ∀ t ∈ types, t.WellFormed)
    (hplain : ∀ t ∈ types, t.kind ≠ .union) (ha : a.WellFormed)
    (hmembers : b.members = a.keptMembers) :
    (types.foldl unite a).keptMembers = (types.foldl UnionBuilder.add b).members := by
  induction types generalizing a b with
  | nil => exact hmembers.symm
  | cons t types ih =>
      obtain ⟨ht, htypes⟩ := List.forall_mem_cons.1 h
      obtain ⟨htplain, hplain⟩ := List.forall_mem_cons.1 hplain
      exact ih htypes hplain (wellFormed_unite ha ht)
        (keptMembers_unite_of_not_union ha ht htplain hmembers).symm

theorem foldl_unite_of_isInvalid (ha : a.isInvalid = true) (h : ∀ t ∈ types, t.isInvalid = true) :
    types.foldl unite a = types.getLastD a := by
  induction types generalizing a with
  | nil => rfl
  | cons t types ih =>
      obtain ⟨ht, htypes⟩ := List.forall_mem_cons.1 h
      rw [List.foldl_cons, unite_of_isInvalid ha, ih ht htypes, List.getLastD_cons]

theorem collects_addAll (h : ∀ t ∈ types, t.WellFormed) :
    Collects (types.foldl UnionBuilder.add {}).build.keptMembers (types.flatMap keptMembers) := by
  rw [keptMembers_build (UnionBuilder.WellFormed.empty.addAll h), UnionBuilder.foldl_add_eq h]
  exact UnionBuilder.collects_foldl_insert _ {}

theorem wellFormed_build_addAll (h : ∀ t ∈ types, t.WellFormed) :
    (types.foldl UnionBuilder.add {}).build.WellFormed :=
  (UnionBuilder.WellFormed.empty.addAll h).build

/-- Both ways keep the same members, whatever their order. -/
theorem sameSet_build_addAll (h : ∀ t ∈ types, t.WellFormed) :
    SameSet (types.foldl UnionBuilder.add {}).build.keptMembers (uniteAll types).keptMembers :=
  (collects_addAll h).sameSet.trans (collects_uniteAll h).sameSet.symm

theorem build_addAll_of_isInvalid (h : ∀ t ∈ types, t.isInvalid = true) :
    (types.foldl UnionBuilder.add {}).build = .unknown := by
  have hwf : ∀ t ∈ types, t.WellFormed := by
    intro t ht
    have hinvalid := h t ht
    cases t with
    | unknown | nil | void => trivial
    | _ => cases hinvalid
  have hnone : types.flatMap keptMembers = [] :=
    List.flatMap_eq_nil_iff.2 fun t ht => keptMembers_of_isInvalid (h t ht)
  rw [UnionBuilder.foldl_add_eq hwf, hnone]
  rfl

section Valid

variable (h : ∀ t ∈ types, t.WellFormed) (hvalid : ∃ t ∈ types, t.isInvalid = false)

include h hvalid

theorem isInvalid_uniteAll_of_exists : (uniteAll types).isInvalid = false := by
  obtain ⟨t, ht, htvalid⟩ := hvalid
  exact isInvalid_uniteAll_of_mem h ht htvalid

theorem isInvalid_build_addAll : (types.foldl UnionBuilder.add {}).build.isInvalid = false := by
  rw [isInvalid_eq_of_sameSet (wellFormed_build_addAll h) (wellFormed_uniteAll h)
    (sameSet_build_addAll h)]
  exact isInvalid_uniteAll_of_exists h hvalid

theorem build_addAll_beq_uniteAll :
    (types.foldl UnionBuilder.add {}).build == uniteAll types :=
  beq_of_sameSet (wellFormed_build_addAll h) (wellFormed_uniteAll h)
    (isInvalid_build_addAll h hvalid) (isInvalid_uniteAll_of_exists h hvalid)
    (sameSet_build_addAll h)

theorem members_build_addAll (hplain : ∀ t ∈ types, t.kind ≠ .union) :
    (types.foldl UnionBuilder.add {}).build.members =
      firstOccurrences (types.filter fun t => !t.isInvalid) := by
  rw [← keptMembers_of_valid (wellFormed_build_addAll h) (isInvalid_build_addAll h hvalid),
    keptMembers_addAll h, flatMap_keptMembers_of_not_union hplain]

theorem members_uniteAll (hplain : ∀ t ∈ types, t.kind ≠ .union) :
    (uniteAll types).members = (types.foldl UnionBuilder.add {}).build.members := by
  rw [← keptMembers_of_valid (wellFormed_uniteAll h) (isInvalid_uniteAll_of_exists h hvalid),
    ← keptMembers_of_valid (wellFormed_build_addAll h) (isInvalid_build_addAll h hvalid),
    keptMembers_build (UnionBuilder.WellFormed.empty.addAll h)]
  exact keptMembers_foldl_unite h hplain trivial rfl

end Valid

/-- If one of several types has a value, adding them to a builder leads to the same type as uniting
them one by one, and if none of them is a union, both hold those with a value in the order of their
first occurrence. If none has a value, the builder makes the unknown type, and uniting them leads
to the last of them. -/
theorem builder_agrees_with_fold (types : List Ty) (h : ∀ t ∈ types, t.WellFormed) :
    ((∃ t ∈ types, t.isInvalid = false) →
      (types.foldl UnionBuilder.add {}).build == uniteAll types ∧
        ((∀ t ∈ types, t.kind ≠ .union) →
          (types.foldl UnionBuilder.add {}).build.members =
              firstOccurrences (types.filter fun t => !t.isInvalid) ∧
            (uniteAll types).members =
              firstOccurrences (types.filter fun t => !t.isInvalid))) ∧
    ((∀ t ∈ types, t.isInvalid = true) →
      (types.foldl UnionBuilder.add {}).build = .unknown ∧
        uniteAll types = types.getLastD .unknown) := by
  constructor
  · intro hvalid
    refine ⟨build_addAll_beq_uniteAll h hvalid, fun hplain => ?_⟩
    have hbuilt := members_build_addAll h hvalid hplain
    exact ⟨hbuilt, (members_uniteAll h hvalid hplain).trans hbuilt⟩
  · intro hinvalid
    exact ⟨build_addAll_of_isInvalid hinvalid, foldl_unite_of_isInvalid rfl hinvalid⟩

/-- A union behind a single type comes to stand in front of it when the two are united, not when
they are added. -/
theorem builder_agrees_with_fold_behind_class :
    let string : Ty := .primitive .string
    let either : Ty := .union [string, .array .nil]
    let types : List Ty := [named "Zed", .nil, either]
    let repeated : List Ty := [.void, string, named "Zed", .nil, string]
    ((∀ t ∈ types, t.WellFormed) ∧ (∃ t ∈ types, t.isInvalid = false) ∧
      (types.foldl UnionBuilder.add {}).build == uniteAll types ∧
      (types.foldl UnionBuilder.add {}).build = .union [named "Zed", string, .array .nil] ∧
      uniteAll types = .union [string, .array .nil, named "Zed"]) ∧
    ((∀ t ∈ repeated, t.WellFormed) ∧ (∃ t ∈ repeated, t.isInvalid = false) ∧
      (∀ t ∈ repeated, t.kind ≠ .union) ∧ (uniteAll repeated).members = [string, named "Zed"]) ∧
    (∀ t ∈ [Ty.void, nil], t.WellFormed) ∧ (∀ t ∈ [Ty.void, nil], t.isInvalid = true) ∧
      ([Ty.void, nil].foldl UnionBuilder.add {}).build = .unknown ∧
      uniteAll [.void, .nil] = .nil := by
  intro string either types repeated
  have htypes : ∀ t ∈ types, t.WellFormed := by
    simp [types, either, string, named, WellFormed, WellFormedList, kind, isInvalid]
    rfl
  have hrepeated : ∀ t ∈ repeated, t.WellFormed := by
    simp [repeated, string, named, WellFormed]
  have hvalid : ∃ t ∈ types, t.isInvalid = false := ⟨named "Zed", List.mem_cons_self, rfl⟩
  have hvalid' : ∃ t ∈ repeated, t.isInvalid = false := ⟨string, by simp [repeated], rfl⟩
  have hplain : ∀ t ∈ repeated, t.kind ≠ .union := by simp [repeated, string, named, kind]
  have hinvalid : ∀ t ∈ [Ty.void, nil], t.isInvalid = true := by simp [isInvalid]
  have hnone : ∀ t ∈ [Ty.void, nil], t.WellFormed := by simp [WellFormed]
  have hsame := (builder_agrees_with_fold types htypes).1 hvalid
  have hmembers := ((builder_agrees_with_fold repeated hrepeated).1 hvalid').2 hplain
  have hlast := (builder_agrees_with_fold [.void, .nil] hnone).2 hinvalid
  exact ⟨⟨htypes, hvalid, hsame.1, rfl, rfl⟩, ⟨hrepeated, hvalid', hplain, hmembers.2⟩, hnone,
    hinvalid, hlast.1, hlast.2⟩

end Ty

end LuaTypes
