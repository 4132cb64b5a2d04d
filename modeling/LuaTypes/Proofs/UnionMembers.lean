import LuaTypes.Proofs.UnionAlgebra

namespace LuaTypes

theorem Distinct.perm {as bs : List Ty} (h : Distinct as) (hperm : as.Perm bs)
    (has : ∀ a ∈ as, a.WellFormed) : Distinct bs := by
  have hboth : as.Pairwise fun a b => (a == b) = false ∧ (b == a) = false := by
    refine List.Pairwise.imp_of_mem (fun {a b} ha hb hab => ⟨hab, ?_⟩) h
    rw [← Bool.not_eq_true] at hab ⊢
    exact fun hba => hab (Ty.beq_symm (has b hb) (has a ha) hba)
  exact ((hperm.pairwise_iff And.symm).1 hboth).imp And.left

/-- The types without those that are the same as an earlier one. -/
def firstOccurrences : List Ty → List Ty
  | [] => []
  | t :: types => t :: (firstOccurrences types).filter fun u => !(t == u)

theorem firstOccurrences_of_distinct {types : List Ty} (h : Distinct types) :
    firstOccurrences types = types := by
  induction types with
  | nil => rfl
  | cons t types ih =>
      obtain ⟨hfirst, htypes⟩ := List.pairwise_cons.1 h
      rw [firstOccurrences, ih htypes, List.filter_eq_self.2 fun u hu => by simp [hfirst u hu]]

namespace UnionBuilder

theorem members_foldl_insert (types : List Ty) (b : UnionBuilder) :
    (types.foldl insert b).members =
      b.members ++ (firstOccurrences types).filter fun t => !b.members.any (· == t) := by
  induction types generalizing b with
  | nil => exact (List.append_nil _).symm
  | cons t types ih =>
      rw [List.foldl_cons, ih, firstOccurrences, insert]
      cases hfound : b.members.any (· == t) with
      | true =>
          rw [if_pos rfl, List.filter_cons_of_neg (by simp [hfound]), List.filter_filter]
          congr 1
          refine List.filter_congr fun u _ => ?_
          cases hu : b.members.any (· == u) with
          | true => rfl
          | false =>
              obtain ⟨m, hm, hmt⟩ := List.any_eq_true.1 hfound
              have hmu : (m == u) = false := by simpa using List.any_eq_false.1 hu m hm
              have htu : (t == u) = false := by
                rw [← Bool.not_eq_true] at hmu ⊢
                exact fun htu => hmu (Ty.beq_trans hmt htu)
              rw [htu]
              rfl
      | false =>
          rw [if_neg Bool.false_ne_true, List.filter_cons_of_pos (by simp [hfound]),
            List.filter_filter, List.append_assoc, List.singleton_append]
          congr 2
          refine List.filter_congr fun u _ => ?_
          simp

theorem foldl_add_eq {types : List Ty} (h : ∀ t ∈ types, t.WellFormed) (b : UnionBuilder) :
    types.foldl add b = (types.flatMap Ty.keptMembers).foldl insert b := by
  induction types generalizing b with
  | nil => rfl
  | cons t types ih =>
      obtain ⟨ht, htypes⟩ := List.forall_mem_cons.1 h
      rw [List.foldl_cons, ih htypes, Ty.add_eq_foldl_insert b ht, List.flatMap_cons,
        List.foldl_append]

end UnionBuilder

namespace Ty

/-- The one of two types whose members come first in their union. -/
def leading (a b : Ty) : Ty :=
  if b.kind = .union ∧ a.kind ≠ .union then b else a

/-- The one of two types whose members come last in their union. -/
def trailing (a b : Ty) : Ty :=
  if b.kind = .union ∧ a.kind ≠ .union then a else b

/-- The members with a value of the second type that are the same as none of the first. -/
def newMembers (first second : Ty) : List Ty :=
  second.keptMembers.filter fun m => !first.keptMembers.any (· == m)

variable {a b t : Ty}

theorem leading_and_trailing (a b : Ty) :
    (a.leading b = a ∧ a.trailing b = b) ∨ (a.leading b = b ∧ a.trailing b = a) := by
  unfold leading trailing
  split
  · exact .inr ⟨rfl, rfl⟩
  · exact .inl ⟨rfl, rfl⟩

theorem wellFormed_leading (ha : a.WellFormed) (hb : b.WellFormed) : (a.leading b).WellFormed := by
  rcases leading_and_trailing a b with ⟨hl, -⟩ | ⟨hl, -⟩
  · rwa [hl]
  · rwa [hl]

theorem wellFormed_trailing (ha : a.WellFormed) (hb : b.WellFormed) :
    (a.trailing b).WellFormed := by
  rcases leading_and_trailing a b with ⟨-, ht⟩ | ⟨-, ht⟩
  · rwa [ht]
  · rwa [ht]

theorem keptMembers_build_add (ha : a.WellFormed) (hb : b.WellFormed) :
    (({} : UnionBuilder).add a |>.add b).build.keptMembers =
      a.keptMembers ++ a.newMembers b := by
  have hfirst : (({} : UnionBuilder).add a).members = a.keptMembers := by
    rw [add_eq_foldl_insert _ ha, UnionBuilder.foldl_insert_of_distinct (distinct_keptMembers ha)]
    rfl
  rw [keptMembers_build (UnionBuilder.WellFormed.empty.add ha |>.add hb), add_eq_foldl_insert _ hb,
    UnionBuilder.members_foldl_insert, firstOccurrences_of_distinct (distinct_keptMembers hb),
    hfirst]
  rfl

/-- A union holds all members with a value of the leading type, and then those of the other one that
are new. -/
theorem keptMembers_unite (ha : a.WellFormed) (hb : b.WellFormed) :
    (a.unite b).keptMembers =
      (a.leading b).keptMembers ++ (a.leading b).newMembers (a.trailing b) := by
  unfold unite leading trailing
  by_cases hleft : a.isInvalid = true
  · rw [if_pos hleft]
    split <;> simp [newMembers, keptMembers_of_isInvalid hleft]
  · rw [if_neg hleft]
    by_cases hright : b.isInvalid = true
    · rw [if_pos hright]
      split <;> simp [newMembers, keptMembers_of_isInvalid hright]
    · rw [if_neg hright]
      split
      next => exact keptMembers_build_add hb ha
      next => exact keptMembers_build_add ha hb

theorem perm_keptMembers_unite (ha : a.WellFormed) (hb : b.WellFormed)
    (h : Distinct (a.keptMembers ++ b.keptMembers)) :
    (a.unite b).keptMembers.Perm (a.keptMembers ++ b.keptMembers) := by
  have hall : ∀ x y : Ty, Distinct (x.keptMembers ++ y.keptMembers) →
      x.newMembers y = y.keptMembers := by
    intro x y hxy
    refine List.filter_eq_self.2 fun m hm => ?_
    simpa using fun l hl => (List.pairwise_append.1 hxy).2.2 l hl m hm
  rw [keptMembers_unite ha hb]
  rcases leading_and_trailing a b with ⟨hl, ht⟩ | ⟨hl, ht⟩
  · rw [hl, ht, hall a b h]
  · have hswap : Distinct (b.keptMembers ++ a.keptMembers) :=
      h.perm List.perm_append_comm (List.forall_mem_append.2
        ⟨wellFormed_keptMembers ha, wellFormed_keptMembers hb⟩)
    rw [hl, ht, hall b a hswap]
    exact List.perm_append_comm

theorem perm_keptMembers_uniteAll {types : List Ty} (h : ∀ t ∈ types, t.WellFormed)
    (hdistinct : Distinct (types.flatMap keptMembers)) :
    (uniteAll types).keptMembers.Perm (types.flatMap keptMembers) := by
  suffices ∀ first : Ty, first.WellFormed →
      Distinct (first.keptMembers ++ types.flatMap keptMembers) →
      (types.foldl unite first).keptMembers.Perm
        (first.keptMembers ++ types.flatMap keptMembers) from this .unknown trivial hdistinct
  clear hdistinct
  induction types with
  | nil => exact fun first _ _ => by rw [List.flatMap_nil, List.append_nil]; rfl
  | cons t types ih =>
      intro first hfirst hdistinct
      obtain ⟨ht, htypes⟩ := List.forall_mem_cons.1 h
      rw [List.flatMap_cons, ← List.append_assoc] at hdistinct ⊢
      have hunited := (perm_keptMembers_unite hfirst ht
        (List.pairwise_append.1 hdistinct).1).append_right (types.flatMap keptMembers)
      have hwf : ∀ m ∈ first.keptMembers ++ t.keptMembers ++ types.flatMap keptMembers,
          m.WellFormed :=
        List.forall_mem_append.2 ⟨List.forall_mem_append.2
          ⟨wellFormed_keptMembers hfirst, wellFormed_keptMembers ht⟩,
          List.forall_mem_flatMap.2 fun t ht => wellFormed_keptMembers (htypes t ht)⟩
      exact (ih htypes (first.unite t) (wellFormed_unite hfirst ht)
        (hdistinct.perm hunited.symm hwf)).trans hunited

theorem keptMembers_addAll {types : List Ty} (h : ∀ t ∈ types, t.WellFormed) :
    (types.foldl UnionBuilder.add {}).build.keptMembers =
      firstOccurrences (types.flatMap keptMembers) := by
  rw [keptMembers_build (UnionBuilder.WellFormed.empty.addAll h), UnionBuilder.foldl_add_eq h,
    UnionBuilder.members_foldl_insert]
  exact List.filter_eq_self.2 fun t _ => rfl

theorem keptMembers_build_addAll {types : List Ty} (h : ∀ t ∈ types, t.WellFormed)
    (hdistinct : Distinct (types.flatMap keptMembers)) :
    (types.foldl UnionBuilder.add {}).build.keptMembers = types.flatMap keptMembers :=
  (keptMembers_addAll h).trans (firstOccurrences_of_distinct hdistinct)

theorem isInvalid_eq_false_of_keptMembers (ht : t.WellFormed) (h : t.keptMembers ≠ []) :
    t.isInvalid = false := by
  rwa [← Bool.not_eq_true, ← keptMembers_eq_nil_iff ht]

theorem perm_members (ha : a.WellFormed) (hb : b.WellFormed) (hsome : a.keptMembers ≠ [])
    (h : a.keptMembers.Perm b.keptMembers) : a.members.Perm b.members := by
  have hsome' : b.keptMembers ≠ [] := fun hnil => hsome (List.Perm.eq_nil (hnil ▸ h))
  rwa [← keptMembers_of_valid ha (isInvalid_eq_false_of_keptMembers ha hsome),
    ← keptMembers_of_valid hb (isInvalid_eq_false_of_keptMembers hb hsome')]

end Ty

end LuaTypes
