import LuaTypes.Proofs.RankOrder
import LuaTypes.Proofs.UnionMembers

namespace LuaTypes

namespace Ty

instance : Std.TransCmp compareWorth where
  eq_swap {a b} := by
    change a.rankKey.compare b.rankKey = (b.rankKey.compare a.rankKey).swap
    exact Std.OrientedCmp.eq_swap
  isLE_trans {a b c} := by
    change (a.rankKey.compare b.rankKey).isLE → (b.rankKey.compare c.rankKey).isLE →
      (a.rankKey.compare c.rankKey).isLE
    exact Std.TransCmp.isLE_trans

variable {a b : Ty} {members as bs types types' : List Ty}

theorem compareWorth_eq_iff : a.compareWorth b = .eq ↔ a.rankKey = b.rankKey := by
  change a.rankKey.compare b.rankKey = .eq ↔ _
  exact Std.LawfulEqCmp.compare_eq_iff_eq

theorem compareWorth_of_worth_lt (h : b.worth < a.worth) : a.compareWorth b = .lt := by
  have hworth : compare b.worth a.worth = .lt := Nat.compare_eq_lt.2 h
  change (compare b.worth a.worth).then _ = .lt
  rw [hworth]
  rfl

theorem pairwise_sort (types : List Ty) :
    (sort types).Pairwise fun a b => (a.compareWorth b).isLE :=
  pairwise_mergeSort_isLE compareWorth types

theorem sort_perm (types : List Ty) : (sort types).Perm types :=
  List.mergeSort_perm types _

theorem map_rankKey_sort (types : List Ty) :
    (sort types).map rankKey = RankKey.sort (types.map rankKey) :=
  List.map_mergeSort fun _ _ _ _ => rfl

theorem orderingName_union (members : List Ty) :
    (union members).orderingName = "|".intercalate ((sort members).map orderingName) := by
  rw [orderingName, rankKeys_eq_map, ← map_rankKey_sort, List.map_map]
  rfl

theorem forall₂_sort_of_perm (h : as.Perm bs) :
    List.Forall₂ (fun a b => a.compareWorth b = .eq) (sort as) (sort bs) := by
  have hkeys : (sort as).map rankKey = (sort bs).map rankKey := by
    rw [map_rankKey_sort, map_rankKey_sort, RankKey.sort_eq_of_perm (h.map rankKey)]
  simp only [compareWorth_eq_iff]
  rwa [← List.forall₂_eq_eq_eq, List.forall₂_map_left_iff, List.forall₂_map_right_iff] at hkeys

theorem sort_eq_cons_representative (h : members ≠ []) :
    ∃ rest, sort members = (union members).representative :: rest := by
  cases hsort : sort members with
  | nil => exact absurd (hsort ▸ sort_perm members).nil_eq.symm h
  | cons first rest =>
      refine ⟨rest, ?_⟩
      rw [representative, Ty.members, hsort]
      rfl

theorem representative_mem (h : members ≠ []) : (union members).representative ∈ members := by
  obtain ⟨rest, hsort⟩ := sort_eq_cons_representative h
  rw [← (sort_perm members).mem_iff, hsort]
  exact List.mem_cons_self

theorem representative_isLE {m : Ty} (hm : m ∈ members) :
    ((union members).representative.compareWorth m).isLE := by
  obtain ⟨rest, hsort⟩ := sort_eq_cons_representative (List.ne_nil_of_mem hm)
  have hpairwise := pairwise_sort members
  rw [hsort, List.pairwise_cons] at hpairwise
  rw [← (sort_perm members).mem_iff, hsort] at hm
  rcases List.mem_cons.1 hm with rfl | hm
  · exact Std.ReflCmp.isLE_rfl
  · exact hpairwise.1 m hm

theorem not_lt_of_isLE (h : (a.compareWorth b).isLE) : b.compareWorth a ≠ .lt := by
  have hswap : b.compareWorth a = (a.compareWorth b).swap := Std.OrientedCmp.eq_swap
  rw [hswap]
  revert h
  cases a.compareWorth b <;> decide

theorem worth_le_of_isLE (h : (a.compareWorth b).isLE) : b.worth ≤ a.worth := by
  refine Nat.le_of_not_lt fun hlt => not_lt_of_isLE h ?_
  exact compareWorth_of_worth_lt hlt

/-- The order is a total preorder in which higher worth comes first, and the name of a union, which
it compares, lists the members in this order. Sorting a union keeps its members and puts them in
order, and the one that stands for the union is a member of the highest worth that no other one
precedes. If different members are added, alone or several of them as a union, the sorted members
rank alike at each place whatever the order in which they are added. -/
theorem order_sorts_unions :
    ((∀ a : Ty, a.compareWorth a = .eq) ∧
      (∀ a b : Ty, b.compareWorth a = (a.compareWorth b).swap) ∧
      (∀ a b c : Ty, (a.compareWorth b).isLE → (b.compareWorth c).isLE →
        (a.compareWorth c).isLE) ∧
      (∀ a b : Ty, b.worth < a.worth → a.compareWorth b = .lt) ∧
      ∀ members : List Ty,
        (union members).orderingName = "|".intercalate ((sort members).map orderingName)) ∧
    (∀ members : List Ty, members ≠ [] →
      (sort members).Perm members ∧
      ((sort members).Pairwise fun a b => (a.compareWorth b).isLE) ∧
      (union members).representative ∈ members ∧
      ∀ m ∈ members, m.worth ≤ (union members).representative.worth ∧
        m.compareWorth (union members).representative ≠ .lt) ∧
    ∀ types types' : List Ty, (∀ t ∈ types, t.WellFormed) → (∀ t ∈ types', t.WellFormed) →
      types.flatMap keptMembers ≠ [] → Distinct (types.flatMap keptMembers) →
      (types.flatMap keptMembers).Perm (types'.flatMap keptMembers) →
      List.Forall₂ (fun a b => a.compareWorth b = .eq) (sort (uniteAll types).members)
        (sort (uniteAll types').members) ∧
      List.Forall₂ (fun a b => a.compareWorth b = .eq)
        (sort (types.foldl UnionBuilder.add {}).build.members)
        (sort (types'.foldl UnionBuilder.add {}).build.members) := by
  refine ⟨⟨fun _ => Std.ReflCmp.compare_self, fun _ _ => Std.OrientedCmp.eq_swap,
    fun _ _ _ => Std.TransCmp.isLE_trans, fun _ _ => compareWorth_of_worth_lt,
    orderingName_union⟩,
    fun members hmembers => ⟨sort_perm members, pairwise_sort members,
      representative_mem hmembers, fun m hm => ?_⟩,
    fun types types' h h' hsome hdistinct hperm => ?_⟩
  · have hle := representative_isLE hm
    exact ⟨worth_le_of_isLE hle, not_lt_of_isLE hle⟩
  · have hkept : ∀ m ∈ types.flatMap keptMembers, m.WellFormed :=
      List.forall_mem_flatMap.2 fun t ht => wellFormed_keptMembers (h t ht)
    have hdistinct' := hdistinct.perm hperm hkept
    constructor
    · have hunited := perm_keptMembers_uniteAll h hdistinct
      have hunited' := perm_keptMembers_uniteAll h' hdistinct'
      have hnonempty : (uniteAll types).keptMembers ≠ [] := fun hnil =>
        hsome (List.Perm.eq_nil (hnil ▸ hunited.symm))
      exact forall₂_sort_of_perm (perm_members (wellFormed_uniteAll h) (wellFormed_uniteAll h')
        hnonempty (hunited.trans (hperm.trans hunited'.symm)))
    · have hbuilt := keptMembers_build_addAll h hdistinct
      have hbuilt' := keptMembers_build_addAll h' hdistinct'
      exact forall₂_sort_of_perm (perm_members (UnionBuilder.WellFormed.empty.addAll h).build
        (UnionBuilder.WellFormed.empty.addAll h').build (hbuilt ▸ hsome)
        (hbuilt ▸ hbuilt' ▸ hperm))

theorem order_sorts_unions_of_added_types :
    let class' : Ty := named "Zed"
    let array : Ty := .array (.union [.primitive .number, .primitive .string])
    let types : List Ty := [.primitive .string, .union [class', array]]
    let types' : List Ty := [class', .nil, array, .primitive .string]
    ((∀ t ∈ types, t.WellFormed) ∧ (∀ t ∈ types', t.WellFormed)) ∧
    (union [.primitive .string, class']).representative ∈ [.primitive .string, class'] ∧
    List.Forall₂ (fun a b => a.compareWorth b = .eq) (sort (uniteAll types).members)
      (sort (uniteAll types').members) := by
  intro class' array types types'
  have harray : array.WellFormed := by
    simp [array, WellFormed, WellFormedList, kind, isInvalid]
    rfl
  have hunion : (union [class', array]).WellFormed :=
    ⟨Nat.le_refl 2, by decide, by decide, trivial, harray, trivial⟩
  have htypes : ∀ t ∈ types, t.WellFormed :=
    List.forall_mem_cons.2 ⟨trivial, List.forall_mem_singleton.2 hunion⟩
  have htypes' : ∀ t ∈ types', t.WellFormed := by
    simp [types', class', named, WellFormed, harray]
  have hdistinct : Distinct (types.flatMap keptMembers) := by
    change List.Pairwise _ [.primitive .string, class', array]
    decide
  have hperm : (types.flatMap keptMembers).Perm (types'.flatMap keptMembers) :=
    @List.perm_append_comm Ty [.primitive .string] [class', array]
  obtain ⟨-, hsorted, hadded⟩ := order_sorts_unions
  exact ⟨⟨htypes, htypes'⟩, (hsorted [.primitive .string, class'] (List.cons_ne_nil _ _)).2.2.1,
    (hadded types types' htypes htypes' (List.cons_ne_nil _ _) hdistinct hperm).1⟩

end Ty

end LuaTypes
