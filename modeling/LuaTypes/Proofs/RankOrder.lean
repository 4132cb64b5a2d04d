import LuaTypes.Proofs.ClassProperties
import LuaTypes.Proofs.TypeEquality
import LuaTypes.Ty.Order

namespace LuaTypes

theorem Ty.Kind.compare_eq (a b : Ty.Kind) : compare a b = compare a.ctorIdx b.ctorIdx := by
  cases a <;> cases b <;> rfl

instance : Std.TransOrd Ty.Kind where
  eq_swap {a b} := by
    rw [Ty.Kind.compare_eq, Ty.Kind.compare_eq]
    exact Std.OrientedOrd.eq_swap
  isLE_trans {a b c} := by
    rw [Ty.Kind.compare_eq, Ty.Kind.compare_eq, Ty.Kind.compare_eq]
    exact Std.TransOrd.isLE_trans

instance : Std.LawfulEqOrd Ty.Kind where
  eq_of_compare {a b} h := by
    rw [Ty.Kind.compare_eq] at h
    have hidx := Std.LawfulEqOrd.eq_of_compare h
    cases a <;> cases b <;> first | rfl | cases hidx

theorem pairwise_mergeSort_isLE {α : Type} (cmp : α → α → Ordering) [Std.TransCmp cmp]
    (xs : List α) :
    (xs.mergeSort fun a b => (cmp a b).isLE).Pairwise fun a b => (cmp a b).isLE := by
  refine List.pairwise_mergeSort (fun a b c => Std.TransCmp.isLE_trans) (fun a b => ?_) xs
  have hswap : cmp b a = (cmp a b).swap := Std.OrientedCmp.eq_swap
  rw [hswap]
  cases cmp a b <;> rfl

namespace RankKey

theorem compare_eq_compareLex : RankKey.compare =
    compareLex (fun a b => compareOn worth b a) (compareLex (compareOn name) (compareOn kind)) :=
  rfl

instance : Std.TransCmp RankKey.compare := by
  rw [compare_eq_compareLex]
  have : Std.TransCmp fun a b => compareOn worth b a := Std.TransCmp.opposite
  infer_instance

/-- Only a key itself ranks as high as it. -/
instance : Std.LawfulEqCmp RankKey.compare where
  compare_self := Std.ReflCmp.compare_self
  eq_of_compare {a b} h := by
    obtain ⟨hworth, hrest⟩ := Ordering.then_eq_eq.1 h
    obtain ⟨hname, hkind⟩ := Ordering.then_eq_eq.1 hrest
    obtain ⟨worth, name, kind⟩ := a
    obtain rfl := Std.LawfulEqOrd.eq_of_compare hworth
    obtain rfl := Std.LawfulEqOrd.eq_of_compare hname
    obtain rfl := Std.LawfulEqOrd.eq_of_compare hkind
    rfl

theorem pairwise_sort (keys : List RankKey) :
    (sort keys).Pairwise fun a b => (a.compare b).isLE :=
  pairwise_mergeSort_isLE RankKey.compare keys

theorem sort_eq_of_perm {keys keys' : List RankKey} (h : keys.Perm keys') :
    sort keys = sort keys' := by
  refine List.Perm.eq_of_pairwise (fun a b _ _ hab hba => ?_) (pairwise_sort keys)
    (pairwise_sort keys') ?_
  · exact Std.LawfulEqCmp.eq_of_compare (Std.OrientedCmp.isLE_antisymm hab hba)
  · exact (List.mergeSort_perm keys _).trans (h.trans (List.mergeSort_perm keys' _).symm)

end RankKey

theorem mergeSort_replace {α : Type} {le : α → α → Bool} {a b : α} (hleft : ∀ x, le a x = le b x)
    (hright : ∀ x, le x a = le x b) (before after : List α) :
    ∃ first last, (before ++ a :: after).mergeSort le = first ++ a :: last ∧
      (before ++ b :: after).mergeSort le = first ++ b :: last := by
  -- both lists are sorted at once, each element beside the one in its place in the other list
  let twice : α → α × α := fun x => (x, x)
  let pairs := before.map twice ++ (a, b) :: after.map twice
  let sorted := pairs.mergeSort fun p q => le p.1 q.1
  have halike : ∀ p ∈ pairs, (∀ x, le p.1 x = le p.2 x) ∧ ∀ x, le x p.1 = le x p.2 := by
    refine List.forall_mem_append.2 ⟨?_, List.forall_mem_cons.2 ⟨⟨hleft, hright⟩, ?_⟩⟩
    · exact List.forall_mem_map.2 fun _ _ => ⟨fun _ => rfl, fun _ => rfl⟩
    · exact List.forall_mem_map.2 fun _ _ => ⟨fun _ => rfl, fun _ => rfl⟩
  have hfst : sorted.map Prod.fst = (before ++ a :: after).mergeSort le := by
    have hmap : pairs.map Prod.fst = before ++ a :: after := by
      simp [pairs, twice, Function.comp_def]
    rw [← hmap]
    exact List.map_mergeSort fun _ _ _ _ => rfl
  have hsnd : sorted.map Prod.snd = (before ++ b :: after).mergeSort le := by
    have hmap : pairs.map Prod.snd = before ++ b :: after := by
      simp [pairs, twice, Function.comp_def]
    rw [← hmap]
    exact List.map_mergeSort fun p hp q hq =>
      ((halike p hp).1 q.1).trans ((halike q hq).2 p.2)
  obtain ⟨first, last, hsorted⟩ : ∃ first last, sorted = first ++ (a, b) :: last :=
    List.append_of_mem (List.mem_mergeSort.2 (by simp [pairs]))
  have hsame : ∀ p ∈ first ++ last, p.1 = p.2 := by
    have hall : (first ++ (a, b) :: last).Perm pairs := hsorted ▸ List.mergeSort_perm pairs _
    have hperm := (List.perm_middle.symm.trans (hall.trans List.perm_middle)).cons_inv
    intro p hp
    have hp := hperm.mem_iff.1 hp
    rw [← List.map_append] at hp
    obtain ⟨x, -, rfl⟩ := List.mem_map.1 hp
    rfl
  rw [List.forall_mem_append] at hsame
  refine ⟨first.map Prod.fst, last.map Prod.fst, ?_, ?_⟩
  · rw [← hfst, hsorted, List.map_append, List.map_cons]
  · rw [← hsnd, hsorted, List.map_append, List.map_cons, List.map_congr_left hsame.1,
      List.map_congr_left hsame.2]

/-- The class counts as much as is said of its name. -/
def ClassTy.Weighs (weight : String → Nat) (c : ClassTy) : Prop :=
  c.form.worth = weight c.name

namespace Ty

/-- Of a union, all members that are classes count as much as is said of their names. -/
def MembersWeigh (weight : String → Nat) : Ty → Prop
  | .union members => ∀ m ∈ members, m.IfClass (ClassTy.Weighs weight)
  | _ => True

instance (weight : String → Nat) : DecidablePred (ClassTy.Weighs weight) := fun c =>
  inferInstanceAs (Decidable (c.form.worth = weight c.name))

instance (weight : String → Nat) : DecidablePred (MembersWeigh weight)
  | .union members =>
      inferInstanceAs (Decidable (∀ m ∈ members, m.IfClass (ClassTy.Weighs weight)))
  | .unknown | .nil | .void | .primitive _ | .ofClass _ | .array _ | .function _ | .tuple _
  | .generic _ _ | .param _ _ => isTrue trivial

/-- The order of types looks at the worth of the type and of the members of the unions in it. There,
a class counts as much as is said of its name, however it came by that name. -/
structure RankedBy (weight : String → Nat) (t : Ty) : Prop where
  top : t.IfClass (ClassTy.Weighs weight)
  inside : t.Everywhere (MembersWeigh weight)

variable {weight : String → Nat} {a b : Ty}

theorem worth_eq_of_beq (h : a == b) (ha : a.IfClass (ClassTy.Weighs weight))
    (hb : b.IfClass (ClassTy.Weighs weight)) : a.worth = b.worth := by
  have hkind := kind_eq_of_beq h
  cases a with
  | ofClass c =>
      obtain ⟨d, rfl, hname⟩ := ofClass_beq_iff.1 h
      exact ha.trans ((congrArg weight hname).trans hb.symm)
  | _ => cases b <;> first | rfl | cases hkind

theorem rankKey_eq_of_beq (h : a == b) (ha : a.IfClass (ClassTy.Weighs weight))
    (hb : b.IfClass (ClassTy.Weighs weight)) (hname : a.orderingName = b.orderingName) :
    a.rankKey = b.rankKey := by
  rw [rankKey, rankKey, worth_eq_of_beq h ha hb, hname, kind_eq_of_beq h]

theorem map_eq_of_forall₂ {β : Type} {f : Ty → β} {as bs : List Ty}
    (h : List.Forall₂ (fun a b => a == b) as bs)
    (heq : ∀ a ∈ as, ∀ b ∈ bs, a == b → f a = f b) : as.map f = bs.map f := by
  rw [← List.forall₂_eq_eq_eq, List.forall₂_map_left_iff, List.forall₂_map_right_iff]
  exact forall₂_imp_of_mem h heq

theorem orderingName_eq_of_beq (ha : a.WellFormed) (hb : b.WellFormed) (h : a == b)
    (hinside : a.Everywhere (MembersWeigh weight))
    (hinside' : b.Everywhere (MembersWeigh weight)) : a.orderingName = b.orderingName := by
  induction a generalizing b with
  | unknown | nil | void =>
      obtain rfl := (beq_iff_eq_of_isInvalid rfl).1 h
      rfl
  | primitive p =>
      obtain rfl := primitive_beq_iff.1 h
      rfl
  | ofClass c =>
      obtain ⟨d, rfl, hname⟩ := ofClass_beq_iff.1 h
      exact hname
  | param name bound ih =>
      obtain ⟨bound', rfl, -⟩ := param_beq_iff.1 h
      rfl
  | array element ih =>
      obtain ⟨element', rfl, helement⟩ := array_beq_iff.1 h
      rw [everywhere_array_iff] at hinside hinside'
      have hname : element.orderingName = element'.orderingName :=
        ih ha hb helement hinside.2 hinside'.2
      rw [orderingName, orderingName, hname]
  | function s ihParams ihReturns ihVarargs =>
      obtain ⟨u, rfl, hparams, hreturns, hvarargs, -⟩ := function_beq_iff.1 h
      obtain ⟨hs, hsReturns, hsVarargs⟩ := wellFormed_function_iff.1 ha
      obtain ⟨hu, huReturns, huVarargs⟩ := wellFormed_function_iff.1 hb
      obtain ⟨-, hin, hinReturns, hinVarargs⟩ := everywhere_function_iff.1 hinside
      obtain ⟨-, hin', hinReturns', hinVarargs'⟩ := everywhere_function_iff.1 hinside'
      have hparamNames := map_eq_of_forall₂ hparams (List.forall_mem_map.2 fun p hp =>
        List.forall_mem_map.2 fun q hq hpq =>
          ihParams p hp (hs p hp) (hu q hq) hpq (hin p hp) (hin' q hq))
      have hvarargNames := map_eq_of_forall₂ hvarargs fun v hv w hw hvw =>
        have hv := Option.mem_toList.1 hv
        have hw := Option.mem_toList.1 hw
        ihVarargs v hv (hsVarargs v hv) (huVarargs w hw) hvw (hinVarargs v hv) (hinVarargs' w hw)
      rw [orderingName_function, orderingName_function, hparamNames, hvarargNames,
        ihReturns hsReturns huReturns hreturns hinReturns hinReturns', kind_eq_of_beq hreturns]
  | union as ih =>
      obtain ⟨bs, rfl, -⟩ := union_beq_iff.1 h
      obtain ⟨taken, hperm, hpairs⟩ := exists_perm_of_union_beq ha hb h
      have has := (wellFormedList_iff as).1 ha.2.2.2
      have hbs := (wellFormedList_iff bs).1 hb.2.2.2
      rw [everywhere_union_iff] at hinside hinside'
      have hkeys : as.map rankKey = taken.map rankKey := by
        refine map_eq_of_forall₂ hpairs fun a ha b hb hab => ?_
        have hb := hperm.mem_iff.2 hb
        exact rankKey_eq_of_beq hab (hinside.1 a ha) (hinside'.1 b hb)
          (ih a ha (has a ha) (hbs b hb) hab (hinside.2 a ha) (hinside'.2 b hb))
      rw [orderingName, orderingName, rankKeys_eq_map, rankKeys_eq_map, hkeys,
        RankKey.sort_eq_of_perm (hperm.map rankKey)]
  | tuple as ih =>
      obtain ⟨bs, rfl, hab⟩ := tuple_beq_iff.1 h
      have has := (wellFormedList_iff as).1 ha.2
      have hbs := (wellFormedList_iff bs).1 hb.2
      rw [everywhere_tuple_iff] at hinside hinside'
      rw [orderingName, orderingName, orderingNames_eq_map, orderingNames_eq_map,
        map_eq_of_forall₂ hab fun a ha b hb hab => ih a ha (has a ha) (hbs b hb) hab
          (hinside.2 a ha) (hinside'.2 b hb)]
  | generic base args ihBase ihArgs =>
      obtain ⟨base', args', rfl, hbase, hab⟩ := generic_beq_iff.1 h
      have has := (wellFormedList_iff args).1 ha.2
      have hbs := (wellFormedList_iff args').1 hb.2
      rw [everywhere_generic_iff] at hinside hinside'
      rw [orderingName, orderingName, orderingNames_eq_map, orderingNames_eq_map,
        ihBase ha.1 hb.1 hbase hinside.2.1 hinside'.2.1,
        map_eq_of_forall₂ hab fun a ha b hb hab => ihArgs a ha (has a ha) (hbs b hb) hab
          (hinside.2.2 a ha) (hinside'.2.2 b hb)]

/-- A type that ranks like another one takes its place among any types. -/
theorem sort_replace (h : a.rankKey = b.rankKey) (before after : List Ty) :
    ∃ first last, sort (before ++ a :: after) = first ++ a :: last ∧
      sort (before ++ b :: after) = first ++ b :: last := by
  refine mergeSort_replace (fun t => ?_) (fun t => ?_) before after
  · rw [compareWorth, compareWorth, h]
  · rw [compareWorth, compareWorth, h]

theorem representative_pair (a b : Ty) :
    (union [a, b]).representative = if (a.compareWorth b).isLE then a else b := by
  have hsort : sort [a, b] = if (a.compareWorth b).isLE then [a, b] else [b, a] := by
    simp [sort, List.mergeSort, List.merge]
  rw [representative, members, hsort]
  split <;> rfl

/-- Equal types rank equally, where the order looks at no two classes of one name that count
differently. So a member of a union may be replaced by an equal one: the others keep their places
and it takes the place of the old one, what the members are ranked by is the same at each place, and
so, up to equality, is the member that stands for the union. -/
theorem equal_types_rank_alike (weight : String → Nat) (a b : Ty) (ha : a.WellFormed)
    (hb : b.WellFormed) (h : a == b) (hranked : a.RankedBy weight)
    (hranked' : b.RankedBy weight) :
    a.compareWorth b = .eq ∧
    ∀ before after : List Ty,
      (∃ first last, sort (before ++ a :: after) = first ++ a :: last ∧
        sort (before ++ b :: after) = first ++ b :: last) ∧
      (sort (before ++ a :: after)).map rankKey = (sort (before ++ b :: after)).map rankKey ∧
      (union (before ++ a :: after)).representative ==
        (union (before ++ b :: after)).representative := by
  have hname := orderingName_eq_of_beq ha hb h hranked.inside hranked'.inside
  have hkey : a.rankKey = b.rankKey := rankKey_eq_of_beq h hranked.top hranked'.top hname
  refine ⟨?_, fun before after => ?_⟩
  · rw [compareWorth, hkey]
    exact Std.ReflCmp.compare_self
  · obtain ⟨first, last, hold, hnew⟩ := sort_replace hkey before after
    refine ⟨⟨first, last, hold, hnew⟩, ?_, ?_⟩
    · rw [hold, hnew, List.map_append, List.map_append, List.map_cons, List.map_cons, hkey]
    · rw [representative, representative, members, members, hold, hnew]
      cases first with
      | nil => exact h
      | cons t first => exact t.beq_refl

theorem equal_types_rank_alike_reordered :
    let weight : String → Nat := fun name => if name = "G" then 30 else 80
    let global : Ty := .ofClass { form := .global "G" }
    let a : Ty := .array (.union [global, .function { params := [("x", .nil)], returns := .void }])
    let b : Ty := .array (.union [.function { params := [("y", .nil)], returns := .void }, global])
    (a.WellFormed ∧ b.WellFormed ∧ a == b ∧ a.RankedBy weight ∧ b.RankedBy weight) ∧
    a.compareWorth b = .eq ∧
    (union [global, a, named "A"]).representative ==
      (union [global, b, named "A"]).representative := by
  intro weight global a b
  have ha : a.WellFormed := by
    simp [a, global, WellFormed, WellFormedList, WellFormedParams, WellFormedOption, kind,
      isInvalid]
    rfl
  have hb : b.WellFormed := by
    simp [b, global, WellFormed, WellFormedList, WellFormedParams, WellFormedOption, kind,
      isInvalid]
    rfl
  have hranked : a.RankedBy weight := ⟨trivial, by decide⟩
  have hranked' : b.RankedBy weight := ⟨trivial, by decide⟩
  have h : a == b := by decide
  obtain ⟨hrank, hreplace⟩ := equal_types_rank_alike weight a b ha hb h hranked hranked'
  exact ⟨⟨ha, hb, h, hranked, hranked'⟩, hrank, (hreplace [global] [named "A"]).2.2⟩

/-- The declared class of a name and the global one are the same type, yet the one ranks above
strings and the other below. -/
theorem global_class_ranks_apart :
    let declared : Ty := named "A"
    let global : Ty := .ofClass { form := .global "A" }
    (declared.WellFormed ∧ global.WellFormed ∧ declared == global) ∧
    declared.compareWorth global = .lt ∧
    (union [.primitive .string, declared]).representative = declared ∧
    (union [.primitive .string, global]).representative = .primitive .string := by
  intro declared global
  exact ⟨⟨trivial, trivial, by decide⟩, by decide, representative_pair _ _, representative_pair _ _⟩

end Ty

end LuaTypes
