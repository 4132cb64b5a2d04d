import LuaTypes.Proofs.UnionAlgebra

namespace LuaTypes

/-- The two types are the same at every depth. -/
inductive Ty.Same : Ty → Ty → Prop
  | unknown : Same .unknown .unknown
  | nil : Same .nil .nil
  | void : Same .void .void
  | primitive {p : Primitive} : Same (.primitive p) (.primitive p)
  /-- Neither how a class came by its name nor its links count. -/
  | ofClass {c d : ClassTy} (name : c.name = d.name) : Same (.ofClass c) (.ofClass d)
  | array {a b : Ty} (element : Same a b) : Same (.array a) (.array b)
  /-- Neither the names of the parameters nor the colon count. -/
  | function {s u : Signature Ty}
      (params : List.Forall₂ Same (s.params.map Prod.snd) (u.params.map Prod.snd))
      (returns : Same s.returns u.returns)
      (varargs : List.Forall₂ Same s.varargs.toList u.varargs.toList)
      (generics : s.generics = u.generics) : Same (.function s) (.function u)
  /-- The order of the members does not count. -/
  | union {as bs ordered : List Ty} (order : bs.Perm ordered)
      (members : List.Forall₂ Same as ordered) : Same (.union as) (.union bs)
  | tuple {as bs : List Ty} (members : List.Forall₂ Same as bs) : Same (.tuple as) (.tuple bs)
  | generic {a b : Ty} {as bs : List Ty} (base : Same a b) (args : List.Forall₂ Same as bs) :
      Same (.generic a as) (.generic b bs)
  | param {name : String} {x y : Option Ty} (bound : List.Forall₂ Same x.toList y.toList) :
      Same (.param name x) (.param name y)

namespace Ty

variable {a b t u v : Ty} {as bs : List Ty}

theorem Same.beq (h : a.Same b) : a == b := by
  induction a generalizing b with
  | unknown => cases h with | unknown => rfl
  | nil => cases h with | nil => rfl
  | void => cases h with | void => rfl
  | primitive p => cases h with | primitive => exact primitive_beq_iff.2 rfl
  | ofClass c =>
      cases h with
      | ofClass name => exact ofClass_beq_iff.2 ⟨_, rfl, name⟩
  | array a ih =>
      cases h with
      | array element => exact array_beq_iff.2 ⟨_, rfl, ih element⟩
  | function s ihParams ihReturns ihVarargs =>
      cases h with
      | function params returns varargs generics =>
          refine function_beq_iff.2 ⟨_, rfl, ?_, ihReturns returns, ?_, generics⟩
          · refine forall₂_imp_of_mem params (List.forall_mem_map.2 fun p hp => ?_)
            exact fun _ _ => ihParams p hp
          · exact forall₂_imp_of_mem varargs fun v hv _ _ => ihVarargs v (Option.mem_toList.1 hv)
  | union as ih =>
      cases h with
      | union order members =>
          have hlength := members.length_eq.trans order.length_eq.symm
          refine union_beq_iff.2 ⟨_, rfl, hlength, fun a ha => ?_⟩
          obtain ⟨b, hb, hab⟩ := exists_left_of_forall₂ members.flip ha
          exact ⟨b, order.mem_iff.2 hb, ih a ha hab⟩
  | tuple as ih =>
      cases h with
      | tuple members =>
          exact tuple_beq_iff.2 ⟨_, rfl, forall₂_imp_of_mem members fun a ha _ _ => ih a ha⟩
  | generic base args ihBase ihArgs =>
      cases h with
      | generic hbase hargs =>
          exact generic_beq_iff.2 ⟨_, _, rfl, ihBase hbase,
            forall₂_imp_of_mem hargs fun a ha _ _ => ihArgs a ha⟩
  | param name bound ih =>
      cases h with
      | param hbound =>
          exact param_beq_iff.2 ⟨_, rfl, forall₂_imp_of_mem hbound fun b hb _ _ =>
            ih b (Option.mem_toList.1 hb)⟩

/-- Equality of unions looks from one side only. That the members can be paired up rests on no two
members of a well-formed union being the same. -/
theorem same_of_beq (ha : a.WellFormed) (hb : b.WellFormed) (h : a == b) : a.Same b := by
  induction a generalizing b with
  | unknown =>
      obtain rfl := (beq_iff_eq_of_isInvalid rfl).1 h
      exact .unknown
  | nil =>
      obtain rfl := (beq_iff_eq_of_isInvalid rfl).1 h
      exact .nil
  | void =>
      obtain rfl := (beq_iff_eq_of_isInvalid rfl).1 h
      exact .void
  | primitive p =>
      obtain rfl := primitive_beq_iff.1 h
      exact .primitive
  | ofClass c =>
      obtain ⟨d, rfl, hname⟩ := ofClass_beq_iff.1 h
      exact .ofClass hname
  | array a ih =>
      obtain ⟨b, rfl, hab⟩ := array_beq_iff.1 h
      exact .array (ih ha hb hab)
  | function s ihParams ihReturns ihVarargs =>
      obtain ⟨u, rfl, hparams, hreturns, hvarargs, hgenerics⟩ := function_beq_iff.1 h
      have hs := wellFormed_function_iff.1 ha
      have hu := wellFormed_function_iff.1 hb
      refine .function ?_ (ihReturns hs.2.1 hu.2.1 hreturns) ?_ hgenerics
      · refine forall₂_imp_of_mem hparams (List.forall_mem_map.2 fun p hp => ?_)
        exact List.forall_mem_map.2 fun q hq => ihParams p hp (hs.1 p hp) (hu.1 q hq)
      · refine forall₂_imp_of_mem hvarargs fun v hv w hw => ?_
        rw [Option.mem_toList] at hv hw
        exact ihVarargs v hv (hs.2.2 v hv) (hu.2.2 w hw)
  | union as ih =>
      obtain ⟨bs, rfl, -⟩ := union_beq_iff.1 h
      have has := (wellFormedList_iff as).1 ha.2.2.2
      have hbs := (wellFormedList_iff bs).1 hb.2.2.2
      obtain ⟨ordered, horder, hpairs⟩ := exists_perm_of_union_beq ha hb h
      refine .union horder (forall₂_imp_of_mem hpairs fun a ha b hb => ?_)
      exact ih a ha (has a ha) (hbs b (horder.mem_iff.2 hb))
  | tuple as ih =>
      obtain ⟨bs, rfl, hab⟩ := tuple_beq_iff.1 h
      have has := (wellFormedList_iff as).1 ha.2
      have hbs := (wellFormedList_iff bs).1 hb.2
      exact .tuple (forall₂_imp_of_mem hab fun a ha b hb => ih a ha (has a ha) (hbs b hb))
  | generic base args ihBase ihArgs =>
      obtain ⟨base', args', rfl, hbase, hargs⟩ := generic_beq_iff.1 h
      have has := (wellFormedList_iff args).1 ha.2
      have hbs := (wellFormedList_iff args').1 hb.2
      exact .generic (ihBase ha.1 hb.1 hbase)
        (forall₂_imp_of_mem hargs fun a ha b hb => ihArgs a ha (has a ha) (hbs b hb))
  | param name bound ih =>
      obtain ⟨bound', rfl, hbound⟩ := param_beq_iff.1 h
      have hbounds := (wellFormedOption_iff bound).1 ha
      have hbounds' := (wellFormedOption_iff bound').1 hb
      refine .param (forall₂_imp_of_mem hbound fun a ha b hb => ?_)
      rw [Option.mem_toList] at ha hb
      exact ih a ha (hbounds a ha) (hbounds' b hb)

theorem any_beq_congr (ht : t.WellFormed) (hu : u.WellFormed) (h : t == u) (members : List Ty) :
    members.any (· == t) = members.any (· == u) := by
  rw [Bool.eq_iff_iff, List.any_eq_true, List.any_eq_true]
  constructor
  · rintro ⟨m, hm, hmt⟩
    exact ⟨m, hm, beq_trans hmt h⟩
  · rintro ⟨m, hm, hmu⟩
    exact ⟨m, hm, beq_trans hmu (beq_symm ht hu h)⟩

theorem covers_iff_any_of_any :
    Covers as bs ↔ ∀ t, bs.any (· == t) = true → as.any (· == t) = true := by
  simp only [List.any_eq_true]
  constructor
  · rintro h t ⟨b, hb, hbt⟩
    obtain ⟨a, ha, hab⟩ := h b hb
    exact ⟨a, ha, beq_trans hab hbt⟩
  · exact fun h b hb => h b ⟨b, hb, b.beq_refl⟩

theorem sameSet_iff_any_eq : SameSet as bs ↔ ∀ t, as.any (· == t) = bs.any (· == t) := by
  constructor
  · intro h t
    rw [Bool.eq_iff_iff]
    exact ⟨covers_iff_any_of_any.1 h.2 t, covers_iff_any_of_any.1 h.1 t⟩
  · intro h
    exact ⟨covers_iff_any_of_any.2 fun t => (h t).trans,
      covers_iff_any_of_any.2 fun t => (h t).symm.trans⟩

theorem union_beq_iff_any_eq (ha : (union as).WellFormed) (hb : (union bs).WellFormed) :
    union as == union bs ↔ ∀ t, as.any (· == t) = bs.any (· == t) := by
  have hsets : SameSet as bs ↔ SameSet (union as).keptMembers (union bs).keptMembers := by
    rw [keptMembers_union ha, keptMembers_union hb]
  rw [← sameSet_iff_any_eq, hsets]
  exact ⟨sameSet_of_beq ha hb, beq_of_sameSet ha hb rfl rfl⟩

theorem unite_beq_left (ht : t.WellFormed) (hu : u.WellFormed) (h : t == u) : t.unite u == t :=
  beq_trans (unite_of_beq ht hu h) (beq_symm ht hu h)

theorem unite_unite_of_beq (hv : v.WellFormed) (ht : t.WellFormed) (hu : u.WellFormed)
    (h : t == u) : (v.unite t).unite u == v.unite t := by
  have hboth : v.unite (t.unite u) == v.unite t :=
    unite_congr hv (wellFormed_unite ht hu) hv ht v.beq_refl (unite_beq_left ht hu h)
  exact beq_trans (unite_assoc hv ht hu) hboth

theorem option_beq_refl (x : Option Ty) : x == x := by
  cases x with
  | none => rfl
  | some t => exact t.beq_refl

end Ty

namespace UnionBuilder

variable {t u : Ty}

theorem insert_insert_of_beq (b : UnionBuilder) (h : t == u) :
    (b.insert t).insert u = b.insert t := by
  obtain ⟨m, hm, hmt⟩ := (b.collects_insert t).covers t (by simp)
  have hfound : (b.insert t).members.any (fun m => m == u) = true :=
    List.any_eq_true.2 ⟨m, hm, Ty.beq_trans hmt h⟩
  rw [insert.eq_def (b.insert t), if_pos hfound]

theorem forall₂_insert (b : UnionBuilder) (ht : t.WellFormed) (hu : u.WellFormed) (h : t == u) :
    List.Forall₂ (fun m n => m == n) (b.insert t).members (b.insert u).members := by
  have hself : List.Forall₂ (fun m n => m == n) b.members b.members :=
    List.forall₂_same.2 fun m _ => m.beq_refl
  unfold insert
  rw [Ty.any_beq_congr ht hu h]
  split
  next => exact hself
  next => exact List.rel_append hself (.cons h .nil)

end UnionBuilder

namespace Bindings

variable {b : Bindings} {t u : Ty}

theorem WellFormed.get? (hb : b.WellFormed) {name : String} (h : b.get? name = some t) :
    t.WellFormed :=
  hb.rule (.param name none) t h

theorem get?_bind_beq (hb : b.WellFormed) (ht : t.WellFormed) (hu : u.WellFormed) (h : t == u)
    (name other : String) : (b.bind name t).get? other == (b.bind name u).get? other := by
  by_cases hother : other = name
  · subst hother
    rw [get?_bind_self, get?_bind_self]
    cases hbound : b.get? other with
    | none => exact h
    | some v =>
        have hv := hb.get? hbound
        exact Ty.unite_congr hv ht hv hu v.beq_refl h
  · rw [get?_bind_of_ne b hother, get?_bind_of_ne b hother]
    exact Ty.option_beq_refl _

theorem get?_bind_bind_beq (hb : b.WellFormed) (ht : t.WellFormed) (hu : u.WellFormed) (h : t == u)
    (name other : String) :
    ((b.bind name t).bind name u).get? other == (b.bind name t).get? other := by
  by_cases hother : other = name
  · subst hother
    rw [get?_bind_self, get?_bind_self]
    cases hbound : b.get? other with
    | none => exact Ty.unite_beq_left ht hu h
    | some v => exact Ty.unite_unite_of_beq (hb.get? hbound) ht hu h
  · rw [get?_bind_of_ne _ hother]
    exact Ty.option_beq_refl _

end Bindings

namespace Ty

/-- Among well-formed types equality is what the rules say, and it is an equivalence. So types that
are the same count as one member of a union, whichever is added first, and teach the same about a
parameter, once or twice; and unions are the same exactly if the same types are found among their
members. -/
theorem equality_is_equivalence :
    (∀ a b : Ty, a.WellFormed → b.WellFormed → (a == b ↔ a.Same b)) ∧
    (Equivalence fun a b : { t : Ty // t.WellFormed } => (a.1 == b.1) = true) ∧
    (∀ t u : Ty, t.WellFormed → u.WellFormed → t == u →
      (∀ b : UnionBuilder, (b.insert t).insert u = b.insert t ∧
        List.Forall₂ (fun m n => m == n) (b.insert t).members (b.insert u).members) ∧
      ∀ (b : Bindings) (name other : String), b.WellFormed →
        (b.bind name t).get? other == (b.bind name u).get? other ∧
        ((b.bind name t).bind name u).get? other == (b.bind name t).get? other) ∧
    ∀ as bs : List Ty, (union as).WellFormed → (union bs).WellFormed →
      (union as == union bs ↔ ∀ t, as.any (· == t) = bs.any (· == t)) := by
  refine ⟨fun a b ha hb => ⟨same_of_beq ha hb, Same.beq⟩, ⟨fun t => t.1.beq_refl, ?_, ?_⟩,
    fun t u ht hu h => ⟨fun b => ?_, fun b name other hb => ?_⟩,
    fun as bs ha hb => union_beq_iff_any_eq ha hb⟩
  · exact fun {a b} h => beq_symm a.2 b.2 h
  · exact fun h h' => beq_trans h h'
  · exact ⟨b.insert_insert_of_beq h, b.forall₂_insert ht hu h⟩
  · exact ⟨Bindings.get?_bind_beq hb ht hu h name other,
      Bindings.get?_bind_bind_beq hb ht hu h name other⟩

/-- A callback, and the same one with its parts in another order, other names and no colon. -/
theorem equality_is_equivalence_for_callback :
    let list : Ty := .array (.union [.primitive .number, .primitive .string])
    let list' : Ty := .array (.union [.primitive .string, .primitive .number])
    let items : List Ty := [named "A", list]
    let items' : List Ty := [list', .ofClass { form := .global "A" }]
    let callback : Ty :=
      .function { params := [("item", .union items)], returns := .void, colon := true }
    let callback' : Ty := .function { params := [("x", .union items')], returns := .void }
    (callback.WellFormed ∧ callback'.WellFormed) ∧ callback.Same callback' ∧
    callback == callback' ∧ callback' == callback ∧
    ((({} : UnionBuilder).insert callback).insert callback').members = [callback] ∧
    ((({} : Bindings).bind "T" callback).bind "T" callback').get? "T" == some callback ∧
    items.any (· == list') = items'.any (· == list') := by
  intro list list' items items' callback callback'
  have hlist : list.WellFormed := by
    simp [list, WellFormed, WellFormedList, kind, isInvalid]
    rfl
  have hlist' : list'.WellFormed := by
    simp [list', WellFormed, WellFormedList, kind, isInvalid]
    rfl
  have hitems : (union items).WellFormed :=
    ⟨Nat.le_refl 2, by decide, by decide, trivial, hlist, trivial⟩
  have hitems' : (union items').WellFormed :=
    ⟨Nat.le_refl 2, by decide, by decide, hlist', trivial, trivial⟩
  have hcallback : callback.WellFormed := ⟨⟨hitems, trivial⟩, trivial, trivial⟩
  have hcallback' : callback'.WellFormed := ⟨⟨hitems', trivial⟩, trivial, trivial⟩
  obtain ⟨hsame, hequivalence, husers, hunions⟩ := equality_is_equivalence
  have hsymm : ∀ a b : { t : Ty // t.WellFormed }, a.1 == b.1 → b.1 == a.1 :=
    fun _ _ h => hequivalence.symm h
  have hbeq : callback == callback' := by decide
  obtain ⟨hinsert, hbind⟩ := husers callback callback' hcallback hcallback' hbeq
  refine ⟨⟨hcallback, hcallback'⟩, (hsame _ _ hcallback hcallback').1 hbeq, hbeq,
    hsymm ⟨callback, hcallback⟩ ⟨callback', hcallback'⟩ hbeq, ?_, ?_, ?_⟩
  · rw [(hinsert {}).1]
    rfl
  · exact (hbind {} "T" "T" (fun e he => absurd he List.not_mem_nil)).2
  · exact (hunions items items' hitems hitems').1 (by decide) list'

/-- If a union could hold a member twice, equality would not be symmetric. -/
example : (union [named "A", named "A"] == union [named "A", named "B"]) = true ∧
    (union [named "A", named "B"] == union [named "A", named "A"]) = false := by
  decide

end Ty

end LuaTypes
