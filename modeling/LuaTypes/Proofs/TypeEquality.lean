import LuaTypes.Ty.WellFormed
import Mathlib.Data.List.Forall2

namespace LuaTypes

section Lists

variable {α : Type}

theorem forall₂_beq_iff [BEq α] {as bs : List α} :
    as == bs ↔ List.Forall₂ (fun a b => a == b) as bs := by
  induction as generalizing bs with
  | nil => cases bs <;> simp
  | cons a as ih =>
      cases bs with
      | nil => simp
      | cons b bs => simp [ih]

variable {R : α → α → Prop}

theorem forall₂_symm_of_mem {as bs : List α} (h : List.Forall₂ R as bs)
    (hsymm : ∀ a ∈ as, ∀ b ∈ bs, R a b → R b a) : List.Forall₂ R bs as := by
  induction h with
  | nil => exact .nil
  | cons hab _ ih =>
      refine .cons (hsymm _ List.mem_cons_self _ List.mem_cons_self hab) (ih fun a ha b hb => ?_)
      exact hsymm a (List.mem_cons_of_mem _ ha) b (List.mem_cons_of_mem _ hb)

theorem forall₂_comp_of_mem {S T : α → α → Prop} {as bs cs : List α} (h : List.Forall₂ R as bs)
    (h' : List.Forall₂ S bs cs)
    (hcomp : ∀ a ∈ as, ∀ b ∈ bs, ∀ c ∈ cs, R a b → S b c → T a c) : List.Forall₂ T as cs := by
  induction h generalizing cs with
  | nil =>
      cases h'
      exact .nil
  | cons hab _ ih =>
      obtain ⟨c, cs, hbc, hrest, rfl⟩ := List.forall₂_cons_left_iff.1 h'
      refine .cons (hcomp _ List.mem_cons_self _ List.mem_cons_self c List.mem_cons_self hab hbc)
        (ih hrest fun a ha b hb c hc => ?_)
      exact hcomp a (List.mem_cons_of_mem _ ha) b (List.mem_cons_of_mem _ hb) c
        (List.mem_cons_of_mem _ hc)

theorem forall₂_imp_of_mem {S : α → α → Prop} {as bs : List α} (h : List.Forall₂ R as bs)
    (himp : ∀ a ∈ as, ∀ b ∈ bs, R a b → S a b) : List.Forall₂ S as bs :=
  forall₂_comp_of_mem h (List.forall₂_same.2 fun _ _ => rfl) fun a ha b hb _ _ hab heq =>
    heq ▸ himp a ha b hb hab

theorem exists_left_of_forall₂ {β : Type} {S : α → β → Prop} {as : List α} {bs : List β}
    (h : List.Forall₂ S as bs) {b : β} (hb : b ∈ bs) : ∃ a ∈ as, S a b := by
  induction h with
  | nil => cases hb
  | cons hab _ ih =>
      rcases List.mem_cons.1 hb with rfl | hb
      · exact ⟨_, List.mem_cons_self, hab⟩
      · obtain ⟨a, ha, hab⟩ := ih hb
        exact ⟨a, List.mem_cons_of_mem _ ha, hab⟩

/-- Relatives that are not shared can be set beside the elements that have them. -/
theorem exists_perm_of_relatives {as bs : List α} (hdistinct : as.Pairwise fun a a' => ¬ R a a')
    (hrelated : ∀ a ∈ as, ∃ b ∈ bs, R a b)
    (hshared : ∀ a ∈ as, ∀ a' ∈ as, ∀ b ∈ bs, R a b → R a' b → R a a') :
    ∃ taken rest, bs.Perm (taken ++ rest) ∧ List.Forall₂ R as taken := by
  induction as generalizing bs with
  | nil => exact ⟨[], bs, .refl bs, .nil⟩
  | cons a as ih =>
      obtain ⟨hfirst, hdistinct⟩ := List.pairwise_cons.1 hdistinct
      obtain ⟨b, hb, hab⟩ := hrelated a List.mem_cons_self
      obtain ⟨before, after, rfl⟩ := List.append_of_mem hb
      have hsub : ∀ b' ∈ before ++ after, b' ∈ before ++ b :: after := by simp; tauto
      -- the relative of the first element is set aside: no other element has it
      have hothers : ∀ a' ∈ as, ∃ b' ∈ before ++ after, R a' b' := by
        intro a' ha'
        obtain ⟨b', hb', hab'⟩ := hrelated a' (List.mem_cons_of_mem a ha')
        by_cases heq : b' = b
        · subst heq
          exact absurd (hshared a List.mem_cons_self a' (List.mem_cons_of_mem a ha') b' hb' hab
            hab') (hfirst a' ha')
        · exact ⟨b', by simp at hb' ⊢; tauto, hab'⟩
      obtain ⟨taken, rest, hperm, hpairs⟩ := ih hdistinct hothers fun a₁ ha₁ a₂ ha₂ b' hb' =>
        hshared a₁ (List.mem_cons_of_mem a ha₁) a₂ (List.mem_cons_of_mem a ha₂) b' (hsub b' hb')
      exact ⟨b :: taken, rest, List.perm_middle.trans (hperm.cons b), .cons hab hpairs⟩

theorem length_le_of_relatives {as bs : List α} (hdistinct : as.Pairwise fun a a' => ¬ R a a')
    (hrelated : ∀ a ∈ as, ∃ b ∈ bs, R a b)
    (hshared : ∀ a ∈ as, ∀ a' ∈ as, ∀ b ∈ bs, R a b → R a' b → R a a') :
    as.length ≤ bs.length := by
  obtain ⟨taken, rest, hperm, hpairs⟩ := exists_perm_of_relatives hdistinct hrelated hshared
  rw [hperm.length_eq, hpairs.length_eq, List.length_append]
  exact Nat.le_add_right _ _

theorem exists_perm_of_length_le {as bs : List α} (hdistinct : as.Pairwise fun a a' => ¬ R a a')
    (hlength : bs.length ≤ as.length) (hrelated : ∀ a ∈ as, ∃ b ∈ bs, R a b)
    (hshared : ∀ a ∈ as, ∀ a' ∈ as, ∀ b ∈ bs, R a b → R a' b → R a a') :
    ∃ taken, bs.Perm taken ∧ List.Forall₂ R as taken := by
  obtain ⟨taken, rest, hperm, hpairs⟩ := exists_perm_of_relatives hdistinct hrelated hshared
  have hnone : rest = [] := by
    rw [hperm.length_eq, hpairs.length_eq, List.length_append] at hlength
    exact List.eq_nil_of_length_eq_zero (by omega)
  rw [hnone, List.append_nil] at hperm
  exact ⟨taken, hperm, hpairs⟩

end Lists

theorem forall₂_toList_beq_iff {α : Type} [BEq α] {a b : Option α} :
    a == b ↔ List.Forall₂ (fun a b => a == b) a.toList b.toList := by
  cases a <;> cases b <;> simp

namespace Ty

section Inversion

variable {a b t : Ty} {as : List Ty}

theorem kind_eq_of_beq (h : a == b) : a.kind = b.kind := by
  cases a <;> cases b <;> first | rfl | cases h

theorem isInvalid_eq_of_beq (h : a == b) : a.isInvalid = b.isInvalid := by
  have hkind := kind_eq_of_beq h
  cases a <;> cases b <;> first | rfl | cases hkind

theorem beq_iff_eq_of_isInvalid (h : a.isInvalid) : a == t ↔ t = a := by
  constructor
  · intro hbeq
    have hkind := kind_eq_of_beq hbeq
    cases a with
    | unknown | nil | void => cases t <;> first | rfl | cases hkind
    | _ => cases h
  · rintro rfl
    cases t with
    | unknown | nil | void => rfl
    | _ => cases h

theorem primitive_beq_iff {p : Primitive} : primitive p == t ↔ t = primitive p := by
  constructor
  · intro h
    cases t with
    | primitive q => rw [of_decide_eq_true h]
    | _ => cases h
  · rintro rfl
    exact decide_eq_true rfl

theorem ofClass_beq_iff {c : ClassTy} :
    ofClass c == t ↔ ∃ d, t = ofClass d ∧ c.name = d.name := by
  constructor
  · intro h
    cases t with
    | ofClass d => exact ⟨d, rfl, of_decide_eq_true h⟩
    | _ => cases h
  · rintro ⟨d, rfl, h⟩
    exact decide_eq_true h

theorem array_beq_iff : array a == t ↔ ∃ b, t = array b ∧ a == b := by
  constructor
  · intro h
    cases t with
    | array b => exact ⟨b, rfl, h⟩
    | _ => cases h
  · rintro ⟨b, rfl, h⟩
    exact h

theorem function_beq_iff {s : Signature Ty} :
    function s == t ↔ ∃ u, t = function u ∧
      List.Forall₂ (fun p q => p == q) (s.params.map Prod.snd) (u.params.map Prod.snd) ∧
      s.returns == u.returns ∧
      List.Forall₂ (fun v w => v == w) s.varargs.toList u.varargs.toList ∧
      s.generics = u.generics := by
  constructor
  · intro h
    cases t with
    | function u =>
        rw [function_beq] at h
        simp only [Bool.and_eq_true, forall₂_beq_iff, forall₂_toList_beq_iff, beq_iff_eq] at h
        exact ⟨u, rfl, h.1.1.1, h.1.1.2, h.1.2, h.2⟩
    | _ => cases h
  · rintro ⟨u, rfl, hparams, hreturns, hvarargs, hgenerics⟩
    rw [function_beq, forall₂_beq_iff.2 hparams, hreturns, forall₂_toList_beq_iff.2 hvarargs,
      hgenerics]
    exact beq_self_eq_true u.generics

theorem union_beq_iff :
    union as == t ↔
      ∃ bs, t = union bs ∧ as.length = bs.length ∧ ∀ a ∈ as, ∃ b ∈ bs, a == b := by
  constructor
  · intro h
    cases t with
    | union bs =>
        rw [union_beq] at h
        simp only [Bool.and_eq_true, beq_iff_eq, List.all_eq_true, List.any_eq_true] at h
        exact ⟨bs, rfl, h⟩
    | _ => cases h
  · rintro ⟨bs, rfl, h⟩
    rw [union_beq]
    simpa only [Bool.and_eq_true, beq_iff_eq, List.all_eq_true, List.any_eq_true] using h

theorem tuple_beq_iff :
    tuple as == t ↔ ∃ bs, t = tuple bs ∧ List.Forall₂ (fun a b => a == b) as bs := by
  constructor
  · intro h
    cases t with
    | tuple bs => exact ⟨bs, rfl, forall₂_beq_iff.1 (tuple_beq as bs ▸ h)⟩
    | _ => cases h
  · rintro ⟨bs, rfl, h⟩
    rw [tuple_beq]
    exact forall₂_beq_iff.2 h

theorem generic_beq_iff :
    generic a as == t ↔
      ∃ b bs, t = generic b bs ∧ a == b ∧ List.Forall₂ (fun a b => a == b) as bs := by
  constructor
  · intro h
    cases t with
    | generic b bs =>
        rw [generic_beq, Bool.and_eq_true, forall₂_beq_iff] at h
        exact ⟨b, bs, rfl, h⟩
    | _ => cases h
  · rintro ⟨b, bs, rfl, h⟩
    rwa [generic_beq, Bool.and_eq_true, forall₂_beq_iff]

theorem param_beq_iff {name : String} {bound : Option Ty} :
    param name bound == t ↔
      ∃ bound', t = param name bound' ∧
        List.Forall₂ (fun a b => a == b) bound.toList bound'.toList := by
  constructor
  · intro h
    cases t with
    | param name' bound' =>
        rw [param_beq, Bool.and_eq_true, beq_iff_eq, forall₂_toList_beq_iff] at h
        obtain ⟨rfl, h⟩ := h
        exact ⟨bound', rfl, h⟩
    | _ => cases h
  · rintro ⟨bound', rfl, h⟩
    rw [param_beq, forall₂_toList_beq_iff.2 h]
    simp

end Inversion

theorem beq_refl (t : Ty) : t == t := by
  induction t with
  | unknown => rfl
  | nil => rfl
  | void => rfl
  | primitive p => exact primitive_beq_iff.2 rfl
  | ofClass c => exact ofClass_beq_iff.2 ⟨c, rfl, rfl⟩
  | array element ih => exact array_beq_iff.2 ⟨element, rfl, ih⟩
  | function s ihParams ihReturns ihVarargs =>
      refine function_beq_iff.2 ⟨s, rfl, ?_, ihReturns, ?_, rfl⟩
      · rw [List.forall₂_same, List.forall_mem_map]
        exact ihParams
      · simpa [List.forall₂_same] using ihVarargs
  | union members ih =>
      exact union_beq_iff.2 ⟨members, rfl, rfl, fun m hm => ⟨m, hm, ih m hm⟩⟩
  | tuple members ih => exact tuple_beq_iff.2 ⟨members, rfl, List.forall₂_same.2 ih⟩
  | generic base args ihBase ihArgs =>
      exact generic_beq_iff.2 ⟨base, args, rfl, ihBase, List.forall₂_same.2 ihArgs⟩
  | param name bound ih =>
      refine param_beq_iff.2 ⟨bound, rfl, ?_⟩
      simpa [List.forall₂_same] using ih

theorem beq_trans {a b c : Ty} (h : a == b) (h' : b == c) : a == c := by
  induction a generalizing b c with
  | unknown =>
      obtain rfl := (beq_iff_eq_of_isInvalid rfl).1 h
      exact h'
  | nil =>
      obtain rfl := (beq_iff_eq_of_isInvalid rfl).1 h
      exact h'
  | void =>
      obtain rfl := (beq_iff_eq_of_isInvalid rfl).1 h
      exact h'
  | primitive p =>
      obtain rfl := primitive_beq_iff.1 h
      exact h'
  | ofClass x =>
      obtain ⟨y, rfl, hxy⟩ := ofClass_beq_iff.1 h
      obtain ⟨z, rfl, hyz⟩ := ofClass_beq_iff.1 h'
      exact ofClass_beq_iff.2 ⟨z, rfl, hxy.trans hyz⟩
  | array a ih =>
      obtain ⟨b, rfl, hab⟩ := array_beq_iff.1 h
      obtain ⟨c, rfl, hbc⟩ := array_beq_iff.1 h'
      exact array_beq_iff.2 ⟨c, rfl, ih hab hbc⟩
  | function s ihParams ihReturns ihVarargs =>
      obtain ⟨u, rfl, hparams, hreturns, hvarargs, hgenerics⟩ := function_beq_iff.1 h
      obtain ⟨w, rfl, hparams', hreturns', hvarargs', hgenerics'⟩ := function_beq_iff.1 h'
      refine function_beq_iff.2 ⟨w, rfl, ?_, ihReturns hreturns hreturns', ?_,
        hgenerics.trans hgenerics'⟩
      · refine forall₂_comp_of_mem hparams hparams' (List.forall_mem_map.2 ?_)
        exact fun p hp _ _ _ _ => ihParams p hp
      · exact forall₂_comp_of_mem hvarargs hvarargs' fun v hv _ _ _ _ =>
          ihVarargs v (Option.mem_toList.1 hv)
  | union as ih =>
      obtain ⟨bs, rfl, hlength, hwithin⟩ := union_beq_iff.1 h
      obtain ⟨cs, rfl, hlength', hwithin'⟩ := union_beq_iff.1 h'
      refine union_beq_iff.2 ⟨cs, rfl, hlength.trans hlength', fun a ha => ?_⟩
      obtain ⟨b, hb, hab⟩ := hwithin a ha
      obtain ⟨c, hc, hbc⟩ := hwithin' b hb
      exact ⟨c, hc, ih a ha hab hbc⟩
  | tuple as ih =>
      obtain ⟨bs, rfl, has⟩ := tuple_beq_iff.1 h
      obtain ⟨cs, rfl, hbs⟩ := tuple_beq_iff.1 h'
      exact tuple_beq_iff.2 ⟨cs, rfl, forall₂_comp_of_mem has hbs fun a ha _ _ _ _ => ih a ha⟩
  | generic base args ihBase ihArgs =>
      obtain ⟨base', args', rfl, hbase, hargs⟩ := generic_beq_iff.1 h
      obtain ⟨base'', args'', rfl, hbase', hargs'⟩ := generic_beq_iff.1 h'
      exact generic_beq_iff.2 ⟨base'', args'', rfl, ihBase hbase hbase',
        forall₂_comp_of_mem hargs hargs' fun a ha _ _ _ _ => ihArgs a ha⟩
  | param name bound ih =>
      obtain ⟨bound', rfl, hbound⟩ := param_beq_iff.1 h
      obtain ⟨bound'', rfl, hbound'⟩ := param_beq_iff.1 h'
      exact param_beq_iff.2 ⟨bound'', rfl, forall₂_comp_of_mem hbound hbound'
        fun b hb _ _ _ _ => ih b (Option.mem_toList.1 hb)⟩

theorem beq_symm {a b : Ty} (ha : a.WellFormed) (hb : b.WellFormed) (h : a == b) : b == a := by
  induction a generalizing b with
  | unknown =>
      obtain rfl := (beq_iff_eq_of_isInvalid rfl).1 h
      rfl
  | nil =>
      obtain rfl := (beq_iff_eq_of_isInvalid rfl).1 h
      rfl
  | void =>
      obtain rfl := (beq_iff_eq_of_isInvalid rfl).1 h
      rfl
  | primitive p =>
      obtain rfl := primitive_beq_iff.1 h
      exact h
  | ofClass x =>
      obtain ⟨y, rfl, hxy⟩ := ofClass_beq_iff.1 h
      exact ofClass_beq_iff.2 ⟨x, rfl, hxy.symm⟩
  | array a ih =>
      obtain ⟨b, rfl, hab⟩ := array_beq_iff.1 h
      exact array_beq_iff.2 ⟨a, rfl, ih ha hb hab⟩
  | function s ihParams ihReturns ihVarargs =>
      obtain ⟨u, rfl, hparams, hreturns, hvarargs, hgenerics⟩ := function_beq_iff.1 h
      have hs := wellFormed_function_iff.1 ha
      have hu := wellFormed_function_iff.1 hb
      refine function_beq_iff.2 ⟨s, rfl, ?_, ihReturns hs.2.1 hu.2.1 hreturns, ?_,
        hgenerics.symm⟩
      · refine forall₂_symm_of_mem hparams (List.forall_mem_map.2 fun p hp => ?_)
        exact List.forall_mem_map.2 fun q hq => ihParams p hp (hs.1 p hp) (hu.1 q hq)
      · refine forall₂_symm_of_mem hvarargs fun v hv w hw => ?_
        rw [Option.mem_toList] at hv hw
        exact ihVarargs v hv (hs.2.2 v hv) (hu.2.2 w hw)
  | union as ih =>
      obtain ⟨bs, rfl, hlength, hwithin⟩ := union_beq_iff.1 h
      have has := (wellFormedList_iff as).1 ha.2.2.2
      have hbs := (wellFormedList_iff bs).1 hb.2.2.2
      refine union_beq_iff.2 ⟨as, rfl, hlength.symm, fun b hb => ?_⟩
      have hdistinct : as.Pairwise fun a a' => ¬ (a == a') := by
        simpa only [Bool.not_eq_true] using ha.2.1
      have hshared : ∀ a ∈ as, ∀ a' ∈ as, ∀ b ∈ bs, a == b → a' == b → a == a' :=
        fun a _ a' ha' b hb hab ha'b => beq_trans hab (ih a' ha' (has a' ha') (hbs b hb) ha'b)
      obtain ⟨taken, hperm, hpairs⟩ := exists_perm_of_length_le hdistinct
        (Nat.le_of_eq hlength.symm) hwithin hshared
      obtain ⟨a, ha, hab⟩ := exists_left_of_forall₂ hpairs (hperm.mem_iff.1 hb)
      exact ⟨a, ha, ih a ha (has a ha) (hbs b hb) hab⟩
  | tuple as ih =>
      obtain ⟨bs, rfl, hab⟩ := tuple_beq_iff.1 h
      have has := (wellFormedList_iff as).1 ha.2
      have hbs := (wellFormedList_iff bs).1 hb.2
      exact tuple_beq_iff.2 ⟨as, rfl, forall₂_symm_of_mem hab fun a ha b hb =>
        ih a ha (has a ha) (hbs b hb)⟩
  | generic base args ihBase ihArgs =>
      obtain ⟨base', args', rfl, hbase, hargs⟩ := generic_beq_iff.1 h
      have has := (wellFormedList_iff args).1 ha.2
      have hbs := (wellFormedList_iff args').1 hb.2
      exact generic_beq_iff.2 ⟨base, args, rfl, ihBase ha.1 hb.1 hbase,
        forall₂_symm_of_mem hargs fun a ha b hb => ihArgs a ha (has a ha) (hbs b hb)⟩
  | param name bound ih =>
      obtain ⟨bound', rfl, hbound⟩ := param_beq_iff.1 h
      have hbounds := (wellFormedOption_iff bound).1 ha
      have hbounds' := (wellFormedOption_iff bound').1 hb
      refine param_beq_iff.2 ⟨bound, rfl, forall₂_symm_of_mem hbound fun a ha b hb => ?_⟩
      rw [Option.mem_toList] at ha hb
      exact ih a ha (hbounds a ha) (hbounds' b hb)

theorem exists_perm_of_union_beq {as bs : List Ty} (ha : (union as).WellFormed)
    (hb : (union bs).WellFormed) (h : union as == union bs) :
    ∃ taken, bs.Perm taken ∧ List.Forall₂ (fun a b => a == b) as taken := by
  obtain ⟨_, heq, hlength, hwithin⟩ := union_beq_iff.1 h
  cases heq
  have has := (wellFormedList_iff as).1 ha.2.2.2
  have hbs := (wellFormedList_iff bs).1 hb.2.2.2
  refine exists_perm_of_length_le ?_ (Nat.le_of_eq hlength.symm) hwithin ?_
  · simpa only [Bool.not_eq_true] using ha.2.1
  · intro a _ a' ha' b hb hab ha'b
    exact beq_trans hab (beq_symm (has a' ha') (hbs b hb) ha'b)

end Ty

end LuaTypes
