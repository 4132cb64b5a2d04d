import LuaTypes.Proofs.IdleSubstitution
import LuaTypes.Proofs.MemberwiseOperations

namespace LuaTypes

namespace Ty

/-- Each answer of the rule is a well-formed type with a value. -/
def YieldsValues (rule : Ty → Option Ty) : Prop :=
  ∀ leaf, ∀ t ∈ rule leaf, t.WellFormed ∧ t.isInvalid = false

/-- The rule answers with well-formed types that have a value, leaves types without a value alone,
and does not tell equal leaves apart. -/
structure Replaces (rule : Ty → Option Ty) : Prop where
  yields : YieldsValues rule
  spares {leaf : Ty} : leaf.isInvalid = true → rule leaf = none
  respects {a b : Ty} : a == b → rule a = rule b

theorem YieldsValues.bindings {b : Bindings} (h : YieldsValues b.rule) : Replaces b.rule where
  yields := h
  spares := by
    intro leaf hleaf
    cases leaf with
    | param name bound => cases hleaf
    | _ => rfl
  respects := by
    intro x y hxy
    have hkind := kind_eq_of_beq hxy
    cases x with
    | param name bound =>
        obtain ⟨bound', rfl, -⟩ := param_beq_iff.1 hxy
        rfl
    | _ => cases y <;> first | rfl | cases hkind

theorem YieldsValues.selfRule {receiver : Ty} (h : YieldsValues (Ty.selfRule receiver)) :
    Replaces (Ty.selfRule receiver) where
  yields := h
  spares := by
    intro leaf hleaf
    cases leaf with
    | ofClass c => cases hleaf
    | _ => rfl
  respects := by
    intro x y hxy
    have hkind := kind_eq_of_beq hxy
    cases x with
    | ofClass c =>
        obtain ⟨d, rfl, hname⟩ := ofClass_beq_iff.1 hxy
        rw [Ty.selfRule, Ty.selfRule, hname]
    | _ => cases y <;> first | rfl | cases hkind

theorem YieldsValues.wellFormed {rule : Ty → Option Ty} (h : YieldsValues rule) :
    Compositional.Rule WellFormed rule :=
  fun leaf t ht => (h leaf t ht).1

section Laws

variable {rule : Ty → Option Ty} (hrule : Replaces rule) {a b t : Ty} {ts us : List Ty}

include hrule

theorem Replaces.wellFormed_substitute (h : t.WellFormed) : (t.substitute rule).WellFormed :=
  Ty.wellFormed_substitute hrule.yields.wellFormed h

theorem Replaces.wellFormed_map (h : ∀ t ∈ ts, t.WellFormed) :
    ∀ u ∈ ts.map (substitute rule), u.WellFormed :=
  List.forall_mem_map.2 fun t ht => hrule.wellFormed_substitute (h t ht)

theorem Replaces.substitute_of_isInvalid (h : t.isInvalid = true) : t.substitute rule = t := by
  cases t with
  | unknown | nil | void => rw [substitute, hrule.spares h, Option.getD_none]
  | _ => cases h

theorem Replaces.isInvalid_getD (h : t.isInvalid = false) :
    ((rule t).getD t).isInvalid = false := by
  cases hanswer : rule t with
  | none => exact h
  | some u => exact (hrule.yields t u hanswer).2

theorem Replaces.isInvalid_substitute_of_valid (h : t.WellFormed) (hvalid : t.isInvalid = false) :
    (t.substitute rule).isInvalid = false := by
  induction t with
  | unknown | nil | void => cases hvalid
  | primitive p => exact hrule.isInvalid_getD rfl
  | ofClass c => exact hrule.isInvalid_getD rfl
  | param name bound ih => exact hrule.isInvalid_getD rfl
  | array element ih => rfl
  | function signature ihParams ihReturns ihVarargs => rfl
  | generic base args ihBase ihArgs => rfl
  | tuple members ih =>
      have htwo : 2 ≤ (members.map (substitute rule)).length := by simpa using h.1
      rw [substitute, substituteList_eq_map, ofValues_of_two_le htwo]
      rfl
  | union members ih =>
      have hmembers := (wellFormedList_iff members).1 h.2.2.2
      obtain ⟨m, hm⟩ : ∃ m, m ∈ members := by
        refine List.exists_mem_of_ne_nil _ fun hnil => ?_
        have htwo := h.1
        rw [hnil] at htwo
        cases htwo
      rw [substitute, substituteList_eq_map]
      exact isInvalid_uniteAll_of_mem (hrule.wellFormed_map hmembers) (List.mem_map_of_mem hm)
        (ih m hm (hmembers m hm) (h.2.2.1 m hm).2)

theorem Replaces.isInvalid_substitute (h : t.WellFormed) :
    (t.substitute rule).isInvalid = t.isInvalid := by
  cases hinvalid : t.isInvalid with
  | true => rw [hrule.substitute_of_isInvalid hinvalid, hinvalid]
  | false => exact hrule.isInvalid_substitute_of_valid h hinvalid

theorem Replaces.getD_beq (h : a == b) : (rule a).getD a == (rule b).getD b := by
  rw [hrule.respects h]
  cases rule b with
  | none => exact h
  | some u => exact u.beq_refl

theorem Replaces.sameSet_map (hts : ∀ t ∈ ts, t.WellFormed) (hus : ∀ u ∈ us, u.WellFormed)
    (hcongr : ∀ t ∈ ts, ∀ u ∈ us, t == u → t.substitute rule == u.substitute rule)
    (h : SameSet ts us) :
    SameSet ((ts.map (substitute rule)).flatMap keptMembers)
      ((us.map (substitute rule)).flatMap keptMembers) := by
  have hpair : ∀ t ∈ ts, ∀ u ∈ us, t == u →
      SameSet (t.substitute rule).keptMembers (u.substitute rule).keptMembers := by
    intro t ht u hu htu
    exact sameSet_of_beq (hrule.wellFormed_substitute (hts t ht))
      (hrule.wellFormed_substitute (hus u hu)) (hcongr t ht u hu htu)
  apply SameSet.flatMap
  · rw [List.forall_mem_map]
    intro u hu
    obtain ⟨t, ht, htu⟩ := h.1 u hu
    exact ⟨t.substitute rule, List.mem_map_of_mem ht, hpair t ht u hu htu⟩
  · rw [List.forall_mem_map]
    intro t ht
    obtain ⟨u, hu, hut⟩ := h.2 t ht
    have htu := beq_symm (hus u hu) (hts t ht) hut
    exact ⟨u.substitute rule, List.mem_map_of_mem hu, hpair t ht u hu htu⟩

theorem Replaces.substitute_congr (ha : a.WellFormed) (hb : b.WellFormed) (h : a == b) :
    a.substitute rule == b.substitute rule := by
  induction a generalizing b with
  | unknown | nil | void =>
      obtain rfl := (beq_iff_eq_of_isInvalid rfl).1 h
      exact beq_refl _
  | primitive p =>
      obtain rfl := primitive_beq_iff.1 h
      exact beq_refl _
  | ofClass c =>
      obtain ⟨d, rfl, -⟩ := ofClass_beq_iff.1 h
      exact hrule.getD_beq h
  | param name bound ih =>
      obtain ⟨bound', rfl, -⟩ := param_beq_iff.1 h
      exact hrule.getD_beq h
  | array element ih =>
      obtain ⟨element', rfl, helement⟩ := array_beq_iff.1 h
      exact array_beq_iff.2 ⟨_, rfl, ih ha hb helement⟩
  | function s ihParams ihReturns ihVarargs =>
      obtain ⟨u, rfl, hparams, hreturns, hvarargs, hgenerics⟩ := function_beq_iff.1 h
      obtain ⟨hs, hsReturns, hsVarargs⟩ := wellFormed_function_iff.1 ha
      obtain ⟨hu, huReturns, huVarargs⟩ := wellFormed_function_iff.1 hb
      refine function_beq_iff.2 ⟨_, rfl, ?_, ihReturns hsReturns huReturns hreturns, ?_,
        hgenerics⟩
      · rw [List.forall₂_map_left_iff, List.forall₂_map_right_iff] at hparams
        rw [substituteParams_eq_map, substituteParams_eq_map]
        simp only [List.map_map, List.forall₂_map_left_iff, List.forall₂_map_right_iff]
        exact forall₂_imp_of_mem hparams fun p hp q hq => ihParams p hp (hs p hp) (hu q hq)
      · rw [substituteOption_eq_map, substituteOption_eq_map, Option.toList_map, Option.toList_map,
          List.forall₂_map_left_iff, List.forall₂_map_right_iff]
        refine forall₂_imp_of_mem hvarargs fun v hv w hw => ?_
        rw [Option.mem_toList] at hv hw
        exact ihVarargs v hv (hsVarargs v hv) (huVarargs w hw)
  | union as ih =>
      obtain ⟨bs, rfl, -⟩ := union_beq_iff.1 h
      have has := (wellFormedList_iff as).1 ha.2.2.2
      have hbs := (wellFormedList_iff bs).1 hb.2.2.2
      have hset := sameSet_of_beq ha hb h
      rw [keptMembers_union ha, keptMembers_union hb] at hset
      obtain ⟨a, hmem⟩ : ∃ a, a ∈ as := List.exists_mem_of_length_pos (Nat.lt_of_succ_lt ha.1)
      have hvalid := hrule.isInvalid_substitute_of_valid (has a hmem) (ha.2.2.1 a hmem).2
      rw [substitute, substitute, substituteList_eq_map, substituteList_eq_map]
      apply uniteAll_beq_of_sameSet (hrule.wellFormed_map has) (hrule.wellFormed_map hbs)
      · exact ⟨a.substitute rule, List.mem_map_of_mem hmem, hvalid⟩
      · exact hrule.sameSet_map has hbs (fun a ha b hb => ih a ha (has a ha) (hbs b hb)) hset
  | tuple as ih =>
      obtain ⟨bs, rfl, hab⟩ := tuple_beq_iff.1 h
      have has := (wellFormedList_iff as).1 ha.2
      have hbs := (wellFormedList_iff bs).1 hb.2
      have htwo : 2 ≤ (as.map (substitute rule)).length := by simpa using ha.1
      have htwo' : 2 ≤ (bs.map (substitute rule)).length := by simpa using hb.1
      rw [substitute, substitute, substituteList_eq_map, substituteList_eq_map,
        ofValues_of_two_le htwo, ofValues_of_two_le htwo']
      refine tuple_beq_iff.2 ⟨_, rfl, ?_⟩
      rw [List.forall₂_map_left_iff, List.forall₂_map_right_iff]
      exact forall₂_imp_of_mem hab fun a ha b hb => ih a ha (has a ha) (hbs b hb)
  | generic base args ihBase ihArgs =>
      obtain ⟨base', args', rfl, hbase, hargs⟩ := generic_beq_iff.1 h
      have has := (wellFormedList_iff args).1 ha.2
      have hbs := (wellFormedList_iff args').1 hb.2
      refine generic_beq_iff.2 ⟨_, _, rfl, ihBase ha.1 hb.1 hbase, ?_⟩
      rw [substituteList_eq_map, substituteList_eq_map, List.forall₂_map_left_iff,
        List.forall₂_map_right_iff]
      exact forall₂_imp_of_mem hargs fun a ha b hb => ihArgs a ha (has a ha) (hbs b hb)

theorem Replaces.memberwise : Memberwise (substitute rule) where
  wellFormed := hrule.wellFormed_substitute
  congr _ hm hn h := hrule.substitute_congr hm hn h
  spares h := (hrule.substitute_of_isInvalid h).symm ▸ h
  union_eq members := by rw [substitute, substituteList_eq_map]

/-- Members may be merged before the substitution or after it. -/
theorem Replaces.substitute_unite (ha : a.WellFormed) (hb : b.WellFormed) :
    (a.unite b).substitute rule == (a.substitute rule).unite (b.substitute rule) := by
  cases hnone : a.isInvalid && b.isInvalid with
  | true =>
      have hleft : a.isInvalid = true := (Bool.and_eq_true_iff.1 hnone).1
      rw [unite_of_isInvalid hleft, hrule.substitute_of_isInvalid hleft, unite_of_isInvalid hleft]
      exact beq_refl _
  | false =>
      apply hrule.memberwise.unite_beq ha hb
      rw [hrule.isInvalid_substitute ha, hrule.isInvalid_substitute hb]
      exact Bool.and_eq_false_iff.1 hnone

theorem Replaces.substitute_uniteAll (h : ∀ t ∈ ts, t.WellFormed) :
    (uniteAll ts).substitute rule == uniteAll (ts.map (substitute rule)) := by
  suffices ∀ a b : Ty, a.WellFormed → b.WellFormed → a.substitute rule == b →
      (ts.foldl unite a).substitute rule == (ts.map (substitute rule)).foldl unite b by
    apply this .unknown .unknown trivial trivial
    rw [hrule.substitute_of_isInvalid rfl]
    exact beq_refl _
  induction ts with
  | nil => exact fun a b _ _ hab => hab
  | cons t ts ih =>
      intro a b ha hb hab
      obtain ⟨ht, hts⟩ := List.forall_mem_cons.1 h
      have ha' := hrule.wellFormed_substitute ha
      have ht' := hrule.wellFormed_substitute ht
      apply ih hts (a.unite t) (b.unite (t.substitute rule)) (wellFormed_unite ha ht)
        (wellFormed_unite hb ht')
      exact beq_trans (hrule.substitute_unite ha ht)
        (unite_congr ha' ht' hb ht' hab (beq_refl _))

end Laws

/-- Substituting for generic parameters or for the receiver keeps equal types equal, and the union
of two types becomes the union of what they become. -/
theorem substitution_is_union_homomorphism (rule : Ty → Option Ty) (a b : Ty)
    (hsource : (∃ bindings : Bindings, rule = bindings.rule) ∨ ∃ receiver, rule = selfRule receiver)
    (hrule : YieldsValues rule) (ha : a.WellFormed) (hb : b.WellFormed) :
    (a == b → a.substitute rule == b.substitute rule) ∧
      (a.unite b).substitute rule == (a.substitute rule).unite (b.substitute rule) := by
  have hreplaces : Replaces rule := by
    rcases hsource with ⟨bindings, rfl⟩ | ⟨receiver, rfl⟩
    · exact hrule.bindings
    · exact hrule.selfRule
  exact ⟨hreplaces.substitute_congr ha hb, hreplaces.substitute_unite ha hb⟩

theorem substitution_is_union_homomorphism_merging :
    let bindings : Bindings := { entries := [("T", .union [.primitive .string, named "A"])] }
    let a : Ty := .union [.param "T" none, .array (.param "T" none)]
    let b : Ty := .union [.array (.param "T" none), .param "T" none]
    (YieldsValues bindings.rule ∧ a.WellFormed ∧ b.WellFormed ∧ a == b) ∧
      a.substitute bindings.rule == b.substitute bindings.rule ∧
      ((a.unite (named "A")).substitute bindings.rule).members.length = 3 ∧
      (a.unite (named "A")).substitute bindings.rule ==
        (a.substitute bindings.rule).unite ((named "A").substitute bindings.rule) := by
  intro bindings a b
  have hyields : YieldsValues bindings.rule := by
    refine Compositional.rule_bindings (List.forall_mem_singleton.2 ⟨?_, rfl⟩)
    simp [WellFormed, WellFormedList, named, kind, isInvalid]
    rfl
  have ha : a.WellFormed := by
    simp [a, WellFormed, WellFormedList, WellFormedOption, kind, isInvalid]
    rfl
  have hb : b.WellFormed := by
    simp [b, WellFormed, WellFormedList, WellFormedOption, kind, isInvalid]
    rfl
  have hsame : a == b := by decide
  have hcongr := substitution_is_union_homomorphism bindings.rule a b (.inl ⟨bindings, rfl⟩) hyields
    ha hb
  have hmerge := substitution_is_union_homomorphism bindings.rule a (named "A")
    (.inl ⟨bindings, rfl⟩) hyields ha trivial
  exact ⟨⟨hyields, ha, hb, hsame⟩, hcongr.1 hsame, by decide, hmerge.2⟩

end Ty

namespace Bindings

/-- One pass for two: what the first bindings put in is replaced by the second, and so are the
parameters that only the second bind. -/
def andThen (s t : Bindings) : Bindings :=
  { entries := s.entries.map (fun e => (e.1, e.2.substitute t.rule)) ++ t.entries }

theorem get?_andThen (s t : Bindings) (name : String) :
    (s.andThen t).get? name = ((s.get? name).map (Ty.substitute t.rule) <|> t.get? name) := by
  obtain ⟨entries⟩ := s
  induction entries with
  | nil => rfl
  | cons e entries ih =>
      obtain ⟨bound, v⟩ := e
      simp only [get?, andThen, List.map_cons, List.cons_append, List.lookup_cons] at ih ⊢
      cases name == bound with
      | true => rfl
      | false => exact ih

end Bindings

namespace Ty

/-- Each parameter is bound to what two other bindings make of it one after the other. -/
def Composes (s t u : Bindings) : Prop :=
  ∀ name, u.get? name = ((s.get? name).map (substitute t.rule) <|> t.get? name)

section Composition

variable {s t u : Bindings} (hs : YieldsValues s.rule) (ht : YieldsValues t.rule)
  (hu : Composes s t u) {x : Ty}

include hs ht hu

theorem Composes.yieldsValues : YieldsValues u.rule := by
  intro leaf v hv
  cases leaf with
  | param name bound =>
      change u.get? name = some v at hv
      rw [hu name] at hv
      cases hfirst : s.get? name with
      | none =>
          rw [hfirst] at hv
          exact ht (.param name bound) v hv
      | some w =>
          obtain ⟨hwf, hvalid⟩ := hs (.param name bound) w hfirst
          rw [hfirst] at hv
          obtain rfl := Option.some.inj hv
          exact ⟨ht.bindings.wellFormed_substitute hwf,
            ht.bindings.isInvalid_substitute_of_valid hwf hvalid⟩
  | _ => cases hv

theorem substitute_substitute (h : x.WellFormed) :
    (x.substitute s.rule).substitute t.rule == x.substitute u.rule := by
  induction x with
  | unknown | nil | void | primitive _ | ofClass _ => exact beq_refl _
  | param name bound ih =>
      change ((s.get? name).getD (.param name bound)).substitute t.rule ==
        (u.get? name).getD (.param name bound)
      rw [hu name]
      cases s.get? name with
      | none => exact beq_refl _
      | some v => exact beq_refl _
  | array element ih => exact array_beq_iff.2 ⟨_, rfl, ih h⟩
  | function signature ihParams ihReturns ihVarargs =>
      obtain ⟨hparams, hreturns, hvarargs⟩ := wellFormed_function_iff.1 h
      refine function_beq_iff.2 ⟨_, rfl, ?_, ihReturns hreturns, ?_, rfl⟩
      · simp only [substituteParams_eq_map, List.map_map, List.forall₂_map_left_iff,
          List.forall₂_map_right_iff, List.forall₂_same]
        exact fun p hp => ihParams p hp (hparams p hp)
      · simp only [substituteOption_eq_map, Option.toList_map, List.forall₂_map_left_iff,
          List.forall₂_map_right_iff, List.forall₂_same, Option.mem_toList]
        exact fun v hv => ihVarargs v hv (hvarargs v hv)
  | union members ih =>
      have hmembers := (wellFormedList_iff members).1 h.2.2.2
      have hfirst := hs.bindings.wellFormed_map hmembers
      have hboth := ht.bindings.wellFormed_map hfirst
      have hsingle := (hu.yieldsValues hs ht).bindings.wellFormed_map hmembers
      simp only [substitute, substituteList_eq_map]
      apply beq_trans (ht.bindings.substitute_uniteAll hfirst)
      apply uniteAll_congr _ hboth hsingle
      simp only [List.forall₂_map_left_iff, List.forall₂_map_right_iff, List.forall₂_same]
      exact fun m hm => ih m hm (hmembers m hm)
  | tuple members ih =>
      have hmembers := (wellFormedList_iff members).1 h.2
      have htwo : ∀ rule, 2 ≤ (members.map (substitute rule)).length := by simpa using h.1
      rw [substitute, substitute, substituteList_eq_map, substituteList_eq_map,
        ofValues_of_two_le (htwo s.rule), ofValues_of_two_le (htwo u.rule), substitute,
        substituteList_eq_map, ofValues_of_two_le (by simpa using h.1)]
      refine tuple_beq_iff.2 ⟨_, rfl, ?_⟩
      simp only [List.forall₂_map_left_iff, List.forall₂_map_right_iff, List.forall₂_same]
      exact fun m hm => ih m hm (hmembers m hm)
  | generic base args ihBase ihArgs =>
      have hargs := (wellFormedList_iff args).1 h.2
      refine generic_beq_iff.2 ⟨_, _, rfl, ihBase h.1, ?_⟩
      simp only [substituteList_eq_map, List.forall₂_map_left_iff, List.forall₂_map_right_iff,
        List.forall₂_same]
      exact fun a ha => ihArgs a ha (hargs a ha)

end Composition

/-- Substituting by one set of bindings and then by another is substituting once, by the first ones
with the second substituted in them and by those of the second whose names the first do not bind. A
substitution without an answer for any leaf gives the very same type back. -/
theorem substitutions_compose (x : Ty) (h : x.WellFormed) :
    (∀ s t u : Bindings, YieldsValues s.rule → YieldsValues t.rule → Composes s t u →
      (x.substitute s.rule).substitute t.rule == x.substitute u.rule) ∧
    (∀ s t : Bindings, Composes s t (s.andThen t)) ∧
    ∀ rule : Ty → Option Ty, x.Untouched rule → x.substitute rule = x :=
  ⟨fun _ _ _ hs ht hu => substitute_substitute hs ht hu h, Bindings.get?_andThen,
    fun _ => substitute_of_untouched h⟩

theorem substitutions_compose_mentioning :
    let s : Bindings := { entries := [("T", .array (.param "T" none))] }
    let t : Bindings := { entries := [("T", .union [named "A", named "B"])] }
    let x : Ty := .union [.param "T" none, .array (named "A")]
    (x.WellFormed ∧ YieldsValues s.rule ∧ YieldsValues t.rule ∧ Composes s t (s.andThen t) ∧
      x.Untouched (selfRule (named "A"))) ∧
    (x.substitute s.rule).substitute t.rule == x.substitute (s.andThen t).rule ∧
    x.substitute (s.andThen t).rule ==
      .union [.array (.union [named "A", named "B"]), .array (named "A")] ∧
    x.substitute (selfRule (named "A")) = x := by
  intro s t x
  have hx : x.WellFormed := by
    simp [x, WellFormed, WellFormedList, WellFormedOption, named, kind, isInvalid]
    rfl
  have hs : YieldsValues s.rule :=
    Compositional.rule_bindings (List.forall_mem_singleton.2 ⟨trivial, rfl⟩)
  have ht : YieldsValues t.rule := by
    refine Compositional.rule_bindings (List.forall_mem_singleton.2 ⟨?_, rfl⟩)
    simp [WellFormed, WellFormedList, named, kind, isInvalid]
    rfl
  have huntouched : x.Untouched (selfRule (named "A")) := by
    simp [x, Untouched, leaves, leavesOfList, selfRule, named, selfName, ClassTy.named,
      ClassTy.name, ClassForm.name]
  obtain ⟨hcompose, hcomposes, hidle⟩ := substitutions_compose x hx
  exact ⟨⟨hx, hs, ht, hcomposes s t, huntouched⟩, hcompose s t _ hs ht (hcomposes s t), by decide,
    hidle _ huntouched⟩

end Ty

end LuaTypes
