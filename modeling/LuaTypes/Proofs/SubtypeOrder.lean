import LuaTypes.Proofs.Inheritance
import LuaTypes.Proofs.SubtypeMonotonicity

namespace LuaTypes

namespace Ty

/-- Arguments are applied to other types than generics, parameters and nil. -/
def HasFirmBase : Ty → Prop
  | .generic base _ => base.kind ≠ .generic ∧ base.kind ≠ .param ∧ base.kind ≠ .nil
  | _ => True

instance : DecidablePred HasFirmBase
  | .generic base _ =>
      inferInstanceAs (Decidable (base.kind ≠ .generic ∧ base.kind ≠ .param ∧ base.kind ≠ .nil))
  | .unknown | .nil | .void | .primitive _ | .ofClass _ | .array _ | .function _ | .union _
  | .tuple _ | .param _ _ => .isTrue trivial

/-- The types among which subtyping is meant to be a preorder. -/
def Ordered (t : Ty) : Prop :=
  t.Everywhere fun u => u.IsDefinite ∧ u.HasFirmBase

instance (t : Ty) : Decidable t.Ordered :=
  inferInstanceAs (Decidable (t.Everywhere _))

variable {nilStrict : Bool} {climbs : ClassTy → String → Bool}
  {above : String → String → Bool} {a b c : Ty}

theorem Ordered.definite (h : a.Ordered) : a.IsDefinite :=
  h.self.1

theorem Ordered.array {element : Ty} (h : (array element).Ordered) : element.Ordered :=
  (everywhere_array_iff.1 h).2

theorem Ordered.tuple {members : List Ty} (h : (tuple members).Ordered) :
    ∀ m ∈ members, m.Ordered :=
  (everywhere_tuple_iff.1 h).2

theorem Ordered.firmBase {base : Ty} {args : List Ty} (h : (generic base args).Ordered) :
    base.kind ≠ .generic ∧ base.kind ≠ .param ∧ base.kind ≠ .nil :=
  h.self.2

theorem Ordered.base {base : Ty} {args : List Ty} (h : (generic base args).Ordered) :
    base.Ordered :=
  (everywhere_generic_iff.1 h).2.1

theorem Ordered.param {name : String} {bound : Option Ty} (h : (param name bound).Ordered) :
    ∀ b ∈ bound, b.Ordered :=
  (everywhere_param_iff.1 h).2

theorem Ordered.hasSoundUnions (h : a.Ordered) : a.HasSoundUnions :=
  h.imp fun _ hu hunion => absurd hunion hu.1.2

theorem kind_ne_generic_of_isSubtypeBy (ha : a.IsDefinite) (hb : b.IsDefinite)
    (hgeneric : a.kind ≠ .generic) (hparam : a.kind ≠ .param) (hnil : a.kind ≠ .nil)
    (hab : a.isSubtypeBy nilStrict climbs b) : b.kind ≠ .generic := by
  cases a with
  | unknown => exact absurd rfl ha.1
  | union members => exact absurd rfl ha.2
  | nil => exact absurd rfl hnil
  | generic base args => exact absurd rfl hgeneric
  | param name bound => exact absurd rfl hparam
  | void => simp [isSubtypeBy_void hb] at hab
  | primitive p =>
      obtain rfl := (isSubtypeBy_primitive_iff hb).1 hab
      nofun
  | ofClass x => rcases (isSubtypeBy_ofClass_iff hb).1 hab with rfl | ⟨y, rfl, -⟩ <;> nofun
  | array element =>
      rcases (isSubtypeBy_array_iff hb).1 hab with rfl | ⟨other, rfl, -⟩ <;> nofun
  | function s =>
      rcases (isSubtypeBy_function_iff hb).1 hab with rfl | hab
      · nofun
      · obtain ⟨u, rfl, -⟩ := function_beq_iff.1 hab
        nofun
  | tuple members =>
      obtain ⟨others, rfl, -⟩ := (isSubtypeBy_tuple_iff hb).1 hab
      nofun

theorem isSubtypeBy_trans (above : String → String → Bool)
    (habove : ∀ x y z, above x y → above y z → above x z)
    (ha : a.Ordered) (hb : b.Ordered) (hc : c.Ordered)
    (hab : a.isSubtypeBy nilStrict (fun x name => above x.name name) b)
    (hbc : b.isSubtypeBy nilStrict (fun x name => above x.name name) c) :
    a.isSubtypeBy nilStrict (fun x name => above x.name name) c := by
  induction a generalizing b c with
  | unknown => exact absurd rfl ha.definite.1
  | union members ih => exact absurd rfl ha.definite.2
  | nil =>
      rw [isSubtypeBy_nil hb.definite, Bool.or_eq_true, beq_nil_iff] at hab
      rcases hab with hlenient | rfl
      · rw [isSubtypeBy_nil hc.definite, hlenient, Bool.true_or]
      · exact hbc
  | void => simp [isSubtypeBy_void hb.definite] at hab
  | primitive p =>
      obtain rfl := (isSubtypeBy_primitive_iff hb.definite).1 hab
      exact hbc
  | ofClass x =>
      rw [isSubtypeBy_ofClass_iff hc.definite]
      rcases (isSubtypeBy_ofClass_iff hb.definite).1 hab with rfl | ⟨y, rfl, hxy⟩
      · exact .inl ((isSubtypeBy_primitive_iff hc.definite).1 hbc)
      · rcases (isSubtypeBy_ofClass_iff hc.definite).1 hbc with rfl | ⟨z, rfl, hyz⟩
        · exact .inl rfl
        · refine .inr ⟨z, rfl, ?_⟩
          rcases hxy with hxy | hxy
          · rwa [hxy]
          · rcases hyz with hyz | hyz
            · exact .inr (hyz ▸ hxy)
            · exact .inr (habove x.name y.name z.name hxy hyz)
  | array a ih =>
      rw [isSubtypeBy_array_iff hc.definite]
      rcases (isSubtypeBy_array_iff hb.definite).1 hab with rfl | ⟨b, rfl, hlower⟩
      · exact .inl ((isSubtypeBy_primitive_iff hc.definite).1 hbc)
      · rcases (isSubtypeBy_array_iff hc.definite).1 hbc with rfl | ⟨c, rfl, hupper⟩
        · exact .inl rfl
        · exact .inr ⟨c, rfl, ih ha.array hb.array hc.array hlower hupper⟩
  | function s ihParams ihReturns ihVarargs =>
      rcases (isSubtypeBy_function_iff hb.definite).1 hab with rfl | hsame
      · obtain rfl := (isSubtypeBy_primitive_iff hc.definite).1 hbc
        exact hab
      · exact isSubtypeBy_of_beq_left ha.hasSoundUnions hb.hasSoundUnions
          hc.hasSoundUnions hsame hbc
  | tuple as ih =>
      obtain ⟨bs, rfl, has⟩ := (isSubtypeBy_tuple_iff hb.definite).1 hab
      obtain ⟨cs, rfl, hbs⟩ := (isSubtypeBy_tuple_iff hc.definite).1 hbc
      refine (isSubtypeBy_tuple_iff hc.definite).2 ⟨cs, rfl, ?_⟩
      exact forall₂_comp_of_mem has hbs fun x hx y hy z hz =>
        ih x hx (ha.tuple x hx) (hb.tuple y hy) (hc.tuple z hz)
  | generic base args ihBase ihArgs =>
      by_cases hkindB : b.kind = .generic
      · obtain ⟨base', args', rfl⟩ := exists_of_kind_eq_generic hkindB
        rcases isSubtypeBy_generic_generic_iff.1 hab with hsame | ⟨hbase, hargs⟩
        · exact isSubtypeBy_of_beq_left ha.hasSoundUnions hb.hasSoundUnions
            hc.hasSoundUnions hsame hbc
        · by_cases hkindC : c.kind = .generic
          · obtain ⟨base'', args'', rfl⟩ := exists_of_kind_eq_generic hkindC
            rcases isSubtypeBy_generic_generic_iff.1 hbc with hsame | ⟨hbase', hargs'⟩
            · exact isSubtypeBy_of_beq_right ha.hasSoundUnions hb.hasSoundUnions
                hc.hasSoundUnions hab hsame
            · exact isSubtypeBy_generic_generic_iff.2 (.inr
                ⟨ihBase ha.base hb.base hc.base hbase hbase',
                  forall₂_comp_of_mem hargs hargs' fun _ _ _ _ _ _ => beq_trans⟩)
          · rw [isSubtypeBy_generic hc.definite hkindC] at hbc ⊢
            exact ihBase ha.base hb.base hc hbase hbc
      · rw [isSubtypeBy_generic hb.definite hkindB] at hab
        have hbase := ihBase ha.base hb hc hab hbc
        -- the base takes no arguments, so nothing above it does
        obtain ⟨hgeneric, hparam, hnil⟩ := ha.firmBase
        have hkindC := kind_ne_generic_of_isSubtypeBy ha.base.definite hc.definite hgeneric hparam
          hnil hbase
        rwa [isSubtypeBy_generic hc.definite hkindC]
  | param name bound ih =>
      rcases (isSubtypeBy_param_iff hb.definite).1 hab with hsame | ⟨x, hx, hab⟩
      · exact isSubtypeBy_of_beq_left ha.hasSoundUnions hb.hasSoundUnions
          hc.hasSoundUnions hsame hbc
      · exact (isSubtypeBy_param_iff hc.definite).2
          (.inr ⟨x, hx, ih x hx (ha.param x hx) hb hc hab hbc⟩)

theorem isSubtypeBy_refl (ha : a.Ordered) (hvoid : a.Everywhere (·.kind ≠ .void)) :
    a.isSubtypeBy nilStrict climbs a := by
  induction a with
  | unknown => exact absurd rfl ha.definite.1
  | union members ih => exact absurd rfl ha.definite.2
  | void => exact absurd rfl hvoid.self
  | nil =>
      rw [isSubtypeBy_nil ha.definite, beq_refl, Bool.or_true]
  | primitive p => exact (isSubtypeBy_primitive_iff ha.definite).2 rfl
  | ofClass x => exact (isSubtypeBy_ofClass_iff ha.definite).2 (.inr ⟨x, rfl, .inl rfl⟩)
  | array element ih =>
      refine (isSubtypeBy_array_iff ha.definite).2 (.inr ⟨element, rfl, ih ha.array ?_⟩)
      exact (everywhere_array_iff.1 hvoid).2
  | function s ihParams ihReturns ihVarargs =>
      exact (isSubtypeBy_function_iff ha.definite).2 (.inr (beq_refl _))
  | tuple members ih =>
      refine (isSubtypeBy_tuple_iff ha.definite).2 ⟨members, rfl, List.forall₂_same.2 ?_⟩
      exact fun m hm => ih m hm (ha.tuple m hm) ((everywhere_tuple_iff.1 hvoid).2 m hm)
  | generic base args ihBase ihArgs =>
      exact isSubtypeBy_generic_generic_iff.2 (.inl (beq_refl _))
  | param name bound ih => exact (isSubtypeBy_param_iff ha.definite).2 (.inl (beq_refl _))

/-- What the class values in a type remember is what the index declares. -/
def LinksAgree (ix : SymbolIndex) (t : LinkTable) (a : Ty) : Prop :=
  a.Everywhere fun u => ∀ c, u = ofClass c → ix.LinksAgree t c

theorem isSubtypeIn_iff_ancestry {ix : SymbolIndex} {t : LinkTable} (hindex : ix.dumb = false)
    (hlinks : LinksAgree ix t a) :
    a.isSubtypeIn ix t nilStrict c ↔
      a.isSubtypeBy nilStrict (fun x name => decide (name ∈ ix.ancestry x.name)) c := by
  have hagree : a.Everywhere fun u => ∀ x, u = ofClass x → ∀ name,
      name ∈ ix.ancestry x.name ↔ x.name = name ∨ ix.extends? t x name = true :=
    hlinks.imp fun u hu x heq name => SymbolIndex.mem_ancestry_iff hindex (hu x heq)
  constructor
  · refine isSubtypeBy_mono id (hagree.imp fun u hu x heq name hname => ?_)
    exact .inr (decide_eq_true ((hu x heq name).2 hname))
  · refine isSubtypeBy_mono id (hagree.imp fun u hu x heq name hname => ?_)
    rcases hname with rfl | hname
    · exact .inl rfl
    · exact (hu x heq name).1 (of_decide_eq_true hname)

/-- Subtyping is a preorder on the types in the order, without an index and with an available one
whose declarations the class values agree with. With an index the three answers may come at
different times, at which more class values have learned their links. -/
theorem subtyping_is_preorder (nilStrict : Bool) (a b c : Ty) (ha : a.Ordered) (hb : b.Ordered)
    (hc : c.Ordered) :
    ((a.isSubtype nilStrict b → b.isSubtype nilStrict c → a.isSubtype nilStrict c) ∧
      (a.Everywhere (·.kind ≠ .void) → a.isSubtype nilStrict a)) ∧
    ∀ (ix : SymbolIndex) (t t' t'' : LinkTable), ix.dumb = false → LinksAgree ix t a →
      LinksAgree ix t' b → LinksAgree ix t'' a →
      (a.isSubtypeIn ix t nilStrict b → b.isSubtypeIn ix t' nilStrict c →
        a.isSubtypeIn ix t'' nilStrict c) ∧
      (a.Everywhere (·.kind ≠ .void) → a.isSubtypeIn ix t nilStrict a) := by
  refine ⟨⟨fun hab hbc => ?_, isSubtypeBy_refl ha⟩,
    fun ix t t' t'' hindex hat hbt hat' => ⟨fun hab hbc => ?_, isSubtypeBy_refl ha⟩⟩
  · exact isSubtypeBy_trans (fun _ _ => false) (fun _ _ _ => nofun) ha hb hc hab hbc
  · rw [isSubtypeIn_iff_ancestry hindex hat] at hab
    rw [isSubtypeIn_iff_ancestry hindex hbt] at hbc
    rw [isSubtypeIn_iff_ancestry hindex hat']
    refine isSubtypeBy_trans (fun x y => decide (y ∈ ix.ancestry x)) ?_ ha hb hc hab hbc
    intro x y z hxy hyz
    exact decide_eq_true
      (SymbolIndex.ancestry_trans (of_decide_eq_true hxy) (of_decide_eq_true hyz))

theorem linksAgree_array_named (ix : SymbolIndex) (t : LinkTable) (name : String) :
    LinksAgree ix t (array (named name)) := by
  refine everywhere_array_iff.2 ⟨nofun, fun u hu c heq => ?_⟩
  obtain rfl := List.mem_singleton.1 hu
  cases heq
  exact ix.linksAgree_named t name

theorem subtyping_is_preorder_circular :
    (array (named "A")).Ordered ∧ (array (named "B")).Ordered ∧ (array (named "C")).Ordered ∧
      (array (named "A")).Everywhere (·.kind ≠ .void) ∧ SymbolIndex.circular.dumb = false ∧
      (array (named "A")).isSubtypeIn .circular {} true (array (named "A")) ∧
      (array (named "B")).isSubtypeIn .circular {} true (array (named "C")) ∧
      (array (named "A")).isSubtypeIn .circular {} true (array (named "C")) := by
  have ha : (array (named "A")).Ordered := by decide
  have hb : (array (named "B")).Ordered := by decide
  have hc : (array (named "C")).Ordered := by decide
  have hvoid : (array (named "A")).Everywhere (·.kind ≠ .void) := by decide
  have hancestry : SymbolIndex.circular.ancestry "A" = ["A", "B", "C"] :=
    (SymbolIndex.circular.superChain_ancestry "A").unique SymbolIndex.circular_superChain
  have hab : (array (named "A")).isSubtypeIn .circular {} true (array (named "B")) := by
    refine (isSubtypeBy_array_iff hb.definite).2 (.inr ⟨named "B", rfl, ?_⟩)
    refine (SymbolIndex.isSubtypeIn_named_iff rfl {} true).2 ?_
    rw [hancestry]
    decide
  have hbc : (array (named "B")).isSubtypeIn .circular {} true (array (named "C")) := by
    refine (isSubtypeBy_array_iff hc.definite).2 (.inr ⟨named "C", rfl, ?_⟩)
    refine (SymbolIndex.isSubtypeIn_named_iff rfl {} true).2 ?_
    exact SymbolIndex.superClass_mem_ancestry (SymbolIndex.self_mem_ancestry .circular "B") rfl
  have horder := (subtyping_is_preorder true _ _ _ ha hb hc).2 .circular {} {} {} rfl
    (linksAgree_array_named .circular {} "A") (linksAgree_array_named .circular {} "B")
    (linksAgree_array_named .circular {} "A")
  exact ⟨ha, hb, hc, hvoid, rfl, horder.2 hvoid, hbc, horder.1 hab hbc⟩

end Ty

end LuaTypes
