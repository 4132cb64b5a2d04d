import LuaTypes.Proofs.SubtypeCongruence

namespace LuaTypes

namespace Ty

variable {nilStrict nilStrict' : Bool} {climbs climbs' : ClassTy → String → Bool} {a c : Ty}

theorem isSubtypeBy_mono_of_definite (hkind : a.kind ≠ .union)
    (hdefinite : ∀ c, c.IsDefinite → a.isSubtypeBy nilStrict climbs c →
      a.isSubtypeBy nilStrict' climbs' c)
    (hac : a.isSubtypeBy nilStrict climbs c) : a.isSubtypeBy nilStrict' climbs' c := by
  induction c with
  | unknown => exact isSubtypeBy_unknown a
  | union members ih =>
      rw [isSubtypeBy_union_right_iff_of_kind_ne hkind] at hac ⊢
      obtain ⟨m, hm, ham⟩ := hac
      exact ⟨m, hm, ih m hm ham⟩
  | _ => exact hdefinite _ ⟨by simp [kind], by simp [kind]⟩ hac

/-- The check asks of the index only what is above the class values in the lower type. -/
theorem isSubtypeBy_mono (hstrict : nilStrict' → nilStrict)
    (hclimbs : a.Everywhere fun u => ∀ x, u = ofClass x → ∀ name,
      (x.name = name ∨ climbs x name) → x.name = name ∨ climbs' x name)
    (hac : a.isSubtypeBy nilStrict climbs c) : a.isSubtypeBy nilStrict' climbs' c := by
  -- The lower type decides which rule applies, and only its parts are asked about again.
  induction a generalizing c with
  | union members ih =>
      by_cases hunknown : c.kind = .unknown
      · obtain rfl := eq_unknown_of_kind_eq hunknown
        exact isSubtypeBy_unknown _
      · rw [isSubtypeBy_union_left_iff hunknown] at hac ⊢
        obtain ⟨m, hm, hmc⟩ := hac
        exact ⟨m, hm, ih m hm ((everywhere_union_iff.1 hclimbs).2 m hm) hmc⟩
  | unknown =>
      refine isSubtypeBy_mono_of_definite nofun (fun c hc _ => ?_) hac
      exact isSubtypeBy_of_unknown hc
  | nil =>
      refine isSubtypeBy_mono_of_definite nofun (fun c hc hac => ?_) hac
      rw [isSubtypeBy_nil hc, Bool.or_eq_true] at hac ⊢
      refine hac.imp_left fun hlenient => ?_
      cases nilStrict' with
      | false => rfl
      | true => simp [hstrict rfl] at hlenient
  | void =>
      refine isSubtypeBy_mono_of_definite nofun (fun c hc hac => ?_) hac
      simp [isSubtypeBy_void hc] at hac
  | primitive p =>
      refine isSubtypeBy_mono_of_definite nofun (fun c hc hac => ?_) hac
      rwa [isSubtypeBy_primitive_iff hc] at hac ⊢
  | ofClass x =>
      refine isSubtypeBy_mono_of_definite nofun (fun c hc hac => ?_) hac
      rw [isSubtypeBy_ofClass_iff hc] at hac ⊢
      refine hac.imp_right fun ⟨y, heq, hxy⟩ => ⟨y, heq, ?_⟩
      exact hclimbs.self x rfl y.name hxy
  | array element ih =>
      refine isSubtypeBy_mono_of_definite nofun (fun c hc hac => ?_) hac
      rw [isSubtypeBy_array_iff hc] at hac ⊢
      refine hac.imp_right fun ⟨other, heq, hpart⟩ => ⟨other, heq, ?_⟩
      exact ih (everywhere_array_iff.1 hclimbs).2 hpart
  | function s ihParams ihReturns ihVarargs =>
      refine isSubtypeBy_mono_of_definite nofun (fun c hc hac => ?_) hac
      rwa [isSubtypeBy_function_iff hc] at hac ⊢
  | tuple members ih =>
      refine isSubtypeBy_mono_of_definite nofun (fun c hc hac => ?_) hac
      rw [isSubtypeBy_tuple_iff hc] at hac ⊢
      obtain ⟨others, heq, hparts⟩ := hac
      refine ⟨others, heq, forall₂_imp_of_mem hparts fun m hm other _ => ?_⟩
      exact ih m hm ((everywhere_tuple_iff.1 hclimbs).2 m hm)
  | generic base args ihBase ihArgs =>
      have hbase := (everywhere_generic_iff.1 hclimbs).2.1
      refine isSubtypeBy_mono_of_definite nofun (fun c hc hac => ?_) hac
      by_cases hkind : c.kind = .generic
      · obtain ⟨base', args', rfl⟩ := exists_of_kind_eq_generic hkind
        rw [isSubtypeBy_generic_generic_iff] at hac ⊢
        exact hac.imp_right fun ⟨hbases, hargs⟩ => ⟨ihBase hbase hbases, hargs⟩
      · rw [isSubtypeBy_generic hc hkind] at hac ⊢
        exact ihBase hbase hac
  | param name bound ih =>
      refine isSubtypeBy_mono_of_definite nofun (fun c hc hac => ?_) hac
      rw [isSubtypeBy_param_iff hc] at hac ⊢
      refine hac.imp_right fun ⟨x, hx, hxc⟩ => ⟨x, hx, ?_⟩
      exact ih x hx ((everywhere_param_iff.1 hclimbs).2 x hx) hxc

/-- What a check accepts that is strict about nil is accepted by the one that is not, without an
index and with an index in any state, and what is accepted without an index is accepted with one,
strictly or not. -/
theorem laxer_check_accepts_as_much (ix : SymbolIndex) (t : LinkTable) (a b : Ty) :
    ((a.isSubtype true b → a.isSubtype false b) ∧
      (a.isSubtypeIn ix t true b → a.isSubtypeIn ix t false b)) ∧
    ∀ nilStrict, a.isSubtype nilStrict b → a.isSubtypeIn ix t nilStrict b := by
  refine ⟨⟨?_, ?_⟩, fun nilStrict => ?_⟩
  · exact isSubtypeBy_mono nofun fun u _ x _ name hname => hname
  · exact isSubtypeBy_mono nofun fun u _ x _ name hname => hname
  · -- without an index a class has nothing above it but itself
    exact isSubtypeBy_mono id fun u _ x _ name hname => .inl (hname.resolve_right nofun)

theorem laxer_check_accepts_as_much_in_tuple :
    let ix : SymbolIndex := { classes := [(ClassDecl.named "B").withSuperClass "B"] }
    let sub := tuple [array (named "B"), nil]
    let sup := union [primitive .string, tuple [array (named "B"), nil]]
    sub.isSubtype true sup ∧ sub.isSubtypeIn ix {} true sup ∧ sub.isSubtypeIn ix {} false sup := by
  intro ix sub sup
  have hclass : (named "B").isSubtype true (named "B") :=
    (isSubtypeBy_ofClass_iff (by decide)).2 (.inr ⟨_, rfl, .inl rfl⟩)
  have harray : (array (named "B")).isSubtype true (array (named "B")) :=
    (isSubtypeBy_array_iff (by decide)).2 (.inr ⟨_, rfl, hclass⟩)
  have hnil : nil.isSubtype true nil := by
    rw [isSubtype, isSubtypeBy_nil (by decide)]
    rfl
  have hsub : sub.isSubtype true sup := by
    refine (isSubtypeBy_union_right_iff_of_kind_ne (by decide)).2 ⟨_, List.mem_cons_of_mem _
      List.mem_cons_self, ?_⟩
    exact (isSubtypeBy_tuple_iff (by decide)).2 ⟨_, rfl, .cons harray (.cons hnil .nil)⟩
  obtain ⟨⟨-, hlenient⟩, hindexed⟩ := laxer_check_accepts_as_much ix {} sub sup
  exact ⟨hsub, hindexed true hsub, hlenient (hindexed true hsub)⟩

end Ty

end LuaTypes
