import LuaTypes.Proofs.SubtypeRules
import LuaTypes.Ty.Parts

/-!
The check does not tell equal types apart. A union stands on either side for any of its members, so
that whatever is above a type can be found among types of which something is known and that are no
unions. There the rules for the forms of the lower type decide.
-/

namespace LuaTypes

namespace Ty

section Unions

variable {nilStrict : Bool} {climbs : ClassTy → String → Bool} {a t : Ty} {as bs : List Ty}

theorem run_bind_or (x y : Id Bool) :
    Id.run (do if ← x then return true else y) = (Id.run x || Id.run y) := by
  change (if Id.run x = true then true else Id.run y) = _
  cases Id.run x <;> rfl

theorem anyIsSubtypeM_iff :
    Id.run (anyIsSubtypeM nilStrict (fun c ancestor => pure (climbs c ancestor)) as t) = true ↔
      ∃ a ∈ as, isSubtypeBy nilStrict climbs a t := by
  induction as with
  | nil => simp [anyIsSubtypeM]
  | cons a as ih =>
      rw [List.exists_mem_cons_iff, ← ih, anyIsSubtypeM, run_bind_or, Bool.or_eq_true]
      rfl

theorem isSubtypeOfAnyM_iff :
    Id.run (isSubtypeOfAnyM nilStrict (fun c ancestor => pure (climbs c ancestor)) a bs) = true ↔
      ∃ b ∈ bs, isSubtypeBy nilStrict climbs a b := by
  induction bs with
  | nil => simp [isSubtypeOfAnyM]
  | cons b bs ih =>
      rw [List.exists_mem_cons_iff, ← ih, isSubtypeOfAnyM, run_bind_or, Bool.or_eq_true]
      rfl

theorem isSubtypeBy_unknown (a : Ty) : isSubtypeBy nilStrict climbs a unknown = true := by
  cases a <;> simp [isSubtypeBy, isSubtypeM]

theorem isSubtypeBy_of_unknown (h : t.IsDefinite) :
    isSubtypeBy nilStrict climbs unknown t = true := by
  cases t with
  | unknown => exact absurd rfl h.1
  | union members => exact absurd rfl h.2
  | _ => simp [isSubtypeBy, isSubtypeM]

theorem isSubtypeBy_union_left_iff (h : t.kind ≠ .unknown) :
    isSubtypeBy nilStrict climbs (union as) t ↔ ∃ a ∈ as, isSubtypeBy nilStrict climbs a t := by
  rw [← anyIsSubtypeM_iff]
  cases t with
  | unknown => exact absurd rfl h
  | _ => simp [isSubtypeBy, isSubtypeM]

theorem isSubtypeBy_union_right_iff_of_kind_ne (h : a.kind ≠ .union) :
    isSubtypeBy nilStrict climbs a (union bs) ↔ ∃ b ∈ bs, isSubtypeBy nilStrict climbs a b := by
  rw [← isSubtypeOfAnyM_iff]
  cases a with
  | union as => exact absurd rfl h
  | _ => simp [isSubtypeBy, isSubtypeM]

theorem isSubtypeBy_union_right_iff (h : ∀ b ∈ bs, b.kind ≠ .unknown) :
    isSubtypeBy nilStrict climbs a (union bs) ↔ ∃ b ∈ bs, isSubtypeBy nilStrict climbs a b := by
  induction a with
  | union as ih =>
      rw [isSubtypeBy_union_left_iff (by simp [kind])]
      constructor
      · rintro ⟨x, hx, hxbs⟩
        obtain ⟨b, hb, hxb⟩ := (ih x hx).1 hxbs
        exact ⟨b, hb, (isSubtypeBy_union_left_iff (h b hb)).2 ⟨x, hx, hxb⟩⟩
      · rintro ⟨b, hb, hab⟩
        obtain ⟨x, hx, hxb⟩ := (isSubtypeBy_union_left_iff (h b hb)).1 hab
        exact ⟨x, hx, (ih x hx).2 ⟨b, hb, hxb⟩⟩
  | _ => exact isSubtypeBy_union_right_iff_of_kind_ne (by simp [kind])

end Unions

/-- The unions in a type, at every depth, are well formed. -/
def HasSoundUnions (t : Ty) : Prop :=
  t.Everywhere fun u => u.kind = .union → u.WellFormed

namespace HasSoundUnions

variable {t element head : Ty} {members args : List Ty} {name : String} {bound : Option Ty}

theorem array (h : (array element).HasSoundUnions) : element.HasSoundUnions :=
  (everywhere_array_iff.1 h).2

theorem union (h : (union members).HasSoundUnions) : ∀ m ∈ members, m.HasSoundUnions :=
  (everywhere_union_iff.1 h).2

theorem tuple (h : (tuple members).HasSoundUnions) : ∀ m ∈ members, m.HasSoundUnions :=
  (everywhere_tuple_iff.1 h).2

theorem base (h : (generic head args).HasSoundUnions) : head.HasSoundUnions :=
  (everywhere_generic_iff.1 h).2.1

theorem param (h : (param name bound).HasSoundUnions) : ∀ b ∈ bound, b.HasSoundUnions :=
  (everywhere_param_iff.1 h).2

theorem wellFormed (h : (Ty.union members).HasSoundUnions) : (Ty.union members).WellFormed :=
  h.self rfl

theorem definite (h : (Ty.union members).HasSoundUnions) : ∀ m ∈ members, m.IsDefinite := by
  intro m hm
  obtain ⟨hkind, hvalid⟩ := h.wellFormed.2.2.1 m hm
  refine ⟨fun hunknown => ?_, hkind⟩
  cases m with
  | unknown => cases hvalid
  | _ => cases hunknown

end HasSoundUnions

theorem WellFormed.everywhere {t : Ty} (h : t.WellFormed) : t.Everywhere WellFormed := by
  induction t with
  | unknown | nil | void | primitive _ | ofClass _ => exact List.forall_mem_singleton.2 h
  | array element ih => exact everywhere_array_iff.2 ⟨h, ih h⟩
  | function s ihParams ihReturns ihVarargs =>
      obtain ⟨hparams, hreturns, hvarargs⟩ := wellFormed_function_iff.1 h
      exact everywhere_function_iff.2 ⟨h, fun p hp => ihParams p hp (hparams p hp),
        ihReturns hreturns, fun v hv => ihVarargs v hv (hvarargs v hv)⟩
  | union members ih =>
      have hmembers := (wellFormedList_iff members).1 h.2.2.2
      exact everywhere_union_iff.2 ⟨h, fun m hm => ih m hm (hmembers m hm)⟩
  | tuple members ih =>
      have hmembers := (wellFormedList_iff members).1 h.2
      exact everywhere_tuple_iff.2 ⟨h, fun m hm => ih m hm (hmembers m hm)⟩
  | generic base args ihBase ihArgs =>
      have hargs := (wellFormedList_iff args).1 h.2
      exact everywhere_generic_iff.2 ⟨h, ihBase h.1, fun a ha => ihArgs a ha (hargs a ha)⟩
  | param name bound ih =>
      have hbound := (wellFormedOption_iff bound).1 h
      exact everywhere_param_iff.2 ⟨h, fun b hb => ih b hb (hbound b hb)⟩

theorem WellFormed.hasSoundUnions {t : Ty} (h : t.WellFormed) : t.HasSoundUnions :=
  h.everywhere.imp fun _ hu _ => hu

section Congruence

variable {nilStrict : Bool} {above : String → String → Bool} {a b c : Ty}

theorem exists_of_kind_eq_generic (h : a.kind = .generic) :
    ∃ base args, a = generic base args := by
  cases a with
  | generic base args => exact ⟨base, args, rfl⟩
  | _ => cases h

theorem eq_unknown_of_kind_eq (h : a.kind = .unknown) : a = unknown := by
  cases a with
  | unknown => rfl
  | _ => cases h

theorem beq_nil_iff : a == nil ↔ a = nil := by
  constructor
  · intro h
    have hkind := kind_eq_of_beq h
    cases a with
    | nil => rfl
    | _ => cases hkind
  · rintro rfl
    rfl

theorem unknown_or_definite_or_union (t : Ty) :
    t = unknown ∨ t.IsDefinite ∨ ∃ members, t = union members := by
  cases t with
  | unknown => exact .inl rfl
  | union members => exact .inr (.inr ⟨members, rfl⟩)
  | _ => exact .inr (.inl ⟨by simp [kind], by simp [kind]⟩)

theorem isSubtypeBy_of_definite {climbs : ClassTy → String → Bool}
    (hdefinite : ∀ c, c.IsDefinite → c.HasSoundUnions →
      b.isSubtypeBy nilStrict climbs c → a.isSubtypeBy nilStrict climbs c)
    (hc : c.HasSoundUnions) (hbc : b.isSubtypeBy nilStrict climbs c) :
    a.isSubtypeBy nilStrict climbs c := by
  rcases c.unknown_or_definite_or_union with rfl | hcase | ⟨members, rfl⟩
  · exact isSubtypeBy_unknown a
  · exact hdefinite c hcase hc hbc
  · have hmembers : ∀ m ∈ members, m.kind ≠ .unknown := fun m hm => (hc.definite m hm).1
    rw [isSubtypeBy_union_right_iff hmembers] at hbc ⊢
    obtain ⟨m, hm, hbm⟩ := hbc
    exact ⟨m, hm, hdefinite m (hc.definite m hm) (hc.union m hm) hbm⟩

theorem isSubtypeBy_of_beq_left (ha : a.HasSoundUnions) (hb : b.HasSoundUnions)
    (hc : c.HasSoundUnions) (hab : a == b)
    (hbc : b.isSubtypeBy nilStrict (fun x name => above x.name name) c) :
    a.isSubtypeBy nilStrict (fun x name => above x.name name) c := by
  refine isSubtypeBy_of_definite ?_ hc hbc
  clear hc hbc
  intro c hdefinite hc hbc
  induction a generalizing b c with
  | unknown | nil | void =>
      obtain rfl := (beq_iff_eq_of_isInvalid rfl).1 hab
      exact hbc
  | primitive p =>
      obtain rfl := primitive_beq_iff.1 hab
      exact hbc
  | ofClass x =>
      obtain ⟨y, rfl, hxy⟩ := ofClass_beq_iff.1 hab
      rw [isSubtypeBy_ofClass_iff hdefinite] at hbc ⊢
      rwa [hxy]
  | array a ih =>
      obtain ⟨b, rfl, hab⟩ := array_beq_iff.1 hab
      rw [isSubtypeBy_array_iff hdefinite] at hbc ⊢
      rcases hbc with rfl | ⟨c, rfl, hbc⟩
      · exact .inl rfl
      · exact .inr ⟨c, rfl, isSubtypeBy_of_definite (ih ha.array hb.array hab) hc.array hbc⟩
  | function s ihParams ihReturns ihVarargs =>
      obtain ⟨u, rfl, -⟩ := function_beq_iff.1 hab
      rw [isSubtypeBy_function_iff hdefinite] at hbc ⊢
      exact hbc.imp_right (beq_trans hab)
  | union as ih =>
      obtain ⟨bs, rfl, -⟩ := union_beq_iff.1 hab
      rw [isSubtypeBy_union_left_iff hdefinite.1] at hbc ⊢
      obtain ⟨y, hy, hyc⟩ := hbc
      obtain ⟨taken, hperm, hpairs⟩ := exists_perm_of_union_beq ha.wellFormed hb.wellFormed hab
      obtain ⟨x, hx, hxy⟩ := exists_left_of_forall₂ hpairs (hperm.mem_iff.1 hy)
      exact ⟨x, hx, ih x hx (ha.union x hx) (hb.union y hy) hxy c hdefinite hc hyc⟩
  | tuple as ih =>
      obtain ⟨bs, rfl, has⟩ := tuple_beq_iff.1 hab
      rw [isSubtypeBy_tuple_iff hdefinite] at hbc ⊢
      obtain ⟨cs, rfl, hbs⟩ := hbc
      refine ⟨cs, rfl, forall₂_comp_of_mem has hbs fun x hx y hy z hz hxy hyz => ?_⟩
      exact isSubtypeBy_of_definite (ih x hx (ha.tuple x hx) (hb.tuple y hy) hxy)
        (hc.tuple z hz) hyz
  | generic base args ihBase ihArgs =>
      obtain ⟨base', args', rfl, hbase, hargs⟩ := generic_beq_iff.1 hab
      by_cases hkind : c.kind = .generic
      · obtain ⟨base'', args'', rfl⟩ := exists_of_kind_eq_generic hkind
        rw [isSubtypeBy_generic_generic_iff] at hbc ⊢
        rcases hbc with hbc | ⟨hbase', hargs'⟩
        · exact .inl (beq_trans hab hbc)
        · refine .inr ⟨?_, forall₂_comp_of_mem hargs hargs' fun _ _ _ _ _ _ => beq_trans⟩
          exact isSubtypeBy_of_definite (ihBase ha.base hb.base hbase) hc.base hbase'
      · rw [isSubtypeBy_generic hdefinite hkind] at hbc ⊢
        exact ihBase ha.base hb.base hbase c hdefinite hc hbc
  | param name bound ih =>
      obtain ⟨bound', rfl, hbound⟩ := param_beq_iff.1 hab
      rw [isSubtypeBy_param_iff hdefinite] at hbc ⊢
      rcases hbc with hbc | ⟨y, hy, hbc⟩
      · exact .inl (beq_trans hab hbc)
      · obtain ⟨x, hx, hxy⟩ := exists_left_of_forall₂ hbound (Option.mem_toList.2 hy)
        rw [Option.mem_toList] at hx
        exact .inr ⟨x, hx, ih x hx (ha.param x hx) (hb.param y hy) hxy c hdefinite hc hbc⟩

theorem isSubtypeBy_of_definite_right {climbs : ClassTy → String → Bool}
    (hdefinite : ∀ b c, b.IsDefinite → c.IsDefinite → b.HasSoundUnions → c.HasSoundUnions →
      a.isSubtypeBy nilStrict climbs b → b == c → a.isSubtypeBy nilStrict climbs c)
    (hb : b.HasSoundUnions) (hc : c.HasSoundUnions) (hab : a.isSubtypeBy nilStrict climbs b)
    (hbc : b == c) : a.isSubtypeBy nilStrict climbs c := by
  rcases b.unknown_or_definite_or_union with rfl | hcase | ⟨bs, rfl⟩
  · obtain rfl := (beq_iff_eq_of_isInvalid rfl).1 hbc
    exact hab
  · have hkind := kind_eq_of_beq hbc
    have hcase' : c.IsDefinite := ⟨hkind ▸ hcase.1, hkind ▸ hcase.2⟩
    exact hdefinite b c hcase hcase' hb hc hab hbc
  · obtain ⟨cs, rfl, -, hwithin⟩ := union_beq_iff.1 hbc
    rw [isSubtypeBy_union_right_iff fun m hm => (hb.definite m hm).1] at hab
    rw [isSubtypeBy_union_right_iff fun m hm => (hc.definite m hm).1]
    obtain ⟨y, hy, hay⟩ := hab
    obtain ⟨z, hz, hyz⟩ := hwithin y hy
    exact ⟨z, hz, hdefinite y z (hb.definite y hy) (hc.definite z hz) (hb.union y hy)
      (hc.union z hz) hay hyz⟩

theorem isSubtypeBy_of_beq_right {climbs : ClassTy → String → Bool} (ha : a.HasSoundUnions)
    (hb : b.HasSoundUnions) (hc : c.HasSoundUnions) (hab : a.isSubtypeBy nilStrict climbs b)
    (hbc : b == c) : a.isSubtypeBy nilStrict climbs c := by
  refine isSubtypeBy_of_definite_right ?_ hb hc hab hbc
  clear hb hc hab hbc
  intro b c hdefinite hdefinite' hb hc hab hbc
  induction a generalizing b c with
  | unknown => exact isSubtypeBy_of_unknown hdefinite'
  | union as ih =>
      rw [isSubtypeBy_union_left_iff hdefinite.1] at hab
      rw [isSubtypeBy_union_left_iff hdefinite'.1]
      obtain ⟨x, hx, hxb⟩ := hab
      exact ⟨x, hx, ih x hx (ha.union x hx) b c hdefinite hdefinite' hb hc hxb hbc⟩
  | nil =>
      rw [isSubtypeBy_nil hdefinite, Bool.or_eq_true, beq_nil_iff] at hab
      rw [isSubtypeBy_nil hdefinite', Bool.or_eq_true, beq_nil_iff]
      refine hab.imp_right fun hnil => ?_
      subst hnil
      exact (beq_iff_eq_of_isInvalid rfl).1 hbc
  | void => simp [isSubtypeBy_void hdefinite] at hab
  | primitive p =>
      obtain rfl := (isSubtypeBy_primitive_iff hdefinite).1 hab
      exact (isSubtypeBy_primitive_iff hdefinite').2 (primitive_beq_iff.1 hbc)
  | ofClass x =>
      rw [isSubtypeBy_ofClass_iff hdefinite] at hab
      rw [isSubtypeBy_ofClass_iff hdefinite']
      rcases hab with rfl | ⟨y, rfl, hxy⟩
      · exact .inl (primitive_beq_iff.1 hbc)
      · obtain ⟨z, rfl, hyz⟩ := ofClass_beq_iff.1 hbc
        exact .inr ⟨z, rfl, hyz ▸ hxy⟩
  | array a ih =>
      rw [isSubtypeBy_array_iff hdefinite] at hab
      rw [isSubtypeBy_array_iff hdefinite']
      rcases hab with rfl | ⟨b, rfl, hab⟩
      · exact .inl (primitive_beq_iff.1 hbc)
      · obtain ⟨c, rfl, hbc⟩ := array_beq_iff.1 hbc
        exact .inr ⟨c, rfl, isSubtypeBy_of_definite_right (ih ha.array) hb.array hc.array hab hbc⟩
  | function s ihParams ihReturns ihVarargs =>
      rw [isSubtypeBy_function_iff hdefinite] at hab
      rw [isSubtypeBy_function_iff hdefinite']
      rcases hab with rfl | hab
      · exact .inl (primitive_beq_iff.1 hbc)
      · exact .inr (beq_trans hab hbc)
  | tuple as ih =>
      rw [isSubtypeBy_tuple_iff hdefinite] at hab
      rw [isSubtypeBy_tuple_iff hdefinite']
      obtain ⟨bs, rfl, has⟩ := hab
      obtain ⟨cs, rfl, hbs⟩ := tuple_beq_iff.1 hbc
      refine ⟨cs, rfl, forall₂_comp_of_mem has hbs fun x hx y hy z hz => ?_⟩
      exact isSubtypeBy_of_definite_right (ih x hx (ha.tuple x hx)) (hb.tuple y hy)
        (hc.tuple z hz)
  | generic base args ihBase ihArgs =>
      have hkinds := kind_eq_of_beq hbc
      by_cases hkind : b.kind = .generic
      · obtain ⟨base', args', rfl⟩ := exists_of_kind_eq_generic hkind
        obtain ⟨base'', args'', rfl, hbase', hargs'⟩ := generic_beq_iff.1 hbc
        rw [isSubtypeBy_generic_generic_iff] at hab ⊢
        rcases hab with hab | ⟨hbase, hargs⟩
        · exact .inl (beq_trans hab hbc)
        · exact .inr ⟨isSubtypeBy_of_definite_right (ihBase ha.base) hb.base hc.base hbase hbase',
            forall₂_comp_of_mem hargs hargs' fun _ _ _ _ _ _ => beq_trans⟩
      · rw [isSubtypeBy_generic hdefinite hkind] at hab
        rw [isSubtypeBy_generic hdefinite' (hkinds ▸ hkind)]
        exact ihBase ha.base b c hdefinite hdefinite' hb hc hab hbc
  | param name bound ih =>
      rw [isSubtypeBy_param_iff hdefinite] at hab
      rw [isSubtypeBy_param_iff hdefinite']
      rcases hab with hab | ⟨x, hx, hab⟩
      · exact .inl (beq_trans hab hbc)
      · exact .inr ⟨x, hx, ih x hx (ha.param x hx) b c hdefinite hdefinite' hb hc hab hbc⟩

/-- The check gives the same answer on equal types. -/
theorem isSubtypeBy_congr (above : String → String → Bool) {a' b' : Ty} (ha : a.WellFormed)
    (ha' : a'.WellFormed) (hb : b.WellFormed) (hb' : b'.WellFormed) (haa : a == a')
    (hbb : b == b') :
    a.isSubtypeBy nilStrict (fun x name => above x.name name) b =
      a'.isSubtypeBy nilStrict (fun x name => above x.name name) b' := by
  rw [Bool.eq_iff_iff]
  constructor
  · intro hab
    have hab' := isSubtypeBy_of_beq_right ha.hasSoundUnions hb.hasSoundUnions hb'.hasSoundUnions
      hab hbb
    exact isSubtypeBy_of_beq_left ha'.hasSoundUnions ha.hasSoundUnions hb'.hasSoundUnions
      (beq_symm ha ha' haa) hab'
  · intro hab'
    have hab := isSubtypeBy_of_beq_right ha'.hasSoundUnions hb'.hasSoundUnions hb.hasSoundUnions
      hab' (beq_symm hb hb' hbb)
    exact isSubtypeBy_of_beq_left ha.hasSoundUnions ha'.hasSoundUnions hb.hasSoundUnions haa hab

end Congruence

end Ty

end LuaTypes
