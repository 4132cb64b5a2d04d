import LuaTypes.Proofs.SubtypeCongruence
import LuaTypes.Proofs.UnionAlgebra

namespace LuaTypes

namespace Ty

variable {nilStrict : Bool} {climbs : ClassTy → String → Bool} {t x y z : Ty}

theorem exists_mem_unite_iff {p : Ty → Prop} (hx : x.WellFormed) (hy : y.WellFormed)
    (hp : ∀ a b : Ty, a.WellFormed → b.WellFormed → a == b → p b → p a) :
    (∃ m ∈ (x.unite y).keptMembers, p m) ↔
      (∃ m ∈ x.keptMembers, p m) ∨ ∃ m ∈ y.keptMembers, p m := by
  have hcollects := collects_unite hx hy
  simp only [← exists_or, ← or_and_right, ← List.mem_append]
  constructor
  · rintro ⟨m, hm, hpm⟩
    exact ⟨m, hcollects.taken m hm, hpm⟩
  · rintro ⟨t, ht, hpt⟩
    obtain ⟨m, hm, hmt⟩ := hcollects.covers t ht
    have htwf : t.WellFormed := List.forall_mem_append.2
      ⟨wellFormed_keptMembers hx, wellFormed_keptMembers hy⟩ t ht
    exact ⟨m, hm, hp m t (wellFormed_keptMembers (wellFormed_unite hx hy) m hm) htwf hmt hpt⟩

theorem isSubtypeBy_iff_exists_left (ht : t.WellFormed) (hvalid : t.isInvalid = false) :
    t.isSubtypeBy nilStrict climbs z ↔ ∃ m ∈ t.keptMembers, m.isSubtypeBy nilStrict climbs z := by
  rcases plain_or_union hvalid with hplain | ⟨members, rfl⟩
  · simp [keptMembers_of_isPlain hplain]
  · rw [keptMembers_union ht]
    rcases z.unknown_or_definite_or_union with rfl | hdefinite | ⟨others, rfl⟩
    · -- where nothing is known the members are not asked, but there are some
      obtain ⟨m, hm⟩ := List.exists_mem_of_length_pos (Nat.lt_of_lt_of_le Nat.two_pos ht.1)
      exact iff_of_true (isSubtypeBy_unknown _) ⟨m, hm, isSubtypeBy_unknown m⟩
    · exact isSubtypeBy_union_left_iff hdefinite.1
    · exact isSubtypeBy_union_left_iff nofun

theorem isSubtypeBy_iff_exists_right (ht : t.WellFormed) (hvalid : t.isInvalid = false) :
    z.isSubtypeBy nilStrict climbs t ↔ ∃ m ∈ t.keptMembers, z.isSubtypeBy nilStrict climbs m := by
  rcases plain_or_union hvalid with hplain | ⟨members, rfl⟩
  · simp [keptMembers_of_isPlain hplain]
  · rw [keptMembers_union ht]
    exact isSubtypeBy_union_right_iff fun m hm => (ht.hasSoundUnions.definite m hm).1

theorem isInvalid_unite_of_valid (hx : x.WellFormed) (hy : y.WellFormed)
    (hvalid : x.isInvalid = false) : (x.unite y).isInvalid = false := by
  rw [isInvalid_unite hx hy, hvalid, Bool.false_and]

theorem isSubtypeBy_unite_left_iff (above : String → String → Bool) (hx : x.WellFormed)
    (hy : y.WellFormed) (hz : z.WellFormed) (hxvalid : x.isInvalid = false)
    (hyvalid : y.isInvalid = false) :
    (x.unite y).isSubtypeBy nilStrict (fun c name => above c.name name) z ↔
      x.isSubtypeBy nilStrict (fun c name => above c.name name) z ∨
        y.isSubtypeBy nilStrict (fun c name => above c.name name) z := by
  rw [isSubtypeBy_iff_exists_left (wellFormed_unite hx hy) (isInvalid_unite_of_valid hx hy hxvalid),
    isSubtypeBy_iff_exists_left hx hxvalid, isSubtypeBy_iff_exists_left hy hyvalid]
  refine exists_mem_unite_iff hx hy fun a b ha hb hab => ?_
  exact isSubtypeBy_of_beq_left ha.hasSoundUnions hb.hasSoundUnions hz.hasSoundUnions hab

theorem isSubtypeBy_unite_right_iff (above : String → String → Bool) (hx : x.WellFormed)
    (hy : y.WellFormed) (hz : z.WellFormed) (hxvalid : x.isInvalid = false)
    (hyvalid : y.isInvalid = false) :
    z.isSubtypeBy nilStrict (fun c name => above c.name name) (x.unite y) ↔
      z.isSubtypeBy nilStrict (fun c name => above c.name name) x ∨
        z.isSubtypeBy nilStrict (fun c name => above c.name name) y := by
  rw [isSubtypeBy_iff_exists_right (wellFormed_unite hx hy)
      (isInvalid_unite_of_valid hx hy hxvalid),
    isSubtypeBy_iff_exists_right hx hxvalid, isSubtypeBy_iff_exists_right hy hyvalid]
  refine exists_mem_unite_iff hx hy fun a b ha hb hab hzb => ?_
  exact isSubtypeBy_of_beq_right hz.hasSoundUnions hb.hasSoundUnions ha.hasSoundUnions hzb
    (beq_symm ha hb hab)

/-- Without an index, strict about nil or not, subtyping does not tell equal types apart, and a
union of two types with a value is below or above a type exactly when one of the two is. Whatever is
below a union is below one of its members. -/
theorem subtyping_follows_unions (nilStrict : Bool) :
    (∀ a a' b b' : Ty, a.WellFormed → a'.WellFormed → b.WellFormed → b'.WellFormed →
      a == a' → b == b' → a.isSubtype nilStrict b = a'.isSubtype nilStrict b') ∧
    (∀ x y z : Ty, x.WellFormed → y.WellFormed → z.WellFormed →
      x.isInvalid = false → y.isInvalid = false →
      ((x.unite y).isSubtype nilStrict z ↔
        x.isSubtype nilStrict z ∨ y.isSubtype nilStrict z) ∧
      (z.isSubtype nilStrict (x.unite y) ↔
        z.isSubtype nilStrict x ∨ z.isSubtype nilStrict y)) ∧
    ∀ (members : List Ty) (x : Ty), (union members).WellFormed →
      (x.isSubtype nilStrict (union members) ↔ ∃ m ∈ members, x.isSubtype nilStrict m) := by
  refine ⟨fun a a' b b' ha ha' hb hb' => ?_, fun x y z hx hy hz hxvalid hyvalid => ⟨?_, ?_⟩,
    fun members x hunion => ?_⟩
  · exact isSubtypeBy_congr (fun _ _ => false) ha ha' hb hb'
  · exact isSubtypeBy_unite_left_iff (fun _ _ => false) hx hy hz hxvalid hyvalid
  · exact isSubtypeBy_unite_right_iff (fun _ _ => false) hx hy hz hxvalid hyvalid
  · exact isSubtypeBy_union_right_iff fun m hm => (hunion.hasSoundUnions.definite m hm).1

theorem subtyping_follows_unions_in_arrays :
    (union [named "B", array nil]).WellFormed ∧ (union [array nil, named "B"]).WellFormed ∧
      (array (union [named "B", array nil])).isSubtype true (array (named "B")) =
        (array (union [array nil, named "B"])).isSubtype true (array (named "B")) ∧
      (named "B").isSubtype true ((named "A").unite (union [named "B", array nil])) ∧
      ((named "A").unite (union [named "B", array nil])).isSubtype true (named "B") := by
  have hu : (union [named "B", array nil]).WellFormed := by
    simp [WellFormed, WellFormedList, named, kind, isInvalid]
    rfl
  have hu' : (union [array nil, named "B"]).WellFormed := by
    simp [WellFormed, WellFormedList, named, kind, isInvalid]
    rfl
  have hself : (named "B").isSubtype true (named "B") :=
    (isSubtypeBy_ofClass_iff ⟨by decide, by decide⟩).2 (.inr ⟨_, rfl, .inl rfl⟩)
  obtain ⟨hcongr, hunite, hmember⟩ := subtyping_follows_unions true
  have hbelow : (named "B").isSubtype true (union [named "B", array nil]) :=
    (hmember _ (named "B") hu).2 ⟨named "B", List.mem_cons_self, hself⟩
  have habove : (union [named "B", array nil]).isSubtype true (named "B") :=
    (isSubtypeBy_union_left_iff (by decide)).2 ⟨named "B", List.mem_cons_self, hself⟩
  obtain ⟨hleft, hright⟩ := hunite (named "A") _ (named "B") trivial hu trivial rfl rfl
  refine ⟨hu, hu', ?_, hright.2 (.inr hbelow), hleft.2 (.inr habove)⟩
  exact hcongr _ _ _ (array (named "B")) hu hu' trivial trivial (by decide) (by decide)

end Ty

end LuaTypes
