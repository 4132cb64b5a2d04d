import LuaTypes.Proofs.UnionAlgebra

/-!
Operations that do to a union what they do to its members. Types may be united before such an
operation or after it, as long as it leaves one of them a value. Narrowing to the value at a
position is one: members of any number of values may be merged first and narrowed then.
-/

namespace LuaTypes

namespace Ty

/-- Makes of a union the union of what it makes of the members, gives no value to a type without
one, and does not tell equal members apart. -/
structure Memberwise (f : Ty → Ty) : Prop where
  wellFormed {t : Ty} : t.WellFormed → (f t).WellFormed
  congr {m n : Ty} : m.IsPlain → m.WellFormed → n.WellFormed → m == n → f m == f n
  spares {t : Ty} : t.isInvalid = true → (f t).isInvalid = true
  union_eq (members : List Ty) : f (union members) = uniteAll (members.map f)

namespace Memberwise

variable {f : Ty → Ty} (hf : Memberwise f) {a b t : Ty} {ts : List Ty}

include hf

theorem wellFormed_map (h : ∀ t ∈ ts, t.WellFormed) : ∀ u ∈ ts.map f, u.WellFormed :=
  List.forall_mem_map.2 fun t ht => hf.wellFormed (h t ht)

theorem sameSet (h : t.WellFormed) :
    SameSet (f t).keptMembers (t.keptMembers.flatMap fun m => (f m).keptMembers) := by
  rcases t.invalid_or_plain_or_union with hinvalid | hplain | ⟨members, rfl⟩
  · rw [keptMembers_of_isInvalid hinvalid, keptMembers_of_isInvalid (hf.spares hinvalid)]
    exact .refl _
  · rw [keptMembers_of_isPlain hplain, List.flatMap_singleton]
    exact .refl _
  · have hcollects := collects_uniteAll (hf.wellFormed_map ((wellFormedList_iff members).1 h.2.2.2))
    rw [List.flatMap_map] at hcollects
    rw [keptMembers_union h, hf.union_eq]
    exact hcollects.sameSet

theorem sameSet_flatMap {ms ns : List Ty} (h : SameSet ms ns) (hplain : ∀ m ∈ ms, m.IsPlain)
    (hms : ∀ m ∈ ms, m.WellFormed) (hns : ∀ n ∈ ns, n.WellFormed) :
    SameSet (ms.flatMap fun m => (f m).keptMembers) (ns.flatMap fun n => (f n).keptMembers) := by
  have hpair : ∀ m ∈ ms, ∀ n ∈ ns, m == n → SameSet (f m).keptMembers (f n).keptMembers := by
    intro m hm n hn hmn
    exact sameSet_of_beq (hf.wellFormed (hms m hm)) (hf.wellFormed (hns n hn))
      (hf.congr (hplain m hm) (hms m hm) (hns n hn) hmn)
  apply SameSet.flatMap
  · intro n hn
    obtain ⟨m, hm, hmn⟩ := h.1 n hn
    exact ⟨m, hm, hpair m hm n hn hmn⟩
  · intro m hm
    obtain ⟨n, hn, hnm⟩ := h.2 m hm
    exact ⟨n, hn, hpair m hm n hn (beq_symm (hns n hn) (hms m hm) hnm)⟩

theorem sameSet_uniteAll (h : ∀ t ∈ ts, t.WellFormed) :
    SameSet (f (uniteAll ts)).keptMembers ((ts.map f).flatMap keptMembers) := by
  have hunion := wellFormed_uniteAll h
  have hkept : ∀ m ∈ ts.flatMap keptMembers, m.WellFormed :=
    List.forall_mem_flatMap.2 fun t ht => wellFormed_keptMembers (h t ht)
  have hmembers := hf.sameSet_flatMap (collects_uniteAll h).sameSet
    (isPlain_of_mem_keptMembers hunion) (wellFormed_keptMembers hunion) hkept
  have heach : SameSet (ts.flatMap fun t => t.keptMembers.flatMap fun m => (f m).keptMembers)
      (ts.flatMap fun t => (f t).keptMembers) :=
    SameSet.flatMap (fun t ht => ⟨t, ht, (hf.sameSet (h t ht)).symm⟩)
      fun t ht => ⟨t, ht, (hf.sameSet (h t ht)).symm⟩
  rw [List.flatMap_assoc] at hmembers
  rw [List.flatMap_map]
  exact (hf.sameSet hunion).trans (hmembers.trans heach)

/-- Types may be united before the operation or after it, if one of them has a value then. -/
theorem uniteAll_beq (h : ∀ t ∈ ts, t.WellFormed) (hvalid : ∃ t ∈ ts, (f t).isInvalid = false) :
    f (uniteAll ts) == uniteAll (ts.map f) := by
  obtain ⟨t, ht, hvalid⟩ := hvalid
  have hmap := hf.wellFormed_map h
  have hleft := hf.wellFormed (wellFormed_uniteAll h)
  have hright := wellFormed_uniteAll hmap
  have hkept := (hf.sameSet_uniteAll h).trans (collects_uniteAll hmap).sameSet.symm
  have hsame := isInvalid_eq_of_sameSet hleft hright hkept
  have hvalid' := isInvalid_uniteAll_of_mem hmap (List.mem_map_of_mem ht) hvalid
  exact beq_of_sameSet hleft hright (hsame.trans hvalid') hvalid' hkept

theorem unite_beq (ha : a.WellFormed) (hb : b.WellFormed)
    (hvalid : (f a).isInvalid = false ∨ (f b).isInvalid = false) :
    f (a.unite b) == (f a).unite (f b) := by
  have hpair : ∀ t ∈ [a, b], t.WellFormed := by simp [ha, hb]
  exact hf.uniteAll_beq hpair (by simpa using hvalid)

end Memberwise

section Narrowing

variable {m n t : Ty}

theorem getD_nil_beq {as bs : List Ty} (h : List.Forall₂ (fun a b => a == b) as bs)
    (position : Nat) : as[position]?.getD nil == bs[position]?.getD nil := by
  induction h generalizing position with
  | nil => rfl
  | cons hab _ ih =>
      cases position with
      | zero => exact hab
      | succ position => exact ih position

theorem IsPlain.isOneValue (h : t.IsPlain) (hkind : t.kind ≠ .tuple) : t.IsOneValue := by
  cases t with
  | union members => exact absurd rfl h.1
  | unknown | nil | void => cases h.2
  | _ => simp [IsOneValue, members, kind] at hkind ⊢

theorem valueAt_congr_of_isPlain (hm : m.IsPlain) (h : m == n) (position : Nat) :
    m.valueAt position == n.valueAt position := by
  have hkind := kind_eq_of_beq h
  have hn : n.IsPlain := ⟨hkind ▸ hm.1, isInvalid_eq_of_beq h ▸ hm.2⟩
  by_cases htuple : m.kind = .tuple
  · cases m with
    | tuple as =>
        obtain ⟨bs, rfl, has⟩ := tuple_beq_iff.1 h
        exact getD_nil_beq has position
    | _ => cases htuple
  · have hone := hm.isOneValue htuple
    have hone' := hn.isOneValue (hkind ▸ htuple)
    rcases Nat.eq_zero_or_pos position with rfl | hpos
    · rw [valueAt_zero_of_plain hm.1 hone, valueAt_zero_of_plain hn.1 hone']
      exact h
    · rw [valueAt_of_plain hm.1 hone hpos, valueAt_of_plain hn.1 hone' hpos]
      rfl

theorem memberwise_valueAt (position : Nat) : Memberwise (valueAt position) where
  wellFormed h := compositional_wellFormed.valueAt h position
  congr hplain _ _ h := valueAt_congr_of_isPlain hplain h position
  spares {t} h := by
    cases t with
    | unknown | nil | void => rfl
    | _ => cases h
  union_eq members := by rw [valueAt, valuesAt_eq_map]

end Narrowing

/-- Types of any number of values may be merged first and narrowed to a position then, or the other
way round, two of them or many, if one of them has a known value there. -/
theorem narrowing_commutes_with_union (position : Nat) :
    (∀ a b : Ty, a.WellFormed → b.WellFormed →
      ((a.valueAt position).isInvalid = false ∨ (b.valueAt position).isInvalid = false) →
      (a.unite b).valueAt position == (a.valueAt position).unite (b.valueAt position)) ∧
    ∀ types : List Ty, (∀ t ∈ types, t.WellFormed) →
      (∃ t ∈ types, (t.valueAt position).isInvalid = false) →
      (uniteAll types).valueAt position == uniteAll (types.map (valueAt position)) :=
  ⟨fun _ _ ha hb hvalid => (memberwise_valueAt position).unite_beq ha hb hvalid,
    fun _ h hvalid => (memberwise_valueAt position).uniteAll_beq h hvalid⟩

theorem narrowing_commutes_with_union_at_second_value :
    let a : Ty := .tuple [named "A", .union [.primitive .number, named "B"]]
    let b : Ty := .union [.primitive .string, .tuple [nil, .primitive .number]]
    (a.WellFormed ∧ b.WellFormed ∧ (a.valueAt 1).isInvalid = false) ∧
    (a.unite b).valueAt 1 == (a.valueAt 1).unite (b.valueAt 1) ∧
    (uniteAll [.void, a, b]).valueAt 1 == uniteAll ([.void, a, b].map (valueAt 1)) := by
  intro a b
  have ha : a.WellFormed := by
    simp [a, WellFormed, WellFormedList, named, kind, isInvalid]
    rfl
  have hb : b.WellFormed := by
    simp [b, WellFormed, WellFormedList, kind, isInvalid]
    rfl
  have hvalid : (a.valueAt 1).isInvalid = false := rfl
  obtain ⟨hpair, hlist⟩ := narrowing_commutes_with_union 1
  refine ⟨⟨ha, hb, hvalid⟩, hpair a b ha hb (.inl hvalid), hlist _ ?_ ⟨a, by simp, hvalid⟩⟩
  exact List.forall_mem_cons.2
    ⟨trivial, List.forall_mem_cons.2 ⟨ha, List.forall_mem_singleton.2 hb⟩⟩

end Ty

end LuaTypes
