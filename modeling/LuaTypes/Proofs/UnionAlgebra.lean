import LuaTypes.Proofs.SingleValues
import LuaTypes.Proofs.TypeEquality

/-!
The algebra of unions. A type takes part in a union with those of its members that have a value, and
the union holds each of these once. Two types with a value are the same exactly when these members
are the same set, so that the laws of sets are laws of unions; only among types without a value does
the right operand win.
-/

namespace LuaTypes

namespace Ty

/-- The members that a union takes over from a type: those with a value. -/
def keptMembers (t : Ty) : List Ty :=
  t.members.filter fun m => !m.isInvalid

/-- Each of the types has an equal among the members. -/
def Covers (members types : List Ty) : Prop :=
  ∀ t ∈ types, ∃ m ∈ members, m == t

/-- Some of the types, with an equal for each of them. -/
structure Collects (members types : List Ty) : Prop where
  taken : ∀ m ∈ members, m ∈ types
  covers : Covers members types

/-- The same types, in any order and number. -/
def SameSet (as bs : List Ty) : Prop :=
  Covers as bs ∧ Covers bs as

section Sets

variable {as bs cs as' bs' : List Ty}

theorem Covers.refl (as : List Ty) : Covers as as :=
  fun a ha => ⟨a, ha, a.beq_refl⟩

theorem Covers.trans (h : Covers as bs) (h' : Covers bs cs) : Covers as cs := by
  intro c hc
  obtain ⟨b, hb, hbc⟩ := h' c hc
  obtain ⟨a, ha, hab⟩ := h b hb
  exact ⟨a, ha, beq_trans hab hbc⟩

theorem Covers.of_subset (h : ∀ b ∈ bs, b ∈ as) : Covers as bs :=
  fun b hb => ⟨b, h b hb, b.beq_refl⟩

theorem Covers.append (h : Covers as bs) (h' : Covers as' bs') :
    Covers (as ++ as') (bs ++ bs') := by
  intro b hb
  rcases List.mem_append.1 hb with hleft | hright
  · obtain ⟨a, ha, hab⟩ := h b hleft
    exact ⟨a, List.mem_append_left as' ha, hab⟩
  · obtain ⟨a, ha, hab⟩ := h' b hright
    exact ⟨a, List.mem_append_right as ha, hab⟩

theorem Collects.refl (as : List Ty) : Collects as as :=
  ⟨fun _ ha => ha, .refl as⟩

theorem Collects.trans (h : Collects as bs) (h' : Collects bs cs) : Collects as cs :=
  ⟨fun a ha => h'.taken a (h.taken a ha), h.covers.trans h'.covers⟩

theorem Collects.append_right (h : Collects as bs) (cs : List Ty) :
    Collects (as ++ cs) (bs ++ cs) := by
  refine ⟨fun m hm => ?_, h.covers.append (.refl cs)⟩
  rcases List.mem_append.1 hm with ha | hc
  · exact List.mem_append_left cs (h.taken m ha)
  · exact List.mem_append_right bs hc

theorem Collects.of_perm (h : Collects as bs) (hperm : bs.Perm cs) : Collects as cs :=
  h.trans ⟨fun _ hb => hperm.mem_iff.1 hb, .of_subset fun _ hc => hperm.mem_iff.2 hc⟩

theorem Collects.sameSet (h : Collects as bs) : SameSet as bs :=
  ⟨h.covers, .of_subset h.taken⟩

theorem SameSet.refl (as : List Ty) : SameSet as as :=
  ⟨.refl as, .refl as⟩

theorem SameSet.symm (h : SameSet as bs) : SameSet bs as :=
  ⟨h.2, h.1⟩

theorem SameSet.trans (h : SameSet as bs) (h' : SameSet bs cs) : SameSet as cs :=
  ⟨h.1.trans h'.1, h'.2.trans h.2⟩

theorem SameSet.append (h : SameSet as bs) (h' : SameSet as' bs') :
    SameSet (as ++ as') (bs ++ bs') :=
  ⟨h.1.append h'.1, h.2.append h'.2⟩

theorem SameSet.of_mem_iff (h : ∀ t, t ∈ as ↔ t ∈ bs) : SameSet as bs :=
  ⟨.of_subset fun t => (h t).2, .of_subset fun t => (h t).1⟩

theorem SameSet.flatMap {f g : Ty → List Ty} (h : ∀ b ∈ bs, ∃ a ∈ as, SameSet (f a) (g b))
    (h' : ∀ a ∈ as, ∃ b ∈ bs, SameSet (f a) (g b)) : SameSet (as.flatMap f) (bs.flatMap g) := by
  constructor
  · intro t ht
    obtain ⟨b, hb, ht⟩ := List.mem_flatMap.1 ht
    obtain ⟨a, ha, hsame⟩ := h b hb
    obtain ⟨u, hu, hut⟩ := hsame.1 t ht
    exact ⟨u, List.mem_flatMap.2 ⟨a, ha, hu⟩, hut⟩
  · intro t ht
    obtain ⟨a, ha, ht⟩ := List.mem_flatMap.1 ht
    obtain ⟨b, hb, hsame⟩ := h' a ha
    obtain ⟨u, hu, hut⟩ := hsame.2 t ht
    exact ⟨u, List.mem_flatMap.2 ⟨b, hb, hu⟩, hut⟩

theorem SameSet.eq_nil_iff (h : SameSet as bs) : as = [] ↔ bs = [] := by
  constructor
  · rintro rfl
    refine List.eq_nil_iff_forall_not_mem.2 fun b hb => ?_
    obtain ⟨a, ha, -⟩ := h.1 b hb
    cases ha
  · rintro rfl
    refine List.eq_nil_iff_forall_not_mem.2 fun a ha => ?_
    obtain ⟨b, hb, -⟩ := h.2 a ha
    cases hb

/-- Types no two of which are the same are no more than those that cover them. -/
theorem Covers.length_le (h : Covers bs as) (hdistinct : Distinct as)
    (has : ∀ a ∈ as, a.WellFormed) (hbs : ∀ b ∈ bs, b.WellFormed) : as.length ≤ bs.length := by
  have hpairwise : as.Pairwise fun a a' => ¬ (a == a') :=
    List.Pairwise.imp (fun hne => by simpa using hne) hdistinct
  refine length_le_of_relatives hpairwise (fun a ha => ?_) ?_
  · obtain ⟨b, hb, hba⟩ := h a ha
    exact ⟨b, hb, beq_symm (hbs b hb) (has a ha) hba⟩
  · intro a ha a' ha' b hb hab hab'
    exact beq_trans hab (beq_symm (has a' ha') (hbs b hb) hab')

end Sets

end Ty

namespace UnionBuilder

theorem collects_insert (b : UnionBuilder) (t : Ty) :
    Ty.Collects (b.insert t).members (b.members ++ [t]) := by
  unfold insert
  split
  next hfound =>
    refine ⟨fun m hm => List.mem_append_left [t] hm, fun u hu => ?_⟩
    rcases List.mem_append.1 hu with hold | hnew
    · exact ⟨u, hold, u.beq_refl⟩
    · rw [List.mem_singleton.1 hnew]
      simpa using hfound
  next => exact .refl _

theorem collects_foldl_insert (types : List Ty) (b : UnionBuilder) :
    Ty.Collects (types.foldl insert b).members (b.members ++ types) := by
  induction types generalizing b with
  | nil => simpa using Ty.Collects.refl b.members
  | cons t types ih =>
      have hfirst := (b.collects_insert t).append_right types
      rw [List.append_assoc, List.singleton_append] at hfirst
      exact (ih (b.insert t)).trans hfirst

end UnionBuilder

namespace Ty

variable {a b c t : Ty}

theorem invalid_or_plain_or_union (t : Ty) :
    t.isInvalid = true ∨ t.IsPlain ∨ ∃ members, t = union members := by
  cases t with
  | unknown | nil | void => exact .inl rfl
  | union members => exact .inr (.inr ⟨members, rfl⟩)
  | _ => exact .inr (.inl ⟨by simp [kind], rfl⟩)

theorem plain_or_union (hvalid : t.isInvalid = false) :
    t.IsPlain ∨ ∃ members, t = union members :=
  t.invalid_or_plain_or_union.resolve_left (by simp [hvalid])

theorem keptMembers_of_isInvalid (h : t.isInvalid = true) : t.keptMembers = [] := by
  cases t with
  | unknown | nil | void => rfl
  | _ => cases h

theorem keptMembers_of_isPlain (h : t.IsPlain) : t.keptMembers = [t] := by
  have hmembers : t.members = [t] := by
    cases t with
    | union members => exact absurd rfl h.1
    | _ => rfl
  rw [keptMembers, hmembers, List.filter_cons_of_pos (by simp [h.2]), List.filter_nil]

theorem keptMembers_union {members : List Ty} (h : (union members).WellFormed) :
    (union members).keptMembers = members :=
  List.filter_eq_self.2 fun m hm => by simp [(h.2.2.1 m hm).2]

theorem keptMembers_eq_nil_iff (h : t.WellFormed) : t.keptMembers = [] ↔ t.isInvalid = true := by
  refine ⟨fun hnil => ?_, keptMembers_of_isInvalid⟩
  rcases t.invalid_or_plain_or_union with hinvalid | hplain | ⟨members, rfl⟩
  · exact hinvalid
  · rw [keptMembers_of_isPlain hplain] at hnil
    cases hnil
  · rw [keptMembers_union h] at hnil
    have htwo := h.1
    rw [hnil] at htwo
    simp at htwo

theorem wellFormed_keptMembers (h : t.WellFormed) : ∀ m ∈ t.keptMembers, m.WellFormed :=
  fun m hm => wellFormed_members h m (List.mem_filter.1 hm).1

theorem isPlain_of_mem_keptMembers (h : t.WellFormed) : ∀ m ∈ t.keptMembers, m.IsPlain := by
  intro m hm
  rcases t.invalid_or_plain_or_union with hinvalid | hplain | ⟨members, rfl⟩
  · rw [keptMembers_of_isInvalid hinvalid] at hm
    cases hm
  · rw [keptMembers_of_isPlain hplain] at hm
    exact List.mem_singleton.1 hm ▸ hplain
  · rw [keptMembers_union h] at hm
    exact h.2.2.1 m hm

theorem distinct_keptMembers (h : t.WellFormed) : Distinct t.keptMembers := by
  rcases t.invalid_or_plain_or_union with hinvalid | hplain | ⟨members, rfl⟩
  · rw [keptMembers_of_isInvalid hinvalid]
    exact .nil
  · rw [keptMembers_of_isPlain hplain]
    exact List.pairwise_singleton _ t
  · rw [keptMembers_union h]
    exact h.2.1

theorem mem_keptMembers_iff {m : Ty} :
    m ∈ t.keptMembers ↔ m ∈ t.members ∧ m.isInvalid = false := by
  simp [keptMembers]

theorem keptMembers_of_valid (h : t.WellFormed) (hvalid : t.isInvalid = false) :
    t.keptMembers = t.members := by
  rcases plain_or_union hvalid with hplain | ⟨members, rfl⟩
  · rw [keptMembers_of_isPlain hplain]
    cases t with
    | union members => exact absurd rfl hplain.1
    | _ => rfl
  · exact keptMembers_union h

theorem keptMembers_build {b : UnionBuilder} (h : b.WellFormed) :
    b.build.keptMembers = b.members := by
  have hwf := h.build
  match hmembers : b.members with
  | [] => rw [UnionBuilder.build, hmembers]; rfl
  | [t] =>
      have hplain : t.IsPlain := h.plain t (by simp [hmembers])
      rw [UnionBuilder.build, hmembers]
      exact keptMembers_of_isPlain hplain
  | t :: u :: rest =>
      rw [UnionBuilder.build, hmembers] at hwf ⊢
      exact keptMembers_union hwf

theorem add_eq_foldl_insert (builder : UnionBuilder) (h : t.WellFormed) :
    builder.add t = t.keptMembers.foldl UnionBuilder.insert builder := by
  rcases t.invalid_or_plain_or_union with hinvalid | hplain | ⟨members, rfl⟩
  · rw [keptMembers_of_isInvalid hinvalid, UnionBuilder.add.eq_def]
    cases t with
    | unknown | nil | void => rfl
    | _ => cases hinvalid
  · rw [keptMembers_of_isPlain hplain, UnionBuilder.add_plain _ hplain]
    rfl
  · rw [keptMembers_union h]
    rfl

theorem collects_build_add (ha : a.WellFormed) (hb : b.WellFormed) :
    Collects (({} : UnionBuilder).add a |>.add b).build.keptMembers
      (a.keptMembers ++ b.keptMembers) := by
  rw [keptMembers_build (UnionBuilder.WellFormed.empty.add ha |>.add hb), add_eq_foldl_insert _ hb,
    add_eq_foldl_insert _ ha, ← List.foldl_append]
  exact UnionBuilder.collects_foldl_insert _ {}

/-- A union holds the members with a value of both types. -/
theorem collects_unite (ha : a.WellFormed) (hb : b.WellFormed) :
    Collects (a.unite b).keptMembers (a.keptMembers ++ b.keptMembers) := by
  unfold unite
  split
  next hinvalid =>
    rw [keptMembers_of_isInvalid hinvalid]
    exact .refl _
  next =>
    split
    next hinvalid =>
      rw [keptMembers_of_isInvalid hinvalid, List.append_nil]
      exact .refl _
    next =>
      split
      next => exact (collects_build_add hb ha).of_perm List.perm_append_comm
      next => exact collects_build_add ha hb

theorem isInvalid_eq_of_sameSet (ha : a.WellFormed) (hb : b.WellFormed)
    (h : SameSet a.keptMembers b.keptMembers) : a.isInvalid = b.isInvalid := by
  rw [Bool.eq_iff_iff, ← keptMembers_eq_nil_iff ha, ← keptMembers_eq_nil_iff hb]
  exact h.eq_nil_iff

theorem isInvalid_unite (ha : a.WellFormed) (hb : b.WellFormed) :
    (a.unite b).isInvalid = (a.isInvalid && b.isInvalid) := by
  have hnil := (collects_unite ha hb).sameSet.eq_nil_iff
  rw [keptMembers_eq_nil_iff (wellFormed_unite ha hb), List.append_eq_nil_iff,
    keptMembers_eq_nil_iff ha, keptMembers_eq_nil_iff hb] at hnil
  rw [Bool.eq_iff_iff, Bool.and_eq_true]
  exact hnil

theorem collects_uniteAll {types : List Ty} (h : ∀ t ∈ types, t.WellFormed) :
    Collects (uniteAll types).keptMembers (types.flatMap keptMembers) := by
  suffices ∀ first : Ty, first.WellFormed → Collects (types.foldl unite first).keptMembers
      (first.keptMembers ++ types.flatMap keptMembers) from this .unknown trivial
  induction types with
  | nil =>
      intro first _
      rw [List.flatMap_nil, List.append_nil]
      exact .refl _
  | cons t types ih =>
      intro first hfirst
      obtain ⟨ht, htypes⟩ := List.forall_mem_cons.1 h
      have hunited := (collects_unite hfirst ht).append_right (types.flatMap keptMembers)
      rw [List.append_assoc, ← List.flatMap_cons] at hunited
      exact (ih htypes (first.unite t) (wellFormed_unite hfirst ht)).trans hunited

theorem isInvalid_uniteAll_of_mem {types : List Ty} (h : ∀ t ∈ types, t.WellFormed)
    (ht : t ∈ types) (hvalid : t.isInvalid = false) : (uniteAll types).isInvalid = false := by
  rw [← Bool.not_eq_true, ← keptMembers_eq_nil_iff (wellFormed_uniteAll h),
    (collects_uniteAll h).sameSet.eq_nil_iff, List.flatMap_eq_nil_iff]
  intro hnil
  have hinvalid := hnil t ht
  rw [keptMembers_eq_nil_iff (h t ht), hvalid] at hinvalid
  cases hinvalid

theorem unite_of_isInvalid (ha : a.isInvalid = true) : a.unite b = b := by
  rw [unite, if_pos ha]

theorem sameSet_of_beq (ha : a.WellFormed) (hb : b.WellFormed) (h : a == b) :
    SameSet a.keptMembers b.keptMembers := by
  have hinvalid := isInvalid_eq_of_beq h
  have hkind := kind_eq_of_beq h
  rcases a.invalid_or_plain_or_union with ha' | ha' | ⟨as, rfl⟩
  · obtain rfl := (beq_iff_eq_of_isInvalid ha').1 h
    exact .refl _
  · have hb' : b.IsPlain := ⟨hkind ▸ ha'.1, hinvalid ▸ ha'.2⟩
    rw [keptMembers_of_isPlain ha', keptMembers_of_isPlain hb']
    exact ⟨by simpa [Covers] using h, by simpa [Covers] using beq_symm ha hb h⟩
  · obtain ⟨bs, rfl, -, hwithin⟩ := union_beq_iff.1 h
    obtain ⟨as', heq, -, hwithin'⟩ := union_beq_iff.1 (beq_symm ha hb h)
    cases heq
    rw [keptMembers_union ha, keptMembers_union hb]
    have has := (wellFormedList_iff as).1 ha.2.2.2
    have hbs := (wellFormedList_iff bs).1 hb.2.2.2
    constructor
    · intro y hy
      obtain ⟨x, hx, hyx⟩ := hwithin' y hy
      exact ⟨x, hx, beq_symm (hbs y hy) (has x hx) hyx⟩
    · intro x hx
      obtain ⟨y, hy, hxy⟩ := hwithin x hx
      exact ⟨y, hy, beq_symm (has x hx) (hbs y hy) hxy⟩

/-- Types with a value are the same if their members are. -/
theorem beq_of_sameSet (ha : a.WellFormed) (hb : b.WellFormed) (hvalid : a.isInvalid = false)
    (hvalid' : b.isInvalid = false) (h : SameSet a.keptMembers b.keptMembers) : a == b := by
  have has := wellFormed_keptMembers ha
  have hbs := wellFormed_keptMembers hb
  have hlength : a.keptMembers.length = b.keptMembers.length :=
    Nat.le_antisymm (h.2.length_le (distinct_keptMembers ha) has hbs)
      (h.1.length_le (distinct_keptMembers hb) hbs has)
  rcases plain_or_union hvalid with ha' | ⟨as, rfl⟩
  · rcases plain_or_union hvalid' with hb' | ⟨bs, rfl⟩
    · rw [keptMembers_of_isPlain ha', keptMembers_of_isPlain hb'] at h
      simpa [Covers] using h.1
    · rw [keptMembers_of_isPlain ha', keptMembers_union hb] at hlength
      have htwo := hb.1
      simp at hlength
      omega
  · rcases plain_or_union hvalid' with hb' | ⟨bs, rfl⟩
    · rw [keptMembers_of_isPlain hb', keptMembers_union ha] at hlength
      have htwo := ha.1
      simp at hlength
      omega
    · rw [keptMembers_union ha, keptMembers_union hb] at h hlength
      rw [keptMembers_union ha] at has
      rw [keptMembers_union hb] at hbs
      refine union_beq_iff.2 ⟨bs, rfl, hlength, fun x hx => ?_⟩
      obtain ⟨y, hy, hyx⟩ := h.2 x hx
      exact ⟨y, hy, beq_symm (hbs y hy) (has x hx) hyx⟩

theorem unite_assoc (ha : a.WellFormed) (hb : b.WellFormed) (hc : c.WellFormed) :
    (a.unite b).unite c == a.unite (b.unite c) := by
  have hab := wellFormed_unite ha hb
  have hbc := wellFormed_unite hb hc
  cases hinvalid : a.isInvalid && b.isInvalid && c.isInvalid with
  | true =>
      simp only [Bool.and_eq_true] at hinvalid
      rw [unite_of_isInvalid hinvalid.1.1, unite_of_isInvalid hinvalid.1.2,
        unite_of_isInvalid hinvalid.1.1]
      exact c.beq_refl
  | false =>
      refine beq_of_sameSet (wellFormed_unite hab hc) (wellFormed_unite ha hbc) ?_ ?_ ?_
      · rw [isInvalid_unite hab hc, isInvalid_unite ha hb, hinvalid]
      · rw [isInvalid_unite ha hbc, isInvalid_unite hb hc, ← Bool.and_assoc, hinvalid]
      · have hleft := (collects_unite hab hc).sameSet.trans
          ((collects_unite ha hb).sameSet.append (.refl c.keptMembers))
        have hright := (collects_unite ha hbc).sameSet.trans
          ((SameSet.refl a.keptMembers).append (collects_unite hb hc).sameSet)
        rw [List.append_assoc] at hleft
        exact hleft.trans hright.symm

theorem unite_comm (ha : a.WellFormed) (hb : b.WellFormed)
    (h : a.isInvalid = false ∨ b.isInvalid = false) : a.unite b == b.unite a := by
  have hvalid : (a.isInvalid && b.isInvalid) = false := by
    rcases h with h | h <;> simp [h]
  refine beq_of_sameSet (wellFormed_unite ha hb) (wellFormed_unite hb ha) ?_ ?_ ?_
  · rw [isInvalid_unite ha hb, hvalid]
  · rw [isInvalid_unite hb ha, Bool.and_comm, hvalid]
  · have hleft := (collects_unite ha hb).sameSet
    have hright := (collects_unite hb ha).sameSet
    refine hleft.trans (SameSet.trans ?_ hright.symm)
    exact .of_mem_iff fun t => List.perm_append_comm.mem_iff

theorem unite_self (ha : a.WellFormed) : a.unite a == a := by
  cases hinvalid : a.isInvalid with
  | true =>
      rw [unite_of_isInvalid hinvalid]
      exact a.beq_refl
  | false =>
      refine beq_of_sameSet (wellFormed_unite ha ha) ha ?_ hinvalid ?_
      · rw [isInvalid_unite ha ha, hinvalid, Bool.and_false]
      · exact (collects_unite ha ha).sameSet.trans (.of_mem_iff fun t => by simp)

theorem unite_congr {a' b' : Ty} (ha : a.WellFormed) (hb : b.WellFormed) (ha' : a'.WellFormed)
    (hb' : b'.WellFormed) (haa : a == a') (hbb : b == b') : a.unite b == a'.unite b' := by
  have hvalid := isInvalid_unite ha hb
  have hvalid' := isInvalid_unite ha' hb'
  rw [← isInvalid_eq_of_beq haa, ← isInvalid_eq_of_beq hbb] at hvalid'
  cases hinvalid : a.isInvalid && b.isInvalid with
  | true =>
      rw [Bool.and_eq_true] at hinvalid
      rw [unite_of_isInvalid hinvalid.1, unite_of_isInvalid (isInvalid_eq_of_beq haa ▸ hinvalid.1)]
      exact hbb
  | false =>
      refine beq_of_sameSet (wellFormed_unite ha hb) (wellFormed_unite ha' hb')
        (hvalid.trans hinvalid) (hvalid'.trans hinvalid) ?_
      have hsets := (sameSet_of_beq ha ha' haa).append (sameSet_of_beq hb hb' hbb)
      exact (collects_unite ha hb).sameSet.trans
        (hsets.trans (collects_unite ha' hb').sameSet.symm)

theorem unite_of_beq (ha : a.WellFormed) (hb : b.WellFormed) (h : a == b) : a.unite b == b :=
  beq_trans (unite_congr ha hb hb hb h b.beq_refl) (unite_self hb)

theorem uniteAll_congr {as bs : List Ty} (h : List.Forall₂ (fun a b => a == b) as bs)
    (has : ∀ a ∈ as, a.WellFormed) (hbs : ∀ b ∈ bs, b.WellFormed) : uniteAll as == uniteAll bs := by
  suffices ∀ a b : Ty, a.WellFormed → b.WellFormed → a == b →
      as.foldl unite a == bs.foldl unite b from this .unknown .unknown trivial trivial rfl
  induction h with
  | nil => exact fun a b _ _ hab => hab
  | @cons x y as bs hxy _ ih =>
      intro a b ha hb hab
      obtain ⟨hx, has⟩ := List.forall_mem_cons.1 has
      obtain ⟨hy, hbs⟩ := List.forall_mem_cons.1 hbs
      exact ih has hbs (a.unite x) (b.unite y) (wellFormed_unite ha hx) (wellFormed_unite hb hy)
        (unite_congr ha hx hb hy hab hxy)

theorem uniteAll_beq_of_sameSet {as bs : List Ty} (has : ∀ a ∈ as, a.WellFormed)
    (hbs : ∀ b ∈ bs, b.WellFormed) (hvalid : ∃ a ∈ as, a.isInvalid = false)
    (h : SameSet (as.flatMap keptMembers) (bs.flatMap keptMembers)) :
    uniteAll as == uniteAll bs := by
  obtain ⟨a, ha, havalid⟩ := hvalid
  have hleft := isInvalid_uniteAll_of_mem has ha havalid
  have hkept := (collects_uniteAll has).sameSet.trans
    (h.trans (collects_uniteAll hbs).sameSet.symm)
  have hsame := isInvalid_eq_of_sameSet (wellFormed_uniteAll has) (wellFormed_uniteAll hbs) hkept
  exact beq_of_sameSet (wellFormed_uniteAll has) (wellFormed_uniteAll hbs) hleft
    (hsame ▸ hleft) hkept

theorem countP_eq_one {members : List Ty} (hdistinct : Distinct members)
    (hmembers : ∀ m ∈ members, m.WellFormed) (ht : t.WellFormed)
    (hcovered : ∃ m ∈ members, m == t) : members.countP (· == t) = 1 := by
  obtain ⟨m, hm, hmt⟩ := hcovered
  obtain ⟨before, after, rfl⟩ := List.append_of_mem hm
  have hother : ∀ m' ∈ before ++ after, ¬ (m' == t) := by
    intro m' hm' hm't
    have hwf' : m'.WellFormed := hmembers m' (by simp at hm' ⊢; tauto)
    obtain ⟨-, hafter, hbefore⟩ := List.pairwise_append.1 hdistinct
    rcases List.mem_append.1 hm' with hm' | hm'
    · have hsame := beq_trans hm't (beq_symm (hmembers m hm) ht hmt)
      simp [hbefore m' hm' m List.mem_cons_self] at hsame
    · have hsame := beq_trans hmt (beq_symm hwf' ht hm't)
      simp [(List.pairwise_cons.1 hafter).1 m' hm'] at hsame
  have hzero : (before ++ after).countP (· == t) = 0 := List.countP_eq_zero.2 hother
  have hone : (m :: after).countP (· == t) = after.countP (· == t) + 1 :=
    List.countP_cons_of_pos hmt
  rw [List.countP_append] at hzero ⊢
  omega

theorem members_unite (ha : a.WellFormed) (hb : b.WellFormed)
    (h : a.isInvalid = false ∨ b.isInvalid = false) :
    (∀ m ∈ (a.unite b).members, m.isInvalid = false ∧ (m ∈ a.members ∨ m ∈ b.members)) ∧
      ∀ m, m.isInvalid = false → m ∈ a.members ∨ m ∈ b.members →
        (a.unite b).members.countP (· == m) = 1 := by
  have hab := wellFormed_unite ha hb
  have hvalid : (a.unite b).isInvalid = false := by
    rw [isInvalid_unite ha hb]
    rcases h with h | h <;> simp [h]
  have hcollects := collects_unite ha hb
  rw [← keptMembers_of_valid hab hvalid]
  constructor
  · intro m hm
    refine ⟨(mem_keptMembers_iff.1 hm).2, ?_⟩
    rcases List.mem_append.1 (hcollects.taken m hm) with hleft | hright
    · exact .inl (mem_keptMembers_iff.1 hleft).1
    · exact .inr (mem_keptMembers_iff.1 hright).1
  · intro m hm hmember
    have hkept : m ∈ a.keptMembers ++ b.keptMembers := by
      simpa [mem_keptMembers_iff, hm] using hmember
    have hwf : m.WellFormed := by
      rcases hmember with hleft | hright
      · exact wellFormed_members ha m hleft
      · exact wellFormed_members hb m hright
    exact countP_eq_one (distinct_keptMembers hab) (wellFormed_keptMembers hab) hwf
      (hcollects.covers m hkept)

/-- Up to equality of types, union is associative, idempotent, compatible with equality, and
commutative unless neither side has a value. Unless that is so, its members are the members with a
value of both sides, each once. -/
theorem union_algebra (a b c a' b' : Ty) (ha : a.WellFormed) (hb : b.WellFormed)
    (hc : c.WellFormed) (ha' : a'.WellFormed) (hb' : b'.WellFormed) :
    (a.unite b).unite c == a.unite (b.unite c) ∧
      (a.isInvalid = false ∨ b.isInvalid = false → a.unite b == b.unite a) ∧
      a.unite a == a ∧
      (a == a' → b == b' → a.unite b == a'.unite b') ∧
      (a.isInvalid = false ∨ b.isInvalid = false →
        (∀ m ∈ (a.unite b).members, m.isInvalid = false ∧ (m ∈ a.members ∨ m ∈ b.members)) ∧
          ∀ m, m.isInvalid = false → m ∈ a.members ∨ m ∈ b.members →
            (a.unite b).members.countP (· == m) = 1) :=
  ⟨unite_assoc ha hb hc, unite_comm ha hb, unite_self ha, unite_congr ha hb ha' hb',
    members_unite ha hb⟩

theorem union_algebra_of_equal_unions :
    (named "A").WellFormed ∧ (union [named "B", array nil]).WellFormed ∧
      (union [array nil, named "B"]).WellFormed ∧
      (union [named "B", array nil]).isInvalid = false ∧
      (named "A").unite (union [named "B", array nil]) ==
        (named "A").unite (union [array nil, named "B"]) ∧
      ((named "A").unite (union [named "B", array nil])).members.countP (· == named "B") = 1 := by
  have hu : (union [named "B", array nil]).WellFormed := by
    simp [WellFormed, WellFormedList, named, kind, isInvalid]
    rfl
  have hu' : (union [array nil, named "B"]).WellFormed := by
    simp [WellFormed, WellFormedList, named, kind, isInvalid]
    rfl
  have halgebra := union_algebra (named "A") (union [named "B", array nil]) nil (named "A")
    (union [array nil, named "B"]) trivial hu trivial trivial hu'
  refine ⟨trivial, hu, hu', rfl, halgebra.2.2.2.1 (by decide) (by decide), ?_⟩
  exact (halgebra.2.2.2.2 (.inl rfl)).2 (named "B") rfl (.inr (by simp [members]))

end Ty

end LuaTypes
