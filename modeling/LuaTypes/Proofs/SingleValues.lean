import LuaTypes.Proofs.WellFormedTypes

namespace LuaTypes

def Distinct (types : List Ty) : Prop :=
  types.Pairwise fun a b => (a == b) = false

/-- A type that a union keeps as a member. -/
def Ty.IsPlain (t : Ty) : Prop :=
  t.kind ≠ .union ∧ t.isInvalid = false

namespace UnionBuilder

theorem add_plain (b : UnionBuilder) {t : Ty} (h : t.IsPlain) : b.add t = b.insert t := by
  unfold add
  split
  next => exact absurd rfl h.1
  next => rw [if_neg (by simp [h.2])]

theorem insert_of_distinct {members : List Ty} {t : Ty} (h : Distinct (members ++ [t])) :
    insert { members } t = { members := members ++ [t] } := by
  have hnew : ∀ m ∈ members, (m == t) = false := by
    simpa using (List.pairwise_append.1 h).2.2
  rw [insert, if_neg (by simpa using hnew)]

theorem foldl_insert_of_distinct {members more : List Ty} (h : Distinct (members ++ more)) :
    more.foldl insert { members } = { members := members ++ more } := by
  induction more generalizing members with
  | nil => rw [List.append_nil]; rfl
  | cons t more ih =>
      rw [← List.singleton_append, ← List.append_assoc] at h
      rw [List.foldl_cons, insert_of_distinct (List.pairwise_append.1 h).1, ih h,
        List.append_assoc, List.singleton_append]

theorem build_of_two_le {members : List Ty} (h : 2 ≤ members.length) :
    build { members } = .union members := by
  match members with
  | _ :: _ :: _ => rfl

end UnionBuilder

namespace Ty

variable {members more : List Ty} {a b t : Ty}

theorem unite_of_plain (ha : a.isInvalid = false) (hb : b.IsPlain) :
    a.unite b = (((({} : UnionBuilder).add a).insert b)).build := by
  rw [unite, if_neg (by simp [ha]), if_neg (by simp [hb.2]), if_neg fun h => hb.1 h.1,
    UnionBuilder.add_plain _ hb]

theorem unite_plain (ha : a.IsPlain) (hb : b.IsPlain) (hdistinct : Distinct [a, b]) :
    a.unite b = .union [a, b] := by
  have hfirst : ({} : UnionBuilder).insert a = { members := [a] } := rfl
  rw [unite_of_plain ha.2 hb, UnionBuilder.add_plain _ ha, hfirst,
    UnionBuilder.insert_of_distinct hdistinct]
  rfl

theorem unite_union (htwo : 2 ≤ members.length) (ht : t.IsPlain)
    (hdistinct : Distinct (members ++ [t])) :
    (union members).unite t = .union (members ++ [t]) := by
  have hadd : ({} : UnionBuilder).add (union members) = { members } :=
    UnionBuilder.foldl_insert_of_distinct (List.pairwise_append.1 hdistinct).1
  rw [unite_of_plain rfl ht, hadd, UnionBuilder.insert_of_distinct hdistinct]
  refine UnionBuilder.build_of_two_le ?_
  rw [List.length_append]
  omega

theorem foldl_unite_union (htwo : 2 ≤ members.length) (hmore : ∀ t ∈ more, t.IsPlain)
    (hdistinct : Distinct (members ++ more)) :
    more.foldl unite (union members) = .union (members ++ more) := by
  induction more generalizing members with
  | nil => rw [List.append_nil]; rfl
  | cons t more ih =>
      obtain ⟨ht, hmore⟩ := List.forall_mem_cons.1 hmore
      rw [← List.singleton_append, ← List.append_assoc] at hdistinct
      have hlength : 2 ≤ (members ++ [t]).length := by
        rw [List.length_append]
        omega
      rw [List.foldl_cons, unite_union htwo ht (List.pairwise_append.1 hdistinct).1,
        ih hlength hmore hdistinct, List.append_assoc, List.singleton_append]

theorem uniteAll_members (h : (union members).WellFormed) : uniteAll members = .union members := by
  obtain ⟨htwo, hdistinct, hplain, -⟩ := h
  match members with
  | a :: b :: more =>
      have ha := hplain a (by simp)
      have hb := hplain b (by simp)
      have hmore : ∀ t ∈ more, t.IsPlain := fun t ht => hplain t (by simp [ht])
      have hpair : Distinct [a, b] := hdistinct.sublist (by simp)
      change more.foldl unite (a.unite b) = _
      rw [unite_plain ha hb hpair]
      exact foldl_unite_union (Nat.le_refl 2) hmore hdistinct

/-- One value whatever the case, and something is known of it. -/
def IsOneValue (t : Ty) : Prop :=
  ∀ m ∈ t.members, m.kind ≠ .tuple ∧ m.kind ≠ .void ∧ m.kind ≠ .unknown

instance (t : Ty) : Decidable t.IsOneValue :=
  inferInstanceAs (Decidable (∀ m ∈ t.members, _))

theorem valueAt_zero_of_plain (h : t.kind ≠ .union) (hone : t.IsOneValue) : t.valueAt 0 = t := by
  cases t with
  | union members => exact absurd rfl h
  | tuple members => exact absurd rfl (hone _ List.mem_cons_self).1
  | void => exact absurd rfl (hone _ List.mem_cons_self).2.1
  | _ => rfl

theorem valueAt_of_plain (h : t.kind ≠ .union) (hone : t.IsOneValue) {position : Nat}
    (hpos : 0 < position) : t.valueAt position = .nil := by
  cases t with
  | union members => exact absurd rfl h
  | tuple members => exact absurd rfl (hone _ List.mem_cons_self).1
  | void => rfl
  | unknown => exact absurd rfl (hone _ List.mem_cons_self).2.2
  | nil => rfl
  | _ => exact if_neg (Nat.ne_of_gt hpos)

theorem IsOneValue.of_mem (hone : (union members).IsOneValue) (h : (union members).WellFormed)
    {m : Ty} (hm : m ∈ members) : m.kind ≠ .union ∧ m.IsOneValue := by
  have hkind := (h.2.2.1 m hm).1
  refine ⟨hkind, ?_⟩
  cases m with
  | union inner => exact absurd rfl hkind
  | _ => simpa [IsOneValue, Ty.members] using hone _ hm

theorem valueAt_zero_of_isOneValue (h : t.WellFormed) (hone : t.IsOneValue) :
    t.valueAt 0 = t := by
  cases t with
  | union members =>
      have hmembers : valuesAt 0 members = members := by
        rw [valuesAt_eq_map]
        refine (List.map_congr_left fun m hm => ?_).trans (List.map_id members)
        obtain ⟨hkind, hm⟩ := hone.of_mem h hm
        exact valueAt_zero_of_plain hkind hm
      rw [valueAt, hmembers, uniteAll_members h]
  | _ => exact valueAt_zero_of_plain (by simp [kind]) hone

theorem foldl_unite_replicate_nil (n : Nat) : (List.replicate n nil).foldl unite nil = nil := by
  induction n with
  | zero => rfl
  | succ n ih => exact ih

theorem valueAt_of_isOneValue (h : t.WellFormed) (hone : t.IsOneValue) {position : Nat}
    (hpos : 0 < position) : t.valueAt position = .nil := by
  cases t with
  | union members =>
      obtain ⟨n, hn⟩ : ∃ n, members.length = n + 1 := ⟨members.length - 1, by have := h.1; omega⟩
      have hmembers : valuesAt position members = List.replicate (n + 1) nil := by
        rw [valuesAt_eq_map, ← hn]
        refine List.map_eq_replicate_iff.2 fun m hm => ?_
        obtain ⟨hkind, hm⟩ := hone.of_mem h hm
        exact valueAt_of_plain hkind hm hpos
      rw [valueAt, hmembers]
      exact foldl_unite_replicate_nil n
  | _ => exact valueAt_of_plain (by simp [kind]) hone hpos

end Ty

end LuaTypes
