import LuaTypes.Ty.Union

/-!
Well-formed types: at every depth a union has at least two members, no two of them the same type,
none a union and none without a value, and a tuple has at least two members. Unions and lists of
values built from well-formed types are well formed.
-/

namespace LuaTypes

mutual

/-- Unions and tuples are as their constructions leave them, at every depth. -/
def Ty.WellFormed : Ty → Prop
  | .array element => element.WellFormed
  | .function ⟨params, returns, varargs, _, _⟩ =>
      Ty.WellFormedParams params ∧ returns.WellFormed ∧ Ty.WellFormedOption varargs
  | .union members =>
      2 ≤ members.length ∧ members.Pairwise (fun a b => (a == b) = false) ∧
        (∀ m ∈ members, m.kind ≠ .union ∧ m.isInvalid = false) ∧ Ty.WellFormedList members
  | .tuple members => 2 ≤ members.length ∧ Ty.WellFormedList members
  | .generic base args => base.WellFormed ∧ Ty.WellFormedList args
  | .param _ bound => Ty.WellFormedOption bound
  | .unknown | .nil | .void | .primitive _ | .ofClass _ => True
termination_by structural t => t

def Ty.WellFormedList : List Ty → Prop
  | [] => True
  | t :: ts => t.WellFormed ∧ Ty.WellFormedList ts
termination_by structural ts => ts

def Ty.WellFormedParams : List (String × Ty) → Prop
  | [] => True
  | (_, t) :: ps => t.WellFormed ∧ Ty.WellFormedParams ps
termination_by structural ps => ps

def Ty.WellFormedOption : Option Ty → Prop
  | none => True
  | some t => t.WellFormed
termination_by structural o => o

end

namespace Ty

theorem wellFormedList_iff (ts : List Ty) : WellFormedList ts ↔ ∀ t ∈ ts, t.WellFormed := by
  induction ts with
  | nil => simp [WellFormedList]
  | cons t ts ih => simp [WellFormedList, ih]

theorem wellFormedParams_iff (ps : List (String × Ty)) :
    WellFormedParams ps ↔ ∀ p ∈ ps, p.2.WellFormed := by
  induction ps with
  | nil => simp [WellFormedParams]
  | cons p ps ih => simp [WellFormedParams, ih]

theorem wellFormedOption_iff (t : Option Ty) : WellFormedOption t ↔ ∀ u ∈ t, u.WellFormed := by
  cases t <;> simp [WellFormedOption]

theorem wellFormed_function_iff {s : Signature Ty} :
    (function s).WellFormed ↔ (∀ p ∈ s.params, p.2.WellFormed) ∧ s.returns.WellFormed ∧
      ∀ v ∈ s.varargs, v.WellFormed := by
  rw [← wellFormedParams_iff, ← wellFormedOption_iff]
  rfl

theorem wellFormed_ofValues {values : List Ty} (h : ∀ t ∈ values, t.WellFormed) :
    (ofValues values).WellFormed := by
  match values with
  | [] => trivial
  | [t] => exact h t List.mem_cons_self
  | t :: u :: rest => exact ⟨by simp, (wellFormedList_iff _).2 h⟩

end Ty

/-- The members that a union may have. -/
structure UnionBuilder.WellFormed (b : UnionBuilder) : Prop where
  distinct : b.members.Pairwise fun x y => (x == y) = false
  plain : ∀ m ∈ b.members, m.kind ≠ .union ∧ m.isInvalid = false
  wellFormed : ∀ m ∈ b.members, m.WellFormed

namespace UnionBuilder.WellFormed

theorem empty : WellFormed {} := ⟨.nil, by simp, by simp⟩

theorem insert {b : UnionBuilder} (hb : b.WellFormed) {t : Ty} (ht : t.WellFormed)
    (hplain : t.kind ≠ .union ∧ t.isInvalid = false) : (b.insert t).WellFormed := by
  unfold UnionBuilder.insert
  split
  next => exact hb
  next hnew =>
    refine ⟨List.pairwise_append.2 ⟨hb.distinct, List.pairwise_singleton .., ?_⟩, ?_, ?_⟩
    · simpa using hnew
    · simpa [or_imp, forall_and] using ⟨⟨fun m hm => (hb.plain m hm).1, hplain.1⟩,
        fun m hm => (hb.plain m hm).2, hplain.2⟩
    · simpa [or_imp, forall_and] using ⟨hb.wellFormed, ht⟩

theorem insertAll {members : List Ty} {b : UnionBuilder} (hb : b.WellFormed)
    (hwf : ∀ m ∈ members, m.WellFormed)
    (hplain : ∀ m ∈ members, m.kind ≠ .union ∧ m.isInvalid = false) :
    (members.foldl UnionBuilder.insert b).WellFormed := by
  induction members generalizing b with
  | nil => exact hb
  | cons m members ih =>
      exact ih (hb.insert (hwf m List.mem_cons_self) (hplain m List.mem_cons_self))
        (fun x hx => hwf x (List.mem_cons_of_mem m hx))
        fun x hx => hplain x (List.mem_cons_of_mem m hx)

theorem add {b : UnionBuilder} (hb : b.WellFormed) {t : Ty} (ht : t.WellFormed) :
    (b.add t).WellFormed := by
  unfold UnionBuilder.add
  split
  next members => exact hb.insertAll ((Ty.wellFormedList_iff _).1 ht.2.2.2) ht.2.2.1
  next hother =>
    split
    next => exact hb
    next hvalid =>
      refine hb.insert ht ⟨fun hkind => ?_, by simpa using hvalid⟩
      cases t <;> simp_all [Ty.kind]

theorem addAll {types : List Ty} {b : UnionBuilder} (hb : b.WellFormed)
    (h : ∀ t ∈ types, t.WellFormed) : (types.foldl UnionBuilder.add b).WellFormed := by
  induction types generalizing b with
  | nil => exact hb
  | cons t types ih =>
      obtain ⟨ht, htypes⟩ := List.forall_mem_cons.1 h
      exact ih (hb.add ht) htypes

theorem build {b : UnionBuilder} (hb : b.WellFormed) : b.build.WellFormed := by
  unfold UnionBuilder.build
  split
  next => trivial
  next t hmembers => exact hb.wellFormed t (by simp [hmembers])
  next hnil hone =>
    refine ⟨?_, hb.distinct, hb.plain, (Ty.wellFormedList_iff _).2 hb.wellFormed⟩
    match hmembers : b.members with
    | [] => exact absurd hmembers hnil
    | [t] => exact absurd hmembers (hone t)
    | _ :: _ :: _ => simp

end UnionBuilder.WellFormed

namespace Ty

theorem wellFormed_unite {a b : Ty} (ha : a.WellFormed) (hb : b.WellFormed) :
    (a.unite b).WellFormed := by
  unfold unite
  split
  next => exact hb
  next =>
    split
    next => exact ha
    next =>
      split
      next => exact (UnionBuilder.WellFormed.empty.add hb |>.add ha).build
      next => exact (UnionBuilder.WellFormed.empty.add ha |>.add hb).build

theorem wellFormed_uniteAll {types : List Ty} (h : ∀ t ∈ types, t.WellFormed) :
    (uniteAll types).WellFormed := by
  suffices ∀ first : Ty, first.WellFormed → (types.foldl unite first).WellFormed from
    this .unknown trivial
  induction types with
  | nil => exact fun first hfirst => hfirst
  | cons t types ih =>
      exact fun first hfirst => ih (fun x hx => h x (List.mem_cons_of_mem t hx)) _
        (wellFormed_unite hfirst (h t List.mem_cons_self))

end Ty

end LuaTypes
