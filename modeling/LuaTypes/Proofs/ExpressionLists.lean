import LuaTypes.Proofs.FunctionCalls
import LuaTypes.Proofs.Slots

namespace LuaTypes

theorem Option.forall₂_of_mapM_eq_some {α β : Type} {f : α → Option β} {as : List α}
    {bs : List β} (h : as.mapM f = some bs) : List.Forall₂ (fun a b => f a = some b) as bs := by
  induction as generalizing bs with
  | nil =>
      rw [List.mapM_nil] at h
      cases h
      exact .nil
  | cons a as ih =>
      rw [List.mapM_cons] at h
      obtain ⟨b, hb, hrest⟩ := Option.bind_eq_some_iff.1 h
      obtain ⟨rest, hmapM, hpure⟩ := Option.bind_eq_some_iff.1 hrest
      cases hpure
      exact .cons hb (ih hmapM)

namespace Ty

variable {firsts : List Ty} {whole : Ty} {position : Nat}

theorem ofValues_values (h : whole.WellFormed) : ofValues whole.values = whole := by
  cases whole with
  | tuple members => exact ofValues_of_two_le h.1
  | _ => rfl

/-- The type of a list of expressions that is returned, by what its last expression yields as a
whole and the others yield as one value. -/
def returned (firsts : List Ty) (whole : Ty) : Ty :=
  ofValues (firsts ++ whole.values)

/-- The type of a position of a list of expressions that is assigned. -/
def assigned (firsts : List Ty) (whole : Ty) (position : Nat) : Ty :=
  firsts[position]?.getD (whole.valueAt (position - firsts.length))

theorem assigned_of_lt (h : position < firsts.length) :
    assigned firsts whole position = firsts[position] := by
  rw [assigned, List.getElem?_eq_getElem h, Option.getD_some]

theorem assigned_of_le (h : firsts.length ≤ position) :
    assigned firsts whole position = whole.valueAt (position - firsts.length) := by
  rw [assigned, List.getElem?_eq_none h, Option.getD_none]

theorem valueAt_returned (h : 2 ≤ (firsts ++ whole.values).length) :
    (returned firsts whole).valueAt position = (firsts ++ whole.values)[position]?.getD .nil := by
  rw [returned, ofValues_of_two_le h, valueAt]

theorem valueAt_returned_of_lt (h : 2 ≤ (firsts ++ whole.values).length)
    (hposition : position < firsts.length) :
    (returned firsts whole).valueAt position = assigned firsts whole position := by
  rw [valueAt_returned h, assigned_of_lt hposition, List.getElem?_append_left hposition,
    List.getElem?_eq_getElem hposition, Option.getD_some]

theorem valueAt_returned_of_values (h : 2 ≤ (firsts ++ whole.values).length)
    (hvalues : firsts.length ≤ position →
      whole.values[position - firsts.length]?.getD .nil =
        whole.valueAt (position - firsts.length)) :
    (returned firsts whole).valueAt position = assigned firsts whole position := by
  by_cases hposition : position < firsts.length
  · exact valueAt_returned_of_lt h hposition
  · have hle := Nat.le_of_not_lt hposition
    rw [valueAt_returned h, assigned_of_le hle, List.getElem?_append_right hle]
    exact hvalues hle

/-- When a list of so many expressions fills a position alike in both ways, by what its last
expression yields as a whole and what is returned. -/
inductive FillsAlike (count : Nat) (whole list : Ty) (position : Nat) : Prop
  /-- There is no other expression. -/
  | single (alone : count = 1)
  | tuple (many : whole.kind = .tuple)
  | oneValue (one : whole.IsOneValue)
  /-- Nothing is added to the other expressions. If there is only one of them, what it yields is
  returned as it is, and must not stand for more or fewer values than one. -/
  | noValue (none : whole = .void)
      (others : count ≠ 2 ∨ list.IsOneValue ∨ list = .unknown ∧ position = 0)
  /-- It is not known how many values there are, but the first of them has a place in the list. -/
  | unknown (unknown : whole = .unknown) (inside : position < count)
  /-- The position belongs to another expression. -/
  | before (before : position + 1 < count) (many : whole ≠ .void ∨ count ≠ 2)

theorem values_of_isOneValue (hone : whole.IsOneValue) : whole.values = [whole] := by
  cases whole with
  | tuple members => exact absurd rfl (hone _ List.mem_cons_self).1
  | void => exact absurd rfl (hone _ List.mem_cons_self).2.1
  | _ => rfl

theorem values_length_pos (hwhole : whole.WellFormed) (hvoid : whole ≠ .void) :
    0 < whole.values.length := by
  cases whole with
  | tuple members => exact Nat.lt_of_lt_of_le Nat.zero_lt_two hwhole.1
  | void => exact absurd rfl hvoid
  | _ => exact Nat.one_pos

theorem two_le_length (hfirsts : 0 < firsts.length) (hvalues : 0 < whole.values.length) :
    2 ≤ (firsts ++ whole.values).length := by
  rw [List.length_append]
  omega

theorem valueAt_returned_nil (hwhole : whole.WellFormed) :
    (returned [] whole).valueAt position = assigned [] whole position := by
  rw [returned, List.nil_append, ofValues_values hwhole]
  rfl

theorem valueAt_returned_of_tuple (hfirsts : 0 < firsts.length) (hwhole : whole.WellFormed)
    (h : whole.kind = .tuple) :
    (returned firsts whole).valueAt position = assigned firsts whole position := by
  cases whole with
  | tuple members =>
      have hvalues := values_length_pos hwhole fun hvoid => nomatch hvoid
      exact valueAt_returned_of_values (two_le_length hfirsts hvalues) fun _ => rfl
  | _ => cases h

theorem valueAt_returned_of_isOneValue (hfirsts : 0 < firsts.length) (hwhole : whole.WellFormed)
    (hone : whole.IsOneValue) :
    (returned firsts whole).valueAt position = assigned firsts whole position := by
  have hvalues := values_of_isOneValue hone
  refine valueAt_returned_of_values (two_le_length hfirsts (by simp [hvalues])) fun hle => ?_
  rw [hvalues]
  cases position - firsts.length with
  | zero => exact (valueAt_zero_of_isOneValue hwhole hone).symm
  | succ offset => exact (valueAt_of_isOneValue hwhole hone offset.succ_pos).symm

theorem valueAt_returned_of_unknown (hfirsts : 0 < firsts.length)
    (hposition : position < firsts.length + 1) :
    (returned firsts .unknown).valueAt position = assigned firsts .unknown position := by
  refine valueAt_returned_of_values (two_le_length hfirsts Nat.one_pos) fun hle => ?_
  obtain rfl : position = firsts.length := by omega
  rw [Nat.sub_self]
  rfl

theorem valueAt_returned_singleton_void {first : Ty} (hfirst : first.WellFormed)
    (h : first.IsOneValue ∨ first = .unknown ∧ position = 0) :
    (returned [first] .void).valueAt position = assigned [first] .void position := by
  change first.valueAt position = _
  rcases h with hone | ⟨rfl, rfl⟩
  · cases position with
    | zero => exact valueAt_zero_of_isOneValue hfirst hone
    | succ position => exact valueAt_of_isOneValue hfirst hone position.succ_pos
  · rfl

theorem valueAt_returned_of_void (hfirsts : 0 < firsts.length)
    (hwellFormed : ∀ t ∈ firsts, t.WellFormed)
    (h : firsts.length + 1 ≠ 2 ∨ (returned firsts .void).IsOneValue ∨
      returned firsts .void = .unknown ∧ position = 0) :
    (returned firsts .void).valueAt position = assigned firsts .void position := by
  by_cases hone : firsts.length = 1
  · obtain ⟨first, rfl⟩ := List.length_eq_one_iff.1 hone
    exact valueAt_returned_singleton_void (hwellFormed first List.mem_cons_self)
      (h.resolve_left fun hother => hother rfl)
  · refine valueAt_returned_of_values ?_ fun _ => rfl
    rw [List.length_append]
    omega

/-- What is returned fills a position as an assignment does. -/
theorem FillsAlike.valueAt_returned (hfirsts : ∀ t ∈ firsts, t.WellFormed)
    (hwhole : whole.WellFormed)
    (h : FillsAlike (firsts.length + 1) whole (returned firsts whole) position) :
    (returned firsts whole).valueAt position = assigned firsts whole position := by
  rcases List.eq_nil_or_concat' firsts with rfl | ⟨_, _, hfirstsEq⟩
  · exact valueAt_returned_nil hwhole
  have hpos : 0 < firsts.length := by simp [hfirstsEq]
  cases h with
  | single alone => omega
  | tuple many => exact valueAt_returned_of_tuple hpos hwhole many
  | oneValue one => exact valueAt_returned_of_isOneValue hpos hwhole one
  | noValue none others =>
      subst none
      exact valueAt_returned_of_void hpos hfirsts others
  | unknown unknown inside =>
      subst unknown
      exact valueAt_returned_of_unknown hpos inside
  | before before many =>
      refine valueAt_returned_of_lt ?_ (by omega)
      rcases many with hvoid | hcount
      · exact two_le_length hpos (values_length_pos hwhole hvoid)
      · rw [List.length_append]
        omega

end Ty

namespace Sources

variable {src : Sources} {ctx : SearchContext} {node last : NodeId} {exprs : List NodeId}
  {position : Nat} {t u : Ty}

theorem Meets.list_append (h : src.Meets (.list (exprs ++ [last]) ctx) t) :
    ∃ firsts whole, List.Forall₂ (fun e u => src.Meets (.one e (ctx.atPosition 0)) u) exprs firsts ∧
      src.Meets (.one last ctx.forAllValues) whole ∧ t = Ty.returned firsts whole := by
  obtain ⟨fuel, hfuel⟩ := h
  change inferList (src.plain fuel) (exprs ++ [last]) ctx = some t at hfuel
  rw [inferList, List.getLast?_concat, List.dropLast_concat] at hfuel
  obtain ⟨firsts, hfirsts, hrest⟩ := Option.bind_eq_some_iff.1 hfuel
  obtain ⟨whole, hwhole, hpure⟩ := Option.bind_eq_some_iff.1 hrest
  refine ⟨firsts, whole, ?_, ⟨fuel, hwhole⟩, (Option.some.inj hpure).symm⟩
  exact (Option.forall₂_of_mapM_eq_some hfirsts).imp fun e u hu => ⟨fuel, hu⟩

theorem Meets.assigned {firsts : List Ty} {whole : Ty} {slot : Slot} {e : NodeId}
    (h : src.Meets (.one e (ctx.atPosition slot.position)) t)
    (hfirsts : List.Forall₂ (fun e u => src.Meets (.one e (ctx.atPosition 0)) u) exprs firsts)
    (hwhole : src.Meets (.one last ctx.forAllValues) whole)
    (hcall : src.chunk.isCall last = true)
    (hslot : Slot.distribute (exprs ++ [last]).length position = some slot)
    (he : (exprs ++ [last])[slot.expr]? = some e) :
    t = Ty.assigned firsts whole position := by
  have hlength := hfirsts.length_eq
  rw [List.length_append, List.length_singleton, Slot.distribute_succ] at hslot
  obtain rfl := Option.some.inj hslot
  by_cases hlt : position < exprs.length
  · rw [if_pos hlt] at he h
    rw [List.getElem?_append_left hlt, List.getElem?_eq_getElem hlt] at he
    obtain rfl := Option.some.inj he
    rw [Ty.assigned_of_lt (hlength ▸ hlt)]
    exact h.unique (hfirsts.get hlt (hlength ▸ hlt))
  · rw [if_neg hlt] at he h
    rw [List.getElem?_append_right (Nat.le_refl _), Nat.sub_self] at he
    obtain rfl := Option.some.inj he
    rw [Ty.assigned_of_le (hlength ▸ Nat.le_of_not_lt hlt), ← hlength]
    exact h.slot_of_call hwhole hcall

/-- A list that ends with a call gives each position the same type when it is returned as when it is
assigned, where `Ty.FillsAlike` says so of what the call yields as a whole. What is returned shows
in the calls of the function that returns it. The answers may come from different requests or from
one, and after any others, if entry has not been refused. -/
theorem return_fills_like_assignment (src : Sources) (hindex : src.index.WellFormed)
    (ctx : SearchContext) (exprs : List NodeId) (last : NodeId)
    (hlast : exprs.getLast? = some last) (hcall : src.chunk.isCall last = true) (position : Nat)
    (slot : Slot) (hslot : Slot.distribute exprs.length position = some slot) (e : NodeId)
    (he : exprs[slot.expr]? = some e) (maxDepth maxDepth' : Nat) (before before' : List Demand)
    (hbefore : ∀ d ∈ before ++ before', d.ctx.Under ctx)
    (hlist : (src.reply maxDepth before (.list exprs ctx)).2.denied = 0)
    (hvalue : (src.reply maxDepth' before' (.one e (ctx.atPosition slot.position))).2.denied = 0) :
    let list := (src.reply maxDepth before (.list exprs ctx)).1
    let value := (src.reply maxDepth' before' (.one e (ctx.atPosition slot.position))).1
    (∃ whole, src.Meets (.one last ctx.forAllValues) whole ∧
      (Ty.FillsAlike exprs.length whole list position → list.valueAt position = value)) ∧
    ∀ call, src.chunk.CallsReturnOf call exprs →
      ∀ maxDepth before, (∀ d ∈ before, d.ctx.Under ctx) →
        (src.reply maxDepth before (.one call (ctx.atPosition position))).2.denied = 0 →
        (src.reply maxDepth before (.one call (ctx.atPosition position))).1 =
          list.valueAt position := by
  intro list value
  rw [List.forall_mem_append] at hbefore
  have hlist : src.Meets (.list exprs ctx) list := meets_reply hbefore.1 (.refl ctx) hlist
  have hvalue : src.Meets (.one e (ctx.atPosition slot.position)) value :=
    meets_reply hbefore.2 (SearchContext.atPosition_under_iff.2 (.refl ctx)) hvalue
  constructor
  · obtain ⟨others, rfl⟩ := List.getLast?_eq_some_iff.1 hlast
    obtain ⟨firsts, whole, hfirsts, hwhole, hreturned⟩ := hlist.list_append
    have hassigned := hvalue.assigned hfirsts hwhole hcall hslot he
    have hfirstsWellFormed : ∀ t ∈ firsts, t.WellFormed := fun t ht => by
      obtain ⟨i, hi, rfl⟩ := List.getElem_of_mem ht
      exact (hfirsts.get (hfirsts.length_eq ▸ hi) hi).wellFormed hindex
    refine ⟨whole, hwhole, fun halike => ?_⟩
    rw [List.length_append, List.length_singleton, hfirsts.length_eq, hreturned] at halike
    rw [hreturned, hassigned]
    exact halike.valueAt_returned hfirstsWellFormed (hwhole.wellFormed hindex)
  · intro call hcalls maxDepth before hbefore hreply
    have hreply : src.Meets (.one call (ctx.atPosition position)) _ :=
      meets_reply hbefore (SearchContext.atPosition_under_iff.2 (.refl ctx)) hreply
    obtain ⟨list', hlist', heq⟩ := hreply.of_callsReturnOf hindex hcalls
    rw [heq, hlist'.unique hlist]

/-- The third name is given the second value of the call at the end of the list. -/
theorem return_fills_like_assignment_pair :
    let src : Sources :=
      { chunk :=
        { nodes := [.literal .boolean, .literal .string, .literal .number,
            .function [] [[1, 2]] none [] false, .ident "g", .call 4 [] false,
            .function [] [[0, 5]] none [] false, .ident "f", .call 7 [] false]
          bindings := [{ names := ["g"], values := [3] }, { names := ["f"], values := [6] }] } }
    let list := src.reply 64 [.one 5 {}] (.list [0, 5] {})
    let value := src.reply 64 [] (.one 5 (SearchContext.atPosition {} 1))
    let call := src.reply 64 [] (.one 8 (SearchContext.atPosition {} 2))
    list.2.denied = 0 ∧ value.2.denied = 0 ∧ call.2.denied = 0 ∧
      list.1.valueAt 2 = value.1 ∧ call.1 = list.1.valueAt 2 := by
  intro src list value call
  have hindex : src.index.WellFormed := fun g hg => absurd hg List.not_mem_nil
  have hbefore : ∀ d ∈ [Demand.one 5 {}] ++ [], d.ctx.Under {} := by
    intro d hd
    obtain rfl := List.mem_singleton.1 hd
    exact .refl _
  have hlist : list.2.denied = 0 := by decide +kernel
  have hvalue : value.2.denied = 0 := by decide +kernel
  have hcall : call.2.denied = 0 := by decide +kernel
  obtain ⟨⟨whole, hwhole, hfill⟩, hcalls⟩ := return_fills_like_assignment src hindex {} [0, 5] 5
    rfl rfl 2 ⟨1, 1⟩ rfl 5 rfl 64 64 [.one 5 {}] [] hbefore hlist hvalue
  have hreply : src.Meets (.one 5 (SearchContext.forAllValues {}))
      (src.reply 64 [] (.one 5 (SearchContext.forAllValues {}))).1 :=
    meets_reply (fun d hd => absurd hd List.not_mem_nil)
      (SearchContext.forAllValues_under_iff.2 (.refl {})) (by decide +kernel)
  have hkind : whole.kind = .tuple := by
    rw [hwhole.unique hreply]
    decide +kernel
  have hcallsReturn : src.chunk.CallsReturnOf 8 [0, 5] :=
    ⟨7, 6, [], rfl, ⟨"f", _, 0, ⟨0, 0⟩, rfl, rfl, rfl, rfl, rfl⟩, rfl⟩
  exact ⟨hlist, hvalue, hcall, hfill (.tuple hkind),
    hcalls 8 hcallsReturn 64 [] (fun d hd => absurd hd List.not_mem_nil) hcall⟩

/-- What an unknown name and a call without values return is unknown at the second position too,
where an assignment gives nil. -/
theorem unknown_returned_for_every_position :
    let src : Sources :=
      { chunk := { nodes := [.ident "x", .function [] [] none [] false, .call 1 [] false] } }
    let list := src.reply 64 [] (.list [0, 2] {})
    let value := src.reply 64 [] (.one 2 (SearchContext.atPosition {} 0))
    Slot.distribute 2 1 = some ⟨1, 0⟩ ∧ list.2.denied = 0 ∧ value.2.denied = 0 ∧
      (list.1.valueAt 1 == value.1) = false := by
  decide +kernel

end Sources

end LuaTypes
