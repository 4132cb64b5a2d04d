import LuaTypes.Inference.Rules
import Mathlib.Data.Set.Function

namespace LuaTypes

namespace Slot

/-- One of the values that a list of so many expressions offers: the first one of an expression, or
any of the last. -/
structure Available (count : Nat) (s : Slot) : Prop where
  inRange : s.expr < count
  firstOrLast : s.position = 0 ∨ s.expr + 1 = count

/-- The value comes earlier in the list. -/
def Before (s u : Slot) : Prop :=
  s.expr < u.expr ∨ s.expr = u.expr ∧ s.position < u.position

variable {count place place' : Nat} {slot slot' : Slot}

theorem distribute_succ (n position : Nat) :
    distribute (n + 1) position =
      some (if position < n then ⟨position, 0⟩ else ⟨n, position - n⟩) := by
  cases n with
  | zero => rfl
  | succ n =>
      simp only [distribute]
      split
      next hlt =>
        split
        next => rfl
        next hle =>
          obtain rfl : position = n + 1 := by omega
          simp
      next hle =>
        rw [if_neg (by omega)]
        congr 2
        omega

theorem available_and_eq_of_distribute (h : distribute count place = some slot) :
    slot.Available count ∧ place = slot.expr + slot.position := by
  cases count with
  | zero => cases h
  | succ n =>
      rw [distribute_succ] at h
      obtain rfl := Option.some.inj h
      split
      next hlt => exact ⟨⟨Nat.lt_succ_of_lt hlt, .inl rfl⟩, rfl⟩
      next hle =>
        refine ⟨⟨Nat.lt_succ_self n, .inr rfl⟩, ?_⟩
        exact (Nat.add_sub_cancel' (Nat.le_of_not_lt hle)).symm

theorem Available.distribute_eq (h : slot.Available count) :
    distribute count (slot.expr + slot.position) = some slot := by
  obtain ⟨expr, position⟩ := slot
  obtain ⟨hrange, hvalue⟩ := h
  cases count with
  | zero => exact absurd hrange (Nat.not_lt_zero expr)
  | succ n =>
      rw [distribute_succ]
      by_cases hlast : expr = n
      · subst hlast
        rw [if_neg (Nat.not_lt.2 (Nat.le_add_right expr position)), Nat.add_sub_cancel_left]
      · obtain rfl : position = 0 := hvalue.resolve_right fun heq => hlast (Nat.succ.inj heq)
        rw [Nat.add_zero, if_pos (Nat.lt_of_le_of_ne (Nat.le_of_lt_succ hrange) hlast)]

theorem distribute_eq_some_iff :
    distribute count place = some slot ↔
      slot.Available count ∧ place = slot.expr + slot.position := by
  refine ⟨available_and_eq_of_distribute, ?_⟩
  rintro ⟨havailable, rfl⟩
  exact havailable.distribute_eq

theorem expr_lt_of_distribute (h : distribute count place = some slot) : slot.expr < count :=
  (distribute_eq_some_iff.1 h).1.inRange

theorem exists_distribute (hcount : 0 < count) (place : Nat) :
    ∃ slot, distribute count place = some slot := by
  obtain ⟨n, rfl⟩ := Nat.exists_eq_add_one_of_ne_zero (Nat.ne_of_gt hcount)
  exact ⟨_, distribute_succ n place⟩

theorem bijOn_distribute (hcount : 0 < count) (limit : Nat) :
    Set.BijOn (distribute count) {place | place < limit}
      (some '' {slot | slot.Available count ∧ slot.expr + slot.position < limit}) := by
  refine ⟨fun place hplace => ?_, fun place _ place' _ heq => ?_, ?_⟩
  · obtain ⟨slot, hslot⟩ := exists_distribute hcount place
    obtain ⟨havailable, rfl⟩ := distribute_eq_some_iff.1 hslot
    exact ⟨slot, ⟨havailable, hplace⟩, hslot.symm⟩
  · obtain ⟨slot, hslot⟩ := exists_distribute hcount place
    obtain ⟨-, hplace⟩ := distribute_eq_some_iff.1 hslot
    obtain ⟨-, hplace'⟩ := distribute_eq_some_iff.1 (heq.symm.trans hslot)
    rw [hplace, hplace']
  · rintro _ ⟨slot, ⟨havailable, hlimit⟩, rfl⟩
    exact ⟨slot.expr + slot.position, hlimit, havailable.distribute_eq⟩

theorem before_of_lt (hlt : place < place') (h : distribute count place = some slot)
    (h' : distribute count place' = some slot') : slot.Before slot' := by
  obtain ⟨⟨hrange, hvalue⟩, hplace⟩ := distribute_eq_some_iff.1 h
  obtain ⟨⟨hrange', hvalue'⟩, hplace'⟩ := distribute_eq_some_iff.1 h'
  unfold Before
  omega

end Slot

namespace Sources

variable {m : Type → Type} [Monad m] {src : Sources} {binding : Binding} {place : Nat}
  {name : String}

/-- A name that is bound to values, and not documented, has the type of the value at its place. -/
theorem exists_slot_of_inferName (hbinding : src.chunk.bindingFor? name = some (binding, place))
    (hdoc : binding.docType? place = none) (hvalues : 0 < binding.values.length)
    (eval : Recursion m) (ctx : SearchContext) :
    ∃ (slot : Slot) (value : NodeId), slot.Available binding.values.length ∧
      place = slot.expr + slot.position ∧ binding.values[slot.expr]? = some value ∧
      src.inferName eval name ctx = eval.infer value (ctx.atPosition slot.position) := by
  obtain ⟨slot, hslot⟩ := Slot.exists_distribute hvalues place
  obtain ⟨havailable, hplace⟩ := Slot.distribute_eq_some_iff.1 hslot
  have hvalue := List.getElem?_eq_getElem havailable.inRange
  refine ⟨slot, _, havailable, hplace, hvalue, ?_⟩
  unfold inferName
  simp only [hbinding, hdoc, hslot, hvalue]

end Sources

namespace Slot

/-- Of at least one expression each place is given one value, the one that stands there, and each
value is given to one place: below any limit, such as the largest number of a machine word, this is
a bijection, and it keeps the order. So a name that is bound to expressions has its type from one of
them, whatever its place. -/
theorem distribution_loses_no_value {count : Nat} (hcount : 0 < count) :
    (∀ limit, Set.BijOn (distribute count) {place | place < limit}
      (some '' {slot | slot.Available count ∧ slot.expr + slot.position < limit})) ∧
    (∀ place slot, distribute count place = some slot ↔
      slot.Available count ∧ place = slot.expr + slot.position) ∧
    (∀ place place' slot slot', place < place' → distribute count place = some slot →
      distribute count place' = some slot' → slot.Before slot') ∧
    ∀ (m : Type → Type) [Monad m] (src : Sources) (eval : Recursion m) (ctx : SearchContext)
      (name : String) (binding : Binding) (place : Nat),
      src.chunk.bindingFor? name = some (binding, place) → binding.docType? place = none →
      binding.values.length = count →
      ∃ (slot : Slot) (value : NodeId), slot.Available count ∧
        place = slot.expr + slot.position ∧ binding.values[slot.expr]? = some value ∧
        src.inferName eval name ctx = eval.infer value (ctx.atPosition slot.position) := by
  refine ⟨bijOn_distribute hcount, fun place slot => distribute_eq_some_iff,
    fun place place' slot slot' => before_of_lt, ?_⟩
  rintro m _ src eval ctx name binding place hbinding hdoc rfl
  exact Sources.exists_slot_of_inferName hbinding hdoc hcount eval ctx

/-- The third name for two expressions is given the second value of the last one. -/
theorem distribution_loses_no_value_three_names :
    let src : Sources :=
      { chunk :=
        { nodes := [.literal .boolean, .ident "f", .call 1 [] false]
          bindings := [{ names := ["a", "b", "c"], values := [0, 2] }] } }
    Set.BijOn (distribute 2) {place | place < 3}
      (some '' {slot | slot.Available 2 ∧ slot.expr + slot.position < 3}) ∧
    distribute 2 2 = some ⟨1, 1⟩ ∧ Before ⟨1, 0⟩ ⟨1, 1⟩ ∧
    ∀ eval : Recursion Option,
      src.inferName eval "c" {} = eval.infer 2 (SearchContext.atPosition {} 1) := by
  intro src
  obtain ⟨hbijection, hplace, horder, hname⟩ := @distribution_loses_no_value 2 (by decide)
  have hthird : distribute 2 2 = some ⟨1, 1⟩ := (hplace 2 ⟨1, 1⟩).2 ⟨⟨by decide, .inr rfl⟩, rfl⟩
  refine ⟨hbijection 3, hthird, horder 1 2 _ _ (by decide) rfl hthird, fun eval => ?_⟩
  obtain ⟨slot, value, havailable, hslot, hvalue, hinfer⟩ :=
    hname Option src eval {} "c" _ 2 rfl rfl rfl
  have hsame : some slot = some ⟨1, 1⟩ := ((hplace 2 slot).2 ⟨havailable, hslot⟩).symm.trans hthird
  obtain rfl := Option.some.inj hsame
  obtain rfl := Option.some.inj hvalue
  exact hinfer

end Slot

end LuaTypes
