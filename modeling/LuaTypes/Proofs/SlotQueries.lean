import LuaTypes.Proofs.SingleValues
import LuaTypes.Proofs.WellFormedInference

namespace LuaTypes

def Chunk.isCall (c : Chunk) (node : NodeId) : Bool :=
  match c.get? node with
  | some (.call ..) => true
  | _ => false

namespace Sources

section Rules

variable {m : Type → Type} [Monad m] (src : Sources) (eval : Recursion m)

/-- Of the rules only that for calls depends on which values are wanted. -/
theorem inferExpr_atPosition_of_not_call {node : NodeId} (h : src.chunk.isCall node = false)
    (ctx : SearchContext) (position : Nat) :
    src.inferExpr eval node (ctx.atPosition position) =
      src.inferExpr eval node ctx.forAllValues := by
  unfold Chunk.isCall at h
  unfold inferExpr
  split at h
  next => cases h
  next hnode =>
    cases hexpr : src.chunk.get? node with
    | none => rfl
    | some e =>
        cases e with
        | call callee args colon => exact absurd hexpr (hnode _ _ _)
        | _ => rfl

theorem inferCall_atPosition [LawfulMonad m] (callee : NodeId) (args : List NodeId)
    (colon : Bool) (ctx : SearchContext) (position : Nat) :
    src.inferCall eval callee args colon (ctx.atPosition position) =
      Ty.valueAt position <$> src.inferCall eval callee args colon ctx.forAllValues := by
  unfold inferCall
  simp only [map_bind]
  congr 1
  funext calleeTy
  congr 1
  funext receiver
  split
  · rw [map_pure]
    rfl
  · rw [map_bind]
    congr 1
    funext argTys
    rw [map_pure]
    rfl

theorem inferExpr_atPosition_of_call [LawfulMonad m] {node : NodeId}
    (h : src.chunk.isCall node = true) (ctx : SearchContext) (position : Nat) :
    src.inferExpr eval node (ctx.atPosition position) =
      Ty.valueAt position <$> src.inferExpr eval node ctx.forAllValues := by
  unfold Chunk.isCall at h
  unfold inferExpr
  split at h
  next callee args colon hnode =>
    rw [hnode]
    exact src.inferCall_atPosition eval callee args colon ctx position
  next => cases h

end Rules

variable {src : Sources} {ctx : SearchContext} {node : NodeId} {position : Nat} {t u : Ty}

theorem exists_inferExpr_of_meets {ctx' : SearchContext}
    (ht : src.Meets (.one node ctx) t) (hu : src.Meets (.one node ctx') u) :
    ∃ eval : Recursion Option,
      src.inferExpr eval node ctx = some t ∧ src.inferExpr eval node ctx' = some u := by
  obtain ⟨n, hn⟩ := ht
  obtain ⟨k, hk⟩ := hu
  refine ⟨src.plain (max n k), ?_, ?_⟩
  · exact (plain_extends (Nat.le_succ_of_le (Nat.le_max_left n k))).1 _ _ _ hn
  · exact (plain_extends (Nat.le_succ_of_le (Nat.le_max_right n k))).1 _ _ _ hk

theorem Meets.unique {d : Demand} (ht : src.Meets d t) (hu : src.Meets d u) : t = u := by
  obtain ⟨n, hn⟩ := ht
  obtain ⟨k, hk⟩ := hu
  rw [← d.run_answer _ (.refl d.ctx)] at hn hk
  have hn' := run_plain_mono (Nat.le_max_left n k) hn
  have hk' := run_plain_mono (Nat.le_max_right n k) hk
  exact Option.some.inj (hn'.symm.trans hk')

theorem Meets.slot_of_call (ht : src.Meets (.one node (ctx.atPosition position)) t)
    (hu : src.Meets (.one node ctx.forAllValues) u) (h : src.chunk.isCall node = true) :
    t = u.valueAt position := by
  obtain ⟨eval, ht, hu⟩ := exists_inferExpr_of_meets ht hu
  rw [src.inferExpr_atPosition_of_call eval h, hu] at ht
  exact (Option.some.inj ht).symm

theorem Meets.slot_of_not_call (ht : src.Meets (.one node (ctx.atPosition position)) t)
    (hu : src.Meets (.one node ctx.forAllValues) u) (h : src.chunk.isCall node = false) :
    t = u := by
  obtain ⟨eval, ht, hu⟩ := exists_inferExpr_of_meets ht hu
  rw [src.inferExpr_atPosition_of_not_call eval h, hu] at ht
  exact (Option.some.inj ht).symm

/-- What a request answers to a demand, after it has answered others, and what it is then. -/
def reply (src : Sources) (maxDepth : Nat) (before : List Demand) (d : Demand) : Ty × Request :=
  (d.answer src.requesting).run ((src.serve before).run (.start maxDepth)).2

theorem meets_reply {base : SearchContext} {maxDepth : Nat} {before : List Demand} {d : Demand}
    (hbefore : ∀ e ∈ before, e.ctx.Under base) (hd : d.ctx.Under base)
    (hdenied : (src.reply maxDepth before d).2.denied = 0) :
    src.Meets d (src.reply maxDepth before d).1 := by
  have hserves := src.serves_serve before (.start maxDepth)
  have hrun := src.runs_answer d ((src.serve before).run (.start maxDepth)).2
  have hdenied' := Nat.le_zero.1 (hdenied ▸ hrun.denied_le)
  have hfaithful := (hserves.meets_of_undenied hbefore rfl (fun q t h => absurd h List.not_mem_nil)
    hdenied').2
  obtain ⟨-, fuel, hfuel⟩ :=
    (hrun.of_under hd).plain_of_undenied (hserves.no_table rfl) hfaithful hdenied
  rw [d.run_answer _ hd] at hfuel
  exact ⟨fuel, hfuel⟩

/-- A call gives at each position its whole result narrowed to that position, so that a call of one
value has nil at every position after the first. Any other expression gives its whole result at each
position, so that narrowing agrees where it changes nothing: at the first position of one value, and
everywhere for what is unknown or nil. The two answers may come from different requests or from one,
and after any others, if entry has not been refused. -/
theorem slot_query_of_whole_query (src : Sources) (ctx : SearchContext) (node : NodeId)
    (position maxDepth maxDepth' : Nat) (before before' : List Demand)
    (hbefore : ∀ d ∈ before ++ before', d.ctx.Under ctx)
    (hslot : (src.reply maxDepth before (.one node (ctx.atPosition position))).2.denied = 0)
    (hwhole : (src.reply maxDepth' before' (.one node ctx.forAllValues)).2.denied = 0) :
    let slot := (src.reply maxDepth before (.one node (ctx.atPosition position))).1
    let whole := (src.reply maxDepth' before' (.one node ctx.forAllValues)).1
    (src.chunk.isCall node = true → slot = whole.valueAt position ∧
      (src.index.WellFormed → whole.IsOneValue → 0 < position → slot = .nil)) ∧
    (src.chunk.isCall node = false → slot = whole ∧
      (whole = .unknown ∨ whole = .nil ∨
        src.index.WellFormed ∧ whole.IsOneValue ∧ position = 0 →
        slot = whole.valueAt position)) := by
  intro slot whole
  rw [List.forall_mem_append] at hbefore
  have hslot : src.Meets (.one node (ctx.atPosition position)) slot :=
    meets_reply hbefore.1 (SearchContext.atPosition_under_iff.2 (.refl ctx)) hslot
  have hwhole : src.Meets (.one node ctx.forAllValues) whole :=
    meets_reply hbefore.2 (SearchContext.forAllValues_under_iff.2 (.refl ctx)) hwhole
  refine ⟨fun hcall => ?_, fun hcall => ?_⟩
  · have heq := hslot.slot_of_call hwhole hcall
    refine ⟨heq, fun hindex hone hpos => ?_⟩
    rw [heq]
    exact Ty.valueAt_of_isOneValue (hwhole.wellFormed hindex) hone hpos
  · have heq := hslot.slot_of_not_call hwhole hcall
    refine ⟨heq, ?_⟩
    rw [heq]
    rintro (hunknown | hnil | ⟨hindex, hone, rfl⟩)
    · rw [hunknown, Ty.valueAt]
    · rw [hnil, Ty.valueAt]
    · exact (Ty.valueAt_zero_of_isOneValue (hwhole.wellFormed hindex) hone).symm

theorem slot_query_of_whole_query_pair :
    let src : Sources :=
      { chunk :=
        { nodes := [.literal .string, .literal .number,
            .function [] [[0, 1]] none [] false, .call 2 [] false] } }
    let slot := src.reply 64 [] (.one 3 (SearchContext.atPosition {} 1))
    let whole := src.reply 64 [.one 3 {}] (.one 3 (SearchContext.forAllValues {}))
    slot.2.denied = 0 ∧ whole.2.denied = 0 ∧ slot.1 = whole.1.valueAt 1 := by
  intro src slot whole
  have hbefore : ∀ d ∈ [] ++ [Demand.one 3 {}], d.ctx.Under {} := by
    intro d hd
    obtain rfl := List.mem_singleton.1 hd
    exact .refl _
  have hslot : slot.2.denied = 0 := by decide +kernel
  have hwhole : whole.2.denied = 0 := by decide +kernel
  refine ⟨hslot, hwhole, ?_⟩
  exact ((slot_query_of_whole_query src {} 3 1 64 64 [] _ hbefore hslot hwhole).1 rfl).1

/-- A constant gives its type at the second position too, and a name that is documented with two
types gives both at the first one. -/
theorem position_ignored_outside_calls :
    let src : Sources :=
      { chunk :=
        { nodes := [.literal .number, .ident "pair"]
          bindings := [{ names := ["pair"]
                         docTypes := [some (.tuple [.named "string" [] false, .any])] }] } }
    let slot (node position : Nat) :=
      src.reply 64 [] (.one node (SearchContext.atPosition {} position))
    let whole (node : Nat) := src.reply 64 [] (.one node (SearchContext.forAllValues {}))
    ((slot 0 1).2.denied = 0 ∧ (whole 0).2.denied = 0 ∧
      ((slot 0 1).1 == (whole 0).1.valueAt 1) = false) ∧
    (slot 1 0).2.denied = 0 ∧ (whole 1).2.denied = 0 ∧
      ((slot 1 0).1 == (whole 1).1.valueAt 0) = false := by
  decide +kernel

end Sources

end LuaTypes
