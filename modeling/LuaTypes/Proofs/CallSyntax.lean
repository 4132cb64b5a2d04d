import LuaTypes.Proofs.IdleSubstitution

namespace LuaTypes

namespace Signature

variable {s : Signature Ty} {receiver : Ty} {args : List Ty}

/-- What the arguments tell about the generic parameters, one for each parameter. -/
def boundBy (s : Signature Ty) (args : List Ty) : Bindings :=
  Bindings.learnList {} (s.params.map Prod.snd) args

/-- The return type with the generic parameters replaced and the class `self` left in place. -/
def returnsFor (s : Signature Ty) (args : List Ty) : Ty :=
  s.returns.substitute (s.boundBy args).rule

theorem wellFormed_returnsFor (hs : (Ty.function s).WellFormed) (hargs : ∀ a ∈ args, a.WellFormed) :
    (s.returnsFor args).WellFormed := by
  have hbindings : (s.boundBy args).WellFormed :=
    Ty.Compositional.learnList_of _ (fun t _ => Bindings.teachesWellFormed t)
      (fun _ he => absurd he List.not_mem_nil) hargs
  exact Ty.wellFormed_substitute hbindings.rule (Ty.wellFormed_function_iff.1 hs).2.1

theorem instantiate_of_colon (h : s.colon = true) :
    s.instantiate none (receiver :: args) false = s.instantiate (some receiver) args true := by
  unfold instantiate align
  rw [h]

theorem instantiate_without_colon (h : s.colon = false) :
    s.instantiate none args false = s.returnsFor args := by
  unfold instantiate align
  rw [h]
  rfl

/-- A colon call of a function without colon passes the receiver as first argument, and replaces
the class `self` besides. -/
theorem instantiate_receiver_without_colon (h : s.colon = false) :
    s.instantiate (some receiver) args true =
      (s.returnsFor (receiver :: args)).substitute (Ty.selfRule receiver) := by
  unfold instantiate align returnsFor boundBy
  rw [h]
  cases s.params with
  | nil => rfl
  | cons first rest => rfl

/-- Without colon the class `self` stays in what the call with the receiver as argument returns. -/
example :
    let s : Signature Ty := { params := [("o", .param "O" none)], returns := .named Ty.selfName }
    s.instantiate (some (.named "A")) [] true == .named "A" ∧
      s.instantiate none [.named "A"] false == .named Ty.selfName := by
  decide

end Signature

namespace Ty

theorem untouched_selfRule {t : Ty} (h : ∀ c, ofClass c ∈ t.leaves → c.name ≠ selfName)
    (receiver : Ty) : t.Untouched (selfRule receiver) := by
  intro leaf hleaf
  cases leaf with
  | ofClass c => exact if_neg (h c hleaf)
  | _ => rfl

end Ty

namespace Signature

/-- To call a function on a receiver and to call it with the receiver as first argument give the
same type if the function is defined with colon, and also if it is not but no class `self` is left
in its return type once the generic parameters are replaced. -/
theorem colon_call_is_dot_call (s : Signature Ty) (receiver : Ty) (args : List Ty)
    (hs : (Ty.function s).WellFormed) (hreceiver : receiver.WellFormed)
    (hargs : ∀ a ∈ args, a.WellFormed) :
    (s.colon = true →
      s.instantiate (some receiver) args true = s.instantiate none (receiver :: args) false) ∧
    (s.colon = false →
      (∀ c, Ty.ofClass c ∈ (s.returnsFor (receiver :: args)).leaves → c.name ≠ Ty.selfName) →
      s.instantiate (some receiver) args true = s.instantiate none (receiver :: args) false) := by
  refine ⟨fun hcolon => (instantiate_of_colon hcolon).symm, fun hcolon hself => ?_⟩
  have hreturns : (s.returnsFor (receiver :: args)).WellFormed :=
    wellFormed_returnsFor hs (List.forall_mem_cons.2 ⟨hreceiver, hargs⟩)
  calc
    s.instantiate (some receiver) args true
      = (s.returnsFor (receiver :: args)).substitute (Ty.selfRule receiver) :=
        instantiate_receiver_without_colon hcolon
    _ = s.returnsFor (receiver :: args) :=
        Ty.substitute_of_untouched hreturns (Ty.untouched_selfRule hself receiver)
    _ = s.instantiate none (receiver :: args) false := (instantiate_without_colon hcolon).symm

theorem colon_call_is_dot_call_on_player :
    let element : Ty := .param "T" none
    let method : Signature Ty :=
      { params := [("xs", .array element)]
        returns := .tuple [.named Ty.selfName, element]
        colon := true }
    let function : Signature Ty :=
      { params := [("o", .param "O" none), ("xs", .array element)]
        returns := .tuple [.param "O" none, element] }
    let player : Ty := .named "Player"
    let args : List Ty := [.array (.primitive .string)]
    ((Ty.function method).WellFormed ∧ (Ty.function function).WellFormed ∧ player.WellFormed ∧
      (∀ a ∈ args, a.WellFormed) ∧
      ∀ c, Ty.ofClass c ∈ (function.returnsFor (player :: args)).leaves → c.name ≠ Ty.selfName) ∧
    method.instantiate (some player) args true = method.instantiate none (player :: args) false ∧
    function.instantiate (some player) args true =
      function.instantiate none (player :: args) false ∧
    function.instantiate (some player) args true = .tuple [player, .primitive .string] := by
  intro element method function player args
  have hmethod : (Ty.function method).WellFormed := by
    simp [method, element, Ty.WellFormed, Ty.WellFormedList, Ty.WellFormedParams,
      Ty.WellFormedOption, Ty.named]
  have hfunction : (Ty.function function).WellFormed := by
    simp [function, element, Ty.WellFormed, Ty.WellFormedList, Ty.WellFormedParams,
      Ty.WellFormedOption]
  have hargs : ∀ a ∈ args, a.WellFormed := List.forall_mem_singleton.2 trivial
  have hself : ∀ c, Ty.ofClass c ∈ (function.returnsFor (player :: args)).leaves →
      c.name ≠ Ty.selfName := by
    intro c hc
    have hleaves : (function.returnsFor (player :: args)).leaves =
        [player, .primitive .string] := rfl
    rw [hleaves] at hc
    rcases List.mem_cons.1 hc with hc | hc
    · obtain rfl : c = ClassTy.named "Player" := Ty.ofClass.inj hc
      decide
    · cases List.mem_singleton.1 hc
  have hcalls := colon_call_is_dot_call function player args hfunction trivial hargs
  exact ⟨⟨hmethod, hfunction, trivial, hargs, hself⟩,
    (colon_call_is_dot_call method player args hmethod trivial hargs).1 rfl,
    hcalls.2 rfl hself, rfl⟩

end Signature

end LuaTypes
