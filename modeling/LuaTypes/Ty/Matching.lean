import LuaTypes.Ty.Substitution

/-!
Bindings of generic parameters, learnt by matching the declared type of a parameter against the
type of the argument passed for it.
-/

namespace LuaTypes

/-- What is known of generic parameters, by name. -/
structure Bindings where
  entries : List (String × Ty) := []

namespace Bindings

/-- What a name is bound to. -/
def get? (b : Bindings) (name : String) : Option Ty :=
  b.entries.lookup name

def isEmpty (b : Bindings) : Bool :=
  b.entries.isEmpty

/-- Binds a name, or widens what it is bound to. -/
def bind (b : Bindings) (name : String) (t : Ty) : Bindings :=
  { entries := go b.entries }
where
  go : List (String × Ty) → List (String × Ty)
    | [] => [(name, t)]
    | (n, u) :: rest => if n = name then (n, u.unite t) :: rest else (n, u) :: go rest

/-- Replaces the generic parameters that are bound. -/
def rule (b : Bindings) : Ty → Option Ty
  | .param name _ => b.get? name
  | _ => none

/-- A parameter of a union is bound to the whole argument. -/
def learnMember (actual : Ty) (b : Bindings) : Ty → Bindings
  | .param name _ => b.bind name actual
  | _ => b

end Bindings

mutual

/-- Matches a declared type against an actual one. An unknown argument teaches nothing. -/
def Bindings.learn (b : Bindings) : Ty → Ty → Bindings
  | _, .unknown => b
  | .param name _, actual => b.bind name actual
  | .array declared, .array actual => b.learn declared actual
  | .generic _ declared, .generic _ actual =>
      if declared.length = actual.length then b.learnList declared actual else b
  | .function ⟨params, returns, _, _, _⟩, .function actual =>
      (b.learnParams params actual.params).learn returns actual.returns
  | .union declared, actual => declared.foldl (Bindings.learnMember actual) b
  | _, _ => b
termination_by structural t => t

def Bindings.learnList (b : Bindings) : List Ty → List Ty → Bindings
  | t :: ts, u :: us => (b.learn t u).learnList ts us
  | _, _ => b
termination_by structural ts => ts

def Bindings.learnParams (b : Bindings) :
    List (String × Ty) → List (String × Ty) → Bindings
  | (_, t) :: ts, (_, u) :: us => (b.learn t u).learnParams ts us
  | _, _ => b
termination_by structural ps => ps

end

namespace Bindings

theorem learnParams_eq_learnList (b : Bindings) (ps qs : List (String × Ty)) :
    b.learnParams ps qs = b.learnList (ps.map Prod.snd) (qs.map Prod.snd) := by
  induction ps generalizing b qs with
  | nil => cases qs <;> rfl
  | cons p ps ih =>
      cases qs with
      | nil => rfl
      | cons q qs => exact ih (b.learn p.2 q.2) qs

theorem get?_bind_self (b : Bindings) (name : String) (t : Ty) :
    (b.bind name t).get? name = some ((b.get? name).elim t fun u => u.unite t) := by
  obtain ⟨entries⟩ := b
  change (bind.go name t entries).lookup name = some ((entries.lookup name).elim t _)
  induction entries with
  | nil => rw [bind.go, List.lookup_cons_self, List.lookup_nil, Option.elim_none]
  | cons e entries ih =>
      obtain ⟨bound, u⟩ := e
      by_cases h : bound = name
      · subst h
        rw [bind.go, if_pos rfl, List.lookup_cons_self, List.lookup_cons_self, Option.elim_some]
      · have hne : (name == bound) = false := beq_eq_false_iff_ne.2 (Ne.symm h)
        simpa only [bind.go, if_neg h, List.lookup_cons, hne] using ih

theorem get?_bind_of_ne (b : Bindings) {name other : String} (h : other ≠ name) (t : Ty) :
    (b.bind name t).get? other = b.get? other := by
  obtain ⟨entries⟩ := b
  change (bind.go name t entries).lookup other = entries.lookup other
  have hne : (other == name) = false := beq_eq_false_iff_ne.2 h
  induction entries with
  | nil => simp only [bind.go, List.lookup_cons, hne]
  | cons e entries ih =>
      obtain ⟨bound, u⟩ := e
      by_cases he : bound = name
      · subst he
        rw [bind.go, if_pos rfl, List.lookup_cons, List.lookup_cons, hne]
      · simp only [bind.go, if_neg he, List.lookup_cons, ih]

end Bindings

end LuaTypes
