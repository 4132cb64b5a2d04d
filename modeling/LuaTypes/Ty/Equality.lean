import LuaTypes.Ty.Basic

/-!
When two types count as the same: classes by name, functions without their parameter names and
without their colon, unions as sets, and everything else part by part.
-/

namespace LuaTypes

mutual

/-- Decides whether two types are the same. Unions of one length need to be compared one way only,
since the members of each differ. -/
def Ty.beq : Ty → Ty → Bool
  | .unknown, .unknown => true
  | .nil, .nil => true
  | .void, .void => true
  | .primitive p, .primitive q => p == q
  | .ofClass c, .ofClass d => c.name == d.name
  | .array a, .array b => a.beq b
  | .function ⟨params, returns, varargs, generics, _⟩, .function s =>
      Ty.beqParams params s.params && returns.beq s.returns &&
        Ty.beqOption varargs s.varargs && generics == s.generics
  | .union as, .union bs => as.length == bs.length && Ty.beqWithin as bs
  | .tuple as, .tuple bs => Ty.beqList as bs
  | .generic a as, .generic b bs => a.beq b && Ty.beqList as bs
  | .param a x, .param b y => a == b && Ty.beqOption x y
  | _, _ => false
termination_by structural t => t

def Ty.beqList : List Ty → List Ty → Bool
  | [], [] => true
  | a :: as, b :: bs => a.beq b && Ty.beqList as bs
  | _, _ => false
termination_by structural ts => ts

def Ty.beqParams : List (String × Ty) → List (String × Ty) → Bool
  | [], [] => true
  | (_, a) :: as, (_, b) :: bs => a.beq b && Ty.beqParams as bs
  | _, _ => false
termination_by structural ps => ps

def Ty.beqOption : Option Ty → Option Ty → Bool
  | none, none => true
  | some a, some b => a.beq b
  | _, _ => false
termination_by structural o => o

/-- Each type of the first list occurs in the second. -/
def Ty.beqWithin : List Ty → List Ty → Bool
  | [], _ => true
  | a :: as, bs => bs.any (fun b => a.beq b) && Ty.beqWithin as bs
termination_by structural ts => ts

end

instance : BEq Ty := ⟨Ty.beq⟩

namespace Ty

theorem beqList_eq (as bs : List Ty) : beqList as bs = (as == bs) := by
  induction as generalizing bs with
  | nil => cases bs <;> rfl
  | cons a as ih =>
      cases bs with
      | nil => rfl
      | cons b bs =>
          rw [beqList, ih]
          rfl

theorem beqParams_eq (ps qs : List (String × Ty)) :
    beqParams ps qs = (ps.map Prod.snd == qs.map Prod.snd) := by
  induction ps generalizing qs with
  | nil => cases qs <;> rfl
  | cons p ps ih =>
      cases qs with
      | nil => rfl
      | cons q qs =>
          rw [beqParams, ih]
          rfl

theorem beqOption_eq (a b : Option Ty) : beqOption a b = (a == b) := by
  cases a <;> cases b <;> rfl

theorem beqWithin_eq (as bs : List Ty) :
    beqWithin as bs = as.all fun a => bs.any fun b => a == b := by
  induction as with
  | nil => rfl
  | cons a as ih =>
      rw [beqWithin, ih]
      rfl

theorem ofClass_beq (c d : ClassTy) : (ofClass c == ofClass d) = (c.name == d.name) := rfl

theorem function_beq (s u : Signature Ty) :
    (function s == function u) =
      (s.params.map Prod.snd == u.params.map Prod.snd && s.returns == u.returns &&
        s.varargs == u.varargs && s.generics == u.generics) := by
  rw [← beqParams_eq, ← beqOption_eq]
  rfl

theorem union_beq (as bs : List Ty) :
    (union as == union bs) =
      (as.length == bs.length && as.all fun a => bs.any fun b => a == b) := by
  rw [← beqWithin_eq]
  rfl

theorem tuple_beq (as bs : List Ty) : (tuple as == tuple bs) = (as == bs) := by
  rw [← beqList_eq]
  rfl

theorem generic_beq (a b : Ty) (as bs : List Ty) :
    (generic a as == generic b bs) = (a == b && as == bs) := by
  rw [← beqList_eq]
  rfl

theorem param_beq (a b : String) (x y : Option Ty) :
    (param a x == param b y) = (a == b && x == y) := by
  rw [← beqOption_eq]
  rfl

end Ty

end LuaTypes
