import LuaTypes.Ty.Union

/-!
Types as documents carry them. A node keeps what is written: a name before it is known to be a
built-in, a union before its members are merged.
-/

namespace LuaTypes

/-- A type as a document writes it. -/
inductive TypeNode where
  | any
  | nil
  | void
  | named (name : String) (args : List TypeNode) (isGlobal : Bool)
  | array (element : TypeNode)
  | union (members : List TypeNode)
  | tuple (elements : List TypeNode)
  | function (signature : Signature TypeNode)
  | param (name : String)

instance : Inhabited TypeNode := ⟨.any⟩

/-- A property of all nodes follows from the property of their parts. -/
@[elab_as_elim, induction_eliminator]
theorem TypeNode.induction {motive : TypeNode → Prop}
    (any : motive .any) (nil : motive .nil) (void : motive .void)
    (named : ∀ name args isGlobal, (∀ a ∈ args, motive a) → motive (.named name args isGlobal))
    (array : ∀ element, motive element → motive (.array element))
    (union : ∀ members, (∀ m ∈ members, motive m) → motive (.union members))
    (tuple : ∀ elements, (∀ e ∈ elements, motive e) → motive (.tuple elements))
    (function : ∀ signature : Signature TypeNode, (∀ p ∈ signature.params, motive p.2) →
      motive signature.returns → (∀ v ∈ signature.varargs, motive v) →
      motive (.function signature))
    (param : ∀ name, motive (.param name)) (n : TypeNode) : motive n := by
  refine @TypeNode.rec motive (fun nodes => ∀ m ∈ nodes, motive m)
    (fun s => (∀ p ∈ s.params, motive p.2) ∧ motive s.returns ∧ ∀ v ∈ s.varargs, motive v)
    (fun params => ∀ p ∈ params, motive p.2) (fun varargs => ∀ v ∈ varargs, motive v)
    (fun p => motive p.2) any nil void named array union tuple
    (fun s hs => function s hs.1 hs.2.1 hs.2.2) param ?_ ?_ ?_ ?_ ?_ ?_ ?_ ?_ n
  · simp
  · exact fun _ _ hhead htail => List.forall_mem_cons.2 ⟨hhead, htail⟩
  · exact fun _ _ _ _ _ hparams hreturns hvarargs => ⟨hparams, hreturns, hvarargs⟩
  · simp
  · exact fun _ _ hhead htail => List.forall_mem_cons.2 ⟨hhead, htail⟩
  · simp
  · simp
  · exact fun _ _ hsnd => hsnd

mutual

/-- Equality of what is written. -/
def TypeNode.beq : TypeNode → TypeNode → Bool
  | .any, .any => true
  | .nil, .nil => true
  | .void, .void => true
  | .named a as g, .named b bs h => a == b && TypeNode.beqList as bs && g == h
  | .array a, .array b => a.beq b
  | .union as, .union bs => TypeNode.beqList as bs
  | .tuple as, .tuple bs => TypeNode.beqList as bs
  | .function ⟨params, returns, varargs, generics, colon⟩, .function s =>
      TypeNode.beqParams params s.params && returns.beq s.returns &&
        TypeNode.beqOption varargs s.varargs && generics == s.generics && colon == s.colon
  | .param a, .param b => a == b
  | _, _ => false
termination_by structural n => n

def TypeNode.beqList : List TypeNode → List TypeNode → Bool
  | [], [] => true
  | a :: as, b :: bs => a.beq b && TypeNode.beqList as bs
  | _, _ => false
termination_by structural ns => ns

def TypeNode.beqParams : List (String × TypeNode) → List (String × TypeNode) → Bool
  | [], [] => true
  | (x, a) :: as, (y, b) :: bs => x == y && a.beq b && TypeNode.beqParams as bs
  | _, _ => false
termination_by structural ps => ps

def TypeNode.beqOption : Option TypeNode → Option TypeNode → Bool
  | none, none => true
  | some a, some b => a.beq b
  | _, _ => false
termination_by structural o => o

end

instance : BEq TypeNode := ⟨TypeNode.beq⟩

mutual

/-- The type that a node stands for. A built-in name is that built-in, whether or not the node says
it names a global. -/
def TypeNode.toTy : TypeNode → Ty
  | .any => .unknown
  | .nil => .nil
  | .void => .void
  | .named name args isGlobal =>
      let base := (Ty.ofBuiltin? name).getD
        (.ofClass { form := if isGlobal then .global name else .declared name })
      if args.isEmpty then base else .generic base (TypeNode.toTyList args)
  | .array element => .array element.toTy
  | .union members => .uniteAll (TypeNode.toTyList members)
  | .tuple elements => .ofValues (TypeNode.toTyList elements)
  | .function ⟨params, returns, varargs, generics, colon⟩ =>
      .function ⟨TypeNode.toTyParams params, returns.toTy, TypeNode.toTyOption varargs, generics,
        colon⟩
  | .param name => .param name none
termination_by structural n => n

def TypeNode.toTyList : List TypeNode → List Ty
  | [] => []
  | n :: ns => n.toTy :: TypeNode.toTyList ns
termination_by structural ns => ns

def TypeNode.toTyParams : List (String × TypeNode) → List (String × Ty)
  | [] => []
  | (name, n) :: ps => (name, n.toTy) :: TypeNode.toTyParams ps
termination_by structural ps => ps

def TypeNode.toTyOption : Option TypeNode → Option Ty
  | none => none
  | some n => some n.toTy
termination_by structural o => o

end

/-- Puts arguments on a node. Only a name can carry them, and it carries no others. -/
def TypeNode.applied (args : List TypeNode) : TypeNode → TypeNode
  | .named name _ isGlobal => .named name args isGlobal
  | n => n

mutual

/-- The node that describes a type. -/
def TypeNode.ofTy : Ty → TypeNode
  | .unknown => .any
  | .nil => .nil
  | .void => .void
  | .primitive p => .named p.name [] false
  | .ofClass c => .named c.name [] c.isGlobal
  | .array element => .array (TypeNode.ofTy element)
  | .function ⟨params, returns, varargs, generics, colon⟩ =>
      .function ⟨TypeNode.ofTyParams params, TypeNode.ofTy returns,
        TypeNode.ofTyOption varargs, generics, colon⟩
  | .union members => .union (TypeNode.ofTyList members)
  | .tuple members => .tuple (TypeNode.ofTyList members)
  | .generic base args => (TypeNode.ofTy base).applied (TypeNode.ofTyList args)
  | .param name _ => .param name
termination_by structural t => t

def TypeNode.ofTyList : List Ty → List TypeNode
  | [] => []
  | t :: ts => TypeNode.ofTy t :: TypeNode.ofTyList ts
termination_by structural ts => ts

def TypeNode.ofTyParams : List (String × Ty) → List (String × TypeNode)
  | [] => []
  | (name, t) :: ps => (name, TypeNode.ofTy t) :: TypeNode.ofTyParams ps
termination_by structural ps => ps

def TypeNode.ofTyOption : Option Ty → Option TypeNode
  | none => none
  | some t => some (TypeNode.ofTy t)
termination_by structural o => o

end

namespace TypeNode

theorem toTyList_eq_map (ns : List TypeNode) : toTyList ns = ns.map toTy := by
  induction ns with
  | nil => rfl
  | cons n ns ih => simp [toTyList, ih]

theorem toTyParams_eq_map (ps : List (String × TypeNode)) :
    toTyParams ps = ps.map fun p => (p.1, p.2.toTy) := by
  induction ps with
  | nil => rfl
  | cons p ps ih => simp [toTyParams, ih]

theorem toTyOption_eq_map (n : Option TypeNode) : toTyOption n = n.map toTy := by
  cases n <;> rfl

theorem ofTyList_eq_map (ts : List Ty) : ofTyList ts = ts.map ofTy := by
  induction ts with
  | nil => rfl
  | cons t ts ih => simp [ofTyList, ih]

theorem ofTyParams_eq_map (ps : List (String × Ty)) :
    ofTyParams ps = ps.map fun p => (p.1, ofTy p.2) := by
  induction ps with
  | nil => rfl
  | cons p ps ih => simp [ofTyParams, ih]

end TypeNode

end LuaTypes
