/-!
Types of Lua-style code. A type is a finite tree; its leaves are the values without further
structure, the built-in keywords, classes and generic parameters. Classes are known by name, and
what a class inherits is not part of the type: it is found through the class value's link source.
-/

namespace LuaTypes

/-- The built-in types that are more than the absence of a value. -/
inductive Primitive where
  | string
  | number
  | boolean
  | table
  | function
  deriving DecidableEq

/-- The keyword of a built-in type. -/
def Primitive.name : Primitive → String
  | .string => "string"
  | .number => "number"
  | .boolean => "boolean"
  | .table => "table"
  | .function => "function"

/-- What a class takes from others: its superclass, and the alternate names whose members count
as its own. -/
structure ClassLinks where
  superClass : Option String := none
  aliases : List String := []
  deriving DecidableEq

/-- Where the links of a class value come from. -/
inductive LinkSource where
  /-- The declarations known at each use. So it is with a value that is of no use any more when they
  change. -/
  | undetermined
  /-- The place in a link table where they are remembered once they have been looked up. -/
  | kept (slot : Nat)
  /-- They came with the value. -/
  | given (links : ClassLinks)
  deriving DecidableEq

/-- How a class came by its name. -/
inductive ClassForm where
  | declared (name : String)
  /-- Named after a global variable. -/
  | global (name : String)
  | anonymous (name : String)
  /-- Stands for the table constructor at a node of a chunk. -/
  | tableLiteral (node : Nat)
  deriving DecidableEq

/-- The name of a class, which decides whether it is the same as another. -/
def ClassForm.name : ClassForm → String
  | .declared name => name
  | .global name => name
  | .anonymous name => name
  | .tableLiteral node => "table@" ++ toString node

/-- A class value. Two of them are the same type when their names agree. -/
structure ClassTy where
  form : ClassForm
  source : LinkSource := .undetermined
  deriving DecidableEq

namespace ClassTy

/-- The name of a class value. -/
def name (c : ClassTy) : String :=
  c.form.name

/-- A declared class, known by name only. -/
def named (name : String) : ClassTy :=
  { form := .declared name }

def isGlobal (c : ClassTy) : Bool :=
  match c.form with
  | .global _ => true
  | _ => false

/-- Table constructors have no name a user could write either. -/
def isAnonymous (c : ClassTy) : Bool :=
  match c.form with
  | .anonymous _ | .tableLiteral _ => true
  | _ => false

/-- The table constructor that a class value stands for. -/
def tableNode? (c : ClassTy) : Option Nat :=
  match c.form with
  | .tableLiteral node => some node
  | _ => none

/-- Declared under a name. -/
def isConcrete (c : ClassTy) : Bool :=
  !c.isGlobal && !c.isAnonymous

end ClassTy

/-- A function signature over types of any representation. -/
structure Signature (α : Type) where
  params : List (String × α) := []
  returns : α
  varargs : Option α := none
  /-- Names of the generic parameters that the signature binds. -/
  generics : List String := []
  /-- Defined with an implicit `self`. -/
  colon : Bool := false

/-- A type. Unions are meant to be built by `Ty.unite`, which keeps them well formed. -/
inductive Ty where
  /-- Nothing is known: every value belongs to it. -/
  | unknown
  | nil
  | void
  | primitive (p : Primitive)
  | ofClass (c : ClassTy)
  | array (element : Ty)
  | function (signature : Signature Ty)
  | union (members : List Ty)
  | tuple (members : List Ty)
  | generic (base : Ty) (args : List Ty)
  | param (name : String) (bound : Option Ty)

instance : Inhabited Ty := ⟨.unknown⟩

/-- A property of all types follows from the property of their parts. -/
@[elab_as_elim, induction_eliminator]
theorem Ty.induction {motive : Ty → Prop}
    (unknown : motive .unknown) (nil : motive .nil) (void : motive .void)
    (primitive : ∀ p, motive (.primitive p)) (ofClass : ∀ c, motive (.ofClass c))
    (array : ∀ element, motive element → motive (.array element))
    (function : ∀ signature : Signature Ty, (∀ p ∈ signature.params, motive p.2) →
      motive signature.returns → (∀ v ∈ signature.varargs, motive v) →
      motive (.function signature))
    (union : ∀ members, (∀ m ∈ members, motive m) → motive (.union members))
    (tuple : ∀ members, (∀ m ∈ members, motive m) → motive (.tuple members))
    (generic : ∀ base args, motive base → (∀ a ∈ args, motive a) → motive (.generic base args))
    (param : ∀ name bound, (∀ b ∈ bound, motive b) → motive (.param name bound))
    (t : Ty) : motive t := by
  refine @Ty.rec motive
    (fun s => (∀ p ∈ s.params, motive p.2) ∧ motive s.returns ∧ ∀ v ∈ s.varargs, motive v)
    (fun members => ∀ m ∈ members, motive m) (fun bound => ∀ b ∈ bound, motive b)
    (fun params => ∀ p ∈ params, motive p.2) (fun p => motive p.2)
    unknown nil void primitive ofClass array (fun s hs => function s hs.1 hs.2.1 hs.2.2)
    union tuple generic param ?_ ?_ ?_ ?_ ?_ ?_ ?_ ?_ t
  · exact fun _ _ _ _ _ hparams hreturns hvarargs => ⟨hparams, hreturns, hvarargs⟩
  · simp
  · exact fun _ _ hhead htail => List.forall_mem_cons.2 ⟨hhead, htail⟩
  · simp
  · simp
  · simp
  · exact fun _ _ hhead htail => List.forall_mem_cons.2 ⟨hhead, htail⟩
  · exact fun _ _ hsnd => hsnd

namespace Ty

/-- The kinds of types, in the order in which they break a tie between equally ranked types. -/
inductive Kind where
  | unknown
  | primitive
  | array
  | function
  | ofClass
  | union
  | generic
  | nil
  | void
  | tuple
  | param
  deriving DecidableEq, Ord

def kind : Ty → Kind
  | .unknown => .unknown
  | .nil => .nil
  | .void => .void
  | .primitive _ => .primitive
  | .ofClass _ => .ofClass
  | .array _ => .array
  | .function _ => .function
  | .union _ => .union
  | .tuple _ => .tuple
  | .generic _ _ => .generic
  | .param _ _ => .param

/-- Marks that a type carries and that never decide whether two types are the same. -/
structure Flags where
  anonymous : Bool := false
  global : Bool := false
  selfCall : Bool := false
  deriving DecidableEq

def flags : Ty → Flags
  | .ofClass c => { anonymous := c.isAnonymous, global := c.isGlobal }
  | .function s => { selfCall := s.colon }
  | _ => {}

/-- The type of a class known by name only. -/
def named (name : String) : Ty :=
  .ofClass (.named name)

/-- Carries no value that a union could keep. -/
def isInvalid : Ty → Bool
  | .unknown | .nil | .void => true
  | _ => false

/-- The type of a list of values. One value is itself, so a tuple built here has at least two
members. -/
def ofValues : List Ty → Ty
  | [] => .void
  | [value] => value
  | values => .tuple values

/-- The type that a keyword stands for. -/
def ofBuiltin? : String → Option Ty
  | "any" => some .unknown
  | "nil" => some .nil
  | "void" => some .void
  | "boolean" => some (.primitive .boolean)
  | "string" => some (.primitive .string)
  | "number" => some (.primitive .number)
  | "table" => some (.primitive .table)
  | "function" => some (.primitive .function)
  | _ => none

def builtin? : Ty → Option String
  | .unknown => some "any"
  | .nil => some "nil"
  | .void => some "void"
  | .primitive p => some p.name
  | _ => none

theorem ofBuiltin?_builtin? {t : Ty} {name : String} (h : t.builtin? = some name) :
    ofBuiltin? name = some t := by
  cases t with
  | primitive p => cases p <;> simp_all [builtin?, Primitive.name] <;> subst h <;> rfl
  | _ => simp_all [builtin?] <;> subst h <;> rfl

end Ty

end LuaTypes
