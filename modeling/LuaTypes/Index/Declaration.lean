import LuaTypes.Ty.Basic

namespace LuaTypes

/-- How a member came to be declared. -/
inductive MemberKind where
  /-- With a type in a structured comment. -/
  | docField
  | tableField
  | method
  | assignedField
  deriving DecidableEq

/-- How documents spell the kind of a member. -/
def MemberKind.word : MemberKind → String
  | .docField => "doc_field"
  | .tableField => "table_field"
  | .method => "method"
  | .assignedField => "assigned_field"

namespace MemberKind

def all : List MemberKind :=
  [.docField, .tableField, .method, .assignedField]

/-- The kind of a word. -/
def ofWord? (w : String) : Option MemberKind :=
  all.find? fun kind => kind.word = w

end MemberKind

/-- The declaration of a member of a class. -/
structure MemberDecl where
  className : String
  name : String
  kind : MemberKind
  ty : Ty
  /-- The file that the declaration stands in. -/
  file : Option String := none

/-- The declaration of a class: its name, and what it takes from others. -/
structure ClassDecl extends ClassLinks where
  name : String
  deriving DecidableEq

namespace ClassDecl

/-- A class that takes nothing from others. -/
def named (name : String) : ClassDecl :=
  { name }

/-- A class has one superclass at most; a later one replaces an earlier one. -/
def withSuperClass (d : ClassDecl) (superClass : String) : ClassDecl :=
  { d with superClass := some superClass }

/-- Appends an alternate name to those a class has. -/
def withAlias (d : ClassDecl) (alternate : String) : ClassDecl :=
  { d with aliases := d.aliases ++ [alternate] }

end ClassDecl

/-- The files whose declarations a search sees. -/
inductive SearchScope where
  | all
  | files (names : List String)

/-- A declaration outside of any file is seen only by a search of everything. -/
def SearchScope.contains : SearchScope → Option String → Bool
  | .all, _ => true
  | .files names, some file => names.contains file
  | .files _, none => false

namespace MemberDecl

/-- The candidate that counts: the first documented field, else the last table field, else the
first of the others. -/
def select (candidates : List MemberDecl) : Option MemberDecl :=
  candidates.find? (·.kind = .docField) <|>
    (candidates.filter (·.kind = .tableField)).getLast? <|>
    candidates.head?

end MemberDecl

end LuaTypes
