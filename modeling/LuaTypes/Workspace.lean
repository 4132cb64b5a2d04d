import LuaTypes.Inference.Request
import LuaTypes.Member.Listing
import LuaTypes.Subtype.Check

/-!
An index in use, with the links remembered for the class values that outlive one operation: those
in the types of its members, those that inference makes, and those that a caller keeps.
-/

namespace LuaTypes

/-- An index and what has been remembered of it. -/
structure Workspace where
  index : SymbolIndex := {}
  links : LinkTable := {}

namespace Workspace

/-- Runs an action on the link table. -/
def onLinks {α : Type} (act : StateM LinkTable α) : StateM Workspace α := fun w =>
  let (a, links) := act.run w.links
  (a, { w with links })

/-- Remembers the links of class values as the index knows them now. -/
def settle (cs : List ClassTy) : StateM Workspace Unit :=
  modify fun w => { w with links := w.links.settleAll w.index cs }

/-- Keeps a type, so that the links of its classes are looked up once. -/
def keep (t : Ty) : StateM Workspace Ty :=
  onLinks t.enrol

/-- Puts another index in the place of the present one. -/
def setIndex (ix : SymbolIndex) : StateM Workspace Unit := do
  let index ← onLinks ix.enrol
  modify fun w => { w with index }

/-- Declares a class. Class values that remember its links keep those. -/
def addClass (d : ClassDecl) : StateM Workspace Unit :=
  modify fun w => { w with index := w.index.addClass d }

/-- Adds a member, unless its names make no key. -/
def addMember (d : MemberDecl) : StateM Workspace (Except Error Unit) := do
  let ty ← keep d.ty
  match (← get).index.addMember { d with ty } with
  | .ok index =>
      modify fun w => { w with index }
      return .ok ()
  | .error e => return .error e

/-- Makes the index dumb, or ends that. -/
def setDumb (dumb : Bool) : StateM Workspace Unit :=
  modify fun w => { w with index := { w.index with dumb } }

/-- The links of a class value, which are settled if the index is available. -/
def linksOf? (c : ClassTy) : StateM Workspace (Option ClassLinks) := do
  settle [c]
  let w ← get
  return w.links.links? w.index c

/-- Searches a member, and settles the links of the class value if the search gets to them. -/
def findIn (c : ClassTy) (memberName : String) (ctx : SearchContext) :
    StateM Workspace (Option MemberDecl) := do
  let w ← get
  if w.index.consultsLinks .any c memberName ctx then settle [c]
  return w.index.findIn w.links c memberName ctx

/-- Lists the members of a class value, and settles its links. -/
def membersOf (c : ClassTy) (ctx : SearchContext) : StateM Workspace (List MemberDecl) := do
  let w ← get
  if !w.index.unavailable ctx then settle [c]
  return w.index.membersOf w.links c ctx

/-- Checks two types, and settles the links of the classes that the check asks for. -/
def isSubtype (nilStrict : Bool) (sub sup : Ty) : StateM Workspace Bool := do
  let w ← get
  settle (sub.consultedClasses w.index w.links nilStrict sup)
  return sub.isSubtypeIn w.index w.links nilStrict sup

/-- Goes on with a request on a chunk. The class values it makes get their places here, since they
may be of use when the index has changed. -/
def continueRequest {α : Type} (chunk : Chunk) (r : Request)
    (act : Sources → StateM Request α) : StateM Workspace (α × Request) := do
  let w ← get
  let (a, r) := (act { chunk, index := w.index, links := w.links }).run
    { r with table := some w.links }
  set { w with links := r.table.getD w.links }
  settle r.consulted
  return (a, { r with consulted := [], table := none })

end Workspace

end LuaTypes
