import LuaTypes.Index.Memory

/-!
Links of class values. A class value that outlives one operation has a place in a link table; the
first operation that asks for its links while the index is available enters what the index says
then, and from then on that is what they are, whatever becomes of the index.
-/

namespace LuaTypes

/-- The place of a class value, which is for a class of that name only. -/
structure LinkPlace where
  className : String
  /-- What has been looked up, once that has been done. -/
  links : Option ClassLinks := none

namespace LinkPlace

/-- What a place holds for a class of the given name. -/
def linksOf? (p : LinkPlace) (className : String) : Option ClassLinks :=
  if p.className = className then p.links else none

/-- Enters the links of a class into its place; other classes have no use for it. -/
def fill (p : LinkPlace) (className : String) (links : ClassLinks) : LinkPlace :=
  if p.className = className then { p with links := some links } else p

end LinkPlace

/-- The places of all class values that outlive one operation. Copies of a value share its place. -/
structure LinkTable where
  slots : List LinkPlace := []

namespace LinkTable

/-- The links that a class value has without asking the index. -/
def cached? (t : LinkTable) (c : ClassTy) : Option ClassLinks :=
  match c.source with
  | .undetermined => none
  | .kept slot => t.slots[slot]?.bind (·.linksOf? c.name)
  | .given links => some links

/-- The links of a class value: its own, else those that the index knows. -/
def links? (t : LinkTable) (ix : SymbolIndex) (c : ClassTy) : Option ClassLinks :=
  t.cached? c <|> ix.linksOf? c.name

/-- The superclass of a class value. -/
def superClass? (t : LinkTable) (ix : SymbolIndex) (c : ClassTy) : Option String :=
  (t.links? ix c).bind ClassLinks.superClass

/-- Remembers the links of a class value that has a place for them and none yet. -/
def settle (t : LinkTable) (ix : SymbolIndex) (c : ClassTy) : LinkTable :=
  match c.source, t.links? ix c with
  | .kept slot, some links => { slots := t.slots.modify slot (·.fill c.name links) }
  | _, _ => t

/-- Remembers the links of some class values, one after the other. -/
def settleAll (t : LinkTable) (ix : SymbolIndex) (cs : List ClassTy) : LinkTable :=
  cs.foldl (·.settle ix ·) t

end LinkTable

namespace ClassTy

/-- Gives a class value a place in the table, unless its links have a source already. -/
def enrol (c : ClassTy) : StateM LinkTable ClassTy := do
  match c.source with
  | .undetermined =>
      let t ← get
      set ({ slots := t.slots ++ [{ className := c.name }] } : LinkTable)
      return { c with source := .kept t.slots.length }
  | _ => return c

end ClassTy

mutual

/-- Gives every class value in a type a place in the table. -/
def Ty.enrol : Ty → StateM LinkTable Ty
  | .ofClass c => return .ofClass (← c.enrol)
  | .array element => return .array (← element.enrol)
  | .function ⟨params, returns, varargs, generics, colon⟩ =>
      return .function ⟨← Ty.enrolParams params, ← returns.enrol, ← Ty.enrolOption varargs,
        generics, colon⟩
  | .union members => return .union (← Ty.enrolList members)
  | .tuple members => return .tuple (← Ty.enrolList members)
  | .generic base args => return .generic (← base.enrol) (← Ty.enrolList args)
  | .param name bound => return .param name (← Ty.enrolOption bound)
  | .unknown => return .unknown
  | .nil => return .nil
  | .void => return .void
  | .primitive p => return .primitive p
termination_by structural t => t

def Ty.enrolList : List Ty → StateM LinkTable (List Ty)
  | [] => return []
  | t :: ts => return (← t.enrol) :: (← Ty.enrolList ts)
termination_by structural ts => ts

def Ty.enrolParams : List (String × Ty) → StateM LinkTable (List (String × Ty))
  | [] => return []
  | (name, t) :: ps => return (name, ← t.enrol) :: (← Ty.enrolParams ps)
termination_by structural ps => ps

def Ty.enrolOption : Option Ty → StateM LinkTable (Option Ty)
  | none => return none
  | some t => return some (← t.enrol)
termination_by structural o => o

end

/-- A type as it is where there is a table, with places in it for its class values, or none. -/
def Ty.placeIn (t : Ty) : Option LinkTable → Ty × Option LinkTable
  | none => (t, none)
  | some table =>
      let (t, table) := t.enrol.run table
      (t, some table)

namespace SymbolIndex

/-- Gives the class values in the types of all members a place in the table. -/
def enrol (ix : SymbolIndex) : StateM LinkTable SymbolIndex := do
  let groups ← ix.groups.mapM fun g => do
    let members ← g.2.mapM fun d => do return { d with ty := ← d.ty.enrol }
    return (g.1, members)
  return { ix with groups }

end SymbolIndex

end LuaTypes
