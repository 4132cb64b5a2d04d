import LuaTypes.Index.Links
import LuaTypes.Member.Context

/-!
All members that a class shows, one for each name: its own, then those of its aliases, then those
of its superclasses with theirs. Members of one class come in the order of their names, and an
earlier class hides the names of later ones.
-/

namespace LuaTypes

namespace SymbolIndex

/-- The names of some members, each once, in order. -/
def namesOf (members : List MemberDecl) : List String :=
  (members.map MemberDecl.name).eraseDups.mergeSort fun a b => (compare a b).isLE

/-- Adds the members under a text whose names have not been found before. -/
def collect (ix : SymbolIndex) (scope : SearchScope) (found : List MemberDecl)
    (className : String) : List MemberDecl :=
  let members := ix.lookup className scope
  (namesOf members).foldl (fun found name =>
    if found.any (·.name = name) then found
    else found ++ (MemberDecl.select (members.filter (·.name = name))).toList) found

/-- Adds the members of a superclass, of its aliases, and of the superclasses above. -/
def collectUp (ix : SymbolIndex) (scope : SearchScope) (visited : List String)
    (found : List MemberDecl) (superClass : Option String) : List MemberDecl :=
  match superClass with
  | none => found
  | some name =>
      if _hnew : name ∈ visited then found
      else
        match _hdecl : ix.declaration? name with
        | none => ix.collect scope found name
        | some decl =>
            ix.collectUp scope (name :: visited)
              (decl.aliases.foldl (ix.collect scope) (ix.collect scope found name))
              decl.superClass
termination_by ix.unvisited visited
decreasing_by exact unvisited_lt _hdecl _hnew

/-- The members of a class value, each name once, as far as a search can find them. -/
def membersOf (ix : SymbolIndex) (t : LinkTable) (c : ClassTy) (ctx : SearchContext) :
    List MemberDecl :=
  if ix.unavailable ctx then []
  else
    let own := ix.collect ctx.scope [] c.name
    match t.links? ix c with
    | none => own
    | some links =>
        ix.collectUp ctx.scope [c.name] (links.aliases.foldl (ix.collect ctx.scope) own)
          links.superClass

end SymbolIndex

end LuaTypes
