import LuaTypes.Index.Links
import LuaTypes.Member.Context

/-!
The search for a member of a class: under the class's own key, then under those of its aliases,
then in the same way on its superclass. Aliases of an alias and its superclass are not followed.
The search ends where the superclass has been visited before.
-/

namespace LuaTypes

/-- Which declarations a search accepts. -/
inductive Accept where
  | any
  | method

/-- Whether a declaration is accepted. -/
def Accept.accepts : Accept → MemberDecl → Bool
  | .any, _ => true
  | .method, d => d.kind = .method

namespace SymbolIndex

/-- The declaration that counts under a single key. Names that make no key have none. -/
def probe (ix : SymbolIndex) (scope : SearchScope) (accept : Accept)
    (memberName className : String) : Option MemberDecl :=
  match MemberKey.ofParts className memberName with
  | .ok key => MemberDecl.select ((ix.membersAt key scope).filter accept.accepts)
  | .error _ => none

/-- Searches the aliases and the superclass of a class whose own key has been tried. A superclass
without a declaration has nothing but its own key. -/
def searchLinks (ix : SymbolIndex) (probe : String → Option MemberDecl) (visited : List String)
    (links : ClassLinks) : Option MemberDecl :=
  match links.aliases.findSome? probe with
  | some d => some d
  | none =>
      match links.superClass with
      | none => none
      | some superName =>
          if _hnew : superName ∈ visited then none
          else
            match probe superName with
            | some d => some d
            | none =>
                match _hdecl : ix.declaration? superName with
                | none => none
                | some decl => ix.searchLinks probe (superName :: visited) decl.toClassLinks
termination_by ix.unvisited visited
decreasing_by exact unvisited_lt _hdecl _hnew

/-- Whether a search from a class value gets as far as its links. -/
def consultsLinks (ix : SymbolIndex) (accept : Accept) (c : ClassTy) (memberName : String)
    (ctx : SearchContext) : Bool :=
  !ix.unavailable ctx && (ix.probe ctx.scope accept memberName c.name).isNone

/-- Searches from a class value whose links are known from a link table. -/
def search (ix : SymbolIndex) (t : LinkTable) (accept : Accept) (c : ClassTy)
    (memberName : String) (ctx : SearchContext) : Option MemberDecl :=
  if ix.unavailable ctx then none
  else
    match ix.probe ctx.scope accept memberName c.name with
    | some d => some d
    | none =>
        match t.links? ix c with
        | none => none
        | some links =>
            ix.searchLinks (ix.probe ctx.scope accept memberName) [c.name] links

/-- Any member, from a class value. -/
def findIn (ix : SymbolIndex) (t : LinkTable) (c : ClassTy) (memberName : String)
    (ctx : SearchContext) : Option MemberDecl :=
  ix.search t .any c memberName ctx

/-- Any member, from a class known by name only. -/
def find (ix : SymbolIndex) (className memberName : String) (ctx : SearchContext) :
    Option MemberDecl :=
  ix.findIn {} (.named className) memberName ctx

/-- Methods only; fields are passed over as if they were not there. -/
def findMethod (ix : SymbolIndex) (className memberName : String) (ctx : SearchContext) :
    Option MemberDecl :=
  ix.search {} .method (.named className) memberName ctx

/-- The class's own key only. -/
def findShallow (ix : SymbolIndex) (className memberName : String) (ctx : SearchContext) :
    Option MemberDecl :=
  if ix.unavailable ctx then none else ix.probe ctx.scope .any memberName className

end SymbolIndex

end LuaTypes
