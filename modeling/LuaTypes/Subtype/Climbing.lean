import LuaTypes.Index.Links

namespace LuaTypes

namespace SymbolIndex

/-- Whether the ancestor is the given class or stands above it. -/
def climbsTo (ix : SymbolIndex) (ancestor : String) (visited : List String) :
    Option String → Bool
  | none => false
  | some name =>
      if name = ancestor then true
      else if _hnew : name ∈ visited then false
      else
        match _hdecl : ix.declaration? name with
        | none => false
        | some decl => ix.climbsTo ancestor (name :: visited) decl.superClass
termination_by ix.unvisited visited
decreasing_by exact unvisited_lt _hdecl _hnew

/-- Whether the ancestor stands above a class value. -/
def extends? (ix : SymbolIndex) (t : LinkTable) (c : ClassTy) (ancestor : String) : Bool :=
  ix.climbsTo ancestor [c.name] (t.superClass? ix c)

end SymbolIndex

end LuaTypes
