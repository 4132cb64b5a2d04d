import LuaTypes.Member.Listing
import LuaTypes.Member.Search

namespace LuaTypes

namespace SymbolIndex

/-- The names after a superclass is reached: its own, its aliases, and those above it. -/
def walkUp (ix : SymbolIndex) (visited : List String) (superClass : Option String) : List String :=
  match superClass with
  | none => []
  | some name =>
      if _hnew : name ∈ visited then []
      else
        match _hdecl : ix.declaration? name with
        | none => [name]
        | some decl => name :: (decl.aliases ++ ix.walkUp (name :: visited) decl.superClass)
termination_by ix.unvisited visited
decreasing_by exact unvisited_lt _hdecl _hnew

/-- The names of a class value: its own, its aliases, then those of its superclasses with theirs.
If its links cannot be told there is its own name only. -/
def walk (ix : SymbolIndex) (t : LinkTable) (c : ClassTy) : List String :=
  match t.links? ix c with
  | none => [c.name]
  | some links => c.name :: (links.aliases ++ ix.walkUp [c.name] links.superClass)

theorem walkUp_of_undeclared {ix : SymbolIndex} {visited : List String} {name : String}
    (hnew : name ∉ visited) (hdecl : ix.declaration? name = none) :
    ix.walkUp visited (some name) = [name] := by
  rw [walkUp, dif_neg hnew]
  split <;> simp_all

theorem walkUp_of_declared {ix : SymbolIndex} {visited : List String} {name : String}
    {decl : ClassDecl} (hnew : name ∉ visited) (hdecl : ix.declaration? name = some decl) :
    ix.walkUp visited (some name) =
      name :: (decl.aliases ++ ix.walkUp (name :: visited) decl.superClass) := by
  rw [walkUp, dif_neg hnew]
  split <;> simp_all

theorem searchLinks_eq_findSome? (ix : SymbolIndex) (probe : String → Option MemberDecl)
    (visited : List String) (links : ClassLinks) :
    ix.searchLinks probe visited links =
      (links.aliases ++ ix.walkUp visited links.superClass).findSome? probe := by
  fun_induction searchLinks ix probe visited links with
  | case1 visited links d h => simp [h]
  | case2 visited links h hsuper => simp [h, hsuper, walkUp]
  | case3 visited links h superName hsuper hvisited =>
      simp [h, hsuper, walkUp, hvisited]
  | case4 visited links h superName hsuper hnew d hd =>
      cases hdecl : ix.declaration? superName with
      | none => simp [h, hsuper, walkUp_of_undeclared hnew hdecl, hd]
      | some decl => simp [h, hsuper, walkUp_of_declared hnew hdecl, hd]
  | case5 visited links h superName hsuper hnew hd hdecl =>
      simp [h, hsuper, walkUp_of_undeclared hnew hdecl, hd]
  | case6 visited links h superName hsuper hnew hd decl hdecl ih =>
      simp [h, hsuper, walkUp_of_declared hnew hdecl, hd, ih]

theorem collectUp_eq_foldl (ix : SymbolIndex) (scope : SearchScope) (visited : List String)
    (found : List MemberDecl) (superClass : Option String) :
    ix.collectUp scope visited found superClass =
      (ix.walkUp visited superClass).foldl (ix.collect scope) found := by
  fun_induction collectUp ix scope visited found superClass with
  | case1 visited found => simp [walkUp]
  | case2 visited found name hvisited => simp [walkUp, hvisited]
  | case3 visited found name hnew hdecl => simp [walkUp_of_undeclared hnew hdecl]
  | case4 visited found name hnew decl hdecl ih => simp [walkUp_of_declared hnew hdecl, ih]

/-- A search finds the first declaration along the walk. -/
theorem search_eq_findSome?_walk {ix : SymbolIndex} {ctx : SearchContext}
    (h : ix.unavailable ctx = false) (t : LinkTable) (accept : Accept) (c : ClassTy)
    (memberName : String) :
    ix.search t accept c memberName ctx =
      (ix.walk t c).findSome? (ix.probe ctx.scope accept memberName) := by
  unfold search walk
  rw [h]
  cases hown : ix.probe ctx.scope accept memberName c.name with
  | some d => cases t.links? ix c <;> simp [hown]
  | none => cases t.links? ix c <;> simp [hown, searchLinks_eq_findSome?]

/-- A listing collects along the walk. -/
theorem membersOf_eq_foldl_walk {ix : SymbolIndex} {ctx : SearchContext}
    (h : ix.unavailable ctx = false) (t : LinkTable) (c : ClassTy) :
    ix.membersOf t c ctx = (ix.walk t c).foldl (ix.collect ctx.scope) [] := by
  unfold membersOf walk
  rw [h]
  cases t.links? ix c <;> simp [collectUp_eq_foldl]

end SymbolIndex

end LuaTypes
