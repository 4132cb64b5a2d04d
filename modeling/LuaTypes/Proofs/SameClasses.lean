import LuaTypes.Member.Walk

namespace LuaTypes

namespace SymbolIndex

/-- The same class declarations, and the indexes are dumb at the same time. -/
structure SameClasses (ix other : SymbolIndex) : Prop where
  dumb : other.dumb = ix.dumb
  classes : other.classes = ix.classes

namespace SameClasses

variable {ix other : SymbolIndex} (h : ix.SameClasses other)

include h

theorem unavailable_eq {ctx ctx' : SearchContext} (hctx : ctx'.dumb = ctx.dumb) :
    other.unavailable ctx' = ix.unavailable ctx := by
  rw [unavailable, unavailable, h.dumb, hctx]

theorem declaration?_eq (name : String) : other.declaration? name = ix.declaration? name := by
  rw [declaration?, declaration?, h.dumb, h.classes]

theorem linksOf?_eq (className : String) : other.linksOf? className = ix.linksOf? className := by
  rw [linksOf?, linksOf?, h.dumb, h.declaration?_eq]

theorem links?_eq (t : LinkTable) (c : ClassTy) : t.links? other c = t.links? ix c := by
  rw [LinkTable.links?, LinkTable.links?, h.linksOf?_eq]

theorem walkUp_eq (visited : List String) (superClass : Option String) :
    other.walkUp visited superClass = ix.walkUp visited superClass := by
  fun_induction ix.walkUp visited superClass with
  | case1 visited => simp [walkUp]
  | case2 visited name hvisited => simp [walkUp, hvisited]
  | case3 visited name hnew hdecl =>
      exact walkUp_of_undeclared hnew ((h.declaration?_eq name).trans hdecl)
  | case4 visited name hnew decl hdecl ih =>
      rw [walkUp_of_declared hnew ((h.declaration?_eq name).trans hdecl), ih]

theorem walk_eq (t : LinkTable) (c : ClassTy) : other.walk t c = ix.walk t c := by
  simp only [walk, h.links?_eq, h.walkUp_eq]

theorem search_eq {accept accept' : Accept} {memberName : String} {ctx ctx' : SearchContext}
    (hctx : ctx'.dumb = ctx.dumb)
    (hprobe : ∀ className, other.probe ctx'.scope accept' memberName className =
      ix.probe ctx.scope accept memberName className) (t : LinkTable) (c : ClassTy) :
    other.search t accept' c memberName ctx' = ix.search t accept c memberName ctx := by
  have hboth := h.unavailable_eq hctx
  cases haway : ix.unavailable ctx with
  | true => rw [search, search, if_pos haway, if_pos (hboth.trans haway)]
  | false =>
      rw [search_eq_findSome?_walk haway, search_eq_findSome?_walk (hboth.trans haway), h.walk_eq,
        funext hprobe]

end SameClasses

/-- The index less the members that fail a test. -/
def keepMembers (ix : SymbolIndex) (p : MemberDecl → Bool) : SymbolIndex :=
  { ix with groups := ix.groups.map fun g => (g.1, g.2.filter p) }

theorem sameClasses_keepMembers (ix : SymbolIndex) (p : MemberDecl → Bool) :
    ix.SameClasses (ix.keepMembers p) :=
  ⟨rfl, rfl⟩

theorem lookup_keepMembers (ix : SymbolIndex) (p : MemberDecl → Bool) (className : String) :
    (ix.keepMembers p).groups.lookup className =
      (ix.groups.lookup className).map (List.filter p) := by
  rw [keepMembers]
  induction ix.groups with
  | nil => rfl
  | cons g groups ih =>
      rw [List.map_cons, List.lookup_cons, List.lookup_cons]
      cases className == g.1 with
      | true => rfl
      | false => exact ih

end SymbolIndex

end LuaTypes
