import LuaTypes.Proofs.IndexLog
import LuaTypes.Proofs.SameClasses

namespace LuaTypes

namespace SymbolIndex

variable {ix other : SymbolIndex}

/-- The index less the members that are no methods. -/
def methodsOnly (ix : SymbolIndex) : SymbolIndex :=
  ix.keepMembers fun d => d.kind = .method

theorem group_keepMembers (ix : SymbolIndex) (p : MemberDecl → Bool) (className : String)
    (scope : SearchScope) :
    (ix.keepMembers p).group className scope = (ix.group className scope).filter p := by
  have hlookup : ((ix.keepMembers p).groups.lookup className).getD [] =
      ((ix.groups.lookup className).getD []).filter p := by
    rw [lookup_keepMembers]
    cases ix.groups.lookup className <;> rfl
  rw [group, group, hlookup]
  change (if ix.dumb then _ else _) = _
  split
  · rfl
  · exact List.filter_comm _ _ _

theorem filter_group_insertMember {d : MemberDecl} {accept : Accept}
    (hd : accept.accepts d = false) (className : String) (scope : SearchScope) :
    (({ ix with groups := insertMember d ix.groups } : SymbolIndex).group className scope).filter
        accept.accepts = (ix.group className scope).filter accept.accepts := by
  rw [group, group, lookup_insertMember]
  change (if ix.dumb then _ else _ : List MemberDecl).filter _ = _
  split
  · rfl
  · rw [List.filter_append, List.filter_append]
    split <;> simp [List.filter_cons, apply_ite, hd]

/-- What a probe finds under a name depends on the members of that class that it accepts. -/
theorem probe_eq_of_group {accept accept' : Accept} {scope scope' : SearchScope}
    {className : String} (memberName : String)
    (h : (other.group className scope').filter accept'.accepts =
      (ix.group className scope).filter accept.accepts) :
    other.probe scope' accept' memberName className =
      ix.probe scope accept memberName className := by
  unfold probe
  split
  next key hkey =>
    obtain ⟨rfl, -⟩ := MemberKey.eq_of_ofParts hkey
    have hcandidates : (other.membersAt key scope').filter accept'.accepts =
        (ix.membersAt key scope).filter accept.accepts := by
      rw [membersAt, membersAt, List.filter_comm, h, List.filter_comm]
    rw [hcandidates]
  next => rfl

theorem search_methodsOnly (ix : SymbolIndex) (t : LinkTable) (c : ClassTy) (memberName : String)
    (ctx : SearchContext) :
    ix.methodsOnly.search t .any c memberName ctx = ix.search t .method c memberName ctx := by
  refine (ix.sameClasses_keepMembers _).search_eq rfl (fun className => ?_) t c
  refine probe_eq_of_group memberName ?_
  rw [group_keepMembers]
  exact List.filter_eq_self.2 fun d _ => rfl

/-- The search for a method of a class is the search for any member in the index less the members
that are no methods. So it is not changed by a declaration of a field, wherever on its way that
stands. -/
theorem method_search_is_field_blind (ix : SymbolIndex) (className memberName : String)
    (ctx : SearchContext) :
    ix.findMethod className memberName ctx = ix.methodsOnly.find className memberName ctx ∧
    ∀ (d : MemberDecl) (ix' : SymbolIndex), d.kind ≠ .method → ix.addMember d = .ok ix' →
      ix'.findMethod className memberName ctx = ix.findMethod className memberName ctx := by
  refine ⟨(ix.search_methodsOnly {} (.named className) memberName ctx).symm,
    fun d ix' hfield hadded => ?_⟩
  obtain ⟨-, rfl⟩ := addMember_eq_ok hadded
  have hsame : ix.SameClasses { ix with groups := insertMember d ix.groups } := ⟨rfl, rfl⟩
  have hd : Accept.method.accepts d = false := decide_eq_false hfield
  refine hsame.search_eq rfl (fun name => ?_) {} (.named className)
  exact probe_eq_of_group memberName (filter_group_insertMember hd name ctx.scope)

/-- A documented field on the class hides the method of the superclass, but not from the search for a
method. -/
theorem method_search_is_field_blind_below_method :
    let field : MemberDecl := { className := "A", name := "m", kind := .docField, ty := .nil }
    let method : MemberDecl := { className := "B", name := "m", kind := .method, ty := .nil }
    let ix : SymbolIndex :=
      { classes := [{ name := "A", superClass := some "B" }], groups := [("B", [method])] }
    let ix' : SymbolIndex := { ix with groups := insertMember field ix.groups }
    field.kind ≠ .method ∧ ix.addMember field = .ok ix' ∧
      ix'.find "A" "m" {} = some field ∧ ix'.findMethod "A" "m" {} = some method := by
  intro field method ix ix'
  have hfield : field.kind ≠ .method := nofun
  have hadded : ix.addMember field = .ok ix' := addMember_of_wellFormed (by decide +kernel)
  have hwalk : ix.walk {} (.named "A") = ["A", "B"] := by
    have hlinks : ({} : LinkTable).links? ix (.named "A") = some { superClass := some "B" } := rfl
    have hup : ix.walkUp ["A"] (some "B") = ["B"] := walkUp_of_undeclared (by decide) rfl
    rw [walk, hlinks]
    exact congrArg ("A" :: ·) hup
  have hmethod : ix.findMethod "A" "m" {} = some method := by
    rw [findMethod, search_eq_findSome?_walk rfl, hwalk]
    rfl
  have hblind := (method_search_is_field_blind ix "A" "m" {}).2 field ix' hfield hadded
  exact ⟨hfield, hadded, rfl, hblind.trans hmethod⟩

end SymbolIndex

end LuaTypes
