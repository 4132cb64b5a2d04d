import LuaTypes.Proofs.IndexLog

namespace LuaTypes

namespace SymbolIndex

variable {ix : SymbolIndex} {t : LinkTable} {c : ClassTy} {scope : SearchScope}
  {ctx : SearchContext} {memberName : String}

/-- A name is on the walk of a class value: it names the class itself or one of its superclasses, or
it is an alias of one of these. -/
def OnWalk (ix : SymbolIndex) (t : LinkTable) (c : ClassTy) (name : String) : Prop :=
  ∃ chain, ix.SuperChain c.name (ix.startLinks t c) chain ∧
    ∃ ancestor ∈ chain, name = ancestor ∨
      name ∈ (ix.linksFrom c.name (ix.startLinks t c) ancestor).aliases

theorem onWalk_iff_mem_walk (hindex : ix.dumb = false) {name : String} :
    ix.OnWalk t c name ↔ name ∈ ix.walk t c := by
  have hchain := superChain_climb ix c.name (ix.startLinks t c)
  rw [walk_eq_walkAlong hindex, walkAlong, List.mem_flatMap]
  constructor
  · rintro ⟨chain, hother, ancestor, hancestor, hname⟩
    rw [hother.unique hchain] at hancestor
    exact ⟨ancestor, hancestor, List.mem_cons.2 hname⟩
  · rintro ⟨ancestor, hancestor, hname⟩
    exact ⟨_, hchain, ancestor, hancestor, List.mem_cons.1 hname⟩

theorem available_of_unavailable_eq_false (h : ix.unavailable ctx = false) : ix.dumb = false :=
  (Bool.or_eq_false_iff.1 h).2

/-- What a search finds is declared on its walk, under the name that is searched for, and is what
the search accepts. -/
theorem Keyed.of_search (h : ix.Keyed) {accept : Accept} {d : MemberDecl}
    (hfound : ix.search t accept c memberName ctx = some d) :
    ix.OnWalk t c d.className ∧ d.name = memberName ∧ accept.accepts d := by
  cases havailable : ix.unavailable ctx with
  | true => simp [search, havailable] at hfound
  | false =>
      rw [search_eq_findSome?_walk havailable] at hfound
      obtain ⟨className, hwalk, hprobe⟩ := List.exists_of_findSome?_eq_some hfound
      obtain ⟨hgroup, hname, haccepts⟩ := mem_of_probe hprobe
      refine ⟨?_, hname, haccepts⟩
      rw [onWalk_iff_mem_walk (available_of_unavailable_eq_false havailable),
        (h.of_mem_group hgroup).1]
      exact hwalk

theorem Keyed.of_findShallow (h : ix.Keyed) {className : String} {d : MemberDecl}
    (hfound : ix.findShallow className memberName ctx = some d) :
    d.className = className ∧ d.name = memberName := by
  unfold findShallow at hfound
  split at hfound
  · cases hfound
  · obtain ⟨hgroup, hname, -⟩ := mem_of_probe hfound
    exact ⟨(h.of_mem_group hgroup).1, hname⟩

theorem Keyed.of_lookup (h : ix.Keyed) {key : String} {d : MemberDecl}
    (hd : d ∈ ix.lookup key scope) :
    d.className = key ∨ MemberKey.joined d.className d.name = key := by
  unfold lookup at hd
  split at hd
  -- A text with the separator in it is never a class name, even if a class is declared so.
  · split at hd
    next parsed hparsed =>
      obtain ⟨hgroup, hname⟩ := List.mem_filter.1 hd
      rw [(h.of_mem_group hgroup).1, of_decide_eq_true hname]
      exact .inr (MemberKey.toString_of_parse hparsed)
    next => cases hd
  · exact .inl (h.of_mem_group hd).1

theorem Keyed.of_membersOf (h : ix.Keyed) :
    ∀ d ∈ ix.membersOf t c ctx, ix.OnWalk t c d.className ∨
      ix.OnWalk t c (MemberKey.joined d.className d.name) := by
  cases hindex : ix.dumb with
  | true => simp [membersOf, unavailable, hindex]
  | false =>
      refine forall_mem_membersOf fun name hwalk d hd => ?_
      rw [← onWalk_iff_mem_walk hindex] at hwalk
      rcases h.of_lookup hd with rfl | rfl
      · exact .inl hwalk
      · exact .inr hwalk

/-- In an index that declarations lead to, every search finds only members of a class on its walk,
and only under the name that is searched for. A listing shows only members of a class on the walk as
well, apart from those whose key, class and name joined by the separator, is itself a name on the
walk. -/
theorem members_are_declared_on_walk (ix : SymbolIndex) (hix : ix.Reachable) (t : LinkTable)
    (c : ClassTy) (className memberName : String) (ctx : SearchContext) (d : MemberDecl) :
    (ix.findIn t c memberName ctx = some d →
      ix.OnWalk t c d.className ∧ d.name = memberName) ∧
    (ix.find className memberName ctx = some d →
      ix.OnWalk {} (.named className) d.className ∧ d.name = memberName) ∧
    (ix.findMethod className memberName ctx = some d →
      ix.OnWalk {} (.named className) d.className ∧ d.name = memberName ∧ d.kind = .method) ∧
    (ix.findShallow className memberName ctx = some d →
      d.className = className ∧ d.name = memberName) ∧
    (d ∈ ix.membersOf t c ctx →
      ix.OnWalk t c d.className ∨ ix.OnWalk t c (MemberKey.joined d.className d.name)) := by
  have hkeyed := hix.keyed
  refine ⟨?_, ?_, ?_, hkeyed.of_findShallow, hkeyed.of_membersOf d⟩
  · intro hfound
    obtain ⟨hwalk, hname, -⟩ := hkeyed.of_search hfound
    exact ⟨hwalk, hname⟩
  · intro hfound
    obtain ⟨hwalk, hname, -⟩ := hkeyed.of_search hfound
    exact ⟨hwalk, hname⟩
  · intro hfound
    obtain ⟨hwalk, hname, hmethod⟩ := hkeyed.of_search hfound
    exact ⟨hwalk, hname, of_decide_eq_true hmethod⟩

def foreign : MemberDecl :=
  { className := "A", name := "m", kind := .method, ty := .nil }

/-- A class with an alias that is the key of a member of another class. -/
def starred : SymbolIndex :=
  { classes := [{ name := "B", aliases := ["A*m"] }], groups := [("A", [foreign])] }

theorem starred_reachable : starred.Reachable := by
  have hclass : Reachable { classes := starred.classes } :=
    .addClass { name := "B", aliases := ["A*m"] } .empty
  exact hclass.addMember (addMember_of_wellFormed (d := foreign) (by decide +kernel))

theorem starred_walk : starred.walk {} (.named "B") = ["B", "A*m"] := by
  have hlinks : ({} : LinkTable).links? starred (.named "B") = some { aliases := ["A*m"] } := rfl
  have hup : starred.walkUp ["B"] none = [] := by simp [walkUp]
  rw [walk, hlinks]
  exact congrArg (fun up => "B" :: (["A*m"] ++ up)) hup

theorem starred_membersOf : starred.membersOf {} (.named "B") {} = [foreign] := by
  have hname : starred.lookup "B" .all = [] := by
    rw [lookup, if_neg (by decide +kernel)]
    rfl
  have hkey : starred.lookup "A*m" .all = [foreign] := by
    change starred.lookup (MemberKey.joined "A" "m") .all = _
    rw [lookup_joined (by decide +kernel)]
    rfl
  rw [membersOf_eq_foldl_walk rfl, starred_walk]
  simp [collect, hname, hkey, namesOf, List.eraseDups_cons]
  rfl

theorem members_are_declared_on_walk_starred :
    starred.Reachable ∧ foreign ∈ starred.membersOf {} (.named "B") {} ∧
      (starred.OnWalk {} (.named "B") "A" ∨
        starred.OnWalk {} (.named "B") (MemberKey.joined "A" "m")) := by
  have hlisted : foreign ∈ starred.membersOf {} (.named "B") {} := by
    rw [starred_membersOf]
    exact List.mem_singleton_self foreign
  obtain ⟨-, -, -, -, hlisting⟩ :=
    members_are_declared_on_walk starred starred_reachable {} (.named "B") "B" "m" {} foreign
  exact ⟨starred_reachable, hlisted, hlisting hlisted⟩

/-- A listing shows a member of a class that is not on the walk. -/
theorem listing_shows_foreign_member :
    starred.Reachable ∧ foreign ∈ starred.membersOf {} (.named "B") {} ∧
      ¬ starred.OnWalk {} (.named "B") foreign.className := by
  refine ⟨starred_reachable, ?_, ?_⟩
  · rw [starred_membersOf]
    exact List.mem_singleton_self foreign
  · rw [onWalk_iff_mem_walk rfl, starred_walk]
    decide

end SymbolIndex

end LuaTypes
