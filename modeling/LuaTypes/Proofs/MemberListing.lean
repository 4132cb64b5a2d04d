import LuaTypes.Proofs.MemberSearch
import Mathlib.Data.List.Nodup

namespace LuaTypes

namespace MemberDecl

theorem mem_of_select {candidates : List MemberDecl} {d : MemberDecl}
    (h : select candidates = some d) : d ∈ candidates := by
  cases counts_of_select h with
  | docField parts kind first => simp [parts]
  | tableField parts kind last undocumented => simp [parts]
  | other parts undocumented noTableField => simp [parts]

/-- A listing with the candidate that counts under a name, unless the name has been found. -/
def enlist (members found : List MemberDecl) (name : String) : List MemberDecl :=
  if found.any (·.name = name) then found
  else found ++ (select (members.filter (·.name = name))).toList

section Enlist

variable {members found : List MemberDecl} {name memberName : String}

theorem enlist_of_found (h : ∃ d ∈ found, d.name = name) : enlist members found name = found := by
  rw [enlist, if_pos (by simpa using h)]

theorem enlist_of_new (h : ∀ d ∈ found, d.name ≠ name) :
    enlist members found name = found ++ (select (members.filter (·.name = name))).toList := by
  rw [enlist, if_neg (by simpa using h)]

theorem name_of_select_filter {d : MemberDecl}
    (h : select (members.filter (·.name = name)) = some d) : d.name = name := by
  simpa using (List.mem_filter.1 (mem_of_select h)).2

theorem find?_toList_select :
    (select (members.filter (·.name = name))).toList.find? (·.name = memberName) =
      if memberName = name then select (members.filter (·.name = memberName)) else none := by
  cases hselect : select (members.filter (·.name = name)) with
  | none =>
      split
      next heq =>
        subst heq
        exact hselect.symm
      next hne => rfl
  | some d =>
      have hname := name_of_select_filter hselect
      split
      next heq =>
        subst heq
        simp [hselect, hname]
      next hne => simp [hname, Ne.symm hne]

theorem find?_enlist :
    (enlist members found name).find? (·.name = memberName) =
      (found.find? (·.name = memberName)).or
        (if memberName = name then select (members.filter (·.name = memberName)) else none) := by
  by_cases hfound : ∃ d ∈ found, d.name = name
  · rw [enlist_of_found hfound]
    split
    next heq =>
      subst heq
      have hsome : (found.find? (·.name = memberName)).isSome := by simpa using hfound
      obtain ⟨d, hd⟩ := Option.isSome_iff_exists.1 hsome
      rw [hd, Option.some_or]
    next hne => rw [Option.or_none]
  · rw [enlist_of_new (by simpa using hfound), List.find?_append, find?_toList_select]

theorem nodup_enlist (h : (found.map MemberDecl.name).Nodup) :
    ((enlist members found name).map MemberDecl.name).Nodup := by
  by_cases hfound : ∃ d ∈ found, d.name = name
  · rwa [enlist_of_found hfound]
  · rw [enlist_of_new (by simpa using hfound), List.map_append, List.nodup_append]
    refine ⟨h, ?_, fun x hx y hy hxy => ?_⟩
    · cases select (members.filter (·.name = name)) <;> simp
    · obtain ⟨d, hd, rfl⟩ := List.mem_map.1 hx
      obtain ⟨e, he, rfl⟩ := List.mem_map.1 hy
      exact hfound ⟨d, hd, hxy.trans (name_of_select_filter (Option.mem_toList.1 he))⟩

theorem find?_foldl_enlist (names : List String) :
    (names.foldl (enlist members) found).find? (·.name = memberName) =
      (found.find? (·.name = memberName)).or
        (if memberName ∈ names then select (members.filter (·.name = memberName)) else none) := by
  induction names generalizing found with
  | nil => simp
  | cons name names ih =>
      rw [List.foldl_cons, ih, find?_enlist, Option.or_assoc]
      congr 1
      by_cases hname : memberName = name
      · subst hname
        by_cases hnames : memberName ∈ names <;> simp [hnames]
      · simp [hname]

theorem nodup_foldl_enlist (names : List String) (h : (found.map MemberDecl.name).Nodup) :
    ((names.foldl (enlist members) found).map MemberDecl.name).Nodup := by
  induction names generalizing found with
  | nil => exact h
  | cons name names ih => exact ih (nodup_enlist h)

theorem forall_mem_foldl_enlist {P : MemberDecl → Prop} (hmembers : ∀ d ∈ members, P d)
    (names : List String) (h : ∀ d ∈ found, P d) :
    ∀ d ∈ names.foldl (enlist members) found, P d := by
  induction names generalizing found with
  | nil => exact h
  | cons name names ih =>
      refine ih ?_
      unfold enlist
      split
      · exact h
      · refine List.forall_mem_append.2 ⟨h, fun d hd => ?_⟩
        have hselect := mem_of_select (Option.mem_toList.1 hd)
        exact hmembers d (List.mem_filter.1 hselect).1

end Enlist

end MemberDecl

namespace SymbolIndex

/-- The states of an index that declarations lead to. -/
inductive Reachable : SymbolIndex → Prop
  | empty : Reachable {}
  | addClass {ix} (d : ClassDecl) (before : Reachable ix) : Reachable (ix.addClass d)
  | addMember {ix ix'} {d : MemberDecl} (before : Reachable ix)
      (added : ix.addMember d = .ok ix') : Reachable ix'
  | setDumb {ix} (dumb : Bool) (before : Reachable ix) : Reachable { ix with dumb }

variable {ix : SymbolIndex} {scope : SearchScope} {className memberName : String}

/-- Every member stands in the group of its class, and its names make a key. -/
def Keyed (ix : SymbolIndex) : Prop :=
  ∀ g ∈ ix.groups, ∀ d ∈ g.2, d.className = g.1 ∧ MemberKey.WellFormed d.className d.name

theorem addMember_of_wellFormed {d : MemberDecl} (h : MemberKey.WellFormed d.className d.name) :
    ix.addMember d = .ok { ix with groups := insertMember d ix.groups } := by
  rw [addMember, MemberKey.ofParts_of_wellFormed h]
  rfl

theorem addMember_eq_ok {d : MemberDecl} {ix' : SymbolIndex} (h : ix.addMember d = .ok ix') :
    MemberKey.WellFormed d.className d.name ∧
      ix' = { ix with groups := insertMember d ix.groups } := by
  by_cases hkey : MemberKey.WellFormed d.className d.name
  · rw [addMember_of_wellFormed hkey] at h
    exact ⟨hkey, (Except.ok.inj h).symm⟩
  · obtain ⟨e, he⟩ := MemberKey.ofParts_of_malformed hkey
    rw [addMember, he] at h
    cases h

theorem forall_mem_insertMember {P : String → MemberDecl → Prop} {d : MemberDecl}
    (hd : P d.className d) {groups : List (String × List MemberDecl)}
    (h : ∀ g ∈ groups, ∀ e ∈ g.2, P g.1 e) : ∀ g ∈ insertMember d groups, ∀ e ∈ g.2, P g.1 e := by
  induction groups with
  | nil => simpa [insertMember] using hd
  | cons g groups ih =>
      obtain ⟨hg, hgroups⟩ := List.forall_mem_cons.1 h
      rw [insertMember]
      split
      next heq =>
        refine List.forall_mem_cons.2 ⟨fun e he => ?_, hgroups⟩
        rcases List.mem_append.1 he with hold | hnew
        · exact hg e hold
        · rw [List.mem_singleton.1 hnew]
          exact heq ▸ hd
      next hne => exact List.forall_mem_cons.2 ⟨hg, ih hgroups⟩

theorem Reachable.keyed (h : ix.Reachable) : ix.Keyed := by
  induction h with
  | empty => exact fun g hg => absurd hg List.not_mem_nil
  | addClass d before ih => exact ih
  | addMember before added ih =>
      obtain ⟨hkey, rfl⟩ := addMember_eq_ok added
      exact forall_mem_insertMember (P := fun className d =>
        d.className = className ∧ MemberKey.WellFormed d.className d.name) ⟨rfl, hkey⟩ ih
  | setDumb dumb before ih => exact ih

theorem exists_group_of_mem {d : MemberDecl} (hd : d ∈ ix.group className scope) :
    ∃ members, (className, members) ∈ ix.groups ∧ d ∈ members := by
  unfold group at hd
  split at hd
  next => cases hd
  next =>
    have hmem := (List.mem_filter.1 hd).1
    cases hgroup : ix.groups.lookup className with
    | none => simp [hgroup] at hmem
    | some members =>
        obtain ⟨before, after, hgroups, -⟩ := List.lookup_eq_some_iff.1 hgroup
        exact ⟨members, by simp [hgroups], by simpa [hgroup] using hmem⟩

theorem Keyed.of_mem_group (h : ix.Keyed) {d : MemberDecl} (hd : d ∈ ix.group className scope) :
    d.className = className ∧ MemberKey.WellFormed className d.name := by
  obtain ⟨members, hgroups, hmem⟩ := exists_group_of_mem hd
  obtain ⟨hclass, hkey⟩ := h _ hgroups d hmem
  change d.className = className at hclass
  exact ⟨hclass, hclass ▸ hkey⟩

theorem mem_of_probe {accept : Accept} {d : MemberDecl}
    (h : ix.probe scope accept memberName className = some d) :
    d ∈ ix.group className scope ∧ d.name = memberName ∧ accept.accepts d := by
  unfold probe at h
  split at h
  next key hkey =>
    obtain ⟨rfl, rfl⟩ := MemberKey.eq_of_ofParts hkey
    obtain ⟨hmember, haccepts⟩ := List.mem_filter.1 (MemberDecl.mem_of_select h)
    obtain ⟨hgroup, hname⟩ := List.mem_filter.1 hmember
    exact ⟨hgroup, of_decide_eq_true hname, haccepts⟩
  next => cases h

theorem exists_group_of_search {t : LinkTable} {accept : Accept} {c : ClassTy}
    {ctx : SearchContext} {d : MemberDecl} (h : ix.search t accept c memberName ctx = some d) :
    ∃ className members, (className, members) ∈ ix.groups ∧ d ∈ members := by
  cases havailable : ix.unavailable ctx with
  | true => simp [search, havailable] at h
  | false =>
      rw [search_eq_findSome?_walk havailable] at h
      obtain ⟨className, -, hprobe⟩ := List.exists_of_findSome?_eq_some h
      exact ⟨className, exists_group_of_mem (mem_of_probe hprobe).1⟩

theorem exists_group_of_lookup {key : String} {d : MemberDecl} (hd : d ∈ ix.lookup key scope) :
    ∃ className members, (className, members) ∈ ix.groups ∧ d ∈ members := by
  unfold lookup at hd
  split at hd
  · split at hd
    next parsed _ => exact ⟨_, exists_group_of_mem (List.mem_filter.1 hd).1⟩
    next => cases hd
  · exact ⟨_, exists_group_of_mem hd⟩

theorem forall_mem_foldl_collect {P : MemberDecl → Prop} {walk : List String}
    (hwalk : ∀ name ∈ walk, ∀ d ∈ ix.lookup name scope, P d) {found : List MemberDecl}
    (h : ∀ d ∈ found, P d) : ∀ d ∈ walk.foldl (ix.collect scope) found, P d := by
  induction walk generalizing found with
  | nil => exact h
  | cons name walk ih =>
      obtain ⟨hname, hwalk⟩ := List.forall_mem_cons.1 hwalk
      exact ih hwalk (MemberDecl.forall_mem_foldl_enlist hname _ h)

theorem forall_mem_membersOf {P : MemberDecl → Prop} {t : LinkTable} {c : ClassTy}
    {ctx : SearchContext} (hwalk : ∀ name ∈ ix.walk t c, ∀ d ∈ ix.lookup name ctx.scope, P d) :
    ∀ d ∈ ix.membersOf t c ctx, P d := by
  cases havailable : ix.unavailable ctx with
  | true => simp [membersOf, havailable]
  | false =>
      rw [membersOf_eq_foldl_walk havailable]
      exact forall_mem_foldl_collect hwalk (fun _ hd => absurd hd List.not_mem_nil)

theorem forall_mem_lookup {P : MemberDecl → Prop} (hindex : ∀ g ∈ ix.groups, ∀ d ∈ g.2, P d)
    (key : String) : ∀ d ∈ ix.lookup key scope, P d := by
  intro d hd
  obtain ⟨className, members, hgroup, hmem⟩ := exists_group_of_lookup hd
  exact hindex _ hgroup d hmem

theorem Keyed.candidates_eq (h : ix.Keyed) :
    ix.candidates scope memberName className =
      (ix.group className scope).filter (·.name = memberName) := by
  by_cases hkey : MemberKey.WellFormed className memberName
  · rw [candidates, if_pos hkey, lookup_joined hkey]
    rfl
  · rw [candidates, if_neg hkey, eq_comm, List.filter_eq_nil_iff]
    intro d hd hname
    exact hkey (of_decide_eq_true hname ▸ (h.of_mem_group hd).2)

theorem mem_namesOf {members : List MemberDecl} :
    memberName ∈ namesOf members ↔ ∃ d ∈ members, d.name = memberName := by
  simp [namesOf]

theorem Keyed.find?_collect (h : ix.Keyed) (hplain : '*' ∉ className.toList)
    (found : List MemberDecl) :
    (ix.collect scope found className).find? (·.name = memberName) =
      (found.find? (·.name = memberName)).or (ix.probe scope .any memberName className) := by
  have hlookup : ix.lookup className scope = ix.group className scope := if_neg hplain
  change ((namesOf (ix.lookup className scope)).foldl
    (MemberDecl.enlist (ix.lookup className scope)) found).find? _ = _
  rw [MemberDecl.find?_foldl_enlist, probe_eq_select, h.candidates_eq, hlookup]
  congr 1
  split
  next => rfl
  next hname =>
    refine (MemberDecl.select_eq_none_iff.2 (List.filter_eq_nil_iff.2 fun d hd hd' => ?_)).symm
    exact hname (mem_namesOf.2 ⟨d, hd, of_decide_eq_true hd'⟩)

theorem Keyed.find?_foldl_collect (h : ix.Keyed) {walk : List String}
    (hplain : ∀ name ∈ walk, '*' ∉ name.toList) (found : List MemberDecl) :
    (walk.foldl (ix.collect scope) found).find? (·.name = memberName) =
      (found.find? (·.name = memberName)).or
        (walk.findSome? (ix.probe scope .any memberName)) := by
  induction walk generalizing found with
  | nil => simp
  | cons name walk ih =>
      obtain ⟨hname, hwalk⟩ := List.forall_mem_cons.1 hplain
      rw [List.foldl_cons, ih hwalk, h.find?_collect hname, Option.or_assoc, List.findSome?_cons]
      cases ix.probe scope .any memberName name <;> rfl

/-- The entry for a name is what a search for it answers. -/
theorem Keyed.find?_membersOf (h : ix.Keyed) {t : LinkTable} {c : ClassTy} {ctx : SearchContext}
    (hplain : ∀ name ∈ ix.walk t c, '*' ∉ name.toList) :
    (ix.membersOf t c ctx).find? (·.name = memberName) = ix.findIn t c memberName ctx := by
  cases havailable : ix.unavailable ctx with
  | true => simp [membersOf, findIn, search, havailable]
  | false =>
      rw [membersOf_eq_foldl_walk havailable, findIn, search_eq_findSome?_walk havailable,
        h.find?_foldl_collect hplain]
      rfl

theorem nodup_foldl_collect {found : List MemberDecl} (walk : List String)
    (h : (found.map MemberDecl.name).Nodup) :
    ((walk.foldl (ix.collect scope) found).map MemberDecl.name).Nodup := by
  induction walk generalizing found with
  | nil => exact h
  | cons name walk ih => exact ih (MemberDecl.nodup_foldl_enlist _ h)

theorem nodup_membersOf (ix : SymbolIndex) (t : LinkTable) (c : ClassTy) (ctx : SearchContext) :
    ((ix.membersOf t c ctx).map MemberDecl.name).Nodup := by
  cases havailable : ix.unavailable ctx with
  | true => simp [membersOf, havailable]
  | false =>
      rw [membersOf_eq_foldl_walk havailable]
      exact nodup_foldl_collect _ List.nodup_nil

theorem find?_eq_some_iff_of_nodup {members : List MemberDecl} {d : MemberDecl}
    (h : (members.map MemberDecl.name).Nodup) :
    members.find? (·.name = memberName) = some d ↔ d ∈ members ∧ d.name = memberName := by
  constructor
  · intro hd
    exact ⟨List.mem_of_find?_eq_some hd, by simpa using List.find?_some hd⟩
  · rintro ⟨hd, rfl⟩
    cases hfind : members.find? (·.name = d.name) with
    | none => simpa using List.find?_eq_none.1 hfind d hd
    | some e =>
        have hname : e.name = d.name := by simpa using List.find?_some hfind
        exact congrArg some
          (List.inj_on_of_nodup_map h (List.mem_of_find?_eq_some hfind) hd hname)

/-- In an index that declarations lead to, and along a walk without a separator in its names, the
listing of a class and the search for a member agree on every name: what the search finds is the
entry of that name, and where it finds nothing there is no such entry. No name is listed twice. -/
theorem listing_agrees_with_search (ix : SymbolIndex) (hix : ix.Reachable) (t : LinkTable)
    (c : ClassTy) (ctx : SearchContext) (hplain : ∀ name ∈ ix.walk t c, '*' ∉ name.toList) :
    (∀ memberName d, ix.findIn t c memberName ctx = some d ↔
      d ∈ ix.membersOf t c ctx ∧ d.name = memberName) ∧
    (∀ memberName, ix.findIn t c memberName ctx = none ↔
      ∀ d ∈ ix.membersOf t c ctx, d.name ≠ memberName) ∧
    ((ix.membersOf t c ctx).map MemberDecl.name).Nodup := by
  have hnodup := ix.nodup_membersOf t c ctx
  refine ⟨fun memberName d => ?_, fun memberName => ?_, hnodup⟩
  · rw [← hix.keyed.find?_membersOf hplain]
    exact find?_eq_some_iff_of_nodup hnodup
  · rw [← hix.keyed.find?_membersOf hplain, List.find?_eq_none]
    simp

theorem circular_reachable : circular.Reachable := by
  have hclasses : Reachable { classes := circular.classes } :=
    .addClass { name := "A", superClass := some "B", aliases := ["X"] }
      (.addClass { name := "B", superClass := some "C" }
        (.addClass { name := "C", superClass := some "B" } .empty))
  have hmethod := hclasses.addMember (addMember_of_wellFormed
    (d := { className := "C", name := "f", kind := .method, ty := .unknown }) (by decide +kernel))
  exact hmethod.addMember (addMember_of_wellFormed
    (d := { className := "C", name := "f", kind := .tableField, ty := .nil }) (by decide +kernel))

theorem circular_walk : circular.walk {} (.named "A") = ["A", "X", "B", "C"] := by
  have hchain : _ = ["A", "B", "C"] :=
    (superChain_climb circular "A" (circular.declaredLinks "A")).unique circular_superChain
  rw [walk_eq_walkAlong rfl]
  change circular.walkAlong "A" (circular.declaredLinks "A")
    ("A" :: circular.climb ["A"] (circular.declaredLinks "A").superClass) = _
  rw [hchain]
  decide +kernel

theorem listing_agrees_with_search_circular :
    circular.Reachable ∧ (∀ name ∈ circular.walk {} (.named "A"), '*' ∉ name.toList) ∧
      { className := "C", name := "f", kind := .tableField, ty := .nil } ∈
        circular.membersOf {} (.named "A") {} := by
  have hplain : ∀ name ∈ circular.walk {} (.named "A"), '*' ∉ name.toList := by
    rw [circular_walk]
    decide +kernel
  have hfound : circular.findIn {} (.named "A") "f" {} =
      some { className := "C", name := "f", kind := .tableField, ty := .nil } := by
    rw [findIn, search_eq_findSome?_walk rfl, circular_walk]
    rfl
  refine ⟨circular_reachable, hplain, ?_⟩
  exact ((listing_agrees_with_search circular circular_reachable {} (.named "A") {} hplain).1
    "f" _).1 hfound |>.1

end SymbolIndex

end LuaTypes
