import LuaTypes.Proofs.ClassWalk
import LuaTypes.Proofs.MemberKeys

namespace LuaTypes

theorem getLast?_filter_eq_some_iff {α : Type} {p : α → Bool} {as : List α} {a : α} :
    (as.filter p).getLast? = some a ↔
      ∃ before after, as = before ++ a :: after ∧ p a ∧ ∀ b ∈ after, ¬ p b := by
  rw [List.getLast?_eq_some_iff]
  constructor
  · rintro ⟨front, hfilter⟩
    obtain ⟨head, tail, rfl, -, htail⟩ := List.filter_eq_append_iff.1 hfilter
    obtain ⟨between, after, rfl, -, ha, hafter⟩ := List.filter_eq_cons_iff.1 htail
    refine ⟨head ++ between, after, ?_, ha, List.filter_eq_nil_iff.1 hafter⟩
    rw [List.append_assoc]
  · rintro ⟨before, after, rfl, ha, hafter⟩
    refine ⟨before.filter p, ?_⟩
    rw [List.filter_append, List.filter_cons_of_pos ha, List.filter_eq_nil_iff.2 hafter]

/-- The candidate that counts: the first documented field, else the last table field, else the
first of the others. -/
inductive MemberDecl.Counts (candidates : List MemberDecl) : MemberDecl → Prop
  | docField {before d after} (parts : candidates = before ++ d :: after)
      (kind : d.kind = .docField) (first : ∀ e ∈ before, e.kind ≠ .docField) :
      Counts candidates d
  | tableField {before d after} (parts : candidates = before ++ d :: after)
      (kind : d.kind = .tableField) (last : ∀ e ∈ after, e.kind ≠ .tableField)
      (undocumented : ∀ e ∈ candidates, e.kind ≠ .docField) : Counts candidates d
  | other {d after} (parts : candidates = d :: after)
      (undocumented : ∀ e ∈ candidates, e.kind ≠ .docField)
      (noTableField : ∀ e ∈ candidates, e.kind ≠ .tableField) : Counts candidates d

namespace MemberDecl

variable {candidates : List MemberDecl} {d : MemberDecl}

theorem find?_docField_eq_none_iff :
    candidates.find? (·.kind = .docField) = none ↔ ∀ e ∈ candidates, e.kind ≠ .docField := by
  simp

theorem getLast?_tableField_eq_none_iff :
    (candidates.filter (·.kind = .tableField)).getLast? = none ↔
      ∀ e ∈ candidates, e.kind ≠ .tableField := by
  simp

theorem counts_of_select (h : select candidates = some d) : Counts candidates d := by
  unfold select at h
  cases hdoc : candidates.find? (·.kind = .docField) with
  | some e =>
      obtain rfl : e = d := by simpa [hdoc] using h
      obtain ⟨hkind, before, after, hparts, hfirst⟩ := List.find?_eq_some_iff_append.1 hdoc
      exact .docField hparts (by simpa using hkind) (by simpa using hfirst)
  | none =>
      have hundocumented := find?_docField_eq_none_iff.1 hdoc
      cases htable : (candidates.filter (·.kind = .tableField)).getLast? with
      | some e =>
          obtain rfl : e = d := by simpa [hdoc, htable] using h
          obtain ⟨before, after, hparts, hkind, hlast⟩ := getLast?_filter_eq_some_iff.1 htable
          exact .tableField hparts (by simpa using hkind) (by simpa using hlast) hundocumented
      | none =>
          have hhead : candidates.head? = some d := by simpa [hdoc, htable] using h
          obtain ⟨after, hparts⟩ := List.head?_eq_some_iff.1 hhead
          exact .other hparts hundocumented (getLast?_tableField_eq_none_iff.1 htable)

theorem select_of_counts (h : Counts candidates d) : select candidates = some d := by
  unfold select
  cases h with
  | @docField before _ after parts kind first =>
      have hdoc : candidates.find? (·.kind = .docField) = some d :=
        List.find?_eq_some_iff_append.2
          ⟨by simpa using kind, before, after, parts, by simpa using first⟩
      simp [hdoc]
  | @tableField before _ after parts kind last undocumented =>
      have htable : (candidates.filter (·.kind = .tableField)).getLast? = some d :=
        getLast?_filter_eq_some_iff.2
          ⟨before, after, parts, by simpa using kind, by simpa using last⟩
      rw [find?_docField_eq_none_iff.2 undocumented, htable]
      rfl
  | other parts undocumented noTableField =>
      rw [find?_docField_eq_none_iff.2 undocumented,
        getLast?_tableField_eq_none_iff.2 noTableField, parts]
      rfl

theorem select_eq_some_iff : select candidates = some d ↔ Counts candidates d :=
  ⟨counts_of_select, select_of_counts⟩

theorem select_eq_none_iff : select candidates = none ↔ candidates = [] := by
  constructor
  · intro h
    cases candidates with
    | nil => rfl
    | cons e rest => simp [select] at h
  · rintro rfl
    rfl

end MemberDecl

namespace SymbolIndex

/-- What a scope shows under the key of a class name and a member name, if they make one. -/
def candidates (ix : SymbolIndex) (scope : SearchScope) (memberName className : String) :
    List MemberDecl :=
  if MemberKey.WellFormed className memberName then
    ix.lookup (MemberKey.joined className memberName) scope
  else []

/-- The answer of a search along a walk: what counts under the first name that has candidates, and
nothing if no name has any. -/
def FindsAlong (ix : SymbolIndex) (scope : SearchScope) (memberName : String)
    (walk : List String) : Option MemberDecl → Prop
  | some d => ∃ before name after, walk = before ++ name :: after ∧
      (∀ earlier ∈ before, ix.candidates scope memberName earlier = []) ∧
      MemberDecl.Counts (ix.candidates scope memberName name) d
  | none => ∀ name ∈ walk, ix.candidates scope memberName name = []

/-- The links that a search starts with: those that the class value has, else those it is declared
with. -/
def startLinks (ix : SymbolIndex) (t : LinkTable) (c : ClassTy) : ClassLinks :=
  (t.cached? c).getD (ix.declaredLinks c.name)

variable {ix : SymbolIndex} {scope : SearchScope} {memberName : String}

theorem lookup_joined {className : String} (h : MemberKey.WellFormed className memberName) :
    ix.lookup (MemberKey.joined className memberName) scope =
      ix.membersAt ⟨className, memberName, KeyFault.ofParts?_eq_none_iff.2 h⟩ scope := by
  have hseparator : '*' ∈ (MemberKey.joined className memberName).toList := by
    simp [MemberKey.joined]
  rw [lookup, if_pos hseparator, MemberKey.parse_joined h, MemberKey.ofParts_of_wellFormed h]

theorem probe_eq_select (className : String) :
    ix.probe scope .any memberName className =
      MemberDecl.select (ix.candidates scope memberName className) := by
  by_cases h : MemberKey.WellFormed className memberName
  · rw [probe, candidates, if_pos h, lookup_joined h, MemberKey.ofParts_of_wellFormed h]
    exact congrArg MemberDecl.select (List.filter_eq_self.2 fun d _ => rfl)
  · obtain ⟨e, he⟩ := MemberKey.ofParts_of_malformed h
    rw [probe, candidates, if_neg h, he]
    rfl

theorem findSome?_probe_eq_iff {walk : List String} {found : Option MemberDecl} :
    walk.findSome? (ix.probe scope .any memberName) = found ↔
      ix.FindsAlong scope memberName walk found := by
  cases found with
  | none =>
      rw [List.findSome?_eq_none_iff]
      simp only [probe_eq_select, MemberDecl.select_eq_none_iff]
      rfl
  | some d =>
      rw [List.findSome?_eq_some_iff]
      simp only [probe_eq_select, MemberDecl.select_eq_none_iff, MemberDecl.select_eq_some_iff]
      constructor
      · rintro ⟨before, name, after, hwalk, hcounts, hbefore⟩
        exact ⟨before, name, after, hwalk, hbefore, hcounts⟩
      · rintro ⟨before, name, after, hwalk, hbefore, hcounts⟩
        exact ⟨before, name, after, hwalk, hcounts, hbefore⟩

theorem links?_eq_startLinks (hindex : ix.dumb = false) (t : LinkTable) (c : ClassTy) :
    t.links? ix c = some (ix.startLinks t c) := by
  unfold LinkTable.links? startLinks
  cases t.cached? c with
  | some links => rfl
  | none => simp [linksOf?, hindex, declaredLinks]

theorem walk_eq_walkAlong (hindex : ix.dumb = false) (t : LinkTable) (c : ClassTy) :
    ix.walk t c = ix.walkAlong c.name (ix.startLinks t c)
      (c.name :: ix.climb [c.name] (ix.startLinks t c).superClass) := by
  have hup : ix.walkUp [c.name] (ix.startLinks t c).superClass =
      ix.walkAlong c.name (ix.startLinks t c)
        (ix.climb [c.name] (ix.startLinks t c).superClass) :=
    walkUp_eq_walkAlong _ _ List.mem_cons_self
  rw [walk, links?_eq_startLinks hindex]
  simp only [hup, walkAlong, List.flatMap_cons, linksFrom_start, List.cons_append]

theorem findIn_along_chain {ctx : SearchContext} (hindex : ix.dumb = false)
    (hctx : ctx.dumb = false) (t : LinkTable) (c : ClassTy) :
    ∃ chain, ix.SuperChain c.name (ix.startLinks t c) chain ∧
      (∀ other, ix.SuperChain c.name (ix.startLinks t c) other → other = chain) ∧
      ∀ found, ix.findIn t c memberName ctx = found ↔
        ix.FindsAlong ctx.scope memberName
          (ix.walkAlong c.name (ix.startLinks t c) chain) found := by
  have havailable : ix.unavailable ctx = false := by
    simp [unavailable, hindex, hctx]
  have hchain := superChain_climb ix c.name (ix.startLinks t c)
  refine ⟨_, hchain, fun other hother => hother.unique hchain, fun found => ?_⟩
  rw [findIn, search_eq_findSome?_walk havailable, walk_eq_walkAlong hindex]
  exact findSome?_probe_eq_iff

/-- While the index is available a search answers with the candidate that counts under the first
name that has any, along the one chain of superclasses that starts at the class, each class followed
by its aliases. The class the search starts from has the links that its value keeps, if any, and
otherwise the declared ones, which are what a search by name starts from. A shallow search has the
name of the class only, and what it finds the search by name finds too. -/
theorem search_follows_class_walk (ix : SymbolIndex) (t : LinkTable) (c : ClassTy)
    (className memberName : String) (ctx : SearchContext) (hindex : ix.dumb = false)
    (hctx : ctx.dumb = false) :
    (∃ chain, ix.SuperChain c.name (ix.startLinks t c) chain ∧
      (∀ other, ix.SuperChain c.name (ix.startLinks t c) other → other = chain) ∧
      ∀ found, ix.findIn t c memberName ctx = found ↔
        ix.FindsAlong ctx.scope memberName
          (ix.walkAlong c.name (ix.startLinks t c) chain) found) ∧
    (∃ chain, ix.SuperChain className (ix.declaredLinks className) chain ∧
      (∀ other, ix.SuperChain className (ix.declaredLinks className) other → other = chain) ∧
      ∀ found, ix.find className memberName ctx = found ↔
        ix.FindsAlong ctx.scope memberName
          (ix.walkAlong className (ix.declaredLinks className) chain) found) ∧
    (∀ found, ix.findShallow className memberName ctx = found ↔
      ix.FindsAlong ctx.scope memberName [className] found) ∧
    ∀ d, ix.findShallow className memberName ctx = some d →
      ix.find className memberName ctx = some d := by
  have havailable : ix.unavailable ctx = false := by
    simp [unavailable, hindex, hctx]
  have hshallow : ix.findShallow className memberName ctx =
      [className].findSome? (ix.probe ctx.scope .any memberName) := by
    simp [findShallow, havailable]
  refine ⟨findIn_along_chain hindex hctx t c, ?_, fun found => ?_, fun d hd => ?_⟩
  · exact findIn_along_chain hindex hctx {} (.named className)
  · rw [hshallow]
    exact findSome?_probe_eq_iff
  · have hprobe : ix.probe ctx.scope .any memberName className = some d := by
      simpa [hshallow] using hd
    have hown : ix.probe ctx.scope .any memberName (ClassTy.named className).name = some d :=
      hprobe
    rw [find, findIn, search, havailable, hown]
    rfl

def circular : SymbolIndex where
  classes :=
    [{ name := "A", superClass := some "B", aliases := ["X"] },
      { name := "B", superClass := some "C" }, { name := "C", superClass := some "B" }]
  groups :=
    [("C", [{ className := "C", name := "f", kind := .method, ty := .unknown },
      { className := "C", name := "f", kind := .tableField, ty := .nil }])]

theorem circular_superChain :
    circular.SuperChain "A" (circular.declaredLinks "A") ["A", "B", "C"] := by
  constructor
  · rfl
  · decide +kernel
  · decide +kernel
  · decide +kernel

theorem search_follows_class_walk_circular :
    circular.dumb = false ∧ (SearchContext.ofIndex circular).dumb = false ∧
      circular.find "A" "f" (.ofIndex circular) =
        some { className := "C", name := "f", kind := .tableField, ty := .nil } := by
  obtain ⟨chain, -, hunique, hfound⟩ :=
    (search_follows_class_walk circular {} (.named "A") "A" "f" (.ofIndex circular) rfl rfl).2.1
  obtain rfl := hunique _ circular_superChain
  refine ⟨rfl, rfl, (hfound _).2 ⟨["A", "X", "B"], "C", [], ?_, ?_, ?_⟩⟩
  · decide +kernel
  · decide +kernel
  · have hcandidates : circular.candidates .all "f" "C" =
        [{ className := "C", name := "f", kind := .method, ty := .unknown }] ++
          { className := "C", name := "f", kind := .tableField, ty := .nil } :: [] := by
      rw [candidates, if_pos (by decide +kernel), lookup_joined (by decide +kernel)]
      rfl
    refine .tableField hcandidates rfl (by simp) ?_
    change ∀ e ∈ circular.candidates .all "f" "C", e.kind ≠ .docField
    rw [hcandidates]
    simp

end SymbolIndex

end LuaTypes
