import LuaTypes.Proofs.MemberSearch
import LuaTypes.Subtype.Climbing

namespace LuaTypes.SymbolIndex

variable {ix : SymbolIndex} {a b c ancestor : String}

/-- A class and the classes above it, up to one without superclass or whose superclass is among
them. -/
def ancestry (ix : SymbolIndex) (className : String) : List String :=
  className :: ix.climb [className] (ix.declaredLinks className).superClass

theorem linksFrom_declaredLinks (start name : String) :
    ix.linksFrom start (ix.declaredLinks start) name = ix.declaredLinks name := by
  unfold linksFrom
  split
  next heq => rw [heq]
  next => rfl

theorem superChain_ancestry (ix : SymbolIndex) (className : String) :
    ix.SuperChain className (ix.declaredLinks className) (ix.ancestry className) :=
  ix.superChain_climb className (ix.declaredLinks className)

theorem self_mem_ancestry (ix : SymbolIndex) (className : String) :
    className ∈ ix.ancestry className :=
  List.mem_cons_self

theorem SuperChain.superClass_mem {start : String} {links : ClassLinks} {chain : List String}
    (h : ix.SuperChain start links chain) {name above : String} (hname : name ∈ chain)
    (habove : (ix.linksFrom start links name).superClass = some above) : above ∈ chain := by
  obtain ⟨lower, upper, rfl⟩ := List.append_of_mem hname
  cases upper with
  | nil => exact h.ends name (by simp) above habove
  | cons next upper =>
      have hnext := (List.isChain_append_cons_cons.1 h.climbs).2.1
      obtain rfl := Option.some.inj (hnext.symm.trans habove)
      simp

theorem superClass_mem_ancestry {name above : String} (hname : name ∈ ix.ancestry a)
    (habove : (ix.declaredLinks name).superClass = some above) : above ∈ ix.ancestry a := by
  refine (ix.superChain_ancestry a).superClass_mem hname ?_
  rwa [linksFrom_declaredLinks]

theorem ancestry_trans (hb : b ∈ ix.ancestry a) (hc : c ∈ ix.ancestry b) : c ∈ ix.ancestry a := by
  have hclimbs := (ix.superChain_ancestry b).climbs
  refine hclimbs.induction (· ∈ ix.ancestry a) _ (fun name above habove hname => ?_) ?_ c hc
  · rw [linksFrom_declaredLinks] at habove
    exact superClass_mem_ancestry hname habove
  · intro _
    exact hb

/-- The climb to an ancestor tests the classes that the climb without a goal goes through. -/
theorem climbsTo_iff_mem_climb {visited : List String} {superClass : Option String}
    (hnew : ancestor ∉ visited) :
    ix.climbsTo ancestor visited superClass = true ↔ ancestor ∈ ix.climb visited superClass := by
  fun_induction climbsTo ix ancestor visited superClass with
  | case1 visited => simp [climb]
  | case2 visited =>
      rw [climb, dif_neg hnew]
      split <;> simp
  | case3 visited name hne hvisited => simp [climb, hvisited]
  | case4 visited name hne hfresh hdecl =>
      rw [climb, dif_neg hfresh]
      split <;> simp_all [eq_comm]
  | case5 visited name hne hfresh decl hdecl ih =>
      have hgoal : ancestor ≠ name := fun heq => hne heq.symm
      rw [climb, dif_neg hfresh]
      split
      next hnone => simp [hdecl] at hnone
      next decl' hdecl' =>
        obtain rfl := Option.some.inj (hdecl.symm.trans hdecl')
        rw [ih (by simp [hgoal, hnew]), List.mem_cons]
        simp [hgoal]

/-- What the links that a class value remembers say is what the index declares. -/
def LinksAgree (ix : SymbolIndex) (t : LinkTable) (c : ClassTy) : Prop :=
  ∀ links ∈ t.cached? c, links = ix.declaredLinks c.name

theorem startLinks_of_linksAgree {t : LinkTable} {c : ClassTy} (h : ix.LinksAgree t c) :
    ix.startLinks t c = ix.declaredLinks c.name := by
  unfold startLinks
  cases hcached : t.cached? c with
  | none => rfl
  | some links => exact h links hcached

/-- While the index is available a class value has exactly its ancestry at or above it. -/
theorem mem_ancestry_iff (hindex : ix.dumb = false) {t : LinkTable} {c : ClassTy}
    (hlinks : ix.LinksAgree t c) :
    ancestor ∈ ix.ancestry c.name ↔ c.name = ancestor ∨ ix.extends? t c ancestor = true := by
  have hsuper : t.superClass? ix c = (ix.declaredLinks c.name).superClass := by
    rw [LinkTable.superClass?, links?_eq_startLinks hindex, startLinks_of_linksAgree hlinks]
    rfl
  rw [extends?, hsuper, ancestry, List.mem_cons, eq_comm]
  by_cases heq : c.name = ancestor
  · simp [heq]
  · rw [climbsTo_iff_mem_climb (by simpa using fun h => heq h.symm)]

end LuaTypes.SymbolIndex
