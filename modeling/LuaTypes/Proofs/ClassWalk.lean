import LuaTypes.Member.Walk
import Mathlib.Data.List.Chain

namespace LuaTypes

namespace SymbolIndex

variable {ix : SymbolIndex} {start : String} {links : ClassLinks}

/-- The links that a class is declared with. Without a declaration there are none. -/
def declaredLinks (ix : SymbolIndex) (name : String) : ClassLinks :=
  (ix.declaration? name).elim {} ClassDecl.toClassLinks

/-- The links of a class, seen from a class whose own links are given. -/
def linksFrom (ix : SymbolIndex) (start : String) (links : ClassLinks) (name : String) :
    ClassLinks :=
  if name = start then links else ix.declaredLinks name

/-- The chain of superclasses: it ends with a class without superclass, or with one whose
superclass is on the chain already. -/
structure SuperChain (ix : SymbolIndex) (start : String) (links : ClassLinks)
    (chain : List String) : Prop where
  starts : chain.head? = some start
  climbs : chain.IsChain fun name above =>
    (ix.linksFrom start links name).superClass = some above
  once : chain.Nodup
  ends : ∀ top ∈ chain.getLast?, ∀ above ∈ (ix.linksFrom start links top).superClass,
    above ∈ chain

/-- The names along a chain: each class, then its aliases. -/
def walkAlong (ix : SymbolIndex) (start : String) (links : ClassLinks) (chain : List String) :
    List String :=
  chain.flatMap fun name => name :: (ix.linksFrom start links name).aliases

theorem linksFrom_start : ix.linksFrom start links start = links :=
  if_pos rfl

theorem linksFrom_of_undeclared {name : String} (hne : name ≠ start)
    (hdecl : ix.declaration? name = none) : ix.linksFrom start links name = {} := by
  rw [linksFrom, if_neg hne, declaredLinks, hdecl]
  rfl

theorem linksFrom_of_declared {name : String} {decl : ClassDecl} (hne : name ≠ start)
    (hdecl : ix.declaration? name = some decl) :
    ix.linksFrom start links name = decl.toClassLinks := by
  rw [linksFrom, if_neg hne, declaredLinks, hdecl]
  rfl

/-- The superclasses that a search climbs to. -/
def climb (ix : SymbolIndex) (visited : List String) (superClass : Option String) :
    List String :=
  match superClass with
  | none => []
  | some name =>
      if _hnew : name ∈ visited then []
      else
        match _hdecl : ix.declaration? name with
        | none => [name]
        | some decl => name :: ix.climb (name :: visited) decl.superClass
termination_by ix.unvisited visited
decreasing_by exact unvisited_lt _hdecl _hnew

theorem climb_fresh (visited : List String) (superClass : Option String) :
    ∀ name ∈ ix.climb visited superClass, name ∉ visited := by
  fun_induction climb ix visited superClass with
  | case1 visited => simp
  | case2 visited name hvisited => simp
  | case3 visited name hnew hdecl => simpa using hnew
  | case4 visited name hnew decl hdecl ih =>
      refine List.forall_mem_cons.2 ⟨hnew, fun above habove hvisited => ?_⟩
      exact ih above habove (List.mem_cons_of_mem name hvisited)

theorem climb_nodup (visited : List String) (superClass : Option String) :
    (ix.climb visited superClass).Nodup := by
  fun_induction climb ix visited superClass with
  | case1 visited => exact List.nodup_nil
  | case2 visited name hvisited => exact List.nodup_nil
  | case3 visited name hnew hdecl => exact List.pairwise_singleton _ name
  | case4 visited name hnew decl hdecl ih =>
      refine List.nodup_cons.2 ⟨fun hname => ?_, ih⟩
      exact climb_fresh _ _ name hname List.mem_cons_self

theorem climb_isChain (visited : List String) (superClass : Option String)
    (hstart : start ∈ visited) {below : String}
    (hbelow : (ix.linksFrom start links below).superClass = superClass) :
    (below :: ix.climb visited superClass).IsChain fun name above =>
      (ix.linksFrom start links name).superClass = some above := by
  fun_induction climb ix visited superClass generalizing below with
  | case1 visited => exact .singleton below
  | case2 visited name hvisited => exact .singleton below
  | case3 visited name hnew hdecl => exact .cons_cons hbelow (.singleton name)
  | case4 visited name hnew decl hdecl ih =>
      have hne : name ≠ start := fun heq => hnew (heq ▸ hstart)
      refine .cons_cons hbelow (ih (List.mem_cons_of_mem name hstart) ?_)
      rw [linksFrom_of_declared hne hdecl]

theorem climb_ends (visited : List String) (superClass : Option String)
    (hstart : start ∈ visited) {below : String}
    (hbelow : (ix.linksFrom start links below).superClass = superClass) :
    ∀ top ∈ (below :: ix.climb visited superClass).getLast?,
      ∀ above ∈ (ix.linksFrom start links top).superClass,
        above ∈ visited ∨ above ∈ ix.climb visited superClass := by
  fun_induction climb ix visited superClass generalizing below with
  | case1 visited =>
      intro top htop above habove
      obtain rfl : below = top := by simpa using htop
      rw [hbelow] at habove
      cases habove
  | case2 visited name hvisited =>
      intro top htop above habove
      obtain rfl : below = top := by simpa using htop
      rw [hbelow] at habove
      obtain rfl := Option.some.inj habove
      exact .inl hvisited
  | case3 visited name hnew hdecl =>
      intro top htop above habove
      have hne : name ≠ start := fun heq => hnew (heq ▸ hstart)
      obtain rfl : name = top := by simpa using htop
      rw [linksFrom_of_undeclared hne hdecl] at habove
      cases habove
  | case4 visited name hnew decl hdecl ih =>
      intro top htop above habove
      have hne : name ≠ start := fun heq => hnew (heq ▸ hstart)
      rw [List.getLast?_cons_cons] at htop
      have hsuper : (ix.linksFrom start links name).superClass = decl.superClass := by
        rw [linksFrom_of_declared hne hdecl]
      rcases ih (List.mem_cons_of_mem name hstart) hsuper top htop above habove with
        hvisited | hclimbed
      · rcases List.mem_cons.1 hvisited with rfl | hvisited
        · exact .inr List.mem_cons_self
        · exact .inl hvisited
      · exact .inr (List.mem_cons_of_mem name hclimbed)

theorem walkUp_eq_walkAlong (visited : List String) (superClass : Option String)
    (hstart : start ∈ visited) :
    ix.walkUp visited superClass = ix.walkAlong start links (ix.climb visited superClass) := by
  fun_induction climb ix visited superClass with
  | case1 visited => simp [walkUp, walkAlong]
  | case2 visited name hvisited => simp [walkUp, walkAlong, hvisited]
  | case3 visited name hnew hdecl =>
      have hne : name ≠ start := fun heq => hnew (heq ▸ hstart)
      simp [walkUp_of_undeclared hnew hdecl, walkAlong, linksFrom_of_undeclared hne hdecl]
  | case4 visited name hnew decl hdecl ih =>
      have hne : name ≠ start := fun heq => hnew (heq ▸ hstart)
      rw [walkUp_of_declared hnew hdecl, ih (List.mem_cons_of_mem name hstart)]
      simp [walkAlong, linksFrom_of_declared hne hdecl]

theorem superChain_climb (ix : SymbolIndex) (start : String) (links : ClassLinks) :
    ix.SuperChain start links (start :: ix.climb [start] links.superClass) := by
  have hstart : start ∈ [start] := List.mem_cons_self
  have hlinks : (ix.linksFrom start links start).superClass = links.superClass := by
    rw [linksFrom_start]
  constructor
  · rfl
  · exact climb_isChain _ _ hstart hlinks
  · refine List.nodup_cons.2 ⟨fun hmem => ?_, climb_nodup _ _⟩
    exact climb_fresh _ _ start hmem hstart
  · intro top htop above habove
    rcases climb_ends _ _ hstart hlinks top htop above habove with hvisited | hclimbed
    · exact List.mem_cons.2 (.inl (List.mem_singleton.1 hvisited))
    · exact List.mem_cons_of_mem start hclimbed

namespace SuperChain

variable {lower upper upper' : List String}

/-- A chain that ends with a class is not continued above it in another chain. -/
theorem not_continued {top name : String}
    (h : ix.SuperChain start links (lower ++ [top]))
    (h' : ix.SuperChain start links (lower ++ top :: name :: upper)) : False := by
  have hsuper : (ix.linksFrom start links top).superClass = some name :=
    (List.isChain_append_cons_cons.1 h'.climbs).2.1
  have hmem : name ∈ lower ++ [top] := h.ends top (by simp) name hsuper
  have honce := h'.once
  simp only [List.nodup_append, List.nodup_cons, List.mem_cons, List.mem_append] at honce hmem
  grind

theorem upper_unique {top : String} (h : ix.SuperChain start links (lower ++ top :: upper))
    (h' : ix.SuperChain start links (lower ++ top :: upper')) : upper = upper' := by
  induction upper generalizing lower top upper' with
  | nil =>
      cases upper' with
      | nil => rfl
      | cons name upper' => exact (h.not_continued h').elim
  | cons name upper ih =>
      cases upper' with
      | nil => exact (h'.not_continued h).elim
      | cons name' upper' =>
          have hname := (List.isChain_append_cons_cons.1 h.climbs).2.1
          have hname' := (List.isChain_append_cons_cons.1 h'.climbs).2.1
          obtain rfl := Option.some.inj (hname.symm.trans hname')
          rw [← List.singleton_append (x := top), ← List.append_assoc] at h h'
          rw [ih h h']

theorem unique {chain chain' : List String} (h : ix.SuperChain start links chain)
    (h' : ix.SuperChain start links chain') : chain = chain' := by
  cases chain with
  | nil => cases h.starts
  | cons name upper =>
      cases chain' with
      | nil => cases h'.starts
      | cons name' upper' =>
          obtain rfl : name = start := Option.some.inj h.starts
          obtain rfl : name' = name := Option.some.inj h'.starts
          rw [← List.nil_append (name' :: upper)] at h
          rw [← List.nil_append (name' :: upper')] at h'
          rw [h.upper_unique h']

end SuperChain

end SymbolIndex

end LuaTypes
