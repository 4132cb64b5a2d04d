import LuaTypes.Proofs.Ancestry
import LuaTypes.Proofs.MemberListing
import LuaTypes.Proofs.SubtypeRules

namespace LuaTypes.SymbolIndex

variable {ix : SymbolIndex} {a b memberName : String}

theorem cached?_named (t : LinkTable) (name : String) : t.cached? (.named name) = none :=
  rfl

theorem linksAgree_named (ix : SymbolIndex) (t : LinkTable) (name : String) :
    ix.LinksAgree t (.named name) := by
  intro links h
  rw [cached?_named] at h
  cases h

/-- With an available index, a class is a subtype of those in its ancestry. -/
theorem isSubtypeIn_named_iff (hindex : ix.dumb = false) (t : LinkTable) (nilStrict : Bool) :
    (Ty.named a).isSubtypeIn ix t nilStrict (.named b) ↔ b ∈ ix.ancestry a := by
  have hancestry : b ∈ ix.ancestry a ↔ a = b ∨ ix.extends? t (.named a) b = true :=
    mem_ancestry_iff hindex (ix.linksAgree_named t a)
  rw [hancestry]
  exact Ty.isSubtypeBy_ofClass_ofClass_iff

theorem mem_walk_named_iff (hindex : ix.dumb = false) {name : String} :
    name ∈ ix.walk {} (.named a) ↔
      ∃ c ∈ ix.ancestry a, name = c ∨ name ∈ (ix.declaredLinks c).aliases := by
  have hwalk : ix.walk {} (.named a) =
      ix.walkAlong a (ix.declaredLinks a) (ix.ancestry a) :=
    walk_eq_walkAlong hindex {} (.named a)
  rw [hwalk, walkAlong, List.mem_flatMap]
  simp only [linksFrom_declaredLinks, List.mem_cons]

theorem walk_subset_of_mem_ancestry (hindex : ix.dumb = false) (h : b ∈ ix.ancestry a) :
    ∀ name ∈ ix.walk {} (.named b), name ∈ ix.walk {} (.named a) := by
  intro name hname
  obtain ⟨c, hc, hname⟩ := (mem_walk_named_iff hindex).1 hname
  exact (mem_walk_named_iff hindex).2 ⟨c, ancestry_trans h hc, hname⟩

theorem isSome_find_iff {ctx : SearchContext} (h : ix.unavailable ctx = false) :
    (ix.find a memberName ctx).isSome ↔
      ∃ name ∈ ix.walk {} (.named a), (ix.probe ctx.scope .any memberName name).isSome := by
  rw [find, findIn, search_eq_findSome?_walk h, List.isSome_findSome?, List.any_eq_true]

theorem exists_mem_collect_iff {scope : SearchScope} {className : String}
    {found : List MemberDecl} :
    (∃ d ∈ ix.collect scope found className, d.name = memberName) ↔
      (∃ d ∈ found, d.name = memberName) ∨
        ∃ d ∈ ix.lookup className scope, d.name = memberName := by
  have hfind : ∀ members : List MemberDecl,
      (∃ d ∈ members, d.name = memberName) ↔
        (members.find? (·.name = memberName)).isSome := by
    simp
  rw [hfind, hfind, ← mem_namesOf]
  change (((namesOf (ix.lookup className scope)).foldl
    (MemberDecl.enlist (ix.lookup className scope)) found).find? _).isSome ↔ _
  rw [MemberDecl.find?_foldl_enlist, Option.isSome_or, Bool.or_eq_true]
  refine or_congr_right ?_
  split
  next hmem =>
    obtain ⟨d, hd, hname⟩ := mem_namesOf.1 hmem
    refine iff_of_true (Option.isSome_iff_ne_none.2 fun hnone => ?_) hmem
    have hnil := MemberDecl.select_eq_none_iff.1 hnone
    exact List.filter_eq_nil_iff.1 hnil d hd (by simpa using hname)
  next hmem => simp [hmem]

theorem exists_mem_foldl_collect_iff {scope : SearchScope} {walk : List String}
    {found : List MemberDecl} :
    (∃ d ∈ walk.foldl (ix.collect scope) found, d.name = memberName) ↔
      (∃ d ∈ found, d.name = memberName) ∨
        ∃ name ∈ walk, ∃ d ∈ ix.lookup name scope, d.name = memberName := by
  induction walk generalizing found with
  | nil => simp
  | cons name walk ih =>
      rw [List.foldl_cons, ih, exists_mem_collect_iff, or_assoc]
      refine or_congr_right ?_
      simp

theorem exists_mem_membersOf_iff {ctx : SearchContext} (h : ix.unavailable ctx = false) :
    (∃ d ∈ ix.membersOf {} (.named a) ctx, d.name = memberName) ↔
      ∃ name ∈ ix.walk {} (.named a), ∃ d ∈ ix.lookup name ctx.scope, d.name = memberName := by
  rw [membersOf_eq_foldl_walk h, exists_mem_foldl_collect_iff]
  simp

/-- What is found or listed on a class is found or listed on each class that the subtype check puts
below it, on every graph of declarations. -/
theorem subclass_inherits_members (ix : SymbolIndex) (t : LinkTable) (nilStrict : Bool)
    (a b : String) (ctx : SearchContext) (hindex : ix.dumb = false) (hctx : ctx.dumb = false)
    (hsub : (Ty.named a).isSubtypeIn ix t nilStrict (.named b)) :
    (∀ memberName, (ix.find b memberName ctx).isSome → (ix.find a memberName ctx).isSome) ∧
      ∀ memberName, (∃ d ∈ ix.membersOf {} (.named b) ctx, d.name = memberName) →
        ∃ d ∈ ix.membersOf {} (.named a) ctx, d.name = memberName := by
  have havailable : ix.unavailable ctx = false := by
    simp [unavailable, hindex, hctx]
  have hwalk := walk_subset_of_mem_ancestry hindex
    ((isSubtypeIn_named_iff hindex t nilStrict).1 hsub)
  constructor
  · intro memberName hfound
    obtain ⟨name, hname, hprobe⟩ := (isSome_find_iff havailable).1 hfound
    exact (isSome_find_iff havailable).2 ⟨name, hwalk name hname, hprobe⟩
  · intro memberName hlisted
    obtain ⟨name, hname, hlookup⟩ := (exists_mem_membersOf_iff havailable).1 hlisted
    exact (exists_mem_membersOf_iff havailable).2 ⟨name, hwalk name hname, hlookup⟩

theorem subclass_inherits_members_circular :
    circular.dumb = false ∧ (SearchContext.ofIndex circular).dumb = false ∧
      (Ty.named "A").isSubtypeIn circular {} true (.named "C") = true ∧
      (circular.find "A" "f" (.ofIndex circular)).isSome := by
  have hancestry : circular.ancestry "A" = ["A", "B", "C"] :=
    (circular.superChain_ancestry "A").unique circular_superChain
  have hsub : (Ty.named "A").isSubtypeIn circular {} true (.named "C") = true := by
    rw [isSubtypeIn_named_iff rfl, hancestry]
    simp
  have hfound : (circular.find "C" "f" (.ofIndex circular)).isSome := by
    refine (isSome_find_iff rfl).2 ⟨"C", ?_, rfl⟩
    exact (mem_walk_named_iff rfl).2 ⟨"C", self_mem_ancestry circular "C", .inl rfl⟩
  refine ⟨rfl, rfl, hsub, ?_⟩
  exact (subclass_inherits_members circular {} true "A" "C" (.ofIndex circular) rfl rfl hsub).1 "f"
    hfound

end LuaTypes.SymbolIndex
