import LuaTypes.Index.Document
import LuaTypes.Proofs.MemberListing
import LuaTypes.Proofs.WellFormedInference

namespace LuaTypes.SymbolIndex

variable {P : SymbolIndex → Prop} {ix ix' : SymbolIndex}

theorem foldl_addClass_preserves (hclass : ∀ ix d, P ix → P (ix.addClass d))
    (classes : List ClassDecl) (h : P ix) : P (classes.foldl addClass ix) := by
  induction classes generalizing ix with
  | nil => exact h
  | cons d classes ih => exact ih (hclass ix d h)

theorem foldlM_addMember_preserves
    (hmember : ∀ ix ix' (r : MemberRecord), P ix → ix.addMember r.toDecl = .ok ix' → P ix')
    {records : List MemberRecord} (h : P ix)
    (hfold : records.foldlM (fun ix r => ix.addMember r.toDecl) ix = .ok ix') : P ix' := by
  induction records generalizing ix with
  | nil =>
      obtain rfl := Except.ok.inj hfold
      exact h
  | cons r records ih =>
      rw [List.foldlM_cons] at hfold
      cases hadded : ix.addMember r.toDecl with
      | error e =>
          rw [hadded] at hfold
          cases hfold
      | ok next =>
          rw [hadded] at hfold
          exact ih (hmember ix next r h hadded) hfold

theorem ofFile_induction (hempty : P {}) (hclass : ∀ ix d, P ix → P (ix.addClass d))
    (hmember : ∀ ix ix' (r : MemberRecord), P ix → ix.addMember r.toDecl = .ok ix' → P ix')
    {f : IndexFile} (h : ofFile f = .ok ix) : P ix := by
  unfold ofFile at h
  split at h
  next => cases h
  next =>
    exact foldlM_addMember_preserves hmember (foldl_addClass_preserves hclass f.classes hempty) h

theorem reachable_of_ofFile {f : IndexFile} (h : ofFile f = .ok ix) : ix.Reachable :=
  ofFile_induction .empty (fun _ d before => before.addClass d)
    (fun _ _ _ before added => before.addMember added) h

/-- Every member has its type from a node. -/
def Documented (ix : SymbolIndex) : Prop :=
  ∀ g ∈ ix.groups, ∀ d ∈ g.2, ∃ n : TypeNode, d.ty = n.toTy

theorem documented_empty : Documented {} :=
  fun _ hg => absurd hg List.not_mem_nil

theorem documented_of_ofFile {f : IndexFile} (h : ofFile f = .ok ix) : ix.Documented := by
  refine ofFile_induction documented_empty (fun _ _ before => before) ?_ h
  intro ix ix' r before added
  obtain ⟨-, rfl⟩ := addMember_eq_ok added
  exact forall_mem_insertMember (P := fun _ d => ∃ n : TypeNode, d.ty = n.toTy) ⟨r.node, rfl⟩ before

theorem Documented.wellFormed (h : ix.Documented) : ix.WellFormed := by
  intro g hg d hd
  obtain ⟨n, hn⟩ := h g hg d hd
  exact hn ▸ n.wellFormed_toTy

theorem wellFormed_of_ofFile {f : IndexFile} (h : ofFile f = .ok ix) : ix.WellFormed :=
  (documented_of_ofFile h).wellFormed

end LuaTypes.SymbolIndex
