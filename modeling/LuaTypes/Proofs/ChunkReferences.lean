import LuaTypes.Chunk.Basic
import Mathlib.Tactic.ByContra

namespace LuaTypes

namespace Chunk

variable {c : Chunk}

theorem validate_of_complete (h : ∀ r ∈ c.references, r.2 < c.nodes.length) :
    c.validate = .ok c := by
  have hnone : c.references.find? (fun r => c.nodes.length ≤ r.2) = none :=
    List.find?_eq_none.2 fun r hr => by simpa using h r hr
  rw [validate, hnone]

theorem validate_of_missing (h : ∃ r ∈ c.references, c.nodes.length ≤ r.2) :
    ∃ owner id, (owner, id) ∈ c.references ∧ c.nodes.length ≤ id ∧
      c.validate = .error (.index (.missingNode owner id c.nodes.length)) := by
  obtain ⟨r, hr, hmissing⟩ := h
  cases hfind : c.references.find? (fun r => c.nodes.length ≤ r.2) with
  | none => exact absurd hmissing (by simpa using List.find?_eq_none.1 hfind r hr)
  | some found =>
      obtain ⟨owner, id⟩ := found
      have hfound : c.nodes.length ≤ id := by simpa using List.find?_some hfind
      exact ⟨owner, id, List.mem_of_find?_eq_some hfind, hfound, by rw [validate, hfind]⟩

theorem validate_eq_ok_iff : c.validate = .ok c ↔ ∀ r ∈ c.references, r.2 < c.nodes.length := by
  constructor
  · intro hvalid r hr
    by_contra hmissing
    obtain ⟨owner, id, -, -, herror⟩ := validate_of_missing ⟨r, hr, Nat.le_of_not_lt hmissing⟩
    rw [hvalid] at herror
    cases herror
  · exact validate_of_complete

theorem lt_length_of_get? {id : NodeId} {e : Expr} (h : c.get? id = some e) :
    id < c.nodes.length :=
  (List.getElem?_eq_some_iff.1 h).1

theorem mem_references_of_child {id child : NodeId} {e : Expr} (h : c.get? id = some e)
    (hchild : child ∈ e.children) : (.node id, child) ∈ c.references := by
  refine List.mem_append_left _ (List.mem_flatMap.2 ⟨(e, id), ?_, ?_⟩)
  · exact List.mem_zipIdx_iff_getElem?.2 h
  · exact List.mem_map_of_mem hchild

theorem mem_references_of_value {b : Binding} {value : NodeId} (h : b ∈ c.bindings)
    (hvalue : value ∈ b.values) : (.binding b.names, value) ∈ c.references :=
  List.mem_append_right _ (List.mem_flatMap.2 ⟨b, h, List.mem_map_of_mem hvalue⟩)

theorem mem_bindings_of_bindingFor? {name : String} {b : Binding} {place : Nat}
    (h : c.bindingFor? name = some (b, place)) : b ∈ c.bindings := by
  obtain ⟨b', hb', hplace⟩ := List.exists_of_findSome?_eq_some h
  obtain ⟨_, -, hpair⟩ := Option.map_eq_some_iff.1 hplace
  cases hpair
  exact List.mem_reverse.1 hb'

theorem exists_field_of_tableField? {id value : NodeId} {name : String}
    (h : c.tableField? id name = some value) :
    ∃ fields, c.get? id = some (.table fields) ∧ value ∈ fields.map TableField.value := by
  unfold tableField? at h
  split at h
  next fields hget =>
    obtain ⟨field, hfind, rfl⟩ := Option.map_eq_some_iff.1 h
    have hmem := List.mem_reverse.1 (List.mem_of_find?_eq_some hfind)
    exact ⟨fields, hget, List.mem_map_of_mem hmem⟩
  next => cases h

end Chunk

end LuaTypes
