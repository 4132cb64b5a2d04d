import LuaTypes.Proofs.Reencoding

namespace LuaTypes

theorem ClassTy.looksLike_written {c : ClassTy} (h : c.isAnonymous = false) :
    c.written.LooksLike c := by
  obtain ⟨form, source⟩ := c
  cases form with
  | declared name => exact ⟨rfl, rfl, rfl, rfl⟩
  | global name => exact ⟨rfl, rfl, rfl, rfl⟩
  | anonymous name => cases h
  | tableLiteral node => cases h

namespace Ty

instance : DecidablePred IsDocumented
  | .generic _ args => inferInstanceAs (Decidable (args ≠ []))
  | .param _ bound => inferInstanceAs (Decidable (bound = none))
  | .unknown | .nil | .void | .primitive _ | .ofClass _ | .array _ | .function _ | .union _
  | .tuple _ => .isTrue trivial

instance : DecidablePred IsExpressible :=
  fun t => inferInstanceAs (Decidable (t.HasNamedBase ∧ t.HasOwnName ∧ t.IsDocumented))

/-- Two types are the same, and if they are unions they have the same members in the same order. -/
def SameInOrder (a b : Ty) : Prop :=
  a == b ∧ List.Forall₂ (fun m n => m == n) a.members b.members

theorem sameInOrder_mapClasses {f : ClassTy → ClassTy} (hname : ∀ c, (f c).name = c.name)
    (t : Ty) : (t.mapClasses f).SameInOrder t := by
  refine ⟨mapClasses_beq hname t, ?_⟩
  rw [members_mapClasses]
  exact List.forall₂_map_left_iff.2 (List.forall₂_same.2 fun m _ => mapClasses_beq hname m)

theorem display_parts_mapClasses {f : ClassTy → ClassTy} {t : Ty} (h : t.Everywhere (LooksKept f)) :
    (t.mapClasses f).parts.map display = t.parts.map display := by
  rw [parts_mapClasses]
  exact map_display_mapClasses fun u hu => display_mapClasses (h.parts u hu)

theorem looksKept_written {t : Ty} (h : ∀ c, t = .ofClass c → c.isAnonymous = false) :
    t.LooksKept ClassTy.written := by
  cases t with
  | ofClass c => exact ClassTy.looksLike_written (h c rfl)
  | _ => trivial

end Ty

namespace TypeNode

/-- The node of a type that a node can express brings back the same type, with every union in it in
the same order, and if no class in it is anonymous, with the same text at every level. -/
theorem encoded_type_is_rebuilt {t : Ty} (hwf : t.WellFormed) (h : t.Everywhere Ty.IsExpressible) :
    (ofTy t).toTy == t ∧ List.Forall₂ Ty.SameInOrder (ofTy t).toTy.parts t.parts ∧
      ((∀ c, Ty.ofClass c ∈ t.parts → c.isAnonymous = false) →
        (ofTy t).toTy.parts.map Ty.display = t.parts.map Ty.display) := by
  rw [toTy_ofTy_eq hwf h]
  refine ⟨Ty.mapClasses_beq ClassTy.name_written t, ?_, fun hnamed => ?_⟩
  · rw [Ty.parts_mapClasses]
    exact List.forall₂_map_left_iff.2 (List.forall₂_same.2 fun u _ =>
      Ty.sameInOrder_mapClasses ClassTy.name_written u)
  · refine Ty.display_parts_mapClasses fun u hu => Ty.looksKept_written fun c hc => ?_
    exact hnamed c (hc ▸ hu)

theorem encoded_type_is_rebuilt_with_global_class :
    let method : Ty := .function
      { params := [("x", .param "T" none)]
        returns := .tuple [.nil, .generic (.primitive .table) [.unknown]]
        varargs := some (.primitive .string), generics := ["T"], colon := true }
    let t : Ty := .union [.ofClass { form := .global "G" }, .array (.named "Player"), method]
    (t.WellFormed ∧ t.Everywhere Ty.IsExpressible ∧
      ∀ c, Ty.ofClass c ∈ t.parts → c.isAnonymous = false) ∧
    (ofTy t).toTy == t ∧ List.Forall₂ Ty.SameInOrder (ofTy t).toTy.parts t.parts ∧
      (ofTy t).toTy.parts.map Ty.display = t.parts.map Ty.display := by
  intro method t
  have hwf : t.WellFormed := by
    simp [t, method, Ty.WellFormed, Ty.WellFormedList, Ty.WellFormedParams, Ty.WellFormedOption,
      Ty.named, Ty.kind, Ty.isInvalid]
    decide
  have hexpressible : t.Everywhere Ty.IsExpressible := by decide
  have hnamed : ∀ c, Ty.ofClass c ∈ t.parts → c.isAnonymous = false := by
    intro c hc
    simp [t, method, Ty.parts, Ty.partsOfList, Ty.partsOfParams, Ty.partsOfOption, Ty.named] at hc
    rcases hc with rfl | rfl <;> rfl
  have hrebuilt := encoded_type_is_rebuilt hwf hexpressible
  exact ⟨⟨hwf, hexpressible, hnamed⟩, hrebuilt.1, hrebuilt.2.1, hrebuilt.2.2 hnamed⟩

end TypeNode

end LuaTypes
