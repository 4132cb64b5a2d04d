import LuaTypes.Proofs.TypeComposition
import LuaTypes.Ty.WellFormed

namespace LuaTypes

theorem Ty.compositional_wellFormed : Compositional WellFormed where
  unknown := trivial
  nil := trivial
  void := trivial
  primitive _ := trivial
  array_iff := Iff.rfl
  function_iff := wellFormed_function_iff
  of_union h := (wellFormedList_iff _).1 h.2.2.2
  of_tuple h := (wellFormedList_iff _).1 h.2
  of_generic h := ⟨h.1, (wellFormedList_iff _).1 h.2⟩
  generic _ hbase hargs _ := ⟨hbase, (wellFormedList_iff _).2 hargs⟩
  unite := wellFormed_unite
  ofValues := wellFormed_ofValues

namespace Ty

theorem wellFormed_substitute {rule : Ty → Option Ty} (hrule : Compositional.Rule WellFormed rule)
    {t : Ty} (h : t.WellFormed) : (t.substitute rule).WellFormed :=
  compositional_wellFormed.substitute hrule h

theorem ruleWellFormed_selfRule {receiver : Ty} (h : receiver.WellFormed) :
    Compositional.Rule WellFormed (selfRule receiver) :=
  Compositional.rule_selfRule h

theorem wellFormed_members {t : Ty} (h : t.WellFormed) : ∀ m ∈ t.members, m.WellFormed :=
  compositional_wellFormed.members h

end Ty

theorem TypeNode.wellFormed_toTy (n : TypeNode) : n.toTy.WellFormed :=
  Ty.compositional_wellFormed.toTy (fun _ _ _ => trivial)
    (fun _ _ _ hbase hargs => ⟨hbase, (Ty.wellFormedList_iff _).2 hargs⟩) (fun _ => trivial) n

namespace Bindings

/-- Every parameter is bound to a well-formed type. -/
def WellFormed (b : Bindings) : Prop :=
  ∀ e ∈ b.entries, e.2.WellFormed

variable {b : Bindings}

theorem WellFormed.rule (h : b.WellFormed) : Ty.Compositional.Rule Ty.WellFormed b.rule :=
  Ty.Compositional.rule_bindings h

theorem WellFormed.bind (h : b.WellFormed) (name : String) {t : Ty} (ht : t.WellFormed) :
    (b.bind name t).WellFormed :=
  Ty.compositional_wellFormed.bind h name ht

theorem teachesWellFormed (declared : Ty) : Ty.Compositional.Teaches Ty.WellFormed declared :=
  Ty.compositional_wellFormed.teaches declared

end Bindings

end LuaTypes
