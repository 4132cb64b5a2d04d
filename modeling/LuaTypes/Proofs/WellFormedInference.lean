import LuaTypes.Proofs.KeptProperties
import LuaTypes.Proofs.WellFormedTypes

namespace LuaTypes

/-- The types of all members are well formed. -/
def SymbolIndex.WellFormed (ix : SymbolIndex) : Prop :=
  ∀ g ∈ ix.groups, ∀ d ∈ g.2, d.ty.WellFormed

namespace Sources

variable {src : Sources}

theorem keeps_wellFormed (hindex : src.index.WellFormed) (table : Option LinkTable) :
    src.Keeps table Ty.WellFormed :=
  { Ty.compositional_wellFormed with
    written := fun n _ ht => ht.wellFormed n.wellFormed_toTy
    constructor := fun _ ht => ht.wellFormed trivial
    global := fun _ _ => trivial
    member := hindex }

theorem Serves.wellFormed (hindex : src.index.WellFormed) {demands : List Demand}
    {r r' : Request} {ts : List Ty} {js : List Moment} (h : src.Serves demands r ts r' js)
    (hr : ∀ e ∈ r.cache, e.2.WellFormed) :
    (∀ t ∈ ts, t.WellFormed) ∧ ∀ e ∈ r'.cache, e.2.WellFormed :=
  h.keeps (keeps_wellFormed hindex r'.table) (.refl _) hr

theorem Meets.wellFormed (hindex : src.index.WellFormed) {d : Demand} {t : Ty}
    (h : src.Meets d t) : t.WellFormed :=
  h.keeps (keeps_wellFormed hindex none)

/-- Well-formed types are all that comes out of reading types, of building unions and lists of
values, of substituting and learning generic parameters, and of a request, which may have been
refused entry anywhere, as long as nothing else goes in. -/
theorem types_stay_well_formed :
    (∀ n : TypeNode, n.toTy.WellFormed) ∧
    (∀ a b : Ty, a.WellFormed → b.WellFormed → (a.unite b).WellFormed) ∧
    (∀ ts : List Ty, (∀ t ∈ ts, t.WellFormed) →
      (Ty.uniteAll ts).WellFormed ∧ (ts.foldl UnionBuilder.add {}).build.WellFormed ∧
        (Ty.ofValues ts).WellFormed) ∧
    (∀ t : Ty, t.WellFormed →
      (∀ b : Bindings, b.WellFormed → (t.substitute b.rule).WellFormed) ∧
        ∀ receiver : Ty, receiver.WellFormed →
          (t.substitute (Ty.selfRule receiver)).WellFormed) ∧
    (∀ b : Bindings, b.WellFormed → ∀ t : Ty, t.WellFormed →
      (∀ name, (b.bind name t).WellFormed) ∧ ∀ declared, (b.learn declared t).WellFormed) ∧
    ∀ (src : Sources) (r : Request) (demands : List Demand), src.index.WellFormed →
      (∀ e ∈ r.cache, e.2.WellFormed) →
      (∀ t ∈ ((src.serve demands).run r).1, t.WellFormed) ∧
        ∀ e ∈ ((src.serve demands).run r).2.cache, e.2.WellFormed := by
  refine ⟨TypeNode.wellFormed_toTy, fun a b => Ty.wellFormed_unite, fun ts hts => ?_,
    fun t ht => ?_, fun b hb t ht => ?_, fun src r demands hindex hr => ?_⟩
  · exact ⟨Ty.wellFormed_uniteAll hts, (UnionBuilder.WellFormed.empty.addAll hts).build,
      Ty.wellFormed_ofValues hts⟩
  · exact ⟨fun b hb => Ty.wellFormed_substitute hb.rule ht, fun receiver hreceiver =>
      Ty.wellFormed_substitute (Ty.ruleWellFormed_selfRule hreceiver) ht⟩
  · exact ⟨fun name => hb.bind name ht, fun declared =>
      Bindings.teachesWellFormed declared hb ht⟩
  · exact (src.serves_serve demands r).wellFormed hindex hr

/-- A player or a string. -/
def owner : Ty :=
  .union [.ofClass (.named "Player"), .primitive .string]

/-- A function that returns itself, a member of a union type, or the first value of a call of itself
with all that is known of a name that stands for itself. -/
def ownedItems : Sources where
  chunk :=
    { nodes := [.ident "Item", .index 0 (some "owner") none,
        .function [] [[2], [1], [3, 4]] none [] false, .call 2 [] false, .ident "x"]
      bindings := [{ names := ["x"], values := [4] }] }
  index :=
    { classes := [.named "Item"]
      groups := [("Item", [⟨"Item", "owner", .docField, owner, none⟩])] }

/-- What they come out as, and the request afterwards. -/
def servedItems : List Ty × Request :=
  (ownedItems.serve [.one 2 {}, .list [1, 4, 3] {}]).run (.start 3)

theorem types_stay_well_formed_in_cycle :
    let list : Ty := .array (.param "T" none)
    let b : Bindings := { entries := [("T", owner)] }
    ownedItems.index.WellFormed ∧ servedItems.2.denied = 7 ∧
      servedItems.1.map Ty.kind = [.function, .tuple] ∧
      (∀ t ∈ servedItems.1, t.WellFormed) ∧ (∀ e ∈ servedItems.2.cache, e.2.WellFormed) ∧
      (list.unite owner).WellFormed ∧ (Ty.uniteAll [owner, .nil, list]).WellFormed ∧
      (list.substitute b.rule).WellFormed ∧ (b.learn list list).WellFormed := by
  intro list b
  have howner : owner.WellFormed := by
    refine ⟨Nat.le_refl 2, by decide, by decide, ?_⟩
    exact (Ty.wellFormedList_iff _).2 (by simp [Ty.WellFormed])
  have hindex : ownedItems.index.WellFormed := by
    simp [ownedItems, SymbolIndex.WellFormed, howner]
  have hb : b.WellFormed := by simp [b, Bindings.WellFormed, howner]
  have hlist : list.WellFormed := trivial
  have hall : ∀ t ∈ [owner, .nil, list], t.WellFormed := by
    simp [howner, hlist, Ty.WellFormed]
  have hdenied : servedItems.2.denied = 7 := by decide +kernel
  have hkinds : servedItems.1.map Ty.kind = [.function, .tuple] := by decide +kernel
  obtain ⟨-, hunite, hbuild, hsubstitute, hlearn, hserve⟩ := types_stay_well_formed
  have hserved : (∀ t ∈ servedItems.1, t.WellFormed) ∧
      ∀ e ∈ servedItems.2.cache, e.2.WellFormed := by
    unfold servedItems
    exact hserve ownedItems _ _ hindex fun _ he => absurd he List.not_mem_nil
  exact ⟨hindex, hdenied, hkinds, hserved.1, hserved.2, hunite list owner hlist howner,
    (hbuild _ hall).1, (hsubstitute list hlist).1 b hb, (hlearn b hb list hlist).2 list⟩

end Sources

end LuaTypes
