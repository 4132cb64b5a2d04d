import LuaTypes.Inference.Call
import LuaTypes.Ty.Parts
import LuaTypes.Ty.Values
import LuaTypes.TypeNode.Basic

/-!
Properties of types that come down to properties of their parts. Whatever builds types from types
keeps them: substitution, what matching learns about generic parameters, what a call returns, and
the choice of one value of several. A document has them if its names and its arguments do.
-/

namespace LuaTypes

/-- Holds of a type if it holds of its parts, however values are put together from them. Of a type
with arguments it may depend on how many there are. -/
structure Ty.Compositional (P : Ty → Prop) : Prop where
  unknown : P .unknown
  nil : P .nil
  void : P .void
  primitive (p : Primitive) : P (.primitive p)
  array_iff {element : Ty} : P (.array element) ↔ P element
  function_iff {s : Signature Ty} :
    P (.function s) ↔ (∀ p ∈ s.params, P p.2) ∧ P s.returns ∧ ∀ v ∈ s.varargs, P v
  of_union {members : List Ty} : P (.union members) → ∀ m ∈ members, P m
  of_tuple {members : List Ty} : P (.tuple members) → ∀ m ∈ members, P m
  of_generic {base : Ty} {args : List Ty} : P (.generic base args) → P base ∧ ∀ a ∈ args, P a
  generic {base base' : Ty} {args args' : List Ty} : P (.generic base args) → P base' →
    (∀ a ∈ args', P a) → args'.length = args.length → P (.generic base' args')
  unite {a b : Ty} : P a → P b → P (a.unite b)
  ofValues {values : List Ty} : (∀ t ∈ values, P t) → P (.ofValues values)

/-- Every parameter is bound to a type with the property. -/
def Bindings.Each (P : Ty → Prop) (b : Bindings) : Prop :=
  ∀ e ∈ b.entries, P e.2

namespace Ty.Compositional

variable {P : Ty → Prop} (hP : Compositional P)

section Types

include hP

theorem uniteAll {types : List Ty} (h : ∀ t ∈ types, P t) : P (.uniteAll types) := by
  suffices ∀ first : Ty, P first → P (types.foldl Ty.unite first) from this .unknown hP.unknown
  induction types with
  | nil => exact fun first hfirst => hfirst
  | cons t types ih =>
      exact fun first hfirst => ih (fun x hx => h x (List.mem_cons_of_mem t hx)) _
        (hP.unite hfirst (h t List.mem_cons_self))

theorem members {t : Ty} (h : P t) : ∀ m ∈ t.members, P m := by
  cases t with
  | union members => exact hP.of_union h
  | _ => simpa [Ty.members] using h

theorem values {t : Ty} (h : P t) : ∀ v ∈ t.values, P v := by
  cases t with
  | tuple members => exact hP.of_tuple h
  | void => simp [Ty.values]
  | _ => simpa [Ty.values] using h

theorem valueAt {t : Ty} (h : P t) (position : Nat) : P (t.valueAt position) := by
  induction t with
  | unknown => exact h
  | nil => exact h
  | void => exact hP.nil
  | union members ih =>
      refine hP.uniteAll ?_
      rw [valuesAt_eq_map, List.forall_mem_map]
      exact fun m hm => ih m hm (hP.of_union h m hm)
  | tuple members ih =>
      rw [Ty.valueAt]
      cases hvalue : members[position]? with
      | none => exact hP.nil
      | some v => exact hP.of_tuple h v (List.mem_of_getElem? hvalue)
  | _ =>
      rw [Ty.valueAt]
      split
      · exact h
      · exact hP.nil

end Types

/-- The rule of a substitution answers with types that have the property only. -/
def Rule (P : Ty → Prop) (rule : Ty → Option Ty) : Prop :=
  ∀ leaf, ∀ t ∈ rule leaf, P t

theorem getD {t : Option Ty} {u : Ty} (ht : ∀ v ∈ t, P v) (hu : P u) : P (t.getD u) := by
  cases t with
  | none => exact hu
  | some v => exact ht v rfl

include hP in
theorem substitute {rule : Ty → Option Ty} (hrule : Rule P rule) {t : Ty} (h : P t) :
    P (t.substitute rule) := by
  induction t with
  | unknown => exact getD (hrule _) h
  | nil => exact getD (hrule _) h
  | void => exact getD (hrule _) h
  | primitive p => exact getD (hrule _) h
  | ofClass c => exact getD (hrule _) h
  | param name bound ih => exact getD (hrule _) h
  | array element ih => exact hP.array_iff.2 (ih (hP.array_iff.1 h))
  | function signature ihParams ihReturns ihVarargs =>
      obtain ⟨params, returns, varargs, generics, colon⟩ := signature
      obtain ⟨hparams, hreturns, hvarargs⟩ := hP.function_iff.1 h
      refine hP.function_iff.2 ⟨?_, ihReturns hreturns, ?_⟩
      · rw [substituteParams_eq_map, List.forall_mem_map]
        exact fun p hp => ihParams p hp (hparams p hp)
      · rw [substituteOption_eq_map]
        intro u hu
        obtain ⟨v, hv, rfl⟩ := Option.map_eq_some_iff.1 hu
        exact ihVarargs v hv (hvarargs v hv)
  | union members ih =>
      refine hP.uniteAll ?_
      rw [substituteList_eq_map, List.forall_mem_map]
      exact fun m hm => ih m hm (hP.of_union h m hm)
  | tuple members ih =>
      refine hP.ofValues ?_
      rw [substituteList_eq_map, List.forall_mem_map]
      exact fun m hm => ih m hm (hP.of_tuple h m hm)
  | generic base args ihBase ihArgs =>
      obtain ⟨hbase, hargs⟩ := hP.of_generic h
      refine hP.generic h (ihBase hbase) ?_ ?_
      · rw [substituteList_eq_map, List.forall_mem_map]
        exact fun a ha => ihArgs a ha (hargs a ha)
      · rw [substituteList_eq_map, List.length_map]

theorem rule_selfRule {receiver : Ty} (h : P receiver) : Rule P (selfRule receiver) := by
  intro leaf t ht
  unfold selfRule at ht
  split at ht
  · split at ht
    · cases ht
      exact h
    · cases ht
  · cases ht

section Bindings

variable {b : Bindings}

theorem rule_bindings (h : b.Each P) : Rule P b.rule := by
  intro leaf t ht
  unfold Bindings.rule at ht
  split at ht
  next name bound =>
    obtain ⟨before, after, hentries, -⟩ := List.lookup_eq_some_iff.1 ht
    exact h (name, t) (by simp [hentries])
  next => cases ht

include hP

theorem bind (h : b.Each P) (name : String) {t : Ty} (ht : P t) : (b.bind name t).Each P := by
  obtain ⟨entries⟩ := b
  change ∀ e ∈ Bindings.bind.go name t entries, P e.2
  induction entries with
  | nil => simpa [Bindings.bind.go] using ht
  | cons e entries ih =>
      obtain ⟨he, hentries⟩ := List.forall_mem_cons.1 h
      rw [Bindings.bind.go]
      split
      · exact List.forall_mem_cons.2 ⟨hP.unite he ht, hentries⟩
      · exact List.forall_mem_cons.2 ⟨he, ih hentries⟩

theorem learnMember (h : b.Each P) {actual : Ty} (hactual : P actual) (member : Ty) :
    (b.learnMember actual member).Each P := by
  cases member with
  | param name bound => exact hP.bind h name hactual
  | _ => exact h

theorem foldl_learnMember (h : b.Each P) {actual : Ty} (hactual : P actual) (members : List Ty) :
    (members.foldl (Bindings.learnMember actual) b).Each P := by
  induction members generalizing b with
  | nil => exact h
  | cons m members ih => exact ih (hP.learnMember h hactual m)

end Bindings

/-- Matching this type teaches types with the property only. -/
def Teaches (P : Ty → Prop) (declared : Ty) : Prop :=
  ∀ ⦃b : Bindings⦄ ⦃actual : Ty⦄, b.Each P → P actual → (b.learn declared actual).Each P

variable {b : Bindings}

theorem learnList_of (declared : List Ty) {actual : List Ty}
    (hdeclared : ∀ t ∈ declared, Teaches P t) (h : b.Each P) (hactual : ∀ u ∈ actual, P u) :
    (b.learnList declared actual).Each P := by
  induction declared generalizing b actual with
  | nil => cases actual <;> exact h
  | cons t declared ih =>
      cases actual with
      | nil => exact h
      | cons u actual =>
          rw [List.forall_mem_cons] at hdeclared hactual
          exact ih hdeclared.2 (hdeclared.1 h hactual.1) hactual.2

theorem learnParams_of {declared actual : List (String × Ty)}
    (hdeclared : ∀ p ∈ declared, Teaches P p.2) (h : b.Each P) (hactual : ∀ p ∈ actual, P p.2) :
    (b.learnParams declared actual).Each P := by
  rw [Bindings.learnParams_eq_learnList]
  exact learnList_of _ (List.forall_mem_map.2 hdeclared) h (List.forall_mem_map.2 hactual)

include hP

theorem teaches (declared : Ty) : Teaches P declared := by
  intro b actual h hactual
  induction declared generalizing b actual with
  | param name bound ih =>
      cases actual with
      | unknown => exact h
      | _ => exact hP.bind h name hactual
  | array element ih =>
      cases actual with
      | array actual => exact ih h (hP.array_iff.1 hactual)
      | _ => exact h
  | function signature ihParams ihReturns ihVarargs =>
      obtain ⟨params, returns, varargs, generics, colon⟩ := signature
      cases actual with
      | function actual =>
          obtain ⟨hparams, hreturns, -⟩ := hP.function_iff.1 hactual
          exact ihReturns (learnParams_of ihParams h hparams) hreturns
      | _ => exact h
  | union members ih =>
      cases actual with
      | unknown => exact h
      | _ => exact hP.foldl_learnMember h hactual members
  | generic base args ihBase ihArgs =>
      cases actual with
      | generic actualBase actualArgs =>
          rw [Bindings.learn]
          split
          · exact learnList_of args ihArgs h (hP.of_generic hactual).2
          · exact h
      | _ => exact h
  | _ => cases actual <;> exact h

theorem instantiate {s : Signature Ty} {receiver : Option Ty} {args : List Ty}
    (hreturns : P s.returns) (hreceiver : ∀ r ∈ receiver, P r) (hargs : ∀ a ∈ args, P a)
    (colon : Bool) : P (s.instantiate receiver args colon) := by
  have hempty : Bindings.Each P {} := fun _ h => absurd h List.not_mem_nil
  obtain ⟨hpassed, hbindings, hself⟩ : (∀ a ∈ (s.align receiver args colon).args, P a) ∧
      (s.align receiver args colon).bindings.Each P ∧
      ∀ t ∈ (s.align receiver args colon).self, P t := by
    unfold Signature.align
    split
    · split
      next r _ => exact ⟨hargs, hP.teaches _ hempty (hreceiver r rfl), hreceiver⟩
      next => exact ⟨hargs, hempty, hreceiver⟩
    · split
      next first rest =>
        obtain ⟨hfirst, hrest⟩ := List.forall_mem_cons.1 hargs
        exact ⟨hrest, hempty, by simpa using hfirst⟩
      next => exact ⟨hargs, hempty, hreceiver⟩
    · exact ⟨hargs, hempty, hreceiver⟩
  have hlearnt := learnList_of ((s.align receiver args colon).params.map Prod.snd)
    (fun t _ => hP.teaches t) hbindings hpassed
  have hbound := hP.substitute (rule_bindings hlearnt) hreturns
  unfold Signature.instantiate
  dsimp only
  split
  next => exact hbound
  next self heq => exact hP.substitute (rule_selfRule (hself self heq)) hbound

theorem ofBuiltin? {name : String} {t : Ty} (h : Ty.ofBuiltin? name = some t) : P t := by
  unfold Ty.ofBuiltin? at h
  split at h
  next => exact Option.some.inj h ▸ hP.unknown
  next => exact Option.some.inj h ▸ hP.nil
  next => exact Option.some.inj h ▸ hP.void
  next => exact Option.some.inj h ▸ hP.primitive .boolean
  next => exact Option.some.inj h ▸ hP.primitive .string
  next => exact Option.some.inj h ▸ hP.primitive .number
  next => exact Option.some.inj h ▸ hP.primitive .table
  next => exact Option.some.inj h ▸ hP.primitive .function
  next => cases h

/-- A type that is read from a node has the property if names that are no built-in's have it, and
parameters, and types with arguments whose base and arguments have it. No node is read as the class
of a table constructor. -/
theorem toTy (hnamed : ∀ form : ClassForm, Ty.ofBuiltin? form.name = none →
      (∀ node, form ≠ .tableLiteral node) → P (.ofClass { form }))
    (happlied : ∀ base args, args ≠ [] → P base → (∀ a ∈ args, P a) → P (.generic base args))
    (hparam : ∀ name, P (.param name none)) (n : TypeNode) : P n.toTy := by
  induction n with
  | any => exact hP.unknown
  | nil => exact hP.nil
  | void => exact hP.void
  | param name => exact hparam name
  | array element ih => exact hP.array_iff.2 ih
  | named name args isGlobal ih =>
      have hbase : P ((Ty.ofBuiltin? name).getD
          (.ofClass { form := if isGlobal then .global name else .declared name })) := by
        cases hbuiltin : Ty.ofBuiltin? name with
        | none =>
            cases isGlobal with
            | false => exact hnamed _ hbuiltin nofun
            | true => exact hnamed _ hbuiltin nofun
        | some t => exact hP.ofBuiltin? hbuiltin
      rw [TypeNode.toTy]
      split
      next => exact hbase
      next hargs =>
        rw [TypeNode.toTyList_eq_map]
        refine happlied _ _ ?_ hbase (List.forall_mem_map.2 ih)
        simpa using hargs
  | union members ih =>
      refine hP.uniteAll ?_
      rw [TypeNode.toTyList_eq_map]
      exact List.forall_mem_map.2 ih
  | tuple elements ih =>
      refine hP.ofValues ?_
      rw [TypeNode.toTyList_eq_map]
      exact List.forall_mem_map.2 ih
  | function signature ihParams ihReturns ihVarargs =>
      obtain ⟨params, returns, varargs, generics, colon⟩ := signature
      refine hP.function_iff.2 ⟨?_, ihReturns, ?_⟩
      · rw [TypeNode.toTyParams_eq_map, List.forall_mem_map]
        exact ihParams
      · rw [TypeNode.toTyOption_eq_map]
        intro t ht
        obtain ⟨n, hn, rfl⟩ := Option.map_eq_some_iff.1 ht
        exact ihVarargs n hn

end Ty.Compositional

namespace UnionBuilder

variable {Q : Ty → Prop} {b : UnionBuilder} {t : Ty}

theorem forall_mem_insert (hb : ∀ m ∈ b.members, Q m) (ht : Q t) :
    ∀ m ∈ (b.insert t).members, Q m := by
  unfold insert
  split
  · exact hb
  · exact List.forall_mem_append.2 ⟨hb, List.forall_mem_singleton.2 ht⟩

theorem forall_mem_add (hb : ∀ m ∈ b.members, Q m) (ht : ∀ m ∈ t.members, Q m) :
    ∀ m ∈ (b.add t).members, Q m := by
  unfold add
  split
  next members =>
    change ∀ m ∈ members, Q m at ht
    induction members generalizing b with
    | nil => exact hb
    | cons m members ih =>
        obtain ⟨hm, hmembers⟩ := List.forall_mem_cons.1 ht
        exact ih (forall_mem_insert hb hm) hmembers
  next hother =>
    have hmembers : t.members = [t] := by
      cases t with
      | union members => exact absurd rfl (hother members)
      | _ => rfl
    split
    · exact hb
    · exact forall_mem_insert hb (ht t (by simp [hmembers]))

end UnionBuilder

namespace Ty

/-- A property that only classes, parameters and types with arguments may lack, and of arguments it
only matters how many there are. -/
structure OfLeaves (p : Ty → Prop) : Prop where
  other {t : Ty} : t.kind ≠ .ofClass → t.kind ≠ .param → t.kind ≠ .generic → p t
  generic {base base' : Ty} {args args' : List Ty} : p (.generic base args) →
    args'.length = args.length → p (.generic base' args')

variable {p : Ty → Prop} (hp : OfLeaves p)

include hp

theorem OfLeaves.everywhere_build {b : UnionBuilder} (hb : ∀ m ∈ b.members, m.Everywhere p) :
    b.build.Everywhere p := by
  unfold UnionBuilder.build
  split
  next =>
    refine List.forall_mem_singleton.2 (hp.other ?_ ?_ ?_) <;> nofun
  next t hmembers => exact hb t (by simp [hmembers])
  next => exact everywhere_union_iff.2 ⟨hp.other nofun nofun nofun, hb⟩

theorem OfLeaves.compositional : Compositional (Everywhere p) where
  unknown := List.forall_mem_singleton.2 (hp.other nofun nofun nofun)
  nil := List.forall_mem_singleton.2 (hp.other nofun nofun nofun)
  void := List.forall_mem_singleton.2 (hp.other nofun nofun nofun)
  primitive _ := List.forall_mem_singleton.2 (hp.other nofun nofun nofun)
  array_iff := everywhere_array_iff.trans (and_iff_right (hp.other nofun nofun nofun))
  function_iff := everywhere_function_iff.trans (and_iff_right (hp.other nofun nofun nofun))
  of_union h := (everywhere_union_iff.1 h).2
  of_tuple h := (everywhere_tuple_iff.1 h).2
  of_generic h := (everywhere_generic_iff.1 h).2
  generic h hbase hargs hlength :=
    everywhere_generic_iff.2 ⟨hp.generic h.self hlength, hbase, hargs⟩
  unite := by
    intro a b ha hb
    have hmembers : ∀ {t : Ty}, t.Everywhere p → ∀ m ∈ t.members, m.Everywhere p := by
      intro t ht
      cases t with
      | union members => exact (everywhere_union_iff.1 ht).2
      | _ => exact List.forall_mem_singleton.2 ht
    have hempty : ∀ m ∈ ({} : UnionBuilder).members, m.Everywhere p :=
      fun _ h => absurd h List.not_mem_nil
    unfold unite
    split
    · exact hb
    · split
      · exact ha
      · split
        · exact hp.everywhere_build (UnionBuilder.forall_mem_add
            (UnionBuilder.forall_mem_add hempty (hmembers hb)) (hmembers ha))
        · exact hp.everywhere_build (UnionBuilder.forall_mem_add
            (UnionBuilder.forall_mem_add hempty (hmembers ha)) (hmembers hb))
  ofValues := by
    intro values h
    match values with
    | [] => exact List.forall_mem_singleton.2 (hp.other nofun nofun nofun)
    | [t] => exact h t List.mem_cons_self
    | t :: u :: rest => exact everywhere_tuple_iff.2 ⟨hp.other nofun nofun nofun, h⟩

end Ty

end LuaTypes
