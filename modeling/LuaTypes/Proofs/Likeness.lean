import LuaTypes.Proofs.LinkPlaces
import LuaTypes.Proofs.ReplacedOperations

/-!
Requests that are alike but for the places of class values. A place is no more than a number in a
table, so requests on different tables can only be compared up to it. What is done with types keeps
them alike, and a script that is carried out with answers that are alike ends with a result that is
alike; the second script may in addition look up links.
-/

namespace LuaTypes

namespace Ty

/-- Two types are the same but for the places of their class values. -/
def Alike (t u : Ty) : Prop :=
  t.bare = u.bare

namespace Alike

variable {a a' b b' t u : Ty} {c : ClassTy} {ts us : List Ty}

theorem symm (h : t.Alike u) : u.Alike t :=
  Eq.symm h

theorem of_ofClass (h : (ofClass c).Alike u) : ∃ d, u = ofClass d ∧ c.bare = d.bare := by
  cases u with
  | ofClass d => exact ⟨d, rfl, ofClass.inj h⟩
  | _ => cases h

theorem of_array {element : Ty} (h : (array element).Alike u) :
    ∃ element', u = array element' ∧ element.Alike element' := by
  cases u with
  | array element' => exact ⟨element', rfl, array.inj h⟩
  | _ => cases h

theorem of_generic {base : Ty} {args : List Ty} (h : (generic base args).Alike u) :
    ∃ base' args', u = generic base' args' ∧ base.Alike base' := by
  cases u with
  | generic base' args' => exact ⟨base', args', rfl, (generic.inj h).1⟩
  | _ => cases h

theorem of_primitive {p : Primitive} (h : (primitive p).Alike u) : u = primitive p := by
  cases u with
  | primitive q => exact h.symm
  | _ => cases h

theorem forall₂_iff : List.Forall₂ Alike ts us ↔ ts.map bare = us.map bare := by
  rw [← List.forall₂_eq_eq_eq, List.forall₂_map_left_iff, List.forall₂_map_right_iff]
  rfl

theorem members (h : t.Alike u) : List.Forall₂ Alike t.members u.members := by
  rw [forall₂_iff]
  exact (members_mapClasses t).symm.trans ((congrArg Ty.members h).trans (members_mapClasses u))

theorem unite (ha : a.Alike a') (hb : b.Alike b') : (a.unite b).Alike (a'.unite b') := by
  have hunite := unite_mapClasses fun _ => ClassTy.bare_name
  exact (hunite a b).symm.trans ((congrArg₂ Ty.unite ha hb).trans (hunite a' b'))

theorem uniteAll (h : List.Forall₂ Alike ts us) : (Ty.uniteAll ts).Alike (Ty.uniteAll us) := by
  have hunite := uniteAll_mapClasses fun _ => ClassTy.bare_name
  exact (hunite ts).symm.trans ((congrArg Ty.uniteAll (forall₂_iff.1 h)).trans (hunite us))

theorem ofValues (h : List.Forall₂ Alike ts us) : (Ty.ofValues ts).Alike (Ty.ofValues us) :=
  (ofValues_mapClasses ts).symm.trans
    ((congrArg Ty.ofValues (forall₂_iff.1 h)).trans (ofValues_mapClasses us))

theorem values (h : t.Alike u) : List.Forall₂ Alike t.values u.values := by
  rw [forall₂_iff]
  exact (values_mapClasses t).symm.trans ((congrArg Ty.values h).trans (values_mapClasses u))

theorem valueAt (h : t.Alike u) (position : Nat) :
    (t.valueAt position).Alike (u.valueAt position) := by
  have hvalue := fun t => valueAt_mapClasses (fun _ => ClassTy.bare_name) t position
  exact (hvalue t).symm.trans ((congrArg (Ty.valueAt position) h).trans (hvalue u))

theorem returns {receiver receiver' : Option Ty} {args args' : List Ty} (h : t.Alike u)
    (hreceiver : Option.Rel Alike receiver receiver') (hargs : List.Forall₂ Alike args args')
    (colon : Bool) :
    (Ty.uniteAll ((Sources.functionsOf t).map fun s => s.instantiate receiver args colon)).Alike
      (Ty.uniteAll
        ((Sources.functionsOf u).map fun s => s.instantiate receiver' args' colon)) := by
  have heach (v : Ty) (receiver : Option Ty) (args : List Ty) :
      ((Sources.functionsOf v).map fun s => s.instantiate receiver args colon).map bare =
        (Sources.functionsOf v.bare).map fun s =>
          s.instantiate (receiver.map bare) (args.map bare) colon := by
    rw [bare, Sources.functionsOf_mapClasses, List.map_map, List.map_map]
    refine List.map_congr_left fun s _ => ?_
    exact (s.instantiate_mapClasses (fun _ => ClassTy.bare_name) receiver args colon).symm
  have hbare : receiver.map bare = receiver'.map bare := by
    cases hreceiver with
    | none => rfl
    | some h => exact congrArg some h
  refine uniteAll (forall₂_iff.2 ?_)
  rw [heach, heach, h, hbare, forall₂_iff.1 hargs]

theorem isEmpty_functionsOf (h : t.Alike u) :
    (Sources.functionsOf t).isEmpty = (Sources.functionsOf u).isEmpty := by
  have heach (v : Ty) : (Sources.functionsOf v.bare).isEmpty = (Sources.functionsOf v).isEmpty := by
    rw [bare, Sources.functionsOf_mapClasses, List.isEmpty_map]
  rw [← heach t, ← heach u, h]

theorem function {params params' : List (String × Ty)} {returns returns' : Ty}
    (hparams : List.Forall₂ (fun x y => x.1 = y.1 ∧ x.2.Alike y.2) params params')
    (hreturns : returns.Alike returns') (generics : List String) (colon : Bool) :
    (Ty.function { params, returns, generics, colon }).Alike
      (Ty.function { params := params', returns := returns', generics, colon }) := by
  have hmap : (params.map fun x => (x.1, x.2.bare)) = params'.map fun y => (y.1, y.2.bare) := by
    induction hparams with
    | nil => rfl
    | cons h _ ih => rw [List.map_cons, List.map_cons, h.1, h.2, ih]
  rw [Alike, bare_function, bare_function, hmap, hreturns]

end Alike

end Ty

namespace Script

variable {α β γ δ : Type} {R : α → β → Prop} {S : γ → δ → Prop}

/-- Two scripts do the same with answers that are alike, and end with results that are related. The
second one may look up links as well. -/
inductive Alike (R : α → β → Prop) : Script α → Script β → Prop
  | done {a b} (h : R a b) : Alike R (.done a) (.done b)
  | ask {q next next'} (hnext : ∀ t u : Ty, t.Alike u → Alike R (next t) (next' u)) :
      Alike R (.ask q next) (.ask q next')
  | make {t u : Ty} {next next'} (h : t.Alike u)
      (hnext : ∀ t' u' : Ty, t'.Alike u' → Alike R (next t') (next' u')) :
      Alike R (.make t next) (.make u next')
  | consult {c s next} (hnext : Alike R s next) : Alike R s (.consult c next)

namespace Alike

theorem asking_infer (node : NodeId) {ctx ctx' : SearchContext}
    (hctx : ctx.query node = ctx'.query node) :
    (asking.infer node ctx).Alike Ty.Alike (asking.infer node ctx') := by
  change Alike Ty.Alike (.ask (ctx.query node) _) _
  rw [hctx]
  exact .ask fun _ _ h => .done h

theorem asking_make {t u : Ty} (h : t.Alike u) :
    (asking.make t).Alike Ty.Alike (asking.make u) :=
  .make h fun _ _ h => .done h

theorem bind {s : Script α} {s' : Script β} {f : α → Script γ} {f' : β → Script δ}
    (h : s.Alike R s') (hf : ∀ a b, R a b → (f a).Alike S (f' b)) :
    (s >>= f).Alike S (s' >>= f') := by
  induction h with
  | done h => exact hf _ _ h
  | ask _ ih => exact .ask ih
  | make h _ ih => exact .make h ih
  | consult _ ih => exact .consult ih

theorem mapM {ε : Type} {f : ε → Script α} {f' : ε → Script β} {es : List ε}
    (h : ∀ e ∈ es, (f e).Alike R (f' e)) :
    (es.mapM f).Alike (List.Forall₂ R) (es.mapM f') := by
  induction es with
  | nil => exact .done .nil
  | cons e es ih =>
      rw [List.forall_mem_cons] at h
      rw [List.mapM_cons, List.mapM_cons]
      refine h.1.bind fun a b hab => (ih h.2).bind fun as bs habs => .done (.cons hab habs)

theorem foldlM {f : γ → α → Script γ} {f' : δ → β → Script δ} {as : List α} {bs : List β}
    (hlist : List.Forall₂ R as bs)
    (h : ∀ a b, R a b → ∀ x y, S x y → (f x a).Alike S (f' y b)) {x : γ} {y : δ} (hxy : S x y) :
    (as.foldlM f x).Alike S (bs.foldlM f' y) := by
  induction hlist generalizing x y with
  | nil => exact .done hxy
  | cons hab _ ih =>
      rw [List.foldlM_cons, List.foldlM_cons]
      exact (h _ _ hab x y hxy).bind fun x' y' hxy' => ih hxy'

end Alike

end Script

theorem Ty.Alike.placeIn {t u : Ty} (h : t.Alike u) (table table' : Option LinkTable) :
    (t.placeIn table).1.Alike (u.placeIn table').1 :=
  (madeIn_placeIn (.refl _)).bare.trans (h.trans (madeIn_placeIn (.refl _)).bare.symm)

namespace Request

/-- The requests are in the same state but for the places of the class values that they remember,
and for what they have noted for the workspace. -/
structure Alike (r u : Request) : Prop where
  guard : r.guard = u.guard
  cache : List.Forall₂ (fun e e' => e.1 = e'.1 ∧ e.2.Alike e'.2) r.cache u.cache
  cut : r.cut = u.cut

namespace Alike

variable {r u : Request} {q : Query}

theorem refl (r : Request) : r.Alike r where
  guard := rfl
  cache := List.forall₂_same.2 fun _ _ => ⟨rfl, rfl⟩
  cut := rfl

variable (h : r.Alike u)

include h

theorem cached_eq : r.cached = u.cached :=
  h.cache.length_eq

theorem denied_eq : r.denied = u.denied :=
  congrArg Guard.denied h.guard

theorem remembered? : Option.Rel Ty.Alike (r.remembered? q) (u.remembered? q) := by
  have hlookup {es es' : List (Query × Ty)}
      (hes : List.Forall₂ (fun e e' => e.1 = e'.1 ∧ e.2.Alike e'.2) es es') :
      Option.Rel Ty.Alike (es.lookup q) (es'.lookup q) := by
    induction hes with
    | nil => exact .none
    | @cons e e' _ _ he _ ih =>
        rw [List.lookup_cons, List.lookup_cons, he.1]
        cases q == e'.1 with
        | true => exact .some he.2
        | false => exact ih
  exact hlookup h.cache

theorem exists_remembered? {b : Ty} (hb : u.remembered? q = some b) :
    ∃ a, r.remembered? q = some a ∧ a.Alike b := by
  have hrel := h.remembered? (q := q)
  rw [hb] at hrel
  cases hr : r.remembered? q with
  | none => rw [hr] at hrel; cases hrel
  | some a =>
      rw [hr] at hrel
      cases hrel with
      | some ha => exact ⟨a, rfl, ha⟩

theorem remembered?_eq_none (hu : u.remembered? q = none) : r.remembered? q = none := by
  have hrel := h.remembered? (q := q)
  rw [hu] at hrel
  cases hr : r.remembered? q with
  | none => rfl
  | some a => rw [hr] at hrel; cases hrel

theorem enter (q : Query) : (r.enter q).Alike (u.enter q) where
  guard := by rw [Request.enter, Request.enter, h.guard]
  cache := h.cache
  cut := h.cut

theorem refuse (depth : Nat) : (r.refuse depth).Alike (u.refuse depth) where
  guard := by
    simp only [Request.refuse, markCut, h.guard]
  cache := h.cache
  cut := by
    simp only [Request.refuse, markCut, h.cut]

theorem made {t v : Ty} (ht : t.Alike v) :
    (r.made t).1.Alike (u.made v).1 ∧ (r.made t).2.Alike (u.made v).2 :=
  ⟨ht.placeIn _ _, h.guard, h.cache, h.cut⟩

theorem finish {a b : Ty} (hab : a.Alike b) (q : Query) (depth : Nat) :
    (r.finish q depth a).Alike (u.finish q depth b) := by
  cases hcut : u.cut.any (· < depth) with
  | true =>
      rw [finish_of_cut hcut, finish_of_cut (h.cut ▸ hcut)]
      exact ⟨by rw [h.guard], h.cache, h.cut⟩
  | false =>
      rw [finish_of_whole hcut, finish_of_whole (h.cut ▸ hcut)]
      refine ⟨by rw [h.guard], ?_, rfl⟩
      exact List.rel_append h.cache (.cons ⟨rfl, hab⟩ .nil)

end Alike

end Request

namespace Sources

variable {src other : Sources} {base base' : SearchContext}

/-- Over sources whose rules do the same as scripts, requests that are alike stay alike. The first
one looks up no links. -/
theorem Runs.alike
    (hscript : ∀ q, (src.script base q).Alike Ty.Alike (other.script base' q))
    {s s' : Script Ty} {r u u' : Request} {b : Ty} {js : List Moment}
    (hs : s.Alike Ty.Alike s') (hr : r.Alike u) (h : other.Runs base' s' u b u' js) :
    ∃ a r' js', src.Runs base s r a r' js' ∧ a.Alike b ∧ r'.Alike u' ∧
      r'.consulted = r.consulted := by
  induction h generalizing s r with
  | done =>
      cases hs with
      | done hab => exact ⟨_, r, [], .done, hab, hr, rfl⟩
  | made rest ih =>
      cases hs with
      | make ht hnext =>
          obtain ⟨hmade, hr'⟩ := hr.made ht
          obtain ⟨a, r', js', hrun, hab, hr', hconsulted⟩ := ih (hnext _ _ hmade) hr'
          exact ⟨a, r', js', .made hrun, hab, hr', hconsulted⟩
  | consult rest ih =>
      cases hs with
      | consult hnext => exact ih hnext ⟨hr.guard, hr.cache, hr.cut⟩
  | recalled known rest ih =>
      cases hs with
      | ask hnext =>
          obtain ⟨t, hknown, ht⟩ := hr.exists_remembered? known
          obtain ⟨a, r', js', hrun, hab, hr', hconsulted⟩ := ih (hnext _ _ ht) hr
          exact ⟨a, r', _, .recalled hknown hrun, hab, hr', hconsulted⟩
  | cycle unknown inProgress rest ih =>
      cases hs with
      | ask hnext =>
          obtain ⟨a, r', js', hrun, hab, hr', hconsulted⟩ := ih (hnext _ _ rfl) (hr.refuse _)
          have hunknown := hr.remembered?_eq_none unknown
          exact ⟨a, r', _, .cycle hunknown (hr.guard ▸ inProgress) hrun, hab, hr', hconsulted⟩
  | tooDeep unknown fresh full rest ih =>
      cases hs with
      | ask hnext =>
          obtain ⟨a, r', js', hrun, hab, hr', hconsulted⟩ := ih (hnext _ _ rfl) (hr.refuse _)
          have hunknown := hr.remembered?_eq_none unknown
          exact ⟨a, r', _, .tooDeep hunknown (hr.guard ▸ fresh) (hr.guard ▸ full) hrun, hab, hr',
            hconsulted⟩
  | @entered q next u b₁ v inside b u' js unknown fresh room body rest ihBody ih =>
      cases hs with
      | ask hnext =>
          obtain ⟨a₁, s₁, inside', hbody, hab₁, hs₁, hinside⟩ := ihBody (hscript q) (hr.enter q)
          have hleft := hs₁.finish hab₁ q (u.guard.depth + 1)
          obtain ⟨a, r', js', hrun, hab, hr', hconsulted⟩ := ih (hnext _ _ hab₁) hleft
          have hunknown := hr.remembered?_eq_none unknown
          rw [← hr.guard] at fresh room hrun
          refine ⟨a, r', _, .entered hunknown fresh room hbody hrun, hab, hr', ?_⟩
          rw [hconsulted, Request.finish_consulted, hinside]
          rfl

end Sources

end LuaTypes
