import LuaTypes.Index.Links
import LuaTypes.Proofs.ClassProperties
import LuaTypes.Proofs.ClassReplacement
import LuaTypes.Proofs.Runs

/-!
The places of class values in a link table. Settling fills the places of the class values whose
links are asked for and leaves all others as they are; enrolling adds places, all of them empty, and
changes nothing in a type but where its class values have their links from.
-/

namespace LuaTypes

namespace ClassTy

/-- The place that a class value has in a link table. -/
def place? (c : ClassTy) : Option Nat :=
  match c.source with
  | .kept slot => some slot
  | _ => none

/-- Two class values are copies of one that has a place. -/
def Shares (c d : ClassTy) : Prop :=
  c.place?.isSome ∧ d.place? = c.place? ∧ d.name = c.name

instance (c d : ClassTy) : Decidable (c.Shares d) :=
  inferInstanceAs (Decidable (_ ∧ _ ∧ _))

/-- The class value before it was given a place. -/
def bare (c : ClassTy) : ClassTy :=
  match c.source with
  | .kept _ => { c with source := .undetermined }
  | _ => c

variable {c d : ClassTy}

theorem place?_eq_some_iff {slot : Nat} : c.place? = some slot ↔ c.source = .kept slot := by
  unfold place?
  split <;> simp_all

@[simp] theorem bare_form : c.bare.form = c.form := by
  unfold bare
  split <;> rfl

@[simp] theorem bare_name : c.bare.name = c.name :=
  congrArg ClassForm.name bare_form

end ClassTy

namespace LinkPlace

variable {p : LinkPlace} {name other : String} {links : ClassLinks}

@[simp] theorem className_fill : (p.fill name links).className = p.className := by
  unfold fill
  split <;> rfl

theorem linksOf?_fill_self (h : p.className = name) :
    (p.fill name links).linksOf? name = links := by
  simp [fill, linksOf?, h]

theorem fill_of_ne (h : p.className ≠ name) : p.fill name links = p :=
  if_neg h

end LinkPlace

namespace LinkTable

variable {t t' : LinkTable} {ix : SymbolIndex} {c d : ClassTy}

/-- The table has the place of a class value, if the value has one. -/
def Holds (t : LinkTable) (c : ClassTy) : Prop :=
  ∀ slot ∈ c.place?, t.slots[slot]?.map LinkPlace.className = some c.name

instance (t : LinkTable) (c : ClassTy) : Decidable (t.Holds c) :=
  inferInstanceAs (Decidable (∀ slot ∈ c.place?, _))

theorem cached?_eq_of_shares (h : c.Shares d) : t.cached? d = t.cached? c := by
  obtain ⟨hplace, hsame, hname⟩ := h
  obtain ⟨slot, hc⟩ := Option.isSome_iff_exists.1 hplace
  have hd := hsame.trans hc
  rw [ClassTy.place?_eq_some_iff] at hc hd
  simp only [cached?, hc, hd, hname]

theorem links?_eq_of_shares (h : c.Shares d) : t.links? ix d = t.links? ix c := by
  rw [links?, links?, cached?_eq_of_shares h, h.2.2]

section Settle

theorem getElem?_settle (slot : Nat) :
    (t.settle ix d).slots[slot]? = t.slots[slot]?.map fun p =>
      if d.place? = some slot then (t.links? ix d).elim p (p.fill d.name) else p := by
  unfold settle
  split
  next other links hsource hlinks =>
    have hplace : d.place? = some other := ClassTy.place?_eq_some_iff.2 hsource
    simp only [List.getElem?_modify, hplace, Option.some.injEq, hlinks, Option.elim_some]
    rfl
  next hother =>
    symm
    refine (Option.map_congr fun p _ => ?_).trans Option.map_id'
    split
    next hplace =>
      cases hlinks : t.links? ix d with
      | none => rfl
      | some links => exact absurd hlinks (hother slot links (ClassTy.place?_eq_some_iff.1 hplace))
    next => rfl

theorem holds_settle_iff : (t.settle ix d).Holds c ↔ t.Holds c := by
  refine forall₂_congr fun slot _ => Eq.congr_left ?_
  rw [getElem?_settle, Option.map_map]
  refine Option.map_congr fun p _ => ?_
  rw [Function.comp_apply]
  split
  · cases t.links? ix d <;> simp
  · rfl

theorem cached?_settle_of_not_shares (hplace : t.Holds c) (h : ¬ c.Shares d) :
    (t.settle ix d).cached? c = t.cached? c := by
  cases hsource : c.source with
  | kept slot =>
      have hc := ClassTy.place?_eq_some_iff.2 hsource
      simp only [cached?, hsource, getElem?_settle]
      cases hslot : t.slots[slot]? with
      | none => rfl
      | some p =>
          rw [Option.map_some]
          split
          next hd =>
            -- Another class value may come with the same place, but then not with the same name.
            have hname : p.className = c.name := by simpa [hslot] using hplace slot hc
            have hne : p.className ≠ d.name := fun heq =>
              h ⟨by simp [hc], hd.trans hc.symm, heq.symm.trans hname⟩
            cases t.links? ix d with
            | none => rfl
            | some links => rw [Option.elim_some, LinkPlace.fill_of_ne hne]
          next => rfl
  | _ => simp only [cached?, hsource]

theorem cached?_settle (hplace : t.Holds c) :
    (t.settle ix d).cached? c =
      (t.cached? c <|> if c.Shares d then ix.linksOf? c.name else none) := by
  by_cases hshares : c.Shares d
  · obtain ⟨slot, hc⟩ := Option.isSome_iff_exists.1 hshares.1
    have hd := hshares.2.1.trans hc
    obtain ⟨p, hslot, hname⟩ := Option.map_eq_some_iff.1 (hplace slot hc)
    rw [if_pos hshares, ← links?, ← links?_eq_of_shares hshares]
    simp only [cached?, ClassTy.place?_eq_some_iff.1 hc, getElem?_settle, hd, hslot]
    cases hlinks : t.links? ix d with
    | some links =>
        have hfilled : p.className = d.name := hname.trans hshares.2.2.symm
        simp only [Option.map_some, Option.elim_some, Option.bind_some, ← hshares.2.2, if_true]
        exact LinkPlace.linksOf?_fill_self hfilled
    | none =>
        rw [links?_eq_of_shares hshares] at hlinks
        cases hcached : t.cached? c with
        | some links => simp [links?, hcached] at hlinks
        | none => simpa [cached?, ClassTy.place?_eq_some_iff.1 hc, hslot] using hcached
  · rw [cached?_settle_of_not_shares hplace hshares, if_neg hshares]
    cases t.cached? c <;> rfl

theorem holds_settleAll_iff {ds : List ClassTy} : (t.settleAll ix ds).Holds c ↔ t.Holds c := by
  induction ds generalizing t with
  | nil => rfl
  | cons d ds ih => exact ih.trans holds_settle_iff

/-- Settling class values fills the place of one of them with what the index knows then, if it was
empty, and never changes what was there. -/
theorem cached?_settleAll {ds : List ClassTy} (hplace : t.Holds c) :
    (t.settleAll ix ds).cached? c =
      (t.cached? c <|> if ∃ d ∈ ds, c.Shares d then ix.linksOf? c.name else none) := by
  induction ds generalizing t with
  | nil =>
      simp only [settleAll, List.foldl_nil, List.not_mem_nil, false_and, exists_false, if_false]
      cases t.cached? c <;> rfl
  | cons d ds ih =>
      refine (ih (holds_settle_iff.2 hplace)).trans ?_
      rw [cached?_settle hplace]
      cases t.cached? c with
      | some links => rfl
      | none =>
          -- Where the first class value with the place finds nothing, the index is dumb, and the
          -- later ones find nothing either.
          by_cases hd : c.Shares d
          · cases ix.linksOf? c.name <;> simp [hd]
          · simp [hd]

end Settle

/-- The second table has the places of the first one as they were, and further ones that are all
empty. -/
def Grows (t t' : LinkTable) : Prop :=
  ∃ names : List String,
    t'.slots = t.slots ++ names.map fun className => ({ className } : LinkPlace)

namespace Grows

theorem refl (t : LinkTable) : t.Grows t :=
  ⟨[], by simp⟩

theorem trans {u : LinkTable} (h : t.Grows t') (h' : t'.Grows u) : t.Grows u := by
  obtain ⟨names, hnames⟩ := h
  obtain ⟨more, hmore⟩ := h'
  exact ⟨names ++ more, by rw [hmore, hnames, List.append_assoc, List.map_append]⟩

theorem holds (h : t.Grows t') (hplace : t.Holds c) : t'.Holds c := by
  obtain ⟨names, hslots⟩ := h
  intro slot hslot
  obtain ⟨p, hp, -⟩ := Option.map_eq_some_iff.1 (hplace slot hslot)
  rw [hslots, List.getElem?_append_left (List.getElem?_eq_some_iff.1 hp).1]
  exact hplace slot hslot

theorem cached?_eq (h : t.Grows t') : t'.cached? c = t.cached? c := by
  obtain ⟨names, hslots⟩ := h
  cases hsource : c.source with
  | kept slot =>
      simp only [cached?, hsource, hslots]
      rcases Nat.lt_or_ge slot t.slots.length with hlt | hge
      · rw [List.getElem?_append_left hlt]
      · rw [List.getElem?_append_right hge, List.getElem?_eq_none hge, List.getElem?_map]
        cases names[slot - t.slots.length]? <;> simp [LinkPlace.linksOf?]
  | _ => simp only [cached?, hsource]

end Grows

/-- The table of a request may grow; where there is none there is none later on. -/
def MayGrow (table table' : Option LinkTable) : Prop :=
  Option.Rel Grows table table'

theorem MayGrow.refl (table : Option LinkTable) : MayGrow table table := by
  cases table with
  | none => exact .none
  | some t => exact .some (.refl t)

theorem MayGrow.trans {a b c : Option LinkTable} (h : MayGrow a b) (h' : MayGrow b c) :
    MayGrow a c := by
  cases h with
  | none => exact h'
  | some hab =>
      cases h' with
      | some hbc => exact .some (hab.trans hbc)

/-- The class value has a place in the table, or has its links of its own. -/
def Placed (t : LinkTable) (c : ClassTy) : Prop :=
  c.source ≠ .undetermined ∧ t.Holds c

instance (t : LinkTable) (c : ClassTy) : Decidable (t.Placed c) :=
  inferInstanceAs (Decidable (_ ∧ _))

theorem Grows.placed {t t' : LinkTable} {c : ClassTy} (h : t.Grows t') (hc : t.Placed c) :
    t'.Placed c :=
  ⟨hc.1, h.holds hc.2⟩

end LinkTable

section Enrols

variable {α β γ : Type} {P : LinkTable → α → Prop} {Q : LinkTable → β → Prop}

/-- An action lets a table grow, and its result has a property in whatever the table grows into. -/
def Enrols (P : LinkTable → α → Prop) (act : StateM LinkTable α) : Prop :=
  ∀ t : LinkTable, t.Grows (act.run t).2 ∧ ∀ t', (act.run t).2.Grows t' → P t' (act.run t).1

namespace Enrols

theorem pure {a : α} (h : ∀ t, P t a) : Enrols P (Pure.pure a) :=
  fun t => ⟨.refl t, fun t' _ => h t'⟩

theorem bind {act : StateM LinkTable α} {f : α → StateM LinkTable β} (h : Enrols P act)
    (hf : ∀ a, Enrols (fun t b => P t a → Q t b) (f a)) : Enrols Q (act >>= f) := by
  intro t
  obtain ⟨hgrows, ha⟩ := h t
  obtain ⟨hgrows', hb⟩ := hf (act.run t).1 (act.run t).2
  exact ⟨hgrows.trans hgrows', fun t' ht => hb t' ht (ha t' (hgrows'.trans ht))⟩

theorem mapM {R : LinkTable → α → β → Prop} {f : α → StateM LinkTable β} {as : List α}
    (h : ∀ a ∈ as, Enrols (fun t => R t a) (f a)) :
    Enrols (fun t => List.Forall₂ (R t) as) (as.mapM f) := by
  induction as with
  | nil => exact .pure fun t => .nil
  | cons a as ih =>
      rw [List.forall_mem_cons] at h
      rw [List.mapM_cons]
      refine h.1.bind fun b => (ih h.2).bind fun bs => .pure fun t hbs hb => .cons hb hbs

end Enrols

end Enrols

theorem ClassTy.enrols (c : ClassTy) :
    Enrols (fun table d => d.bare = c.bare ∧ (table.Holds c → table.Placed d)) c.enrol := by
  unfold enrol
  split
  next hsource =>
    intro t
    refine ⟨⟨[c.name], rfl⟩, fun table hgrows => ⟨?_, fun _ => ⟨nofun, hgrows.holds ?_⟩⟩⟩
    · obtain ⟨form, source⟩ := c
      obtain rfl : source = .undetermined := hsource
      rfl
    · intro slot hslot
      obtain rfl := Option.some.inj hslot
      exact congrArg (Option.map LinkPlace.className) List.getElem?_concat_length
  next hsource =>
    exact .pure fun table => ⟨rfl, fun hc => ⟨hsource, hc⟩⟩

namespace Ty

/-- The type before its class values were given places. -/
def bare (t : Ty) : Ty :=
  t.mapClasses ClassTy.bare

section Bare

variable (base returns : Ty) (ts : List Ty) (params : List (String × Ty))
  (bound varargs : Option Ty) (name : String) (generics : List String) (colon : Bool)

@[simp] theorem bare_function :
    (function ⟨params, returns, varargs, generics, colon⟩).bare =
      function ⟨params.map fun x => (x.1, x.2.bare), returns.bare, varargs.map bare, generics,
        colon⟩ := by
  simp only [bare, mapClasses, mapClassesParams_eq_map, mapClassesOption_eq_map]
  rfl

@[simp] theorem bare_union : (union ts).bare = union (ts.map bare) :=
  congrArg union (mapClassesList_eq_map ts)

@[simp] theorem bare_tuple : (tuple ts).bare = tuple (ts.map bare) :=
  congrArg tuple (mapClassesList_eq_map ts)

@[simp] theorem bare_generic : (generic base ts).bare = generic base.bare (ts.map bare) :=
  congrArg (generic base.bare) (mapClassesList_eq_map ts)

@[simp] theorem bare_param : (param name bound).bare = param name (bound.map bare) :=
  congrArg (param name) (mapClassesOption_eq_map bound)

end Bare

/-- What may become of a type when its class values are given places in a table. -/
structure Enrolled (table : LinkTable) (t u : Ty) : Prop where
  bare : u.bare = t.bare
  placed : t.EachClass table.Holds → u.EachClass table.Placed

namespace Enrolled

variable {table : LinkTable} {ts us : List Ty}

theorem of_noClass {t : Ty} (h : t.EachClass fun _ => False) : Enrolled table t t where
  bare := rfl
  placed _ := h.imp fun _ => False.elim

theorem map_bare (h : List.Forall₂ (Enrolled table) ts us) :
    us.map Ty.bare = ts.map Ty.bare := by
  induction h with
  | nil => rfl
  | cons hu _ ih => rw [List.map_cons, List.map_cons, hu.bare, ih]

theorem forall_placed (h : List.Forall₂ (Enrolled table) ts us)
    (hts : ∀ t ∈ ts, t.EachClass table.Holds) : ∀ u ∈ us, u.EachClass table.Placed := by
  intro u hu
  obtain ⟨t, ht, htu⟩ := exists_left_of_forall₂ h hu
  exact htu.placed (hts t ht)

section Parts

variable {base base' returns returns' : Ty} {args args' members members' : List Ty}
  {params params' : List (String × Ty)} {bound bound' varargs varargs' : Option Ty}
  {name : String} {generics : List String} {colon : Bool}

theorem map_bare_params
    (h : List.Forall₂ (fun x y => y.1 = x.1 ∧ Enrolled table x.2 y.2) params params') :
    (params'.map fun y => (y.1, y.2.bare)) = params.map fun x => (x.1, x.2.bare) := by
  induction h with
  | nil => rfl
  | cons hu _ ih => rw [List.map_cons, List.map_cons, hu.1, hu.2.bare, ih]

theorem forall_placed_params
    (h : List.Forall₂ (fun x y => y.1 = x.1 ∧ Enrolled table x.2 y.2) params params')
    (hparams : ∀ x ∈ params, x.2.EachClass table.Holds) :
    ∀ y ∈ params', y.2.EachClass table.Placed := by
  intro y hy
  obtain ⟨x, hx, -, hxy⟩ := exists_left_of_forall₂ h hy
  exact hxy.placed (hparams x hx)

theorem map_bare_option (h : Option.Rel (Enrolled table) bound bound') :
    bound'.map Ty.bare = bound.map Ty.bare := by
  cases h with
  | none => rfl
  | some hu => exact congrArg some hu.bare

theorem forall_placed_option (h : Option.Rel (Enrolled table) bound bound')
    (hbound : ∀ b ∈ bound, b.EachClass table.Holds) : ∀ b ∈ bound', b.EachClass table.Placed := by
  cases h with
  | none => nofun
  | some hu => exact fun b hb => Option.some.inj hb ▸ hu.placed (hbound _ rfl)

theorem function
    (hparams : List.Forall₂ (fun x y => y.1 = x.1 ∧ Enrolled table x.2 y.2) params params')
    (hreturns : Enrolled table returns returns')
    (hvarargs : Option.Rel (Enrolled table) varargs varargs') :
    Enrolled table (.function ⟨params, returns, varargs, generics, colon⟩)
      (.function ⟨params', returns', varargs', generics, colon⟩) where
  bare := by
    rw [bare_function, bare_function, map_bare_params hparams, hreturns.bare,
      map_bare_option hvarargs]
  placed h := by
    obtain ⟨hp, hr, hv⟩ := eachClass_function_iff.1 h
    exact eachClass_function_iff.2 ⟨forall_placed_params hparams hp, hreturns.placed hr,
      forall_placed_option hvarargs hv⟩

theorem union (h : List.Forall₂ (Enrolled table) members members') :
    Enrolled table (.union members) (.union members') where
  bare := by rw [bare_union, bare_union, map_bare h]
  placed ht := eachClass_union_iff.2 (forall_placed h (eachClass_union_iff.1 ht))

theorem tuple (h : List.Forall₂ (Enrolled table) members members') :
    Enrolled table (.tuple members) (.tuple members') where
  bare := by rw [bare_tuple, bare_tuple, map_bare h]
  placed ht := eachClass_tuple_iff.2 (forall_placed h (eachClass_tuple_iff.1 ht))

theorem generic (hbase : Enrolled table base base')
    (hargs : List.Forall₂ (Enrolled table) args args') :
    Enrolled table (.generic base args) (.generic base' args') where
  bare := by rw [bare_generic, bare_generic, hbase.bare, map_bare hargs]
  placed ht :=
    have hparts := eachClass_generic_iff.1 ht
    eachClass_generic_iff.2 ⟨hbase.placed hparts.1, forall_placed hargs hparts.2⟩

theorem param (h : Option.Rel (Enrolled table) bound bound') :
    Enrolled table (.param name bound) (.param name bound') where
  bare := by rw [bare_param, bare_param, map_bare_option h]
  placed ht := eachClass_param_iff.2 (forall_placed_option h (eachClass_param_iff.1 ht))

end Parts

end Enrolled

theorem enrolList_eq_mapM (ts : List Ty) : enrolList ts = ts.mapM enrol := by
  induction ts with
  | nil => rfl
  | cons t ts ih => rw [List.mapM_cons, enrolList, ih]

theorem enrolParams_eq_mapM (ps : List (String × Ty)) :
    enrolParams ps = ps.mapM fun x => do return (x.1, ← x.2.enrol) := by
  induction ps with
  | nil => rfl
  | cons x ps ih => simp [List.mapM_cons, enrolParams, ih]

theorem enrols_enrolList {ts : List Ty} (h : ∀ t ∈ ts, Enrols (Enrolled · t) t.enrol) :
    Enrols (fun table => List.Forall₂ (Enrolled table) ts) (enrolList ts) := by
  rw [enrolList_eq_mapM]
  exact .mapM h

theorem enrols_enrolParams {ps : List (String × Ty)}
    (h : ∀ x ∈ ps, Enrols (Enrolled · x.2) x.2.enrol) :
    Enrols (fun table => List.Forall₂ (fun x y => y.1 = x.1 ∧ Enrolled table x.2 y.2) ps)
      (enrolParams ps) := by
  rw [enrolParams_eq_mapM]
  exact .mapM fun x hx => (h x hx).bind fun u => .pure fun table hu => ⟨rfl, hu⟩

theorem enrols_enrolOption {bound : Option Ty} (h : ∀ b ∈ bound, Enrols (Enrolled · b) b.enrol) :
    Enrols (fun table => Option.Rel (Enrolled table) bound) (enrolOption bound) := by
  cases bound with
  | none => exact .pure fun table => .none
  | some b => exact (h b rfl).bind fun u => .pure fun table hu => .some hu

/-- Enrolment changes nothing in a type but the sources of its links, and gives each class value a
place unless its links have a source already. -/
theorem enrols (t : Ty) : Enrols (Enrolled · t) t.enrol := by
  induction t with
  | unknown => exact .pure fun table => .of_noClass (List.forall_mem_singleton.2 trivial)
  | nil => exact .pure fun table => .of_noClass (List.forall_mem_singleton.2 trivial)
  | void => exact .pure fun table => .of_noClass (List.forall_mem_singleton.2 trivial)
  | primitive p => exact .pure fun table => .of_noClass (List.forall_mem_singleton.2 trivial)
  | ofClass c =>
      refine c.enrols.bind fun d => .pure fun table hd => ⟨congrArg ofClass hd.1, fun hc => ?_⟩
      exact eachClass_ofClass_iff.2 (hd.2 (eachClass_ofClass_iff.1 hc))
  | array element ih =>
      refine ih.bind fun u => .pure fun table hu => ⟨congrArg array hu.bare, fun helement => ?_⟩
      exact eachClass_array_iff.2 (hu.placed (eachClass_array_iff.1 helement))
  | function signature ihParams ihReturns ihVarargs =>
      obtain ⟨params, returns, varargs, generics, colon⟩ := signature
      refine (enrols_enrolParams ihParams).bind fun qs => ihReturns.bind fun u => ?_
      refine (enrols_enrolOption ihVarargs).bind fun v => .pure fun table hv hu hqs => ?_
      exact .function hqs hu hv
  | union members ih =>
      exact (enrols_enrolList ih).bind fun us => .pure fun table hus => .union hus
  | tuple members ih =>
      exact (enrols_enrolList ih).bind fun us => .pure fun table hus => .tuple hus
  | generic base args ihBase ihArgs =>
      refine ihBase.bind fun u => (enrols_enrolList ihArgs).bind fun us => ?_
      exact .pure fun table hus hu => .generic hu hus
  | param name bound ih =>
      exact (enrols_enrolOption ih).bind fun u => .pure fun table hu => .param hu

/-- What may become of a type that is built where there is such a table in the end, or none. -/
def MadeIn (table : Option LinkTable) (t u : Ty) : Prop :=
  table.elim (u = t) fun table => Enrolled table t u

variable {table table' : Option LinkTable} {t u : Ty}

theorem MadeIn.bare (h : t.MadeIn table u) : u.bare = t.bare := by
  cases table with
  | none => exact congrArg Ty.bare h
  | some table => exact Enrolled.bare h

theorem eachClass_bare_iff {p : ClassTy → Prop} (hp : ∀ c, p c.bare ↔ p c) :
    t.bare.EachClass p ↔ t.EachClass p := by
  have hpart : ∀ part : Ty, IfClass p (part.mapClasses ClassTy.bare) ↔ IfClass p part := by
    intro part
    cases part with
    | ofClass c => exact hp c
    | _ => rfl
  rw [EachClass, Everywhere, bare, parts_mapClasses, List.forall_mem_map]
  exact forall₂_congr fun part _ => hpart part

theorem MadeIn.eachClass {p : ClassTy → Prop} (hp : ∀ c, p c.bare ↔ p c)
    (h : t.MadeIn table u) (ht : t.EachClass p) : u.EachClass p := by
  rw [← eachClass_bare_iff hp, h.bare, eachClass_bare_iff hp]
  exact ht

theorem MadeIn.wellFormed (h : t.MadeIn table u) (ht : t.WellFormed) : u.WellFormed := by
  have hname : ∀ c : ClassTy, c.bare.name = c.name := fun c => c.bare_name
  rw [← wellFormed_mapClasses_iff hname] at ht ⊢
  exact (congrArg WellFormed h.bare).mpr ht

theorem MadeIn.unknown (h : Ty.unknown.MadeIn table u) : u = .unknown := by
  have hbare := h.bare
  cases u with
  | unknown => rfl
  | _ => cases hbare

theorem mayGrow_placeIn (t : Ty) (table : Option LinkTable) :
    LinkTable.MayGrow table (t.placeIn table).2 := by
  cases table with
  | none => exact .none
  | some table => exact .some (t.enrols table).1

theorem madeIn_placeIn (h : LinkTable.MayGrow (t.placeIn table).2 table') :
    t.MadeIn table' (t.placeIn table).1 := by
  cases table with
  | none =>
      cases h
      rfl
  | some table =>
      cases h with
      | some hgrows => exact (t.enrols table).2 _ hgrows

end Ty

theorem SymbolIndex.enrols (ix : SymbolIndex) :
    Enrols (fun table ix' => ix.EachClass table.Holds → ix'.EachClass table.Placed) ix.enrol := by
  let Kept (table : LinkTable) (d e : MemberDecl) : Prop :=
    d.ty.EachClass table.Holds → e.ty.EachClass table.Placed
  have hgroups : Enrols (fun table => List.Forall₂ (fun g h => List.Forall₂ (Kept table) g.2 h.2)
      ix.groups) (ix.groups.mapM fun g => do
        let members ← g.2.mapM fun d => do return { d with ty := ← d.ty.enrol }
        return (g.1, members)) := by
    refine .mapM fun g _ => ?_
    have hmembers : Enrols (fun table => List.Forall₂ (Kept table) g.2)
        (g.2.mapM fun d => do return { d with ty := ← d.ty.enrol }) :=
      .mapM fun d _ => d.ty.enrols.bind fun u => .pure fun table hu => hu.placed
    exact hmembers.bind fun members => .pure fun table h => h
  refine hgroups.bind fun groups => .pure fun table hgroups hix g hg e he => ?_
  obtain ⟨g', hg', hmembers⟩ := exists_left_of_forall₂ hgroups hg
  obtain ⟨d, hd, hkept⟩ := exists_left_of_forall₂ hmembers he
  exact hkept (hix g' hg' d hd)

namespace Sources

variable {src : Sources} {base : SearchContext}

theorem Runs.mayGrow {s : Script Ty} {r r' : Request} {t : Ty} {js : List Moment}
    (h : src.Runs base s r t r' js) : LinkTable.MayGrow r.table r'.table := by
  induction h with
  | done => exact .refl _
  | @made t next r u r' js rest ih => exact (t.mayGrow_placeIn r.table).trans ih
  | consult rest ih => exact ih
  | recalled known rest ih => exact ih
  | cycle unknown inProgress rest ih => exact ih
  | tooDeep unknown fresh full rest ih => exact ih
  | entered unknown fresh room body rest ihBody ih =>
      rw [Request.finish_table] at ih
      exact ihBody.trans ih

theorem Serves.mayGrow {demands : List Demand} {r r' : Request} {ts : List Ty} {js : List Moment}
    (h : src.Serves demands r ts r' js) : LinkTable.MayGrow r.table r'.table :=
  h.relates (fun r r' => LinkTable.MayGrow r.table r'.table) (fun _ => .refl _) .trans
    Runs.mayGrow

end Sources

end LuaTypes
