import LuaTypes.Proofs.Anew

/-!
A request that has been asked before, side by side with a fresh one. On queries that plain inference
comes to an end on, both find the plain type and nothing else changes. On the other queries they do
the same steps, as long as the first one takes over no result from before.
-/

namespace LuaTypes

namespace Sources

variable {src : Sources} {base : SearchContext}

theorem endless_of_not_yields {q : Query} (h : ¬ ∃ t, src.Yields base q t) :
    src.Endless base q :=
  fun t ht => h ⟨t, ht⟩

theorem Pending.of_endless {r : Request} {s : Script Ty}
    (h : ∀ q ∈ r.guard.inProgress.map Prod.fst, src.Endless base q) : src.Pending base r s := by
  rintro q hq fuel ⟨t, ht⟩
  exact absurd ⟨fuel, ht⟩ (h q hq t)

theorem finish_cut_eq {s : Request} {q : Query} {level : Nat} {t : Ty}
    (h : ∀ cut ∈ s.cut, cut ≤ level) : (s.finish q (level + 1) t).cut = s.cut := by
  cases hcut : s.cut with
  | none =>
      rw [Request.finish_of_whole (by simp [hcut])]
  | some cut =>
      have hany : s.cut.any (· < level + 1) = true := by
        rw [hcut]
        exact decide_eq_true (Nat.lt_succ_of_le (h cut hcut))
      rw [Request.finish_of_cut hany, hcut]

/-- Where plain inference comes to an end, a run within the limit leaves pending cuts alone, and
what is remembered about queries that it does not come to an end on. -/
theorem Runs.quiet {s : Script Ty} {r r' : Request} {t : Ty} {js : List Moment}
    (h : src.Runs base s r t r' js) (htable : r.table = none)
    (hlimit : ∀ m ∈ js, m.event.isTooDeep = false) (hagrees : src.AgreesWithPlain base r)
    (hpending : src.Pending base r s) (hcut : ∀ cut ∈ r.cut, cut ≤ r.guard.depth)
    {fuel : Nat} {u : Ty} (hu : s.run base (src.plain fuel) = some u) :
    r'.cut = r.cut ∧ ∀ p, src.Endless base p → r'.remembered? p = r.remembered? p := by
  induction h generalizing fuel u with
  | done => exact ⟨rfl, fun p hp => rfl⟩
  | made rest ih =>
      rw [Request.made_of_no_table htable] at ih
      exact ih htable hlimit hagrees hpending hcut hu
  | consult rest ih => exact ih htable hlimit hagrees hpending hcut hu
  | recalled known rest ih =>
      rw [List.forall_mem_cons] at hlimit
      have ha := hagrees _ _ known
      exact ih htable hlimit.2 hagrees (hpending.answered rfl ha) hcut (run_plain_next ha hu)
  | @cycle q next r depth t r' js unknown inProgress rest ih =>
      obtain ⟨a, ha, -⟩ := run_plain_ask.1 hu
      have hmem : q ∈ r.guard.inProgress.map Prod.fst := Guard.mem_of_enteredAt? inProgress
      exact absurd ⟨fuel, ha⟩ (hpending.endless hmem a)
  | tooDeep unknown fresh full rest ih =>
      rw [List.forall_mem_cons] at hlimit
      exact absurd hlimit.1 (by simp [Event.isTooDeep])
  | @entered q next r a s inside t r' js unknown fresh room body rest ihBody ih =>
      rw [List.forall_mem_cons, List.forall_mem_append, List.forall_mem_cons] at hlimit
      obtain ⟨-, hinside, -, hjs⟩ := hlimit
      obtain ⟨hs, hbody⟩ := body.agrees_with_plain htable hinside hagrees hpending.enter
      have ha := agrees_of_script hbody
      have hdeeper : ∀ cut ∈ r.cut, cut ≤ r.guard.depth + 1 :=
        fun cut hmem => Nat.le_succ_of_le (hcut cut hmem)
      obtain ⟨b, hb, -⟩ := run_plain_ask.1 hu
      obtain ⟨less, -, hless⟩ := exists_run_of_inferPlain hb
      obtain ⟨hbodyCut, hbodyKept⟩ := ihBody htable hinside hagrees hpending.enter hdeeper hless
      have hback : (s.finish q (r.guard.depth + 1) a).guard.inProgress = r.guard.inProgress :=
        body.left_inProgress fresh
      have hleft : (s.finish q (r.guard.depth + 1) a).cut = r.cut :=
        (finish_cut_eq fun cut hmem => hcut cut (hbodyCut ▸ hmem)).trans hbodyCut
      obtain ⟨hrestCut, hrestKept⟩ := ih (body.left_no_table htable) hjs (hs.finish ha)
        (hpending.answered hback ha) (by rw [hleft, body.left_depth]; exact hcut)
        (run_plain_next ha hu)
      refine ⟨hrestCut.trans hleft, fun p hp => (hrestKept p hp).trans ?_⟩
      have hne : p ≠ q := by
        rintro rfl
        exact hp b ⟨fuel, hb⟩
      exact (Request.finish_remembered_of_ne hne).trans (hbodyKept p hp)

/-- A request that has been asked before and a fresh one, at the same point of a question that plain
inference does not come to an end on: the first one remembers what it did before, and apart from
that both remember the same about such questions. -/
structure Twin (src : Sources) (base : SearchContext) (old r f : Request) : Prop where
  orderly : r.Orderly
  limited : 0 < r.guard.maxDepth
  inProgress : f.guard.inProgress = r.guard.inProgress
  depth : f.guard.depth = r.guard.depth
  maxDepth : f.guard.maxDepth = r.guard.maxDepth
  cut : f.cut = r.cut
  noTable : r.table = none
  freshNoTable : f.table = none
  endless : ∀ q ∈ r.guard.inProgress.map Prod.fst, src.Endless base q
  agrees : src.AgreesWithPlain base r
  agreesFresh : src.AgreesWithPlain base f
  kept : old.cache <+: r.cache
  shared : ∀ q, src.Endless base q → old.remembered? q = none → f.remembered? q = r.remembered? q

namespace Twin

variable {old r f r' f' : Request} {q : Query}

theorem cut_le (h : src.Twin base old r f) : ∀ cut ∈ r.cut, cut ≤ r.guard.depth :=
  h.orderly.cutInProgress h.limited

theorem old_unknown (h : src.Twin base old r f) (unknown : r.remembered? q = none) :
    old.remembered? q = none := by
  refine Option.eq_none_iff_forall_ne_some.2 fun t ht => ?_
  rw [Request.remembered?_mono h.kept ht] at unknown
  cases unknown

theorem enteredAt? (h : src.Twin base old r f) (q : Query) :
    f.guard.enteredAt? q = r.guard.enteredAt? q := by
  rw [Guard.enteredAt?, h.inProgress]
  rfl

theorem answered {t u : Ty} {js js' : List Moment} (h : src.Twin base old r f)
    (hr : src.Runs base (.ask q .done) r t r' js)
    (hf : src.Runs base (.ask q .done) f u f' js')
    (hlimit : ∀ m ∈ js, m.event.isTooDeep = false)
    (hlimit' : ∀ m ∈ js', m.event.isTooDeep = false) {v : Ty} (hv : src.Yields base q v) :
    t = u ∧ src.Twin base old r' f' := by
  obtain ⟨fuel, hv⟩ := hv
  have hask : (Script.ask q .done).run base (src.plain fuel) = some v :=
    run_plain_ask.2 ⟨v, hv, rfl⟩
  have hpending : src.Pending base r (.ask q .done) := .of_endless h.endless
  have hpending' : src.Pending base f (.ask q .done) := .of_endless (h.inProgress ▸ h.endless)
  have hcut' : ∀ cut ∈ f.cut, cut ≤ f.guard.depth := by
    rw [h.cut, h.depth]
    exact h.cut_le
  obtain ⟨hagrees, ht⟩ := hr.agrees_with_plain h.noTable hlimit h.agrees hpending
  obtain ⟨hagrees', hu⟩ :=
    hf.agrees_with_plain h.freshNoTable hlimit' h.agreesFresh hpending'
  obtain ⟨hrCut, hrKept⟩ := hr.quiet h.noTable hlimit h.agrees hpending h.cut_le hask
  obtain ⟨hfCut, hfKept⟩ :=
    hf.quiet h.freshNoTable hlimit' h.agreesFresh hpending' hcut' hask
  refine ⟨(ht fuel v hask).trans (hu fuel v hask).symm, ?_⟩
  exact {
    orderly := hr.orderly h.orderly
    limited := hr.maxDepth_eq ▸ h.limited
    inProgress := (hf.inProgress_eq.trans h.inProgress).trans hr.inProgress_eq.symm
    depth := (hf.depth_eq.trans h.depth).trans hr.depth_eq.symm
    maxDepth := (hf.maxDepth_eq.trans h.maxDepth).trans hr.maxDepth_eq.symm
    cut := (hfCut.trans h.cut).trans hrCut.symm
    noTable := hr.no_table h.noTable
    freshNoTable := hf.no_table h.freshNoTable
    endless := hr.inProgress_eq ▸ h.endless
    agrees := hagrees
    agreesFresh := hagrees'
    kept := h.kept.trans hr.cache_prefix
    shared := fun p hp hold =>
      ((hfKept p hp).trans (h.shared p hp hold)).trans (hrKept p hp).symm }

theorem noteConsulted (h : src.Twin base old r f) (c : ClassTy) :
    src.Twin base old (r.noteConsulted c) (f.noteConsulted c) :=
  { h with orderly := h.orderly.noteConsulted c }

theorem refuse {depth : Nat} (h : src.Twin base old r f)
    (hdepth : r.guard.enteredAt? q = some depth) :
    src.Twin base old (r.refuse depth) (f.refuse depth) :=
  { h with
    orderly := h.orderly.refuse_cycle hdepth
    cut := by
      change some (f.cut.elim depth (min depth)) = some (r.cut.elim depth (min depth))
      rw [h.cut] }

theorem enter (h : src.Twin base old r f) (hq : src.Endless base q)
    (unknown : r.remembered? q = none) (hfresh : r.guard.enteredAt? q = none)
    (hroom : r.guard.depth < r.guard.maxDepth) : src.Twin base old (r.enter q) (f.enter q) :=
  { h with
    orderly := h.orderly.enter unknown hfresh hroom
    inProgress := by
      rw [Request.enter_inProgress, Request.enter_inProgress, h.inProgress, h.depth]
    depth := by rw [Request.enter_depth, Request.enter_depth, h.depth]
    endless := List.forall_mem_cons.2 ⟨hq, h.endless⟩ }

theorem finish_shared {depth : Nat} {a : Ty} (h : src.Twin base old r f) (p : Query)
    (hp : src.Endless base p) (hold : old.remembered? p = none) :
    (f.finish q depth a).remembered? p = (r.finish q depth a).remembered? p := by
  have hshared := h.shared p hp hold
  cases hcut : r.cut.any (· < depth) with
  | true =>
      rw [Request.finish_of_cut hcut, Request.finish_of_cut (h.cut ▸ hcut)]
      exact hshared
  | false =>
      rw [Request.finish_of_whole hcut, Request.finish_of_whole (h.cut ▸ hcut)]
      simp only [Request.remembered?, List.lookup_append] at hshared ⊢
      rw [hshared]

theorem finish {s g : Request} {a : Ty} (hs : src.Twin base old s g)
    (h : src.Twin base old r f) (hq : src.Endless base q)
    (hfresh : r.guard.enteredAt? q = none)
    (hprogress : s.guard.inProgress = (r.enter q).guard.inProgress)
    (hcount : s.guard.depth = r.guard.depth + 1) (hmax : s.guard.maxDepth = r.guard.maxDepth) :
    src.Twin base old (s.finish q (r.guard.depth + 1) a) (g.finish q (r.guard.depth + 1) a) := by
  have hback : (s.finish q (r.guard.depth + 1) a).guard.inProgress = r.guard.inProgress :=
    Request.finish_inProgress_of_enter hfresh hprogress
  have ha : ∀ u, src.Yields base q u → a = u := fun u hu => absurd hu (hq u)
  exact {
    orderly := hs.orderly.finish h.orderly hfresh hprogress hcount hmax
    limited := by
      rw [Request.finish_maxDepth]
      exact hs.limited
    inProgress := by
      rw [Request.finish_guard, Request.finish_guard, Guard.leave, Guard.leave, hs.inProgress]
    depth := by rw [Request.finish_depth, Request.finish_depth, hs.depth]
    maxDepth := by
      rw [Request.finish_maxDepth, Request.finish_maxDepth]
      exact hs.maxDepth
    noTable := Request.finish_table.trans hs.noTable
    freshNoTable := Request.finish_table.trans hs.freshNoTable
    cut := by
      simp only [Request.finish, hs.cut]
      split <;> simp_all
    endless := hback ▸ h.endless
    agrees := hs.agrees.finish ha
    agreesFresh := hs.agreesFresh.finish ha
    kept := hs.kept.trans Request.cache_prefix_finish
    shared := hs.finish_shared }

end Twin

/-- A request that takes over no result of a question that plain inference does not come to an end
on gives the answer of a fresh one. -/
theorem Runs.lockstep {s : Script Ty} {old r r' f f' : Request} {t u : Ty}
    {js js' : List Moment} (h : src.Runs base s r t r' js) (hf : src.Runs base s f u f' js')
    (htwin : src.Twin base old r f) (hlimit : ∀ m ∈ js, m.event.isTooDeep = false)
    (hlimit' : ∀ m ∈ js', m.event.isTooDeep = false)
    (htaken : ∀ m ∈ js, ∀ q ∈ m.event.recalled?, old.remembered? q ≠ none →
      ∃ v, src.Yields base q v) :
    t = u ∧ src.Twin base old r' f' := by
  induction h generalizing f u f' js' with
  | done =>
      cases hf
      exact ⟨rfl, htwin⟩
  | made rest ih =>
      rw [Request.made_of_no_table htwin.noTable] at ih
      cases hf with
      | made rest' =>
          rw [Request.made_of_no_table htwin.freshNoTable] at rest'
          exact ih rest' htwin hlimit hlimit' htaken
  | consult rest ih =>
      cases hf with
      | consult rest' => exact ih rest' (htwin.noteConsulted _) hlimit hlimit' htaken
  | @recalled q next r a t r' js known rest ih =>
      rw [List.forall_mem_cons] at hlimit htaken
      by_cases hq : ∃ v, src.Yields base q v
      · obtain ⟨v, hv⟩ := hq
        obtain ⟨b, f₁, first, js', rfl, hfirst, rest'⟩ := hf.of_ask
        rw [List.forall_mem_append] at hlimit'
        obtain ⟨rfl, htwin'⟩ := htwin.answered (.recalled known .done) hfirst
          (by simp [Event.isTooDeep]) hlimit'.1 hv
        exact ih rest' htwin' hlimit.2 hlimit'.2 htaken.2
      · have hold : old.remembered? q = none :=
          Classical.byContradiction fun hold => hq (htaken.1 q rfl hold)
        have hshared := htwin.shared q (endless_of_not_yields hq) hold
        obtain ⟨js', rfl, rest'⟩ := hf.of_recalled (hshared.trans known)
        rw [List.forall_mem_cons] at hlimit'
        exact ih rest' htwin hlimit.2 hlimit'.2 htaken.2
  | @cycle q next r depth t r' js unknown inProgress rest ih =>
      rw [List.forall_mem_cons] at hlimit htaken
      have hq := htwin.endless q (Guard.mem_of_enteredAt? inProgress)
      have hunknown := (htwin.shared q hq (htwin.old_unknown unknown)).trans unknown
      obtain ⟨js', rfl, rest'⟩ := hf.of_cycle hunknown ((htwin.enteredAt? q).trans inProgress)
      rw [List.forall_mem_cons] at hlimit'
      exact ih rest' (htwin.refuse inProgress) hlimit.2 hlimit'.2 htaken.2
  | tooDeep unknown fresh full rest ih =>
      rw [List.forall_mem_cons] at hlimit
      exact absurd hlimit.1 (by simp [Event.isTooDeep])
  | @entered q next r a s inside t r' js unknown fresh room body rest ihBody ih =>
      rw [List.forall_mem_cons, List.forall_mem_append, List.forall_mem_cons] at hlimit htaken
      obtain ⟨hopen, hinside, hleft, hjs⟩ := hlimit
      by_cases hq : ∃ v, src.Yields base q v
      · obtain ⟨v, hv⟩ := hq
        obtain ⟨b, f₁, first, js', rfl, hfirst, rest'⟩ := hf.of_ask
        rw [List.forall_mem_append] at hlimit'
        have hquestion : ∀ m ∈ (⟨.entered q (r.guard.depth + 1), r.enter q⟩ :: (inside ++
            ⟨.left q, s.finish q (r.guard.depth + 1) a⟩ :: []) : List Moment),
            m.event.isTooDeep = false := by
          rw [List.forall_mem_cons, List.forall_mem_append, List.forall_mem_singleton]
          exact ⟨hopen, hinside, hleft⟩
        obtain ⟨rfl, htwin'⟩ := htwin.answered (.entered unknown fresh room body .done) hfirst
          hquestion hlimit'.1 hv
        exact ih rest' htwin' hjs hlimit'.2 htaken.2.2.2
      · have hendless := endless_of_not_yields hq
        have hunknown := (htwin.shared q hendless (htwin.old_unknown unknown)).trans unknown
        have hroom : f.guard.depth < f.guard.maxDepth := by
          rw [htwin.depth, htwin.maxDepth]
          exact room
        obtain ⟨b, g, inside', js', rfl, body', rest'⟩ :=
          hf.of_room hunknown ((htwin.enteredAt? q).trans fresh) hroom
        rw [List.forall_mem_cons, List.forall_mem_append, List.forall_mem_cons] at hlimit'
        rw [htwin.depth] at rest'
        obtain ⟨rfl, hs⟩ := ihBody body' (htwin.enter hendless unknown fresh room) hinside
          hlimit'.2.1 htaken.2.1
        have hleft : src.Twin base old (s.finish q (r.guard.depth + 1) a)
            (g.finish q (r.guard.depth + 1) a) :=
          hs.finish htwin hendless fresh body.inProgress_eq body.depth_eq body.maxDepth_eq
        exact ih rest' hleft hjs hlimit'.2.2.2 htaken.2.2.2

theorem Serves.question {before after : List Demand} {node : NodeId} {ctx : SearchContext}
    {r r' : Request} {ts : List Ty} {js : List Moment}
    (h : src.Serves (before ++ .one node ctx :: after) r ts r' js) :
    ∃ ts₁ r₁ js₁ t r₂ js₂ js₃, ts[before.length]? = some t ∧ js = js₁ ++ (js₂ ++ js₃) ∧
      src.Serves before r ts₁ r₁ js₁ ∧
      src.Runs ctx (.ask (ctx.query node) .done) r₁ t r₂ js₂ := by
  induction before generalizing r ts js with
  | nil =>
      cases h with
      | cons first rest => exact ⟨[], r, [], _, _, _, _, rfl, rfl, .nil, first⟩
  | cons d before ih =>
      cases h with
      | cons first rest =>
          obtain ⟨ts₁, r₁, js₁, t, r₂, js₂, js₃, ht, rfl, hbefore, hquestion⟩ := ih rest
          refine ⟨_, r₁, _, t, r₂, js₂, js₃, ?_, ?_, .cons first hbefore, hquestion⟩
          · exact ht
          · rw [List.append_assoc]

theorem Serves.unique {demands : List Demand} {r r' r₂ : Request} {ts ts₂ : List Ty}
    {js js₂ : List Moment} (h : src.Serves demands r ts r' js)
    (h₂ : src.Serves demands r ts₂ r₂ js₂) : ts = ts₂ ∧ r' = r₂ ∧ js = js₂ := by
  induction h generalizing r₂ ts₂ js₂ with
  | nil =>
      cases h₂
      exact ⟨rfl, rfl, rfl⟩
  | cons first rest ih =>
      cases h₂ with
      | cons first₂ rest₂ =>
          obtain ⟨rfl, rfl, rfl⟩ := first.unique first₂
          obtain ⟨rfl, rfl, rfl⟩ := ih rest₂
          exact ⟨rfl, rfl, rfl⟩

theorem Serves.agrees_with_plain {demands : List Demand} {r r' : Request} {ts : List Ty}
    {js : List Moment} (h : src.Serves demands r ts r' js) (htable : r.table = none)
    (hbase : ∀ d ∈ demands, d.ctx.Under base) (hlimit : ∀ m ∈ js, m.event.isTooDeep = false)
    (hidle : r.guard.inProgress = []) (hagrees : src.AgreesWithPlain base r) :
    src.AgreesWithPlain base r' := by
  induction h with
  | nil => exact hagrees
  | @cons d ds r t r₁ js ts r' js' first rest ih =>
      rw [List.forall_mem_cons] at hbase
      rw [List.forall_mem_append] at hlimit
      have hfirst := first.of_under hbase.1
      have hpending : src.Pending base r (d.answer Script.asking) :=
        .of_endless fun q hq => by simp [hidle] at hq
      obtain ⟨hagrees', -⟩ := hfirst.agrees_with_plain htable hlimit.1 hagrees hpending
      exact ih (first.no_table htable) hbase.2 hlimit.2 (first.inProgress_eq.trans hidle) hagrees'

theorem Serves.remembersAnew {demands : List Demand} {r r' : Request} {ts : List Ty}
    {js : List Moment} (h : src.Serves demands r ts r' js) (htable : r.table = none)
    (hbase : ∀ d ∈ demands, d.ctx.Under base) (hlimit : ∀ m ∈ js, m.event.isTooDeep = false)
    (huncut : ∀ m ∈ js, src.RecallsUncut base m) (hr : r.Orderly)
    (hremembers : src.RemembersAnew base r) : src.RemembersAnew base r' := by
  induction h with
  | nil => exact hremembers
  | @cons d ds r t r₁ js ts r' js' first rest ih =>
      rw [List.forall_mem_cons] at hbase
      rw [List.forall_mem_append] at hlimit huncut
      obtain ⟨hremembers', -⟩ :=
        (first.of_under hbase.1).anew htable hlimit.1 huncut.1 hr hremembers
      exact ih (first.no_table htable) hbase.2 hlimit.2 huncut.2 (first.orderly hr) hremembers'

/-- To answer a query a request takes over what it remembers about another one from before. -/
def TakesOver (src : Sources) (r : Request) (node : NodeId) (ctx : SearchContext)
    (q : Query) : Prop :=
  r.remembered? q ≠ none ∧ ∃ m ∈ src.journal r [.one node ctx], q ∈ m.event.recalled?

theorem Twin.start {r : Request} (htable : r.table = none) (hr : r.Orderly)
    (hidle : r.guard.inProgress = []) (hlimit : 0 < r.guard.maxDepth)
    (hagrees : src.AgreesWithPlain base r) :
    src.Twin base r r (.start r.guard.maxDepth) where
  orderly := hr
  limited := hlimit
  inProgress := hidle.symm
  depth := (hr.depth_eq.trans (congrArg List.length hidle)).symm
  maxDepth := rfl
  cut := (hr.cut_eq_none hidle hlimit).symm
  noTable := htable
  freshNoTable := rfl
  endless q hq := by simp [hidle] at hq
  agrees := hagrees
  agreesFresh q t ht := by cases ht
  kept := List.prefix_refl _
  shared q _ hq := hq.symm

theorem Runs.limit_pos {maxDepth : Nat} {q : Query} {r : Request} {t : Ty} {js : List Moment}
    (h : src.Runs base (.ask q .done) (.start maxDepth) t r js)
    (hlimit : ∀ m ∈ js, m.event.isTooDeep = false) : 0 < maxDepth := by
  apply Nat.pos_of_ne_zero
  rintro rfl
  obtain ⟨js', rfl, -⟩ := h.of_full rfl rfl (Nat.le_refl 0)
  simp [Event.isTooDeep] at hlimit

section Question

variable {q : Query} {r r' f' : Request} {t u : Ty} {js js' : List Moment} {maxDepth : Nat}

theorem Runs.answer_eq_plain (h : src.Runs base (.ask q .done) r t r' js)
    (htable : r.table = none) (hlimit : ∀ m ∈ js, m.event.isTooDeep = false)
    (hidle : r.guard.inProgress = []) (hagrees : src.AgreesWithPlain base r)
    (hu : src.Yields base q u) : t = u := by
  obtain ⟨fuel, hfuel⟩ := hu
  have hpending : src.Pending base r (.ask q .done) :=
    .of_endless fun p hp => by simp [hidle] at hp
  apply (h.agrees_with_plain htable hlimit hagrees hpending).2 fuel
  exact run_plain_ask.2 ⟨u, hfuel, rfl⟩

theorem Runs.answer_eq_fresh_of_taken_over (h : src.Runs base (.ask q .done) r t r' js)
    (hf : src.Runs base (.ask q .done) (.start maxDepth) u f' js') (htable : r.table = none)
    (hlimit : ∀ m ∈ js, m.event.isTooDeep = false)
    (hlimit' : ∀ m ∈ js', m.event.isTooDeep = false) (hr : r.Orderly)
    (hidle : r.guard.inProgress = []) (hmax : r.guard.maxDepth = maxDepth)
    (hagrees : src.AgreesWithPlain base r)
    (htaken : ∀ m ∈ js, ∀ p ∈ m.event.recalled?, r.remembered? p ≠ none →
      ∃ v, src.Yields base p v) : t = u := by
  subst hmax
  have htwin := Twin.start htable hr hidle (hf.limit_pos hlimit') hagrees
  exact (h.lockstep hf htwin hlimit hlimit' htaken).1

theorem Runs.answer_eq_fresh_of_uncut (h : src.Runs base (.ask q .done) r t r' js)
    (hf : src.Runs base (.ask q .done) (.start maxDepth) u f' js') (htable : r.table = none)
    (hlimit : ∀ m ∈ js, m.event.isTooDeep = false)
    (hlimit' : ∀ m ∈ js', m.event.isTooDeep = false) (hr : r.Orderly)
    (hidle : r.guard.inProgress = []) (hremembers : src.RemembersAnew base r)
    (huncut : ∀ m ∈ js, src.RecallsUncut base m)
    (huncut' : ∀ m ∈ js', src.RecallsUncut base m) : t = u := by
  have hnothing : src.RemembersAnew base (.start maxDepth) := fun p v hv => by cases hv
  obtain ⟨-, asked, hasked, -⟩ := h.anew htable hlimit huncut hr hremembers
  obtain ⟨-, asked', hasked', -⟩ := hf.anew rfl hlimit' huncut' (.start maxDepth) hnothing
  rw [hidle] at hasked
  exact (hasked.unique hasked').1

theorem Runs.answer_eq_fresh_of_recalls (h : src.Runs base (.ask q .done) r t r' js)
    (hf : src.Runs base (.ask q .done) (.start maxDepth) u f' js') (htable : r.table = none)
    (hlimit : ∀ m ∈ js, m.event.isTooDeep = false)
    (hlimit' : ∀ m ∈ js', m.event.isTooDeep = false) (hidle : r.guard.inProgress = [])
    (hrecalls : ∀ m ∈ js, src.RecallsAnew base m)
    (hrecalls' : ∀ m ∈ js', src.RecallsAnew base m) : t = u := by
  obtain ⟨asked, hasked⟩ := h.anew_of_recalls htable hlimit hrecalls
  obtain ⟨asked', hasked'⟩ := hf.anew_of_recalls rfl hlimit' hrecalls'
  rw [hidle] at hasked
  exact (hasked.unique hasked').1

end Question

/-- The answer to a query that plain inference comes to an end on is the plain type, whatever a
request within its limit has been asked before and is asked later, and even if the references in
the chunk are cyclic elsewhere. Any other answer is the one of a request of its own that stays
within the limit too, if what is taken over from before is only about queries that plain inference
comes to an end on, or if neither request recalls anything at a place where a query in progress
would be asked for again, or if what either recalls for the answer is what would be inferred anew at
that place. -/
theorem answer_without_history (src : Sources) (maxDepth : Nat) (before after : List Demand)
    (node : NodeId) (ctx : SearchContext) (hsame : ∀ d ∈ before, d.ctx.Under ctx)
    (hlimit : ∀ m ∈ src.journal (.start maxDepth) (before ++ .one node ctx :: after),
      m.event.isTooDeep = false) :
    let answers := ((src.serve (before ++ .one node ctx :: after)).run (.start maxDepth)).1
    let js := src.journal (.start maxDepth) (before ++ .one node ctx :: after)
    let r := ((src.serve before).run (.start maxDepth)).2
    let fresh := src.journal (.start maxDepth) [.one node ctx]
    (∀ t, src.Yields ctx (ctx.query node) t → answers[before.length]? = some t) ∧
      ((∀ m ∈ fresh, m.event.isTooDeep = false) →
        ((∀ q, src.TakesOver r node ctx q → ∃ t, src.Yields ctx q t) ∨
          ((∀ m ∈ js, src.RecallsUncut ctx m) ∧ ∀ m ∈ fresh, src.RecallsUncut ctx m) ∨
          ((∀ m ∈ src.journal r [.one node ctx], src.RecallsAnew ctx m) ∧
            ∀ m ∈ fresh, src.RecallsAnew ctx m)) →
        answers[before.length]? = some (src.inferAlone maxDepth node ctx).1) := by
  intro answers js r fresh
  have hstart := Request.Orderly.start maxDepth
  have hserves : src.Serves _ (.start maxDepth) answers _ js :=
    src.serves_serve (before ++ .one node ctx :: after) (.start maxDepth)
  have hserved : src.Serves before (.start maxDepth) _ r _ :=
    src.serves_serve before (.start maxDepth)
  have hfresh : src.Runs ctx (.ask (ctx.query node) .done) (.start maxDepth) _ _ fresh :=
    src.runs_infer node ctx (.start maxDepth)
  obtain ⟨ts, r₁, js₁, t, r₂, js₂, js₃, hanswer, hjs, hbefore, hquestion⟩ := hserves.question
  obtain ⟨rfl, rfl, rfl⟩ := hbefore.unique hserved
  obtain ⟨-, -, hjournal⟩ := hquestion.unique (src.runs_infer node ctx r)
  have hidle : r.guard.inProgress = [] := hbefore.inProgress_eq
  have hmax : r.guard.maxDepth = maxDepth := hbefore.maxDepth_eq
  have htable : r.table = none := hbefore.no_table rfl
  have horderly : r.Orderly := hbefore.orderly hstart
  change ∀ m ∈ js, m.event.isTooDeep = false at hlimit
  rw [hjs, List.forall_mem_append, List.forall_mem_append] at hlimit
  obtain ⟨hbeforeLimit, hquestionLimit, -⟩ := hlimit
  have hagrees : src.AgreesWithPlain ctx r :=
    hbefore.agrees_with_plain rfl hsame hbeforeLimit rfl fun q t ht => by cases ht
  rw [hanswer]
  refine ⟨fun u hu => ?_, fun hfreshLimit hcases => congrArg some ?_⟩
  · exact congrArg some (hquestion.answer_eq_plain htable hquestionLimit hidle hagrees hu)
  · rcases hcases with htaken | ⟨huncut, hfreshUncut⟩ | ⟨hrecalls, hfreshRecalls⟩
    · apply hquestion.answer_eq_fresh_of_taken_over hfresh htable hquestionLimit hfreshLimit
        horderly hidle hmax hagrees
      rw [hjournal]
      exact fun m hm q hrecalled hold => htaken q ⟨hold, m, hm, hrecalled⟩
    · rw [hjs, List.forall_mem_append, List.forall_mem_append] at huncut
      obtain ⟨hbeforeUncut, hquestionUncut, -⟩ := huncut
      have hremembers : src.RemembersAnew ctx r :=
        hbefore.remembersAnew rfl hsame hbeforeLimit hbeforeUncut hstart fun q t ht => by cases ht
      exact hquestion.answer_eq_fresh_of_uncut hfresh htable hquestionLimit hfreshLimit horderly
        hidle hremembers hquestionUncut hfreshUncut
    · rw [← hjournal] at hrecalls
      exact hquestion.answer_eq_fresh_of_recalls hfresh htable hquestionLimit hfreshLimit hidle
        hrecalls hfreshRecalls

/-- `local function f() if x then return 1 end return f() end` and a call of it. -/
def recursiveCall : Sources :=
  { chunk :=
    { nodes := [.literal .number, .ident "f", .call 1 [] false,
        .function [] [[0], [2]] none [] false, .ident "f", .call 4 [] false]
      bindings := [{ names := ["f"], values := [3] }] } }

theorem anew_recursiveCall :
    recursiveCall.Anew {} [⟨1, 0, false⟩] (.ask ⟨3, 0, false⟩ .done)
      (.function { returns := .primitive .number })
      [⟨3, 0, false⟩, ⟨0, 0, true⟩, ⟨2, 0, true⟩, ⟨1, 0, false⟩] := by
  have literal : recursiveCall.Anew {} [⟨0, 0, true⟩, ⟨3, 0, false⟩, ⟨1, 0, false⟩]
      (recursiveCall.script {} ⟨0, 0, true⟩) (.primitive .number) [] :=
    .done
  have call : recursiveCall.Anew {} [⟨2, 0, true⟩, ⟨3, 0, false⟩, ⟨1, 0, false⟩]
      (recursiveCall.script {} ⟨2, 0, true⟩) .unknown [⟨1, 0, false⟩] :=
    .cycle (by decide) .done
  have body : recursiveCall.Anew {} [⟨3, 0, false⟩, ⟨1, 0, false⟩]
      (recursiveCall.script {} ⟨3, 0, false⟩) (.function { returns := .primitive .number })
      [⟨0, 0, true⟩, ⟨2, 0, true⟩, ⟨1, 0, false⟩] :=
    .entered (by decide) literal (.entered (by decide) call .done)
  exact .entered (by decide) body .done

def isNumberFunction : Ty → Bool
  | .function ⟨[], .primitive .number, none, [], false⟩ => true
  | _ => false

theorem recursiveCall_remembers :
    ((recursiveCall.serve [.one 5 {}]).run (.start 64)).2.remembered? ⟨3, 0, false⟩ =
      some (.function { returns := .primitive .number }) := by
  have hfound : (((recursiveCall.serve [.one 5 {}]).run (.start 64)).2.remembered?
      ⟨3, 0, false⟩).any isNumberFunction = true := by
    decide +kernel
  obtain ⟨t, ht, hfunction⟩ := (Option.any_eq_true _ _).1 hfound
  rw [ht]
  unfold isNumberFunction at hfunction
  split at hfunction
  next => rfl
  next => cases hfunction

/-- A recursive function may be called before it is asked for inside of itself. -/
theorem answer_without_history_of_recursion :
    let call := Demand.one 5 {}
    let r := ((recursiveCall.serve [call]).run (.start 64)).2
    (∀ m ∈ recursiveCall.journal (.start 64) [call, .one 1 {}], m.event.isTooDeep = false) ∧
      recursiveCall.TakesOver r 1 {} ⟨3, 0, false⟩ ∧
      ((recursiveCall.serve [call, .one 1 {}]).run (.start 64)).1[1]? =
        some (recursiveCall.inferAlone 64 1 {}).1 := by
  intro call r
  have hsame : ∀ d ∈ [call], d.ctx.Under {} := by
    intro d hd
    obtain rfl := List.mem_singleton.1 hd
    exact .refl _
  have hlimit : ∀ m ∈ recursiveCall.journal (.start 64) [call, .one 1 {}],
      m.event.isTooDeep = false := by
    decide +kernel
  have htaken : r.remembered? ⟨3, 0, false⟩ = some (.function { returns := .primitive .number }) :=
    recursiveCall_remembers
  have hrecalled : ∀ m ∈ recursiveCall.journal r [.one 1 {}], ∀ q ∈ m.event.recalled?,
      q = ⟨3, 0, false⟩ ∧ m.after.guard.inProgress.map Prod.fst = [⟨1, 0, false⟩] := by
    decide +kernel
  have hfresh : ∀ m ∈ recursiveCall.journal (.start 64) [.one 1 {}],
      m.event.isTooDeep = false ∧ m.event.recalled? = none := by
    decide +kernel
  refine ⟨hlimit, ⟨by simp [htaken], by decide +kernel⟩, ?_⟩
  have hanswer := (answer_without_history recursiveCall 64 [call] [] 1 {} hsame hlimit).2
  refine hanswer (fun m hm => (hfresh m hm).1) (.inr (.inr ⟨fun m hm q hq t ht => ?_, ?_⟩))
  · obtain ⟨rfl, hprogress⟩ := hrecalled m hm q hq
    have hcache := ((recursiveCall.runs_infer 1 {} r).cache_between m hm).1
    obtain rfl := Option.some.inj (ht.symm.trans (Request.remembered?_mono hcache htaken))
    rw [hprogress]
    exact ⟨_, anew_recursiveCall⟩
  · intro m hm q hq
    rw [(hfresh m hm).2] at hq
    cases hq

/-- Functions without parameters, each with the lists of its return statements. -/
def ofReturns (functions : List (List (List NodeId))) : Sources :=
  { chunk := { nodes := functions.map fun returns => .function [] returns none [] false } }

/-- Functions that return each other: asked for as one value, the first one leaves a type of the
second one behind that a request of its own would have cut one function earlier. A limit that a
request of its own would reach is not reached by one that remembers what lies below it. -/
theorem history_shows_in_answers :
    (let src := ofReturns [[[1]], [[0]]]
    let wide := SearchContext.forAllValues {}
    let demands := [Demand.one 0 {}, Demand.one 0 wide]
    (∀ m ∈ src.journal (.start 64) demands, m.event.isTooDeep = false) ∧
      ((src.serve demands).run (.start 64)).1[1]?.map (· == (src.inferAlone 64 0 wide).1) =
        some false) ∧
    (let src : Sources :=
      { chunk :=
        { nodes := [.literal .number, .ident "a", .ident "b"]
          bindings := [{ names := ["a"], values := [0] }, { names := ["b"], values := [0] }] } }
    let demands := [Demand.one 0 {}, Demand.one 1 {}]
    (∀ m ∈ src.journal (.start 1) demands, m.event.isTooDeep = false) ∧
      ((src.serve demands).run (.start 1)).1[1]?.map (· == (src.inferAlone 1 1 {}).1) =
        some false) := by
  decide +kernel

end Sources

end LuaTypes
