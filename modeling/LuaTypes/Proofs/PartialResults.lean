import LuaTypes.Proofs.Frames

namespace LuaTypes

namespace Sources

variable {src : Sources}

namespace Serves

variable {demands : List Demand} {r r' : Request} {ts : List Ty} {js : List Moment}

theorem orderly (h : src.Serves demands r ts r' js) (hr : r.Orderly) : r'.Orderly :=
  h.relates (fun r r' => r.Orderly → r'.Orderly) (fun _ => id) (fun h₁ h₂ => h₂ ∘ h₁)
    Runs.orderly hr

theorem orderly_moments (h : src.Serves demands r ts r' js) (hr : r.Orderly) :
    ∀ m ∈ js, m.after.Orderly ∧ m.Fits := by
  induction h with
  | nil => exact fun m hm => absurd hm List.not_mem_nil
  | cons first rest ih =>
      exact List.forall_mem_append.2 ⟨first.orderly_moments hr, ih (first.orderly hr)⟩

theorem maxDepth_moments (h : src.Serves demands r ts r' js) :
    ∀ m ∈ js, m.after.guard.maxDepth = r.guard.maxDepth := by
  induction h with
  | nil => exact fun m hm => absurd hm List.not_mem_nil
  | cons first rest ih =>
      refine List.forall_mem_append.2 ⟨first.maxDepth_moments, fun m hm => ?_⟩
      exact (ih m hm).trans first.maxDepth_eq

theorem cache_between (h : src.Serves demands r ts r' js) :
    ∀ m ∈ js, r.cache <+: m.after.cache := by
  induction h with
  | nil => exact fun m hm => absurd hm List.not_mem_nil
  | cons first rest ih =>
      refine List.forall_mem_append.2 ⟨fun m hm => (first.cache_between m hm).1, fun m hm => ?_⟩
      exact first.cache_prefix.trans (ih m hm)

theorem cache_pairwise (h : src.Serves demands r ts r' js) :
    js.Pairwise fun m m' => m.after.cache <+: m'.after.cache := by
  induction h with
  | nil => exact .nil
  | cons first rest ih =>
      refine List.pairwise_append.2 ⟨first.cache_pairwise, ih, fun m hm m' hm' => ?_⟩
      exact (first.cache_between m hm).2.trans (rest.cache_between m' hm')

theorem remembersWhole (h : src.Serves demands r ts r' js) (hr : r.Orderly) :
    RemembersWhole js := by
  induction h with
  | nil => exact .nil
  | cons first rest ih =>
      exact (first.remembersWhole hr).append first.balanced (ih (first.orderly hr))

/-- Inside of a frame that is remembered the limit refuses nothing, unless the frame is an
outermost one, and a cycle does not lead out of the frame. -/
theorem refused_inside (h : src.Serves demands r ts r' js) (hr : r.Orderly) {q : Query}
    {depth : Nat} {inside : List Moment} {left : Request} (hframe : IsFrame js q depth inside left)
    (hleft : left.remembered? q ≠ none) {m : Moment} (hm : m ∈ inside) :
    (∀ p level, m.event = .cycle p level → depth ≤ level) ∧
      ∀ p, m.event = .tooDeep p → depth = 1 := by
  have hwhole := h.remembersWhole hr q depth inside left hframe hleft m hm
  obtain ⟨-, before, opened, after, hjs⟩ := hframe
  constructor
  · intro p level hcycle
    apply hwhole level
    rw [hcycle]
    rfl
  · intro p hdeep
    have hle : depth ≤ 1 := by
      apply hwhole 1
      rw [hdeep]
      rfl
    obtain ⟨hopened, hfits⟩ := h.orderly_moments hr ⟨.entered q depth, opened⟩ (by simp [hjs])
    have hpos := (hopened.enteredAt?_le hfits).1
    omega

theorem settled_when_left (h : src.Serves demands r ts r' js) (hr : r.Orderly)
    (hlimit : 0 < r.guard.maxDepth) {m : Moment} (hm : m ∈ js) {q : Query}
    (hleft : m.event = .left q) (hidle : m.after.guard.inProgress = []) :
    m.after.cut = none ∧ m.after.remembered? q ≠ none := by
  obtain ⟨horderly, hfits⟩ := h.orderly_moments hr m hm
  have hdepth : m.after.guard.depth = 0 := horderly.depth_eq.trans (congrArg List.length hidle)
  rw [Moment.Fits, hleft] at hfits
  constructor
  · apply horderly.cut_eq_none hidle
    rw [h.maxDepth_moments m hm]
    exact hlimit
  · exact hfits.2 hdepth

end Serves

/-- An orderly request that nothing is in progress in remembers the answer to any query, if its
limit is not zero, and then no cut is pending. -/
theorem Runs.settled_of_idle {base : SearchContext} {q : Query} {r r' : Request} {t : Ty}
    {js : List Moment} (h : src.Runs base (.ask q .done) r t r' js) (hr : r.Orderly)
    (hidle : r.guard.inProgress = []) (hlimit : 0 < r.guard.maxDepth) :
    r'.guard.inProgress = [] ∧ r'.cut = none ∧ r'.remembered? q = some t := by
  have hidle' : r'.guard.inProgress = [] := h.inProgress_eq.trans hidle
  refine ⟨hidle', (h.orderly hr).cut_eq_none hidle' (h.maxDepth_eq ▸ hlimit), ?_⟩
  cases h with
  | recalled known rest =>
      cases rest
      exact known
  | cycle unknown inProgress rest => simp [Guard.enteredAt?, hidle] at inProgress
  | tooDeep unknown fresh full rest =>
      rw [hr.depth_eq, hidle] at full
      exact absurd hlimit (Nat.not_lt.2 full)
  | entered unknown fresh room body rest =>
      cases rest
      have hs := body.orderly (hr.enter unknown fresh room)
      apply Request.finish_remembered_of_uncut (body.inside_unknown hr unknown fresh room)
      rw [hr.depth_eq, hidle]
      exact hs.cutPos

theorem infer_of_remembered {node : NodeId} {ctx : SearchContext} {r : Request} {t : Ty}
    (h : r.remembered? (ctx.query node) = some t) : (src.infer node ctx).run r = (t, r) := by
  simp [infer, requesting, hosted, recursion, inferOn, h]
  rfl

/-- Whenever a query that was entered at some depth is left and its type remembered, every refusal
in between for a query in progress concerned one entered at that depth or deeper, and the limit
refused nothing in between unless the depth was one. At every moment the queries in progress carry
the depths from one upwards, each once, and none of them is remembered, and what is remembered
stays the same. The outermost query, if the limit lets it be entered, leaves nothing in progress, no
cut pending, and its type remembered, so that asking again changes nothing. -/
theorem partial_results_are_not_remembered (src : Sources) (maxDepth : Nat)
    (demands : List Demand) :
    let js := src.journal (.start maxDepth) demands
    let r := ((src.serve demands).run (.start maxDepth)).2
    (∀ q depth inside left, IsFrame js q depth inside left → left.remembered? q ≠ none →
      ∀ m ∈ inside, (∀ p level, m.event = .cycle p level → depth ≤ level) ∧
        ∀ p, m.event = .tooDeep p → depth = 1) ∧
    (∀ m ∈ js, m.after.Orderly ∧ m.Fits) ∧
    (js.Pairwise fun m m' => ∀ q t,
      m.after.remembered? q = some t → m'.after.remembered? q = some t) ∧
    (0 < maxDepth → ∀ m ∈ js, ∀ q, m.event = .left q → m.after.guard.inProgress = [] →
      m.after.cut = none ∧ m.after.remembered? q ≠ none) ∧
    (0 < maxDepth → ∀ node ctx,
      let (t, r') := (src.infer node ctx).run r
      r'.guard.inProgress = [] ∧ r'.cut = none ∧ r'.remembered? (ctx.query node) = some t ∧
        (src.infer node ctx).run r' = (t, r')) := by
  intro js r
  have hstart := Request.Orderly.start maxDepth
  have hserves : src.Serves demands (.start maxDepth) _ r js := src.serves_serve demands _
  refine ⟨?_, hserves.orderly_moments hstart, ?_, ?_, ?_⟩
  · intro q depth inside left hframe hleft m hm
    exact hserves.refused_inside hstart hframe hleft hm
  · exact hserves.cache_pairwise.imp fun hprefix q t => Request.remembered?_mono hprefix
  · intro hlimit m hm q hleft hidle
    exact hserves.settled_when_left hstart hlimit hm hleft hidle
  · intro hlimit node ctx
    have hrun := src.runs_infer node ctx r
    have hidle : r.guard.inProgress = [] := hserves.inProgress_eq
    obtain ⟨hidle', hcut, hremembered⟩ :=
      hrun.settled_of_idle (hserves.orderly hstart) hidle (hserves.maxDepth_eq ▸ hlimit)
    exact ⟨hidle', hcut, hremembered, infer_of_remembered hremembered⟩

end Sources

end LuaTypes
