import LuaTypes.Proofs.Runs

/-!
What holds of a request at every moment. The queries in progress stand in the order of their depth,
none of them is remembered, and a pending cut refers to one of them.
-/

namespace LuaTypes

namespace Request

/-- The depths in progress are all those from one upwards, each once, and no query is in progress
twice, remembered twice, or both at once. Without a limit of zero, a cut refers to a depth in
progress. -/
structure Orderly (r : Request) : Prop where
  depths : r.guard.inProgress.map Prod.snd = (List.range' 1 r.guard.depth).reverse
  enteredOnce : (r.guard.inProgress.map Prod.fst).Nodup
  rememberedOnce : (r.cache.map Prod.fst).Nodup
  apart : ∀ q, r.remembered? q ≠ none → r.guard.enteredAt? q = none
  cutPos : ∀ cut ∈ r.cut, 1 ≤ cut
  cutInProgress : 0 < r.guard.maxDepth → ∀ cut ∈ r.cut, cut ≤ r.guard.depth
  withinLimit : r.guard.depth ≤ r.guard.maxDepth

/-- A pending cut concerns all levels deeper than the given one. -/
def CutAt (r : Request) (depth : Nat) : Prop :=
  ∃ cut ∈ r.cut, cut ≤ depth

variable {r s : Request} {q : Query} {depth : Nat} {t : Ty}

theorem enter_enteredAt? : (r.enter q).guard.enteredAt? q = some (r.guard.depth + 1) := by
  simp [Guard.enteredAt?]

theorem enter_enteredAt?_of_ne {p : Query} (hne : p ≠ q) :
    (r.enter q).guard.enteredAt? p = r.guard.enteredAt? p := by
  simp [Guard.enteredAt?, hne.symm]

theorem remembered?_eq_none_iff :
    r.remembered? q = none ↔ q ∉ r.cache.map Prod.fst := by
  simp only [remembered?, List.lookup_eq_none_iff, List.mem_map, bne_iff_ne, ne_eq]
  constructor
  · rintro h ⟨entry, hentry, rfl⟩
    exact h entry hentry rfl
  · rintro h entry hentry rfl
    exact h ⟨entry, hentry, rfl⟩

theorem remembered?_mono (h : r.cache <+: s.cache) (ht : r.remembered? q = some t) :
    s.remembered? q = some t := by
  obtain ⟨rest, hrest⟩ := h
  rw [remembered?] at ht ⊢
  rw [← hrest, List.lookup_append, ht]
  rfl

theorem cutAt_refuse_self : (r.refuse depth).CutAt depth := by
  refine ⟨r.cut.elim depth (min depth), rfl, ?_⟩
  cases r.cut with
  | none => exact Nat.le_refl _
  | some cut => exact Nat.min_le_left _ _

theorem CutAt.refuse {level : Nat} (h : r.CutAt level) : (r.refuse depth).CutAt level := by
  obtain ⟨cut, hcut, hle⟩ := h
  refine ⟨min depth cut, ?_, Nat.le_trans (Nat.min_le_right _ _) hle⟩
  rw [Option.mem_def] at hcut ⊢
  simp [Request.refuse, markCut, hcut]

theorem CutAt.finish {level : Nat} (h : r.CutAt level) (hlt : level < depth) :
    (r.finish q depth t).CutAt level := by
  have hcut : r.cut.any (· < depth) = true := by
    obtain ⟨cut, hcut, hle⟩ := h
    rw [Option.mem_def.1 hcut]
    exact decide_eq_true (Nat.lt_of_le_of_lt hle hlt)
  rw [finish_of_cut hcut]
  exact h

theorem finish_remembered_of_uncut (h : s.remembered? q = none)
    (hcut : ∀ cut ∈ s.cut, depth ≤ cut) : (s.finish q depth t).remembered? q = some t := by
  have hany : s.cut.any (· < depth) = false := by
    cases hs : s.cut with
    | none => rfl
    | some cut => exact decide_eq_false (Nat.not_lt.2 (hcut cut hs))
  rw [remembered?] at h
  rw [finish_of_whole hany, remembered?, List.lookup_append, h]
  simp

theorem finish_uncut_of_remembered (h : s.remembered? q = none)
    (hfinish : (s.finish q depth t).remembered? q ≠ none) : ∀ cut ∈ s.cut, depth ≤ cut := by
  intro cut hcut
  refine Nat.le_of_not_lt fun hlt => hfinish ?_
  have hany : s.cut.any (· < depth) = true := by
    rw [Option.mem_def.1 hcut]
    exact decide_eq_true hlt
  rw [finish_of_cut hany]
  exact h

theorem finish_cut {level : Nat} :
    ∀ cut ∈ (s.finish q (level + 1) t).cut, cut ∈ s.cut ∧ cut ≤ level := by
  intro cut hmem
  cases hany : s.cut.any (· < level + 1) with
  | true =>
      rw [finish_of_cut hany] at hmem
      obtain ⟨old, hold, hlt⟩ := (Option.any_eq_true _ _).1 hany
      obtain rfl := Option.some.inj (hmem.symm.trans hold)
      exact ⟨hmem, Nat.le_of_lt_succ (of_decide_eq_true hlt)⟩
  | false =>
      rw [finish_of_whole hany] at hmem
      cases hmem

theorem finish_remembered_of_ne {p : Query} (hne : p ≠ q) :
    (s.finish q depth t).remembered? p = s.remembered? p := by
  cases hany : s.cut.any (· < depth) with
  | true =>
      rw [finish_of_cut hany]
      rfl
  | false =>
      have hother : [(q, t)].lookup p = none := by
        rw [List.lookup_eq_none_iff]
        simpa using hne
      rw [finish_of_whole hany, remembered?, remembered?, List.lookup_append, hother,
        Option.or_none]

theorem cache_prefix_finish : r.cache <+: (r.finish q depth t).cache := by
  cases hcut : r.cut.any (· < depth) with
  | true =>
      have hcache : (r.finish q depth t).cache = r.cache := by rw [finish_of_cut hcut]
      exact hcache ▸ List.prefix_refl _
  | false =>
      rw [finish_of_whole hcut]
      exact List.prefix_append _ _

theorem finish_remembered_cases {p : Query} {u : Ty}
    (h : (s.finish q depth t).remembered? p = some u) :
    s.remembered? p = some u ∨ p = q ∧ u = t ∧ ∀ cut ∈ s.cut, depth ≤ cut := by
  by_cases hpq : p = q
  · subst hpq
    cases hold : s.remembered? p with
    | none =>
        have huncut := finish_uncut_of_remembered hold (h ▸ Option.some_ne_none u)
        rw [finish_remembered_of_uncut hold huncut] at h
        exact .inr ⟨rfl, (Option.some.inj h).symm, huncut⟩
    | some v =>
        rw [remembered?_mono cache_prefix_finish hold] at h
        exact .inl h
  · rw [finish_remembered_of_ne hpq] at h
    exact .inl h

theorem finish_rememberedOnce (hs : (s.cache.map Prod.fst).Nodup)
    (hunknown : s.remembered? q = none) :
    ((s.finish q depth t).cache.map Prod.fst).Nodup := by
  cases hany : s.cut.any (· < depth) with
  | true =>
      rw [finish_of_cut hany]
      exact hs
  | false =>
      rw [finish_of_whole hany, List.map_append, List.nodup_append]
      refine ⟨hs, List.pairwise_singleton _ q, ?_⟩
      rintro p hp p' hp' rfl
      obtain rfl := List.mem_singleton.1 hp'
      exact remembered?_eq_none_iff.1 hunknown hp

namespace Orderly

theorem start (maxDepth : Nat) : (start maxDepth).Orderly where
  depths := rfl
  enteredOnce := List.nodup_nil
  rememberedOnce := List.nodup_nil
  apart _ h := absurd rfl h
  cutPos _ h := by cases h
  cutInProgress _ _ h := by cases h
  withinLimit := Nat.zero_le _

theorem enteredAt?_le (h : r.Orderly) (hq : r.guard.enteredAt? q = some depth) :
    1 ≤ depth ∧ depth ≤ r.guard.depth := by
  obtain ⟨entry, hfind, rfl⟩ := Option.map_eq_some_iff.1 hq
  have hmem : entry.2 ∈ r.guard.inProgress.map Prod.snd :=
    List.mem_map_of_mem (List.mem_of_find?_eq_some hfind)
  rw [h.depths, List.mem_reverse, List.mem_range'_1] at hmem
  omega

/-- The depth that is counted is the number of queries in progress. -/
theorem depth_eq (h : r.Orderly) : r.guard.depth = r.guard.inProgress.length := by
  have hlength := congrArg List.length h.depths
  rw [List.length_map, List.length_reverse, List.length_range'] at hlength
  exact hlength.symm

theorem cut_eq_none (h : r.Orderly) (hidle : r.guard.inProgress = [])
    (hlimit : 0 < r.guard.maxDepth) : r.cut = none := by
  refine Option.eq_none_iff_forall_not_mem.2 fun cut hcut => ?_
  have hpos := h.cutPos cut hcut
  have hle := h.cutInProgress hlimit cut hcut
  rw [h.depth_eq, hidle] at hle
  exact Nat.not_lt.2 hle hpos

theorem noteConsulted (h : r.Orderly) (c : ClassTy) : (r.noteConsulted c).Orderly :=
  ⟨h.depths, h.enteredOnce, h.rememberedOnce, h.apart, h.cutPos, h.cutInProgress, h.withinLimit⟩

theorem made (h : r.Orderly) (t : Ty) : (r.made t).2.Orderly :=
  ⟨h.depths, h.enteredOnce, h.rememberedOnce, h.apart, h.cutPos, h.cutInProgress, h.withinLimit⟩

theorem refuse (h : r.Orderly) (hpos : 1 ≤ depth)
    (hle : 0 < r.guard.maxDepth → depth ≤ r.guard.depth) : (r.refuse depth).Orderly where
  depths := h.depths
  enteredOnce := h.enteredOnce
  rememberedOnce := h.rememberedOnce
  apart := h.apart
  cutPos cut hcut := by
    obtain rfl := Option.some.inj hcut
    cases hr : r.cut with
    | none => exact hpos
    | some old => exact Nat.le_min.2 ⟨hpos, h.cutPos old hr⟩
  cutInProgress hmax cut hcut := by
    obtain rfl := Option.some.inj hcut
    cases hr : r.cut with
    | none => exact hle hmax
    | some old => exact Nat.le_trans (Nat.min_le_left _ _) (hle hmax)
  withinLimit := h.withinLimit

theorem refuse_cycle (h : r.Orderly) (hq : r.guard.enteredAt? q = some depth) :
    (r.refuse depth).Orderly :=
  h.refuse (h.enteredAt?_le hq).1 fun _ => (h.enteredAt?_le hq).2

theorem refuse_full (h : r.Orderly) (hfull : r.guard.maxDepth ≤ r.guard.depth) :
    (r.refuse 1).Orderly :=
  h.refuse (Nat.le_refl 1) fun hmax => Nat.le_trans hmax hfull

theorem enter (h : r.Orderly) (hunknown : r.remembered? q = none)
    (hfresh : r.guard.enteredAt? q = none) (hroom : r.guard.depth < r.guard.maxDepth) :
    (r.enter q).Orderly where
  depths := by
    rw [enter_inProgress, enter_depth, List.map_cons, h.depths, List.range'_1_concat]
    simp [Nat.add_comm]
  enteredOnce := by
    rw [enter_inProgress, List.map_cons, List.nodup_cons]
    exact ⟨Guard.enteredAt?_eq_none_iff.1 hfresh, h.enteredOnce⟩
  rememberedOnce := h.rememberedOnce
  apart p hp := by
    have hne : q ≠ p := by
      rintro rfl
      exact hp hunknown
    rw [Guard.enteredAt?_eq_none_iff, enter_inProgress, List.map_cons, List.mem_cons, not_or]
    exact ⟨hne.symm, Guard.enteredAt?_eq_none_iff.1 (h.apart p hp)⟩
  cutPos := h.cutPos
  cutInProgress hmax cut hcut := Nat.le_succ_of_le (h.cutInProgress hmax cut hcut)
  withinLimit := hroom

theorem not_remembered (hs : s.Orderly) {rest : List (Query × Nat)}
    (hprogress : s.guard.inProgress = (q, depth) :: rest) : s.remembered? q = none := by
  refine Classical.byContradiction fun hq => ?_
  have hfree := Guard.enteredAt?_eq_none_iff.1 (hs.apart q hq)
  rw [hprogress] at hfree
  exact hfree List.mem_cons_self

theorem finish (hs : s.Orderly) (h : r.Orderly) (hfresh : r.guard.enteredAt? q = none)
    (hprogress : s.guard.inProgress = (r.enter q).guard.inProgress)
    (hcount : s.guard.depth = r.guard.depth + 1) (hlimit : s.guard.maxDepth = r.guard.maxDepth) :
    (s.finish q (r.guard.depth + 1) t).Orderly := by
  have hback : (s.finish q (r.guard.depth + 1) t).guard.inProgress = r.guard.inProgress :=
    finish_inProgress_of_enter hfresh hprogress
  have hdepth : (s.finish q (r.guard.depth + 1) t).guard.depth = r.guard.depth := by
    rw [finish_depth, hcount, Nat.add_sub_cancel]
  have hunknown : s.remembered? q = none := hs.not_remembered hprogress
  have hstill : ∀ p, s.remembered? p ≠ none → r.guard.enteredAt? p = none := by
    intro p hp
    have hfree := hs.apart p hp
    rw [Guard.enteredAt?_eq_none_iff, hprogress, enter_inProgress, List.map_cons, List.mem_cons,
      not_or] at hfree
    exact Guard.enteredAt?_eq_none_iff.2 hfree.2
  have hcut : ∀ cut ∈ (s.finish q (r.guard.depth + 1) t).cut, cut ∈ s.cut ∧ cut ≤ r.guard.depth :=
    finish_cut
  refine ⟨?_, ?_, ?_, ?_, ?_, ?_, ?_⟩
  · rw [hback, hdepth]
    exact h.depths
  · rw [hback]
    exact h.enteredOnce
  · exact finish_rememberedOnce hs.rememberedOnce hunknown
  · intro p hp
    rw [Guard.enteredAt?_eq_none_iff, hback, ← Guard.enteredAt?_eq_none_iff]
    by_cases hpq : p = q
    · rwa [hpq]
    · exact hstill p (finish_remembered_of_ne hpq ▸ hp)
  · exact fun cut hmem => hs.cutPos cut (hcut cut hmem).1
  · intro hmax cut hmem
    rw [hdepth]
    exact (hcut cut hmem).2
  · rw [hdepth, finish_maxDepth, hlimit]
    exact h.withinLimit

end Orderly

end Request

/-- The state after an event shows what the event tells. -/
def Moment.Fits (m : Moment) : Prop :=
  match m.event with
  | .recalled q => m.after.remembered? q ≠ none
  | .entered q depth => m.after.guard.enteredAt? q = some depth
  | .cycle q depth => m.after.guard.enteredAt? q = some depth
  | .tooDeep _ => m.after.guard.maxDepth ≤ m.after.guard.depth
  | .left q =>
      m.after.guard.enteredAt? q = none ∧
        (m.after.guard.depth = 0 → m.after.remembered? q ≠ none)

namespace Sources

variable {src : Sources} {base : SearchContext} {script : Script Ty} {r r' : Request} {t : Ty}
  {js : List Moment}

namespace Runs

theorem cache_prefix (h : src.Runs base script r t r' js) : r.cache <+: r'.cache := by
  induction h with
  | done => exact List.prefix_refl _
  | made rest ih => exact ih
  | consult rest ih => exact ih
  | recalled known rest ih => exact ih
  | cycle unknown inProgress rest ih => exact ih
  | tooDeep unknown fresh full rest ih => exact ih
  | entered unknown fresh room body rest ihBody ih =>
      exact (ihBody.trans Request.cache_prefix_finish).trans ih

theorem cache_between (h : src.Runs base script r t r' js) :
    ∀ m ∈ js, r.cache <+: m.after.cache ∧ m.after.cache <+: r'.cache := by
  induction h with
  | done => exact fun m hm => absurd hm List.not_mem_nil
  | made rest ih => exact ih
  | consult rest ih => exact ih
  | recalled known rest ih =>
      exact List.forall_mem_cons.2 ⟨⟨List.prefix_refl _, rest.cache_prefix⟩, ih⟩
  | cycle unknown inProgress rest ih =>
      exact List.forall_mem_cons.2 ⟨⟨List.prefix_refl _, rest.cache_prefix⟩, ih⟩
  | tooDeep unknown fresh full rest ih =>
      exact List.forall_mem_cons.2 ⟨⟨List.prefix_refl _, rest.cache_prefix⟩, ih⟩
  | @entered q next r a s inside t r' js unknown fresh room body rest ihBody ih =>
      have hleave : s.cache <+: (s.finish q (r.guard.depth + 1) a).cache :=
        Request.cache_prefix_finish
      have hrest := hleave.trans rest.cache_prefix
      have hfirst := body.cache_prefix.trans hleave
      refine List.forall_mem_cons.2 ⟨⟨List.prefix_refl _, body.cache_prefix.trans hrest⟩, ?_⟩
      refine List.forall_mem_append.2 ⟨fun m hm => ?_, List.forall_mem_cons.2 ⟨?_, ?_⟩⟩
      · exact ⟨(ihBody m hm).1, (ihBody m hm).2.trans hrest⟩
      · exact ⟨hfirst, rest.cache_prefix⟩
      · exact fun m hm => ⟨hfirst.trans (ih m hm).1, (ih m hm).2⟩

theorem cache_pairwise (h : src.Runs base script r t r' js) :
    js.Pairwise fun m m' => m.after.cache <+: m'.after.cache := by
  induction h with
  | done => exact .nil
  | made rest ih => exact ih
  | consult rest ih => exact ih
  | recalled known rest ih => exact .cons (fun m hm => (rest.cache_between m hm).1) ih
  | cycle unknown inProgress rest ih => exact .cons (fun m hm => (rest.cache_between m hm).1) ih
  | tooDeep unknown fresh full rest ih =>
      exact .cons (fun m hm => (rest.cache_between m hm).1) ih
  | @entered q next r a s inside t r' js unknown fresh room body rest ihBody ih =>
      have hleave : s.cache <+: (s.finish q (r.guard.depth + 1) a).cache :=
        Request.cache_prefix_finish
      have hlater : ∀ m ∈ (⟨.left q, s.finish q (r.guard.depth + 1) a⟩ :: js : List Moment),
          s.cache <+: m.after.cache :=
        List.forall_mem_cons.2 ⟨hleave, fun m hm => hleave.trans (rest.cache_between m hm).1⟩
      refine .cons (List.forall_mem_append.2 ⟨?_, ?_⟩) (List.pairwise_append.2 ⟨ihBody, ?_, ?_⟩)
      · exact fun m hm => (body.cache_between m hm).1
      · exact fun m hm => body.cache_prefix.trans (hlater m hm)
      · exact .cons (fun m hm => (rest.cache_between m hm).1) ih
      · exact fun m hm m' hm' => (body.cache_between m hm).2.trans (hlater m' hm')

/-- A cut that concerns a level outlives everything that happens on deeper ones. -/
theorem cutAt (h : src.Runs base script r t r' js) {level : Nat} (hlevel : level ≤ r.guard.depth)
    (hcut : r.CutAt level) : r'.CutAt level := by
  induction h with
  | done => exact hcut
  | made rest ih => exact ih hlevel hcut
  | consult rest ih => exact ih hlevel hcut
  | recalled known rest ih => exact ih hlevel hcut
  | cycle unknown inProgress rest ih => exact ih hlevel hcut.refuse
  | tooDeep unknown fresh full rest ih => exact ih hlevel hcut.refuse
  | @entered q next r a s inside t r' js unknown fresh room body rest ihBody ih =>
      have hinside : s.CutAt level := ihBody (Nat.le_succ_of_le hlevel) hcut
      refine ih ?_ (hinside.finish (Nat.lt_succ_of_le hlevel))
      rw [body.left_depth]
      exact hlevel

theorem orderly (h : src.Runs base script r t r' js) (hr : r.Orderly) : r'.Orderly := by
  induction h with
  | done => exact hr
  | made rest ih => exact ih (hr.made _)
  | consult rest ih => exact ih (hr.noteConsulted _)
  | recalled known rest ih => exact ih hr
  | cycle unknown inProgress rest ih => exact ih (hr.refuse_cycle inProgress)
  | tooDeep unknown fresh full rest ih => exact ih (hr.refuse_full full)
  | entered unknown fresh room body rest ihBody ih =>
      have hbody := ihBody (hr.enter unknown fresh room)
      exact ih (hbody.finish hr fresh body.inProgress_eq body.depth_eq body.maxDepth_eq)

theorem inside_unknown {q : Query} (body : src.Runs base script (r.enter q) t r' js)
    (hr : r.Orderly) (unknown : r.remembered? q = none) (fresh : r.guard.enteredAt? q = none)
    (room : r.guard.depth < r.guard.maxDepth) : r'.remembered? q = none :=
  (body.orderly (hr.enter unknown fresh room)).not_remembered
    (body.inProgress_eq.trans Request.enter_inProgress)

theorem orderly_left {q : Query} (body : src.Runs base script (r.enter q) t r' js)
    (hr : r.Orderly) (unknown : r.remembered? q = none) (fresh : r.guard.enteredAt? q = none)
    (room : r.guard.depth < r.guard.maxDepth) :
    (r'.finish q (r.guard.depth + 1) t).Orderly :=
  (body.orderly (hr.enter unknown fresh room)).finish hr fresh body.inProgress_eq body.depth_eq
    body.maxDepth_eq

theorem maxDepth_moments (h : src.Runs base script r t r' js) :
    ∀ m ∈ js, m.after.guard.maxDepth = r.guard.maxDepth := by
  induction h with
  | done => exact fun m hm => absurd hm List.not_mem_nil
  | made rest ih => exact ih
  | consult rest ih => exact ih
  | recalled known rest ih => exact List.forall_mem_cons.2 ⟨rfl, ih⟩
  | cycle unknown inProgress rest ih => exact List.forall_mem_cons.2 ⟨rfl, ih⟩
  | tooDeep unknown fresh full rest ih => exact List.forall_mem_cons.2 ⟨rfl, ih⟩
  | @entered q next r a s inside t r' js unknown fresh room body rest ihBody ih =>
      have hleft : (s.finish q (r.guard.depth + 1) a).guard.maxDepth = r.guard.maxDepth := by
        rw [Request.finish_maxDepth]
        exact body.maxDepth_eq
      refine List.forall_mem_cons.2 ⟨rfl, List.forall_mem_append.2 ⟨ihBody, ?_⟩⟩
      exact List.forall_mem_cons.2 ⟨hleft, fun m hm => (ih m hm).trans hleft⟩

/-- Every moment is orderly, and its event tells what its state shows. -/
theorem orderly_moments (h : src.Runs base script r t r' js) (hr : r.Orderly) :
    ∀ m ∈ js, m.after.Orderly ∧ m.Fits := by
  induction h with
  | done => exact fun m hm => absurd hm List.not_mem_nil
  | made rest ih => exact ih (hr.made _)
  | consult rest ih => exact ih (hr.noteConsulted _)
  | recalled known rest ih =>
      refine List.forall_mem_cons.2 ⟨⟨hr, ?_⟩, ih hr⟩
      exact fun hnone => Option.some_ne_none _ (known.symm.trans hnone)
  | cycle unknown inProgress rest ih =>
      have hrefused := hr.refuse_cycle inProgress
      exact List.forall_mem_cons.2 ⟨⟨hrefused, inProgress⟩, ih hrefused⟩
  | tooDeep unknown fresh full rest ih =>
      have hrefused := hr.refuse_full full
      exact List.forall_mem_cons.2 ⟨⟨hrefused, full⟩, ih hrefused⟩
  | @entered q next r a s inside t r' js unknown fresh room body rest ihBody ih =>
      have hentered := hr.enter unknown fresh room
      have hs := body.orderly hentered
      have hunknown := body.inside_unknown hr unknown fresh room
      have hleft := body.orderly_left hr unknown fresh room
      refine List.forall_mem_cons.2 ⟨⟨hentered, Request.enter_enteredAt?⟩, ?_⟩
      refine List.forall_mem_append.2 ⟨ihBody hentered, ?_⟩
      refine List.forall_mem_cons.2 ⟨⟨hleft, ?_, fun houter => ?_⟩, ih hleft⟩
      · rw [Guard.enteredAt?_eq_none_iff,
          body.left_inProgress fresh]
        exact Guard.enteredAt?_eq_none_iff.1 fresh
      · rw [body.left_depth] at houter
        rw [Request.finish_remembered_of_uncut hunknown (houter ▸ hs.cutPos)]
        exact Option.some_ne_none a

end Runs

end Sources

end LuaTypes
