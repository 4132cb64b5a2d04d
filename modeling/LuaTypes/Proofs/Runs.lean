import LuaTypes.Proofs.Journal

/-!
Runs of a request as a relation, without fuel. A run carries out a script: it leads from a request
to a result and another request, and has a journal. Every script has a run from a request that does
not exceed its limit, and inference as a request does it ends where the run ends.
-/

namespace LuaTypes

namespace Sources

/-- Carrying out a script from a request, with the result, the request afterwards and the journal
in between. -/
inductive Runs (src : Sources) (base : SearchContext) :
    Script Ty → Request → Ty → Request → List Moment → Prop
  | done {t r} : Runs src base (.done t) r t r []
  | made {t next r u r' js} (rest : Runs src base (next (r.made t).1) (r.made t).2 u r' js) :
      Runs src base (.make t next) r u r' js
  | consult {c next r t r' js} (rest : Runs src base next (r.noteConsulted c) t r' js) :
      Runs src base (.consult c next) r t r' js
  | recalled {q next r a t r' js} (known : r.remembered? q = some a)
      (rest : Runs src base (next a) r t r' js) :
      Runs src base (.ask q next) r t r' (⟨.recalled q, r⟩ :: js)
  | cycle {q next r depth t r' js} (unknown : r.remembered? q = none)
      (inProgress : r.guard.enteredAt? q = some depth)
      (rest : Runs src base (next .unknown) (r.refuse depth) t r' js) :
      Runs src base (.ask q next) r t r' (⟨.cycle q depth, r.refuse depth⟩ :: js)
  | tooDeep {q next r t r' js} (unknown : r.remembered? q = none)
      (fresh : r.guard.enteredAt? q = none) (full : r.guard.maxDepth ≤ r.guard.depth)
      (rest : Runs src base (next .unknown) (r.refuse 1) t r' js) :
      Runs src base (.ask q next) r t r' (⟨.tooDeep q, r.refuse 1⟩ :: js)
  | entered {q next r a s inside t r' js} (unknown : r.remembered? q = none)
      (fresh : r.guard.enteredAt? q = none) (room : r.guard.depth < r.guard.maxDepth)
      (body : Runs src base (src.script base q) (r.enter q) a s inside)
      (rest : Runs src base (next a) (s.finish q (r.guard.depth + 1) a) t r' js) :
      Runs src base (.ask q next) r t r'
        (⟨.entered q (r.guard.depth + 1), r.enter q⟩ ::
          (inside ++ ⟨.left q, s.finish q (r.guard.depth + 1) a⟩ :: js))

end Sources

namespace Request

variable {r : Request} {q : Query} {depth : Nat} {t : Ty}

@[simp] theorem enter_depth : (r.enter q).guard.depth = r.guard.depth + 1 := rfl

@[simp] theorem enter_maxDepth : (r.enter q).guard.maxDepth = r.guard.maxDepth := rfl

@[simp] theorem enter_inProgress :
    (r.enter q).guard.inProgress = (q, r.guard.depth + 1) :: r.guard.inProgress := rfl

@[simp] theorem refuse_denied : (r.refuse depth).denied = r.denied + 1 := rfl

theorem finish_guard : (r.finish q depth t).guard = r.guard.leave q := by
  simp only [finish]
  split <;> rfl

@[simp] theorem finish_depth : (r.finish q depth t).guard.depth = r.guard.depth - 1 := by
  rw [finish_guard]
  rfl

@[simp] theorem finish_maxDepth : (r.finish q depth t).guard.maxDepth = r.guard.maxDepth := by
  rw [finish_guard]
  rfl

@[simp] theorem finish_denied : (r.finish q depth t).denied = r.denied := by
  rw [denied, finish_guard]
  rfl

@[simp] theorem finish_consulted : (r.finish q depth t).consulted = r.consulted := by
  simp only [finish]
  split <;> rfl

@[simp] theorem finish_table : (r.finish q depth t).table = r.table := by
  simp only [finish]
  split <;> rfl

theorem made_of_no_table (h : r.table = none) (t : Ty) : r.made t = (t, r) := by
  obtain ⟨guard, cache, cut, consulted, table⟩ := r
  obtain rfl : table = none := h
  rfl

theorem finish_inProgress_of_enter {s : Request} (h : s.guard.enteredAt? q = none)
    (hr : r.guard.inProgress = (s.enter q).guard.inProgress) :
    (r.finish q depth t).guard.inProgress = s.guard.inProgress := by
  have hfresh : ∀ entry ∈ s.guard.inProgress, decide (entry.1 ≠ q) = true := by
    intro entry hentry
    rw [Guard.enteredAt?_eq_none_iff] at h
    exact decide_eq_true fun heq => h (heq ▸ List.mem_map_of_mem hentry)
  rw [finish_guard, Guard.leave, hr, enter_inProgress, List.filter_cons_of_neg (by simp)]
  exact List.filter_eq_self.2 hfresh

theorem finish_of_cut (h : r.cut.any (· < depth) = true) :
    r.finish q depth t = { r with guard := r.guard.leave q } := by
  simp [finish, h]

theorem finish_of_whole (h : r.cut.any (· < depth) = false) :
    r.finish q depth t =
      { r with guard := r.guard.leave q, cut := none, cache := r.cache ++ [(q, t)] } := by
  simp [finish, h]

end Request

namespace Sources

variable {src : Sources} {base : SearchContext}

namespace Runs

variable {s : Script Ty} {r r' : Request} {t : Ty} {js : List Moment}

theorem maxDepth_eq (h : src.Runs base s r t r' js) : r'.guard.maxDepth = r.guard.maxDepth := by
  induction h with
  | done => rfl
  | made rest ih => exact ih
  | consult rest ih => exact ih
  | recalled known rest ih => exact ih
  | cycle unknown inProgress rest ih => exact ih
  | tooDeep unknown fresh full rest ih => exact ih
  | entered unknown fresh room body rest ihBody ih => simpa [ihBody] using ih

theorem of_scripts {other : Sources} {view : SearchContext}
    (hscript : ∀ q, src.script base q = other.script view q) (h : src.Runs base s r t r' js) :
    other.Runs view s r t r' js := by
  induction h with
  | done => exact .done
  | made rest ih => exact .made ih
  | consult rest ih => exact .consult ih
  | recalled known rest ih => exact .recalled known ih
  | cycle unknown inProgress rest ih => exact .cycle unknown inProgress ih
  | tooDeep unknown fresh full rest ih => exact .tooDeep unknown fresh full ih
  | entered unknown fresh room body rest ihBody ih =>
      rw [hscript] at ihBody
      exact .entered unknown fresh room ihBody ih

theorem of_under {ctx : SearchContext} (hctx : ctx.Under base)
    (h : src.Runs ctx s r t r' js) : src.Runs base s r t r' js :=
  h.of_scripts (src.script_of_under hctx)

theorem inProgress_eq (h : src.Runs base s r t r' js) :
    r'.guard.inProgress = r.guard.inProgress := by
  induction h with
  | done => rfl
  | made rest ih => exact ih
  | consult rest ih => exact ih
  | recalled known rest ih => exact ih
  | cycle unknown inProgress rest ih => exact ih
  | tooDeep unknown fresh full rest ih => exact ih
  | entered unknown fresh room body rest ihBody ih =>
      exact ih.trans (Request.finish_inProgress_of_enter fresh ihBody)

theorem depth_eq (h : src.Runs base s r t r' js) : r'.guard.depth = r.guard.depth := by
  induction h with
  | done => rfl
  | made rest ih => exact ih
  | consult rest ih => exact ih
  | recalled known rest ih => exact ih
  | cycle unknown inProgress rest ih => exact ih
  | tooDeep unknown fresh full rest ih => exact ih
  | entered unknown fresh room body rest ihBody ih => simpa [ihBody] using ih

theorem idle (h : src.Runs base s r t r' js) (hr : r.guard.Idle) : r'.guard.Idle where
  depth := h.depth_eq.trans hr.depth
  inProgress := h.inProgress_eq.trans hr.inProgress

theorem no_table (h : src.Runs base s r t r' js) (hr : r.table = none) : r'.table = none := by
  induction h with
  | done => exact hr
  | @made t next r u r' js rest ih => exact ih (by rw [Request.made_of_no_table hr]; exact hr)
  | consult rest ih => exact ih hr
  | recalled known rest ih => exact ih hr
  | cycle unknown inProgress rest ih => exact ih hr
  | tooDeep unknown fresh full rest ih => exact ih hr
  | entered unknown fresh room body rest ihBody ih =>
      exact ih (Request.finish_table.trans (ihBody hr))

section Left

variable {q : Query} {depth : Nat}

theorem left_inProgress (body : src.Runs base s (r.enter q) t r' js)
    (fresh : r.guard.enteredAt? q = none) :
    (r'.finish q depth t).guard.inProgress = r.guard.inProgress :=
  Request.finish_inProgress_of_enter fresh body.inProgress_eq

theorem left_depth (body : src.Runs base s (r.enter q) t r' js) :
    (r'.finish q depth t).guard.depth = r.guard.depth := by
  rw [Request.finish_depth, body.depth_eq]
  rfl

theorem left_no_table (body : src.Runs base s (r.enter q) t r' js) (hr : r.table = none) :
    (r'.finish q depth t).table = none :=
  Request.finish_table.trans (body.no_table hr)

theorem left_maxDepth (body : src.Runs base s (r.enter q) t r' js) :
    (r'.finish q depth t).guard.maxDepth = r.guard.maxDepth :=
  Request.finish_maxDepth.trans body.maxDepth_eq

end Left

theorem denied_le (h : src.Runs base s r t r' js) : r.denied ≤ r'.denied := by
  induction h with
  | done => exact Nat.le_refl _
  | made rest ih => exact ih
  | consult rest ih => exact ih
  | recalled known rest ih => exact ih
  | cycle unknown inProgress rest ih => exact Nat.le_of_succ_le ih
  | tooDeep unknown fresh full rest ih => exact Nat.le_of_succ_le ih
  | entered unknown fresh room body rest ihBody ih =>
      exact Nat.le_trans ihBody (by simpa using ih)

theorem ask {q : Query} {next : Ty → Script Ty} {a : Ty} {r₁ : Request} {first : List Moment}
    (h : src.Runs base (.ask q .done) r a r₁ first)
    (rest : src.Runs base (next a) r₁ t r' js) :
    src.Runs base (.ask q next) r t r' (first ++ js) := by
  cases h with
  | recalled known done => cases done; exact .recalled known rest
  | cycle unknown inProgress done => cases done; exact .cycle unknown inProgress rest
  | tooDeep unknown fresh full done => cases done; exact .tooDeep unknown fresh full rest
  | entered unknown fresh room body done =>
      cases done
      simpa using Runs.entered unknown fresh room body rest

end Runs

section Inversion

variable {q : Query} {next : Ty → Script Ty} {r r' : Request} {t : Ty} {js : List Moment}

theorem Runs.of_recalled (h : src.Runs base (.ask q next) r t r' js) {a : Ty}
    (known : r.remembered? q = some a) :
    ∃ js', js = ⟨.recalled q, r⟩ :: js' ∧ src.Runs base (next a) r t r' js' := by
  cases h with
  | recalled known' rest =>
      obtain rfl := Option.some.inj (known.symm.trans known')
      exact ⟨_, rfl, rest⟩
  | cycle unknown inProgress rest => simp [known] at unknown
  | tooDeep unknown fresh full rest => simp [known] at unknown
  | entered unknown fresh room body rest => simp [known] at unknown

theorem Runs.of_cycle (h : src.Runs base (.ask q next) r t r' js) {depth : Nat}
    (unknown : r.remembered? q = none) (inProgress : r.guard.enteredAt? q = some depth) :
    ∃ js', js = ⟨.cycle q depth, r.refuse depth⟩ :: js' ∧
      src.Runs base (next .unknown) (r.refuse depth) t r' js' := by
  cases h with
  | recalled known rest => simp [known] at unknown
  | cycle unknown' inProgress' rest =>
      obtain rfl := Option.some.inj (inProgress.symm.trans inProgress')
      exact ⟨_, rfl, rest⟩
  | tooDeep unknown' fresh full rest => simp [fresh] at inProgress
  | entered unknown' fresh room body rest => simp [fresh] at inProgress

theorem Runs.of_full (h : src.Runs base (.ask q next) r t r' js)
    (unknown : r.remembered? q = none) (fresh : r.guard.enteredAt? q = none)
    (full : r.guard.maxDepth ≤ r.guard.depth) :
    ∃ js', js = ⟨.tooDeep q, r.refuse 1⟩ :: js' ∧
      src.Runs base (next .unknown) (r.refuse 1) t r' js' := by
  cases h with
  | recalled known rest => simp [known] at unknown
  | cycle unknown' inProgress rest => simp [fresh] at inProgress
  | tooDeep unknown' fresh' full' rest => exact ⟨_, rfl, rest⟩
  | entered unknown' fresh' room body rest => omega

theorem Runs.of_room (h : src.Runs base (.ask q next) r t r' js)
    (unknown : r.remembered? q = none) (fresh : r.guard.enteredAt? q = none)
    (room : r.guard.depth < r.guard.maxDepth) :
    ∃ a s inside js', js = ⟨.entered q (r.guard.depth + 1), r.enter q⟩ ::
        (inside ++ ⟨.left q, s.finish q (r.guard.depth + 1) a⟩ :: js') ∧
      src.Runs base (src.script base q) (r.enter q) a s inside ∧
      src.Runs base (next a) (s.finish q (r.guard.depth + 1) a) t r' js' := by
  cases h with
  | recalled known rest => simp [known] at unknown
  | cycle unknown' inProgress rest => simp [fresh] at inProgress
  | tooDeep unknown' fresh' full rest => omega
  | entered unknown' fresh' room' body rest => exact ⟨_, _, _, _, rfl, body, rest⟩

theorem Runs.of_ask (h : src.Runs base (.ask q next) r t r' js) :
    ∃ a r₁ first js', js = first ++ js' ∧ src.Runs base (.ask q .done) r a r₁ first ∧
      src.Runs base (next a) r₁ t r' js' := by
  cases h with
  | recalled known rest => exact ⟨_, _, _, _, rfl, .recalled known .done, rest⟩
  | cycle unknown inProgress rest => exact ⟨_, _, _, _, rfl, .cycle unknown inProgress .done, rest⟩
  | tooDeep unknown fresh full rest =>
      exact ⟨_, _, _, _, rfl, .tooDeep unknown fresh full .done, rest⟩
  | entered unknown fresh room body rest =>
      exact ⟨_, _, _, _, by simp, .entered unknown fresh room body .done, rest⟩

theorem Runs.unique {s : Script Ty} (h : src.Runs base s r t r' js) {t₂ : Ty} {r₂ : Request}
    {js₂ : List Moment} (h₂ : src.Runs base s r t₂ r₂ js₂) : t = t₂ ∧ r' = r₂ ∧ js = js₂ := by
  induction h generalizing t₂ r₂ js₂ with
  | done =>
      cases h₂
      exact ⟨rfl, rfl, rfl⟩
  | made rest ih =>
      cases h₂ with
      | made rest₂ => exact ih rest₂
  | consult rest ih =>
      cases h₂ with
      | consult rest₂ => exact ih rest₂
  | recalled known rest ih =>
      obtain ⟨js', rfl, rest₂⟩ := h₂.of_recalled known
      obtain ⟨rfl, rfl, rfl⟩ := ih rest₂
      exact ⟨rfl, rfl, rfl⟩
  | cycle unknown inProgress rest ih =>
      obtain ⟨js', rfl, rest₂⟩ := h₂.of_cycle unknown inProgress
      obtain ⟨rfl, rfl, rfl⟩ := ih rest₂
      exact ⟨rfl, rfl, rfl⟩
  | tooDeep unknown fresh full rest ih =>
      obtain ⟨js', rfl, rest₂⟩ := h₂.of_full unknown fresh full
      obtain ⟨rfl, rfl, rfl⟩ := ih rest₂
      exact ⟨rfl, rfl, rfl⟩
  | entered unknown fresh room body rest ihBody ih =>
      obtain ⟨a, s, inside, js', rfl, body₂, rest₂⟩ := h₂.of_room unknown fresh room
      obtain ⟨rfl, rfl, rfl⟩ := ihBody body₂
      obtain ⟨rfl, rfl, rfl⟩ := ih rest₂
      exact ⟨rfl, rfl, rfl⟩

end Inversion

section Existence

variable {r : Request} {q : Query}

theorem exists_runs_ask
    (hbody : r.guard.depth < r.guard.maxDepth →
      ∃ a s inside, src.Runs base (src.script base q) (r.enter q) a s inside) :
    ∃ a r' js, src.Runs base (.ask q .done) r a r' js := by
  cases unknown : r.remembered? q with
  | some a => exact ⟨_, _, _, .recalled unknown .done⟩
  | none =>
      cases fresh : r.guard.enteredAt? q with
      | some depth => exact ⟨_, _, _, .cycle unknown fresh .done⟩
      | none =>
          rcases Nat.lt_or_ge r.guard.depth r.guard.maxDepth with room | full
          · obtain ⟨a, s, inside, body⟩ := hbody room
            exact ⟨_, _, _, .entered unknown fresh room body .done⟩
          · exact ⟨_, _, _, .tooDeep unknown fresh full .done⟩

theorem exists_runs_of_asks {depth limit : Nat}
    (hask : ∀ q r, r.guard.depth = depth → r.guard.maxDepth = limit →
      ∃ a r' js, src.Runs base (.ask q .done) r a r' js)
    (s : Script Ty) (hdepth : r.guard.depth = depth) (hlimit : r.guard.maxDepth = limit) :
    ∃ t r' js, src.Runs base s r t r' js := by
  induction s generalizing r with
  | done t => exact ⟨t, r, [], .done⟩
  | make t next ih =>
      obtain ⟨u, r', js, hrun⟩ := ih (r.made t).1 (r := (r.made t).2) hdepth hlimit
      exact ⟨u, r', js, .made hrun⟩
  | consult c next ih =>
      obtain ⟨t, r', js, hrun⟩ := ih (r := r.noteConsulted c) hdepth hlimit
      exact ⟨t, r', js, .consult hrun⟩
  | ask q next ih =>
      obtain ⟨a, r₁, first, hfirst⟩ := hask q r hdepth hlimit
      obtain ⟨t, r', js, hrun⟩ :=
        ih a (hfirst.depth_eq.trans hdepth) (hfirst.maxDepth_eq.trans hlimit)
      exact ⟨t, r', first ++ js, hfirst.ask hrun⟩

theorem exists_runs (src : Sources) (base : SearchContext) (s : Script Ty) (r : Request) :
    ∃ t r' js, src.Runs base s r t r' js := by
  -- The induction is on the levels that the guard will still let through.
  generalize hcount : r.guard.maxDepth - r.guard.depth = count
  induction count using Nat.strongRecOn generalizing s r with
  | ind count ih =>
      refine exists_runs_of_asks
        (fun q r' hdepth hlimit => exists_runs_ask fun room => ?_) s rfl rfl
      refine ih (r'.guard.maxDepth - (r'.guard.depth + 1)) (by omega) _ _ rfl

end Existence

section Hosted

variable {m : Type → Type} [Monad m] [LawfulMonad m] {host : Host m} {q : Query} {r r' : Request}

/-- A computation ends where a run ends, and tells the host of the moments in between. -/
def Carries (host : Host m) (x : StateT Request m Ty) (r : Request) (t : Ty) (r' : Request)
    (js : List Moment) : Prop :=
  x.run r = host.noteAll js >>= fun _ => pure (t, r')

theorem carries_of_asks {infer : NodeId → SearchContext → StateT Request m Ty} {depth limit : Nat}
    (hask : ∀ {q r a r' js}, r.guard.depth = depth → r.guard.maxDepth = limit →
      src.Runs base (.ask q .done) r a r' js →
        Carries host (infer q.node (q.context base)) r a r' js)
    {s : Script Ty} {t : Ty} {js : List Moment} (h : src.Runs base s r t r' js)
    (hdepth : r.guard.depth = depth) (hlimit : r.guard.maxDepth = limit) :
    Carries host (s.run base (recursion infer)) r t r' js := by
  induction s generalizing r t r' js with
  | done u =>
      cases h
      rw [Carries, Host.noteAll_nil, pure_bind]
      rfl
  | make u next ih =>
      cases h with
      | made rest =>
          rw [Carries, Script.run, StateT.run_bind, recursion, StateT.run_modifyGet, pure_bind]
          exact ih _ rest hdepth hlimit
  | consult c next ih =>
      cases h with
      | consult rest =>
          rw [Carries, Script.run, StateT.run_bind, recursion, StateT.run_modify, pure_bind]
          exact ih rest hdepth hlimit
  | ask q next ih =>
      obtain ⟨a, r₁, first, js, rfl, hfirst, rest⟩ := h.of_ask
      have hrest := ih a rest (hfirst.depth_eq.trans hdepth) (hfirst.maxDepth_eq.trans hlimit)
      have hasked := hask hdepth hlimit hfirst
      rw [Carries] at hrest hasked ⊢
      rw [Script.run, StateT.run_bind]
      change ((infer q.node (q.context base)).run r >>= _) = _
      simp only [hasked, hrest, bind_assoc, pure_bind, Host.noteAll_append]

section Steps

variable {count : Nat}

theorem carries_of_recalled {a : Ty} (h : r.remembered? q = some a) :
    Carries host (src.inferOn host (count + 1) q.node (q.context base)) r a r
      [⟨.recalled q, r⟩] := by
  simp [Carries, inferOn, h]

theorem carries_of_cycle {depth : Nat} (h : r.remembered? q = none)
    (hprogress : r.guard.enteredAt? q = some depth) :
    Carries host (src.inferOn host (count + 1) q.node (q.context base)) r .unknown
      (r.refuse depth) [⟨.cycle q depth, r.refuse depth⟩] := by
  have hsame : ({ r.guard with denied := r.guard.denied + 1 }).enteredAt? q = some depth :=
    hprogress
  simp [Carries, inferOn, h, Guard.enter_of_entered hprogress, hsame, Request.refuse]

theorem carries_of_full (h : r.remembered? q = none) (hfresh : r.guard.enteredAt? q = none)
    (hfull : r.guard.maxDepth ≤ r.guard.depth) :
    Carries host (src.inferOn host (count + 1) q.node (q.context base)) r .unknown (r.refuse 1)
      [⟨.tooDeep q, r.refuse 1⟩] := by
  simp [Carries, inferOn, h, Guard.enter_of_full hfresh hfull, Request.refuse]

theorem carries_of_room {a : Ty} {s : Request} {inside : List Moment} (h : r.remembered? q = none)
    (hfresh : r.guard.enteredAt? q = none) (hroom : r.guard.depth < r.guard.maxDepth)
    (hbody : Carries host ((src.script base q).run base (src.levels host count)) (r.enter q) a s
      inside) :
    Carries host (src.inferOn host (count + 1) q.node (q.context base)) r a
      (s.finish q (r.guard.depth + 1) a)
      (⟨.entered q (r.guard.depth + 1), r.enter q⟩ ::
        (inside ++ [⟨.left q, s.finish q (r.guard.depth + 1) a⟩])) := by
  rw [Carries, run_script] at hbody
  simp only [Carries, inferOn, Query.query_context, StateT.run_bind, StateT.run_get, pure_bind, h,
    Guard.enter_of_room hfresh hroom]
  simp only [levels, Request.enter] at hbody ⊢
  simp [hbody]

end Steps

/-- Inference carries out a question if it has a level more than the guard will still let
through. -/
theorem carries_inferOn {a : Ty} {js : List Moment} (count : Nat)
    (h : src.Runs base (.ask q .done) r a r' js)
    (hcount : r.guard.maxDepth ≤ r.guard.depth + count) :
    Carries host (src.inferOn host (count + 1) q.node (q.context base)) r a r' js := by
  induction count generalizing q r a r' js with
  | zero =>
      cases h with
      | recalled known done =>
          cases done
          exact carries_of_recalled known
      | cycle unknown inProgress done =>
          cases done
          exact carries_of_cycle unknown inProgress
      | tooDeep unknown fresh full done =>
          cases done
          exact carries_of_full unknown fresh full
      | entered unknown fresh room body done => omega
  | succ count ih =>
      cases h with
      | recalled known done =>
          cases done
          exact carries_of_recalled known
      | cycle unknown inProgress done =>
          cases done
          exact carries_of_cycle unknown inProgress
      | tooDeep unknown fresh full done =>
          cases done
          exact carries_of_full unknown fresh full
      | entered unknown fresh room body done =>
          cases done
          refine carries_of_room unknown fresh room (carries_of_asks ?_ body rfl rfl)
          intro p s b s' ks hdepth hlimit hask
          refine ih hask ?_
          rw [hdepth, hlimit, Request.enter_depth, Request.enter_maxDepth]
          omega

theorem Runs.carries_levels {s : Script Ty} {t : Ty} {js : List Moment}
    (h : src.Runs base s r t r' js) {count : Nat}
    (hcount : r.guard.maxDepth ≤ r.guard.depth + count) :
    Carries host (s.run base (src.levels host (count + 1))) r t r' js := by
  refine carries_of_asks (fun hdepth hlimit hask => ?_) h rfl rfl
  exact carries_inferOn count hask (by omega)

theorem Runs.carries_hosted {s : Script Ty} {t : Ty} {js : List Moment}
    (h : src.Runs base s r t r' js) :
    Carries host (s.run base (src.hosted host)) r t r' js := by
  refine carries_of_asks (fun {q r a r' js} hdepth hlimit hask => ?_) h rfl rfl
  rw [Carries, StateT.run_bind, StateT.run_get, pure_bind]
  exact carries_inferOn r.guard.maxDepth hask (Nat.le_add_left _ _)

end Hosted

/-- The runs of one request that answer demands in turn. -/
inductive Serves (src : Sources) :
    List Demand → Request → List Ty → Request → List Moment → Prop
  | nil {r} : Serves src [] r [] r []
  | cons {d ds r t r₁ js ts r' js'}
      (first : src.Runs d.ctx (d.answer Script.asking) r t r₁ js)
      (rest : Serves src ds r₁ ts r' js') :
      Serves src (d :: ds) r (t :: ts) r' (js ++ js')

section Serves

variable {demands : List Demand} {r r' : Request} {ts : List Ty} {js : List Moment}

/-- What every run does to a request, answering demands in turn does, if it adds up. -/
theorem Serves.relates (h : src.Serves demands r ts r' js) (R : Request → Request → Prop)
    (hrefl : ∀ r, R r r) (htrans : ∀ {r₁ r₂ r₃}, R r₁ r₂ → R r₂ r₃ → R r₁ r₃)
    (hruns : ∀ {base s r t r' js}, src.Runs base s r t r' js → R r r') : R r r' := by
  induction h with
  | nil => exact hrefl _
  | cons first rest ih => exact htrans (hruns first) ih

theorem Serves.inProgress_eq (h : src.Serves demands r ts r' js) :
    r'.guard.inProgress = r.guard.inProgress :=
  h.relates (fun r r' => r'.guard.inProgress = r.guard.inProgress) (fun _ => rfl)
    (fun h₁ h₂ => h₂.trans h₁) Runs.inProgress_eq

theorem Serves.maxDepth_eq (h : src.Serves demands r ts r' js) :
    r'.guard.maxDepth = r.guard.maxDepth :=
  h.relates (fun r r' => r'.guard.maxDepth = r.guard.maxDepth) (fun _ => rfl)
    (fun h₁ h₂ => h₂.trans h₁) Runs.maxDepth_eq

theorem Serves.no_table (h : src.Serves demands r ts r' js) (hr : r.table = none) :
    r'.table = none :=
  h.relates (fun r r' => r.table = none → r'.table = none) (fun _ => id)
    (fun h₁ h₂ => h₂ ∘ h₁) Runs.no_table hr

theorem Serves.denied_le (h : src.Serves demands r ts r' js) : r.denied ≤ r'.denied :=
  h.relates (fun r r' => r.denied ≤ r'.denied) (fun _ => Nat.le_refl _) Nat.le_trans
    Runs.denied_le

end Serves

/-- On every host a demand is answered by the same run. -/
theorem Runs.run_answer {m : Type → Type} [Monad m] [LawfulMonad m] {d : Demand} {r r' : Request}
    {t : Ty} {js : List Moment} (h : src.Runs d.ctx (d.answer Script.asking) r t r' js)
    (host : Host m) :
    (d.answer (src.hosted host)).run r = host.noteAll js >>= fun _ => pure (t, r') := by
  have hcarries : Carries host ((d.answer Script.asking).run d.ctx (src.hosted host)) r t r' js :=
    h.carries_hosted
  rwa [Carries, d.run_answer _ (.refl _)] at hcarries

theorem runs_answer (src : Sources) (d : Demand) (r : Request) :
    src.Runs d.ctx (d.answer Script.asking) r ((d.answer src.requesting).run r).1
      ((d.answer src.requesting).run r).2 (src.journal r [d]) := by
  obtain ⟨t, r', js, hrun⟩ := src.exists_runs d.ctx (d.answer Script.asking) r
  have hsilent : (d.answer src.requesting).run r = (t, r') := hrun.run_answer .silent
  have hjs : src.journal r [d] = js := by
    simp only [journal, List.mapM_cons, StateT.run_bind, hrun.run_answer, Host.run_noteAll_diary]
    rfl
  rw [hsilent, hjs]
  exact hrun

/-- On every host demands are served by the same runs. -/
theorem Serves.run_mapM {m : Type → Type} [Monad m] [LawfulMonad m] {demands : List Demand}
    {r r' : Request} {ts : List Ty} {js : List Moment} (h : src.Serves demands r ts r' js)
    (host : Host m) :
    (demands.mapM (Demand.answer (src.hosted host))).run r =
      host.noteAll js >>= fun _ => pure (ts, r') := by
  induction h with
  | nil =>
      rw [Host.noteAll_nil, pure_bind]
      rfl
  | cons first rest ih => simp [first.run_answer host, ih]

/-- Serving demands is a run whose journal is the journal of the request. -/
theorem serves_serve (src : Sources) (demands : List Demand) (r : Request) :
    src.Serves demands r ((src.serve demands).run r).1 ((src.serve demands).run r).2
      (src.journal r demands) := by
  obtain ⟨ts, r', js, hserves⟩ : ∃ ts r' js, src.Serves demands r ts r' js := by
    induction demands generalizing r with
    | nil => exact ⟨[], r, [], .nil⟩
    | cons d ds ih =>
        obtain ⟨ts, r', js, hrest⟩ := ih _
        exact ⟨_, r', _, .cons (src.runs_answer d r) hrest⟩
  have hserved : (src.serve demands).run r = (ts, r') := hserves.run_mapM .silent
  have hjs : src.journal r demands = js := by
    rw [journal, hserves.run_mapM, StateT.run_bind, Host.run_noteAll_diary]
    rfl
  rw [hserved, hjs]
  exact hserves

theorem runs_infer (src : Sources) (node : NodeId) (ctx : SearchContext) (r : Request) :
    src.Runs ctx (.ask (ctx.query node) .done) r ((src.infer node ctx).run r).1
      ((src.infer node ctx).run r).2 (src.journal r [.one node ctx]) :=
  src.runs_answer (.one node ctx) r

end Sources

end LuaTypes
