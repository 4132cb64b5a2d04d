import LuaTypes.Proofs.History
import LuaTypes.Proofs.PartialResults

/-!
Inference that guards but does not remember: whatever is asked for is inferred anew, unless it is in
progress. What a request remembers is what is found anew with nothing in progress, as long as it
recalls nothing at a place where a query in progress would be asked for again.
-/

namespace LuaTypes

def Event.recalled? : Event → Option Query
  | .recalled q => some q
  | _ => none

namespace Sources

/-- Carrying out a script while the given queries are in progress, with all that is asked for. -/
inductive Anew (src : Sources) (base : SearchContext) :
    List Query → Script Ty → Ty → List Query → Prop
  | done {stack t} : Anew src base stack (.done t) t []
  | made {stack t next u asked} (rest : Anew src base stack (next t) u asked) :
      Anew src base stack (.make t next) u asked
  | consult {stack c next t asked} (rest : Anew src base stack next t asked) :
      Anew src base stack (.consult c next) t asked
  | cycle {stack q next t asked} (inProgress : q ∈ stack)
      (rest : Anew src base stack (next .unknown) t asked) :
      Anew src base stack (.ask q next) t (q :: asked)
  | entered {stack q next a inside t asked} (fresh : q ∉ stack)
      (body : Anew src base (q :: stack) (src.script base q) a inside)
      (rest : Anew src base stack (next a) t asked) :
      Anew src base stack (.ask q next) t (q :: (inside ++ asked))

variable {src : Sources} {base : SearchContext}

namespace Anew

variable {stack stack' : List Query} {s : Script Ty} {t : Ty} {asked : List Query}

theorem unique (h : src.Anew base stack s t asked) {u : Ty} {asked' : List Query}
    (h' : src.Anew base stack s u asked') : t = u ∧ asked = asked' := by
  induction h generalizing u asked' with
  | done =>
      cases h'
      exact ⟨rfl, rfl⟩
  | made rest ih =>
      cases h' with
      | made rest' => exact ih rest'
  | consult rest ih =>
      cases h' with
      | consult rest' => exact ih rest'
  | cycle inProgress rest ih =>
      cases h' with
      | cycle _ rest' =>
          obtain ⟨rfl, rfl⟩ := ih rest'
          exact ⟨rfl, rfl⟩
      | entered fresh => exact absurd inProgress fresh
  | entered fresh body rest ihBody ih =>
      cases h' with
      | cycle inProgress => exact absurd inProgress fresh
      | entered _ body' rest' =>
          obtain ⟨rfl, rfl⟩ := ihBody body'
          obtain ⟨rfl, rfl⟩ := ih rest'
          exact ⟨rfl, rfl⟩

theorem of_stack (h : src.Anew base stack s t asked)
    (hstack : ∀ p ∈ asked, p ∈ stack ↔ p ∈ stack') : src.Anew base stack' s t asked := by
  induction h generalizing stack' with
  | done => exact .done
  | made rest ih => exact .made (ih hstack)
  | consult rest ih => exact .consult (ih hstack)
  | cycle inProgress rest ih =>
      rw [List.forall_mem_cons] at hstack
      exact .cycle (hstack.1.1 inProgress) (ih hstack.2)
  | entered fresh body rest ihBody ih =>
      rw [List.forall_mem_cons, List.forall_mem_append] at hstack
      obtain ⟨hself, hinside, hrest⟩ := hstack
      refine .entered (fun hq => fresh (hself.2 hq)) (ihBody fun p hp => ?_) (ih hrest)
      rw [List.mem_cons, List.mem_cons, hinside p hp]

theorem ask {q : Query} {next : Ty → Script Ty} {a : Ty} {first : List Query}
    (h : src.Anew base stack (.ask q .done) a first)
    (rest : src.Anew base stack (next a) t asked) :
    src.Anew base stack (.ask q next) t (first ++ asked) := by
  cases h with
  | cycle inProgress done =>
      cases done
      exact .cycle inProgress rest
  | entered fresh body done =>
      cases done
      rw [List.append_nil]
      exact .entered fresh body rest

end Anew

/-- What a request remembers is what is found anew with nothing in progress. -/
def RemembersAnew (src : Sources) (base : SearchContext) (r : Request) : Prop :=
  ∀ q t, r.remembered? q = some t → ∃ asked, src.Anew base [] (.ask q .done) t asked

/-- The query that is recalled at a moment, if there is one, could be inferred anew at that place
without asking for anything that is in progress there. -/
def RecallsUncut (src : Sources) (base : SearchContext) (m : Moment) : Prop :=
  ∀ q ∈ m.event.recalled?, ∃ t asked, src.Anew base [] (.ask q .done) t asked ∧
    ∀ p ∈ asked, m.after.guard.enteredAt? p = none

/-- The query that is recalled at a moment, if there is one, would be inferred anew at that place
with the type that is recalled. -/
def RecallsAnew (src : Sources) (base : SearchContext) (m : Moment) : Prop :=
  ∀ q ∈ m.event.recalled?, ∀ t, m.after.remembered? q = some t →
    ∃ asked, src.Anew base (m.after.guard.inProgress.map Prod.fst) (.ask q .done) t asked

theorem Runs.anew_of_recalls {s : Script Ty} {r r' : Request} {t : Ty} {js : List Moment}
    (h : src.Runs base s r t r' js) (htable : r.table = none)
    (hlimit : ∀ m ∈ js, m.event.isTooDeep = false)
    (hrecalls : ∀ m ∈ js, src.RecallsAnew base m) :
    ∃ asked, src.Anew base (r.guard.inProgress.map Prod.fst) s t asked := by
  induction h with
  | done => exact ⟨[], .done⟩
  | made rest ih =>
      rw [Request.made_of_no_table htable] at ih
      obtain ⟨asked, hasked⟩ := ih htable hlimit hrecalls
      exact ⟨asked, .made hasked⟩
  | consult rest ih =>
      obtain ⟨asked, hasked⟩ := ih htable hlimit hrecalls
      exact ⟨asked, .consult hasked⟩
  | recalled known rest ih =>
      rw [List.forall_mem_cons] at hlimit hrecalls
      obtain ⟨first, hfirst⟩ := hrecalls.1 _ rfl _ known
      obtain ⟨asked, hasked⟩ := ih htable hlimit.2 hrecalls.2
      exact ⟨first ++ asked, hfirst.ask hasked⟩
  | cycle unknown inProgress rest ih =>
      rw [List.forall_mem_cons] at hlimit hrecalls
      obtain ⟨asked, hasked⟩ := ih htable hlimit.2 hrecalls.2
      exact ⟨_, .cycle (Guard.mem_of_enteredAt? inProgress) hasked⟩
  | tooDeep unknown fresh full rest ih =>
      rw [List.forall_mem_cons] at hlimit
      exact absurd hlimit.1 (by simp [Event.isTooDeep])
  | @entered q next r a s inside t r' js unknown fresh room body rest ihBody ih =>
      rw [List.forall_mem_cons, List.forall_mem_append, List.forall_mem_cons] at hlimit hrecalls
      obtain ⟨-, hinsideLimit, -, hjsLimit⟩ := hlimit
      obtain ⟨-, hinsideRecalls, -, hjsRecalls⟩ := hrecalls
      obtain ⟨inside', hinside⟩ := ihBody htable hinsideLimit hinsideRecalls
      obtain ⟨asked, hasked⟩ := ih (body.left_no_table htable) hjsLimit hjsRecalls
      rw [body.left_inProgress fresh] at hasked
      exact ⟨_, .entered (Guard.enteredAt?_eq_none_iff.1 fresh) hinside hasked⟩

theorem RemembersAnew.finish {s : Request} (h : src.RemembersAnew base s) {q : Query}
    {depth : Nat} {a : Ty} (ha : (∀ cut ∈ s.cut, depth ≤ cut) →
      ∃ asked, src.Anew base [] (.ask q .done) a asked) :
    src.RemembersAnew base (s.finish q depth a) := by
  intro p t ht
  rcases Request.finish_remembered_cases ht with hold | ⟨rfl, rfl, huncut⟩
  · exact h p t hold
  · exact ha huncut

/-- What an entered query is found to be is found with nothing in progress too, if no cut concerns
its level. -/
theorem Anew.alone_of_whole {q : Query} {r s : Request} {a : Ty} {asked : List Query}
    (h : src.Anew base (q :: r.guard.inProgress.map Prod.fst) (src.script base q) a asked)
    (hr : r.Orderly)
    (hcut : ∀ p ∈ asked, ∀ depth, r.guard.enteredAt? p = some depth → s.CutAt depth)
    (hwhole : ∀ cut ∈ s.cut, r.guard.depth + 1 ≤ cut) :
    ∃ asked, src.Anew base [] (.ask q .done) a asked := by
  -- A cut that concerned the level of the query would be one to a query outside of it.
  have hfree : ∀ p ∈ asked, p ∉ r.guard.inProgress.map Prod.fst := by
    intro p hp
    rw [← Guard.enteredAt?_eq_none_iff, Option.eq_none_iff_forall_ne_some]
    intro depth hdepth
    obtain ⟨cut, hmem, hle⟩ := hcut p hp depth hdepth
    have hlevel := (hr.enteredAt?_le hdepth).2
    have hcuts := hwhole cut hmem
    omega
  refine ⟨_, .entered List.not_mem_nil (h.of_stack fun p hp => ?_) .done⟩
  simp [hfree p hp]

/-- A run that stays within the limit and recalls nothing at a place where it would be cut finds
what is found anew, and a query in progress that is asked for anew has left a cut behind. -/
theorem Runs.anew {s : Script Ty} {r r' : Request} {t : Ty} {js : List Moment}
    (h : src.Runs base s r t r' js) (htable : r.table = none)
    (hlimit : ∀ m ∈ js, m.event.isTooDeep = false) (huncut : ∀ m ∈ js, src.RecallsUncut base m)
    (hr : r.Orderly) (hremembers : src.RemembersAnew base r) :
    src.RemembersAnew base r' ∧
      ∃ asked, src.Anew base (r.guard.inProgress.map Prod.fst) s t asked ∧
        ∀ p ∈ asked, ∀ depth, r.guard.enteredAt? p = some depth → r'.CutAt depth := by
  induction h with
  | done => exact ⟨hremembers, [], .done, by simp⟩
  | made rest ih =>
      rw [Request.made_of_no_table htable] at ih
      obtain ⟨hremembers', asked, hasked, hcut⟩ := ih htable hlimit huncut hr hremembers
      exact ⟨hremembers', asked, .made hasked, hcut⟩
  | consult rest ih =>
      obtain ⟨hremembers', asked, hasked, hcut⟩ :=
        ih htable hlimit huncut (hr.noteConsulted _) hremembers
      exact ⟨hremembers', asked, .consult hasked, hcut⟩
  | @recalled q next r a t r' js known rest ih =>
      rw [List.forall_mem_cons] at hlimit huncut
      obtain ⟨hremembers', asked, hasked, hcut⟩ := ih htable hlimit.2 huncut.2 hr hremembers
      obtain ⟨first, hfirst⟩ := hremembers q a known
      obtain ⟨b, first', hfirst', hfree⟩ := huncut.1 q rfl
      obtain ⟨rfl, rfl⟩ := hfirst.unique hfirst'
      have hthere : src.Anew base (r.guard.inProgress.map Prod.fst) (.ask q .done) a first := by
        refine hfirst.of_stack fun p hp => ?_
        simp [Guard.enteredAt?_eq_none_iff.1 (hfree p hp)]
      refine ⟨hremembers', first ++ asked, hthere.ask hasked, List.forall_mem_append.2 ⟨?_, hcut⟩⟩
      intro p hp depth hdepth
      simp [hfree p hp] at hdepth
  | @cycle q next r depth t r' js unknown inProgress rest ih =>
      rw [List.forall_mem_cons] at hlimit huncut
      have hlevel := (hr.enteredAt?_le inProgress).2
      obtain ⟨hremembers', asked, hasked, hcut⟩ :=
        ih htable hlimit.2 huncut.2 (hr.refuse_cycle inProgress) hremembers
      refine ⟨hremembers', q :: asked, .cycle (Guard.mem_of_enteredAt? inProgress) hasked, ?_⟩
      refine List.forall_mem_cons.2 ⟨fun level hq => ?_, hcut⟩
      obtain rfl := Option.some.inj (inProgress.symm.trans hq)
      exact rest.cutAt hlevel Request.cutAt_refuse_self
  | tooDeep unknown fresh full rest ih =>
      rw [List.forall_mem_cons] at hlimit
      exact absurd hlimit.1 (by simp [Event.isTooDeep])
  | @entered q next r a s inside t r' js unknown fresh room body rest ihBody ih =>
      rw [List.forall_mem_cons, List.forall_mem_append, List.forall_mem_cons] at hlimit huncut
      have hentered := hr.enter unknown fresh room
      have hleft := body.orderly_left hr unknown fresh room
      have hback : (s.finish q (r.guard.depth + 1) a).guard.inProgress = r.guard.inProgress :=
        body.left_inProgress fresh
      obtain ⟨-, hinsideLimit, -, hjsLimit⟩ := hlimit
      obtain ⟨-, hinsideUncut, -, hjsUncut⟩ := huncut
      obtain ⟨hbody, asked, hasked, hcut⟩ :=
        ihBody htable hinsideLimit hinsideUncut hentered hremembers
      have houter : ∀ p ∈ asked, ∀ depth, r.guard.enteredAt? p = some depth → s.CutAt depth := by
        intro p hp depth hdepth
        have hne : p ≠ q := by
          rintro rfl
          simp [fresh] at hdepth
        exact hcut p hp depth ((Request.enter_enteredAt?_of_ne hne).trans hdepth)
      obtain ⟨hremembers', rest', hrest', hcut'⟩ :=
        ih (body.left_no_table htable) hjsLimit hjsUncut hleft
          (hbody.finish (hasked.alone_of_whole hr houter))
      rw [hback] at hrest'
      refine ⟨hremembers', _, .entered (Guard.enteredAt?_eq_none_iff.1 fresh) hasked hrest', ?_⟩
      refine List.forall_mem_cons.2 ⟨by simp [fresh], List.forall_mem_append.2 ⟨?_, ?_⟩⟩
      · intro p hp depth hdepth
        have hlevel := (hr.enteredAt?_le hdepth).2
        refine rest.cutAt ?_ ((houter p hp depth hdepth).finish (Nat.lt_succ_of_le hlevel))
        rw [body.left_depth]
        exact hlevel
      · intro p hp depth hdepth
        refine hcut' p hp depth ?_
        rw [Guard.enteredAt?, hback]
        exact hdepth

end Sources

end LuaTypes
