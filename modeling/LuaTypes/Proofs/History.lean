import LuaTypes.Proofs.PartialResults
import LuaTypes.Proofs.PlainRefinement

namespace LuaTypes

def Event.isTooDeep : Event → Bool
  | .tooDeep _ => true
  | _ => false

namespace Sources

variable {src : Sources} {base : SearchContext}

def Ends (src : Sources) (base : SearchContext) (fuel : Nat) (q : Query) : Prop :=
  ∃ t, src.inferPlain fuel q.node (q.context base) = some t

def Endless (src : Sources) (base : SearchContext) (q : Query) : Prop :=
  ∀ t, ¬ src.Yields base q t

/-- What a request remembers is a plain type, or plain inference does not come to an end. -/
def AgreesWithPlain (src : Sources) (base : SearchContext) (r : Request) : Prop :=
  ∀ q t, r.remembered? q = some t → ∀ u, src.Yields base q u → t = u

/-- If plain inference comes to an end on a query in progress, then with less fuel on the script
that is being carried out for it. -/
def Pending (src : Sources) (base : SearchContext) (r : Request) (s : Script Ty) : Prop :=
  ∀ q ∈ r.guard.inProgress.map Prod.fst, ∀ fuel, src.Ends base fuel q →
    ∃ less < fuel, ∃ t, s.run base (src.plain less) = some t

theorem run_plain_ask {q : Query} {next : Ty → Script Ty} {fuel : Nat} {t : Ty} :
    (Script.ask q next).run base (src.plain fuel) = some t ↔
      ∃ a, src.inferPlain fuel q.node (q.context base) = some a ∧
        (next a).run base (src.plain fuel) = some t :=
  Option.bind_eq_some_iff

theorem run_plain_next {q : Query} {next : Ty → Script Ty} {a : Ty}
    (ha : ∀ u, src.Yields base q u → a = u) {fuel : Nat} {t : Ty}
    (ht : (Script.ask q next).run base (src.plain fuel) = some t) :
    (next a).run base (src.plain fuel) = some t := by
  obtain ⟨u, hu, hnext⟩ := run_plain_ask.1 ht
  rw [ha u ⟨fuel, hu⟩]
  exact hnext

theorem exists_run_of_inferPlain {q : Query} {fuel : Nat} {t : Ty}
    (h : src.inferPlain fuel q.node (q.context base) = some t) :
    ∃ less < fuel, (src.script base q).run base (src.plain less) = some t := by
  cases fuel with
  | zero => cases h
  | succ fuel => exact ⟨fuel, Nat.lt_succ_self fuel, (inferPlain_succ fuel q) ▸ h⟩

namespace Pending

variable {r r' : Request} {q : Query} {next : Ty → Script Ty} {a : Ty}

theorem answered (h : src.Pending base r (.ask q next))
    (hprogress : r'.guard.inProgress = r.guard.inProgress)
    (ha : ∀ u, src.Yields base q u → a = u) : src.Pending base r' (next a) := by
  intro p hp fuel hends
  rw [hprogress] at hp
  obtain ⟨less, hlt, t, ht⟩ := h p hp fuel hends
  exact ⟨less, hlt, t, run_plain_next ha ht⟩

/-- Plain inference does not come to an end on a query that is asked for inside of itself. -/
theorem endless (h : src.Pending base r (.ask q next))
    (hprogress : q ∈ r.guard.inProgress.map Prod.fst) : src.Endless base q := by
  have hnever : ∀ fuel, ¬ src.Ends base fuel q := by
    intro fuel
    induction fuel using Nat.strongRecOn with
    | ind fuel ih =>
        intro hends
        obtain ⟨less, hlt, t, ht⟩ := h q hprogress fuel hends
        obtain ⟨u, hu, -⟩ := run_plain_ask.1 ht
        exact ih less hlt ⟨u, hu⟩
  rintro t ⟨fuel, ht⟩
  exact hnever fuel ⟨t, ht⟩

theorem enter (h : src.Pending base r (.ask q next)) :
    src.Pending base (r.enter q) (src.script base q) := by
  intro p hp fuel hends
  rcases List.mem_cons.1 hp with rfl | hp
  · obtain ⟨t, ht⟩ := hends
    obtain ⟨less, hlt, hrun⟩ := exists_run_of_inferPlain ht
    exact ⟨less, hlt, t, hrun⟩
  · obtain ⟨less, hlt, t, ht⟩ := h p hp fuel hends
    obtain ⟨u, hu, -⟩ := run_plain_ask.1 ht
    obtain ⟨least, hlt', hrun⟩ := exists_run_of_inferPlain hu
    exact ⟨least, Nat.lt_trans hlt' hlt, u, hrun⟩

end Pending

theorem AgreesWithPlain.finish {s : Request} (h : src.AgreesWithPlain base s) {q : Query}
    {depth : Nat} {a : Ty} (ha : ∀ u, src.Yields base q u → a = u) :
    src.AgreesWithPlain base (s.finish q depth a) := by
  intro p t ht u hu
  rcases Request.finish_remembered_cases ht with hold | ⟨rfl, rfl, -⟩
  · exact h p t hold u hu
  · exact ha u hu

theorem agrees_of_script {q : Query} {a : Ty}
    (h : ∀ fuel u, (src.script base q).run base (src.plain fuel) = some u → a = u) :
    ∀ u, src.Yields base q u → a = u := by
  rintro u ⟨fuel, hu⟩
  obtain ⟨less, -, hless⟩ := exists_run_of_inferPlain hu
  exact h less u hless

/-- Within the limit a request answers with the plain type, if there is one, and so does what it
remembers afterwards. -/
theorem Runs.agrees_with_plain {s : Script Ty} {r r' : Request} {t : Ty} {js : List Moment}
    (h : src.Runs base s r t r' js) (htable : r.table = none)
    (hlimit : ∀ m ∈ js, m.event.isTooDeep = false) (hagrees : src.AgreesWithPlain base r)
    (hpending : src.Pending base r s) :
    src.AgreesWithPlain base r' ∧ ∀ fuel u, s.run base (src.plain fuel) = some u → t = u := by
  induction h with
  | done => exact ⟨hagrees, fun fuel u hu => Option.some.inj hu⟩
  | made rest ih =>
      rw [Request.made_of_no_table htable] at ih
      exact ih htable hlimit hagrees hpending
  | consult rest ih => exact ih htable hlimit hagrees hpending
  | recalled known rest ih =>
      rw [List.forall_mem_cons] at hlimit
      have ha := hagrees _ _ known
      obtain ⟨hagrees', hrest⟩ := ih htable hlimit.2 hagrees (hpending.answered rfl ha)
      exact ⟨hagrees', fun fuel u hu => hrest fuel u (run_plain_next ha hu)⟩
  | @cycle q next r depth t r' js unknown inProgress rest ih =>
      rw [List.forall_mem_cons] at hlimit
      have hendless := hpending.endless (Guard.mem_of_enteredAt? inProgress)
      have ha : ∀ u, src.Yields base q u → Ty.unknown = u :=
        fun u hu => absurd hu (hendless u)
      obtain ⟨hagrees', hrest⟩ := ih htable hlimit.2 hagrees (hpending.answered rfl ha)
      exact ⟨hagrees', fun fuel u hu => hrest fuel u (run_plain_next ha hu)⟩
  | tooDeep unknown fresh full rest ih =>
      rw [List.forall_mem_cons] at hlimit
      exact absurd hlimit.1 (by simp [Event.isTooDeep])
  | @entered q next r a s inside t r' js unknown fresh room body rest ihBody ih =>
      rw [List.forall_mem_cons, List.forall_mem_append, List.forall_mem_cons] at hlimit
      obtain ⟨-, hinside, -, hjs⟩ := hlimit
      obtain ⟨hs, hbody⟩ := ihBody htable hinside hagrees hpending.enter
      have ha := agrees_of_script hbody
      have hback : (s.finish q (r.guard.depth + 1) a).guard.inProgress = r.guard.inProgress :=
        body.left_inProgress fresh
      obtain ⟨hagrees', hrest⟩ :=
        ih (body.left_no_table htable) hjs (hs.finish ha) (hpending.answered hback ha)
      exact ⟨hagrees', fun fuel u hu => hrest fuel u (run_plain_next ha hu)⟩

end Sources

end LuaTypes
