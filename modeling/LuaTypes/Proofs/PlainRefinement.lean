import LuaTypes.Inference.Plain
import LuaTypes.Proofs.Runs
import Mathlib.Data.List.Forall2

namespace LuaTypes

theorem Script.run_of_extends {α : Type} {f g : Recursion Option} (h : f.Extends g)
    {base : SearchContext} {s : Script α} {a : α} (ha : s.run base f = some a) :
    s.run base g = some a := by
  induction s with
  | done b => exact ha
  | ask q next ih =>
      obtain ⟨t, ht, hnext⟩ := Option.bind_eq_some_iff.1 ha
      exact Option.bind_eq_some_iff.2 ⟨t, h.infer _ _ _ ht, ih t hnext⟩
  | make t next ih =>
      obtain ⟨u, hu, hnext⟩ := Option.bind_eq_some_iff.1 ha
      exact Option.bind_eq_some_iff.2 ⟨u, h.make _ _ hu, ih u hnext⟩
  | consult c next ih =>
      obtain ⟨u, hu, hnext⟩ := Option.bind_eq_some_iff.1 ha
      exact Option.bind_eq_some_iff.2 ⟨u, h.consult _ _ hu, ih hnext⟩

namespace Sources

variable {src : Sources} {base : SearchContext}

def plain (src : Sources) (fuel : Nat) : Recursion Option :=
  { infer := src.inferPlain fuel, make := some, consult := fun _ => some () }

theorem inferPlain_succ (fuel : Nat) (q : Query) :
    src.inferPlain (fuel + 1) q.node (q.context base) =
      (src.script base q).run base (src.plain fuel) :=
  (src.run_script (src.plain fuel) base q).symm

theorem plain_extends {fuel more : Nat} (hle : fuel ≤ more) :
    (src.plain fuel).Extends (src.plain more) := by
  refine ⟨fun node ctx t ht => ?_, fun t u hu => hu, fun c u hu => hu⟩
  induction fuel generalizing more node ctx t with
  | zero => simp [plain, inferPlain] at ht
  | succ fuel ih =>
      obtain ⟨more, rfl⟩ : ∃ k, more = k + 1 := ⟨more - 1, by omega⟩
      have hextends : (src.plain fuel).Extends (src.plain more) :=
        ⟨ih (Nat.le_of_succ_le_succ hle), fun t u hu => hu, fun c u hu => hu⟩
      change src.inferExpr (src.plain more) node ctx = some t
      rw [← src.run_inferExpr _ (.refl ctx)]
      apply Script.run_of_extends hextends
      rw [src.run_inferExpr _ (.refl ctx)]
      exact ht

theorem run_plain_mono {α : Type} {s : Script α} {a : α} {fuel more : Nat} (hle : fuel ≤ more)
    (ha : s.run base (src.plain fuel) = some a) : s.run base (src.plain more) = some a :=
  Script.run_of_extends (plain_extends hle) ha

/-- Plain inference comes to an end on a query, with the given type. -/
def Yields (src : Sources) (base : SearchContext) (q : Query) (t : Ty) : Prop :=
  ∃ fuel, src.inferPlain fuel q.node (q.context base) = some t

theorem Yields.unique {q : Query} {t u : Ty} (ht : src.Yields base q t)
    (hu : src.Yields base q u) : t = u := by
  obtain ⟨n, hn⟩ := ht
  obtain ⟨k, hk⟩ := hu
  have hn' := (plain_extends (Nat.le_max_left n k)).infer _ _ _ hn
  have hk' := (plain_extends (Nat.le_max_right n k)).infer _ _ _ hk
  exact Option.some.inj (hn'.symm.trans hk')

def Meets (src : Sources) (d : Demand) (t : Ty) : Prop :=
  ∃ fuel, d.answer (src.plain fuel) = some t

def Faithful (src : Sources) (base : SearchContext) (r : Request) : Prop :=
  ∀ q t, (q, t) ∈ r.cache → src.Yields base q t

theorem Faithful.of_remembered {r : Request} (h : src.Faithful base r) {q : Query} {t : Ty}
    (ht : r.remembered? q = some t) : src.Yields base q t := by
  obtain ⟨before, after, hcache, _⟩ := List.lookup_eq_some_iff.1 ht
  exact h q t (by simp [hcache])

theorem Faithful.finish {r : Request} (h : src.Faithful base r) {q : Query} {depth : Nat}
    {t : Ty} (ht : src.Yields base q t) : src.Faithful base (r.finish q depth t) := by
  intro p u hu
  cases hcut : r.cut.any (· < depth) with
  | true =>
      rw [Request.finish_of_cut hcut] at hu
      exact h p u hu
  | false =>
      rw [Request.finish_of_whole hcut] at hu
      rcases List.mem_append.1 hu with hold | hnew
      · exact h p u hold
      · obtain ⟨rfl, rfl⟩ := Prod.mk.inj (List.mem_singleton.1 hnew)
        exact ht

/-- A run without refusals finds what plain inference finds. -/
theorem Runs.plain_of_undenied {s : Script Ty} {r r' : Request} {t : Ty} {js : List Moment}
    (h : src.Runs base s r t r' js) (htable : r.table = none) (hfaithful : src.Faithful base r)
    (hdenied : r'.denied = 0) :
    src.Faithful base r' ∧ ∃ fuel, s.run base (src.plain fuel) = some t := by
  induction h with
  | done => exact ⟨hfaithful, 0, rfl⟩
  | made rest ih =>
      rw [Request.made_of_no_table htable] at ih
      exact ih htable hfaithful hdenied
  | consult rest ih => exact ih htable hfaithful hdenied
  | recalled known rest ih =>
      obtain ⟨hfaithful', n, hn⟩ := ih htable hfaithful hdenied
      obtain ⟨k, hk⟩ := hfaithful.of_remembered known
      refine ⟨hfaithful', max n k, ?_⟩
      have hask := (plain_extends (Nat.le_max_right n k)).infer _ _ _ hk
      exact Option.bind_eq_some_iff.2 ⟨_, hask, run_plain_mono (Nat.le_max_left n k) hn⟩
  | cycle unknown inProgress rest ih =>
      have hle := rest.denied_le
      simp only [Request.refuse_denied] at hle
      omega
  | tooDeep unknown fresh full rest ih =>
      have hle := rest.denied_le
      simp only [Request.refuse_denied] at hle
      omega
  | entered unknown fresh room body rest ihBody ih =>
      have hbody : _ = 0 := Nat.le_zero.1 (hdenied ▸ rest.denied_le)
      rw [Request.finish_denied] at hbody
      obtain ⟨hfaithful₁, k, hk⟩ := ihBody htable hfaithful hbody
      rw [← inferPlain_succ] at hk
      obtain ⟨hfaithful', n, hn⟩ :=
        ih (body.left_no_table htable) (hfaithful₁.finish ⟨k + 1, hk⟩) hdenied
      refine ⟨hfaithful', max n (k + 1), ?_⟩
      have hask := (plain_extends (Nat.le_max_right n (k + 1))).infer _ _ _ hk
      exact Option.bind_eq_some_iff.2 ⟨_, hask, run_plain_mono (Nat.le_max_left n (k + 1)) hn⟩

theorem Serves.meets_of_undenied {demands : List Demand} {r r' : Request} {ts : List Ty}
    {js : List Moment} (h : src.Serves demands r ts r' js)
    (hbase : ∀ d ∈ demands, d.ctx.Under base) (htable : r.table = none)
    (hfaithful : src.Faithful base r) (hdenied : r'.denied = 0) :
    List.Forall₂ src.Meets demands ts ∧ src.Faithful base r' := by
  induction h with
  | nil => exact ⟨.nil, hfaithful⟩
  | @cons d ds r t r₁ js ts r' js' first rest ih =>
      rw [List.forall_mem_cons] at hbase
      obtain ⟨hctx, hbase⟩ := hbase
      have hfirst : r₁.denied = 0 := Nat.le_zero.1 (hdenied ▸ rest.denied_le)
      obtain ⟨hfaithful₁, fuel, hfuel⟩ :=
        (first.of_under hctx).plain_of_undenied htable hfaithful hfirst
      rw [d.run_answer _ hctx] at hfuel
      obtain ⟨hrest, hfaithful'⟩ := ih hbase (first.no_table htable) hfaithful₁ hdenied
      exact ⟨.cons ⟨fuel, hfuel⟩ hrest, hfaithful'⟩

/-- A request that never refused entry has answered with plain types, and plain types are all that
it remembers. -/
theorem undenied_request_refines_plain (src : Sources) (maxDepth : Nat) (base : SearchContext)
    (demands : List Demand) (hbase : ∀ d ∈ demands, d.ctx.Under base)
    (hdenied : ((src.serve demands).run (.start maxDepth)).2.denied = 0) :
    List.Forall₂ src.Meets demands ((src.serve demands).run (.start maxDepth)).1 ∧
      ∀ q t, (q, t) ∈ ((src.serve demands).run (.start maxDepth)).2.cache →
        src.Yields base q t := by
  have hserves := src.serves_serve demands (.start maxDepth)
  exact hserves.meets_of_undenied hbase rfl (fun q t h => absurd h List.not_mem_nil) hdenied

theorem undenied_request_refines_plain_call :
    let src : Sources :=
      { chunk :=
        { nodes := [.literal .string, .literal .number,
            .function [] [[0, 1]] none [] false, .call 2 [] false] } }
    let demands := [Demand.one 3 (SearchContext.forAllValues {}), .one 3 {}, .list [2, 3] {}]
    (∀ d ∈ demands, d.ctx.Under {}) ∧ ((src.serve demands).run (.start 64)).2.denied = 0 ∧
      List.Forall₂ src.Meets demands ((src.serve demands).run (.start 64)).1 ∧
      ∀ q t, (q, t) ∈ ((src.serve demands).run (.start 64)).2.cache → src.Yields {} q t := by
  intro src demands
  have hbase : ∀ d ∈ demands, d.ctx.Under {} := by
    intro d hd
    simp only [demands, List.mem_cons, List.not_mem_nil, or_false] at hd
    rcases hd with rfl | rfl | rfl <;> exact .refl _
  have hdenied : ((src.serve demands).run (.start 64)).2.denied = 0 := by
    decide +kernel
  exact ⟨hbase, hdenied, undenied_request_refines_plain src 64 {} demands hbase hdenied⟩

end Sources

end LuaTypes
