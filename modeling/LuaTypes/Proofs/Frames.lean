import LuaTypes.Proofs.RequestInvariant

namespace LuaTypes

theorem append_cons_eq_append_cons {α : Type} {as bs cs ds : List α} {x y : α}
    (h : as ++ x :: bs = cs ++ y :: ds) :
    (as = cs ∧ x = y ∧ bs = ds) ∨ (∃ es, cs = as ++ x :: es ∧ bs = es ++ y :: ds) ∨
      ∃ es, as = cs ++ y :: es ∧ ds = es ++ x :: bs := by
  rcases List.append_eq_append_iff.1 h with ⟨es, rfl, hes⟩ | ⟨es, rfl, hes⟩
  · cases es with
    | nil =>
        obtain ⟨rfl, rfl⟩ := List.cons.inj hes
        exact .inl ⟨(List.append_nil as).symm, rfl, rfl⟩
    | cons e es =>
        obtain ⟨rfl, rfl⟩ := List.cons.inj hes
        exact .inr (.inl ⟨es, rfl, rfl⟩)
  · cases es with
    | nil =>
        obtain ⟨rfl, rfl⟩ := List.cons.inj hes
        exact .inl ⟨List.append_nil cs, rfl, rfl⟩
    | cons e es =>
        obtain ⟨rfl, rfl⟩ := List.cons.inj hes
        exact .inr (.inr ⟨es, rfl, rfl⟩)

theorem cons_append_cons {α : Type} (x y : α) (as bs : List α) :
    x :: (as ++ y :: bs) = (x :: (as ++ [y])) ++ bs := by
  simp

/-- The level that a refusal refers to. -/
def Event.refusedFor? : Event → Option Nat
  | .cycle _ depth => some depth
  | .tooDeep _ => some 1
  | _ => none

/-- In a journal a query is entered at a depth, then the moments inside happen, and the next time
the query is left the request has the given state. -/
def IsFrame (js : List Moment) (q : Query) (depth : Nat) (inside : List Moment)
    (left : Request) : Prop :=
  (∀ m ∈ inside, m.event ≠ .left q) ∧
    ∃ before opened after, js =
      before ++ ⟨.entered q depth, opened⟩ :: (inside ++ ⟨.left q, left⟩ :: after)

/-- Inside of a frame that is remembered all refusals refer to its level or to deeper ones. -/
def RemembersWhole (js : List Moment) : Prop :=
  ∀ q depth inside left, IsFrame js q depth inside left → left.remembered? q ≠ none →
    ∀ m ∈ inside, ∀ level ∈ m.event.refusedFor?, depth ≤ level

/-- Every query that is entered is left later. -/
def Balanced (js : List Moment) : Prop :=
  ∀ before q depth opened after, js = before ++ ⟨.entered q depth, opened⟩ :: after →
    ∃ inner closed rest, after = inner ++ ⟨.left q, closed⟩ :: rest

theorem Balanced.nil : Balanced [] := by
  intro before q depth opened after h
  simp at h

theorem Balanced.append {as bs : List Moment} (ha : Balanced as) (hb : Balanced bs) :
    Balanced (as ++ bs) := by
  intro before q depth opened after h
  rcases append_eq_append_cons h with ⟨es, rfl, rfl⟩ | ⟨es, rfl, hes⟩
  · obtain ⟨inner, closed, rest, rfl⟩ := ha before q depth opened es rfl
    exact ⟨inner, closed, rest ++ bs, by simp⟩
  · exact hb es q depth opened after hes

theorem Balanced.single {m : Moment} (h : ∀ q depth, m.event ≠ .entered q depth) :
    Balanced [m] := by
  intro before q depth opened after heq
  cases before with
  | nil =>
      obtain ⟨rfl, -⟩ := List.cons.inj heq
      exact absurd rfl (h q depth)
  | cons b before => simp at heq

theorem Balanced.frame {q : Query} {depth : Nat} {opened left : Request} {inside : List Moment}
    (h : Balanced inside) :
    Balanced (⟨.entered q depth, opened⟩ :: (inside ++ [⟨.left q, left⟩])) := by
  intro before p d o after heq
  cases before with
  | nil =>
      obtain ⟨hhead, rfl⟩ := List.cons.inj heq
      obtain ⟨rfl, -⟩ := Event.entered.inj (Moment.mk.inj hhead).1
      exact ⟨inside, left, [], rfl⟩
  | cons b before =>
      have hrest : Balanced (inside ++ [⟨.left q, left⟩]) :=
        h.append (.single fun p d hp => by cases hp)
      exact hrest before p d o after (List.cons.inj heq).2

theorem RemembersWhole.nil : RemembersWhole [] := by
  rintro q depth inside left ⟨-, before, opened, after, h⟩
  simp at h

theorem RemembersWhole.append {as bs : List Moment} (ha : RemembersWhole as)
    (hbalanced : Balanced as) (hb : RemembersWhole bs) : RemembersWhole (as ++ bs) := by
  rintro q depth inside left ⟨hinside, before, opened, after, h⟩ hleft
  rcases append_eq_append_cons h with ⟨es, rfl, hes⟩ | ⟨es, rfl, hes⟩
  · obtain ⟨inner, closed, rest, rfl⟩ := hbalanced before q depth opened es rfl
    rw [List.append_assoc, List.cons_append] at hes
    rcases append_cons_eq_append_cons hes with ⟨rfl, heq, -⟩ | ⟨es, rfl, -⟩ | ⟨es, rfl, -⟩
    · obtain ⟨-, rfl⟩ := Moment.mk.inj heq
      exact ha q depth inside left ⟨hinside, before, opened, rest, rfl⟩ hleft
    · have hframe : IsFrame _ q depth inside left :=
        ⟨hinside, before, opened, es ++ ⟨.left q, closed⟩ :: rest, rfl⟩
      refine ha q depth inside left ?_ hleft
      simpa using hframe
    · exact absurd rfl (hinside ⟨.left q, closed⟩ (by simp))
  · exact hb q depth inside left ⟨hinside, es, opened, after, hes⟩ hleft

theorem RemembersWhole.single {m : Moment} (h : ∀ q depth, m.event ≠ .entered q depth) :
    RemembersWhole [m] := by
  rintro q depth inside left ⟨-, before, opened, after, heq⟩
  cases before with
  | nil =>
      obtain ⟨rfl, -⟩ := List.cons.inj heq
      exact absurd rfl (h q depth)
  | cons b before => simp at heq

theorem RemembersWhole.frame {q : Query} {depth : Nat} {opened left : Request}
    {inside : List Moment} (h : RemembersWhole inside) (hbalanced : Balanced inside)
    (hinside : ∀ m ∈ inside, m.event ≠ .left q)
    (hwhole : left.remembered? q ≠ none →
      ∀ m ∈ inside, ∀ level ∈ m.event.refusedFor?, depth ≤ level) :
    RemembersWhole (⟨.entered q depth, opened⟩ :: (inside ++ [⟨.left q, left⟩])) := by
  rintro p d ins l ⟨hins, before, o, after, heq⟩ hl
  cases before with
  | nil =>
      obtain ⟨hhead, hrest⟩ := List.cons.inj heq
      obtain ⟨rfl, rfl⟩ := Event.entered.inj (Moment.mk.inj hhead).1
      rcases append_cons_eq_append_cons hrest with ⟨rfl, hclosed, -⟩ | ⟨es, rfl, -⟩ | ⟨es, rfl, -⟩
      · obtain ⟨-, rfl⟩ := Moment.mk.inj hclosed
        exact hwhole hl
      · exact absurd rfl (hins ⟨.left q, left⟩ (by simp))
      · exact absurd rfl (hinside ⟨.left q, l⟩ (by simp))
  | cons b before =>
      have hrest : RemembersWhole (inside ++ [⟨.left q, left⟩]) :=
        h.append hbalanced (.single fun p d hp => by cases hp)
      exact hrest p d ins l ⟨hins, before, o, after, (List.cons.inj heq).2⟩ hl

namespace Sources

variable {src : Sources} {base : SearchContext} {script : Script Ty} {r r' : Request} {t : Ty}
  {js : List Moment}

namespace Runs

theorem not_left (h : src.Runs base script r t r' js) {q : Query}
    (hprogress : q ∈ r.guard.inProgress.map Prod.fst) : ∀ m ∈ js, m.event ≠ .left q := by
  induction h with
  | done => exact fun m hm => absurd hm List.not_mem_nil
  | made rest ih => exact ih hprogress
  | consult rest ih => exact ih hprogress
  | recalled known rest ih => exact List.forall_mem_cons.2 ⟨by simp, ih hprogress⟩
  | cycle unknown inProgress rest ih => exact List.forall_mem_cons.2 ⟨by simp, ih hprogress⟩
  | tooDeep unknown fresh full rest ih => exact List.forall_mem_cons.2 ⟨by simp, ih hprogress⟩
  | @entered p next r a s inside t r' js unknown fresh room body rest ihBody ih =>
      have hne : p ≠ q := by
        rintro rfl
        exact Guard.enteredAt?_eq_none_iff.1 fresh hprogress
      refine List.forall_mem_cons.2 ⟨by simp, List.forall_mem_append.2 ⟨?_, ?_⟩⟩
      · exact ihBody (List.mem_cons_of_mem _ hprogress)
      · refine List.forall_mem_cons.2 ⟨fun hleft => hne (Event.left.inj hleft), ih ?_⟩
        rw [body.left_inProgress fresh]
        exact hprogress

theorem cutAt_of_refused (h : src.Runs base script r t r' js) {level : Nat}
    (hlevel : level ≤ r.guard.depth) :
    ∀ m ∈ js, level ∈ m.event.refusedFor? → r'.CutAt level := by
  induction h with
  | done => exact fun m hm => absurd hm List.not_mem_nil
  | made rest ih => exact ih hlevel
  | consult rest ih => exact ih hlevel
  | recalled known rest ih => exact List.forall_mem_cons.2 ⟨fun hm => (by cases hm), ih hlevel⟩
  | cycle unknown inProgress rest ih =>
      refine List.forall_mem_cons.2 ⟨fun hm => ?_, ih hlevel⟩
      obtain rfl := Option.some.inj hm
      exact rest.cutAt hlevel Request.cutAt_refuse_self
  | tooDeep unknown fresh full rest ih =>
      refine List.forall_mem_cons.2 ⟨fun hm => ?_, ih hlevel⟩
      obtain rfl := Option.some.inj hm
      exact rest.cutAt hlevel Request.cutAt_refuse_self
  | @entered q next r a s inside t r' js unknown fresh room body rest ihBody ih =>
      have hback : level ≤ (s.finish q (r.guard.depth + 1) a).guard.depth := by
        rw [body.left_depth]
        exact hlevel
      refine List.forall_mem_cons.2 ⟨fun hm => (by cases hm), List.forall_mem_append.2 ⟨?_, ?_⟩⟩
      · intro m hm hrefused
        have hs : s.CutAt level := ihBody (Nat.le_succ_of_le hlevel) m hm hrefused
        exact rest.cutAt hback (hs.finish (Nat.lt_succ_of_le hlevel))
      · exact List.forall_mem_cons.2 ⟨fun hm => (by cases hm), ih hback⟩

theorem balanced (h : src.Runs base script r t r' js) : Balanced js := by
  induction h with
  | done => exact .nil
  | made rest ih => exact ih
  | consult rest ih => exact ih
  | recalled known rest ih => exact .append (.single fun _ _ h => by cases h) ih
  | cycle unknown inProgress rest ih => exact .append (.single fun _ _ h => by cases h) ih
  | tooDeep unknown fresh full rest ih => exact .append (.single fun _ _ h => by cases h) ih
  | entered unknown fresh room body rest ihBody ih =>
      rw [cons_append_cons]
      exact ihBody.frame.append ih

theorem remembersWhole (h : src.Runs base script r t r' js) (hr : r.Orderly) :
    RemembersWhole js := by
  induction h with
  | done => exact .nil
  | made rest ih => exact ih (hr.made _)
  | consult rest ih => exact ih (hr.noteConsulted _)
  | recalled known rest ih =>
      exact .append (.single fun _ _ h => by cases h) (.single fun _ _ h => by cases h) (ih hr)
  | cycle unknown inProgress rest ih =>
      exact .append (.single fun _ _ h => by cases h) (.single fun _ _ h => by cases h)
        (ih (hr.refuse_cycle inProgress))
  | tooDeep unknown fresh full rest ih =>
      exact .append (.single fun _ _ h => by cases h) (.single fun _ _ h => by cases h)
        (ih (hr.refuse_full full))
  | @entered q next r a s inside t r' js unknown fresh room body rest ihBody ih =>
      have hentered := hr.enter unknown fresh room
      have hunknown := body.inside_unknown hr unknown fresh room
      rw [cons_append_cons]
      refine .append (.frame (ihBody hentered) body.balanced (body.not_left ?_) ?_)
        body.balanced.frame (ih (body.orderly_left hr unknown fresh room))
      · exact List.mem_cons_self
      · intro hremembered m hm level hlevel
        refine Nat.le_of_not_lt fun hlt => ?_
        -- A refusal for an outer level would still be pending, and the result not remembered.
        obtain ⟨cut, hcut, hle⟩ := body.cutAt_of_refused (Nat.le_of_lt hlt) m hm hlevel
        have hwhole := Request.finish_uncut_of_remembered hunknown hremembered cut hcut
        omega

end Runs

end Sources

end LuaTypes
