import LuaTypes.Proofs.Agreement
import LuaTypes.Proofs.ClassProperties
import LuaTypes.Proofs.Sessions
import LuaTypes.Ty.Display

namespace LuaTypes

/-- What makes a chunk grow: one more expression, or one more binding. -/
inductive ChunkChange where
  | push (e : Expr)
  | bind (b : Binding)

namespace Chunk

def change (c : Chunk) : ChunkChange → Chunk
  | .push e => (c.push e).2
  | .bind b => c.bind b

def extend (c : Chunk) (changes : List ChunkChange) : Chunk :=
  changes.foldl change c

variable {c : Chunk} {id : NodeId} {name : String}

theorem length_le_change (c : Chunk) (step : ChunkChange) :
    c.nodes.length ≤ (c.change step).nodes.length := by
  cases step with
  | push e => simp [change, push]
  | bind b => exact Nat.le_refl _

theorem get?_change (h : id < c.nodes.length) (step : ChunkChange) :
    (c.change step).get? id = c.get? id := by
  cases step with
  | push e => exact List.getElem?_append_left h
  | bind b => rfl

theorem bindingFor?_change {step : ChunkChange} (h : ∀ b, step = .bind b → name ∉ b.names) :
    (c.change step).bindingFor? name = c.bindingFor? name := by
  cases step with
  | push e => rfl
  | bind b =>
      have hnone : b.positionOf? name = none := by
        refine List.findIdx?_eq_none_iff.2 fun x hx => ?_
        have hne : x ≠ name := fun heq => h b rfl (heq ▸ hx)
        simpa using hne
      simp only [change, bind, bindingFor?, List.reverse_append, List.reverse_singleton,
        List.singleton_append, List.findSome?_cons, hnone, Option.map_none]

theorem get?_extend (h : id < c.nodes.length) (changes : List ChunkChange) :
    (c.extend changes).get? id = c.get? id := by
  induction changes generalizing c with
  | nil => rfl
  | cons step changes ih =>
      have hlater := Nat.lt_of_lt_of_le h (c.length_le_change step)
      exact (ih hlater).trans (get?_change h step)

theorem bindingFor?_extend {changes : List ChunkChange}
    (h : ∀ b, .bind b ∈ changes → name ∉ b.names) :
    (c.extend changes).bindingFor? name = c.bindingFor? name := by
  induction changes generalizing c with
  | nil => rfl
  | cons step changes ih =>
      have hstep : ∀ b, step = .bind b → name ∉ b.names := by
        rintro b rfl
        exact h b List.mem_cons_self
      have hlater := ih (c := c.change step) fun b hb => h b (List.mem_cons_of_mem _ hb)
      exact hlater.trans (bindingFor?_change hstep)

theorem tableField?_extend (h : id < c.nodes.length) (changes : List ChunkChange)
    (name : String) : (c.extend changes).tableField? id name = c.tableField? id name := by
  unfold tableField?
  rw [get?_extend h]

end Chunk

/-- The class value stands for no table constructor but those at the first so many nodes. -/
def ClassTy.TablesBelow (count : Nat) (d : ClassTy) : Prop :=
  ∀ node ∈ d.tableNode?, node < count

theorem ClassTy.tablesBelow_bare_iff {count : Nat} {d : ClassTy} :
    d.bare.TablesBelow count ↔ d.TablesBelow count := by
  rw [TablesBelow, tableNode?, bare_form]
  rfl

/-- What a request is asked is on the first so many nodes. -/
def RequestStep.Below (count : Nat) : RequestStep → Prop
  | .demand d => d.Within (· < count)
  | .setDumb _ => True

namespace Workspace

variable {c : Chunk} {w : Workspace} {changes : List ChunkChange}

theorem agreesWith_extend (hvalid : c.validate = .ok c)
    (hfresh : ∀ b, .bind b ∈ changes → ∀ name ∈ b.names, .ident name ∉ c.nodes) :
    (w.sources c).AgreesWith (w.sources (c.extend changes))
      (Ty.EachClass (ClassTy.TablesBelow c.nodes.length)) (· < c.nodes.length) :=
  { (w.sources c).confines_of_validate hvalid _ with
    index := rfl
    links := rfl
    node := fun hn => Chunk.get?_extend hn changes
    binding := by
      intro n name _ hname
      refine Chunk.bindingFor?_extend fun b hb hin => ?_
      exact hfresh b hb name hin (List.mem_of_getElem? hname)
    sameField := by
      intro d name hd
      cases hnode : d.tableNode? with
      | none => rfl
      | some node =>
          have hbelow := Ty.eachClass_ofClass_iff.1 hd node hnode
          exact Chunk.tableField?_extend hbelow changes name }

theorem keeps_tablesBelow {table : Option LinkTable}
    (hindex : w.index.EachClass fun d => d.tableNode? = none) :
    (w.sources c).Keeps table (Ty.EachClass (ClassTy.TablesBelow c.nodes.length)) := by
  refine Sources.keeps_eachClass (fun d => ClassTy.tablesBelow_bare_iff) (fun form hform => ?_)
    (fun node fields hget => ?_) (fun d _ => nofun)
    fun g hg d hd => (hindex g hg d hd).imp fun e he => ?_
  · cases form with
    | tableLiteral node => exact absurd rfl (hform node)
    | _ => nofun
  · rintro n hn
    obtain rfl := Option.some.inj hn
    exact Chunk.lt_length_of_get? hget
  · intro node hnode
    rw [he] at hnode
    cases hnode

theorem observe_extend (hvalid : c.validate = .ok c)
    (hindex : w.index.EachClass fun d => d.tableNode? = none)
    (hfresh : ∀ b, .bind b ∈ changes → ∀ name ∈ b.names, .ident name ∉ c.nodes)
    {steps : List RequestStep} (hsteps : ∀ step ∈ steps, step.Below c.nodes.length) {r : Request}
    (hcache : ∀ e ∈ r.cache, e.2.EachClass (ClassTy.TablesBelow c.nodes.length))
    (hsettled : r.consulted = []) :
    (observe (c.extend changes) steps r).run w = (observe c steps r).run w := by
  -- The index may change between demands, but only in whether it is dumb.
  induction steps generalizing w r with
  | nil => rfl
  | cons step steps ih =>
      rw [List.forall_mem_cons] at hsteps
      cases step with
      | setDumb dumb =>
          have hrest := ih (w := { w with index := { w.index with dumb } }) hindex hsteps.2 hcache
            hsettled
          exact hrest
      | demand d =>
          have hconsulted : ∀ e ∈ (r.onTable w.links).consulted,
              (Ty.ofClass e).EachClass (ClassTy.TablesBelow c.nodes.length) := by
            simp [Request.onTable, hsettled]
          have hrun := (w.sources c).runs_answer d (r.onTable w.links)
          rcases hanswer : (d.answer (w.sources c).requesting).run (r.onTable w.links) with ⟨t, r'⟩
          have hkeeps : (w.sources c).Keeps r'.table
              (Ty.EachClass (ClassTy.TablesBelow c.nodes.length)) :=
            keeps_tablesBelow hindex
          have hsame := (agreesWith_extend hvalid hfresh).answer (r := r.onTable w.links) hkeeps
            hsteps.1 (hanswer ▸ .refl _) hcache hconsulted
          rw [hanswer] at hrun hsame
          obtain ⟨-, hcache'⟩ := hrun.ensures (fun q => hkeeps.inferExpr q.node _) hkeeps.unknown
            (.refl _) (hkeeps.answer d) hcache
          have hrest := ih (w := w.takeBack r') (r := r'.putAside) hindex hsteps.2 hcache' rfl
          rw [run_observe_demand hsame, run_observe_demand hanswer]
          exact congrArg _ hrest

/-- A request on the expressions of an accepted chunk gives the same answers, remembers as much and
is refused as often, and leaves the same links behind, after the chunk has grown: by expressions of
any kind, and by bindings of names that none of its expressions is. -/
theorem extension_is_invisible (hvalid : c.validate = .ok c)
    (hindex : w.index.EachClass fun d => d.tableNode? = none)
    (hfresh : ∀ b, .bind b ∈ changes → ∀ name ∈ b.names, .ident name ∉ c.nodes)
    {steps : List RequestStep} (hsteps : ∀ step ∈ steps, step.Below c.nodes.length)
    (maxDepth : Nat) :
    (observe (c.extend changes) steps (.start maxDepth)).run w =
      (observe c steps (.start maxDepth)).run w := by
  refine observe_extend hvalid hindex hfresh hsteps ?_ rfl
  exact fun e he => absurd he List.not_mem_nil

/-- A field of a table constructor that is read through a name, and a member of a class. -/
def readThroughName : Chunk :=
  { nodes := [.table [⟨"x", 1⟩], .literal .number, .ident "t", .index 2 (some "x") none,
      .ident "List", .index 4 (some "x") none]
    bindings := [{ names := ["t"], values := [0] }] }

/-- The table is bound to further names, one of which its field has, and another table to one of
them again. -/
def furtherNames : List ChunkChange :=
  [.push (.table [⟨"x", 7⟩]), .bind { names := ["x", "u"], values := [6, 0] },
    .push (.ident "u"), .bind { names := ["u"], values := [6] }]

theorem extension_is_invisible_to_read_through_name :
    let x : MemberDecl := ⟨"List", "x", .docField, .array (.named "List"), none⟩
    let w : Workspace := { index := { classes := [.named "List"], groups := [("List", [x])] } }
    let steps := [RequestStep.demand (.one 5 {}), .setDumb true,
      .demand (.list [3, 4] (SearchContext.forAllValues {}))]
    readThroughName.validate = .ok readThroughName ∧
      w.index.EachClass (fun d => d.tableNode? = none) ∧
      (∀ b, .bind b ∈ furtherNames → ∀ name ∈ b.names, .ident name ∉ readThroughName.nodes) ∧
      (∀ step ∈ steps, step.Below readThroughName.nodes.length) ∧
      (observe (readThroughName.extend furtherNames) steps (.start 8)).run w =
        (observe readThroughName steps (.start 8)).run w ∧
      ((observe readThroughName steps (.start 8)).run w).1.map
          (fun o => (o.answer.display, o.cached, o.denied)) =
        [("List[]", 2, 0), ("(number, any)", 7, 0)] := by
  intro x w steps
  have hvalid : readThroughName.validate = .ok readThroughName := rfl
  have hindex : w.index.EachClass (fun d => d.tableNode? = none) := by decide
  have hfresh : ∀ b, .bind b ∈ furtherNames →
      ∀ name ∈ b.names, .ident name ∉ readThroughName.nodes := by
    simp [furtherNames, readThroughName]
  have hsteps : ∀ step ∈ steps, step.Below readThroughName.nodes.length := by
    simp [steps, RequestStep.Below, Demand.Within, readThroughName]
  refine ⟨hvalid, hindex, hfresh, hsteps,
    extension_is_invisible hvalid hindex hfresh hsteps 8, ?_⟩
  decide +kernel

end Workspace

end LuaTypes
