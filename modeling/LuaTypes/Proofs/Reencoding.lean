import LuaTypes.Command
import LuaTypes.Proofs.ClassReplacement
import LuaTypes.Proofs.FunctionCalls
import LuaTypes.Proofs.IndexDocuments
import LuaTypes.Proofs.UnionAlgebra

namespace LuaTypes

namespace Ty

/-- Arguments are applied to a class or a primitive type. -/
def HasNamedBase : Ty → Prop
  | .generic base _ => base.kind = .ofClass ∨ base.kind = .primitive
  | _ => True

/-- A class does not go by the name of a built-in type. -/
def HasOwnName : Ty → Prop
  | .ofClass c => (ofBuiltin? c.name).isNone
  | _ => True

/-- Where there are arguments, there is at least one, and parameters are unbounded. -/
def IsDocumented : Ty → Prop
  | .generic _ args => args ≠ []
  | .param _ bound => bound = none
  | _ => True

/-- A node can say this part of a type. -/
def IsExpressible (t : Ty) : Prop :=
  t.HasNamedBase ∧ t.HasOwnName ∧ t.IsDocumented

instance : DecidablePred HasNamedBase
  | .generic base _ => inferInstanceAs (Decidable (base.kind = .ofClass ∨ base.kind = .primitive))
  | .unknown | .nil | .void | .primitive _ | .ofClass _ | .array _ | .function _ | .union _
  | .tuple _ | .param _ _ => .isTrue trivial

instance : DecidablePred HasOwnName
  | .ofClass c => inferInstanceAs (Decidable ((ofBuiltin? c.name).isNone = true))
  | .unknown | .nil | .void | .primitive _ | .generic _ _ | .array _ | .function _ | .union _
  | .tuple _ | .param _ _ => .isTrue trivial

theorem ofLeaves_hasOwnName : OfLeaves HasOwnName where
  other := by
    intro t hclass hparam hgeneric
    cases t with
    | ofClass c => exact absurd rfl hclass
    | _ => trivial
  generic _ _ := trivial

theorem ofLeaves_isDocumented : OfLeaves IsDocumented where
  other := by
    intro t hclass hparam hgeneric
    cases t with
    | generic base args => exact absurd rfl hgeneric
    | param name bound => exact absurd rfl hparam
    | _ => trivial
  generic := by
    intro base base' args args' hargs hlength
    exact List.ne_nil_of_length_pos (hlength ▸ List.length_pos_of_ne_nil hargs)

/-- What every type is that is read from documents. -/
structure IsRead (t : Ty) : Prop where
  wellFormed : t.WellFormed
  named : t.Everywhere HasOwnName
  documented : t.Everywhere IsDocumented

theorem isRead_uniteAll {types : List Ty} (h : ∀ t ∈ types, t.IsRead) :
    (uniteAll types).IsRead where
  wellFormed := wellFormed_uniteAll fun t ht => (h t ht).wellFormed
  named := ofLeaves_hasOwnName.compositional.uniteAll fun t ht => (h t ht).named
  documented := ofLeaves_isDocumented.compositional.uniteAll fun t ht => (h t ht).documented

end Ty

/-- The class that a node for the class stands for, if its name is no built-in's: the links of the
class are not written, nor whether it is anonymous. -/
def ClassTy.written (c : ClassTy) : ClassTy :=
  { form := if c.isGlobal then .global c.name else .declared c.name }

theorem ClassTy.name_written (c : ClassTy) : c.written.name = c.name := by
  unfold written name
  split <;> rfl

namespace TypeNode

variable {t : Ty}

theorem isRead_toTy (n : TypeNode) : n.toTy.IsRead where
  wellFormed := n.wellFormed_toTy
  named := by
    refine Ty.ofLeaves_hasOwnName.compositional.toTy (fun form hform _ => ?_)
      (fun base args _ hbase hargs => ?_) (fun name => ?_) n
    · exact List.forall_mem_singleton.2 (Option.isNone_iff_eq_none.2 hform)
    · exact Ty.everywhere_generic_iff.2 ⟨trivial, hbase, hargs⟩
    · exact List.forall_mem_singleton.2 trivial
  documented := by
    refine Ty.ofLeaves_isDocumented.compositional.toTy (fun form _ _ => ?_)
      (fun base args hsome hbase hargs => ?_) (fun name => ?_) n
    · exact List.forall_mem_singleton.2 trivial
    · exact Ty.everywhere_generic_iff.2 ⟨hsome, hbase, hargs⟩
    · exact List.forall_mem_singleton.2 rfl

theorem toTy_applied {base : Ty} {args : List TypeNode}
    (hbase : base.kind = .ofClass ∨ base.kind = .primitive) (hargs : args ≠ []) :
    ((ofTy base).applied args).toTy = .generic (ofTy base).toTy (toTyList args) := by
  cases args with
  | nil => exact absurd rfl hargs
  | cons a args =>
      cases base with
      | ofClass c => rfl
      | primitive p => rfl
      | _ => rcases hbase with hbase | hbase <;> cases hbase

theorem toTyList_ofTyList {ts : List Ty}
    (h : ∀ t ∈ ts, (ofTy t).toTy = t.mapClasses ClassTy.written) :
    toTyList (ofTyList ts) = ts.map (Ty.mapClasses ClassTy.written) := by
  rw [toTyList_eq_map, ofTyList_eq_map, List.map_map]
  exact List.map_congr_left h

/-- The node of a type brings back the type with its classes as they are written, if every part of
the type can be written. -/
theorem toTy_ofTy_eq (hwf : t.WellFormed) (h : t.Everywhere Ty.IsExpressible) :
    (ofTy t).toTy = t.mapClasses ClassTy.written := by
  induction t with
  | unknown => rfl
  | nil => rfl
  | void => rfl
  | primitive p => cases p <;> rfl
  | ofClass c =>
      have hname : (Ty.ofBuiltin? c.name).isNone := h.self.2.1
      change (TypeNode.named c.name [] c.isGlobal).toTy = _
      rw [toTy, Option.isNone_iff_eq_none.1 hname]
      rfl
  | array element ih => exact congrArg Ty.array (ih hwf (Ty.everywhere_array_iff.1 h).2)
  | function s ihParams ihReturns ihVarargs =>
      obtain ⟨hwfParams, hwfReturns, hwfVarargs⟩ := Ty.wellFormed_function_iff.1 hwf
      obtain ⟨-, hparams, hreturns, hvarargs⟩ := Ty.everywhere_function_iff.1 h
      obtain ⟨params, returns, varargs, generics, colon⟩ := s
      have hparams' : toTyParams (ofTyParams params) =
          Ty.mapClassesParams ClassTy.written params := by
        rw [toTyParams_eq_map, ofTyParams_eq_map, Ty.mapClassesParams_eq_map, List.map_map]
        exact List.map_congr_left fun p hp =>
          congrArg (p.1, ·) (ihParams p hp (hwfParams p hp) (hparams p hp))
      have hvarargs' : toTyOption (ofTyOption varargs) =
          Ty.mapClassesOption ClassTy.written varargs := by
        cases varargs with
        | none => rfl
        | some v => exact congrArg some (ihVarargs v rfl (hwfVarargs v rfl) (hvarargs v rfl))
      simp only [ofTy, toTy, Ty.mapClasses, hparams', hvarargs', ihReturns hwfReturns hreturns]
  | union members ih =>
      have hwfMembers := (Ty.wellFormedList_iff members).1 hwf.2.2.2
      have heach := toTyList_ofTyList fun m hm =>
        ih m hm (hwfMembers m hm) ((Ty.everywhere_union_iff.1 h).2 m hm)
      have hwfNew := (Ty.wellFormed_mapClasses_iff ClassTy.name_written).2 hwf
      simp only [Ty.mapClasses, Ty.mapClassesList_eq_map] at hwfNew
      simp only [ofTy, toTy, Ty.mapClasses, Ty.mapClassesList_eq_map, heach]
      -- the members are those of a well-formed union, so uniting them drops and moves none
      exact Ty.uniteAll_members hwfNew
  | tuple members ih =>
      have hwfMembers := (Ty.wellFormedList_iff members).1 hwf.2
      have heach := toTyList_ofTyList fun m hm =>
        ih m hm (hwfMembers m hm) ((Ty.everywhere_tuple_iff.1 h).2 m hm)
      simp only [ofTy, toTy, Ty.mapClasses, Ty.mapClassesList_eq_map, heach]
      exact Ty.ofValues_of_two_le (by simpa using hwf.1)
  | generic base args ihBase ihArgs =>
      have hwfArgs := (Ty.wellFormedList_iff args).1 hwf.2
      obtain ⟨⟨hfirm, -, hsome⟩, hbase, hargs⟩ := Ty.everywhere_generic_iff.1 h
      have heach := toTyList_ofTyList fun a ha => ihArgs a ha (hwfArgs a ha) (hargs a ha)
      have hnodes : ofTyList args ≠ [] := by
        rw [ofTyList_eq_map]
        exact mt List.map_eq_nil_iff.1 hsome
      rw [ofTy, toTy_applied hfirm hnodes, ihBase hwf.1 hbase, heach, Ty.mapClasses,
        Ty.mapClassesList_eq_map]
  | param name bound ih =>
      obtain rfl : bound = none := h.self.2.2
      rfl

theorem toTy_ofTy_beq (hwf : t.WellFormed) (h : t.Everywhere Ty.IsExpressible) :
    (ofTy t).toTy == t := by
  rw [toTy_ofTy_eq hwf h]
  exact Ty.mapClasses_beq ClassTy.name_written t

end TypeNode

theorem SymbolIndex.Documented.isRead {ix : SymbolIndex} (h : ix.Documented) :
    ∀ g ∈ ix.groups, ∀ d ∈ g.2, d.ty.IsRead := by
  intro g hg d hd
  obtain ⟨n, hn⟩ := h g hg d hd
  exact hn ▸ n.isRead_toTy

namespace Sources

variable {src : Sources}

theorem keeps_isDocumented (h : src.index.Documented) :
    src.Keeps none (Ty.Everywhere Ty.IsDocumented) :=
  { Ty.ofLeaves_isDocumented.compositional with
    written := fun n t (ht : t = n.toTy) => ht ▸ n.isRead_toTy.documented
    constructor := fun {node _ t} _ (ht : t = .ofClass { form := .tableLiteral node }) =>
      ht ▸ List.forall_mem_singleton.2 trivial
    global := fun _ _ => List.forall_mem_singleton.2 trivial
    member := fun g hg d hd => (h.isRead g hg d hd).documented }

end Sources

/-- The types that an answer gives as text and as node. -/
def Response.types : Response → List Ty
  | .member d => [d.ty]
  | .members _ shown => shown.map MemberDecl.ty
  | .inferred _ _ _ t => [t]
  | .subtype .. => []
  | .union t => [t]

/-- Gives the type of an expression. -/
def Response.isInferred : Response → Bool
  | .inferred .. => true
  | _ => false

theorem Except.bind_eq_ok_iff {ε α β : Type} {x : Except ε α} {f : α → Except ε β} {b : β} :
    (x >>= f) = .ok b ↔ ∃ a, x = .ok a ∧ f a = .ok b := by
  cases x with
  | error e => exact ⟨nofun, fun ⟨_, h, _⟩ => nomatch h⟩
  | ok a => exact ⟨fun h => ⟨a, rfl, h⟩, fun ⟨_, ha, h⟩ => Except.ok.inj ha ▸ h⟩

theorem Except.forall₂_of_mapM_eq_ok {ε α β : Type} {f : α → Except ε β} {as : List α}
    {bs : List β} (h : as.mapM f = .ok bs) : List.Forall₂ (fun a b => f a = .ok b) as bs := by
  induction as generalizing bs with
  | nil =>
      obtain rfl := Except.ok.inj h
      exact .nil
  | cons a as ih =>
      rw [List.mapM_cons] at h
      obtain ⟨b, hb, h⟩ := Except.bind_eq_ok_iff.1 h
      obtain ⟨bs, hbs, h⟩ := Except.bind_eq_ok_iff.1 h
      obtain rfl := Except.ok.inj h
      exact .cons hb (ih hbs)

namespace Command

variable {readFile : String → Option String} {settings : Settings}

theorem documented_of_loadIndex {path : String} {ix : SymbolIndex}
    (h : loadIndex readFile path = .ok ix) : ix.Documented := by
  obtain ⟨text, -, h⟩ := Except.bind_eq_ok_iff.1 h
  obtain ⟨f, -, hfile⟩ := Except.bind_eq_ok_iff.1 h
  exact SymbolIndex.documented_of_ofFile hfile

theorem isRead_of_parse {text : String} {t : Ty} (h : Ty.parse text = .ok t) : t.IsRead := by
  unfold Ty.parse at h
  cases hnode : TypeNode.decode.parse text with
  | error e =>
      rw [hnode] at h
      cases h
  | ok n =>
      rw [hnode] at h
      obtain rfl := Except.ok.inj h
      exact n.isRead_toTy

theorem exists_group_of_find {mode : SearchMode} {ix : SymbolIndex} {className memberName : String}
    {ctx : SearchContext} {d : MemberDecl} (h : mode.find ix className memberName ctx = some d) :
    ∃ g ∈ ix.groups, d ∈ g.2 := by
  cases mode with
  | deep =>
      obtain ⟨name, members, hgroup, hd⟩ := SymbolIndex.exists_group_of_search h
      exact ⟨_, hgroup, hd⟩
  | method =>
      obtain ⟨name, members, hgroup, hd⟩ := SymbolIndex.exists_group_of_search h
      exact ⟨_, hgroup, hd⟩
  | shallow =>
      change ix.findShallow className memberName ctx = some d at h
      unfold SymbolIndex.findShallow at h
      split at h
      next => cases h
      next =>
        obtain ⟨members, hgroup, hd⟩ :=
          SymbolIndex.exists_group_of_mem (SymbolIndex.mem_of_probe h).1
        exact ⟨_, hgroup, hd⟩

theorem inferred_of_run {index : Option String} {chunk : String} {node position : Nat}
    {allValues : Bool} {answer : Response}
    (h : (infer index chunk node position allValues).run readFile settings = .ok answer) :
    ∃ position t, answer = .inferred node position allValues t ∧ t.WellFormed ∧
      t.Everywhere Ty.IsDocumented := by
  obtain ⟨ix, hix, h⟩ := Except.bind_eq_ok_iff.1 h
  obtain ⟨chunk, -, h⟩ := Except.bind_eq_ok_iff.1 h
  have hindex : ix.Documented := by
    cases index with
    | none => exact Except.ok.inj hix ▸ SymbolIndex.documented_empty
    | some path => exact documented_of_loadIndex hix
  dsimp only at h
  by_cases hrange : chunk.nodes.length ≤ node
  · rw [if_pos hrange] at h
    cases h
  · rw [if_neg hrange] at h
    refine ⟨_, _, (Except.ok.inj h).symm, ?_, ?_⟩
    · exact (Sources.keeps_wellFormed hindex.wellFormed none).inferAlone settings.maxDepth node _
    · exact (Sources.keeps_isDocumented hindex).inferAlone settings.maxDepth node _

/-- The types in an answer are read from documents, unless it is what an inference answers. -/
theorem isRead_or_inferred_of_run {c : Command} {answer : Response}
    (h : c.run readFile settings = .ok answer) :
    (∀ t ∈ answer.types, t.IsRead) ∨
      ∃ node position allValues t, answer = .inferred node position allValues t ∧
        t.WellFormed ∧ t.Everywhere Ty.IsDocumented := by
  cases c with
  | resolve index className memberName mode =>
      obtain ⟨ix, hix, h⟩ := Except.bind_eq_ok_iff.1 h
      split at h
      next d hd =>
        obtain rfl := Except.ok.inj h
        obtain ⟨g, hg, hmem⟩ := exists_group_of_find hd
        have hread := (documented_of_loadIndex hix).isRead g hg d hmem
        exact .inl (List.forall_mem_singleton.2 hread)
      next => cases h
  | members index className =>
      obtain ⟨ix, hix, h⟩ := Except.bind_eq_ok_iff.1 h
      obtain rfl := Except.ok.inj h
      have hread := (documented_of_loadIndex hix).isRead
      exact .inl (List.forall_mem_map.2 (SymbolIndex.forall_mem_membersOf fun name _ =>
        SymbolIndex.forall_mem_lookup hread name))
  | infer index chunk node position allValues =>
      obtain ⟨position, t, ht⟩ := inferred_of_run h
      exact .inr ⟨node, position, allValues, t, ht⟩
  | subtype sub sup index =>
      obtain ⟨sub, -, h⟩ := Except.bind_eq_ok_iff.1 h
      obtain ⟨sup, -, h⟩ := Except.bind_eq_ok_iff.1 h
      cases index with
      | none =>
          obtain rfl := Except.ok.inj h
          exact .inl fun _ ht => absurd ht List.not_mem_nil
      | some path =>
          obtain ⟨ix, -, h⟩ := Except.bind_eq_ok_iff.1 h
          obtain rfl := Except.ok.inj h
          exact .inl fun _ ht => absurd ht List.not_mem_nil
  | union types =>
      obtain ⟨parsed, hparsed, h⟩ := Except.bind_eq_ok_iff.1 h
      obtain rfl := Except.ok.inj h
      refine .inl (List.forall_mem_singleton.2 (Ty.isRead_uniteAll fun t ht => ?_))
      obtain ⟨text, -, hparse⟩ := exists_left_of_forall₂ (Except.forall₂_of_mapM_eq_ok hparsed) ht
      exact isRead_of_parse hparse

/-- Nothing is lost in the node of a type that is read from a document, if its arguments stand on
classes and primitive types; nor in the nodes of an answer, if besides no class in an inferred type
goes by the name of a built-in type. -/
theorem node_rebuilds_type :
    (∀ n : TypeNode, n.toTy.Everywhere Ty.HasNamedBase →
      (TypeNode.ofTy n.toTy).toTy == n.toTy) ∧
    ∀ (readFile : String → Option String) (settings : Settings) (c : Command)
      (answer : Response), c.run readFile settings = .ok answer → ∀ t ∈ answer.types,
        t.Everywhere Ty.HasNamedBase → (answer.isInferred → t.Everywhere Ty.HasOwnName) →
          (TypeNode.ofTy t).toTy == t := by
  have hread : ∀ t : Ty, t.IsRead → t.Everywhere Ty.HasNamedBase → (TypeNode.ofTy t).toTy == t :=
    fun t ht hbase => TypeNode.toTy_ofTy_beq ht.wellFormed (hbase.and (ht.named.and ht.documented))
  constructor
  · exact fun n => hread n.toTy n.isRead_toTy
  · intro readFile settings c answer hrun t ht hbase hinferred
    rcases isRead_or_inferred_of_run hrun with hanswer | ⟨_, _, _, u, rfl, hwf, hdocumented⟩
    · exact hread t (hanswer t ht) hbase
    · obtain rfl := List.mem_singleton.1 ht
      exact TypeNode.toTy_ofTy_beq hwf (hbase.and ((hinferred rfl).and hdocumented))

theorem node_rebuilds_type_of_list :
    let n : TypeNode := .named "List" [.nil] false
    let chunk := "[[[\"name\",\"a\"]],[[[\"a\"],[],[[\"named\",\"List\",[[\"nil\"]]]]]]]"
    (n.toTy.Everywhere Ty.HasNamedBase ∧ (TypeNode.ofTy n.toTy).toTy == n.toTy) ∧
    ∃ answer, (infer none "chunk" 0 0 false).run (fun _ => some chunk) {} = .ok answer ∧
      ∃ t ∈ answer.types, t == .generic (.named "List") [.nil] ∧
        t.Everywhere Ty.HasNamedBase ∧ t.Everywhere Ty.HasOwnName ∧
          (TypeNode.ofTy t).toTy == t := by
  intro n chunk
  have hnode : n.toTy.Everywhere Ty.HasNamedBase := by decide
  refine ⟨⟨hnode, node_rebuilds_type.1 n hnode⟩, ?_⟩
  have hanswer : (match (infer none "chunk" 0 0 false).run (fun _ => some chunk) {} with
      | .error _ => false
      | .ok answer => answer.types.any fun t => t == .generic (.named "List") [.nil] &&
          decide (t.Everywhere Ty.HasNamedBase) && decide (t.Everywhere Ty.HasOwnName)) = true := by
    decide +kernel
  cases hrun : (infer none "chunk" 0 0 false).run (fun _ => some chunk) {} with
  | error e =>
      rw [hrun] at hanswer
      cases hanswer
  | ok answer =>
      rw [hrun, List.any_eq_true] at hanswer
      obtain ⟨t, ht, hpart⟩ := hanswer
      simp only [Bool.and_eq_true, decide_eq_true_eq] at hpart
      obtain ⟨⟨hlist, hbase⟩, hname⟩ := hpart
      exact ⟨answer, rfl, t, ht, hlist, hbase, hname,
        node_rebuilds_type.2 _ _ _ answer hrun t ht hbase fun _ => hname⟩

/-- The arguments on the unknown type are lost, and those on an array that took the place of
`self`; a class that a chunk names as a global comes back as the built-in of its name. -/
theorem node_loses_type :
    let n : TypeNode := .named "any" [.nil] false
    let src : Sources :=
      { chunk :=
        { nodes := [.ident "a", .ident "f", .call 1 [0] false]
          bindings :=
            [{ names := ["a"], docTypes := [some (.array .nil)] },
              { names := ["f"]
                docTypes := [some (.function
                  { params := [], returns := .named "self" [.nil] false, colon := true })] }] } }
    let applied := (src.inferAlone 64 2 {}).1
    let library : Sources :=
      { chunk := { nodes := [.ident "string"] }, index := { classes := [.named "string"] } }
    let named := (library.inferAlone 64 0 {}).1
    ((TypeNode.ofTy n.toTy).toTy == n.toTy) = false ∧
      (applied == .generic (.array .nil) [.nil] ∧
        ((TypeNode.ofTy applied).toTy == applied) = false) ∧
      named == .named "string" ∧ ((TypeNode.ofTy named).toTy == named) = false := by
  decide +kernel

end Command

end LuaTypes
