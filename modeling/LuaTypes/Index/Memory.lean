import LuaTypes.Index.Declaration
import LuaTypes.Index.MemberKey

/-!
An index of declarations. Members are grouped by class and keep the order in which they were added;
of the declarations of one class the latest counts. While an index is dumb, which is while it is
being rebuilt, it answers as if it held nothing, and forgets nothing.
-/

namespace LuaTypes

/-- Classes, the latest declaration first, and members grouped by the class they are declared on. -/
structure SymbolIndex where
  classes : List ClassDecl := []
  groups : List (String × List MemberDecl) := []
  dumb : Bool := false

namespace SymbolIndex

/-- Declares a class in the place of an earlier declaration of it. -/
def addClass (ix : SymbolIndex) (d : ClassDecl) : SymbolIndex :=
  { ix with classes := d :: ix.classes.filter (·.name ≠ d.name) }

/-- Appends a member to the group of its class, which is begun if there is none. -/
def insertMember (d : MemberDecl) :
    List (String × List MemberDecl) → List (String × List MemberDecl)
  | [] => [(d.className, [d])]
  | (className, group) :: rest =>
      if className = d.className then (className, group ++ [d]) :: rest
      else (className, group) :: insertMember d rest

/-- Adds a member, unless its names make no key. -/
def addMember (ix : SymbolIndex) (d : MemberDecl) : Except Error SymbolIndex := do
  let _ ← MemberKey.ofParts d.className d.name
  return { ix with groups := insertMember d ix.groups }

/-- How many classes are declared, dumb or not. -/
def classCount (ix : SymbolIndex) : Nat :=
  ix.classes.length

/-- How many members are declared, dumb or not. -/
def memberCount (ix : SymbolIndex) : Nat :=
  ix.groups.foldl (fun n g => n + g.2.length) 0

/-- The members of a class that a scope shows, in the order in which they were added. -/
def group (ix : SymbolIndex) (className : String) (scope : SearchScope) : List MemberDecl :=
  if ix.dumb then []
  else ((ix.groups.lookup className).getD []).filter fun d => scope.contains d.file

/-- The members under a key that a scope shows. -/
def membersAt (ix : SymbolIndex) (key : MemberKey) (scope : SearchScope) : List MemberDecl :=
  (ix.group key.className scope).filter (·.name = key.memberName)

/-- The members under a text: those of a class if the text is a class name, those of one name if it
is a member key, and none if it is neither. -/
def lookup (ix : SymbolIndex) (key : String) (scope : SearchScope) : List MemberDecl :=
  if '*' ∈ key.toList then
    match MemberKey.parse key with
    | .ok key => ix.membersAt key scope
    | .error _ => []
  else ix.group key scope

/-- The declaration of a class. -/
def declaration? (ix : SymbolIndex) (className : String) : Option ClassDecl :=
  if ix.dumb then none else ix.classes.find? (·.name = className)

/-- The links of a class as the index knows them. A class without a declaration has none. While the
index is dumb they cannot be told. -/
def linksOf? (ix : SymbolIndex) (className : String) : Option ClassLinks :=
  if ix.dumb then none
  else some ((ix.declaration? className).elim {} ClassDecl.toClassLinks)

/-- How many class declarations a search has yet to visit. -/
def unvisited (ix : SymbolIndex) (visited : List String) : Nat :=
  ix.classes.countP fun d => !visited.contains d.name

theorem countP_lt_of_mem {α : Type} {p q : α → Bool} {l : List α} (h : ∀ x ∈ l, p x → q x)
    {a : α} (ha : a ∈ l) (hq : q a) (hp : ¬ p a) : l.countP p < l.countP q := by
  induction l with
  | nil => cases ha
  | cons x l ih =>
      have hl : l.countP p ≤ l.countP q :=
        List.countP_mono_left fun y hy => h y (List.mem_cons_of_mem x hy)
      have hx := h x List.mem_cons_self
      rcases List.mem_cons.1 ha with rfl | ha
      · simp only [List.countP_cons, hq, hp]
        simp
        omega
      · have hlt := ih (fun y hy => h y (List.mem_cons_of_mem x hy)) ha
        simp only [List.countP_cons]
        by_cases hpx : p x
        · simp [hpx, hx hpx]
          omega
        · simp [hpx]
          omega

theorem mem_classes_of_declaration? {ix : SymbolIndex} {name : String} {d : ClassDecl}
    (h : ix.declaration? name = some d) : d ∈ ix.classes ∧ d.name = name := by
  unfold declaration? at h
  split at h
  · cases h
  · exact ⟨List.mem_of_find?_eq_some h, by simpa using List.find?_some h⟩

theorem unvisited_lt {ix : SymbolIndex} {name : String} {d : ClassDecl} {visited : List String}
    (h : ix.declaration? name = some d) (hnew : name ∉ visited) :
    ix.unvisited (name :: visited) < ix.unvisited visited := by
  obtain ⟨hd, rfl⟩ := mem_classes_of_declaration? h
  refine countP_lt_of_mem (fun e _ he => ?_) hd (by simpa using hnew) (by simp)
  simp_all

end SymbolIndex

end LuaTypes
