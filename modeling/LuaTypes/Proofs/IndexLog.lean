import LuaTypes.Proofs.MemberListing

/-!
An index as a log of the changes made to it. What it answers while it is available is what the log
says: the accepted members in the order in which they came, and of the declarations of a class the
latest. While it is dumb it answers nothing, and once it is available again it answers as if it had
always been.
-/

namespace LuaTypes

inductive IndexChange where
  | addClass (d : ClassDecl)
  | addMember (d : MemberDecl)
  | setDumb (dumb : Bool)

namespace IndexChange

/-- The members that a log adds, without those whose names make no key. -/
def acceptedMembers (log : List IndexChange) : List MemberDecl :=
  log.filterMap fun
    | .addMember d => if MemberKey.WellFormed d.className d.name then some d else none
    | _ => none

def declaredClasses (log : List IndexChange) : List ClassDecl :=
  log.filterMap fun
    | .addClass d => some d
    | _ => none

/-- Whether a log leaves the index dumb. It is not dumb at first. -/
def leavesDumb (log : List IndexChange) : Bool :=
  (log.filterMap fun
    | .setDumb dumb => some dumb
    | _ => none).getLast?.getD false

def isDeclaration : IndexChange → Bool
  | .setDumb _ => false
  | _ => true

end IndexChange

open IndexChange

namespace SymbolIndex

/-- A rejected member changes nothing. -/
def change (ix : SymbolIndex) : IndexChange → SymbolIndex
  | .addClass d => ix.addClass d
  | .addMember d => (ix.addMember d).toOption.getD ix
  | .setDumb dumb => { ix with dumb }

/-- The index that a log of changes leads to. -/
def afterLog (log : List IndexChange) : SymbolIndex :=
  log.foldl change {}

/-- What an index holds is what a log says. -/
structure Records (ix : SymbolIndex) (log : List IndexChange) : Prop where
  dumb : ix.dumb = leavesDumb log
  members : ∀ className, (ix.groups.lookup className).getD [] =
    (acceptedMembers log).filter (·.className = className)
  classes : ∀ name, ix.classes.find? (·.name = name) =
    (declaredClasses log).reverse.find? (·.name = name)
  count : ix.memberCount = (acceptedMembers log).length

theorem afterLog_concat (log : List IndexChange) (c : IndexChange) :
    afterLog (log ++ [c]) = (afterLog log).change c :=
  List.foldl_concat ..

theorem change_addMember_of_wellFormed {ix : SymbolIndex} {d : MemberDecl}
    (h : MemberKey.WellFormed d.className d.name) :
    ix.change (.addMember d) = { ix with groups := insertMember d ix.groups } := by
  rw [change, addMember_of_wellFormed h]
  rfl

theorem addMember_of_malformed {ix : SymbolIndex} {d : MemberDecl}
    (h : ¬ MemberKey.WellFormed d.className d.name) : ∃ e, ix.addMember d = .error e := by
  obtain ⟨e, he⟩ := MemberKey.ofParts_of_malformed h
  exact ⟨e, by rw [addMember, he]; rfl⟩

theorem change_addMember_of_malformed {ix : SymbolIndex} {d : MemberDecl}
    (h : ¬ MemberKey.WellFormed d.className d.name) : ix.change (.addMember d) = ix := by
  obtain ⟨e, he⟩ : ∃ e, ix.addMember d = .error e := addMember_of_malformed h
  rw [change, he]
  rfl

section Groups

variable (d : MemberDecl) (groups : List (String × List MemberDecl))

theorem lookup_insertMember (className : String) :
    ((insertMember d groups).lookup className).getD [] =
      (groups.lookup className).getD [] ++ if d.className = className then [d] else [] := by
  induction groups with
  | nil =>
      by_cases h : d.className = className
      · simp [insertMember, h]
      · have hbeq : (className == d.className) = false := beq_false_of_ne (Ne.symm h)
        simp [insertMember, List.lookup_cons, h, hbeq]
  | cons g groups ih =>
      obtain ⟨name, group⟩ := g
      rw [insertMember]
      by_cases hname : className = name
      · subst hname
        by_cases h : className = d.className
        · simp [h]
        · simp [h, Ne.symm h]
      · have hbeq : (className == name) = false := beq_false_of_ne hname
        by_cases h : name = d.className
        · subst h
          simp [List.lookup_cons, hbeq, Ne.symm hname]
        · simp only [if_neg h, List.lookup_cons, hbeq]
          exact ih

theorem foldl_length_succ (start : Nat) :
    groups.foldl (fun n g => n + g.2.length) (start + 1) =
      groups.foldl (fun n g => n + g.2.length) start + 1 := by
  induction groups generalizing start with
  | nil => rfl
  | cons g groups ih => rw [List.foldl_cons, List.foldl_cons, Nat.add_right_comm, ih]

theorem foldl_length_insertMember (start : Nat) :
    (insertMember d groups).foldl (fun n g => n + g.2.length) start =
      groups.foldl (fun n g => n + g.2.length) start + 1 := by
  induction groups generalizing start with
  | nil => rfl
  | cons g groups ih =>
      rw [insertMember]
      split
      · rw [List.foldl_cons, List.length_append]
        exact foldl_length_succ groups (start + g.2.length)
      · exact ih (start + g.2.length)

end Groups

section Steps

variable {ix : SymbolIndex} {log : List IndexChange} (h : ix.Records log)

include h

theorem Records.addClass (d : ClassDecl) : (ix.addClass d).Records (log ++ [.addClass d]) where
  dumb := by simpa [leavesDumb, SymbolIndex.addClass] using h.dumb
  members := by simpa [acceptedMembers, SymbolIndex.addClass] using h.members
  classes := by
    intro name
    have hold := h.classes name
    simp only [declaredClasses, List.filterMap_append, List.reverse_append] at hold ⊢
    by_cases hname : d.name = name
    · simp [SymbolIndex.addClass, hname]
    · have hkept : ∀ e : ClassDecl, (e.name ≠ d.name ∧ e.name = name) ↔ e.name = name := by
        intro e
        exact ⟨And.right, fun he => ⟨fun heq => hname (heq.symm.trans he), he⟩⟩
      simp [SymbolIndex.addClass, hname, List.find?_filter, hkept, hold]
  count := by simpa [acceptedMembers, SymbolIndex.addClass, memberCount] using h.count

theorem Records.insertMember {d : MemberDecl} (hd : MemberKey.WellFormed d.className d.name) :
    Records { ix with groups := SymbolIndex.insertMember d ix.groups } (log ++ [.addMember d]) where
  dumb := by simpa [leavesDumb] using h.dumb
  members := by
    intro className
    have hnew : acceptedMembers (log ++ [.addMember d]) = acceptedMembers log ++ [d] := by
      simp [acceptedMembers, hd]
    rw [lookup_insertMember, h.members, hnew, List.filter_append]
    simp [List.filter_cons]
  classes := by simpa [declaredClasses] using h.classes
  count := by
    have hcount := h.count
    rw [memberCount] at hcount ⊢
    rw [foldl_length_insertMember, hcount]
    simp [acceptedMembers, hd]

theorem Records.reject {d : MemberDecl} (hd : ¬ MemberKey.WellFormed d.className d.name) :
    ix.Records (log ++ [.addMember d]) where
  dumb := by simpa [leavesDumb] using h.dumb
  members := by simpa [acceptedMembers, hd] using h.members
  classes := by simpa [declaredClasses] using h.classes
  count := by simpa [acceptedMembers, hd] using h.count

theorem Records.setDumb (dumb : Bool) : Records { ix with dumb } (log ++ [.setDumb dumb]) where
  dumb := by simp [leavesDumb]
  members := by simpa [acceptedMembers] using h.members
  classes := by simpa [declaredClasses] using h.classes
  count := by simpa [acceptedMembers, memberCount] using h.count

/-- One change more is one entry more in the log. -/
theorem Records.change (c : IndexChange) : (ix.change c).Records (log ++ [c]) := by
  cases c with
  | addClass d => exact h.addClass d
  | addMember d =>
      by_cases hd : MemberKey.WellFormed d.className d.name
      · rw [change_addMember_of_wellFormed hd]
        exact h.insertMember hd
      · rw [change_addMember_of_malformed hd]
        exact h.reject hd
  | setDumb dumb => exact h.setDumb dumb

end Steps

theorem records_afterLog (log : List IndexChange) : (afterLog log).Records log := by
  induction log using List.reverseRecOn with
  | nil => exact ⟨rfl, fun _ => rfl, fun _ => rfl, rfl⟩
  | append_singleton log c ih =>
      rw [afterLog_concat]
      exact ih.change c

theorem Records.group_eq {ix : SymbolIndex} {log : List IndexChange} (h : ix.Records log)
    (havailable : leavesDumb log = false) (className : String) (scope : SearchScope) :
    ix.group className scope =
      (acceptedMembers log).filter fun d => scope.contains d.file && d.className = className := by
  rw [group, h.dumb, havailable, h.members, List.filter_filter]
  rfl

theorem change_dumb (ix : SymbolIndex) {c : IndexChange} (h : c.isDeclaration = true)
    (dumb : Bool) : ({ ix with dumb } : SymbolIndex).change c = { ix.change c with dumb } := by
  cases c with
  | addClass d => rfl
  | addMember d =>
      by_cases hd : MemberKey.WellFormed d.className d.name
      · rw [change_addMember_of_wellFormed hd, change_addMember_of_wellFormed hd]
      · rw [change_addMember_of_malformed hd, change_addMember_of_malformed hd]
  | setDumb dumb => cases h

theorem afterLog_available (log : List IndexChange) :
    ({ afterLog log with dumb := false } : SymbolIndex) = afterLog (log.filter isDeclaration) := by
  induction log using List.reverseRecOn with
  | nil => rfl
  | append_singleton log c ih =>
      rw [afterLog_concat, List.filter_append]
      by_cases hc : c.isDeclaration = true
      · rw [← change_dumb _ hc, ih, List.filter_cons_of_pos hc, List.filter_nil, afterLog_concat]
      · rw [List.filter_cons_of_neg hc, List.filter_nil, List.append_nil, ← ih]
        cases c with
        | setDumb dumb => rfl
        | addClass d => exact absurd rfl hc
        | addMember d => exact absurd rfl hc

theorem afterLog_of_rejected {d : MemberDecl} (h : ¬ MemberKey.WellFormed d.className d.name)
    (log more : List IndexChange) :
    afterLog (log ++ .addMember d :: more) = afterLog (log ++ more) := by
  rw [afterLog, List.foldl_append, List.foldl_cons, change_addMember_of_malformed h,
    ← List.foldl_append]
  rfl

section Lookup

variable {ix : SymbolIndex} {log : List IndexChange} (h : ix.Records log)
  (havailable : leavesDumb log = false)

include h havailable

theorem Records.lookup_className {key : String} (hkey : '*' ∉ key.toList) (scope : SearchScope) :
    ix.lookup key scope =
      (acceptedMembers log).filter fun d => scope.contains d.file && d.className = key := by
  rw [lookup, if_neg hkey, h.group_eq havailable]

theorem Records.lookup_key {className memberName : String}
    (hkey : MemberKey.WellFormed className memberName) (scope : SearchScope) :
    ix.lookup (MemberKey.joined className memberName) scope =
      (acceptedMembers log).filter fun d =>
        scope.contains d.file && (d.className = className && d.name = memberName) := by
  have hstar : '*' ∈ (MemberKey.joined className memberName).toList := by simp [MemberKey.joined]
  rw [lookup, if_pos hstar, MemberKey.parse_joined hkey, MemberKey.ofParts_of_wellFormed hkey]
  change (ix.group className scope).filter _ = _
  rw [h.group_eq havailable, List.filter_filter]
  refine List.filter_congr fun d _ => ?_
  rw [Bool.and_comm, Bool.and_assoc]

omit h havailable in
theorem lookup_malformed {key : String} (hstar : '*' ∈ key.toList)
    (hkey : ∀ className memberName, MemberKey.WellFormed className memberName →
      key ≠ MemberKey.joined className memberName) (scope : SearchScope) :
    ix.lookup key scope = [] := by
  rw [lookup, if_pos hstar]
  split
  next k hparse => exact absurd (MemberKey.toString_of_parse hparse).symm (hkey _ _ k.wellFormed)
  next => rfl

theorem Records.declaration_eq (name : String) :
    ix.declaration? name = (declaredClasses log).reverse.find? (·.name = name) := by
  rw [declaration?, h.dumb, havailable, ← h.classes]
  rfl

end Lookup

theorem lookup_of_dumb {ix : SymbolIndex} (h : ix.dumb = true) (key : String)
    (scope : SearchScope) : ix.lookup key scope = [] := by
  have hgroup : ∀ className, ix.group className scope = [] := fun className => by
    rw [group, if_pos h]
  unfold lookup
  split
  · split
    · rw [membersAt, hgroup, List.filter_nil]
    · rfl
  · exact hgroup key

/-- What an index answers is what the log of its changes says: while it is available, the accepted
members of a class or under a key in the order in which they came, and the latest declaration of a
class; while it is dumb, nothing. Being dumb makes it forget nothing, and a rejected member leaves
no trace. -/
theorem answers_follow_log (log : List IndexChange) :
    let ix := afterLog log
    ix.dumb = leavesDumb log ∧ ix.memberCount = (acceptedMembers log).length ∧
    (leavesDumb log = false →
      (∀ key scope, '*' ∉ key.toList →
        ix.lookup key scope =
          (acceptedMembers log).filter fun d => scope.contains d.file && d.className = key) ∧
      (∀ className memberName scope, MemberKey.WellFormed className memberName →
        ix.lookup (MemberKey.joined className memberName) scope =
          (acceptedMembers log).filter fun d =>
            scope.contains d.file && (d.className = className && d.name = memberName)) ∧
      (∀ key scope, '*' ∈ key.toList →
        (∀ className memberName, MemberKey.WellFormed className memberName →
          key ≠ MemberKey.joined className memberName) → ix.lookup key scope = []) ∧
      ∀ name, ix.declaration? name = (declaredClasses log).reverse.find? (·.name = name)) ∧
    (leavesDumb log = true →
      (∀ key scope, ix.lookup key scope = []) ∧ ∀ name, ix.declaration? name = none) ∧
    afterLog (log ++ [.setDumb false]) = afterLog (log.filter isDeclaration) ∧
    ∀ d, if MemberKey.WellFormed d.className d.name then
        ix.addMember d = .ok (afterLog (log ++ [.addMember d]))
      else (∃ e, ix.addMember d = .error e) ∧
        ∀ more, afterLog (log ++ .addMember d :: more) = afterLog (log ++ more) := by
  intro ix
  have h : ix.Records log := records_afterLog log
  refine ⟨h.dumb, h.count, fun havailable => ⟨fun key scope hkey => ?_, fun c m scope hkey => ?_,
    fun key scope hstar hkey => lookup_malformed hstar hkey scope, ?_⟩, fun hdumb => ?_, ?_,
    fun d => ?_⟩
  · exact h.lookup_className havailable hkey scope
  · exact h.lookup_key havailable hkey scope
  · exact h.declaration_eq havailable
  · have hix := h.dumb.trans hdumb
    exact ⟨fun key scope => lookup_of_dumb hix key scope, fun name => if_pos hix⟩
  · rw [afterLog_concat]
    exact afterLog_available log
  · split
    next hd =>
      rw [afterLog_concat, change_addMember_of_wellFormed hd]
      exact addMember_of_wellFormed hd
    next hd => exact ⟨addMember_of_malformed hd, afterLog_of_rejected hd log⟩

theorem answers_follow_log_after_rebuilding :
    let member : String → MemberDecl := fun name =>
      { className := "A", name, kind := .method, ty := .nil }
    let log : List IndexChange :=
      [.addClass (.named "A"), .addMember (member "x"), .setDumb true, .addMember (member "y*"),
        .addMember (member "y"), .addClass { name := "A", superClass := some "B" },
        .setDumb false, .addMember (member "x")]
    (leavesDumb log = false ∧ '*' ∉ "A".toList ∧ MemberKey.WellFormed "A" "x" ∧
      '*' ∈ "A*".toList ∧ ∀ className memberName, MemberKey.WellFormed className memberName →
        "A*" ≠ MemberKey.joined className memberName) ∧
    (afterLog log).memberCount = 3 ∧
    (afterLog log).lookup "A" .all = [member "x", member "y", member "x"] ∧
    (afterLog log).lookup (MemberKey.joined "A" "x") .all = [member "x", member "x"] ∧
    (afterLog log).lookup "A*" .all = [] ∧
    (afterLog log).declaration? "A" = some { name := "A", superClass := some "B" } := by
  intro member log
  have hbare : ∀ className memberName, MemberKey.WellFormed className memberName →
      "A*" ≠ MemberKey.joined className memberName := by
    intro className memberName hkey heq
    have hparse := MemberKey.parse_joined hkey
    rw [← heq, MemberKey.ofParts_of_wellFormed hkey] at hparse
    have hfault : (MemberKey.parse "A*").toOption.isNone := by decide
    rw [hparse] at hfault
    cases hfault
  have hx : MemberKey.WellFormed "A" "x" := by decide
  have hy : MemberKey.WellFormed "A" "y" := by decide
  have hrejected : ¬ MemberKey.WellFormed "A" "y*" := by decide
  have haccepted : acceptedMembers log = [member "x", member "y", member "x"] := by
    simp [acceptedMembers, log, member, hx, hy, hrejected]
  have h := answers_follow_log log
  rw [haccepted] at h
  obtain ⟨hclass, hkey, hmalformed, hdecl⟩ := h.2.2.1 rfl
  exact ⟨⟨rfl, by decide, hx, by decide, hbare⟩, h.2.1, hclass "A" .all (by decide),
    hkey "A" "x" .all hx, hmalformed "A*" .all (by decide) hbare, hdecl "A"⟩

end SymbolIndex

end LuaTypes
