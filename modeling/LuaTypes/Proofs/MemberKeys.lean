import LuaTypes.Index.MemberKey
import Mathlib.Data.List.Basic
import Mathlib.Tactic.SplitIfs

namespace LuaTypes

/-- Two names make a key: both are there, and neither holds the separator. -/
def MemberKey.WellFormed (className memberName : String) : Prop :=
  className ≠ "" ∧ memberName ≠ "" ∧ '*' ∉ className.toList ∧ '*' ∉ memberName.toList

instance (className memberName : String) :
    Decidable (MemberKey.WellFormed className memberName) :=
  inferInstanceAs (Decidable (_ ∧ _))

theorem KeyFault.ofParts?_eq_none_iff {className memberName : String} :
    KeyFault.ofParts? className memberName = none ↔
      MemberKey.WellFormed className memberName := by
  unfold KeyFault.ofParts? MemberKey.WellFormed
  split_ifs <;> simp_all

namespace MemberKey

/-- A text has one separator, and text on both sides of it. -/
def IsSeparated (key : String) : Prop :=
  key.toList.count '*' = 1 ∧ key.toList.head? ≠ some '*' ∧ key.toList.getLast? ≠ some '*'

instance (key : String) : Decidable (IsSeparated key) :=
  inferInstanceAs (Decidable (_ ∧ _))

variable {className memberName : String} {k : MemberKey}

theorem wellFormed (k : MemberKey) : WellFormed k.className k.memberName :=
  KeyFault.ofParts?_eq_none_iff.1 k.faultless

@[simp] theorem toList_joined (className memberName : String) :
    (joined className memberName).toList = className.toList ++ '*' :: memberName.toList := by
  simp [joined]

theorem ofParts_of_wellFormed (h : WellFormed className memberName) :
    ofParts className memberName =
      .ok ⟨className, memberName, KeyFault.ofParts?_eq_none_iff.2 h⟩ := by
  have hfault := KeyFault.ofParts?_eq_none_iff.2 h
  unfold ofParts
  split
  · next fault hsome => simp [hfault] at hsome
  · rfl

theorem ofParts_of_malformed (h : ¬ WellFormed className memberName) :
    ∃ e, ofParts className memberName = .error e := by
  unfold ofParts
  split
  · exact ⟨_, rfl⟩
  · next hnone => exact absurd (KeyFault.ofParts?_eq_none_iff.1 hnone) h

theorem eq_of_ofParts (h : ofParts className memberName = .ok k) :
    k.className = className ∧ k.memberName = memberName := by
  unfold ofParts at h
  split at h
  · cases h
  · cases h
    exact ⟨rfl, rfl⟩

theorem exists_ofParts_iff :
    (∃ k, ofParts className memberName = .ok k) ↔ WellFormed className memberName := by
  constructor
  · rintro ⟨k, hk⟩
    obtain ⟨rfl, rfl⟩ := eq_of_ofParts hk
    exact k.wellFormed
  · intro h
    exact ⟨_, ofParts_of_wellFormed h⟩

theorem parse_joined (h : WellFormed className memberName) :
    parse (joined className memberName) = ofParts className memberName := by
  have hclass : ∀ c ∈ className.toList, decide (c ≠ '*') = true := by
    intro c hc
    refine decide_eq_true fun heq => h.2.2.1 ?_
    rwa [← heq]
  have hrest : (joined className memberName).toList.dropWhile (· ≠ '*') =
      '*' :: memberName.toList := by
    rw [toList_joined, List.dropWhile_append_of_pos hclass]
    simp
  have hfirst : (joined className memberName).toList.takeWhile (· ≠ '*') = className.toList := by
    rw [toList_joined, List.takeWhile_append_of_pos hclass]
    simp
  rw [parse, hrest, hfirst]
  simp

theorem parse_toString (k : MemberKey) : parse k.toString = .ok k := by
  rw [toString, parse_joined k.wellFormed, ofParts_of_wellFormed k.wellFormed]

theorem toString_of_parse {key : String} (h : parse key = .ok k) : k.toString = key := by
  unfold parse at h
  split at h
  · cases h
  next first memberName hdrop =>
    obtain ⟨hclass, hmember⟩ := eq_of_ofParts h
    have hfirst : first = '*' := by
      have hhead := List.head?_dropWhile_not (· ≠ '*') key.toList
      rw [hdrop] at hhead
      simpa using hhead
    have htext := List.takeWhile_append_dropWhile (p := (· ≠ '*')) (l := key.toList)
    rw [hdrop, hfirst] at htext
    rw [toString, joined, hclass, hmember]
    exact String.toList_inj.1 (by simpa using htext)

theorem isSeparated_joined (h : WellFormed className memberName) :
    IsSeparated (joined className memberName) := by
  obtain ⟨hclass, hmember, hfirst, hrest⟩ := h
  have hclass' : className.toList ≠ [] := mt String.toList_eq_nil_iff.1 hclass
  have hmember' : memberName.toList ≠ [] := mt String.toList_eq_nil_iff.1 hmember
  rw [IsSeparated, toList_joined]
  refine ⟨?_, fun hhead => hfirst ?_, fun hlast => hrest ?_⟩
  · rw [List.count_append, List.count_cons_self, List.count_eq_zero.2 hfirst,
      List.count_eq_zero.2 hrest]
  · rw [List.head?_append_of_ne_nil _ hclass'] at hhead
    exact List.mem_of_head? hhead
  · rw [List.getLast?_append_cons, List.getLast?_cons_of_ne_nil hmember'] at hlast
    exact List.mem_of_getLast? hlast

theorem exists_joined_of_isSeparated {key : String} (h : IsSeparated key) :
    ∃ className memberName, WellFormed className memberName ∧
      joined className memberName = key := by
  obtain ⟨hcount, hhead, hlast⟩ := h
  have hmem : '*' ∈ key.toList := List.count_pos_iff.1 (by omega)
  obtain ⟨before, after, htext, hbefore⟩ := List.eq_append_cons_of_mem hmem
  have hafter : '*' ∉ after := by
    rw [htext, List.count_append, List.count_cons_self] at hcount
    exact List.count_eq_zero.1 (by omega)
  have hfirst : before ≠ [] := by
    rintro rfl
    exact hhead (by rw [htext]; rfl)
  have hrest : after ≠ [] := by
    rintro rfl
    exact hlast (by rw [htext, List.getLast?_concat])
  refine ⟨String.ofList before, String.ofList after, ⟨?_, ?_, ?_, ?_⟩, ?_⟩
  · simpa using hfirst
  · simpa using hrest
  · simpa using hbefore
  · simpa using hafter
  · exact String.toList_inj.1 (by simp [htext])

/-- The texts of keys are those with one separator, and text on both sides of it. -/
theorem exists_parse_iff {key : String} : (∃ k, parse key = .ok k) ↔ IsSeparated key := by
  constructor
  · rintro ⟨k, hk⟩
    rw [← toString_of_parse hk]
    exact isSeparated_joined k.wellFormed
  · intro h
    obtain ⟨className, memberName, hkey, rfl⟩ := exists_joined_of_isSeparated h
    exact ⟨_, (parse_joined hkey).trans (ofParts_of_wellFormed hkey)⟩

theorem toString_injective {k k' : MemberKey} (h : k.toString = k'.toString) : k = k' := by
  have hparse := k.parse_toString
  rw [h, k'.parse_toString] at hparse
  exact (Except.ok.inj hparse).symm

/-- A class and a member have a key if both have names without the separator, and it is the key of
no others. Written as a text it is found again; and the texts that keys are found in are those with
one separator and text on both sides of it, each the text of its key. -/
theorem member_keys_are_unambiguous :
    (∀ className memberName,
      (∃ k, ofParts className memberName = .ok k) ↔ WellFormed className memberName) ∧
    (∀ className memberName k, ofParts className memberName = .ok k →
      k.className = className ∧ k.memberName = memberName ∧
        k.toString = joined className memberName) ∧
    (∀ k : MemberKey, parse k.toString = .ok k) ∧
    (∀ key, (∃ k, parse key = .ok k) ↔ IsSeparated key) ∧
    (∀ key k, parse key = .ok k → k.toString = key) ∧
    ∀ className memberName className' memberName' k k',
      ofParts className memberName = .ok k → ofParts className' memberName' = .ok k' →
        k.toString = k'.toString → className = className' ∧ memberName = memberName' := by
  refine ⟨fun className memberName => exists_ofParts_iff, ?_, parse_toString,
    fun key => exists_parse_iff, fun key k => toString_of_parse, ?_⟩
  · intro className memberName k hk
    obtain ⟨rfl, rfl⟩ := eq_of_ofParts hk
    exact ⟨rfl, rfl, rfl⟩
  · intro className memberName className' memberName' k k' hk hk' hsame
    obtain ⟨rfl, rfl⟩ := eq_of_ofParts hk
    obtain ⟨rfl, rfl⟩ := eq_of_ofParts hk'
    obtain rfl := toString_injective hsame
    exact ⟨rfl, rfl⟩

theorem member_keys_are_unambiguous_between_two_separators :
    ¬ WellFormed "a*b" "c" ∧ WellFormed "ab" "c" ∧ IsSeparated "ab*c" ∧
      ¬ (∃ k, ofParts "a*b" "c" = .ok k) ∧ ¬ (∃ k, parse "a*b*c" = .ok k) ∧
      ∃ k, parse "ab*c" = .ok k ∧ k.toString = "ab*c" ∧ ofParts "ab" "c" = .ok k ∧
        ∀ className memberName, ofParts className memberName = .ok k →
          "ab" = className ∧ "c" = memberName := by
  obtain ⟨hparts, hnames, hfound, htexts, hsame, hunique⟩ := member_keys_are_unambiguous
  have hkey : WellFormed "ab" "c" := by decide
  have hstarred : ¬ WellFormed "a*b" "c" := by decide
  have htext : IsSeparated "ab*c" := by decide
  have htwice : ¬ IsSeparated "a*b*c" := by decide
  obtain ⟨k, hk⟩ := (hparts "ab" "c").2 hkey
  have hdisplay : k.toString = "ab*c" := (hnames "ab" "c" k hk).2.2
  refine ⟨hstarred, hkey, htext, mt (hparts "a*b" "c").1 hstarred,
    mt (htexts "a*b*c").1 htwice, k, hdisplay ▸ hfound k, hdisplay, hk, ?_⟩
  exact fun className memberName hk' => hunique "ab" "c" className memberName k k hk hk' rfl

end MemberKey

end LuaTypes
