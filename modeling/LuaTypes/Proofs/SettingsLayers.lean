import LuaTypes.Settings.Resolution

namespace LuaTypes

/-- A setting is the one of the strongest of the layers that supply it. -/
structure Layered.IsStrongest {α : Type} (a : Layered α) (supplied : Layer → Option α) : Prop where
  taken : supplied a.layer = some a.value
  strongest : ∀ layer, (supplied layer).isSome → layer.rank ≤ a.layer.rank

/-- A setting is the one of the strongest of the layers up to a given one that supply it. -/
structure Layered.IsStrongestUpTo {α : Type} (a : Layered α) (supplied : Layer → Option α)
    (top : Layer) : Prop where
  taken : supplied a.layer = some a.value
  within : a.layer.rank ≤ top.rank
  strongest : ∀ layer, layer.rank ≤ top.rank → (supplied layer).isSome →
    layer.rank ≤ a.layer.rank

/-- Puts what a layer supplies of one setting on top. -/
def Layered.overlay {α : Type} (a : Layered α) (layer : Layer) (value : Option α) : Layered α :=
  value.elim a fun value => a.merge { value, layer }

/-- What each layer supplies of one setting. The default is always there. -/
def Layer.supply {α : Type} (default : α) (file environment commandLine : Option α) :
    Layer → Option α
  | .default => some default
  | .file => file
  | .environment => environment
  | .commandLine => commandLine

namespace PartialSettings

/-- What is written in a settings file, if one is named and can be read as such. -/
def written (file : Option (Option String)) : PartialSettings :=
  (file.join.bind fun text => (decode.parse text).toOption).getD {}

/-- What is read from a variable, if it is set. -/
def readVariable {α : Type} (read : String → Option α) (fault : String → SettingsFault)
    (raw? : Option String) : Except Error (Option α) :=
  raw?.mapM fun raw =>
    match read raw with
    | some value => .ok value
    | none => .error (.settings (fault raw))

/-- A settings file that makes no sense. -/
inductive FaultyFile : Option (Option String) → Prop
  | unreadable : FaultyFile (some none)
  | invalid {text : String} {e : Error} (h : decode.parse text = .error e) :
      FaultyFile (some (some text))
  | zeroDepth {text : String} {p : PartialSettings} (h : decode.parse text = .ok p)
      (hzero : p.maxDepth = some 0) : FaultyFile (some (some text))

/-- An environment that makes no sense: a variable is set to a text that does not stand for a
setting. -/
inductive FaultyEnvironment (env : String → Option String) : Prop
  | notBoolean {raw : String} (h : env nilStrictVariable = some raw) (hraw : readBool? raw = none)
  | notInteger {raw : String} (h : env maxDepthVariable = some raw) (hraw : readDepth? raw = none)
  | zeroDepth {raw : String} (h : env maxDepthVariable = some raw)
      (hraw : readDepth? raw = some 0)

end PartialSettings

theorem Layer.rank_injective {a b : Layer} (h : a.rank = b.rank) : a = b := by
  cases a <;> cases b <;> first | rfl | cases h

namespace Layered

variable {α : Type} {a : Layered α} {supplied : Layer → Option α}

theorem IsStrongestUpTo.overlay {below : Layer} (h : a.IsStrongestUpTo supplied below)
    (layer : Layer) (hnext : layer.rank = below.rank + 1) :
    (a.overlay layer (supplied layer)).IsStrongestUpTo supplied layer := by
  have hle : a.layer.rank ≤ layer.rank := Nat.le_trans h.within (by omega)
  cases hvalue : supplied layer with
  | none =>
      refine ⟨h.taken, hle, fun l hl hsome => h.strongest l ?_ hsome⟩
      have hne : l.rank ≠ layer.rank := by
        intro heq
        rw [Layer.rank_injective heq, hvalue] at hsome
        cases hsome
      omega
  | some value =>
      have hmerge : a.merge { value, layer } = { value, layer } := if_pos hle
      rw [Layered.overlay, Option.elim_some, hmerge]
      exact ⟨hvalue, Nat.le_refl _, fun l hl _ => hl⟩

/-- Overlaid in turn, the layers leave the setting of the strongest that supplies it. -/
theorem isStrongest_overlays (default : α) (file environment commandLine : Option α) :
    (((({ value := default } : Layered α).overlay .file file).overlay .environment
      environment).overlay .commandLine commandLine).IsStrongest
        (Layer.supply default file environment commandLine) := by
  have hdefault : ({ value := default } : Layered α).IsStrongestUpTo
      (Layer.supply default file environment commandLine) .default :=
    ⟨rfl, Nat.le_refl _, fun l hl _ => hl⟩
  have hfile := hdefault.overlay .file rfl
  have henvironment := hfile.overlay .environment rfl
  have hall := henvironment.overlay .commandLine rfl
  refine ⟨hall.taken, fun l hl => hall.strongest l ?_ hl⟩
  cases l <;> decide

end Layered

namespace PartialSettings

variable {file : Option (Option String)} {env : String → Option String}

theorem fromFile_of_faulty (h : FaultyFile file) :
    ∃ fault, file.elim (.ok {}) ofFile = .error (.settings fault) := by
  cases h with
  | unreadable => exact ⟨_, rfl⟩
  | invalid h => exact ⟨.invalidFile, by simp [ofFile, h]⟩
  | zeroDepth h hzero => exact ⟨.zeroDepth, by simp [ofFile, h, positiveDepth, hzero]⟩

theorem fromFile_of_sound (h : ¬ FaultyFile file) :
    file.elim (.ok {}) ofFile = .ok (written file) ∧ (written file).maxDepth ≠ some 0 := by
  match file with
  | none => exact ⟨rfl, nofun⟩
  | some none => exact absurd .unreadable h
  | some (some text) =>
      cases hparse : decode.parse text with
      | error e => exact absurd (.invalid hparse) h
      | ok p =>
          have hdepth : p.maxDepth ≠ some 0 := fun hzero => h (.zeroDepth hparse hzero)
          have hwritten : written (some (some text)) = p := by simp [written, hparse]; rfl
          rw [hwritten]
          exact ⟨by simp [ofFile, hparse, positiveDepth, hdepth], hdepth⟩

theorem readVariable_of_unread {α : Type} {read : String → Option α}
    {fault : String → SettingsFault} {raw : String} (h : read raw = none) :
    readVariable read fault (some raw) = .error (.settings (fault raw)) := by
  rw [readVariable, Option.mapM_some, h]
  rfl

theorem readVariable_of_read {α : Type} {read : String → Option α}
    {fault : String → SettingsFault} {raw? : Option String}
    (h : ∀ raw, raw? = some raw → read raw ≠ none) :
    readVariable read fault raw? = .ok (raw?.bind read) := by
  cases raw? with
  | none => rfl
  | some raw =>
      obtain ⟨value, hvalue⟩ := Option.ne_none_iff_exists'.1 (h raw rfl)
      rw [readVariable, Option.mapM_some, Option.bind_some, hvalue]
      rfl

theorem ofEnvironment_eq (env : String → Option String) :
    ofEnvironment env = (do
      let nilStrict ← readVariable readBool? (.notBoolean nilStrictVariable)
        (env nilStrictVariable)
      let maxDepth ← readVariable readDepth? (.notInteger maxDepthVariable) (env maxDepthVariable)
      positiveDepth { nilStrict, maxDepth }) := by
  unfold ofEnvironment readVariable
  generalize readBool? = readBool
  generalize readDepth? = readDepth
  congr 1
  · congr 1
    funext raw
    cases readBool raw <;> rfl
  · funext nilStrict
    congr 2
    funext raw
    cases readDepth raw <;> rfl

theorem ofEnvironment_of_sound (h : ¬ FaultyEnvironment env) :
    ofEnvironment env = .ok {
        nilStrict := (env nilStrictVariable).bind readBool?
        maxDepth := (env maxDepthVariable).bind readDepth? } ∧
      (env maxDepthVariable).bind readDepth? ≠ some 0 := by
  have hpositive : (env maxDepthVariable).bind readDepth? ≠ some 0 := by
    intro hzero
    obtain ⟨raw, hraw, hzero⟩ := Option.bind_eq_some_iff.1 hzero
    exact h (.zeroDepth hraw hzero)
  refine ⟨?_, hpositive⟩
  rw [ofEnvironment_eq, readVariable_of_read fun raw hraw hnone => h (.notBoolean hraw hnone),
    readVariable_of_read fun raw hraw hnone => h (.notInteger hraw hnone)]
  exact if_neg hpositive

theorem ofEnvironment_of_faulty (h : FaultyEnvironment env) :
    ∃ fault, ofEnvironment env = .error (.settings fault) := by
  rw [ofEnvironment_eq]
  by_cases hstrict : ∃ raw, env nilStrictVariable = some raw ∧ readBool? raw = none
  · obtain ⟨raw, hraw, hnone⟩ := hstrict
    rw [hraw, readVariable_of_unread hnone]
    exact ⟨_, rfl⟩
  · rw [readVariable_of_read fun raw hraw hnone => hstrict ⟨raw, hraw, hnone⟩]
    cases h with
    | notBoolean h hraw => exact absurd ⟨_, h, hraw⟩ hstrict
    | notInteger h hraw =>
        rw [h, readVariable_of_unread hraw]
        exact ⟨_, rfl⟩
    | @zeroDepth raw h hraw =>
        have hread : ∀ raw', some raw = some raw' → readDepth? raw' ≠ none := by
          rintro _ ⟨⟩
          simp [hraw]
        rw [h, readVariable_of_read hread, Option.bind_some, hraw]
        exact ⟨.zeroDepth, rfl⟩

end PartialSettings

namespace LayeredSettings

open PartialSettings

theorem one_le_of_isStrongest {a : Layered Nat} {default : Nat}
    {file environment depth : Option Nat}
    (h : a.IsStrongest (Layer.supply default file environment (depth.map (max 1))))
    (hdefault : default ≠ 0) (hfile : file ≠ some 0) (henvironment : environment ≠ some 0) :
    1 ≤ a.value := by
  have htaken := h.taken
  refine Nat.one_le_iff_ne_zero.2 fun hzero => ?_
  rw [hzero] at htaken
  cases hlayer : a.layer with
  | default =>
      rw [hlayer] at htaken
      exact hdefault (Option.some.inj htaken)
  | file =>
      rw [hlayer] at htaken
      exact hfile htaken
  | environment =>
      rw [hlayer] at htaken
      exact henvironment htaken
  | commandLine =>
      rw [hlayer] at htaken
      obtain ⟨n, -, hn⟩ := Option.map_eq_some_iff.1 htaken
      omega

variable {file : Option (Option String)} {env : String → Option String}
  {commandLine : PartialSettings}

theorem resolve_of_faulty (h : FaultyFile file ∨ FaultyEnvironment env) :
    ∃ fault, resolve file env commandLine = .error (.settings fault) := by
  by_cases hfile : FaultyFile file
  · obtain ⟨fault, hfault⟩ := fromFile_of_faulty hfile
    exact ⟨fault, by rw [resolve, hfault]; rfl⟩
  · obtain ⟨fault, hfault⟩ := ofEnvironment_of_faulty (h.resolve_left hfile)
    exact ⟨fault, by rw [resolve, (fromFile_of_sound hfile).1, hfault]; rfl⟩

theorem resolve_of_sound (hfile : ¬ FaultyFile file) (henv : ¬ FaultyEnvironment env) :
    resolve file env commandLine = .ok {
      nilStrict := ((({ value := false } : Layered Bool).overlay .file
        (written file).nilStrict).overlay .environment
          ((env nilStrictVariable).bind readBool?)).overlay .commandLine commandLine.nilStrict
      maxDepth := ((({ value := 64 } : Layered Nat).overlay .file
        (written file).maxDepth).overlay .environment
          ((env maxDepthVariable).bind readDepth?)).overlay .commandLine
            (commandLine.maxDepth.map (max 1)) } := by
  rw [resolve, (fromFile_of_sound hfile).1, (ofEnvironment_of_sound henv).1]
  rfl

/-- Settings are refused exactly when a settings file is named that makes no sense, or the
environment makes none. Else each setting comes, by itself and with its tag, from the strongest
layer that supplies it, where the command line supplies a depth of at least one; and then the depth
is at least one. -/
theorem settings_come_from_strongest_layer (file : Option (Option String))
    (env : String → Option String) (commandLine : PartialSettings) :
    ((∃ e, resolve file env commandLine = .error e) ↔
      FaultyFile file ∨ FaultyEnvironment env) ∧
    (∀ e, resolve file env commandLine = .error e → ∃ fault, e = .settings fault) ∧
    ∀ s, resolve file env commandLine = .ok s →
      s.nilStrict.IsStrongest (Layer.supply false (written file).nilStrict
        ((env nilStrictVariable).bind readBool?) commandLine.nilStrict) ∧
      s.maxDepth.IsStrongest (Layer.supply 64 (written file).maxDepth
        ((env maxDepthVariable).bind readDepth?) (commandLine.maxDepth.map (max 1))) ∧
      1 ≤ s.maxDepth.value := by
  by_cases hfaulty : FaultyFile file ∨ FaultyEnvironment env
  · obtain ⟨fault, hfault⟩ : ∃ fault, resolve file env commandLine = .error (.settings fault) :=
      resolve_of_faulty hfaulty
    rw [hfault]
    refine ⟨⟨fun _ => hfaulty, fun _ => ⟨_, rfl⟩⟩, fun e he => ?_, nofun⟩
    exact ⟨fault, (Except.error.inj he).symm⟩
  · obtain ⟨hfile, henv⟩ := not_or.1 hfaulty
    rw [resolve_of_sound hfile henv]
    refine ⟨⟨nofun, fun h => absurd h hfaulty⟩, nofun, fun s hs => ?_⟩
    obtain rfl := Except.ok.inj hs
    have hdepth := Layered.isStrongest_overlays 64 (written file).maxDepth
      ((env maxDepthVariable).bind readDepth?) (commandLine.maxDepth.map (max 1))
    exact ⟨Layered.isStrongest_overlays _ _ _ _, hdepth, one_le_of_isStrongest hdepth (by decide)
      (fromFile_of_sound hfile).2 (ofEnvironment_of_sound henv).2⟩

/-- The depth of a file gives way to that of the environment, and its truth value to that of the
command line; and no depth of the command line mends a zero in the environment. -/
theorem settings_come_from_strongest_layer_over_file :
    let file := some (some "\x7b\"nil_strict\": true, \"max_depth\": 10\x7d")
    let env : String → Option String := fun name =>
      if name = maxDepthVariable then some " +20 " else none
    let zero : String → Option String := fun name =>
      if name = maxDepthVariable then some "0" else none
    (∃ s, resolve file env { nilStrict := some false } = .ok s ∧
      s.nilStrict.IsStrongest (Layer.supply false (some true) none (some false)) ∧
      s.maxDepth.IsStrongest (Layer.supply 64 (some 10) (some 20) none) ∧ 1 ≤ s.maxDepth.value ∧
      s.nilStrict.layer = .commandLine ∧ s.maxDepth.layer = .environment) ∧
    ∃ e, resolve none zero { maxDepth := some 5 } = .error e := by
  intro file env zero
  have hresolved : ((resolve file env { nilStrict := some false }).toOption.map fun s =>
      (s.nilStrict.layer, s.maxDepth.layer)) = some (.commandLine, .environment) := by
    decide +kernel
  have hwritten : written file = { nilStrict := some true, maxDepth := some 10 } := by
    decide +kernel
  have hdepth : (env maxDepthVariable).bind readDepth? = some 20 := by decide +kernel
  have hstrict : (env nilStrictVariable).bind readBool? = none := by decide
  constructor
  · obtain ⟨-, -, hlayers⟩ :=
      settings_come_from_strongest_layer file env { nilStrict := some false }
    cases hs : resolve file env { nilStrict := some false } with
    | error e =>
        rw [hs] at hresolved
        cases hresolved
    | ok s =>
        rw [hs] at hresolved
        obtain ⟨hstrictLayer, hdepthLayer⟩ := Prod.mk.inj (Option.some.inj hresolved)
        obtain ⟨hnil, hmax, hpositive⟩ := hlayers s hs
        rw [hwritten, hstrict] at hnil
        rw [hwritten, hdepth] at hmax
        exact ⟨s, rfl, hnil, hmax, hpositive, hstrictLayer, hdepthLayer⟩
  · have hset : zero maxDepthVariable = some "0" := rfl
    have hfaulty : FaultyEnvironment zero := .zeroDepth hset (by decide +kernel)
    exact (settings_come_from_strongest_layer none zero { maxDepth := some 5 }).1.2
      (.inr hfaulty)

end LayeredSettings

end LuaTypes
