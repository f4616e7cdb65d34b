import Idl.Proofs.Analysis.Distinct
import Idl.Proofs.FirstOccurrence

/-!
# Settings from outside

Settings are applied one after the other, each to what the earlier ones have made of the options.
They neither bring in nor hide two options of one key, and the last setting of a key wins: the main
statement.
-/

namespace Idl

open List

namespace Setting

variable {setting : Setting} {options : List OptionDecl} {key : String}

/-! ## One setting -/

theorem keys_applyTo (setting : Setting) (options : List OptionDecl) :
    (setting.applyTo options).map (·.key.value) =
      if setting.key ∈ options.map (·.key.value) then options.map (·.key.value)
      else options.map (·.key.value) ++ [setting.key] := by
  induction options with
  | nil => rfl
  | cons option options ih =>
    rw [applyTo]
    by_cases hkey : option.key.value = setting.key
    · simp [hkey]
    · simp only [if_neg hkey, map_cons, ih, mem_cons, or_iff_right (Ne.symm hkey)]
      split <;> rfl

theorem distinct_applyTo_iff :
    OptionDecl.Distinct (setting.applyTo options) ↔ OptionDecl.Distinct options := by
  unfold OptionDecl.Distinct
  rw [keys_applyTo]
  split
  · exact Iff.rfl
  next hnew => rw [nodup_append_comm, singleton_append, nodup_cons, and_iff_right hnew]

theorem filter_applyTo_of_ne (hne : key ≠ setting.key) :
    (setting.applyTo options).filter (·.key.value = key) = options.filter (·.key.value = key) := by
  induction options with
  | nil => simp [applyTo, OptionDecl.plain, hne.symm]
  | cons option options ih =>
    rw [applyTo]
    split
    next hkey => simp [hkey, hne.symm]
    · rw [filter_cons, filter_cons, ih]

theorem values_applyTo (h : OptionDecl.Distinct options) :
    ((setting.applyTo options).filter (·.key.value = setting.key)).map (·.value) =
      [setting.value] := by
  induction options with
  | nil => simp [applyTo, OptionDecl.plain]
  | cons option options ih =>
    obtain ⟨hnew, hmore⟩ := nodup_cons.1 h
    rw [applyTo]
    by_cases hkey : option.key.value = setting.key
    · have hnone : options.filter (·.key.value = setting.key) = [] := by
        refine filter_eq_nil_iff.2 fun other hother hsame => hnew ?_
        exact mem_map.2 ⟨other, hother, (of_decide_eq_true hsame).trans hkey.symm⟩
      simp [hkey, hnone]
    · simp [hkey, ih hmore]

theorem exists_getElem?_applyTo
    (setting : Setting) {i : Nat} {option : OptionDecl} (h : options[i]? = some option) :
    ∃ value, (setting.applyTo options)[i]? = some { option with value } ∧
      (option.key.value ≠ setting.key → value = option.value) := by
  induction options generalizing i with
  | nil => cases h
  | cons first options ih =>
    rw [applyTo]
    cases i with
    | zero =>
      cases h
      split
      next hkey => exact ⟨setting.value, rfl, fun hne => absurd hkey hne⟩
      · exact ⟨option.value, rfl, fun _ => rfl⟩
    | succ i =>
      split
      · exact ⟨option.value, h, fun _ => rfl⟩
      · exact ih h

/-! ## A list of settings -/

theorem applyAll_concat (settings : List Setting) (setting : Setting) (options : List OptionDecl) :
    applyAll (settings ++ [setting]) options = setting.applyTo (applyAll settings options) :=
  foldl_concat ..

theorem distinct_applyAll_iff (settings : List Setting) :
    OptionDecl.Distinct (applyAll settings options) ↔ OptionDecl.Distinct options := by
  induction settings using List.reverseRecOn with
  | nil => exact Iff.rfl
  | append_singleton settings setting ih => rw [applyAll_concat, distinct_applyTo_iff, ih]

theorem keys_applyAll (settings : List Setting) (options : List OptionDecl) :
    (applyAll settings options).map (·.key.value) = options.map (·.key.value) ++
      ((settings.map (·.key)).filter (· ∉ options.map (·.key.value))).eraseDups := by
  induction settings using List.reverseRecOn with
  | nil => exact (append_nil _).symm
  | append_singleton settings setting ih =>
    rw [applyAll_concat, keys_applyTo, ih, map_append, filter_append, map_singleton,
      filter_singleton]
    by_cases hold : setting.key ∈ options.map (·.key.value)
    · rw [if_pos (mem_append_left _ hold), decide_eq_false (not_not_intro hold), cond_false,
        append_nil]
    · rw [decide_eq_true hold, cond_true, eraseDups_concat]
      simp only [mem_append, mem_eraseDups, hold, false_or]
      split
      · rfl
      · exact append_assoc ..

/-- What settings make of the options of a program.  The options stay where they are and change at
most their value, the last setting of a key decides what it has, and new keys come behind, in the
order in which they are first set. -/
structure LastWins (settings : List Setting) (options applied : List OptionDecl) : Prop where
  kept : ∀ (i : Nat) (option : OptionDecl), options[i]? = some option → ∃ value,
    applied[i]? = some { option with value } ∧
      (option.key.value ∉ settings.map (·.key) → value = option.value)
  last : ∀ before setting after, settings = before ++ setting :: after →
    setting.key ∉ after.map (·.key) →
      (applied.filter (·.key.value = setting.key)).map (·.value) = [setting.value]
  added : (applied.drop options.length).map (·.key.value) =
    ((settings.map (·.key)).filter (· ∉ options.map (·.key.value))).eraseDups

theorem lastWins_applyAll (settings : List Setting) (h : OptionDecl.Distinct options) :
    LastWins settings options (applyAll settings options) := by
  refine ⟨?_, ?_, ?_⟩
  · induction settings using List.reverseRecOn with
    | nil => exact fun i option hoption => ⟨option.value, hoption, fun _ => rfl⟩
    | append_singleton settings setting ih =>
      intro i option hoption
      obtain ⟨value, hvalue, hsame⟩ := ih i option hoption
      obtain ⟨value', hvalue', hsame'⟩ := exists_getElem?_applyTo setting hvalue
      rw [applyAll_concat]
      refine ⟨value', hvalue', fun hnew => ?_⟩
      rw [map_append, mem_append, not_or] at hnew
      exact (hsame' fun heq => hnew.2 (mem_singleton.2 heq)).trans (hsame hnew.1)
  · induction settings using List.reverseRecOn with
    | nil => simp
    | append_singleton settings setting ih =>
      intro before named after hsettings hafter
      rw [applyAll_concat]
      rcases eq_nil_or_concat after with rfl | ⟨after, later, rfl⟩
      · obtain ⟨-, hnamed⟩ := append_inj' hsettings rfl
        cases hnamed
        exact values_applyTo ((distinct_applyAll_iff settings).2 h)
      · rw [concat_eq_append, ← cons_append, ← append_assoc] at hsettings
        obtain ⟨rfl, hlater⟩ := append_inj' hsettings rfl
        cases hlater
        rw [concat_eq_append, map_append, mem_append, not_or] at hafter
        rw [filter_applyTo_of_ne fun heq => hafter.2 (mem_singleton.2 heq)]
        exact ih before named after rfl hafter.1
  · rw [map_drop, keys_applyAll, ← length_map (·.key.value), drop_left]

end Setting

/-- Whether definitions are accepted does not depend on settings; and where they are, settings
change values and add options as said. -/
theorem Program.settings_apply_last_wins
    (file : String) (schema : Schema) (config : ParseConfig) (settings : List Setting) :
    let applied := Setting.applyAll settings schema.options
    (((ofSchema file { schema with options := applied }).checkDefinitions config).2 = none ↔
        ((ofSchema file schema).checkDefinitions config).2 = none) ∧
      (((ofSchema file schema).checkDefinitions config).2 = none →
        Setting.LastWins settings schema.options applied) := by
  intro applied
  constructor
  · rw [checkDefinitions_eq_none_iff, checkDefinitions_eq_none_iff]
    exact and_congr_left' (Setting.distinct_applyAll_iff settings)
  · intro haccepted
    exact Setting.lastWins_applyAll settings (checkDefinitions_eq_none_iff.1 haccepted).1

end Idl
