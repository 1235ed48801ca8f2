import JobHealth.Proofs.ScanPlan
import JobHealth.Proofs.Settings.Layers
/-!
# `JobHealth.Proofs.LogPlan` — settings that were loaded can be logged by

The words of the log settings are looked at three times, each time by a list of
its own: with the settings, when logs are planned, and when logging is switched
on.  Words that pass the first time pass again.

| word      | with the settings   | when planned        | when switched on      |
| :-------- | :------------------ | :------------------ | :-------------------- |
| level     | letter for letter   | may be replaced     | in letters of any size |
| format    | letter for letter   | letter for letter   |                       |
| rotation  | letter for letter   | letter for letter   |                       |

Only the command line can replace the level, and by one of two words, which are
allowed too.  So once its settings are loaded, no run fails for its logs.
-/

namespace JobHealth

open JobHealth.Json
open JobHealth.Settings (Environment Files YamlReader load)

/-! ## Words -/

/-- The word that stands for a format. -/
def LogFormat.word : LogFormat → String
  | .json => "json"
  | .pretty => "pretty"

/-- The word that stands for a rotation. -/
def Rotation.word : Rotation → String
  | .daily => "daily"
  | .hourly => "hourly"
  | .never => "never"

/-- A format that may be set is one that logs can be planned with. -/
theorem LogFormat.ofWord?_of_allowed {word : String} (h : word ∈ Settings.allowedFormats) :
    ∃ format, ofWord? word = some format ∧ format.word = word := by
  simp only [Settings.allowedFormats, List.mem_cons, List.not_mem_nil, or_false] at h
  rcases h with rfl | rfl
  · exact ⟨.json, rfl, rfl⟩
  · exact ⟨.pretty, rfl, rfl⟩

/-- A rotation that may be set is one that logs can be planned with. -/
theorem Rotation.ofWord?_of_allowed {word : String} (h : word ∈ Settings.allowedRotations) :
    ∃ rotation, ofWord? word = some rotation ∧ rotation.word = word := by
  simp only [Settings.allowedRotations, List.mem_cons, List.not_mem_nil, or_false] at h
  rcases h with rfl | rfl | rfl
  · exact ⟨.daily, rfl, rfl⟩
  · exact ⟨.hourly, rfl, rfl⟩
  · exact ⟨.never, rfl, rfl⟩

/-- A level that may be set is one that logging can be switched on with. -/
theorem Logging.level?_of_allowed {word : String} (h : word ∈ Settings.allowedLevels) :
    ∃ l, level? word = some l ∧ l.word = word := by
  simp only [Settings.allowedLevels, List.mem_cons, List.not_mem_nil, or_false] at h
  rcases h with rfl | rfl | rfl | rfl | rfl
  · exact ⟨.trace, rfl, rfl⟩
  · exact ⟨.debug, rfl, rfl⟩
  · exact ⟨.info, rfl, rfl⟩
  · exact ⟨.warn, rfl, rfl⟩
  · exact ⟨.error, rfl, rfl⟩

/-- What the command line can replace the level by may be set as well. -/
theorem CommandLine.forcedLevel_allowed {a : Arguments} {word : String}
    (h : a.forcedLevel = some word) : word ∈ Settings.allowedLevels := by
  rw [Arguments.forcedLevel] at h
  split at h
  · obtain rfl := Option.some.inj h
    decide
  · split at h
    · obtain rfl := Option.some.inj h
      decide
    · cases h

/-! ## Plans -/

/-- The plan says what the settings say, but for a level that is forced. -/
structure LogPlan.Follows (plan : LogPlan) (s : LogSettings) (forced : Option String) : Prop where
  level : plan.level = forced.getD s.level
  format : plan.format.word = s.format
  directory : plan.directory = s.directory
  rotation : plan.rotation.word = s.rotation

/-- Logging can be switched on by the plan: its level is the word of one. -/
structure LogPlan.Usable (plan : LogPlan) : Prop where
  level : ∃ l : Level, Logging.level? plan.level = some l ∧ l.word = plan.level
  switchOn : ∀ directives, ∃ logging, Logging.off.switchOn plan directives = .ok logging

theorem LogPlan.usable_of_allowed {plan : LogPlan} (h : plan.level ∈ Settings.allowedLevels) :
    plan.Usable := by
  obtain ⟨l, hl, hword⟩ := Logging.level?_of_allowed h
  refine ⟨⟨l, hl, hword⟩, fun directives => ?_⟩
  rw [Logging.switchOn, hl]
  exact ⟨_, rfl⟩

/-- Logs are planned by valid settings, whatever level is forced. -/
theorem Settings.Valid.exists_logPlan {s : Settings} (hs : s.Valid) {forced : Option String}
    (hforced : ∀ word, forced = some word → word ∈ allowedLevels) :
    ∃ plan, LogPlan.ofSettings s.logging forced = .ok plan ∧ plan.Follows s.logging forced ∧
      plan.Usable := by
  obtain ⟨format, hformat, hformatWord⟩ := LogFormat.ofWord?_of_allowed hs.format
  obtain ⟨rotation, hrotation, hrotationWord⟩ := Rotation.ofWord?_of_allowed hs.rotation
  have hlevel : forced.getD s.logging.level ∈ allowedLevels := by
    cases forced with
    | none => exact hs.level
    | some word => exact hforced word rfl
  refine ⟨⟨forced.getD s.logging.level, format, s.logging.directory, rotation⟩, ?_, ?_,
    LogPlan.usable_of_allowed hlevel⟩
  · rw [LogPlan.ofSettings, hformat, hrotation]
  · exact ⟨rfl, hformatWord, rfl, hrotationWord⟩

/-- **By settings that were loaded logs can be planned**, and logging can be switched on by the
plan.  It keeps what is set, but for a level that the command line forces. -/
theorem loaded_settings_plan_logs {read : YamlReader} {origin : Settings.Origin} {files : Files}
    {env : Environment} {s : Settings} (h : load read origin files env = .ok s)
    {forced : Option String}
    (hforced : forced = none ∨ ∃ a : CommandLine.Arguments, a.forcedLevel = forced) :
    (∃ plan, LogPlan.ofSettings s.logging forced = .ok plan ∧ plan.Follows s.logging forced ∧
      plan.Usable) ∧
    1 ≤ s.server.eventTimeout ∧ 1 ≤ s.server.connectTimeout ∧ s.server.team ≠ "" := by
  have hs := Settings.valid_of_load h
  refine ⟨hs.exists_logPlan fun word hword => ?_, hs.eventTimeout, hs.connectTimeout, hs.team⟩
  rcases hforced with rfl | ⟨a, rfl⟩
  · cases hword
  · exact CommandLine.forcedLevel_allowed hword

/-- A named file that sets the words of the log, and a level that the command line forces. -/
theorem logs_of_named_file :
    let text := "logging:\n  level: error\n  format: json\n  rotation: never\n"
    let files : Files := fun path => if path = "ci.yaml" then some text else none
    let s : Settings := ⟨⟨"main", 50, 100, 60, 10⟩, ⟨"error", "json", none, "never"⟩⟩
    let a : CommandLine.Arguments := { ScanPlan.argumentsWith none with debug := true }
    let read : YamlReader := fun text => Yaml.read? text.toList
    load read (.file "ci.yaml") files [] = .ok s ∧ a.forcedLevel = some "debug" ∧
      LogPlan.ofSettings s.logging (some "debug") = .ok ⟨"debug", .json, none, .never⟩ ∧
      LogPlan.Usable ⟨"debug", .json, none, .never⟩ ∧
      1 ≤ s.server.eventTimeout ∧ 1 ≤ s.server.connectTimeout ∧ s.server.team ≠ "" := by
  intro text files s a read
  let layer : Value := .record [("logging", .record
    [("level", .text "error"), ("format", .text "json"), ("rotation", .text "never")])]
  have hread : read text = some (some layer) := by
    subst text read
    with_unfolding_all rfl
  have hsectioned : Settings.Sectioned layer := by
    refine ⟨_, rfl, fun f v hv => ?_⟩
    cases f with
    | server f => cases hv
    | logging f => exact ⟨_, (Option.some.inj hv).symm⟩
  have hfile : Settings.FileSets read files "ci.yaml" layer := .document rfl hread hsectioned
  have henv : Settings.SingleFields [] := ⟨nofun, .nil⟩
  have hload : load read (.file "ci.yaml") files [] = .ok s := by
    have hdecided : Settings.DecidedBy read (.file "ci.yaml") files [] _ :=
      Settings.decidedBy_layers Settings.lawful_readYaml (.cons hfile .nil) henv
    refine (hdecided.loaded s).mpr ⟨(hdecided.extracted s).mpr fun f => ?_, ?_⟩
    · cases f with
      | server f => cases f <;> rfl
      | logging f => cases f <;> rfl
    · exact ⟨by decide, by decide, by decide, by decide, by decide, by decide⟩
  have hforced : a.forcedLevel = some "debug" := rfl
  obtain ⟨⟨plan, hplan, -, husable⟩, hserver⟩ :=
    loaded_settings_plan_logs hload (.inr ⟨a, hforced⟩)
  obtain rfl : plan = ⟨"debug", .json, none, .never⟩ := (Except.ok.inj hplan).symm
  exact ⟨hload, hforced, hplan, husable, hserver⟩

/-! ## The program -/

namespace Program

/-- A run that fails does so for its settings, its plan or its examination, but never for its
logs. -/
theorem fault_of_run {st : Setting} {a : CommandLine.Arguments} {fault : RunFault}
    (h : (run st a).result = .error fault) :
    (∃ f, fault = .settings f) ∨ (∃ f, fault = .plan f) ∨ ∃ p f, fault = .examination p f := by
  rw [run] at h
  cases hload : load st.readYaml (originOf a) st.files st.environment with
  | error f =>
      rw [hload] at h
      exact .inl ⟨f, (Except.error.inj h).symm⟩
  | ok s =>
      obtain ⟨plan, hplan, -, husable⟩ := (Settings.valid_of_load hload).exists_logPlan
        fun word hword => CommandLine.forcedLevel_allowed (a := a) hword
      obtain ⟨logs, hlogs⟩ := husable.switchOn (valueIn? st.environment directivesVariable)
      simp only [hload, hplan, hlogs] at h
      cases hresolve : ScanPlan.resolve st.toAscii a s with
      | error f =>
          rw [hresolve] at h
          exact .inr (.inl ⟨f, (Except.error.inj h).symm⟩)
      | ok p =>
          rw [hresolve] at h
          obtain ⟨result, hresult⟩ : ∃ r : Except Fault Summary,
              (scan st p a plan logs).result = r.mapError (.examination p) := ⟨_, rfl⟩
          have hfault := hresult.symm.trans h
          cases result with
          | error f => exact .inr (.inr ⟨p, f, (Except.error.inj hfault).symm⟩)
          | ok summary => cases hfault

end Program

end JobHealth
