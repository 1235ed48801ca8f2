import JobHealth.Program
import JobHealth.Url.Domain
import JobHealth.Proofs.Endpoint
import JobHealth.Proofs.Settings.Valid
/-!
# `JobHealth.Proofs.ScanPlan` — what a plan keeps of what is asked of settings

Settings are looked through before the arguments are laid over them, and are not
looked through again.  The waiting times cannot be given as arguments, so these
are as is asked in every plan.  The limits and the address are looked at when
the plan is made.  The team can be given as an argument, and is looked at no
more.

| of a plan          | comes from            | looked at                  |
| :----------------- | :-------------------- | :------------------------- |
| waiting times      | settings              | with the settings          |
| limits             | arguments or settings | when the plan is made      |
| address            | arguments             | when the plan is made      |
| team               | settings              | with the settings          |
| team               | arguments             | never: it may be empty     |
-/

namespace JobHealth

/-- What is asked of settings and of addresses, the team apart. -/
structure ScanPlan.Sound (toAscii : Url.ToAscii) (p : ScanPlan) : Prop where
  base : Endpoint.ofText toAscii p.base = .ok p.base
  limits : p.examine ≤ p.fetch
  eventTimeout : 1 ≤ p.eventTimeout
  connectTimeout : 1 ≤ p.connectTimeout

namespace ScanPlan

/-- The plan that arguments and settings make with an address, before it is looked at. -/
def laidOver (a : CommandLine.Arguments) (s : Settings) (base : String) : ScanPlan where
  base := base
  team := a.team.getD s.server.team
  pipeline := a.pipeline
  job := a.job
  examine := a.limit.getD s.server.examineLimit
  fetch := a.fetch.getD s.server.fetchLimit
  token := a.cookieToken
  eventTimeout := s.server.eventTimeout
  connectTimeout := s.server.connectTimeout

/-- Of a plan only the address and the limits are looked at. -/
theorem resolve_eq_ok_iff {toAscii : Url.ToAscii} {a : CommandLine.Arguments} {s : Settings}
    {plan : ScanPlan} :
    resolve toAscii a s = .ok plan ↔
      ∃ base, Endpoint.ofText toAscii a.url = .ok base ∧ plan = laidOver a s base ∧
        plan.examine ≤ plan.fetch := by
  rw [resolve]
  constructor
  · intro h
    cases hbase : Endpoint.ofText toAscii a.url with
    | error f => simp only [hbase, reduceCtorEq] at h
    | ok base =>
        simp only [hbase] at h
        split at h
        · cases h
        · next hlimits =>
          obtain rfl := Except.ok.inj h
          exact ⟨base, rfl, rfl, UInt32.not_lt.mp hlimits⟩
  · rintro ⟨base, hbase, rfl, hlimits⟩
    simp only [hbase]
    exact if_neg (UInt32.not_lt.mpr hlimits)

theorem team_laidOver_eq_empty_iff {a : CommandLine.Arguments} {s : Settings} (hs : s.Valid)
    (base : String) : (laidOver a s base).team = "" ↔ a.team = some "" := by
  show a.team.getD s.server.team = "" ↔ _
  cases a.team with
  | none => simpa using hs.team
  | some team => simp

theorem sound_of_resolve {toAscii : Url.ToAscii} {a : CommandLine.Arguments} {s : Settings}
    {plan : ScanPlan} (hs : s.Valid) (h : resolve toAscii a s = .ok plan) :
    plan.Sound toAscii ∧ (plan.team = "" ↔ a.team = some "") := by
  obtain ⟨base, hbase, rfl, hlimits⟩ := resolve_eq_ok_iff.mp h
  exact ⟨⟨Endpoint.ofText_of_accepted hbase, hlimits, hs.eventTimeout, hs.connectTimeout⟩,
    team_laidOver_eq_empty_iff hs base⟩

/-- The arguments `https://ci develop UnitTest 10 TEAM 20`, perhaps without the team. -/
def argumentsWith (team : Option String) : CommandLine.Arguments where
  url := "https://ci"
  pipeline := "develop"
  job := "UnitTest"
  limit := some 10
  team := team
  fetch := some 20
  cookieToken := none
  debug := false
  verbose := false
  config := none
  noProgress := false

theorem resolve_argumentsWith (team : Option String) :
    resolve Url.domainToAscii? (argumentsWith team) .default =
      .ok (laidOver (argumentsWith team) .default "https://ci") := by
  have hbase : Endpoint.ofText Url.domainToAscii? "https://ci" = .ok "https://ci" := by
    decide +kernel
  have hlimits : (10 : UInt32) ≤ 20 := by decide
  exact resolve_eq_ok_iff.mpr ⟨"https://ci", hbase, rfl, hlimits⟩

theorem check_default : Settings.default.check = .ok .default := by decide +kernel

/-- A plan made with settings that passed their check is as is asked, but for a team that was given
as an argument: its team is empty exactly if that argument was. -/
theorem plan_of_checked_settings {toAscii : Url.ToAscii} {a : CommandLine.Arguments}
    {s s' : Settings} {plan : ScanPlan} (hs : s.check = .ok s')
    (h : resolve toAscii a s' = .ok plan) :
    plan.Sound toAscii ∧ (plan.team = "" ↔ a.team = some "") := by
  obtain ⟨rfl, hvalid⟩ := Settings.check_eq_ok_iff.mp hs
  exact sound_of_resolve hvalid h

theorem plan_of_default_settings :
    (laidOver (argumentsWith none) .default "https://ci").Sound Url.domainToAscii? ∧
      (laidOver (argumentsWith none) .default "https://ci").team ≠ "" := by
  obtain ⟨hsound, hteam⟩ := plan_of_checked_settings check_default (resolve_argumentsWith none)
  exact ⟨hsound, hteam.not.mpr (by decide)⟩

/-- An empty argument for the team comes through. -/
theorem plan_with_empty_team :
    ¬ ∀ (texts : List String) (cookie : Option String) (a : CommandLine.Arguments)
      (s s' : Settings) (plan : ScanPlan),
      CommandLine.read texts cookie = .ok a → s.check = .ok s' →
        resolve Url.domainToAscii? a s' = .ok plan → plan.team ≠ "" := by
  intro h
  have hread : CommandLine.read ["https://ci", "develop", "UnitTest", "10", "", "20"] none =
      .ok (argumentsWith (some "")) := by
    decide +kernel
  exact h _ _ _ _ _ _ hread check_default (resolve_argumentsWith _) rfl

end ScanPlan

/-! ## The program -/

namespace Program

/-- Whatever the files and the environment hold, the program makes every examination by a plan that
is as is asked, but for a team that was given as an argument. -/
theorem sound_of_examination {st : Setting} {a : CommandLine.Arguments} {plan : ScanPlan}
    {e : Examination} (h : (run st a).examination = some (plan, e)) :
    plan.Sound st.toAscii ∧ (plan.team = "" ↔ a.team = some "") := by
  rw [run] at h
  cases hload : Settings.load st.readYaml (originOf a) st.files st.environment with
  | error f => simp only [hload, reduceCtorEq] at h
  | ok s =>
      simp only [hload] at h
      split at h
      · cases h
      · split at h
        · cases h
        · split at h
          · cases h
          · next hresolve =>
            obtain ⟨rfl, -⟩ := Prod.mk.inj (Option.some.inj h)
            exact ScanPlan.sound_of_resolve (Settings.valid_of_load hload) hresolve

end Program

end JobHealth
