import Mathlib.Algebra.BigOperators.Group.List.Basic
import Mathlib.Algebra.Ring.Nat
import JobHealth.Proofs.Lockstep
import JobHealth.Proofs.Log.Noise
/-!
# `JobHealth.Proofs.HangLines` — noise in the logs changes the number of hangs and nothing else

Lines on a watchdog timeout are counted in the same pass as the lines that tell
of failures, and stand in the same totals that the report is made from.  They
have no bearing on it: of two examinations whose feeds end alike, with logs that
differ by noise, both fail with the same fault or both give the same summary,
but for the number of hangs.
-/

namespace JobHealth

open JobHealth.Feed JobHealth.Log

/-- The log of the second outcome is that of the first with noise put in and taken out; for each
build it is known how many hangs were in it. -/
def LogEdited (put taken : Build → Nat) (b : Build) (o o' : Outcome) : Prop :=
  Edited o.log.toList o'.log.toList (put b) (taken b)

/-- The numbers for some builds, added up. -/
def total (n : Build → Nat) (builds : List Build) : Nat := (builds.map n).sum

theorem total_cons (n : Build → Nat) (b : Build) (builds : List Build) :
    total n (b :: builds) = n b + total n builds := List.sum_cons

theorem total_singleton (n : Build → Nat) (b : Build) : total n [b] = n b := List.sum_singleton

theorem countP_hang_linesFrom (b : Build) (log : String) :
    (linesFrom b log).countP (fun l => reportsHang l.2) = hangsIn log.toList := by
  rw [linesFrom, List.countP_map]
  rfl

section
variable {put taken : Build → Nat} {examined examined' : List (Build × Outcome)}
  (h : OutcomesRelated (LogEdited put taken) examined examined')
include h

theorem builds_eq_of_edited : examined'.map Prod.fst = examined.map Prod.fst := by
  induction h with
  | nil => rfl
  | cons hhead _ ih => rw [List.map_cons, List.map_cons, ih, hhead.1]

/-- Logs that differ by noise tell of the same failures. -/
theorem tellingOf_eq_of_edited :
    tellingOf (linesOf (logsOf examined')) = tellingOf (linesOf (logsOf examined)) := by
  induction h with
  | nil => rfl
  | @cons x x' examined examined' hhead _ ih =>
      obtain ⟨b, o⟩ := x
      obtain ⟨b', o'⟩ := x'
      obtain ⟨rfl, hedited⟩ := hhead
      have hcons : ∀ (o : Outcome) examined, tellingOf (linesOf (logsOf ((b, o) :: examined))) =
          tellingOf (linesFrom b o.log) ++ tellingOf (linesOf (logsOf examined)) :=
        fun o examined => List.filter_append _ _
      rw [hcons, hcons, ih, tellingOf_linesFrom, tellingOf_linesFrom, hedited.tellingLines_eq]

theorem hangs_of_edited :
    (linesOf (logsOf examined')).countP (fun l => reportsHang l.2) +
        total taken (examined.map Prod.fst) =
      (linesOf (logsOf examined)).countP (fun l => reportsHang l.2) +
        total put (examined.map Prod.fst) := by
  induction h with
  | nil => rfl
  | @cons x x' examined examined' hhead _ ih =>
      obtain ⟨b, o⟩ := x
      obtain ⟨b', o'⟩ := x'
      obtain ⟨rfl, hedited⟩ := hhead
      have hcons : ∀ (o : Outcome) examined,
          (linesOf (logsOf ((b, o) :: examined))).countP (fun l => reportsHang l.2) =
            hangsIn o.log.toList +
              (linesOf (logsOf examined)).countP fun l => reportsHang l.2 := by
        intro o examined
        rw [← countP_hang_linesFrom b o.log]
        exact List.countP_append
      have hhere := hedited.hangsIn_eq
      rw [hcons, hcons, List.map_cons, total_cons, total_cons]
      dsimp only at hhere ⊢
      omega

end

/-! ## The summary -/

/-- Two summaries that differ in their hangs at most. -/
structure Summary.SameButHangs (summary summary' : Summary) : Prop where
  same : summary' =
    { summary with totals := { summary.totals with hangLines := summary'.totals.hangLines } }
  ratio_eq : summary'.totals.successRatio = summary.totals.successRatio

theorem Summary.SameButHangs.report_eq {summary summary' : Summary}
    (h : summary.SameButHangs summary') : summary'.report = summary.report := by
  rw [h.same]

/-- The hangs have no part in a report. -/
theorem render_hangLines (colours : Bool) (base : String) (t : Totals) (n : Nat)
    (failures : Failures) :
    Report.render colours base { t with hangLines := n } failures =
      Report.render colours base t failures := rfl

theorem recordLogs_of_telling {logs logs' : List (Build × String)}
    (h : tellingOf (linesOf logs') = tellingOf (linesOf logs)) :
    (recordLogs logs').1.failures = (recordLogs logs).1.failures ∧
      (recordLogs logs').2 = (recordLogs logs).2 := by
  rw [recordLogs_eq, recordLogs_eq]
  constructor
  · show Failures.empty.pushAll (namings (linesOf logs')) = _
    rw [← namings_tellingOf, h, namings_tellingOf]
    rfl
  · show List.countP _ (linesOf logs') = _
    rw [← countP_tellingOf, h, countP_tellingOf]

theorem hangLines_summarise (colours : Bool) (base : String) (examined : List (Build × Outcome)) :
    (summarise colours base examined).totals.hangLines =
      (linesOf (logsOf examined)).countP fun l => reportsHang l.2 :=
  (summarise_accounts colours base examined).hangLines_eq

theorem summarise_sameButHangs {put taken : Build → Nat}
    {examined examined' : List (Build × Outcome)}
    (h : OutcomesRelated (LogEdited put taken) examined examined') (colours : Bool)
    (base : String) :
    (summarise colours base examined).SameButHangs (summarise colours base examined') := by
  obtain ⟨hfailures, hcount⟩ := recordLogs_of_telling (tellingOf_eq_of_edited h)
  have hbuilds := builds_eq_of_edited h
  have hnames : examined'.map (fun x => x.1.name) = examined.map fun x => x.1.name := by
    simpa only [List.map_map, Function.comp_def] using congrArg (List.map Build.name) hbuilds
  have hlength : examined'.length = examined.length := by
    simpa only [List.length_map] using congrArg List.length hbuilds
  have htotals : totalsOf examined' =
      { totalsOf examined with hangLines := (totalsOf examined').hangLines } := by
    rw [totalsOf, totalsOf, hlength]
    dsimp only
    rw [hcount]
  refine ⟨?_, ?_⟩
  · rw [summarise, summarise]
    dsimp only
    rw [hfailures, hnames, htotals, render_hangLines]
  · show (totalsOf examined').successRatio = _
    rw [htotals]
    rfl

/-! ## The examination -/

/-- Of two sources that list the same builds, with feeds that end alike and with logs that differ by
noise put in and taken out between lines, either both examinations fail with the same fault, or both
give the same summary but for the hangs, whose numbers differ by those put in and taken out.  Both
ask for the same, and come as far. -/
theorem noise_changes_hangs_only {s s' : Source} {history : List Build} {put taken : Build → Nat}
    (q : Query) (h : s.Resembles s' q.timeout history (LogEdited put taken))
    (colours : Bool) (progress : Progress) :
    let e := examine s colours progress q
    let e' := examine s' colours progress q
    e.limits = e'.limits ∧ e.opened = e'.opened ∧ e.progress = e'.progress ∧
    Alike (fun summary summary' => summary.SameButHangs summary' ∧
        summary'.totals.hangLines + total taken e.opened =
          summary.totals.hangLines + total put e.opened) e.result e'.result := by
  intro e e'
  obtain ⟨hlimits, hopened, hprogress, -, hresult⟩ := examine_of_resembles h colours progress
  refine ⟨hlimits, hopened, hprogress, hresult.mono ?_⟩
  rintro _ _ ⟨examined, examined', hrelated, hbuilds, rfl, rfl⟩
  refine ⟨summarise_sameButHangs hrelated colours s'.baseUrl, ?_⟩
  rw [hangLines_summarise, hangLines_summarise, ← hbuilds]
  exact hangs_of_edited hrelated

/-! ## One log with noise -/

theorem resembles_ofPieces {b : Build} {pieces pieces' : List String} {put taken : Nat}
    (h : Edited (String.join pieces).toList (String.join pieces').toList put taken) :
    (Source.ofPieces b pieces).Resembles (.ofPieces b pieces') (.ofSeconds 60) [b]
      (LogEdited (fun _ => put) fun _ => taken) where
  base := rfl
  page := fun _ _ => rfl
  listed := by
    intro before limit page hpage
    rw [← Except.ok.inj hpage]
    exact List.take_subset limit [b]
  read := by
    intro before c _
    rw [visit_ofPieces, visit_ofPieces]
    exact .value h

theorem hang_edited :
    Edited (String.join ["BUILD FAILED\n"]).toList
      (String.join ["timeout exc", "eeded\nBUILD FAILED\nok\n"]).toList 1 0 := by
  have hends : ∀ line : String, Text.EndsLine (line.toList ++ ['\n']) := fun line => .inr ⟨_, rfl⟩
  have hhang : Noise ("timeout exceeded".toList ++ ['\n']) := ⟨hends _, by decide +kernel⟩
  have hok : Noise ("ok".toList ++ ['\n']) := ⟨hends _, by decide +kernel⟩
  have hone : hangsIn ("timeout exceeded".toList ++ ['\n']) +
      hangsIn ("ok".toList ++ ['\n']) = 1 := by
    decide +kernel
  have htext : (String.join ["BUILD FAILED\n"]).toList = "BUILD FAILED".toList ++ ['\n'] := by
    decide +kernel
  have hedited : (String.join ["timeout exc", "eeded\nBUILD FAILED\nok\n"]).toList =
      ("timeout exceeded".toList ++ ['\n']) ++ ("BUILD FAILED".toList ++ ['\n']) ++
        ("ok".toList ++ ['\n']) := by
    decide +kernel
  rw [htext, hedited, ← hone]
  exact .around hhang (hends _) hok

/-- A line on a hang that two events share is put in front of a log, and another line behind it. -/
theorem hang_line_put_into_one_log :
    let b : Build := ⟨7, "7", "failed", "/api/v1/builds/7", "main", "develop", "UnitTest"⟩
    let s := Source.ofPieces b ["BUILD FAILED\n"]
    let s' := Source.ofPieces b ["timeout exc", "eeded\nBUILD FAILED\nok\n"]
    ∃ summary summary',
      (examine s false (.start false) ⟨1, 1, .ofSeconds 60⟩).result = .ok summary ∧
      (examine s' false (.start false) ⟨1, 1, .ofSeconds 60⟩).result = .ok summary' ∧
      summary'.report = summary.report ∧
      summary'.totals.hangLines = summary.totals.hangLines + 1 := by
  intro b s s'
  have hfailed : b.status? = some .failed := by decide
  obtain ⟨hfirst, hopened⟩ := examine_ofPieces hfailed ["BUILD FAILED\n"]
  obtain ⟨hsecond, -⟩ := examine_ofPieces hfailed ["timeout exc", "eeded\nBUILD FAILED\nok\n"]
  obtain ⟨-, -, -, hresult⟩ :=
    noise_changes_hangs_only ⟨1, 1, .ofSeconds 60⟩ (resembles_ofPieces hang_edited) false
      (.start false)
  rw [hfirst, hsecond, hopened, total_singleton, total_singleton] at hresult
  cases hresult with
  | value hsummaries =>
      exact ⟨_, _, hfirst, hsecond, hsummaries.1.report_eq, hsummaries.2⟩

end JobHealth
