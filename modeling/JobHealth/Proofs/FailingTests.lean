import JobHealth.Proofs.Examination
import JobHealth.Proofs.SuccessRate
/-!
# `JobHealth.Proofs.FailingTests` — the number beside a failed test

The number counts the lines that name the test, over all logs.  It is not the
number of builds in which the test failed: a log that names a test on several
lines counts as often.  The two numbers agree exactly if no log does so.  Then
no more failures are reported than builds were examined, and the rate that is
made from the number is one.

| number beside a test        | rate that is printed            |
| :-------------------------- | :------------------------------ |
| at most the examined builds | from 0.00 to 100.00             |
| more than these             | may be below zero               |
-/

namespace JobHealth

open JobHealth.Feed JobHealth.Log JobHealth.Number

/-- The number of lines of a log that name a test as failed. -/
def timesNamed (test : String) (log : String) : Nat :=
  (Text.lines log.toList).countP fun line => namedTest? line == some test

/-- The number of logs that name a test as failed. -/
def logsNaming (test : String) (logs : List (Build × String)) : Nat :=
  logs.countP fun x => 0 < timesNamed test x.2

/-- The number of lines of logs that name a test as failed. -/
def linesTotal (test : String) (logs : List (Build × String)) : Nat :=
  (logs.map fun x => timesNamed test x.2).sum

theorem length_linesNaming (test : String) (logs : List (Build × String)) :
    (linesNaming test (linesOf logs)).length = linesTotal test logs := by
  rw [linesNaming, ← List.countP_eq_length_filter]
  induction logs with
  | nil => rfl
  | cons x logs ih =>
      have hhead : (linesFrom x.1 x.2).countP (fun l => namedTest? l.2 == some test) =
          timesNamed test x.2 := by
        rw [linesFrom, List.countP_map]
        rfl
      rw [linesOf_cons, List.countP_append, ih, hhead, linesTotal, linesTotal, List.map_cons,
        List.sum_cons]

/-- There are at least as many lines as logs that name a test, and just as many exactly if none of
the logs names it twice. -/
theorem logsNaming_le_linesTotal (test : String) (logs : List (Build × String)) :
    logsNaming test logs ≤ linesTotal test logs ∧
      (linesTotal test logs = logsNaming test logs ↔ ∀ x ∈ logs, timesNamed test x.2 ≤ 1) := by
  induction logs with
  | nil => exact ⟨Nat.le_refl 0, by simp [linesTotal, logsNaming]⟩
  | cons x logs ih =>
      obtain ⟨hle, heq⟩ := ih
      have htotal : linesTotal test (x :: logs) = timesNamed test x.2 + linesTotal test logs :=
        List.sum_cons
      have hnaming : logsNaming test (x :: logs) =
          logsNaming test logs + if 0 < timesNamed test x.2 then 1 else 0 := by
        simp only [logsNaming, List.countP_cons, decide_eq_true_eq]
      rw [htotal, hnaming, List.forall_mem_cons, ← heq]
      split <;> omega

theorem logsNaming_pos {test : String} {logs : List (Build × String)}
    (h : 0 < linesTotal test logs) : 0 < logsNaming test logs := by
  refine Nat.pos_of_ne_zero fun hzero => ?_
  have hnone := List.countP_eq_zero.mp hzero
  have hall : ∀ x ∈ logs, timesNamed test x.2 ≤ 1 := by
    intro x hx
    have := hnone x hx
    simp only [decide_eq_true_eq] at this
    omega
  rw [(logsNaming_le_linesTotal test logs).2.mpr hall, hzero] at h
  exact Nat.lt_irrefl 0 h

/-- A test that is named at all is named on some line. -/
theorem linesTotal_pos {test : String} {logs : List (Build × String)}
    (h : test ∈ testsNamed (linesOf logs)) : 0 < linesTotal test logs := by
  rw [testsNamed, List.mem_eraseDups, List.mem_filterMap] at h
  obtain ⟨l, hl, htest⟩ := h
  rw [← length_linesNaming, linesNaming]
  exact List.length_pos_of_mem (List.mem_filter.mpr ⟨hl, by simp [htest]⟩)

/-- What the number beside a failed test is, over the logs of the examined builds. -/
structure CountsLines (test : String) (n : Nat) (t : Totals) (logs : List (Build × String)) :
    Prop where
  lines : n = linesTotal test logs
  some_build : 1 ≤ logsNaming test logs
  at_most_examined : logsNaming test logs ≤ t.examined
  at_least_builds : logsNaming test logs ≤ n
  builds_iff : n = logsNaming test logs ↔ ∀ x ∈ logs, timesNamed test x.2 ≤ 1
  /-- As long as the number is not more than the examined builds, the rate is one. -/
  rate : n ≤ t.examined → t.examined < 2 ^ 64 →
    ∃ hundredths ≤ 10000,
      fixed 2 (successRate t.examined n) = String.ofList (pointed 2 hundredths)

theorem Summary.Accounts.countsLines {summary : Summary} {colours : Bool} {base : String}
    {builds : List Build} {logs : List (Build × String)}
    (h : summary.Accounts colours base builds logs) (hbuilds : logs.map Prod.fst = builds)
    {test : String} {n : Nat} (hmem : (test, n) ∈ summary.failingTests) :
    CountsLines test n summary.totals logs := by
  rw [h.tests_eq] at hmem
  obtain ⟨named, hnamed, heq⟩ := List.mem_map.mp hmem
  obtain ⟨rfl, rfl⟩ := Prod.mk.inj heq
  rw [length_linesNaming]
  have hpos := logsNaming_pos (linesTotal_pos hnamed)
  obtain ⟨hle, hiff⟩ := logsNaming_le_linesTotal named logs
  have hexamined : logsNaming named logs ≤ summary.totals.examined := by
    rw [h.count_eq, ← hbuilds, List.length_map]
    exact List.countP_le_length
  exact ⟨rfl, hpos, hexamined, hle, hiff, fun hn hword =>
    fixed_successRate (hpos.trans_le hexamined) hn hword⟩

/-- The number beside each failed test of a summary is the number of lines that name it, over the
logs of the examined builds; and it is with these numbers that the report is made. -/
theorem failing_tests_count_lines (s : Source) (colours : Bool) (progress : Progress) (q : Query)
    (summary : Summary) (h : (examine s colours progress q).result = .ok summary) :
    ∃ page selection,
      (fetchPage s q.fetch).result = .ok page ∧
      Selection.ofPage page q.examine = .ok selection ∧
      let logs := feedLogs s (fetchPage s q.fetch).limits.length selection.builds
      (∀ test n, (test, n) ∈ summary.failingTests → CountsLines test n summary.totals logs) ∧
      ∃ failures : Failures, failures.counts = summary.failingTests ∧
        summary.report = Report.render colours s.baseUrl summary.totals failures := by
  obtain ⟨page, selection, hpage, hsel, haccounts⟩ := accounts_of_ok h
  refine ⟨page, selection, hpage, hsel, fun test n hmem => ?_, _, ?_, haccounts.report_eq⟩
  · exact haccounts.countsLines (feedLogs_map_fst s _ _) hmem
  · rw [counts_recordLogs, haccounts.tests_eq]

/-- One failed build, whose log names a test on one line. -/
theorem failing_test_of_one_line :
    let b : Build := ⟨7, "7", "failed", "/api/v1/builds/7", "main", "develop", "UnitTest"⟩
    let log := "BUILD FAILED\nSuite > case FAILED\n"
    let body := Text.Utf8.encode (writeBody (writtenRecords [log] "failed"))
    let s := Source.stored "https://ci" [b] fun _ => .open (Arrivals.ofChunks [.bytes body])
    ∃ summary, (examine s false (.start false) ⟨1, 1, .ofSeconds 60⟩).result = .ok summary ∧
      summary.failingTests = [("Suite.case", 1)] ∧
      ∃ hundredths ≤ 10000,
        fixed 2 (successRate 1 1) = String.ofList (pointed 2 hundredths) := by
  intro b log body s
  have hresult := examine_one_log log
  obtain ⟨page, selection, -, -, hcounts, -⟩ :=
    failing_tests_count_lines s false (.start false) ⟨1, 1, .ofSeconds 60⟩ _ hresult
  have htests : (summarise false "https://ci"
      [(b, ⟨"failed", log, .endEvent⟩)]).failingTests = [("Suite.case", 1)] := by
    decide +kernel
  have hcount := hcounts "Suite.case" 1 (htests ▸ List.mem_singleton_self _)
  exact ⟨_, hresult, htests, hcount.rate (Nat.le_refl 1) (by decide)⟩

/-- The number is not that of the builds whose logs name the test: one log that names it twice is
counted twice. -/
theorem failing_test_of_two_lines :
    ¬ ∀ (s : Source) (progress : Progress) (q : Query) (summary : Summary) (page : List Build)
      (selection : Selection),
      (examine s false progress q).result = .ok summary →
      (fetchPage s q.fetch).result = .ok page → page.Pairwise (fun a b => a.id ≠ b.id) →
      Selection.ofPage page q.examine = .ok selection →
      ∀ test n, (test, n) ∈ summary.failingTests →
        n = logsNaming test (feedLogs s (fetchPage s q.fetch).limits.length selection.builds) ∧
        1 ≤ n ∧ n ≤ summary.totals.examined ∧
        ∃ hundredths ≤ 10000,
          fixed 2 (successRate summary.totals.examined n) =
            String.ofList (pointed 2 hundredths) := by
  intro h
  let b : Build := ⟨7, "7", "failed", "/api/v1/builds/7", "main", "develop", "UnitTest"⟩
  have hselection : Selection.ofPage [b] 1 = .ok ⟨[b]⟩ := ofPage_of_failed (by decide)
  have hresult := examine_one_log "BUILD FAILED\nSuite > case FAILED\nSuite > case FAILED\n"
  obtain ⟨-, -, hle, -⟩ := h _ (.start false) ⟨1, 1, .ofSeconds 60⟩ _ [b] ⟨[b]⟩ hresult rfl
    (List.pairwise_singleton _ b) hselection "Suite.case" 2 (by decide +kernel)
  revert hle
  decide +kernel

end JobHealth
