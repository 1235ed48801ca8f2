import JobHealth.Proofs.Examination
/-!
# `JobHealth.Proofs.Report` — what a report without failures says

The report says that there are no failures when no line reported that a whole
build failed.  It does not ask whether a test failed: a log may name failed
tests on lines of their own and end without a word on the build.  Then the
summary lists the tests and its report says that there are no failures.

| lines of the logs                    | report                | failed tests       |
| :----------------------------------- | :-------------------- | :----------------- |
| one reports a failed build           | rates, test by test   | those named        |
| none does                            | "No failures!"        | those named        |
-/

namespace JobHealth

open JobHealth.Feed JobHealth.Log

namespace Report

theorem renderLine_cleanLine : renderLine false cleanLine = "No failures! 100% success rate\n" := by
  decide +kernel

/-- The rule that opens every other report does not begin like the clean line, in colour or not. -/
theorem take_ruleLine_ne (colours : Bool) :
    (renderLine colours [inColour .yellow rule]).toList.take 4 ≠
      (renderLine colours cleanLine).toList.take 4 := by
  cases colours <;> decide +kernel

theorem length_ruleLine (colours : Bool) :
    4 ≤ (renderLine colours [inColour .yellow rule]).toList.length := by
  cases colours <;> decide +kernel

/-- A report is the clean line exactly if no line reported a failed build. -/
theorem render_eq_cleanLine_iff {colours : Bool} {base : String} {t : Totals}
    {failures : Log.Failures} :
    render colours base t failures = renderLine colours cleanLine ↔ t.failureLines = 0 := by
  rw [render, lines]
  constructor
  · intro h
    refine Decidable.byContradiction fun hne => ?_
    rw [if_neg hne, overallLines, List.cons_append, List.map_cons, String.join_cons] at h
    have htake := congrArg (fun text => text.toList.take 4) h
    simp only [String.toList_append, List.take_append_of_le_length (length_ruleLine colours)]
      at htake
    exact take_ruleLine_ne colours htake
  · intro h
    rw [if_pos h, List.map_singleton, String.join_cons, String.join_nil, String.append_empty]

end Report

theorem mem_testsNamed {test : String} {lines : List (Build × List Char)} :
    test ∈ testsNamed lines ↔ ∃ l ∈ lines, namedTest? l.2 = some test := by
  rw [testsNamed, List.mem_eraseDups, List.mem_filterMap]

/-- A report says that there are no failures exactly if no line of the logs reports a failed build,
whatever tests the lines name. -/
theorem clean_report_iff (s : Source) (colours : Bool) (progress : Progress) (q : Query)
    (summary : Summary) (h : (examine s colours progress q).result = .ok summary) :
    Report.renderLine false Report.cleanLine = "No failures! 100% success rate\n" ∧
    (summary.report = Report.renderLine colours Report.cleanLine ↔
      summary.totals.failureLines = 0) ∧
    ∃ page selection,
      (fetchPage s q.fetch).result = .ok page ∧
      Selection.ofPage page q.examine = .ok selection ∧
      let lines := linesOf (feedLogs s (fetchPage s q.fetch).limits.length selection.builds)
      (summary.report = Report.renderLine colours Report.cleanLine ↔
        ∀ l ∈ lines, ¬ "BUILD FAILED".toList <:+: l.2 ∧ ¬ "Test Failed!".toList <:+: l.2) ∧
      ∀ test, test ∈ summary.failingTests.map Prod.fst ↔
        ∃ l ∈ lines, namedTest? l.2 = some test := by
  obtain ⟨page, selection, hpage, hsel, haccounts⟩ := accounts_of_ok h
  have hclean : summary.report = Report.renderLine colours Report.cleanLine ↔
      summary.totals.failureLines = 0 := by
    rw [haccounts.report_eq]
    exact Report.render_eq_cleanLine_iff
  refine ⟨Report.renderLine_cleanLine, hclean, page, selection, hpage, hsel, ?_, fun test => ?_⟩
  · rw [hclean, haccounts.failureLines_eq, List.countP_eq_zero]
    refine forall₂_congr fun l _ => ?_
    rw [reportsBuildFailure_iff, not_or]
  · rw [haccounts.tests_eq, List.map_map, ← mem_testsNamed]
    exact List.map_id _ ▸ Iff.rfl

/-- A failed test is named and no failed build is reported. -/
theorem clean_report_of_one_log :
    let b : Build := ⟨7, "7", "failed", "/api/v1/builds/7", "main", "develop", "UnitTest"⟩
    let body := Text.Utf8.encode (writeBody (writtenRecords ["Suite > case FAILED\n"] "failed"))
    let s := Source.stored "https://ci" [b] fun _ => .open (Arrivals.ofChunks [.bytes body])
    ∃ summary, (examine s false (.start false) ⟨1, 1, .ofSeconds 60⟩).result = .ok summary ∧
      summary.totals.failureLines = 0 ∧ summary.report = "No failures! 100% success rate\n" := by
  intro b body s
  have hresult := examine_one_log "Suite > case FAILED\n"
  obtain ⟨htext, hclean, -⟩ :=
    clean_report_iff s false (.start false) ⟨1, 1, .ofSeconds 60⟩ _ hresult
  have hnone : (summarise false "https://ci"
      [(b, ⟨"failed", "Suite > case FAILED\n", .endEvent⟩)]).totals.failureLines = 0 := by
    decide +kernel
  exact ⟨_, hresult, hnone, (hclean.mpr hnone).trans htext⟩

/-- A report that says there are no failures does not mean that no test failed. -/
theorem clean_report_with_failed_test :
    ¬ ∀ (s : Source) (progress : Progress) (q : Query) (summary : Summary),
      (examine s false progress q).result = .ok summary →
      summary.report = "No failures! 100% success rate\n" → summary.failingTests = [] := by
  intro h
  have htests :=
    h _ (.start false) ⟨1, 1, .ofSeconds 60⟩ _ (examine_one_log "Suite > case FAILED\n")
    (by decide +kernel)
  revert htests
  decide +kernel

end JobHealth
