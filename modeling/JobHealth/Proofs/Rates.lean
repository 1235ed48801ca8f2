import JobHealth.Proofs.FailingTests
/-!
# `JobHealth.Proofs.Rates` — the numbers of a report are numbers

A report divides by the number of examined builds without asking whether there
are any.  It may: it states rates only if some line reported a failed build, and
lines come from the logs of examined builds.  So every rate is a finite number,
below zero if there are more lines than builds, and so is the number of builds
that is said to have passed.

| number               | where no line reports a failed build | otherwise              |
| :------------------- | :----------------------------------- | :--------------------- |
| rate over all builds | not stated                           | finite                 |
| rate of one test     | not stated                           | finite                 |
| passed builds        | not stated                           | the exact difference   |
-/

namespace JobHealth

open JobHealth.Feed JobHealth.Log JobHealth.Number

/-! ## Where the numbers of a report stand -/

namespace Report

/-- The lines on all builds, for a rate and a number of passed builds that are given. -/
def overallLinesFor (rate : Binary64) (passed : Int) (examined : Nat) : List Line :=
  [ [inColour .yellow rule]
  , [ plain " Overall build success rate: "
    , inColour .blue
        (fixed 5 rate ++ "% (" ++ toString passed ++ " of " ++ examined.repr ++ ")") ]
  , [inColour .yellow rule] ]

/-- The lines on one test, for a rate that is given. -/
def testLinesFor (rate : Binary64) (base : String) (entry : String × List Build) : List Line :=
  [ inColour .cyan (entry.1 ++ ":")
  , plain " "
  , inColour .red (entry.2.length.repr ++ " failures")
  , plain " "
  , inColour .blue ("(" ++ fixed 2 rate ++ "% success rate)") ] :: entry.2.map (buildLine base)

/-- A report for rates and a number of passed builds that are given. -/
def renderFor (rate : Nat → Binary64) (passed : Int) (colours : Bool) (base : String) (t : Totals)
    (failures : Failures) : String :=
  let lines : List Line :=
    if t.failureLines = 0 then [cleanLine]
    else overallLinesFor (rate t.failureLines) passed t.examined ++
      failures.entries.flatMap fun entry => testLinesFor (rate entry.2.length) base entry
  String.join (lines.map (renderLine colours))

theorem render_eq (colours : Bool) (base : String) (t : Totals) (failures : Failures) :
    render colours base t failures =
      renderFor (successRate t.examined) t.passed.toInt colours base t failures := rfl

/-- The numbers of failures whose rates a report states. -/
def rated (failureLines : Nat) (tests : List (String × Nat)) : List Nat :=
  if failureLines = 0 then [] else failureLines :: tests.map Prod.snd

theorem mem_rated {failureLines failed : Nat} {tests : List (String × Nat)} :
    failed ∈ rated failureLines tests ↔
      0 < failureLines ∧ (failed = failureLines ∨ ∃ test ∈ tests, test.2 = failed) := by
  unfold rated
  split
  · next h =>
    simp only [h, List.not_mem_nil, Nat.lt_irrefl, false_and]
  · next h =>
    simp only [List.mem_cons, List.mem_map, Nat.pos_of_ne_zero h, true_and]

/-- A report depends on the rates of these numbers only. -/
theorem renderFor_congr {rate rate' : Nat → Binary64} {t : Totals} {failures : Failures}
    (h : ∀ failed ∈ rated t.failureLines failures.counts, rate failed = rate' failed)
    (passed : Int) (colours : Bool) (base : String) :
    renderFor rate passed colours base t failures =
      renderFor rate' passed colours base t failures := by
  unfold renderFor
  split
  · rfl
  · next hne =>
    have hpos : 0 < t.failureLines := Nat.pos_of_ne_zero hne
    have htests : ∀ entry ∈ failures.entries,
        testLinesFor (rate entry.2.length) base entry =
          testLinesFor (rate' entry.2.length) base entry := by
      intro entry hentry
      rw [h _ (mem_rated.mpr ⟨hpos, .inr ⟨_, List.mem_map_of_mem hentry, rfl⟩⟩)]
    rw [h _ (mem_rated.mpr ⟨hpos, .inl rfl⟩), List.flatMap_congr htests]

end Report

/-! ## Numbers in text -/

/-- A text of digits, points and signs; so neither infinite nor no number at all. -/
def Numeric (text : String) : Prop := ∀ c ∈ text.toList, c.isDigit = true ∨ c = '.' ∨ c = '-'

theorem isDigit_of_mem_padded {width n : Nat} {c : Char} (h : c ∈ padded width n) :
    c.isDigit = true := by
  rcases List.mem_append.mp h with hzero | hdigit
  · rw [List.eq_of_mem_replicate hzero]
    rfl
  · exact Nat.isDigit_of_mem_toDigits (by decide) (by decide) hdigit

theorem mem_pointed {places n : Nat} {c : Char} (h : c ∈ pointed places n) :
    c.isDigit = true ∨ c = '.' := by
  rcases List.mem_append.mp h with hwhole | hpart
  · exact .inl (Nat.isDigit_of_mem_toDigits (by decide) (by decide) hwhole)
  · split at hpart
    · cases hpart
    · rcases List.mem_cons.mp hpart with hpoint | hdigit
      · exact .inr hpoint
      · exact .inl (isDigit_of_mem_padded hdigit)

theorem numeric_fixed (places : Nat) (q : Rat) : Numeric (fixed places (.finite q)) := by
  intro c hc
  unfold fixed at hc
  simp only [String.toList_ofList] at hc
  split at hc
  · rcases List.mem_cons.mp hc with hsign | hdigits
    · exact .inr (.inr hsign)
    · exact (mem_pointed hdigits).imp_right .inl
  · exact (mem_pointed hc).imp_right .inl

/-! ## The number of passed builds -/

/-- In signed words, the difference of two numbers that fit is exact. -/
theorem Totals.toInt_passed {t : Totals} (hexamined : t.examined < 2 ^ 63)
    (hlines : t.failureLines < 2 ^ 63) :
    t.passed.toInt = (t.examined : Int) - t.failureLines := by
  rw [Totals.passed, ← Int64.ofInt_eq_ofNat, ← Int64.ofInt_eq_ofNat, ← Int64.ofInt_sub]
  exact Int64.toInt_ofInt_of_le (by omega) (by omega)

/-! ## The rates -/

/-- Where a line of the logs says anything, a build was examined. -/
theorem Summary.Accounts.examined_pos {summary : Summary} {colours : Bool} {base : String}
    {builds : List Build} {logs : List (Build × String)}
    (h : summary.Accounts colours base builds logs) (hbuilds : logs.map Prod.fst = builds)
    (hsome : 0 < summary.totals.failureLines ∨ summary.failingTests ≠ []) :
    1 ≤ summary.totals.examined := by
  rw [h.count_eq, ← hbuilds, List.length_map]
  refine Nat.pos_of_ne_zero fun hzero => ?_
  obtain rfl := List.length_eq_zero_iff.mp hzero
  rcases hsome with hlines | htests
  · rw [h.failureLines_eq] at hlines
    cases hlines
  · exact htests (h.tests_eq.trans rfl)

/-- Every count of a summary fits into the 64 bits that it is counted in. -/
structure Summary.InWords (summary : Summary) : Prop where
  examined_lt : summary.totals.examined < 2 ^ 64
  failureLines_lt : summary.totals.failureLines < 2 ^ 64
  tests_lt : ∀ test ∈ summary.failingTests, test.2 < 2 ^ 64

/-- Every number that a report states is a number.  If a line reported a failed build or named a
failed test, builds were examined, so no rate is divided by zero; rates are finite and are written
as such.  The builds that passed are the examined ones less the failure lines. -/
theorem rates_of_summary (s : Source) (colours : Bool) (progress : Progress) (q : Query)
    (summary : Summary) (h : (examine s colours progress q).result = .ok summary) :
    let t := summary.totals
    let rated := Report.rated t.failureLines summary.failingTests
    (0 < t.failureLines ∨ summary.failingTests ≠ [] → 1 ≤ t.examined) ∧
    (summary.InWords →
      (∀ failed ∈ rated, ∃ all, Binary64.ofNat t.examined = .finite all ∧ all ≠ 0) ∧
      ∃ rate : Nat → Rat,
        (∀ failed ∈ rated, successRate t.examined failed = .finite (rate failed) ∧
          ∀ places, Numeric (fixed places (.finite (rate failed)))) ∧
        ∃ failures : Failures, failures.counts = summary.failingTests ∧
          summary.report = Report.renderFor (fun failed => .finite (rate failed)) t.passed.toInt
            colours s.baseUrl t failures) ∧
    (t.examined < 2 ^ 63 → t.failureLines < 2 ^ 63 →
      t.passed.toInt = (t.examined : Int) - t.failureLines ∧
      t.passed.toInt + t.failureLines = t.examined) := by
  intro t rated
  obtain ⟨page, selection, hpage, hsel, haccounts⟩ := accounts_of_ok h
  have hexamined := haccounts.examined_pos (feedLogs_map_fst s _ _)
  generalize feedLogs s (fetchPage s q.fetch).limits.length selection.builds = logs at haccounts
  refine ⟨hexamined, fun hwords => ?_, fun he hl => ?_⟩
  · have hpos : ∀ failed ∈ rated, 0 < t.examined := fun failed hmem =>
      hexamined (.inl (Report.mem_rated.mp hmem).1)
    have hword : ∀ failed ∈ rated, failed < 2 ^ 64 := by
      intro failed hmem
      obtain ⟨-, rfl | ⟨test, htest, rfl⟩⟩ := Report.mem_rated.mp hmem
      · exact hwords.failureLines_lt
      · exact hwords.tests_lt test htest
    constructor
    · intro failed hmem
      have hhalf := (Binary64.magnitude_natCast_bounds (hpos failed hmem)).1
      exact ⟨_, Binary64.ofNat_eq hwords.examined_lt, by linarith⟩
    · have hfinite : ∀ failed ∈ rated, ∃ rate, successRate t.examined failed = .finite rate :=
        fun failed hmem =>
          successRate_finite (hpos failed hmem) hwords.examined_lt (hword failed hmem)
      choose! rate hrate using hfinite
      have hcounts : (recordLogs logs).1.failures.counts = summary.failingTests := by
        rw [counts_recordLogs, haccounts.tests_eq]
      refine ⟨rate, fun failed hmem => ⟨hrate failed hmem, fun places => numeric_fixed places _⟩,
        _, hcounts, ?_⟩
      rw [haccounts.report_eq, Report.render_eq]
      exact Report.renderFor_congr (hcounts ▸ hrate) _ _ _
  · have hpassed := Totals.toInt_passed he hl
    exact ⟨hpassed, by rw [hpassed]; exact Int.sub_add_cancel _ _⟩

/-- Two lines report that the only build failed, so one build less than none passed. -/
theorem rates_of_two_lines :
    let b : Build := ⟨7, "7", "failed", "/api/v1/builds/7", "main", "develop", "UnitTest"⟩
    let log := "BUILD FAILED\nTest Failed!\nSuite > case FAILED\n"
    let body := Text.Utf8.encode (writeBody (writtenRecords [log] "failed"))
    let s := Source.stored "https://ci" [b] fun _ => .open (Arrivals.ofChunks [.bytes body])
    ∃ summary, (examine s false (.start false) ⟨1, 1, .ofSeconds 60⟩).result = .ok summary ∧
      summary.InWords ∧ summary.failingTests = [("Suite.case", 1)] ∧
      summary.totals.passed.toInt = -1 ∧
      ∃ rate : Nat → Rat, successRate 1 2 = .finite (rate 2) ∧ successRate 1 1 = .finite (rate 1) ∧
        ∃ failures : Failures, failures.counts = summary.failingTests ∧
          summary.report = Report.renderFor (fun failed => .finite (rate failed)) (-1)
            false "https://ci" summary.totals failures := by
  intro b log body s
  obtain ⟨summary, hsummary⟩ : ∃ summary,
      summary = summarise false "https://ci" [(b, ⟨"failed", log, .endEvent⟩)] := ⟨_, rfl⟩
  have hresult : (examine s false (.start false) ⟨1, 1, .ofSeconds 60⟩).result = .ok summary := by
    rw [hsummary]
    exact examine_one_log log
  have htotals : summary.totals = ⟨1, 2, 0⟩ := by
    rw [hsummary]
    decide +kernel
  have htests : summary.failingTests = [("Suite.case", 1)] := by
    rw [hsummary]
    decide +kernel
  have hwords : summary.InWords := by
    constructor
    · rw [htotals]
      decide
    · rw [htotals]
      decide
    · rw [htests]
      decide
  obtain ⟨-, hrates, hpassed⟩ :=
    rates_of_summary s false (.start false) ⟨1, 1, .ofSeconds 60⟩ _ hresult
  obtain ⟨-, rate, hrate, hreport⟩ := hrates hwords
  have hminus : summary.totals.passed.toInt = -1 := by
    rw [(hpassed (by rw [htotals]; decide) (by rw [htotals]; decide)).1, htotals]
    rfl
  rw [hminus] at hreport
  rw [htotals, htests] at hrate
  exact ⟨_, hresult, hwords, htests, hminus, rate, (hrate 2 (by decide)).1,
    (hrate 1 (by decide)).1, hreport⟩

end JobHealth
