import JobHealth.Examination
import JobHealth.Proofs.Feed.RoundTrip
import JobHealth.Proofs.Log.Tally
/-!
# `JobHealth.Proofs.Examination` — a summary accounts for the logs it was made from

An examination that gives a summary went through every stage: a page, a
selection from it, and a visit to each selected build whose feed was read to
its end.  So the logs are those that the feeds carry, each with its build, and
the summary is what these logs come to, line by line.

| stage        | what is shown                                              |
| :----------- | :--------------------------------------------------------- |
| selection    | ids do not rise; no build twice unless the page has it twice |
| visits       | one for each selected build, in order; the log of each      |
| recording    | both counts of failure lines, the hangs, the grouping       |
| summary      | all of these, and the report made from them                 |
-/

namespace JobHealth

open JobHealth.Feed JobHealth.Log

/-! ## The selection -/

theorem mem_withStatus {status : Status} {page : List Build} {b : Build} :
    b ∈ Selection.withStatus status page ↔ b ∈ page ∧ b.status? = some status := by
  rw [Selection.withStatus, List.mem_filter, Build.hasStatus, beq_iff_eq]

theorem front_sublist (count : Nat) (builds : List Build) :
    (Selection.front count builds).Sublist builds := by
  unfold Selection.front
  split
  · exact List.Sublist.refl _
  · exact List.take_sublist _ _

theorem recency_trans (a b c : Build) (hab : decide (b.id ≤ a.id) = true)
    (hbc : decide (c.id ≤ b.id) = true) : decide (c.id ≤ a.id) = true := by
  rw [decide_eq_true_iff] at hab hbc ⊢
  exact UInt64.le_trans hbc hab

theorem recency_total (a b : Build) : (decide (b.id ≤ a.id) || decide (a.id ≤ b.id)) = true := by
  rw [Bool.or_eq_true, decide_eq_true_iff, decide_eq_true_iff]
  exact UInt64.le_total b.id a.id

theorem byRecency_pairwise (builds : List Build) :
    (Build.byRecency builds).Pairwise fun a b => b.id ≤ a.id :=
  (List.pairwise_mergeSort recency_trans recency_total builds).imp of_decide_eq_true

theorem completed_nodup {page : List Build} (h : page.Nodup) :
    (Selection.completed page).Nodup := by
  have hfilter : ∀ status, (Selection.withStatus status page).Nodup := fun _ => h.filter _
  have hboth :
      (Selection.withStatus .succeeded page ++ Selection.withStatus .failed page).Nodup := by
    refine List.nodup_append.mpr ⟨hfilter _, hfilter _, fun a ha b hb hab => ?_⟩
    subst hab
    have hs := (mem_withStatus.mp ha).2
    rw [(mem_withStatus.mp hb).2] at hs
    cases hs
  exact (List.mergeSort_perm _ _).nodup_iff.mpr hboth

theorem ofPage_eq_ok {page : List Build} {count : Nat} {selection : Selection}
    (h : Selection.ofPage page count = .ok selection) :
    selection.builds = Selection.front count (Selection.completed page) := by
  unfold Selection.ofPage at h
  split at h
  · cases h
  · simp only at h
    split at h
    · cases h
    · rw [← Except.ok.inj h]

/-- From a page of one failed build, that one is selected. -/
theorem ofPage_of_failed {b : Build} (h : b.status? = some .failed) :
    Selection.ofPage [b] 1 = .ok ⟨[b]⟩ := by
  have hunknown : Selection.unknown? [b] = none := by
    simp [Selection.unknown?, h]
  have hcompleted : Selection.completed [b] = [b] := by
    have hsucceeded : Selection.withStatus .succeeded [b] = [] := by
      simp [Selection.withStatus, Build.hasStatus, h]
    have hfailed : Selection.withStatus .failed [b] = [b] := by
      simp [Selection.withStatus, Build.hasStatus, h]
    rw [Selection.completed, hsucceeded, hfailed]
    exact List.mergeSort_singleton b
  rw [Selection.ofPage, hunknown, hcompleted]
  rfl

/-! ## The visits -/

/-- The log that the feed in an answer carries. -/
def loggedIn (answer : Answer Arrivals) : String :=
  match answer.result with
  | .ok feed => logBeforeEnd feed.items
  | .error _ => ""

/-- The logs that the feeds of builds carry, asked for in turn. -/
def feedLogs (s : Source) (before : Nat) (builds : List Build) : List (Build × String) :=
  (builds.zipIdx before).map fun (b, n) => (b, loggedIn (s.feed n b))

theorem visit_ok {s : Source} {timeout : Span} {before : Nat} {b : Build} {o : Outcome}
    (h : (visit s timeout before b).result = .ok o) : o.log = loggedIn (s.feed before b) := by
  unfold visit at h
  unfold loggedIn
  cases hfeed : (s.feed before b).result with
  | error f => simp only [hfeed, reduceCtorEq] at h
  | ok feed =>
      simp only [hfeed] at h
      exact log_of_consume h

theorem visit_build (s : Source) (timeout : Span) (before : Nat) (b : Build) :
    (visit s timeout before b).build = b := by
  unfold visit
  cases hfeed : (s.feed before b).result with
  | error f => simp only [hfeed]
  | ok feed => simp only [hfeed]

/-- If no visit failed, each build was visited in turn, and the logs are those of the feeds. -/
theorem visits_ok {s : Source} {timeout : Span} : ∀ {builds : List Build} {before : Nat}
    {examined : List (Build × Outcome)}, outcomes (visits s timeout before builds) = .ok examined →
      (visits s timeout before builds).map Visit.build = builds ∧
        logsOf examined = feedLogs s before builds := by
  intro builds
  induction builds with
  | nil =>
      intro before examined h
      obtain rfl : [] = examined := Except.ok.inj h
      exact ⟨rfl, rfl⟩
  | cons b builds ih =>
      intro before examined h
      have hbuild := visit_build s timeout before b
      cases hresult : (visit s timeout before b).result with
      | error f =>
          rw [visits] at h
          simp only [hresult, outcomes, reduceCtorEq] at h
      | ok o =>
          rw [visits] at h ⊢
          simp only [hresult, outcomes] at h ⊢
          cases hrest : outcomes (visits s timeout (before + 1) builds) with
          | error f => simp only [hrest, reduceCtorEq] at h
          | ok os =>
              simp only [hrest] at h
              obtain rfl := Except.ok.inj h
              obtain ⟨hbuilds, hlogs⟩ := ih hrest
              refine ⟨by rw [List.map_cons, hbuild, hbuilds], ?_⟩
              show ((visit s timeout before b).build, o.log) :: logsOf os = _
              rw [hlogs, hbuild, visit_ok hresult]
              rfl

/-! ## The recording -/

/-- All lines of logs, each with the build that logged it. -/
def linesOf (logs : List (Build × String)) : List (Build × List Char) :=
  logs.flatMap fun (b, log) => linesFrom b log

theorem linesOf_cons (x : Build × String) (logs : List (Build × String)) :
    linesOf (x :: logs) = linesFrom x.1 x.2 ++ linesOf logs := rfl

/-- What lines amount to. -/
def tallyOf (lines : List (Build × List Char)) : Tally where
  failures := Failures.empty.pushAll (namings lines)
  failureLines := lines.countP fun l => reportsBuildFailure l.2
  hangLines := lines.countP fun l => reportsHang l.2

theorem recordLog_eq (done : List (Build × List Char)) (n : Nat) (b : Build) (log : String) :
    recordLog (tallyOf done, n) (b, log) =
      (tallyOf (done ++ linesFrom b log),
        n + (linesFrom b log).countP fun l => reportsBuildFailure l.2) := by
  rw [recordLog, Tally.record_eq]
  simp only [tallyOf, namings_append, Failures.pushAll_append, List.countP_append]

/-- Recording logs in turn comes to what all their lines amount to. -/
theorem recordLogs_eq (logs : List (Build × String)) :
    recordLogs logs =
      (tallyOf (linesOf logs), (linesOf logs).countP fun l => reportsBuildFailure l.2) := by
  have hfold : ∀ done n, logs.foldl recordLog (tallyOf done, n) =
      (tallyOf (done ++ linesOf logs),
        n + (linesOf logs).countP fun l => reportsBuildFailure l.2) := by
    -- What is recorded so far is always the tally of the lines of the logs done so far.
    induction logs with
    | nil =>
        intro done n
        show (tallyOf done, n) = (tallyOf (done ++ []), n + 0)
        rw [List.append_nil, Nat.add_zero]
    | cons log logs ih =>
        intro done n
        rw [List.foldl_cons, recordLog_eq, ih, linesOf_cons, List.append_assoc, List.countP_append,
          Nat.add_assoc]
  have h := hfold [] 0
  rw [List.nil_append, Nat.zero_add] at h
  exact h

/-! ## The summary -/

/-- A summary accounts for the logs of builds: every number in it is a number of lines, and every
test is listed once, in the order in which the lines name them. -/
structure Summary.Accounts (summary : Summary) (colours : Bool) (base : String)
    (builds : List Build) (logs : List (Build × String)) : Prop where
  examined_eq : summary.examined = builds.map Build.name
  count_eq : summary.totals.examined = builds.length
  failureLines_eq :
    summary.totals.failureLines = (linesOf logs).countP fun l => reportsBuildFailure l.2
  /-- The tally, which counts on its own, counted the same. -/
  tally_eq : (recordLogs logs).1.failureLines = summary.totals.failureLines
  hangLines_eq : summary.totals.hangLines = (linesOf logs).countP fun l => reportsHang l.2
  tests_eq : summary.failingTests =
    (testsNamed (linesOf logs)).map fun test => (test, (linesNaming test (linesOf logs)).length)
  tests_nodup : (summary.failingTests.map Prod.fst).Nodup
  grouping_eq : (recordLogs logs).1.failures.entries =
    (testsNamed (linesOf logs)).map fun test =>
      (test, (linesNaming test (linesOf logs)).map Prod.fst)
  report_eq :
    summary.report = Report.render colours base summary.totals (recordLogs logs).1.failures

theorem entries_recordLogs (logs : List (Build × String)) :
    (recordLogs logs).1.failures.entries =
      (testsNamed (linesOf logs)).map fun test =>
        (test, (linesNaming test (linesOf logs)).map Prod.fst) := by
  rw [recordLogs_eq, ← grouped_namings]
  exact Failures.entries_pushAll_empty _

theorem counts_recordLogs (logs : List (Build × String)) :
    (recordLogs logs).1.failures.counts =
      (testsNamed (linesOf logs)).map fun test =>
        (test, (linesNaming test (linesOf logs)).length) := by
  rw [Failures.counts, entries_recordLogs, List.map_map]
  apply List.map_congr_left
  intro test _
  simp only [Function.comp, List.length_map]

theorem summarise_accounts (colours : Bool) (base : String) (examined : List (Build × Outcome)) :
    (summarise colours base examined).Accounts colours base (examined.map Prod.fst)
      (logsOf examined) where
  examined_eq := by rw [List.map_map]; rfl
  count_eq := by rw [List.length_map]; rfl
  failureLines_eq := by
    show (recordLogs (logsOf examined)).2 = _
    rw [recordLogs_eq]
  tally_eq := by
    show _ = (recordLogs (logsOf examined)).2
    rw [recordLogs_eq]
    rfl
  hangLines_eq := by
    show (recordLogs (logsOf examined)).1.hangLines = _
    rw [recordLogs_eq]
    rfl
  tests_eq := counts_recordLogs (logsOf examined)
  tests_nodup := by
    show ((recordLogs (logsOf examined)).1.failures.counts.map Prod.fst).Nodup
    rw [counts_recordLogs, List.map_map]
    exact (List.map_id _).symm ▸ testsNamed_nodup _
  grouping_eq := entries_recordLogs (logsOf examined)
  report_eq := rfl

/-! ## The examination -/

/-- An examination that gives a summary went through all its stages. -/
theorem examine_stages {s : Source} {colours : Bool} {progress : Progress} {q : Query}
    {summary : Summary} (h : (examine s colours progress q).result = .ok summary) :
    ∃ page selection examined,
      (fetchPage s q.fetch).result = .ok page ∧
      Selection.ofPage page q.examine = .ok selection ∧
      outcomes (visits s q.timeout (fetchPage s q.fetch).limits.length selection.builds) =
        .ok examined ∧
      (examine s colours progress q).opened =
        (visits s q.timeout (fetchPage s q.fetch).limits.length selection.builds).map Visit.build ∧
      summary = summarise colours s.baseUrl examined := by
  unfold examine at h ⊢
  cases hpage : (fetchPage s q.fetch).result with
  | error f => simp only [hpage, reduceCtorEq] at h
  | ok page =>
      simp only [hpage] at h ⊢
      cases hsel : Selection.ofPage page q.examine with
      | error f => simp only [hsel, reduceCtorEq] at h
      | ok selection =>
          simp only [hsel] at h ⊢
          cases hvisits : outcomes
              (visits s q.timeout (fetchPage s q.fetch).limits.length selection.builds) with
          | error f => simp only [hvisits, reduceCtorEq] at h
          | ok examined =>
              simp only [hvisits] at h
              exact ⟨page, selection, examined, rfl, hsel, hvisits, rfl, (Except.ok.inj h).symm⟩

theorem logsOf_map_fst (examined : List (Build × Outcome)) :
    (logsOf examined).map Prod.fst = examined.map Prod.fst := by
  rw [logsOf, List.map_map]
  rfl

theorem feedLogs_map_fst (s : Source) (before : Nat) (builds : List Build) :
    (feedLogs s before builds).map Prod.fst = builds := by
  rw [feedLogs, List.map_map]
  exact List.zipIdx_map_fst ..

/-- The stages for a source in memory with a single build. -/
theorem examine_single {b : Build} {feed : Arrivals} {o : Outcome} {timeout : Span}
    (hb : Selection.ofPage [b] 1 = .ok ⟨[b]⟩) (ho : consume b.name timeout feed = .ok o)
    (base : String) (colours : Bool) (progress : Progress) :
    let s := Source.stored base [b] fun _ => .open feed
    (examine s colours progress ⟨1, 1, timeout⟩).result = .ok (summarise colours base [(b, o)]) ∧
      feedLogs s 1 [b] = [(b, o.log)] := by
  intro s
  have hvisit : (visit s timeout 1 b).result = .ok o := ho
  have hvisits : outcomes (visits s timeout 1 [b]) = .ok [(b, o)] := by
    simp only [visits, hvisit, outcomes]
    rfl
  have hpage : fetchPage s 1 = ⟨[1], .ok [b], []⟩ := rfl
  constructor
  · simp only [examine, hpage, hb]
    simp only [List.length_singleton, hvisits]
    rfl
  · show [(b, loggedIn (s.feed 1 b))] = _
    rw [← visit_ok hvisit]

/-- The summary of an examination accounts for the logs of the builds that were selected. -/
theorem accounts_of_ok {s : Source} {colours : Bool} {progress : Progress} {q : Query}
    {summary : Summary} (h : (examine s colours progress q).result = .ok summary) :
    ∃ page selection,
      (fetchPage s q.fetch).result = .ok page ∧
      Selection.ofPage page q.examine = .ok selection ∧
      summary.Accounts colours s.baseUrl selection.builds
        (feedLogs s (fetchPage s q.fetch).limits.length selection.builds) := by
  obtain ⟨page, selection, examined, hpage, hsel, hvisits, -, rfl⟩ := examine_stages h
  obtain ⟨-, hlogs⟩ := visits_ok hvisits
  have hexamined : examined.map Prod.fst = selection.builds := by
    rw [← logsOf_map_fst, hlogs, feedLogs_map_fst]
  have haccounts := summarise_accounts colours s.baseUrl examined
  rw [hexamined, hlogs] at haccounts
  exact ⟨page, selection, hpage, hsel, haccounts⟩

/-- An examination that gives a summary opened the feeds of exactly the selected builds, each once
and the most recent first, and its summary accounts for the logs that these feeds carry. -/
theorem examination_accounts (s : Source) (colours : Bool) (progress : Progress) (q : Query)
    (summary : Summary) (h : (examine s colours progress q).result = .ok summary) :
    (∃ page selection,
      (fetchPage s q.fetch).result = .ok page ∧
      Selection.ofPage page q.examine = .ok selection ∧
      (examine s colours progress q).opened = selection.builds ∧
      (selection.builds.Pairwise fun a b => b.id ≤ a.id) ∧
      (page.Nodup → selection.builds.Nodup) ∧
      summary.Accounts colours s.baseUrl selection.builds
        (feedLogs s (fetchPage s q.fetch).limits.length selection.builds)) ∧
    (∀ line, reportsBuildFailure line = true ↔
      "BUILD FAILED".toList <:+: line ∨ "Test Failed!".toList <:+: line) ∧
    ∀ line, reportsHang line = true ↔ "timeout exceeded".toList <:+: line := by
  refine ⟨?_, reportsBuildFailure_iff, reportsHang_iff⟩
  obtain ⟨page, selection, examined, hpage, hsel, hvisits, hopened, rfl⟩ := examine_stages h
  obtain ⟨hbuilds, hlogs⟩ := visits_ok hvisits
  have hexamined : examined.map Prod.fst = selection.builds := by
    rw [← logsOf_map_fst, hlogs, feedLogs_map_fst]
  have hfront := ofPage_eq_ok hsel
  refine ⟨page, selection, hpage, hsel, hopened.trans hbuilds, ?_, ?_, ?_⟩
  · rw [hfront]
    exact (byRecency_pairwise _).sublist (front_sublist _ _)
  · intro hnodup
    rw [hfront]
    exact (completed_nodup hnodup).sublist (front_sublist _ _)
  · have haccounts := summarise_accounts colours s.baseUrl examined
    rwa [hexamined, hlogs] at haccounts

/-- One failed build whose log names a failed test twice. -/
theorem examination_of_one_build :
    let b : Build := ⟨7, "7", "failed", "/api/v1/builds/7", "main", "develop", "UnitTest"⟩
    let log := "BUILD FAILED\nSuite > case FAILED\nSuite > case FAILED\n"
    let body := Text.Utf8.encode (writeBody (writtenRecords [log] "failed"))
    let s := Source.stored "https://ci" [b] fun _ => .open (Arrivals.ofChunks [.bytes body])
    ∃ summary, (examine s false (.start false) ⟨1, 1, .ofSeconds 60⟩).result = .ok summary ∧
      summary.examined = ["7"] ∧ summary.totals.failureLines = 1 ∧
      summary.failingTests = [("Suite.case", 2)] := by
  intro b log body s
  have hbytes : bytesOf [.bytes body] = body := by rw [bytesOf, bytesOf, List.append_nil]
  have hfeed : Delivers (.ofSeconds 60) "failed" [log] (Arrivals.ofChunks [.bytes body]) :=
    delivers_writtenRecords hbytes rfl (.ofSeconds 60)
  have hjoin : String.join [log] = log := by
    rw [String.join_cons, String.join_nil, String.append_empty]
  have hconsume := consume_of_delivers hfeed b.name
  rw [hjoin] at hconsume
  have hselection : Selection.ofPage [b] 1 = .ok ⟨[b]⟩ := by
    have hsorted : Build.byRecency [b] = [b] := List.mergeSort_singleton b
    have hcompleted : Selection.completed [b] = [b] := hsorted
    rw [Selection.ofPage, hcompleted]
    rfl
  obtain ⟨hresult, hlogs⟩ := examine_single hselection hconsume "https://ci" false (.start false)
  obtain ⟨⟨page, selection, hpage, hsel, -, -, -, haccounts⟩, -⟩ :=
    examination_accounts s false (.start false) ⟨1, 1, .ofSeconds 60⟩ _ hresult
  obtain rfl : [b] = page := Except.ok.inj hpage
  obtain rfl : ⟨[b]⟩ = selection := Except.ok.inj (hselection.symm.trans hsel)
  have hlength : (fetchPage s 1).limits.length = 1 := rfl
  dsimp only at haccounts
  rw [hlength, hlogs] at haccounts
  refine ⟨_, hresult, haccounts.examined_eq, ?_, ?_⟩
  · rw [haccounts.failureLines_eq]
    decide +kernel
  · rw [haccounts.tests_eq]
    decide +kernel

/-! ## One build in memory -/

/-- A source in memory with one build, whose feed brings the log in pieces. -/
def Source.ofPieces (b : Build) (pieces : List String) : Source :=
  let body := Text.Utf8.encode (writeBody (writtenRecords pieces "failed"))
  .stored "https://ci" [b] fun _ => .open (Arrivals.ofChunks [.bytes body])

theorem visit_ofPieces (b c : Build) (pieces : List String) (before : Nat) :
    (visit (.ofPieces b pieces) (.ofSeconds 60) before c).result =
      .ok ⟨"failed", String.join pieces, .endEvent⟩ :=
  consume_of_delivers (delivers_writtenRecords (List.append_nil _) rfl (.ofSeconds 60)) c.name

/-- The only build of a source is examined, and its log is the pieces put together. -/
theorem examine_ofPieces {b : Build} (hb : b.status? = some .failed) (pieces : List String) :
    let e := examine (.ofPieces b pieces) false (.start false) ⟨1, 1, .ofSeconds 60⟩
    e.result = .ok (summarise false "https://ci"
        [(b, ⟨"failed", String.join pieces, .endEvent⟩)]) ∧
      e.opened = [b] := by
  intro e
  have hselection := ofPage_of_failed hb
  have hresult := (examine_single hselection (visit_ofPieces b b pieces 1) "https://ci" false
    (.start false)).1
  obtain ⟨page, selection, examined, hpage, hsel, hvisits, hopened, -⟩ := examine_stages hresult
  obtain rfl : [b] = page := Except.ok.inj hpage
  obtain rfl : ⟨[b]⟩ = selection := Except.ok.inj (hselection.symm.trans hsel)
  exact ⟨hresult, hopened.trans (visits_ok hvisits).1⟩

/-- One failed build, whose log arrives in one piece. -/
theorem examine_one_log (log : String) :
    let b : Build := ⟨7, "7", "failed", "/api/v1/builds/7", "main", "develop", "UnitTest"⟩
    let body := Text.Utf8.encode (writeBody (writtenRecords [log] "failed"))
    let s := Source.stored "https://ci" [b] fun _ => .open (Arrivals.ofChunks [.bytes body])
    (examine s false (.start false) ⟨1, 1, .ofSeconds 60⟩).result =
      .ok (summarise false "https://ci" [(b, ⟨"failed", log, .endEvent⟩)]) := by
  intro b body s
  have hjoin : String.join [log] = log := by
    rw [String.join_cons, String.join_nil, String.append_empty]
  have hresult := (examine_ofPieces (b := b) (by decide) [log]).1
  rwa [hjoin] at hresult

end JobHealth
