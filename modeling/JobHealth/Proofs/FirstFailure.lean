import JobHealth.Proofs.Examination
/-!
# `JobHealth.Proofs.FirstFailure` — where an examination stops, and what was done by then

An examination is a row of steps, each of which needs what the ones before it
gave.  It fails with the fault of the first step that fails, and what it has
asked for and how far its progress has come tell which step that was.

| step                   | can fail because                  | feeds asked for | position |
| :--------------------- | :-------------------------------- | :-------------- | :------- |
| fetching the probe     | it is refused, empty, no number   | none            | 0        |
| fetching the page      | it is refused                     | none            | 0        |
| selecting builds       | a status is unknown, too few      | none            | 0        |
| opening feed `k`       | it is refused                     | those to `k`    | `k`      |
| reading feed `k`       | it is late, broken or cut short   | those to `k`    | `k`      |

The steps are relations of their own: each is said by what the source answers
and not by what an examination does with the answer.
-/

namespace JobHealth

open JobHealth.Feed

/-! ## The steps -/

/-- What comes of fetching a page, and the limits that are asked for.  A limit of 0 asks for the
full history: a probe of one build comes first, and its name is the limit. -/
inductive Fetches (s : Source) : (limit : Nat) → List Nat → Except Fault (List Build) → Prop
  | page {limit : Nat} : limit ≠ 0 → Fetches s limit [limit] (s.page 0 limit).result
  | noProbe {f : Fault} : (s.page 0 1).result = .error f → Fetches s 0 [1] (.error f)
  | neverRan : (s.page 0 1).result = .ok [] → Fetches s 0 [1] (.error .emptyHistory)
  | notNumber {latest : Build} {older : List Build} : (s.page 0 1).result = .ok (latest :: older) →
      numberUpTo? maxLimit latest.name = none →
      Fetches s 0 [1] (.error (.nameNotNumber latest.name))
  | history {latest : Build} {older : List Build} {total : Nat} :
      (s.page 0 1).result = .ok (latest :: older) →
      numberUpTo? maxLimit latest.name = some total →
      Fetches s 0 [1, total] (s.page 1 total).result

/-- What comes of opening the feed of a build and reading it. -/
inductive Reads (s : Source) (timeout : Span) (before : Nat) (b : Build) :
    Except Fault Outcome → Prop
  | refused {f : Fault} : (s.feed before b).result = .error f → Reads s timeout before b (.error f)
  | opened {feed : Arrivals} : (s.feed before b).result = .ok feed →
      Reads s timeout before b (consume b.name timeout feed)

/-- The feeds of the first `k` of the builds can all be read, asked for in turn. -/
def ReadsFirst (s : Source) (timeout : Span) (before : Nat) (builds : List Build) (k : Nat) :
    Prop :=
  ∀ i < k, ∃ b o, builds[i]? = some b ∧ Reads s timeout (before + i) b (.ok o)

/-- A step of an examination. -/
inductive Step where
  | fetch
  | selection
  /-- Opening and reading the feed of build `k` of the selected ones. -/
  | feed (selected : List Build) (k : Nat)

/-- The step fails with that fault, and all steps before it succeeded. -/
inductive FailsFirst (s : Source) (q : Query) : Step → Fault → Prop
  | fetch {limits : List Nat} {f : Fault} : Fetches s q.fetch limits (.error f) →
      FailsFirst s q .fetch f
  | selection {limits : List Nat} {page : List Build} {f : Fault} :
      Fetches s q.fetch limits (.ok page) → Selection.ofPage page q.examine = .error f →
      FailsFirst s q .selection f
  | feed {limits : List Nat} {page : List Build} {selection : Selection} {k : Nat} {b : Build}
      {f : Fault} :
      Fetches s q.fetch limits (.ok page) → Selection.ofPage page q.examine = .ok selection →
      ReadsFirst s q.timeout limits.length selection.builds k →
      selection.builds[k]? = some b → Reads s q.timeout (limits.length + k) b (.error f) →
      FailsFirst s q (.feed selection.builds k) f

/-! ## The steps of an examination -/

theorem fetches_iff {s : Source} {limit : Nat} {limits : List Nat}
    {result : Except Fault (List Build)} :
    Fetches s limit limits result ↔
      (fetchPage s limit).limits = limits ∧ (fetchPage s limit).result = result := by
  constructor
  · intro h
    cases h with
    | page hlimit =>
        rw [fetchPage, if_neg hlimit]
        exact ⟨rfl, rfl⟩
    | noProbe hprobe =>
        simp only [fetchPage, hprobe]
        exact ⟨rfl, rfl⟩
    | neverRan hprobe =>
        simp only [fetchPage, hprobe]
        exact ⟨rfl, rfl⟩
    | notNumber hprobe hname =>
        simp only [fetchPage, hprobe, Except.bind, historyLength, hname]
        exact ⟨rfl, rfl⟩
    | history hprobe hname =>
        simp only [fetchPage, hprobe, Except.bind, historyLength, hname]
        exact ⟨rfl, rfl⟩
  · rintro ⟨rfl, rfl⟩
    by_cases hlimit : limit = 0
    · subst hlimit
      cases hprobe : (s.page 0 1).result with
      | error f =>
          simp only [fetchPage, hprobe]
          exact .noProbe hprobe
      | ok probe =>
          cases probe with
          | nil =>
              simp only [fetchPage, hprobe]
              exact .neverRan hprobe
          | cons latest older =>
              cases hname : numberUpTo? maxLimit latest.name with
              | none =>
                  simp only [fetchPage, hprobe, Except.bind, historyLength, hname]
                  exact .notNumber hprobe hname
              | some total =>
                  simp only [fetchPage, hprobe, Except.bind, historyLength, hname]
                  exact .history hprobe hname
    · simp only [fetchPage, if_neg hlimit]
      exact .page hlimit

theorem reads_iff {s : Source} {timeout : Span} {before : Nat} {b : Build}
    {result : Except Fault Outcome} :
    Reads s timeout before b result ↔ (visit s timeout before b).result = result := by
  constructor
  · intro h
    cases h with
    | refused hfeed => simp only [visit, hfeed]
    | opened hfeed => simp only [visit, hfeed]
  · rintro rfl
    cases hfeed : (s.feed before b).result with
    | error f =>
        simp only [visit, hfeed]
        exact .refused hfeed
    | ok feed =>
        simp only [visit, hfeed]
        exact .opened hfeed

theorem readsFirst_zero (s : Source) (timeout : Span) (before : Nat) (builds : List Build) :
    ReadsFirst s timeout before builds 0 := nofun

theorem readsFirst_succ_iff {s : Source} {timeout : Span} {before k : Nat} {b : Build}
    {builds : List Build} :
    ReadsFirst s timeout before (b :: builds) (k + 1) ↔
      (∃ o, Reads s timeout before b (.ok o)) ∧ ReadsFirst s timeout (before + 1) builds k := by
  have hshift : ∀ i, before + (i + 1) = before + 1 + i := fun i => by omega
  constructor
  · intro h
    constructor
    · obtain ⟨b', o, hb, hread⟩ := h 0 (Nat.succ_pos k)
      obtain rfl := Option.some.inj hb
      exact ⟨o, hread⟩
    · intro i hi
      obtain ⟨b', o, hb, hread⟩ := h (i + 1) (Nat.succ_lt_succ hi)
      exact ⟨b', o, hb, hshift i ▸ hread⟩
  · rintro ⟨⟨o, hread⟩, h⟩ i hi
    cases i with
    | zero => exact ⟨b, o, rfl, hread⟩
    | succ i =>
        obtain ⟨b', o', hb, hread'⟩ := h i (Nat.lt_of_succ_lt_succ hi)
        exact ⟨b', o', hb, hshift i ▸ hread'⟩

/-! ## The visits -/

theorem visits_cons_ok {s : Source} {timeout : Span} {before : Nat} {b : Build} {o : Outcome}
    (h : (visit s timeout before b).result = .ok o) (builds : List Build) :
    visits s timeout before (b :: builds) =
      visit s timeout before b :: visits s timeout (before + 1) builds := by
  rw [visits]
  simp only [h]

theorem visits_cons_error {s : Source} {timeout : Span} {before : Nat} {b : Build} {f : Fault}
    (h : (visit s timeout before b).result = .error f) (builds : List Build) :
    visits s timeout before (b :: builds) = [visit s timeout before b] := by
  rw [visits]
  simp only [h]

theorem outcomes_cons_ok {v : Visit} {o : Outcome} (h : v.result = .ok o) (vs : List Visit) :
    outcomes (v :: vs) = (outcomes vs).map fun os => (v.build, o) :: os := by
  rw [outcomes]
  simp only [h]
  cases outcomes vs with
  | error f => rfl
  | ok os => rfl

theorem outcomes_cons_error {v : Visit} {f : Fault} (h : v.result = .error f) (vs : List Visit) :
    outcomes (v :: vs) = .error f := by
  rw [outcomes]
  simp only [h]

theorem Progress.visit_ok {v : Visit} {o : Outcome} (h : v.result = .ok o) (p : Progress) :
    p.visit v = { p with position := p.position + 1, message := "build " ++ v.build.name } := by
  rw [Progress.visit]
  simp only [h]
  rfl

theorem Progress.visit_error {v : Visit} {f : Fault} (h : v.result = .error f) (p : Progress) :
    p.visit v = { p with message := "build " ++ v.build.name } := by
  rw [Progress.visit]
  simp only [h]
  rfl

theorem position_succ (position : UInt64) (k : Nat) :
    position + 1 + UInt64.ofNat k = position + UInt64.ofNat (k + 1) := by
  rw [UInt64.add_assoc, UInt64.ofNat_add, UInt64.add_comm (UInt64.ofNat k)]
  rfl

/-- The first build whose feed cannot be read ends the visits. -/
theorem visits_of_failure {s : Source} {timeout : Span} {k : Nat} {b : Build} {f : Fault} :
    ∀ {before : Nat} {builds : List Build}, ReadsFirst s timeout before builds k →
      builds[k]? = some b → Reads s timeout (before + k) b (.error f) →
      outcomes (visits s timeout before builds) = .error f ∧
        (visits s timeout before builds).map Visit.build = builds.take (k + 1) ∧
        ∀ p, (visits s timeout before builds).foldl Progress.visit p =
          { p with position := p.position + UInt64.ofNat k, message := "build " ++ b.name } := by
  induction k with
  | zero =>
      intro before builds _ hb hread
      cases builds with
      | nil => cases hb
      | cons c builds =>
          obtain rfl : c = b := Option.some.inj hb
          have hvisit := reads_iff.mp hread
          rw [Nat.add_zero] at hvisit
          have hbuild := visit_build s timeout before c
          rw [visits_cons_error hvisit, outcomes_cons_error hvisit]
          refine ⟨rfl, by rw [List.map_singleton, hbuild]; rfl, fun p => ?_⟩
          have hposition : p.position + UInt64.ofNat 0 = p.position := UInt64.add_zero _
          rw [List.foldl_cons, List.foldl_nil, Progress.visit_error hvisit, hbuild, hposition]
  | succ k ih =>
      intro before builds hfirst hb hread
      cases builds with
      | nil => cases hb
      | cons c builds =>
          obtain ⟨⟨o, hc⟩, hrest⟩ := readsFirst_succ_iff.mp hfirst
          have hvisit := reads_iff.mp hc
          have hbuild := visit_build s timeout before c
          have hshift : before + (k + 1) = before + 1 + k := by omega
          obtain ⟨houtcomes, hbuilds, hprogress⟩ := ih hrest hb (hshift ▸ hread)
          rw [visits_cons_ok hvisit, outcomes_cons_ok hvisit, houtcomes]
          refine ⟨rfl, by rw [List.map_cons, hbuild, hbuilds]; rfl, fun p => ?_⟩
          rw [List.foldl_cons, Progress.visit_ok hvisit, hprogress, position_succ]

/-- Visits end with a fault only at a first build whose feed cannot be read. -/
theorem failure_of_visits {s : Source} {timeout : Span} {f : Fault} {builds : List Build} :
    ∀ {before : Nat}, outcomes (visits s timeout before builds) = .error f →
      ∃ k b, ReadsFirst s timeout before builds k ∧ builds[k]? = some b ∧
        Reads s timeout (before + k) b (.error f) := by
  induction builds with
  | nil =>
      intro before h
      cases h
  | cons b builds ih =>
      intro before h
      cases hvisit : (visit s timeout before b).result with
      | error f' =>
          rw [visits_cons_error hvisit, outcomes_cons_error hvisit] at h
          obtain rfl : f' = f := Except.error.inj h
          exact ⟨0, b, readsFirst_zero _ _ _ _, rfl, reads_iff.mpr hvisit⟩
      | ok o =>
          rw [visits_cons_ok hvisit, outcomes_cons_ok hvisit] at h
          cases hrest : outcomes (visits s timeout (before + 1) builds) with
          | ok os => rw [hrest] at h; cases h
          | error f' =>
              rw [hrest] at h
              obtain rfl : f' = f := Except.error.inj h
              obtain ⟨k, c, hfirst, hc, hread⟩ := ih hrest
              have hshift : before + 1 + k = before + (k + 1) := by omega
              exact ⟨k + 1, c, readsFirst_succ_iff.mpr ⟨⟨o, reads_iff.mpr hvisit⟩, hfirst⟩, hc,
                hshift ▸ hread⟩

/-- If no visit fails, all feeds were read, and the position has gone up by their number. -/
theorem visits_all_read {s : Source} {timeout : Span} {builds : List Build} :
    ∀ {before : Nat} {examined : List (Build × Outcome)},
      outcomes (visits s timeout before builds) = .ok examined →
      ReadsFirst s timeout before builds builds.length ∧
        ∀ p, ((visits s timeout before builds).foldl Progress.visit p).length = p.length ∧
          ((visits s timeout before builds).foldl Progress.visit p).position =
            p.position + UInt64.ofNat builds.length := by
  induction builds with
  | nil =>
      intro before examined _
      exact ⟨readsFirst_zero _ _ _ _, fun p => ⟨rfl, (UInt64.add_zero _).symm⟩⟩
  | cons b builds ih =>
      intro before examined h
      cases hvisit : (visit s timeout before b).result with
      | error f =>
          rw [visits_cons_error hvisit, outcomes_cons_error hvisit] at h
          cases h
      | ok o =>
          rw [visits_cons_ok hvisit, outcomes_cons_ok hvisit] at h
          cases hrest : outcomes (visits s timeout (before + 1) builds) with
          | error f => rw [hrest] at h; cases h
          | ok os =>
              obtain ⟨hfirst, hprogress⟩ := ih hrest
              refine ⟨readsFirst_succ_iff.mpr ⟨⟨o, reads_iff.mpr hvisit⟩, hfirst⟩, fun p => ?_⟩
              rw [visits_cons_ok hvisit, List.foldl_cons, Progress.visit_ok hvisit]
              obtain ⟨hlength, hposition⟩ := hprogress
                { p with position := p.position + 1, message := "build " ++
                    (visit s timeout before b).build.name }
              exact ⟨hlength, hposition.trans (position_succ _ _)⟩

/-! ## The examination -/

section
variable {s : Source} {q : Query} (colours : Bool) (progress : Progress)

/-- An examination that fetches no page asks for nothing further. -/
theorem examine_without_page {f : Fault} (h : (fetchPage s q.fetch).result = .error f) :
    examine s colours progress q =
      ⟨(fetchPage s q.fetch).limits, [], progress, (fetchPage s q.fetch).notes, .error f⟩ := by
  rw [examine]
  simp only [h]

/-- Without a selection no feed is asked for. -/
theorem examine_without_selection {page : List Build} {f : Fault}
    (hpage : (fetchPage s q.fetch).result = .ok page)
    (hsel : Selection.ofPage page q.examine = .error f) :
    examine s colours progress q =
      ⟨(fetchPage s q.fetch).limits, [], progress,
        (fetchPage s q.fetch).notes ++ Selection.notes page q.examine, .error f⟩ := by
  rw [examine]
  simp only [hpage, hsel]

/-- With a selection, its builds are visited. -/
theorem examine_visits {page : List Build} {selection : Selection}
    (hpage : (fetchPage s q.fetch).result = .ok page)
    (hsel : Selection.ofPage page q.examine = .ok selection) :
    let vs := visits s q.timeout (fetchPage s q.fetch).limits.length selection.builds
    let e := examine s colours progress q
    e.limits = (fetchPage s q.fetch).limits ∧
      e.result = (outcomes vs).map (summarise colours s.baseUrl) ∧
      e.opened = vs.map Visit.build ∧
      e.progress = vs.foldl Progress.visit
        (progress.withLength (UInt64.ofNat selection.builds.length)) := by
  intro vs e
  cases houtcomes : outcomes vs with
  | error f =>
      simp only [e, vs, examine, hpage, hsel] at houtcomes ⊢
      simp only [houtcomes, Except.map, and_self]
  | ok examined =>
      simp only [e, vs, examine, hpage, hsel] at houtcomes ⊢
      simp only [houtcomes, Except.map, and_self]

/-- The limits that are asked for are those of the fetch, whatever comes of it and behind it. -/
theorem limits_examine : (examine s colours progress q).limits = (fetchPage s q.fetch).limits := by
  cases hpage : (fetchPage s q.fetch).result with
  | error f => rw [examine_without_page colours progress hpage]
  | ok page =>
      cases hsel : Selection.ofPage page q.examine with
      | error f => rw [examine_without_selection colours progress hpage hsel]
      | ok selection => exact (examine_visits colours progress hpage hsel).1

theorem ofPage_pairwise {page : List Build} {count : Nat} {selection : Selection}
    (h : Selection.ofPage page count = .ok selection) :
    selection.builds.Pairwise fun a b => b.id ≤ a.id := by
  rw [ofPage_eq_ok h]
  exact (byRecency_pairwise _).sublist (front_sublist _ _)

/-- If the first failing step is not a feed, no feed is asked for and there is no progress. -/
theorem examine_of_no_feed {f : Fault} (h : FailsFirst s q .fetch f ∨ FailsFirst s q .selection f) :
    let e := examine s colours progress q
    e.result = .error f ∧ e.opened = [] ∧ e.progress = progress := by
  rcases h with h | h
  · cases h with
    | fetch hfetch =>
        rw [examine_without_page colours progress (fetches_iff.mp hfetch).2]
        exact ⟨rfl, rfl, rfl⟩
  · cases h with
    | selection hfetch hsel =>
        rw [examine_without_selection colours progress (fetches_iff.mp hfetch).2 hsel]
        exact ⟨rfl, rfl, rfl⟩

/-- If the first failing step is a feed, the feeds up to that one are asked for, and the progress
stands there. -/
theorem examine_of_feed {selected : List Build} {k : Nat} {f : Fault}
    (h : FailsFirst s q (.feed selected k) f) :
    let e := examine s colours progress q
    e.result = .error f ∧
      ∃ b, selected[k]? = some b ∧ (selected.Pairwise fun a b => b.id ≤ a.id) ∧
        e.opened = selected.take (k + 1) ∧
        e.progress =
          { progress with
            length := some (UInt64.ofNat selected.length)
            position := progress.position + UInt64.ofNat k
            message := "build " ++ b.name } := by
  intro e
  cases h with
  | @feed limits page selection k b f hfetch hsel hfirst hb hread =>
      obtain ⟨rfl, hpage⟩ := fetches_iff.mp hfetch
      obtain ⟨-, hresult, hopened, hprogress⟩ := examine_visits colours progress hpage hsel
      obtain ⟨houtcomes, hbuilds, hfold⟩ := visits_of_failure hfirst hb hread
      rw [houtcomes] at hresult
      exact ⟨hresult, b, hb, ofPage_pairwise hsel, hopened.trans hbuilds,
        hprogress.trans (hfold _)⟩

/-- An examination in which a step fails first has the fault of that step. -/
theorem result_of_failsFirst {step : Step} {f : Fault} (h : FailsFirst s q step f) :
    (examine s colours progress q).result = .error f := by
  cases step with
  | fetch => exact (examine_of_no_feed colours progress (.inl h)).1
  | selection => exact (examine_of_no_feed colours progress (.inr h)).1
  | feed selected k => exact (examine_of_feed colours progress h).1

/-- An examination that fails does so at a first step that fails. -/
theorem failsFirst_of_examine {f : Fault} (h : (examine s colours progress q).result = .error f) :
    ∃ step, FailsFirst s q step f := by
  cases hpage : (fetchPage s q.fetch).result with
  | error f' =>
      rw [examine_without_page colours progress hpage] at h
      obtain rfl : f' = f := Except.error.inj h
      exact ⟨.fetch, .fetch (fetches_iff.mpr ⟨rfl, hpage⟩)⟩
  | ok page =>
      have hfetch := fetches_iff.mpr ⟨rfl, hpage⟩
      cases hsel : Selection.ofPage page q.examine with
      | error f' =>
          rw [examine_without_selection colours progress hpage hsel] at h
          obtain rfl : f' = f := Except.error.inj h
          exact ⟨.selection, .selection hfetch hsel⟩
      | ok selection =>
          rw [(examine_visits colours progress hpage hsel).2.1] at h
          cases houtcomes : outcomes
              (visits s q.timeout (fetchPage s q.fetch).limits.length selection.builds) with
          | ok examined => rw [houtcomes] at h; cases h
          | error f' =>
              rw [houtcomes] at h
              obtain rfl : f' = f := Except.error.inj h
              obtain ⟨k, b, hfirst, hb, hread⟩ := failure_of_visits houtcomes
              exact ⟨_, .feed hfetch hsel hfirst hb hread⟩

/-- An examination that gives a summary has read all feeds. -/
theorem all_read_of_ok {summary : Summary}
    (h : (examine s colours progress q).result = .ok summary) :
    let e := examine s colours progress q
    ∃ limits page selection,
      Fetches s q.fetch limits (.ok page) ∧ Selection.ofPage page q.examine = .ok selection ∧
      ReadsFirst s q.timeout limits.length selection.builds selection.builds.length ∧
      e.opened = selection.builds ∧
      e.progress.length = some (UInt64.ofNat selection.builds.length) ∧
      e.progress.position = progress.position + UInt64.ofNat selection.builds.length := by
  intro e
  obtain ⟨page, selection, examined, hpage, hsel, houtcomes, hopened, -⟩ := examine_stages h
  obtain ⟨hbuilds, -⟩ := visits_ok houtcomes
  obtain ⟨hfirst, hfold⟩ := visits_all_read houtcomes
  obtain ⟨-, -, -, hprogress⟩ := examine_visits colours progress hpage hsel
  obtain ⟨hlength, hposition⟩ :=
    hfold (progress.withLength (UInt64.ofNat selection.builds.length))
  rw [← hprogress] at hlength hposition
  exact ⟨_, page, selection, fetches_iff.mpr ⟨rfl, hpage⟩, hsel, hfirst, hopened.trans hbuilds,
    hlength, hposition⟩

end

/-- An examination fails exactly with the fault of the first step that fails.  By then it has asked
for the limits of the fetch, and for the feeds up to the one that cannot be read, and its progress
stands at that feed; without a failure it stands at its end. -/
theorem examination_fails_first (s : Source) (colours : Bool) (progress : Progress) (q : Query)
    (hstart : progress.position = 0) :
    let e := examine s colours progress q
    (∀ f, e.result = .error f ↔ ∃ step, FailsFirst s q step f) ∧
    (∀ limits result, Fetches s q.fetch limits result → e.limits = limits) ∧
    (∀ f, FailsFirst s q .fetch f ∨ FailsFirst s q .selection f →
      e.opened = [] ∧ e.progress = progress ∧ e.progress.position = 0) ∧
    (∀ selected k f, FailsFirst s q (.feed selected k) f → ∃ b, selected[k]? = some b ∧
      (selected.Pairwise fun a b => b.id ≤ a.id) ∧
      e.opened = selected.take (k + 1) ∧
      e.progress =
        { progress with
          length := some (UInt64.ofNat selected.length)
          position := UInt64.ofNat k
          message := "build " ++ b.name }) ∧
    ∀ summary, e.result = .ok summary → ∃ limits page selection,
      Fetches s q.fetch limits (.ok page) ∧ Selection.ofPage page q.examine = .ok selection ∧
      ReadsFirst s q.timeout limits.length selection.builds selection.builds.length ∧
      e.opened = selection.builds ∧
      e.progress.length = some (UInt64.ofNat selection.builds.length) ∧
      e.progress.length = some e.progress.position := by
  intro e
  refine ⟨fun f => ⟨failsFirst_of_examine colours progress,
      fun ⟨_, h⟩ => result_of_failsFirst colours progress h⟩,
    fun limits result h => (limits_examine colours progress).trans (fetches_iff.mp h).1, ?_, ?_, ?_⟩
  · intro f h
    obtain ⟨-, hopened, hprogress⟩ := examine_of_no_feed colours progress h
    exact ⟨hopened, hprogress, (congrArg Progress.position hprogress).trans hstart⟩
  · intro selected k f h
    obtain ⟨-, b, hstep⟩ := examine_of_feed colours progress h
    rw [hstart, UInt64.zero_add] at hstep
    exact ⟨b, hstep⟩
  · intro summary h
    obtain ⟨limits, page, selection, hfetch, hsel, hfirst, hopened, hlength, hposition⟩ :=
      all_read_of_ok colours progress h
    rw [hstart, UInt64.zero_add] at hposition
    exact ⟨limits, page, selection, hfetch, hsel, hfirst, hopened, hlength,
      hlength.trans (congrArg some hposition.symm)⟩

/-- Of a history of two builds the second feed is refused: both are asked for, and the progress
stands at 1 of 2. -/
theorem examination_stops_at_refused_feed :
    let latest : Build := ⟨9, "2", "failed", "/api/v1/builds/9", "main", "develop", "UnitTest"⟩
    let oldest : Build := ⟨7, "1", "failed", "/api/v1/builds/7", "main", "develop", "UnitTest"⟩
    let s := Source.stored "https://ci" [latest, oldest] fun b =>
      if b.name = "2" then .open (Arrivals.ofItems [.ok ⟨"end", none⟩]) else .refused 503
    let e := examine s false (.start true) ⟨0, 0, .ofSeconds 60⟩
    e.result = .error (.feedRefused "1" 503) ∧ e.limits = [1, 2] ∧ e.opened = [latest, oldest] ∧
      e.progress = ⟨some 2, 1, "Build pages examined", "build 1", false⟩ := by
  intro latest oldest s e
  obtain ⟨hresult, hlimits, -, hfeed, -⟩ :=
    examination_fails_first s false (.start true) ⟨0, 0, .ofSeconds 60⟩ rfl
  have hfetch : Fetches s 0 [1, 2] (.ok [latest, oldest]) := .history rfl (by decide +kernel)
  have hsel : Selection.ofPage [latest, oldest] 0 = .ok ⟨[latest, oldest]⟩ := by
    have hcompleted : Selection.completed [latest, oldest] = [latest, oldest] :=
      List.mergeSort_of_pairwise (by decide +kernel)
    rw [Selection.ofPage, hcompleted]
    rfl
  have hread : Reads s (.ofSeconds 60) 2 latest (.ok ⟨"unknown", "", .endEvent⟩) :=
    reads_iff.mpr (by rfl)
  have hfirst : ReadsFirst s (.ofSeconds 60) 2 [latest, oldest] 1 :=
    readsFirst_succ_iff.mpr ⟨⟨_, hread⟩, readsFirst_zero _ _ _ _⟩
  have hfails : FailsFirst s ⟨0, 0, .ofSeconds 60⟩ (.feed [latest, oldest] 1)
      (.feedRefused "1" 503) :=
    .feed hfetch hsel hfirst rfl (.refused rfl)
  obtain ⟨b, hb, -, hopened, hprogress⟩ := hfeed _ _ _ hfails
  obtain rfl : oldest = b := Option.some.inj hb
  exact ⟨(hresult _).mpr ⟨_, hfails⟩, hlimits _ _ hfetch, hopened, hprogress⟩

end JobHealth
