import JobHealth.Proofs.FirstFailure
import JobHealth.Proofs.ScanPlan
import JobHealth.Proofs.Selection
/-!
# `JobHealth.Proofs.Limits` — the limits that plans refuse, and what is lost by it

A plan is refused if it fetches fewer builds than it examines, before anything
is asked of a server.  Where it fetches any, nothing is lost by that: a page has
no more builds than were asked for, so the page does not come or the selection
from it fails.  Other limits are not refused, and with each of them there is a
history that is examined to its end.

| limits                 | plan    | examination                             |
| :--------------------- | :------ | :-------------------------------------- |
| `0 < fetch < examine`  | refused | fails, and opens no feed                |
| `0 = fetch < examine`  | refused | may succeed: all builds may be enough   |
| `examine ≤ fetch`      | made    | succeeds with some history              |
-/

namespace JobHealth

open JobHealth.Feed

/-! ## Too few builds -/

/-- No page of the source has more builds than were asked for. -/
def Source.Bounded (s : Source) : Prop :=
  ∀ before limit page, (s.page before limit).result = .ok page → page.length ≤ limit

theorem bounded_stored (base : String) (history : List Build) (feeds : Build → StoredFeed) :
    (Source.stored base history feeds).Bounded := by
  intro before limit page h
  obtain rfl := Except.ok.inj h
  exact List.length_take_le limit history

/-- Where too few builds are fetched, the page does not come or has no selection. -/
theorem failsFirst_of_fetch_lt {s : Source} {q : Query} (hs : s.Bounded) (hpos : 0 < q.fetch)
    (hlt : q.fetch < q.examine) : ∃ f, FailsFirst s q .fetch f ∨ FailsFirst s q .selection f := by
  have hfetch : Fetches s q.fetch [q.fetch] (s.page 0 q.fetch).result := .page hpos.ne'
  cases hpage : (s.page 0 q.fetch).result with
  | error f =>
      rw [hpage] at hfetch
      exact ⟨f, .inl (.fetch hfetch)⟩
  | ok page =>
      rw [hpage] at hfetch
      cases hsel : Selection.ofPage page q.examine with
      | error f => exact ⟨f, .inr (.selection hfetch hsel)⟩
      | ok selection =>
          have hfew := hs _ _ _ hpage
          have henough : q.examine ≤ page.length :=
            (enough_of_ofPage hsel).trans List.countP_le_length
          omega

/-! ## Enough builds -/

/-- Succeeded builds, named by counting from 1, the most recent first. -/
def succeededBuilds : Nat → List Build
  | 0 => []
  | n + 1 =>
    let name := (n + 1).repr
    ⟨UInt64.ofNat (n + 1), name, "succeeded", "/api/v1/builds/" ++ name, "main", "develop",
      "UnitTest"⟩ :: succeededBuilds n

theorem length_succeededBuilds (n : Nat) : (succeededBuilds n).length = n := by
  induction n with
  | zero => rfl
  | succ n ih => rw [succeededBuilds, List.length_cons, ih]

theorem status_succeededBuilds {n : Nat} {b : Build} (h : b ∈ succeededBuilds n) :
    b.status = "succeeded" := by
  induction n with
  | zero => cases h
  | succ n ih =>
      rcases List.mem_cons.mp h with rfl | h
      · rfl
      · exact ih h

theorem id_succeededBuilds {n : Nat} (hn : n < UInt64.size) {b : Build} (h : b ∈ succeededBuilds n) :
    b.id.toNat ≤ n := by
  induction n with
  | zero => cases h
  | succ n ih =>
      rcases List.mem_cons.mp h with rfl | h
      · exact (UInt64.toNat_ofNat_of_lt' hn).le
      · exact (ih (by omega) h).trans (Nat.le_succ n)

theorem pairwise_succeededBuilds {n : Nat} (hn : n < UInt64.size) :
    (succeededBuilds n).Pairwise fun a b => b.id < a.id := by
  induction n with
  | zero => exact .nil
  | succ n ih =>
      refine .cons (fun b hb => ?_) (ih (by omega))
      have hid := id_succeededBuilds (by omega) hb
      rw [UInt64.lt_iff_toNat_lt, UInt64.toNat_ofNat_of_lt' hn]
      omega

/-- From succeeded builds any number is selected that there is. -/
theorem ofPage_of_succeeded {page : List Build} {count : Nat}
    (h : ∀ b ∈ page, b.status = "succeeded") (hcount : count ≤ page.length) :
    ∃ selection, Selection.ofPage page count = .ok selection := by
  have hknown : ∀ b ∈ page, b.Known := by
    intro b hb
    rw [Build.Known, h b hb]
    decide
  have hall : page.countP (fun b => b.Completed) = page.length :=
    List.countP_eq_length.mpr fun b hb => decide_eq_true (.inl (h b hb))
  rw [ofPage_of_known hknown, length_completed, hall, if_neg (Nat.not_lt.mpr hcount)]
  exact ⟨_, rfl⟩

/-! ## Feeds that can be read -/

/-- The feed of a build can be read whenever it is asked for. -/
def Source.Readable (s : Source) (timeout : Span) : Prop :=
  ∀ before b, ∃ o, (visit s timeout before b).result = .ok o

theorem outcomes_of_readable {s : Source} {timeout : Span} (hs : s.Readable timeout) :
    ∀ (builds : List Build) (before : Nat),
      ∃ examined, outcomes (visits s timeout before builds) = .ok examined := by
  intro builds
  induction builds with
  | nil => exact fun _ => ⟨[], rfl⟩
  | cons b builds ih =>
      intro before
      obtain ⟨o, hvisit⟩ := hs before b
      obtain ⟨examined, hrest⟩ := ih (before + 1)
      rw [visits_cons_ok hvisit, outcomes_cons_ok hvisit, hrest]
      exact ⟨_, rfl⟩

/-- With feeds that can be read, a selection is all that an examination needs. -/
theorem examine_of_readable {s : Source} {q : Query} (hs : s.Readable q.timeout)
    {page : List Build} {selection : Selection} (hpage : (fetchPage s q.fetch).result = .ok page)
    (hsel : Selection.ofPage page q.examine = .ok selection) (colours : Bool)
    (progress : Progress) :
    ∃ summary, (examine s colours progress q).result = .ok summary := by
  obtain ⟨examined, houtcomes⟩ :=
    outcomes_of_readable hs selection.builds (fetchPage s q.fetch).limits.length
  rw [(examine_visits colours progress hpage hsel).2.1, houtcomes]
  exact ⟨_, rfl⟩

/-- The bytes of a feed that says that its build succeeded. -/
def succeededBody : List UInt8 := Text.Utf8.encode (writeBody (writtenRecords [] "succeeded"))

/-- A history in memory that has such a feed for each build. -/
def Source.succeeded (base : String) (history : List Build) : Source :=
  .stored base history fun _ => .open (Arrivals.ofChunks [.bytes succeededBody])

theorem readable_succeeded (base : String) (history : List Build) (timeout : Span) :
    (Source.succeeded base history).Readable timeout := by
  intro before b
  have hbytes : bytesOf [.bytes succeededBody] = succeededBody := List.append_nil _
  exact ⟨_, consume_of_delivers (delivers_writtenRecords hbytes rfl timeout) b.name⟩

theorem fetchPage_succeeded {limit : Nat} (hlimit : limit ≠ 0) (base : String)
    (history : List Build) :
    (fetchPage (.succeeded base history) limit).result = .ok (history.take limit) := by
  rw [fetchPage, if_neg hlimit]
  rfl

theorem fetchPage_succeeded_one (base : String) :
    (fetchPage (.succeeded base (succeededBuilds 1)) 0).result = .ok (succeededBuilds 1) := by
  have hname : numberUpTo? maxLimit "1" = some 1 := by decide
  have hfetch : Fetches (.succeeded base (succeededBuilds 1)) 0 [1, 1] (.ok (succeededBuilds 1)) :=
    .history rfl hname
  exact (fetches_iff.mp hfetch).2

/-- A page of succeeded builds is enough for as many as it has. -/
theorem examine_of_succeeded {q : Query} {base : String} {history page : List Build}
    (hpage : (fetchPage (.succeeded base history) q.fetch).result = .ok page)
    (hstatus : ∀ b ∈ page, b.status = "succeeded") (hlength : q.examine ≤ page.length)
    (colours : Bool) (progress : Progress) :
    ∃ summary, (examine (.succeeded base history) colours progress q).result = .ok summary := by
  obtain ⟨selection, hsel⟩ := ofPage_of_succeeded hstatus hlength
  exact examine_of_readable (readable_succeeded base _ q.timeout) hpage hsel colours progress

/-- With as many builds as are examined, and one at least, an examination that fetches as many
succeeds. -/
theorem examine_succeededBuilds {q : Query} (h : q.examine ≤ q.fetch) (base : String)
    (colours : Bool) (progress : Progress) :
    ∃ summary,
      (examine (.succeeded base (succeededBuilds (max 1 q.examine))) colours progress q).result =
        .ok summary := by
  rcases Nat.eq_zero_or_pos q.fetch with hzero | hpos
  · -- The one build's name is the number of builds, so the full history is that build.
    have hexamine : q.examine = 0 := by omega
    rw [hexamine]
    exact examine_of_succeeded (hzero ▸ fetchPage_succeeded_one base)
      (fun _ => status_succeededBuilds) (hexamine ▸ Nat.zero_le _) colours progress
  · refine examine_of_succeeded (fetchPage_succeeded hpos.ne' base _)
      (fun b hb => status_succeededBuilds (List.mem_of_mem_take hb)) ?_ colours progress
    rw [List.length_take, length_succeededBuilds]
    omega

/-! ## The limits of a plan -/

/-- No plan is made that fetches fewer builds than it examines; with an accepted address, these two
numbers are what is wrong. -/
theorem resolve_of_fetch_lt {toAscii : Url.ToAscii} {a : CommandLine.Arguments}
    {settings : Settings}
    (h : a.fetch.getD settings.server.fetchLimit < a.limit.getD settings.server.examineLimit) :
    ∃ f, ScanPlan.resolve toAscii a settings = .error f ∧
      ∀ base, Endpoint.ofText toAscii a.url = .ok base →
        f = .fetchBelowExamine (a.fetch.getD settings.server.fetchLimit).toNat
          (a.limit.getD settings.server.examineLimit).toNat := by
  rw [ScanPlan.resolve]
  cases hbase : Endpoint.ofText toAscii a.url with
  | error f =>
      refine ⟨f, rfl, fun base hok => ?_⟩
      cases hok
  | ok base => exact ⟨_, if_pos h, fun _ _ => rfl⟩

/-- Where a number of builds is fetched, limits are refused exactly if nothing is lost by that.  An
examination that fetches some builds, but fewer than it examines, gives no summary and opens no
feed, and no plan for it is made.  With any limits that are not refused there is a history that is
examined to its end. -/
theorem limits_refused :
    (∀ (s : Source) (colours : Bool) (progress : Progress) (q : Query), s.Bounded →
      0 < q.fetch → q.fetch < q.examine →
      (∃ f, (examine s colours progress q).result = .error f) ∧
        (examine s colours progress q).opened = []) ∧
    ∀ (toAscii : Url.ToAscii) (a : CommandLine.Arguments) (settings : Settings),
      let fetch := a.fetch.getD settings.server.fetchLimit
      let count := a.limit.getD settings.server.examineLimit
      (fetch < count → ∃ f, ScanPlan.resolve toAscii a settings = .error f ∧
        ∀ base, Endpoint.ofText toAscii a.url = .ok base →
          f = .fetchBelowExamine fetch.toNat count.toNat) ∧
      (count ≤ fetch → ∀ base, Endpoint.ofText toAscii a.url = .ok base → ∃ plan,
        ScanPlan.resolve toAscii a settings = .ok plan ∧ plan.base = base ∧
        plan.query.examine = count.toNat ∧ plan.query.fetch = fetch.toNat ∧
        ∃ (history : List Build) (feeds : Build → StoredFeed),
          (history.Pairwise fun a b => b.id < a.id) ∧
          ∀ colours progress, ∃ summary,
            (examine (.stored base history feeds) colours progress plan.query).result =
              .ok summary) := by
  refine ⟨fun s colours progress q hs hpos hlt => ?_,
    fun toAscii a settings => ⟨resolve_of_fetch_lt, fun hle base hbase => ?_⟩⟩
  · obtain ⟨f, hfails⟩ := failsFirst_of_fetch_lt hs hpos hlt
    obtain ⟨hresult, hopened, -⟩ := examine_of_no_feed colours progress hfails
    exact ⟨⟨f, hresult⟩, hopened⟩
  · have hword : max 1 (a.limit.getD settings.server.examineLimit).toNat < UInt64.size :=
      max_lt (by decide) ((UInt32.toNat_lt_size _).trans (by decide))
    exact ⟨.laidOver a settings base, ScanPlan.resolve_eq_ok_iff.mpr ⟨base, hbase, rfl, hle⟩,
      rfl, rfl, rfl, succeededBuilds _, _, pairwise_succeededBuilds hword,
      examine_succeededBuilds (UInt32.le_iff_toNat_le.mp hle) base⟩

/-- Three builds are too few for five, and twenty are enough for ten. -/
theorem limits_of_three_builds :
    (examine (.succeeded "https://ci" (succeededBuilds 9)) false (.start false)
        ⟨5, 3, .ofSeconds 60⟩).opened = [] ∧
      ∃ plan,
        ScanPlan.resolve Url.domainToAscii? (ScanPlan.argumentsWith none) .default = .ok plan ∧
        plan.query.examine = 10 ∧ plan.query.fetch = 20 ∧
        ∃ history feeds summary,
          (examine (.stored "https://ci" history feeds) false (.start false) plan.query).result =
            .ok summary := by
  obtain ⟨hfew, hresolve⟩ := limits_refused
  constructor
  · exact (hfew _ _ _ ⟨5, 3, .ofSeconds 60⟩ (bounded_stored _ _ _) (by decide) (by decide)).2
  · obtain ⟨plan, hplan, -, hexamine, hfetch, history, feeds, -, hresult⟩ :=
      (hresolve Url.domainToAscii? (ScanPlan.argumentsWith none) .default).2 (by decide)
        "https://ci" (by decide +kernel)
    exact ⟨plan, hplan, hexamine, hfetch, history, feeds, hresult false (.start false)⟩

end JobHealth
