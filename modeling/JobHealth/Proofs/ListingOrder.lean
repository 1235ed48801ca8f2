import Mathlib.Data.List.Nodup
import JobHealth.Proofs.FirstFailure
/-!
# `JobHealth.Proofs.ListingOrder` — the order in which builds are listed does not matter

A page goes into an examination through its builds sorted by id, through counts,
and through the names of the builds of one status, sorted too.  Sorting undoes
any order if no two different builds share an id, so whatever a server's order
is, the same builds are examined in the same order and the same is noted.

| read off a page        | depends on its order through              |
| :--------------------- | :---------------------------------------- |
| the selection          | `Selection.completed`, which is sorted    |
| too few builds         | two lengths                               |
| an unknown status      | the first one found: none, if all are known |
| the notes              | lengths, and names that are sorted        |
-/

namespace JobHealth

open JobHealth.Feed

/-- An id tells which build of the list it is. -/
def IdsTell (builds : List Build) : Prop := ∀ a ∈ builds, ∀ b ∈ builds, a.id = b.id → a = b

theorem idsTell_of_pairwise {builds : List Build}
    (h : builds.Pairwise fun a b => a.id ≠ b.id) : IdsTell builds := by
  intro a ha b hb hid
  exact List.inj_on_of_nodup_map (List.pairwise_map.mpr h) ha hb hid

theorem IdsTell.subset {builds page : List Build} (h : IdsTell page) (hsub : builds ⊆ page) :
    IdsTell builds :=
  fun a ha b hb => h a (hsub ha) b (hsub hb)

theorem mem_byRecency {builds : List Build} {b : Build} :
    b ∈ Build.byRecency builds ↔ b ∈ builds :=
  (List.mergeSort_perm _ _).mem_iff

/-- Sorting by id undoes any order. -/
theorem byRecency_eq_of_perm {xs ys : List Build} (h : xs.Perm ys) (hids : IdsTell xs) :
    Build.byRecency xs = Build.byRecency ys := by
  have hperm : (Build.byRecency xs).Perm (Build.byRecency ys) :=
    (List.mergeSort_perm _ _).trans (h.trans (List.mergeSort_perm _ _).symm)
  refine hperm.eq_of_pairwise ?_ (byRecency_pairwise xs) (byRecency_pairwise ys)
  intro a b ha hb hab hba
  have hb' : b ∈ xs := h.mem_iff.mpr (mem_byRecency.mp hb)
  exact hids a (mem_byRecency.mp ha) b hb' (UInt64.le_antisymm hba hab)

/-! ## What is read off a page -/

theorem withStatus_subset (status : Status) (page : List Build) :
    Selection.withStatus status page ⊆ page :=
  fun _ hb => (mem_withStatus.mp hb).1

theorem withStatus_perm {page page' : List Build} (h : page.Perm page') (status : Status) :
    (Selection.withStatus status page).Perm (Selection.withStatus status page') := h.filter _

section
variable {page page' : List Build} (hperm : page.Perm page') (hids : IdsTell page)
include hperm hids

theorem completed_eq_of_perm : Selection.completed page = Selection.completed page' := by
  refine byRecency_eq_of_perm ?_ (hids.subset ?_)
  · exact (withStatus_perm hperm _).append (withStatus_perm hperm _)
  · exact List.append_subset.mpr ⟨withStatus_subset _ page, withStatus_subset _ page⟩

theorem namesByRecency_eq_of_perm (status : Status) :
    Build.namesByRecency (Selection.withStatus status page) =
      Build.namesByRecency (Selection.withStatus status page') := by
  rw [Build.namesByRecency, Build.namesByRecency,
    byRecency_eq_of_perm (withStatus_perm hperm status) (hids.subset (withStatus_subset _ _))]

theorem incompleteNote_eq_of_perm (status : Status) :
    Selection.incompleteNote page status = Selection.incompleteNote page' status := by
  simp only [Selection.incompleteNote, (withStatus_perm hperm status).length_eq,
    namesByRecency_eq_of_perm hperm hids]

theorem expectedNote_eq_of_perm (s : Selection) :
    Selection.expectedNote page s = Selection.expectedNote page' s := by
  simp only [Selection.expectedNote, namesByRecency_eq_of_perm hperm hids]

end

/-- All statuses of a page are known. -/
def StatusesKnown (page : List Build) : Prop := ∀ b ∈ page, b.status?.isSome

theorem StatusesKnown.of_perm {page page' : List Build} (h : StatusesKnown page)
    (hperm : page.Perm page') : StatusesKnown page' :=
  fun b hb => h b (hperm.mem_iff.mpr hb)

theorem unknown?_eq_none {page : List Build} (h : StatusesKnown page) :
    Selection.unknown? page = none := by
  refine List.find?_eq_none.mpr fun b hb hnone => ?_
  have hsome := h b hb
  rw [Option.isNone_iff_eq_none.mp hnone] at hsome
  cases hsome

section
variable {page page' : List Build} (hperm : page.Perm page') (hids : IdsTell page)
  (hknown : StatusesKnown page)
include hperm hids hknown

theorem ofPage_eq_of_perm (count : Nat) :
    Selection.ofPage page count = Selection.ofPage page' count := by
  rw [Selection.ofPage, Selection.ofPage, unknown?_eq_none hknown,
    unknown?_eq_none (hknown.of_perm hperm), completed_eq_of_perm hperm hids, hperm.length_eq]

theorem notes_eq_of_perm (count : Nat) :
    Selection.notes page count = Selection.notes page' count := by
  have hincomplete : Selection.incompleteNote page = Selection.incompleteNote page' :=
    funext (incompleteNote_eq_of_perm hperm hids)
  have hexpected : Selection.expectedNote page = Selection.expectedNote page' :=
    funext (expectedNote_eq_of_perm hperm hids)
  rw [Selection.notes, Selection.notes, unknown?_eq_none hknown,
    unknown?_eq_none (hknown.of_perm hperm), hincomplete, hexpected,
    ofPage_eq_of_perm hperm hids hknown]

end

/-! ## The examination -/

/-- A fetch of at least the whole history brings all of it. -/
theorem fetchPage_stored {history : List Build} {limit : Nat} (hlimit : 1 ≤ limit)
    (hlength : history.length ≤ limit) (base : String) (feeds : Build → StoredFeed) :
    fetchPage (.stored base history feeds) limit = ⟨[limit], .ok history, []⟩ := by
  have hwhole : history.take limit = history := List.take_of_length_le hlength
  rw [fetchPage, if_neg (Nat.one_le_iff_ne_zero.mp hlimit)]
  show PageFetch.mk [limit] (.ok (history.take limit)) [] = _
  rw [hwhole]

/-- The visits depend on the feeds of a source alone. -/
theorem visits_congr {s s' : Source} (h : s.feed = s'.feed) (timeout : Span) (before : Nat)
    (builds : List Build) : visits s timeout before builds = visits s' timeout before builds := by
  induction builds generalizing before with
  | nil => rfl
  | cons b builds ih =>
      have hvisit : visit s timeout before b = visit s' timeout before b := by
        rw [visit, visit, h]
      rw [visits, visits, hvisit, ih]

/-- A job whose builds have distinct ids and known statuses is examined alike in whatever order the
server lists them: with the same summary or fault, from the same feeds in the same order, and with
the same notes, those on the selection among them. -/
theorem examination_in_any_order (base : String) (feeds : UInt64 → StoredFeed)
    {history history' : List Build} (hperm : history.Perm history')
    (hdistinct : history.Pairwise fun a b => a.id ≠ b.id)
    (hknown : ∀ b ∈ history, b.status?.isSome)
    (colours : Bool) (progress : Progress) (q : Query)
    (hfetch : 1 ≤ q.fetch) (hlength : history.length ≤ q.fetch) :
    let e := examine (.stored base history fun b => feeds b.id) colours progress q
    let e' := examine (.stored base history' fun b => feeds b.id) colours progress q
    e.result = e'.result ∧ e.opened = e'.opened ∧ e.limits = e'.limits ∧
      e.progress = e'.progress ∧ e.notes = e'.notes ∧
      Selection.notes history q.examine = Selection.notes history' q.examine := by
  intro e e'
  have hids := idsTell_of_pairwise hdistinct
  have hselection := ofPage_eq_of_perm hperm hids hknown q.examine
  have hnotes := notes_eq_of_perm hperm hids hknown q.examine
  have hpage := fetchPage_stored hfetch hlength base fun b => feeds b.id
  have hpage' := fetchPage_stored hfetch (hperm.length_eq ▸ hlength) base fun b => feeds b.id
  have hvisits : visits (.stored base history fun b => feeds b.id) =
      visits (.stored base history' fun b => feeds b.id) := by
    funext timeout before builds
    refine visits_congr ?_ timeout before builds
    rfl
  have hsame : e = e' := by
    simp only [e, e', examine, hpage, hpage', hselection, hnotes, hvisits]
    rfl
  rw [hsame]
  exact ⟨rfl, rfl, rfl, rfl, rfl, hnotes⟩

/-- Two builds listed with the older one first.  If the feed of the more recent one is refused, it
is the first and only one to be asked for.  If both can be read, the summary names the more recent
one first and is the same as for the other order. -/
theorem examination_of_older_first :
    let latest : Build := ⟨9, "2", "succeeded", "/api/v1/builds/9", "main", "develop", "UnitTest"⟩
    let oldest : Build := ⟨7, "1", "failed", "/api/v1/builds/7", "main", "develop", "UnitTest"⟩
    let log := "BUILD FAILED\nSuite > case FAILED\n"
    let body := Text.Utf8.encode (writeBody (writtenRecords [log] "failed"))
    let older : StoredFeed := .open (Arrivals.ofChunks [.bytes body])
    let refusing : UInt64 → StoredFeed := fun id => if id = 9 then .refused 503 else older
    let telling : UInt64 → StoredFeed := fun id =>
      if id = 9 then .open (Arrivals.ofItems [.ok ⟨"end", none⟩]) else older
    let listed := fun (feeds : UInt64 → StoredFeed) history =>
      examine (.stored "https://ci" history fun b => feeds b.id) false (.start false)
        ⟨2, 5, .ofSeconds 60⟩
    ((listed refusing [oldest, latest]).result = .error (.feedRefused "2" 503) ∧
      (listed refusing [oldest, latest]).opened = [latest]) ∧
    ∃ summary, (listed telling [oldest, latest]).result = .ok summary ∧
      (listed telling [latest, oldest]).result = .ok summary ∧
      (listed telling [oldest, latest]).opened = [latest, oldest] ∧
      summary.examined = ["2", "1"] ∧ summary.failingTests = [("Suite.case", 1)] := by
  intro latest oldest log body older refusing telling listed
  have hselection : Selection.ofPage [latest, oldest] 2 = .ok ⟨[latest, oldest]⟩ := by
    have hcompleted : Selection.completed [latest, oldest] = [latest, oldest] :=
      List.mergeSort_of_pairwise (by decide +kernel)
    rw [Selection.ofPage, hcompleted]
    rfl
  have hsame := fun feeds => examination_in_any_order "https://ci" feeds
    (List.Perm.swap latest oldest []) (by decide) (by decide) false (.start false)
    ⟨2, 5, .ofSeconds 60⟩ (by decide) (by decide)
  constructor
  · have hfails : FailsFirst (.stored "https://ci" [latest, oldest] fun b => refusing b.id)
        ⟨2, 5, .ofSeconds 60⟩ (.feed [latest, oldest] 0) (.feedRefused "2" 503) :=
      .feed (.page (by decide)) hselection (readsFirst_zero _ _ _ _) rfl (.refused rfl)
    obtain ⟨hfault, b, -, -, hfirst, -⟩ := examine_of_feed false (.start false) hfails
    obtain ⟨hresult, hopened, -⟩ := hsame refusing
    exact ⟨hresult.trans hfault, hopened.trans hfirst⟩
  · let s := Source.stored "https://ci" [latest, oldest] fun b => telling b.id
    obtain ⟨hresult, hopened, -⟩ := hsame telling
    have hpage : (fetchPage s 5).result = .ok [latest, oldest] := rfl
    obtain ⟨-, hsummary, hvisited, -⟩ := examine_visits (q := ⟨2, 5, .ofSeconds 60⟩) false
      (.start false) hpage hselection
    have hlatest : (visit s (.ofSeconds 60) 1 latest).result = .ok ⟨"unknown", "", .endEvent⟩ := by
      rfl
    have holdest : (visit s (.ofSeconds 60) 2 oldest).result =
        .ok ⟨"failed", String.join [log], .endEvent⟩ :=
      consume_of_delivers (delivers_writtenRecords (List.append_nil _) rfl (.ofSeconds 60)) "1"
    have hvisits : visits s (.ofSeconds 60) 1 [latest, oldest] =
        [visit s (.ofSeconds 60) 1 latest, visit s (.ofSeconds 60) 2 oldest] := by
      rw [visits_cons_ok hlatest, visits_cons_ok holdest]
      rfl
    have hlimits : (fetchPage s 5).limits.length = 1 := rfl
    dsimp only at hsummary hvisited
    rw [hlimits, hvisits] at hsummary hvisited
    rw [outcomes_cons_ok hlatest, outcomes_cons_ok holdest] at hsummary
    refine ⟨_, hresult.trans hsummary, hsummary, hopened.trans hvisited, rfl, ?_⟩
    decide +kernel

end JobHealth
