import JobHealth.Proofs.Feed.Envelope
import JobHealth.Proofs.Feed.Outcome
/-!
# `JobHealth.Proofs.Feed.Reading` — what a reading says of all the records fed to it

Records may be fed to a reading one after the other for ever: past one that is
at fault, and past the one with which the feed is over.

| record                      | what it does to a reading that is not over         |
| :-------------------------- | :------------------------------------------------- |
| named `end`                 | the feed is over, whatever the data                |
| a status event              | its word is the status; `succeeded` ends the feed  |
| a log event                 | its payload joins the log                          |
| without data, another event | nothing                                            |
| at fault                    | refused, and nothing                               |

Once the feed is over no record does anything.  So a reading says no more than
the records up to the first one that ends the feed, and of these only what the
sound status and log events say.
-/

namespace JobHealth.Feed

/-! ## What a record is -/

namespace Record

/-- A record that does not end the feed by its name, and whose data are the text of an event of that
kind with these data of its own. -/
def Wraps (rec : Record) (kind : String) (data : Json.Value) : Prop :=
  rec.event ≠ "end" ∧ ∃ text, rec.data = some text ∧ EventText kind data text.toList

/-- A sound log event with that payload. -/
def IsLog (rec : Record) (payload : String) : Prop :=
  ∃ data, rec.Wraps "log" data ∧ HoldsText "payload" payload data

/-- A sound status event with that status. -/
def IsStatus (rec : Record) (word : String) : Prop :=
  ∃ data, rec.Wraps "status" data ∧ HoldsText "status" word data

/-- A record that is not at fault. -/
inductive IsSound (rec : Record) : Prop
  | ended : rec.event = "end" → IsSound rec
  | bare : rec.data = none → IsSound rec
  | status {word : String} : rec.IsStatus word → IsSound rec
  | log {payload : String} : rec.IsLog payload → IsSound rec
  | other {kind : String} {data : Json.Value} : rec.Wraps kind data → kind ≠ "status" →
      kind ≠ "log" → IsSound rec

/-- The status that a record carries. -/
def word? (rec : Record) : Option String :=
  match rec.signal with
  | .ok s => s.word?
  | .error _ => none

theorem isEnd_iff {rec : Record} : rec.isEnd = true ↔ rec.event = "end" := by
  rw [isEnd, beq_iff_eq]
  rfl

end Record

theorem signal_of_end {rec : Record} (h : rec.event = "end") : rec.signal = .ok .ended := by
  rw [Record.signal, if_pos (Record.isEnd_iff.mpr h)]

theorem signal_of_wraps {rec : Record} {kind : String} {data : Json.Value}
    (h : rec.Wraps kind data) : rec.signal = (⟨kind, data⟩ : Envelope).signal := by
  obtain ⟨hname, text, hdata, htext⟩ := h
  have hread : Envelope.read text = .ok ⟨kind, data⟩ := Envelope.read_eq_ok_iff.mpr htext
  rw [Record.signal, if_neg (mt Record.isEnd_iff.mp hname), hdata]
  dsimp only
  rw [hread]
  rfl

/-- A record that means something ends the feed by its name, has no data, or wraps an event. -/
theorem signal_eq_ok {rec : Record} {s : Signal} (h : rec.signal = .ok s) :
    rec.event = "end" ∧ s = .ended ∨ rec.data = none ∧ s = .other ∨
      ∃ kind data, rec.Wraps kind data ∧ (⟨kind, data⟩ : Envelope).signal = .ok s := by
  by_cases hname : rec.event = "end"
  · rw [signal_of_end hname] at h
    exact Or.inl ⟨hname, (Except.ok.inj h).symm⟩
  · rw [Record.signal, if_neg (mt Record.isEnd_iff.mp hname)] at h
    cases hdata : rec.data with
    | none =>
        rw [hdata] at h
        exact Or.inr (Or.inl ⟨rfl, (Except.ok.inj h).symm⟩)
    | some text =>
        rw [hdata] at h
        obtain ⟨e, hread, hs⟩ := Json.bind_eq_ok.mp h
        exact Or.inr (Or.inr ⟨e.event, e.data,
          ⟨hname, text, hdata, Envelope.read_eq_ok_iff.mp hread⟩, hs⟩)

/-- What the events of the three sorts of kinds mean. -/
theorem signal_envelope_iff {kind : String} {data : Json.Value} {s : Signal} :
    (⟨kind, data⟩ : Envelope).signal = .ok s ↔
      (∃ word, kind = "status" ∧ HoldsText "status" word data ∧ s = .status word) ∨
      (∃ payload, kind = "log" ∧ HoldsText "payload" payload data ∧ s = .log payload) ∨
      kind ≠ "status" ∧ kind ≠ "log" ∧ s = .other := by
  unfold Envelope.signal
  by_cases hstatus : kind = "status"
  · subst hstatus
    rw [if_pos rfl, Json.map_eq_ok]
    simp only [Envelope.status_eq_ok_iff]
    simp [eq_comm]
  · by_cases hlog : kind = "log"
    · subst hlog
      rw [if_neg hstatus, if_pos rfl, Json.map_eq_ok]
      simp only [Envelope.payload_eq_ok_iff]
      simp [eq_comm]
    · rw [if_neg hstatus, if_neg hlog]
      simp [hstatus, hlog, eq_comm]

/-- A record's meaning, by what the record is. -/
theorem signal_cases {rec : Record} {s : Signal} (h : rec.signal = .ok s) :
    (rec.event = "end" ∧ s = .ended) ∨ (∃ word, rec.IsStatus word ∧ s = .status word) ∨
      (∃ payload, rec.IsLog payload ∧ s = .log payload) ∨ (rec.IsSound ∧ s = .other) := by
  rcases signal_eq_ok h with hend | ⟨hbare, hs⟩ | ⟨kind, data, hwraps, hs⟩
  · exact Or.inl hend
  · exact Or.inr (Or.inr (Or.inr ⟨.bare hbare, hs⟩))
  · rcases signal_envelope_iff.mp hs with
      ⟨word, rfl, hword, hs⟩ | ⟨payload, rfl, hpayload, hs⟩ | ⟨hstatus, hlog, hs⟩
    · exact Or.inr (Or.inl ⟨word, ⟨data, hwraps, hword⟩, hs⟩)
    · exact Or.inr (Or.inr (Or.inl ⟨payload, ⟨data, hwraps, hpayload⟩, hs⟩))
    · exact Or.inr (Or.inr (Or.inr ⟨.other hwraps hstatus hlog, hs⟩))

theorem signal_of_isLog {rec : Record} {payload : String} (h : rec.IsLog payload) :
    rec.signal = .ok (.log payload) := by
  obtain ⟨data, hwraps, hpayload⟩ := h
  rw [signal_of_wraps hwraps]
  exact signal_envelope_iff.mpr (Or.inr (Or.inl ⟨payload, rfl, hpayload, rfl⟩))

theorem signal_of_isStatus {rec : Record} {word : String} (h : rec.IsStatus word) :
    rec.signal = .ok (.status word) := by
  obtain ⟨data, hwraps, hword⟩ := h
  rw [signal_of_wraps hwraps]
  exact signal_envelope_iff.mpr (Or.inl ⟨word, rfl, hword, rfl⟩)

theorem isSound_iff {rec : Record} : rec.IsSound ↔ ∃ s, rec.signal = .ok s := by
  constructor
  · intro h
    cases h with
    | ended hname => exact ⟨_, signal_of_end hname⟩
    | bare hdata =>
        by_cases hname : rec.event = "end"
        · exact ⟨_, signal_of_end hname⟩
        · exact ⟨.other, by rw [Record.signal, if_neg (mt Record.isEnd_iff.mp hname), hdata]⟩
    | status h => exact ⟨_, signal_of_isStatus h⟩
    | log h => exact ⟨_, signal_of_isLog h⟩
    | other hwraps hstatus hlog =>
        refine ⟨.other, ?_⟩
        rw [signal_of_wraps hwraps]
        exact signal_envelope_iff.mpr (Or.inr (Or.inr ⟨hstatus, hlog, rfl⟩))
  · rintro ⟨s, hs⟩
    rcases signal_cases hs with ⟨hname, -⟩ | ⟨word, h, -⟩ | ⟨payload, h, -⟩ | ⟨h, -⟩
    · exact .ended hname
    · exact .status h
    · exact .log h
    · exact h

theorem payload?_eq_some_iff {rec : Record} {payload : String} :
    rec.payload? = some payload ↔ rec.IsLog payload := by
  constructor
  · intro h
    cases hs : rec.signal with
    | error f =>
        rw [Record.payload?, hs] at h
        cases h
    | ok s =>
        rw [Record.payload?, hs] at h
        rcases signal_cases hs with
          ⟨-, rfl⟩ | ⟨word, -, rfl⟩ | ⟨payload', hlog, rfl⟩ | ⟨-, rfl⟩
        · cases h
        · cases h
        · obtain rfl := Option.some.inj h
          exact hlog
        · cases h
  · intro h
    rw [Record.payload?, signal_of_isLog h]
    rfl

theorem word?_eq_some_iff {rec : Record} {word : String} :
    rec.word? = some word ↔ rec.IsStatus word := by
  constructor
  · intro h
    cases hs : rec.signal with
    | error f =>
        rw [Record.word?, hs] at h
        cases h
    | ok s =>
        rw [Record.word?, hs] at h
        rcases signal_cases hs with
          ⟨-, rfl⟩ | ⟨word', hstatus, rfl⟩ | ⟨payload, -, rfl⟩ | ⟨-, rfl⟩
        · cases h
        · obtain rfl := Option.some.inj h
          exact hstatus
        · cases h
        · cases h
  · intro h
    rw [Record.word?, signal_of_isStatus h]
    rfl

/-- A record with which a feed is over: one named `end`, or the status of a succeeded build. -/
def Record.IsTerminal (rec : Record) : Prop := rec.event = "end" ∨ rec.IsStatus "succeeded"

theorem endsFeed_iff {rec : Record} : rec.endsFeed = true ↔ rec.IsTerminal := by
  constructor
  · intro h
    cases hs : rec.signal with
    | error f =>
        rw [Record.endsFeed, hs] at h
        cases h
    | ok s =>
        rw [Record.endsFeed, hs] at h
        rcases signal_cases hs with
          ⟨hname, -⟩ | ⟨word, hstatus, rfl⟩ | ⟨payload, -, rfl⟩ | ⟨-, rfl⟩
        · exact Or.inl hname
        · obtain rfl : word = succeededWord := by simpa [Signal.ends] using h
          exact Or.inr hstatus
        · cases h
        · cases h
  · rintro (hname | hstatus)
    · rw [Record.endsFeed, signal_of_end hname]
      rfl
    · rw [Record.endsFeed, signal_of_isStatus hstatus]
      rfl

theorem endsFeed_eq_false_iff {rec : Record} : rec.endsFeed = false ↔ ¬ rec.IsTerminal := by
  rw [← endsFeed_iff, Bool.not_eq_true]

namespace Reading

/-! ## Records in a row -/

theorem apply_of_not_ends {r : Reading} {s : Signal} (hr : r.isOver = false)
    (hs : s.ends = false) :
    r.apply s = ⟨s.word?.getD r.status, r.log ++ s.payload?.getD "", none⟩ := by
  have hending : r.ending = none := by simpa [isOver] using hr
  obtain ⟨status, log, ending⟩ := r
  obtain rfl : ending = none := hending
  cases s with
  | ended => cases hs
  | status word =>
      have hword : word ≠ succeededWord := by simpa [Signal.ends] using hs
      simp [apply, hword, Signal.word?, Signal.payload?]
  | log payload => rfl
  | other => simp [apply, Signal.word?, Signal.payload?]

theorem feedAll_append (r : Reading) (recs more : List Record) :
    r.feedAll (recs ++ more) = (r.feedAll recs).feedAll more :=
  List.foldl_append

theorem feedAll_of_over {r : Reading} (h : r.isOver = true) (recs : List Record) :
    r.feedAll recs = r := by
  induction recs with
  | nil => rfl
  | cons rec recs ih =>
      show (r.feed rec).2.feedAll recs = r
      rw [feed_of_over h, ih]

/-- Records none of which ends the feed: the last status counts, and all of the log. -/
theorem feedAll_of_not_endsFeed {recs : List Record} (h : ∀ rec ∈ recs, rec.endsFeed = false) :
    ∀ {r : Reading}, r.isOver = false → r.feedAll recs =
      ⟨(recs.filterMap Record.word?).getLast?.getD r.status,
        r.log ++ String.join (recs.filterMap Record.payload?), none⟩ := by
  induction recs with
  | nil =>
      intro r hr
      have hending : r.ending = none := by simpa [isOver] using hr
      show r = ⟨r.status, r.log ++ "", none⟩
      rw [String.append_empty, ← hending]
  | cons rec recs ih =>
      intro r hr
      obtain ⟨hrec, hrecs⟩ := List.forall_mem_cons.mp h
      show (r.feed rec).2.feedAll recs = _
      cases hs : rec.signal with
      | error f =>
          have hword : rec.word? = none := by rw [Record.word?, hs]
          have hpayload : rec.payload? = none := by rw [Record.payload?, hs]
          rw [feed_of_fault hr hs, ih hrecs hr, List.filterMap_cons, List.filterMap_cons, hword,
            hpayload]
      | ok s =>
          have hends : s.ends = false := by rwa [Record.endsFeed, hs] at hrec
          have hword : rec.word? = s.word? := by rw [Record.word?, hs]
          have hpayload : rec.payload? = s.payload? := by rw [Record.payload?, hs]
          have hover : (r.apply s).isOver = false := (isOver_apply hr s).trans hends
          rw [feed_of_ok hr hs, ih hrecs hover, apply_of_not_ends hr hends,
            List.filterMap_cons, List.filterMap_cons, hword, hpayload]
          cases s with
          | ended => cases hends
          | status word => simp [Signal.word?, Signal.payload?, List.getLast?_cons]
          | log payload =>
              simp [Signal.word?, Signal.payload?, String.join_cons, String.append_assoc]
          | other => simp [Signal.word?, Signal.payload?]

/-- Records up to the first one that ends the feed, or all of them if none does. -/
theorem exists_first_end (recs : List Record) :
    (∀ rec ∈ recs, rec.endsFeed = false) ∨
      ∃ before last after, recs = before ++ last :: after ∧
        (∀ rec ∈ before, rec.endsFeed = false) ∧ last.endsFeed = true := by
  induction recs with
  | nil => exact Or.inl nofun
  | cons rec recs ih =>
      cases hrec : rec.endsFeed with
      | true => exact Or.inr ⟨[], rec, recs, rfl, nofun, hrec⟩
      | false =>
          rcases ih with hnone | ⟨before, last, after, rfl, hbefore, hlast⟩
          · exact Or.inl (List.forall_mem_cons.mpr ⟨hrec, hnone⟩)
          · exact Or.inr ⟨rec :: before, last, after, rfl,
              List.forall_mem_cons.mpr ⟨hrec, hbefore⟩, hlast⟩

/-! ## All records fed so far -/

/-- What a reading says of the records that were fed to it, sound or not. -/
structure Accounts (r : Reading) (recs : List Record) : Prop where
  /-- A record at fault leaves the reading as it was, and is as good as not fed. -/
  fault : ∀ rec f, (r.feed rec).1 = .error f →
    (r.feed rec).2 = r ∧ ∀ more, start.feedAll (recs ++ rec :: more) = start.feedAll (recs ++ more)
  refused : r.isOver = false → ∀ rec, (∃ f, (r.feed rec).1 = .error f) ↔ ¬ rec.IsSound
  returned : ∀ rec e, (r.feed rec).1 = .ok e → e = (r.feed rec).2.ending
  /-- Once the feed is over no record changes anything, and none is refused. -/
  stays : r.isOver = true → ∀ more, r.feedAll more = r ∧
    ∀ rec ∈ more, r.feed rec = (.ok r.ending, r)
  ended : r.isOver = false → ∀ data,
    r.feed ⟨"end", data⟩ = (.ok (some .endEvent), { r with ending := some .endEvent })
  not_over : r.isOver = false → r.status ≠ "succeeded"
  finishes : ∀ build, (∃ o, r.finish build = .ok o) ↔ ∃ rec ∈ recs, rec.IsTerminal
  /-- An outcome is that of the records up to the first with which the feed was over. -/
  outcome : ∀ build o, r.finish build = .ok o → ∃ before last after,
    recs = before ++ last :: after ∧ (∀ rec ∈ before, ¬ rec.IsTerminal) ∧
    (last.event = "end" ∧ o.ending = .endEvent ∨
      last.IsStatus "succeeded" ∧ o.ending = .succeeded) ∧
    o.log = String.join (before.filterMap Record.payload?) ∧
    o.status = ((before ++ [last]).filterMap Record.word?).getLast?.getD "unknown" ∧
    (o.ending = .succeeded ↔ o.status = "succeeded")

theorem status_ne_succeeded {recs : List Record} (h : ∀ rec ∈ recs, rec.endsFeed = false) :
    (recs.filterMap Record.word?).getLast?.getD "unknown" ≠ "succeeded" := by
  cases hlast : (recs.filterMap Record.word?).getLast? with
  | none => decide
  | some word =>
      obtain ⟨rec, hrec, hword⟩ := List.mem_filterMap.mp (List.mem_of_getLast? hlast)
      rintro rfl
      exact endsFeed_eq_false_iff.mp (h rec hrec) (Or.inr (word?_eq_some_iff.mp hword))

/-- The records before the first one that ends the feed, and this one. -/
theorem feedAll_first_end {before : List Record} {last : Record}
    (hbefore : ∀ rec ∈ before, rec.endsFeed = false) (hlast : last.IsTerminal)
    (after : List Record) : ∃ o,
      (∀ build, (start.feedAll (before ++ last :: after)).finish build = .ok o) ∧
      (last.event = "end" ∧ o.ending = .endEvent ∨
        last.IsStatus "succeeded" ∧ o.ending = .succeeded) ∧
      o.log = String.join (before.filterMap Record.payload?) ∧
      o.status = ((before ++ [last]).filterMap Record.word?).getLast?.getD "unknown" ∧
      (o.ending = .succeeded ↔ o.status = "succeeded") := by
  have hquiet := feedAll_of_not_endsFeed hbefore (r := start) rfl
  have hover : (start.feedAll before).isOver = false := by rw [hquiet]; rfl
  have hstatus := status_ne_succeeded hbefore
  have hstep : ∀ {s}, last.signal = .ok s → s.ends = true →
      start.feedAll (before ++ last :: after) = (start.feedAll before).apply s := by
    intro s hs hends
    rw [feedAll_append]
    show ((start.feedAll before).feed last).2.feedAll after = _
    rw [feed_of_ok hover hs]
    exact feedAll_of_over ((isOver_apply hover s).trans hends) after
  rcases hlast with hname | hsucceeded
  · have hword : last.word? = none := by rw [Record.word?, signal_of_end hname]; rfl
    rw [hstep (signal_of_end hname) rfl, hquiet]
    refine ⟨⟨_, _, .endEvent⟩, fun _ => rfl, Or.inl ⟨hname, rfl⟩, String.empty_append, ?_, ?_⟩
    · have hwords : (before ++ [last]).filterMap Record.word? = before.filterMap Record.word? := by
        simp [hword]
      rw [hwords]
      rfl
    · exact ⟨nofun, fun h => absurd h hstatus⟩
  · have hword : last.word? = some "succeeded" := word?_eq_some_iff.mpr hsucceeded
    rw [hstep (signal_of_isStatus hsucceeded) rfl, hquiet]
    refine ⟨⟨"succeeded", _, .succeeded⟩, fun _ => rfl, Or.inr ⟨hsucceeded, rfl⟩,
      String.empty_append, ?_, ?_⟩
    · simp [hword]
    · exact ⟨fun _ => rfl, fun _ => rfl⟩

/-- However many records are fed, past those at fault and past the end of the feed, the reading says
what the records up to the first terminal one say. -/
theorem feedAll_accounts (recs : List Record) :
    (start.feedAll recs).Accounts recs ∧
      (∀ rec payload, Record.payload? rec = some payload ↔ rec.IsLog payload) ∧
      ∀ rec word, Record.word? rec = some word ↔ rec.IsStatus word := by
  refine ⟨?_, fun _ _ => payload?_eq_some_iff, fun _ _ => word?_eq_some_iff⟩
  constructor
  case fault =>
    intro rec f h
    refine ⟨feed_eq_of_error h, fun more => ?_⟩
    rw [feedAll_append, feedAll_append]
    show ((start.feedAll recs).feed rec).2.feedAll more = _
    rw [feed_eq_of_error h]
  case refused =>
    intro hr rec
    rw [isSound_iff]
    constructor
    · rintro ⟨f, hf⟩ ⟨s, hs⟩
      rw [feed_of_ok hr hs] at hf
      cases hf
    · intro hnone
      cases hs : rec.signal with
      | ok s => exact absurd ⟨s, hs⟩ hnone
      | error f => exact ⟨f, by rw [feed_of_fault hr hs]⟩
  case returned =>
    intro rec e h
    exact eq_ending_of_feed h
  case stays =>
    intro h more
    exact ⟨feedAll_of_over h more, fun rec _ => feed_of_over h rec⟩
  case ended =>
    intro h data
    exact feed_of_ok h (signal_of_end rfl)
  case not_over =>
    intro h
    rcases exists_first_end recs with hnone | ⟨before, last, after, rfl, hbefore, hlast⟩
    · rw [feedAll_of_not_endsFeed hnone rfl]
      exact status_ne_succeeded hnone
    · obtain ⟨o, hfinish, -⟩ := feedAll_first_end hbefore (endsFeed_iff.mp hlast) after
      have hcut := hfinish ""
      rw [finish_of_not_over h] at hcut
      cases hcut
  case finishes =>
    intro build
    rcases exists_first_end recs with hnone | ⟨before, last, after, rfl, hbefore, hlast⟩
    · rw [feedAll_of_not_endsFeed hnone rfl]
      constructor
      · rintro ⟨o, ho⟩
        cases ho
      · rintro ⟨rec, hrec, hterminal⟩
        exact absurd hterminal (endsFeed_eq_false_iff.mp (hnone rec hrec))
    · obtain ⟨o, hfinish, -⟩ := feedAll_first_end hbefore (endsFeed_iff.mp hlast) after
      exact ⟨fun _ => ⟨last, List.mem_append_right _ List.mem_cons_self, endsFeed_iff.mp hlast⟩,
        fun _ => ⟨o, hfinish build⟩⟩
  case outcome =>
    intro build o ho
    rcases exists_first_end recs with hnone | ⟨before, last, after, rfl, hbefore, hlast⟩
    · rw [feedAll_of_not_endsFeed hnone rfl] at ho
      cases ho
    · obtain ⟨o', hfinish, hsays⟩ := feedAll_first_end hbefore (endsFeed_iff.mp hlast) after
      obtain rfl : o' = o := Except.ok.inj ((hfinish build).symm.trans ho)
      exact ⟨before, last, after, rfl, fun rec hrec => endsFeed_eq_false_iff.mp (hbefore rec hrec),
        hsays⟩

/-- A log event without a payload is refused, and what comes behind the end counts for nothing. -/
theorem reading_of_started_build :
    let faulty : Record := ⟨"event", some "\x7b\"event\":\"log\"\x7d"⟩
    let recs := [statusRecord "started", faulty, logRecord "hi", endRecord, logRecord "late"]
    start.feedAll recs = ⟨"started", "hi", some .endEvent⟩ ∧
      (start.feedAll recs).finish "7" = .ok ⟨"started", "hi", .endEvent⟩ ∧
      (logRecord "hi").IsLog "hi" ∧ (statusRecord "started").IsStatus "started" ∧
      ¬ faulty.IsSound ∧ ((start.feedAll [statusRecord "started"]).feed faulty).2 =
        start.feedAll [statusRecord "started"] := by
  intro faulty recs
  have hall : start.feedAll recs = ⟨"started", "hi", some .endEvent⟩ := by decide +kernel
  have hfinish : (start.feedAll recs).finish "7" = .ok ⟨"started", "hi", .endEvent⟩ := by
    rw [hall]
    rfl
  have hover : (start.feedAll [statusRecord "started"]).isOver = false := by decide +kernel
  obtain ⟨haccounts, hlog, hstatus⟩ := feedAll_accounts [statusRecord "started"]
  obtain ⟨f, hf⟩ : ∃ f, ((start.feedAll [statusRecord "started"]).feed faulty).1 = .error f := by
    have hnone : ((start.feedAll [statusRecord "started"]).feed faulty).1.toOption = none := by
      decide +kernel
    cases hfeed : ((start.feedAll [statusRecord "started"]).feed faulty).1 with
    | error f => exact ⟨f, rfl⟩
    | ok e =>
        rw [hfeed] at hnone
        cases hnone
  exact ⟨hall, hfinish, (hlog _ _).mp (by decide +kernel), (hstatus _ _).mp (by decide +kernel),
    (haccounts.refused hover faulty).mp ⟨f, hf⟩, (haccounts.fault faulty f hf).1⟩

end Reading
end JobHealth.Feed
