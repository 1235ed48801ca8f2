import JobHealth.Proofs.Feed.Body
import JobHealth.Proofs.Feed.Envelope
import JobHealth.Proofs.Feed.Outcome
/-!
# `JobHealth.Proofs.Feed.RoundTrip` — what is written into a feed is read out of it

Three layers lie between a piece of log and the feed's bytes: the envelope, the
block, the chunks.  Each layer's reader undoes its writer, so a feed of log
events, a status event and an end event says the log and the status that went
into it.  How the log was split into events does not matter.

| layer    | written as            | read back by            |
| :------- | :-------------------- | :---------------------- |
| envelope | `Carries`             | `signal_of_carries`     |
| feed     | `Tells`               | `consumeFrom_of_tells`  |
| body     | `writeBody`           | `readWhole_writeBody`   |
| chunks   | `Delivers`            | `itemsOfChunks`         |
-/

namespace JobHealth.Feed

open JobHealth.Text

/-! ## One event -/

/-- The record of an event: an envelope of that kind, whose own data has `value` as the text
`field`.  Other members may stand anywhere in both. -/
inductive Carries (kind field value : String) : Record → Prop
  | mk {event text : String} {g g' t : List Char} {seen : Json.Fields}
      {members : List (String × Json.Value)} :
      event ≠ Record.endEvent → text.toList = g ++ t ++ g' → Json.Gap g → Json.Gap g' →
      Json.RecordText envelopeShape seen t →
      seen.lookup "event" = some (.text kind) →
      seen.lookup "data" = some (.free (.record members)) →
      Json.lookupLast field members = some (.text value) →
      Carries kind field value ⟨event, some text⟩

theorem signal_of_carries {kind field value : String} {r : Record}
    (h : Carries kind field value r) : ∃ members,
      Json.lookupLast field members = some (.text value) ∧
        r.signal = (⟨kind, .record members⟩ : Envelope).signal := by
  cases h with
  | @mk event text g g' t seen members hevent htext hg hg' ht hkind hdata hvalue =>
      have hend : ¬ Record.isEnd ⟨event, some text⟩ = true := by simpa [Record.isEnd] using hevent
      have hread := Json.readRecord_text ht (complete_envelope hkind (.inl hdata)) hg g'
      have hall : Json.readAll (Json.readRecord envelopeShape) text =
          .ok (eventFields kind (.record members)) := by
        refine Json.bind_eq_ok.mpr ⟨_, htext ▸ hread, ?_⟩
        exact if_pos (Json.isEmpty_skipGap hg')
      refine ⟨members, hvalue, ?_⟩
      rw [Record.signal, if_neg hend]
      simp only [Envelope.read, hall]
      rfl

theorem signal_of_log {payload : String} {r : Record} (h : Carries "log" "payload" payload r) :
    r.signal = .ok (.log payload) := by
  obtain ⟨members, hvalue, hsignal⟩ := signal_of_carries h
  rw [hsignal, Envelope.signal, if_neg (by simp), if_pos rfl, Envelope.payload, soleText, hvalue]
  rfl

theorem signal_of_status {word : String} {r : Record} (h : Carries "status" "status" word r) :
    r.signal = .ok (.status word) := by
  obtain ⟨members, hvalue, hsignal⟩ := signal_of_carries h
  rw [hsignal, Envelope.signal, if_pos rfl, Envelope.status, soleText, hvalue]
  rfl

/-- The data of an event is never empty, so the record is read back as it is. -/
theorem readBack_of_carries {kind field value : String} {r : Record}
    (h : Carries kind field value r) : r.readBack = r := by
  cases h with
  | @mk event text g g' t seen members _ htext _ _ ht _ _ _ =>
      have hne : text ≠ "" := by
        rintro rfl
        cases ht with
        | mk _ _ => simp at htext
      rw [Record.readBack, Option.filter_some, if_pos (by simpa using hne)]

/-! ## A feed of events -/

/-- How the feed of a build with that status is over. -/
def endingOf (status : String) : Ending :=
  if status = succeededWord then .succeeded else .endEvent

/-- The records that tell a log, piece by piece, and then the status: one log event for each
piece, a status event and an end event. -/
inductive Tells (status : String) : List String → List Record → Prop
  | status {last : Record} {data : Option String} : Carries "status" "status" status last →
      Tells status [] [last, ⟨Record.endEvent, data⟩]
  | log {payload : String} {payloads : List String} {r : Record} {rs : List Record} :
      Carries "log" "payload" payload r → Tells status payloads rs →
      Tells status (payload :: payloads) (r :: rs)

theorem consumeFrom_of_tells {status : String} {payloads : List String} {rs : List Record}
    (h : Tells status payloads rs) {items : List Arrival} {timeout : Span}
    (hitems : items.map Arrival.item = rs.map fun r => .ok r.readBack)
    (htime : ∀ a ∈ items, inTime timeout a.delay = true) {r : Reading} (hr : r.isOver = false)
    (build : String) (close : Option Span) :
    consumeFrom build timeout close r items =
      .ok ⟨status, r.log ++ String.join payloads, endingOf status⟩ := by
  induction h generalizing items r with
  | @status last data hlast =>
      obtain ⟨a, items, rfl, ha, hitems⟩ := List.map_eq_cons_iff.mp hitems
      obtain ⟨b, items, rfl, hb, -⟩ := List.map_eq_cons_iff.mp hitems
      obtain ⟨hatime, hrest⟩ := List.forall_mem_cons.mp htime
      have hbtime := htime b (List.mem_cons_of_mem _ List.mem_cons_self)
      have hitem : a.item = .ok last := ha.trans (congrArg _ (readBack_of_carries hlast))
      rw [consumeFrom_cons hr hatime hitem (signal_of_status hlast), endingOf]
      have hlog : r.log ++ String.join [] = r.log := String.append_empty
      rw [hlog]
      by_cases hword : status = succeededWord
      · -- a succeeded build needs no end event
        have hends : Signal.ends (.status status) = true := by simpa [Signal.ends] using hword
        rw [if_pos hends, if_pos hword, Reading.finish, Reading.apply, if_pos hword]
      · have hends : Signal.ends (.status status) = false := by simpa [Signal.ends] using hword
        have hover : (r.apply (.status status)).isOver = false := by
          rw [Reading.isOver_apply hr, hends]
        have hended : Record.signal (Record.readBack ⟨Record.endEvent, data⟩) = .ok .ended := rfl
        rw [hends, if_neg (by decide), consumeFrom_cons hover hbtime hb hended, if_neg hword]
        rfl
  | @log payload payloads rec rs hrec _ ih =>
      obtain ⟨a, items, rfl, ha, hitems⟩ := List.map_eq_cons_iff.mp hitems
      obtain ⟨hatime, hrest⟩ := List.forall_mem_cons.mp htime
      have hitem : a.item = .ok rec := ha.trans (congrArg _ (readBack_of_carries hrec))
      have hends : ¬ Signal.ends (.log payload) = true := Bool.false_ne_true
      have hover : (r.apply (.log payload)).isOver = false := Reading.isOver_apply hr _
      rw [consumeFrom_cons hr hatime hitem (signal_of_log hrec), if_neg hends,
        ih hitems hrest hover, String.join_cons, ← String.append_assoc]
      rfl

/-- A feed that brings written records whole and in time, in chunks of any kind. -/
inductive Delivers (timeout : Span) (status : String) (payloads : List String) : Arrivals → Prop
  | mk {records : List Record} {input : List Chunk} {feed : Arrivals} :
      Tells status payloads records → (∀ r ∈ records, r.Writable) →
      bytesOf input = Utf8.encode (writeBody records) → reasonsOf input = [] →
      feed.items.map Arrival.item = itemsOfChunks input →
      (∀ a ∈ feed.items, inTime timeout a.delay = true) →
      Delivers timeout status payloads feed

theorem consume_of_delivers {timeout : Span} {status : String} {payloads : List String}
    {feed : Arrivals} (h : Delivers timeout status payloads feed) (build : String) :
    consume build timeout feed = .ok ⟨status, String.join payloads, endingOf status⟩ := by
  cases h with
  | @mk records input feed htells hwritable hbytes hsound hfeed htime =>
      rw [itemsOfChunks_undisturbed hsound, hbytes, readWhole_writeBody hwritable] at hfeed
      have hconsume := consumeFrom_of_tells htells hfeed htime (r := .start) rfl build feed.close
      rw [Reading.start, String.empty_append] at hconsume
      exact hconsume

/-! ## The events that the writer writes -/

theorem recordText_writeEnvelope (kind field value : String) :
    Json.RecordText envelopeShape
      [("event", .text kind), ("data", .free (.record [(field, .text value)]))]
      (writeEnvelope kind field value).toList := by
  have hvalue : Json.ValueText Json.exact dataDepth (.record [(field, .text value)])
      (Json.writeRecord [Json.writeMember field (Json.writeString value.toList)]) := by
    refine Json.LevelText.record rfl (Json.bodyText_join [(_, _)] ?_)
    refine List.forall_mem_singleton.mpr (Json.memberText_write field ?_)
    exact Json.LevelText.text (Json.spelled_write value)
  have hkind := Json.FieldText.text (Json.spelled_write kind)
  rw [writeEnvelope, String.toList_ofList]
  refine @Json.RecordText.mk _ [some _, some _] _ (Json.bodyText_join [(_, _), (_, _)] ?_) ?_
  · refine List.forall_mem_cons.mpr ⟨?_, List.forall_mem_singleton.mpr ?_⟩
    · exact Json.RecordMember.known rfl (Json.memberText_write "event" hkind)
    · exact Json.RecordMember.known rfl (Json.memberText_write "data" (.free hvalue))
  · simp

theorem carries_writeEnvelope (kind field value : String) :
    Carries kind field value ⟨envelopeEvent, some (writeEnvelope kind field value)⟩ := by
  have htext := recordText_writeEnvelope kind field value
  generalize writeEnvelope kind field value = text at htext ⊢
  have hwhole : text.toList = [] ++ text.toList ++ [] := (List.append_nil _).symm
  have hvalue : Json.lookupLast field [(field, Json.Value.text value)] = some (.text value) := by
    simp [Json.lookupLast]
  exact .mk (by decide) hwhole Json.gap_nil Json.gap_nil htext rfl rfl hvalue

theorem plain_writeEnvelope (kind field value : String) :
    Json.Plain (writeEnvelope kind field value).toList := by
  rw [writeEnvelope, String.toList_ofList]
  have hvalue := Json.plain_writeMember field (Json.plain_writeString value.toList)
  have hdata := Json.plain_writeRecord (List.forall_mem_singleton.mpr hvalue)
  have hkind := Json.plain_writeMember "event" (Json.plain_writeString kind.toList)
  have hdata := Json.plain_writeMember "data" hdata
  exact Json.plain_writeRecord
    (List.forall_mem_cons.mpr ⟨hkind, List.forall_mem_singleton.mpr hdata⟩)

theorem writable_writeEnvelope (kind field value : String) :
    Record.Writable ⟨envelopeEvent, some (writeEnvelope kind field value)⟩ := by
  have hname : SingleLine envelopeEvent.toList := by decide
  refine ⟨hname, fun d hd hreturn => ?_⟩
  obtain rfl := Option.some.inj hd
  exact absurd (plain_writeEnvelope kind field value _ hreturn) (by decide)

/-- The records of a log in pieces and a status. -/
def writtenRecords (payloads : List String) (status : String) : List Record :=
  payloads.map logRecord ++ [statusRecord status, endRecord]

theorem tells_writtenRecords (payloads : List String) (status : String) :
    Tells status payloads (writtenRecords payloads status) := by
  induction payloads with
  | nil => exact .status (carries_writeEnvelope _ _ status)
  | cons payload payloads ih => exact .log (carries_writeEnvelope _ _ payload) ih

theorem writable_writtenRecords (payloads : List String) (status : String) :
    ∀ r ∈ writtenRecords payloads status, r.Writable := by
  induction payloads with
  | nil =>
      have hlast : Record.Writable endRecord := ⟨by decide, nofun⟩
      exact List.forall_mem_cons.mpr
        ⟨writable_writeEnvelope _ _ status, List.forall_mem_singleton.mpr hlast⟩
  | cons payload payloads ih =>
      exact List.forall_mem_cons.mpr ⟨writable_writeEnvelope _ _ payload, ih⟩

/-- What is written arrives, wherever its bytes are cut. -/
theorem delivers_writtenRecords {payloads : List String} {status : String} {input : List Chunk}
    (hbytes : bytesOf input = Utf8.encode (writeBody (writtenRecords payloads status)))
    (hsound : reasonsOf input = []) (timeout : Span) :
    Delivers timeout status payloads (Arrivals.ofChunks input) := by
  refine .mk (tells_writtenRecords payloads status) (writable_writtenRecords payloads status)
    hbytes hsound (items_ofChunks input) fun a ha => ?_
  obtain ⟨item, -, rfl⟩ := List.mem_map.mp ha
  exact decide_eq_true (Nat.zero_le timeout.nanoseconds)

/-- A delivered feed says the log and the status that were written into it; another split of the
log into events says the same. -/
theorem delivered_feed_outcome {timeout : Span} {status : String} {payloads : List String}
    {feed : Arrivals} (h : Delivers timeout status payloads feed) (build : String) :
    consume build timeout feed = .ok ⟨status, String.join payloads, endingOf status⟩ ∧
      ∀ payloads' feed', Delivers timeout status payloads' feed' →
        String.join payloads' = String.join payloads →
          consume build timeout feed' = consume build timeout feed := by
  have hfeed := consume_of_delivers h build
  refine ⟨hfeed, fun payloads' feed' h' hjoin => ?_⟩
  rw [hfeed, consume_of_delivers h' build, hjoin]

/-- Two pieces of log, cut within the first of them. -/
theorem delivered_greeting_outcome :
    let body := Utf8.encode (writeBody (writtenRecords ["say \"", "hi\"\r\n\\ 😀"] "failed"))
    let feed := Arrivals.ofChunks [.bytes (body.take 40), .pending, .bytes (body.drop 40)]
    Delivers (.ofSeconds 60) "failed" ["say \"", "hi\"\r\n\\ 😀"] feed ∧
      consume "7" (.ofSeconds 60) feed = .ok ⟨"failed", "say \"hi\"\r\n\\ 😀", .endEvent⟩ := by
  intro body feed
  have hbytes : bytesOf [.bytes (body.take 40), .pending, .bytes (body.drop 40)] = body := by
    simp only [bytesOf, List.append_nil, List.take_append_drop]
  have hfeed : Delivers (.ofSeconds 60) "failed" ["say \"", "hi\"\r\n\\ 😀"] feed :=
    delivers_writtenRecords hbytes rfl _
  have hlog : String.join ["say \"", "hi\"\r\n\\ 😀"] = "say \"hi\"\r\n\\ 😀" := by decide
  have hending : endingOf "failed" = .endEvent := by decide
  have hsays := (delivered_feed_outcome hfeed "7").1
  rw [hlog, hending] at hsays
  exact ⟨hfeed, hsays⟩

end JobHealth.Feed
