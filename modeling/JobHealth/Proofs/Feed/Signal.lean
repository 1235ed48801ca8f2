import JobHealth.Feed.Outcome
/-!
# `JobHealth.Proofs.Feed.Signal` — what one record does to a reading

Taking a record in is a row of steps, each of which may fail, change the reading
or make a note.  Run to their end, they come to one of two things: the record
means something, a `Signal`, and the reading changes by it; or it is at fault,
and the reading is what it was before.

| step of the row                  | may fail | changes the reading      |
| :------------------------------- | :------- | :----------------------- |
| is the feed over, is it the end  | no       | at the end               |
| read the envelope                | yes      | no                       |
| read the status, or the payload  | yes      | no                       |
| keep it                          | no       | yes                      |

So every failure comes before every change.
-/

namespace JobHealth.Feed

/-- What a record means. -/
inductive Signal where
  /-- The feed is over. -/
  | ended
  /-- The build's status from now on. -/
  | status (word : String)
  /-- The next piece of the build's log. -/
  | log (payload : String)
  /-- Nothing that matters. -/
  | other
  deriving DecidableEq, Repr

namespace Signal

/-- Whether a feed is over with this signal. -/
def ends : Signal → Bool
  | .status word => word == succeededWord
  | .ended => true
  | _ => false

/-- The piece of log that a signal carries. -/
def payload? : Signal → Option String
  | .log payload => some payload
  | _ => none

/-- The status that a signal carries. -/
def word? : Signal → Option String
  | .status word => some word
  | _ => none

end Signal

def Envelope.signal (e : Envelope) : Except EventFault Signal :=
  if e.event = "status" then e.status.map .status
  else if e.event = "log" then e.payload.map .log
  else .ok .other

/-- What a record means, or what is wrong with it. -/
def Record.signal (rec : Record) : Except EventFault Signal :=
  if rec.isEnd then .ok .ended
  else
    match rec.data with
    | none => .ok .other
    | some text => (Envelope.read text).bind Envelope.signal

/-! ## Running the steps -/

namespace Steps

section
variable {α β : Type} (s : Noted)

theorem run_bind (x : Steps α) (f : α → Steps β) :
    (x >>= f).run.run s =
      match x.run.run s with
      | (.ok a, s') => (f a).run.run s'
      | (.error e, s') => (.error e, s') := by
  show (ExceptT.bindCont f (x.run.run s).1) (x.run.run s).2 = _
  rcases x.run.run s with ⟨_ | _, _⟩ <;> rfl

theorem run_ite (c : Prop) [Decidable c] (x y : Steps α) :
    (if c then x else y).run.run s = if c then x.run.run s else y.run.run s := by
  split <;> rfl

theorem run_lift (x : Except EventFault α) : (liftM x : Steps α).run.run s = (x, s) := rfl

end

section
variable (s : Noted)

theorem run_get : (get : Steps Noted).run.run s = (.ok s, s) := rfl

theorem run_change (f : Reading → Reading) :
    (change f).run.run s = (.ok (), { s with reading := f s.reading }) := rfl

theorem run_note (d : Diagnostic) :
    (note d).run.run s = (.ok (), { s with notes := s.notes ++ [d] }) := rfl

theorem run_ending : ending.run.run s = (.ok s.reading.ending, s) := rfl

end

end Steps

/-! ## One record -/

namespace Reading

def apply (r : Reading) : Signal → Reading
  | .ended => { r with ending := some .endEvent }
  | .status word =>
    { r with status := word, ending := if word = succeededWord then some .succeeded else r.ending }
  | .log payload => { r with log := r.log ++ payload }
  | .other => r

/-- Once the feed is over, a record changes nothing. -/
theorem feed_of_over {r : Reading} (h : r.isOver = true) (rec : Record) :
    r.feed rec = (.ok r.ending, r) := by
  simp only [feed, Steps.take, Steps.run_bind, Steps.run_get, h, if_true, Steps.run_ending]

/-- Until then the reading changes by what the record means; by a record at fault it does not. -/
theorem feed_eq {r : Reading} (h : r.isOver = false) (rec : Record) :
    r.feed rec =
      match rec.signal with
      | .ok s => (.ok (r.apply s).ending, r.apply s)
      | .error f => (.error f, r) := by
  simp only [feed, Steps.take, Record.signal, Steps.run_bind, Steps.run_get, h, Bool.false_eq_true,
    if_false]
  cases rec.isEnd with
  | true => simp only [Steps.run_bind, Steps.run_change, Steps.run_ending, if_true, apply]
  | false =>
      simp only [Bool.false_eq_true, if_false]
      cases rec.data with
      | none => simp only [Steps.run_bind, Steps.run_note, Steps.run_ending, apply]
      | some text =>
          simp only [Steps.run_bind, Steps.run_lift]
          cases Envelope.read text with
          | error f => simp only [Except.bind]
          | ok e =>
              simp only [Except.bind, Envelope.signal, Steps.run_ite]
              by_cases hstatus : e.event = "status"
              · simp only [hstatus, if_true, Steps.run_bind, Steps.run_lift]
                cases e.status with
                | error f => simp only [Except.map]
                | ok word =>
                    simp only [Except.map, Steps.run_note, Steps.run_change, Steps.run_get,
                      Steps.run_ite, apply]
                    by_cases hword : word = succeededWord
                    · simp only [hword, if_true, Steps.run_bind, Steps.run_change,
                        Steps.run_ending]
                    · simp only [hword, if_false, Steps.run_ending]
              · simp only [hstatus, if_false]
                by_cases hlog : e.event = "log"
                · simp only [hlog, if_true, Steps.run_bind, Steps.run_lift]
                  cases e.payload with
                  | error f => simp only [Except.map]
                  | ok payload =>
                      simp only [Except.map, Steps.run_change, Steps.run_ending, apply]
                · simp only [hlog, if_false, Steps.run_bind, Steps.run_note, Steps.run_ending,
                    apply]

section
variable {r : Reading} {rec : Record} (hr : r.isOver = false)
include hr

theorem isOver_apply (s : Signal) : (r.apply s).isOver = s.ends := by
  cases s with
  | ended => rfl
  | status word =>
      have hending : r.ending = none := by simpa [isOver] using hr
      by_cases hword : word = succeededWord
      · simp [apply, isOver, Signal.ends, hword]
      · simp [apply, isOver, Signal.ends, hword, hending]
  | log payload => exact hr
  | other => exact hr

theorem feed_of_ok {s : Signal} (hs : rec.signal = .ok s) :
    r.feed rec = (.ok (r.apply s).ending, r.apply s) := by
  rw [feed_eq hr, hs]

theorem feed_of_fault {f : EventFault} (hs : rec.signal = .error f) :
    r.feed rec = (.error f, r) := by
  rw [feed_eq hr, hs]

end

theorem log_apply (r : Reading) (s : Signal) : (r.apply s).log = r.log ++ s.payload?.getD "" := by
  cases s with
  | log payload => rfl
  | _ => simp [apply, Signal.payload?]

/-- What comes back of a record is how the feed is over behind it. -/
theorem eq_ending_of_feed {r : Reading} {rec : Record} {e : Option Ending}
    (h : (r.feed rec).1 = .ok e) : e = (r.feed rec).2.ending := by
  cases hr : r.isOver with
  | true =>
      rw [feed_of_over hr] at h ⊢
      exact (Except.ok.inj h).symm
  | false =>
      cases hs : rec.signal with
      | error f =>
          rw [feed_of_fault hr hs] at h
          cases h
      | ok s =>
          rw [feed_of_ok hr hs] at h ⊢
          exact (Except.ok.inj h).symm

/-- A record at fault leaves the reading as it was. -/
theorem feed_eq_of_error {r : Reading} {rec : Record} {f : EventFault}
    (h : (r.feed rec).1 = .error f) : (r.feed rec).2 = r := by
  cases hr : r.isOver with
  | true => rw [feed_of_over hr]
  | false =>
      cases hs : rec.signal with
      | error f => rw [feed_of_fault hr hs]
      | ok s =>
          rw [feed_of_ok hr hs] at h
          cases h

end Reading

end JobHealth.Feed
