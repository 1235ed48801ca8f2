import JobHealth.Proofs.Feed.Signal
/-!
# `JobHealth.Proofs.Feed.Outcome` — what a feed that was read to its end says

Reading stops at the first record that ends the feed.  A feed whose reading
gave an outcome was sound up to there, so its log is what the log events before
that record carry, in order.
-/

namespace JobHealth.Feed

/-- Whether a feed is over with this record. -/
def Record.endsFeed (rec : Record) : Bool :=
  match rec.signal with
  | .ok s => s.ends
  | .error _ => false

/-- The piece of log that a record carries. -/
def Record.payload? (rec : Record) : Option String :=
  match rec.signal with
  | .ok s => s.payload?
  | .error _ => none

/-- The records among the items of a feed. -/
def recordsOf (items : List Arrival) : List Record :=
  items.filterMap fun a =>
    match a.item with
    | .ok rec => some rec
    | .error _ => none

/-- The pieces of log before the first record that ends the feed, put together. -/
def logBeforeEnd (items : List Arrival) : String :=
  String.join (((recordsOf items).takeWhile fun rec => !rec.endsFeed).filterMap Record.payload?)

theorem items_ofChunks (input : List Chunk) :
    (Arrivals.ofChunks input).items.map Arrival.item = itemsOfChunks input := by
  rw [Arrivals.ofChunks, Arrivals.ofItems, List.map_map]
  exact List.map_id _

/-! ## The end of a reading -/

/-- A feed that runs dry before it is over was cut short. -/
theorem finish_of_not_over {r : Reading} (h : r.isOver = false) (build : String) :
    r.finish build = .error (.feedCutShort build) := by
  unfold Reading.finish
  cases hend : r.ending with
  | none => rfl
  | some e => rw [Reading.isOver, hend] at h; cases h

theorem finish_of_over {r : Reading} (h : r.isOver = true) (build : String) :
    ∃ o, r.finish build = .ok o := by
  unfold Reading.finish
  cases hend : r.ending with
  | none =>
      rw [Reading.isOver, hend] at h
      cases h
  | some ending => exact ⟨_, rfl⟩

theorem log_of_finish {r : Reading} {build : String} {o : Outcome}
    (h : r.finish build = .ok o) : o.log = r.log := by
  unfold Reading.finish at h
  split at h
  · rw [← Except.ok.inj h]
  · cases h

/-! ## Reading on -/

section
variable {build : String} {timeout : Span} {close : Option Span} {r : Reading}

/-- A feed at its end was cut short, unless its end did not come in time. -/
theorem consumeFrom_nil (hr : r.isOver = false) :
    consumeFrom build timeout close r [] =
      if inTime timeout close then .error (.feedCutShort build)
      else .error (timedOut build timeout) := by
  rw [consumeFrom, finish_of_not_over hr]

theorem error_of_consumeFrom_nil (hr : r.isOver = false) :
    ∃ f, consumeFrom build timeout close r [] = .error f := by
  rw [consumeFrom_nil hr]
  split
  · exact ⟨_, rfl⟩
  · exact ⟨_, rfl⟩

theorem consumeFrom_of_late {a : Arrival} (h : inTime timeout a.delay = false)
    (items : List Arrival) :
    consumeFrom build timeout close r (a :: items) = .error (timedOut build timeout) := by
  rw [consumeFrom, if_neg (by rw [h]; decide)]

/-- One step of reading on, for a record that comes in time. -/
theorem consumeFrom_cons {a : Arrival} {rec : Record} {s : Signal} (hr : r.isOver = false)
    (htime : inTime timeout a.delay = true) (hitem : a.item = .ok rec) (hs : rec.signal = .ok s)
    (items : List Arrival) :
    consumeFrom build timeout close r (a :: items) =
      if s.ends then (r.apply s).finish build
      else consumeFrom build timeout close (r.apply s) items := by
  have hends : (r.apply s).ending.isSome = s.ends := Reading.isOver_apply hr s
  rw [consumeFrom, if_pos htime, hitem]
  simp only [Reading.feed_of_ok hr hs]
  rw [← hends]
  cases (r.apply s).ending <;> rfl

theorem consumeFrom_fault {a : Arrival} {rec : Record} {f : EventFault} (hr : r.isOver = false)
    (htime : inTime timeout a.delay = true) (hitem : a.item = .ok rec)
    (hs : rec.signal = .error f) (items : List Arrival) :
    consumeFrom build timeout close r (a :: items) = .error (.malformedEvent f) := by
  rw [consumeFrom, if_pos htime, hitem]
  simp only [Reading.feed_of_fault hr hs]

/-- A record that comes late or is at fault ends the reading; any other one is taken in. -/
theorem consumeFrom_cons_cases {a : Arrival} {rec : Record} (hr : r.isOver = false)
    (hitem : a.item = .ok rec) (build : String) (timeout : Span) (close : Option Span)
    (items : List Arrival) :
    (∃ f, consumeFrom build timeout close r (a :: items) = .error f) ∨
      ∃ s, rec.signal = .ok s ∧ consumeFrom build timeout close r (a :: items) =
        if s.ends then (r.apply s).finish build
        else consumeFrom build timeout close (r.apply s) items := by
  cases htime : inTime timeout a.delay with
  | false => exact Or.inl ⟨_, consumeFrom_of_late htime items⟩
  | true =>
      cases hs : rec.signal with
      | ok s => exact Or.inr ⟨s, rfl, consumeFrom_cons hr htime hitem hs items⟩
      | error f => exact Or.inl ⟨_, consumeFrom_fault hr htime hitem hs items⟩

/-- The steps of reading on to an outcome. -/
theorem consumeFrom_ok {items : List Arrival} {o : Outcome} (hr : r.isOver = false)
    (h : consumeFrom build timeout close r items = .ok o) :
    ∃ a rest rec s, items = a :: rest ∧ a.item = .ok rec ∧ rec.signal = .ok s ∧
      (s.ends = true ∧ (r.apply s).finish build = .ok o ∨
        s.ends = false ∧ consumeFrom build timeout close (r.apply s) rest = .ok o) := by
  cases items with
  | nil =>
      rw [consumeFrom_nil hr] at h
      split at h <;> cases h
  | cons a rest =>
      cases hitem : a.item with
      | error f =>
          rw [consumeFrom, hitem] at h
          split at h <;> cases h
      | ok rec =>
          rcases consumeFrom_cons_cases hr hitem build timeout close rest with
            ⟨f, hf⟩ | ⟨s, hs, hstep⟩
          · rw [hf] at h
            cases h
          · rw [hstep] at h
            refine ⟨a, rest, rec, s, rfl, hitem, hs, ?_⟩
            cases hends : s.ends with
            | true => exact Or.inl ⟨rfl, by rwa [hends] at h⟩
            | false => exact Or.inr ⟨rfl, by rwa [hends] at h⟩

end

/-! ## The log -/

theorem logBeforeEnd_cons {a : Arrival} {rec : Record} {s : Signal} (hitem : a.item = .ok rec)
    (hs : rec.signal = .ok s) (items : List Arrival) :
    logBeforeEnd (a :: items) =
      if s.ends then "" else s.payload?.getD "" ++ logBeforeEnd items := by
  have hrecords : recordsOf (a :: items) = rec :: recordsOf items := by
    simp only [recordsOf, List.filterMap_cons, hitem]
  have hends : rec.endsFeed = s.ends := by rw [Record.endsFeed, hs]
  have hpayload : rec.payload? = s.payload? := by rw [Record.payload?, hs]
  rw [logBeforeEnd, hrecords, List.takeWhile_cons, hends]
  cases s.ends with
  | true => rfl
  | false =>
      simp only [Bool.not_false, if_true, List.filterMap_cons, hpayload, Bool.false_eq_true,
        if_false]
      cases s.payload? with
      | none => rw [Option.getD_none, String.empty_append]; rfl
      | some payload => rw [Option.getD_some, String.join_cons]; rfl

/-- An outcome's log is what the log events carry up to the end of the feed. -/
theorem log_of_consumeFrom {build : String} {timeout : Span} {close : Option Span}
    {items : List Arrival} {o : Outcome} :
    ∀ {r : Reading}, r.isOver = false → consumeFrom build timeout close r items = .ok o →
      o.log = r.log ++ logBeforeEnd items := by
  induction items with
  | nil =>
      intro r hr h
      obtain ⟨a, rest, rec, s, hnil, -⟩ := consumeFrom_ok hr h
      cases hnil
  | cons a items ih =>
      intro r hr h
      obtain ⟨a', rest, rec, s, hcons, hitem, hs, hcase⟩ := consumeFrom_ok hr h
      obtain ⟨rfl, rfl⟩ := List.cons.inj hcons
      rw [logBeforeEnd_cons hitem hs]
      rcases hcase with ⟨hends, hfinish⟩ | ⟨hends, hrest⟩
      · have hnone : s.payload? = none := by
          cases s with
          | log payload => cases hends
          | _ => rfl
        rw [log_of_finish hfinish, Reading.log_apply, hends, hnone]
        rfl
      · rw [ih ((Reading.isOver_apply hr s).trans hends) hrest, Reading.log_apply, hends,
          String.append_assoc]
        rfl

theorem log_of_consume {build : String} {timeout : Span} {feed : Arrivals} {o : Outcome}
    (h : consume build timeout feed = .ok o) : o.log = logBeforeEnd feed.items := by
  rw [log_of_consumeFrom rfl h, Reading.start, String.empty_append]

end JobHealth.Feed
