import Mathlib.Data.List.Forall2
import JobHealth.Proofs.Feed.Framing
import JobHealth.Proofs.Feed.Reading
/-!
# `JobHealth.Proofs.Feed.Waiting` — what waiting for a feed can change

The items of a feed and its end are waited for one after the other, each for as
long as the timeout says and anew for each of them.  An item is waited for if all
items in front of it are records that a reading passes: sound ones with which
the feed is not over.  The end is waited for if all items are.  So whatever comes
first decides, of these:

| what comes first                     | what is read                        |
| :----------------------------------- | :---------------------------------- |
| an item or the end, late or never    | the feed timed out                  |
| a failure in place of a record       | that failure                        |
| a record at fault                    | a malformed event                   |
| a record with which the feed is over | an outcome                          |
| none of these, up to an end in time  | the feed was cut short              |

Spans are exact, and what comes exactly with the timeout is not late.  A fault
shows the timeout by its whole seconds.

The proofs go along the feed, and each step has three cases: the item is late,
it stops the reading, or it is passed.  `consumeFrom_item` says once that in the
last two it does not matter how long the item took.
-/

namespace JobHealth.Feed

/-! ## One item -/

/-- A sound record with which the feed is not over. -/
def Record.IsPassing (rec : Record) : Prop := rec.IsSound ∧ ¬ rec.IsTerminal

/-- An item behind which a reading waits for the next one. -/
def Item.IsPassing (i : Item) : Prop := ∃ rec, i = .ok rec ∧ rec.IsPassing

/-- An item that is no timeout: a stream gives none, it is who waits for an item that gives up. -/
def Item.Untimed (i : Item) : Prop := ∀ build seconds, i ≠ .error (.feedTimeout build seconds)

theorem Item.untimed_ok (rec : Record) : Item.Untimed (.ok rec) := by
  intro build seconds h
  cases h

theorem Record.IsTerminal.isSound {rec : Record} (h : rec.IsTerminal) : rec.IsSound := by
  rcases h with hname | hstatus
  · exact .ended hname
  · exact .status hstatus

/-- What a reading comes to with an item that stops it. -/
inductive Item.Stops (i : Item) : Except Fault Outcome → Prop
  | failed {f : Fault} : i = .error f → Stops i (.error f)
  | malformed {rec : Record} {f : EventFault} : i = .ok rec → ¬ rec.IsSound →
      Stops i (.error (.malformedEvent f))
  | terminal {rec : Record} {o : Outcome} : i = .ok rec → rec.IsTerminal → Stops i (.ok o)

theorem Item.Stops.not_isPassing {i : Item} {result : Except Fault Outcome}
    (h : Item.Stops i result) : ¬ Item.IsPassing i := by
  rintro ⟨rec, hrec, hsound, hterminal⟩
  cases h with
  | failed hi =>
      rw [hi] at hrec
      cases hrec
  | malformed hi hf =>
      obtain rfl := Except.ok.inj (hi.symm.trans hrec)
      exact hf hsound
  | terminal hi hover =>
      obtain rfl := Except.ok.inj (hi.symm.trans hrec)
      exact hterminal hover

theorem Item.Stops.ne_feedTimeout {i : Item} {result : Except Fault Outcome}
    (h : Item.Stops i result) (hi : Item.Untimed i) (build : String) (seconds : Nat) :
    result ≠ .error (.feedTimeout build seconds) := by
  rintro rfl
  cases h with
  | failed hfailed => exact hi build seconds hfailed

/-- An item that comes in time stops the reading or is passed, and there is no more to it than the
item itself and what was read before. -/
theorem consumeFrom_item (build : String) {r : Reading} (hr : r.isOver = false) (i : Item) :
    (∃ result, Item.Stops i result ∧ ∀ {timeout close a rest}, a.item = i →
      inTime timeout a.delay = true → consumeFrom build timeout close r (a :: rest) = result) ∨
    (Item.IsPassing i ∧ ∃ r', r'.isOver = false ∧ ∀ {timeout close a rest}, a.item = i →
      inTime timeout a.delay = true → consumeFrom build timeout close r (a :: rest) =
        consumeFrom build timeout close r' rest) := by
  cases i with
  | error f =>
      refine Or.inl ⟨.error f, .failed rfl, fun {timeout close a rest} hitem htime => ?_⟩
      rw [consumeFrom, if_pos htime, hitem]
  | ok rec =>
      cases hs : rec.signal with
      | error f =>
          have hfault : ¬ rec.IsSound := by
            rw [isSound_iff]
            rintro ⟨s, hs'⟩
            rw [hs] at hs'
            cases hs'
          exact Or.inl ⟨_, .malformed rfl hfault, fun {timeout close a rest} hitem htime =>
            consumeFrom_fault hr htime hitem hs rest⟩
      | ok s =>
          have hterminal : rec.IsTerminal ↔ s.ends = true := by
            rw [← endsFeed_iff, Record.endsFeed, hs]
          cases hends : s.ends with
          | true =>
              obtain ⟨o, ho⟩ := finish_of_over ((Reading.isOver_apply hr s).trans hends) build
              refine Or.inl ⟨.ok o, .terminal rfl (hterminal.mpr hends), ?_⟩
              intro timeout close a rest hitem htime
              rw [consumeFrom_cons hr htime hitem hs, if_pos hends, ho]
          | false =>
              have hpassing : rec.IsPassing :=
                ⟨isSound_iff.mpr ⟨s, hs⟩, fun h => by rw [hterminal.mp h] at hends; cases hends⟩
              refine Or.inr ⟨⟨rec, rfl, hpassing⟩, r.apply s,
                (Reading.isOver_apply hr s).trans hends, ?_⟩
              intro timeout close a rest hitem htime
              rw [consumeFrom_cons hr htime hitem hs, if_neg (by rw [hends]; decide)]

/-! ## Late and in time -/

/-- What never comes, or comes when the timeout is over. -/
def Late (timeout : Span) (delay : Option Span) : Prop :=
  delay = none ∨ ∃ d, delay = some d ∧ ¬ d ≤ timeout

theorem inTime_eq_false_iff {timeout : Span} {delay : Option Span} :
    inTime timeout delay = false ↔ Late timeout delay := by
  cases delay with
  | none => simp [inTime, Late]
  | some d => simp [inTime, Late]

theorem inTime_longer {timeout longer : Span} (h : timeout ≤ longer) {delay : Option Span}
    (hd : inTime timeout delay = true) : inTime longer delay = true := by
  cases delay with
  | none => cases hd
  | some d =>
      have hle : d ≤ timeout := of_decide_eq_true hd
      exact decide_eq_true (Span.le_trans hle h)

/-- The same delay, or two that are in time. -/
def SameDelay (timeout : Span) (delay delay' : Option Span) : Prop :=
  delay' = delay ∨ inTime timeout delay = true ∧ inTime timeout delay' = true

theorem SameDelay.inTime_eq {timeout : Span} {delay delay' : Option Span}
    (h : SameDelay timeout delay delay') : inTime timeout delay' = inTime timeout delay := by
  rcases h with hdelay | ⟨hd, hd'⟩
  · rw [hdelay]
  · rw [hd, hd']

/-- The same item, after the same delay or after another one that is in time as well. -/
def Arrival.SameInTime (timeout : Span) (a a' : Arrival) : Prop :=
  a'.item = a.item ∧ SameDelay timeout a.delay a'.delay

/-- The same items and an end, after the same delays or after others that are in time as well. -/
structure Arrivals.SameInTime (timeout : Span) (feed feed' : Arrivals) : Prop where
  items : List.Forall₂ (Arrival.SameInTime timeout) feed.items feed'.items
  close : SameDelay timeout feed.close feed'.close

/-! ## A longer timeout, and other delays -/

section
variable (build : String) {timeout : Span}

/-- A longer timeout gives the same, unless the shorter one was over. -/
theorem consumeFrom_longer {longer : Span} (h : timeout ≤ longer) (close : Option Span)
    (items : List Arrival) : ∀ {r : Reading}, r.isOver = false →
      consumeFrom build timeout close r items = .error (timedOut build timeout) ∨
        consumeFrom build timeout close r items = consumeFrom build longer close r items := by
  induction items with
  | nil =>
      intro r hr
      rw [consumeFrom_nil hr, consumeFrom_nil hr]
      cases htime : inTime timeout close with
      | false => exact Or.inl rfl
      | true =>
          rw [inTime_longer h htime, if_pos rfl, if_pos rfl]
          exact Or.inr rfl
  | cons a items ih =>
      intro r hr
      cases htime : inTime timeout a.delay with
      | false => exact Or.inl (consumeFrom_of_late htime items)
      | true =>
          have hlonger := inTime_longer h htime
          rcases consumeFrom_item build hr a.item with
            ⟨result, -, hstop⟩ | ⟨-, r', hr', hpass⟩
          · exact Or.inr ((hstop rfl htime).trans (hstop rfl hlonger).symm)
          · rw [hpass rfl htime, hpass rfl hlonger]
            exact ih hr'

theorem consumeFrom_sameInTime {close close' : Option Span}
    (hclose : SameDelay timeout close close') {items items' : List Arrival}
    (h : List.Forall₂ (Arrival.SameInTime timeout) items items') :
    ∀ {r : Reading}, r.isOver = false →
      consumeFrom build timeout close' r items' = consumeFrom build timeout close r items := by
  induction h with
  | nil =>
      intro r hr
      rw [consumeFrom_nil hr, consumeFrom_nil hr, hclose.inTime_eq]
  | @cons a a' items items' ha _ ih =>
      intro r hr
      have hsame := ha.2.inTime_eq
      cases htime : inTime timeout a.delay with
      | false => rw [consumeFrom_of_late htime, consumeFrom_of_late (hsame.trans htime)]
      | true =>
          have htime' := hsame.trans htime
          rcases consumeFrom_item build hr a.item with
            ⟨result, -, hstop⟩ | ⟨-, r', hr', hpass⟩
          · exact (hstop ha.1 htime').trans (hstop rfl htime).symm
          · rw [hpass ha.1 htime', hpass rfl htime]
            exact ih hr'

/-! ## What is not waited for -/

/-- Nothing behind a record with which the feed is over is ever looked at, not even the end. -/
theorem consumeFrom_terminal {last : Arrival} {rec : Record} (hitem : last.item = .ok rec)
    (hrec : rec.IsTerminal) (close close' : Option Span) (after after' before : List Arrival) :
    ∀ {r : Reading}, r.isOver = false →
      consumeFrom build timeout close' r (before ++ last :: after') =
        consumeFrom build timeout close r (before ++ last :: after) := by
  induction before with
  | nil =>
      intro r hr
      rw [List.nil_append, List.nil_append]
      cases htime : inTime timeout last.delay with
      | false => rw [consumeFrom_of_late htime, consumeFrom_of_late htime]
      | true =>
          rcases consumeFrom_item build hr last.item with
            ⟨result, -, hstop⟩ | ⟨⟨rec', hitem', -, hpassing⟩, -⟩
          · exact (hstop rfl htime).trans (hstop rfl htime).symm
          · obtain rfl := Except.ok.inj (hitem.symm.trans hitem')
            exact absurd hrec hpassing
  | cons a before ih =>
      intro r hr
      rw [List.cons_append, List.cons_append]
      cases htime : inTime timeout a.delay with
      | false => rw [consumeFrom_of_late htime, consumeFrom_of_late htime]
      | true =>
          rcases consumeFrom_item build hr a.item with
            ⟨result, -, hstop⟩ | ⟨-, r', hr', hpass⟩
          · exact (hstop rfl htime).trans (hstop rfl htime).symm
          · rw [hpass rfl htime, hpass rfl htime]
            exact ih hr'

/-- A wait of a reading, by how long it is: for an item, if all items in front of it are passed, or
for the end, if all items are. -/
inductive Awaits (feed : Arrivals) : (delay : Option Span) → Prop
  | item {before after : List Arrival} {a : Arrival} : feed.items = before ++ a :: after →
      (∀ x ∈ before, Item.IsPassing x.item) → Awaits feed a.delay
  | close : (∀ x ∈ feed.items, Item.IsPassing x.item) → Awaits feed feed.close

theorem awaits_nil_iff {close delay : Option Span} : Awaits ⟨[], close⟩ delay ↔ delay = close := by
  constructor
  · intro h
    cases h with
    | item hitems _ => exact absurd hitems.symm (List.append_ne_nil_of_right_ne_nil _ nofun)
    | close _ => rfl
  · rintro rfl
    exact .close nofun

theorem awaits_cons_iff {a : Arrival} {items : List Arrival} {close delay : Option Span} :
    Awaits ⟨a :: items, close⟩ delay ↔
      delay = a.delay ∨ Item.IsPassing a.item ∧ Awaits ⟨items, close⟩ delay := by
  constructor
  · intro h
    cases h with
    | @item before after x hitems hbefore =>
        cases before with
        | nil => exact Or.inl (congrArg Arrival.delay (List.cons.inj hitems).1.symm)
        | cons y before =>
            obtain ⟨rfl, rfl⟩ := List.cons.inj hitems
            obtain ⟨ha, hbefore⟩ := List.forall_mem_cons.mp hbefore
            exact Or.inr ⟨ha, .item rfl hbefore⟩
    | close hall =>
        obtain ⟨ha, hitems⟩ := List.forall_mem_cons.mp hall
        exact Or.inr ⟨ha, .close hitems⟩
  · rintro (rfl | ⟨ha, h⟩)
    · have hfront : a :: items = [] ++ a :: items := rfl
      exact .item hfront nofun
    · cases h with
      | item hitems hbefore =>
          exact .item (congrArg (a :: ·) hitems) (List.forall_mem_cons.mpr ⟨ha, hbefore⟩)
      | close hall => exact .close (List.forall_mem_cons.mpr ⟨ha, hall⟩)

/-- A feed times out exactly if a wait is late. -/
theorem consumeFrom_timeout_iff {items : List Arrival} (hitems : ∀ a ∈ items, Item.Untimed a.item)
    (close : Option Span) (other : String) (seconds : Nat) : ∀ {r : Reading}, r.isOver = false →
      (consumeFrom build timeout close r items = .error (.feedTimeout other seconds) ↔
        (other = build ∧ seconds = timeout.wholeSeconds) ∧
          ∃ delay, Awaits ⟨items, close⟩ delay ∧ Late timeout delay) := by
  have hlate : (.error (timedOut build timeout) : Except Fault Outcome) =
      .error (.feedTimeout other seconds) ↔ other = build ∧ seconds = timeout.wholeSeconds := by
    rw [timedOut, Except.error.injEq, Fault.feedTimeout.injEq]
    exact and_congr eq_comm eq_comm
  induction items with
  | nil =>
      intro r hr
      rw [consumeFrom_nil hr]
      simp only [awaits_nil_iff, exists_eq_left, ← inTime_eq_false_iff]
      cases inTime timeout close with
      | false => simpa using hlate
      | true => simp
  | cons a items ih =>
      intro r hr
      obtain ⟨hitem, hrest⟩ := List.forall_mem_cons.mp hitems
      simp only [awaits_cons_iff]
      cases htime : inTime timeout a.delay with
      | false =>
          rw [consumeFrom_of_late htime, hlate]
          exact ⟨fun h => ⟨h, a.delay, Or.inl rfl, inTime_eq_false_iff.mp htime⟩, And.left⟩
      | true =>
          have hnot : ¬ Late timeout a.delay := fun h => by
            rw [inTime_eq_false_iff.mpr h] at htime
            cases htime
          rcases consumeFrom_item build hr a.item with
            ⟨result, hstops, hstop⟩ | ⟨hpassing, r', hr', hpass⟩
          · rw [hstop rfl htime]
            constructor
            · exact fun h => absurd h (hstops.ne_feedTimeout hitem other seconds)
            · rintro ⟨-, delay, rfl | ⟨hpassing, -⟩, hdelay⟩
              · exact absurd hdelay hnot
              · exact absurd hpassing hstops.not_isPassing
          · rw [hpass rfl htime, ih hrest hr']
            constructor
            · rintro ⟨hfault, delay, hawaits, hdelay⟩
              exact ⟨hfault, delay, Or.inr ⟨hpassing, hawaits⟩, hdelay⟩
            · rintro ⟨hfault, delay, rfl | ⟨-, hawaits⟩, hdelay⟩
              · exact absurd hdelay hnot
              · exact ⟨hfault, delay, hawaits, hdelay⟩

/-- Items that are passed in time leave a reading that is not over. -/
theorem consumeFrom_passing {before : List Arrival}
    (h : ∀ x ∈ before, Item.IsPassing x.item ∧ inTime timeout x.delay = true)
    (close : Option Span) : ∀ {r : Reading}, r.isOver = false → ∃ r', r'.isOver = false ∧
      ∀ items, consumeFrom build timeout close r (before ++ items) =
        consumeFrom build timeout close r' items := by
  induction before with
  | nil => exact fun {r} hr => ⟨r, hr, fun _ => rfl⟩
  | cons a before ih =>
      intro r hr
      obtain ⟨⟨hpassing, htime⟩, hbefore⟩ := List.forall_mem_cons.mp h
      rcases consumeFrom_item build hr a.item with ⟨result, hstops, -⟩ | ⟨-, r', hr', hpass⟩
      · exact absurd hpassing hstops.not_isPassing
      · obtain ⟨r'', hr'', hrest⟩ := ih hbefore hr'
        refine ⟨r'', hr'', fun items => ?_⟩
        rw [List.cons_append, hpass rfl htime]
        exact hrest items

end

/-! ## Streams of bytes -/

theorem untimed_of_block {block : List UInt8} {i : Item} (h : itemOfBlock? block = some i) :
    Item.Untimed i := by
  unfold itemOfBlock? at h
  split at h
  · obtain ⟨rec, -, rfl⟩ := Option.map_eq_some_iff.mp h
    exact Item.untimed_ok rec
  · obtain rfl := Option.some.inj h
    intro build seconds h
    cases h

theorem untimed_of_ended {bs : List UInt8} {i : Item} (h : i ∈ endedItems bs) :
    Item.Untimed i := by
  obtain ⟨block, -, hblock⟩ := List.mem_filterMap.mp h
  exact untimed_of_block hblock

theorem untimed_readChunks {input : List Chunk} :
    ∀ {buffer : List UInt8}, ∀ i ∈ readChunks buffer input, Item.Untimed i := by
  induction input with
  | nil =>
      intro buffer i hi
      rcases List.mem_append.mp hi with hi | hi
      · exact untimed_of_ended hi
      · have hlast := Option.mem_toList.mp hi
        unfold lastItem? at hlast
        split at hlast
        · cases hlast
        · exact untimed_of_block hlast
  | cons c input ih =>
      intro buffer i hi
      cases c with
      | pending => exact ih i hi
      | bytes bs => exact ih i hi
      | failure reason =>
          rcases List.mem_append.mp hi with hi | hi
          · exact untimed_of_ended hi
          · rcases List.mem_cons.mp hi with rfl | hi
            · intro build seconds h
              cases h
            · exact ih i hi

/-- A stream of bytes gives records, failures of its transport and faults of its bytes, and no
timeout. -/
theorem untimed_ofChunks (input : List Chunk) :
    ∀ a ∈ (Arrivals.ofChunks input).items, Item.Untimed a.item := by
  intro a ha
  have hitem : a.item ∈ (Arrivals.ofChunks input).items.map Arrival.item := List.mem_map_of_mem ha
  rw [items_ofChunks, itemsOfChunks_eq] at hitem
  exact untimed_readChunks a.item hitem

/-! ## The whole feed -/

/-- What comes first in a feed decides, and of its delays only whether they are in time. -/
structure WaitsForEach (build : String) (timeout : Span) (feed : Arrivals) : Prop where
  /-- A longer timeout changes nothing where the shorter one is not over. -/
  longer : ∀ longer, timeout ≤ longer →
    consume build timeout feed = .error (timedOut build timeout) ∨
      consume build timeout feed = consume build longer feed
  delays : ∀ feed', feed.SameInTime timeout feed' →
    consume build timeout feed' = consume build timeout feed
  /-- Nothing counts behind the first record with which the feed is over, nor does the end. -/
  behind : ∀ before last after after' close' rec, feed.items = before ++ last :: after →
    last.item = .ok rec → rec.IsTerminal →
      consume build timeout ⟨before ++ last :: after', close'⟩ = consume build timeout feed
  late : (∀ a ∈ feed.items, Item.Untimed a.item) → ∀ other seconds,
    (consume build timeout feed = .error (.feedTimeout other seconds) ↔
      (other = build ∧ seconds = timeout.wholeSeconds) ∧
        ∃ delay, Awaits feed delay ∧ Late timeout delay)
  failed : ∀ before a after f, feed.items = before ++ a :: after →
    (∀ x ∈ before, Item.IsPassing x.item ∧ inTime timeout x.delay = true) →
      inTime timeout a.delay = true → a.item = .error f → consume build timeout feed = .error f
  /-- A record at fault and one with which the feed is over stop the reading as well. -/
  stopped : ∀ before a after rec, feed.items = before ++ a :: after →
    (∀ x ∈ before, Item.IsPassing x.item ∧ inTime timeout x.delay = true) →
      inTime timeout a.delay = true → a.item = .ok rec →
        (¬ rec.IsSound → ∃ f, consume build timeout feed = .error (.malformedEvent f)) ∧
          (rec.IsTerminal → ∃ o, consume build timeout feed = .ok o)
  dry : (∀ x ∈ feed.items, Item.IsPassing x.item ∧ inTime timeout x.delay = true) →
    inTime timeout feed.close = true → consume build timeout feed = .error (.feedCutShort build)

/-- Each item and the end are waited for on their own. -/
theorem consume_waits_for_each (build : String) (timeout : Span) (feed : Arrivals) :
    WaitsForEach build timeout feed := by
  have hstart : Reading.start.isOver = false := rfl
  constructor
  case longer =>
    intro longer h
    exact consumeFrom_longer build h feed.close feed.items hstart
  case delays =>
    intro feed' h
    exact consumeFrom_sameInTime build h.close h.items hstart
  case behind =>
    intro before last after after' close' rec hitems hitem hrec
    rw [consume, consume, hitems]
    exact consumeFrom_terminal build hitem hrec feed.close close' after after' before hstart
  case late =>
    intro h other seconds
    exact consumeFrom_timeout_iff build h feed.close other seconds hstart
  case failed =>
    intro before a after f hitems hbefore htime hitem
    obtain ⟨r, -, hrest⟩ := consumeFrom_passing build hbefore feed.close hstart
    rw [consume, hitems, hrest, consumeFrom, if_pos htime, hitem]
  case stopped =>
    intro before a after rec hitems hbefore htime hitem
    obtain ⟨r, hr, hrest⟩ := consumeFrom_passing build hbefore feed.close hstart
    rw [consume, hitems, hrest]
    rcases consumeFrom_item build hr a.item with
      ⟨result, hstops, hstop⟩ | ⟨⟨rec', hitem', hsound, hgoes⟩, -⟩
    · rw [hstop rfl htime]
      cases hstops with
      | failed hfailed =>
          rw [hitem] at hfailed
          cases hfailed
      | malformed hrec hfault =>
          obtain rfl := Except.ok.inj (hitem.symm.trans hrec)
          exact ⟨fun _ => ⟨_, rfl⟩, fun hterminal => absurd hterminal.isSound hfault⟩
      | terminal hrec hterminal =>
          obtain rfl := Except.ok.inj (hitem.symm.trans hrec)
          exact ⟨fun hfault => absurd hterminal.isSound hfault, fun _ => ⟨_, rfl⟩⟩
    · obtain rfl := Except.ok.inj (hitem.symm.trans hitem')
      exact ⟨fun hfault => absurd hsound hfault, fun hterminal => absurd hterminal hgoes⟩
  case dry =>
    intro h hclose
    obtain ⟨r, hr, hrest⟩ := consumeFrom_passing build h feed.close hstart
    have hend := hrest []
    rw [List.append_nil] at hend
    rw [consume, hend, consumeFrom_nil hr, if_pos hclose]

/-- The end of the first feed comes half a second too late for one timeout and in time for another,
which it cuts short; in the second feed it is a record that does, and that is an outcome. -/
theorem consume_late_end :
    let minute : Span := .ofSeconds 60
    let longer : Span := ⟨60500000000⟩
    let ping : Arrival := ⟨some minute, .ok ⟨"ping", none⟩⟩
    let dry : Arrivals := ⟨[ping], some longer⟩
    let ended : Arrivals := ⟨[ping, ⟨some longer, .ok endRecord⟩], none⟩
    let hasty : Arrivals := ⟨[⟨some ⟨3⟩, ping.item⟩, ⟨some ⟨0⟩, .ok endRecord⟩], none⟩
    (minute ≤ longer ∧ (∀ a ∈ dry.items, Item.Untimed a.item) ∧ ended.SameInTime longer hasty ∧
      Awaits dry (some longer) ∧ Late minute (some longer)) ∧
    consume "12" minute dry = .error (.feedTimeout "12" 60) ∧
    consume "12" longer dry = .error (.feedCutShort "12") ∧
    consume "12" longer ended = .ok ⟨"unknown", "", .endEvent⟩ ∧
    consume "12" longer hasty = consume "12" longer ended := by
  intro minute longer ping dry ended hasty
  have hpassing : ∀ x ∈ dry.items, Item.IsPassing x.item ∧ inTime longer x.delay = true := by
    have hgoes : Record.endsFeed ⟨"ping", none⟩ = false := by decide +kernel
    refine List.forall_mem_singleton.mpr ⟨⟨_, rfl, .bare rfl, ?_⟩, by decide⟩
    rw [← endsFeed_iff, hgoes]
    exact Bool.false_ne_true
  have huntimed : ∀ a ∈ dry.items, Item.Untimed a.item :=
    List.forall_mem_singleton.mpr (Item.untimed_ok _)
  have hawaits : Awaits dry (some longer) := .close fun x hx => (hpassing x hx).1
  have hlate : Late minute (some longer) := Or.inr ⟨longer, rfl, by decide⟩
  have hsame : ended.SameInTime longer hasty :=
    ⟨.cons ⟨rfl, Or.inr ⟨by decide, by decide⟩⟩
      (.cons ⟨rfl, Or.inr ⟨by decide, by decide⟩⟩ .nil), Or.inl rfl⟩
  have htimed : consume "12" minute dry = .error (.feedTimeout "12" 60) :=
    ((consume_waits_for_each "12" minute dry).late huntimed "12" 60).mpr
      ⟨⟨rfl, by decide⟩, some longer, hawaits, hlate⟩
  have hdry : consume "12" longer dry = .error (.feedCutShort "12") :=
    (consume_waits_for_each "12" longer dry).dry hpassing (by decide)
  have hended : consume "12" longer ended = .ok ⟨"unknown", "", .endEvent⟩ := by decide +kernel
  exact ⟨⟨by decide, huntimed, hsame, hawaits, hlate⟩, htimed, hdry, hended,
    (consume_waits_for_each "12" longer ended).delays hasty hsame⟩

end JobHealth.Feed
