import JobHealth.Proofs.Feed.Body
import JobHealth.Proofs.Feed.Outcome
import JobHealth.Proofs.Json.Prefix
/-!
# `JobHealth.Proofs.Feed.CutOff` — a feed that was cut off is not taken for a whole one

The bytes of a feed may end anywhere: within a field's name, an event's name, a
JSON text or a character.  What no empty line has ended is then still read, so
a last record may be one that nobody wrote.

| layer            | what is left of a feed that was cut off                |
| :--------------- | :----------------------------------------------------- |
| `Torn`           | whole lines and a beginning of one more                |
| `Record.Begins`  | a beginning of the name, or the name and one of the data |
| `CutOff`         | whole records, then nothing, a fault or such a record  |
| `consume`        | the same outcome, or none                              |

A beginning of a name ends no feed unless it is the name, and a beginning of
the data that is JSON already means what the data mean.
-/

namespace JobHealth.Feed

open JobHealth.Text

/-! ## Records -/

/-- What may be read of a record whose block was cut off. -/
inductive Record.Begins : Record → Record → Prop
  | name {part : String} {r : Record} : part.toList <+: r.event.toList → Begins ⟨part, none⟩ r
  | data {event part d : String} : part.toList <+: d.toList →
      Begins ⟨event, some part⟩ ⟨event, some d⟩

/-- A record whose block says nothing wrong when it is cut off: its data are one line at most, and
no beginning of its name ends a feed. -/
structure Record.Severable (r : Record) : Prop where
  event : SingleLine r.event.toList
  data : ∀ d, r.data = some d → SingleLine d.toList
  endEvent : Record.endEvent.toList <+: r.event.toList → r.event = Record.endEvent

theorem Record.Severable.writable {r : Record} (h : r.Severable) : r.Writable :=
  ⟨h.event, fun d hd => (h.data d hd).2⟩

theorem signal_of_isEnd {r : Record} (h : r.isEnd = true) : r.signal = .ok .ended := by
  rw [Record.signal, if_pos h]

/-- A beginning of an event's text that is an event's text is the same event's. -/
theorem read_append {text more : String} {e e' : Envelope} (h : Envelope.read text = .ok e)
    (h' : Envelope.read (text ++ more) = .ok e') : e' = e := by
  unfold Envelope.read at h h'
  split at h
  · cases h
  · next fields hread =>
    split at h'
    · cases h'
    · next fields' hread' =>
      obtain rfl := Json.readAll_append Json.delimited_readRecord hread hread'
      exact Except.ok.inj (h'.symm.trans h)

/-- A record that was cut off means what the whole one means, or nothing. -/
theorem signal_of_begins {part r : Record} (hpart : part.Begins r)
    (hname : Record.endEvent.toList <+: r.event.toList → r.event = Record.endEvent)
    {s s' : Signal} (hs : r.signal = .ok s) (hs' : part.signal = .ok s') :
    s' = s ∨ s' = .other := by
  by_cases hend : part.isEnd = true
  · have hr : r.isEnd = true := by
      have hevent : part.event = Record.endEvent := by simpa [Record.isEnd] using hend
      cases hpart with
      | name hpre =>
          obtain rfl : _ = Record.endEvent := hevent
          simpa [Record.isEnd] using hname hpre
      | data hpre => exact hend
    rw [signal_of_isEnd hend] at hs'
    rw [signal_of_isEnd hr] at hs
    exact Or.inl (Except.ok.inj (hs'.symm.trans hs))
  · cases hpart with
    | name hpre =>
        rw [Record.signal, if_neg hend] at hs'
        exact Or.inr (Except.ok.inj hs').symm
    | data hpre =>
        obtain ⟨more, hmore⟩ := hpre
        rename_i event piece d
        have hd : d = piece ++ String.ofList more := by
          rw [← String.toList_inj, String.toList_append, String.toList_ofList, hmore]
        have hend' : ¬ Record.isEnd ⟨event, some d⟩ = true := hend
        rw [Record.signal, if_neg hend'] at hs
        rw [Record.signal, if_neg hend] at hs'
        obtain ⟨e, hread, hs⟩ := Json.bind_eq_ok.mp hs
        obtain ⟨e', hread', hs'⟩ := Json.bind_eq_ok.mp hs'
        obtain rfl := read_append hread' (hd ▸ hread)
        exact Or.inl (Except.ok.inj (hs'.symm.trans hs))

/-! ## Items -/

/-- What may be read of records whose feed was cut off. -/
inductive CutOff : List Record → List Item → Prop
  | dry (rs : List Record) : CutOff rs []
  | fault (rs : List Record) (f : Fault) (items : List Item) : CutOff rs (.error f :: items)
  | torn {part r : Record} {rs : List Record} : part.Begins r → CutOff (r :: rs) [.ok part]
  | record {r : Record} {rs : List Record} {items : List Item} :
      CutOff rs items → CutOff (r :: rs) (.ok r :: items)

/-- A last record that was cut off ends the feed as the whole record does, or not at all. -/
theorem consumeFrom_torn {piece r : Record} (hbegins : piece.Begins r)
    (hname : Record.endEvent.toList <+: r.event.toList → r.event = Record.endEvent)
    {build : String} {timeout : Span} {close close' : Option Span} {o : Outcome}
    {reading : Reading} {a a' : Arrival} {rest : List Arrival} (hover : reading.isOver = false)
    (hitem : a.item = .ok piece) (hitem' : a'.item = .ok r)
    (hok : consumeFrom build timeout close' reading (a' :: rest) = .ok o) :
    consumeFrom build timeout close reading [a] = .ok o ∨
      ∃ f, consumeFrom build timeout close reading [a] = .error f := by
  obtain ⟨_, _, rec, s, heq, hrec, hs, hcase⟩ := consumeFrom_ok hover hok
  obtain ⟨rfl, rfl⟩ := List.cons.inj heq
  obtain rfl : r = rec := Except.ok.inj (hitem'.symm.trans hrec)
  rcases consumeFrom_cons_cases hover hitem build timeout close [] with
    hfault | ⟨s', hs', hstep⟩
  · exact Or.inr hfault
  · have hdry : s'.ends = false →
        ∃ f, consumeFrom build timeout close (reading.apply s') [] = .error f := by
      intro hends
      exact error_of_consumeFrom_nil ((Reading.isOver_apply hover s').trans hends)
    rw [hstep]
    rcases signal_of_begins hbegins hname hs hs' with rfl | rfl
    · rcases hcase with ⟨hends, hfinish⟩ | ⟨hends, -⟩
      · rw [if_pos hends]
        exact Or.inl hfinish
      · rw [hends]
        exact Or.inr (hdry hends)
    · exact Or.inr (hdry rfl)

/-- Reading what is left of a feed that was cut off gives the outcome of the whole, or none. -/
theorem consumeFrom_cutOff {rs : List Record} {items : List Item} (hcut : CutOff rs items)
    (hnames : ∀ r ∈ rs, Record.endEvent.toList <+: r.event.toList → r.event = Record.endEvent)
    {build : String} {timeout : Span} {close close' : Option Span} {o : Outcome}
    {reading : Reading} {whole part : List Arrival} (hover : reading.isOver = false)
    (hwhole : whole.map Arrival.item = rs.map .ok) (hpart : part.map Arrival.item = items)
    (hok : consumeFrom build timeout close' reading whole = .ok o) :
    consumeFrom build timeout close reading part = .ok o ∨
      ∃ f, consumeFrom build timeout close reading part = .error f := by
  induction hcut generalizing reading whole part with
  | dry rs =>
      obtain rfl := List.map_eq_nil_iff.mp hpart
      exact Or.inr (error_of_consumeFrom_nil hover)
  | fault rs f items =>
      obtain ⟨a, rest, rfl, hitem, -⟩ := List.map_eq_cons_iff.mp hpart
      refine Or.inr ?_
      rw [consumeFrom, hitem]
      split
      · exact ⟨f, rfl⟩
      · exact ⟨_, rfl⟩
  | @torn piece r rs hbegins =>
      obtain ⟨a, rest, rfl, hitem, hrest⟩ := List.map_eq_cons_iff.mp hpart
      obtain rfl := List.map_eq_nil_iff.mp hrest
      obtain ⟨a', rest', rfl, hitem', -⟩ := List.map_eq_cons_iff.mp hwhole
      exact consumeFrom_torn hbegins (hnames r List.mem_cons_self) hover hitem hitem' hok
  | @record r rs items hrest ih =>
      obtain ⟨a, rest, rfl, hitem, hpart'⟩ := List.map_eq_cons_iff.mp hpart
      obtain ⟨a', rest', rec, s, rfl, hitem', hs, hcase⟩ := consumeFrom_ok hover hok
      obtain ⟨hhead, hwhole'⟩ := List.cons.inj hwhole
      obtain rfl : rec = r := Except.ok.inj (hitem'.symm.trans hhead)
      rcases consumeFrom_cons_cases hover hitem build timeout close rest with
        hfault | ⟨s', hs', hstep⟩
      · exact Or.inr hfault
      · obtain rfl : s = s' := Except.ok.inj (hs.symm.trans hs')
        rw [hstep]
        rcases hcase with ⟨hends, hfinish⟩ | ⟨hends, hok'⟩
        · rw [if_pos hends]
          exact Or.inl hfinish
        · rw [hends]
          exact ih (fun r hr => hnames r (List.mem_cons_of_mem _ hr))
            ((Reading.isOver_apply hover s).trans hends) hwhole' hpart' hok'

/-! ## The bytes of a block that was cut off -/

theorem pieces_of_not_mem {sep : Char} {cs : List Char} (h : sep ∉ cs) : pieces sep cs = [cs] := by
  have hpieces := pieces_append h (rfl : pieces sep [] = [[]])
  rwa [List.append_nil] at hpieces

theorem Record.Severable.blockLines {r : Record} (h : r.Severable) :
    r.blockLines = fieldLine "event" r.event.toList ::
      (r.data.map fun d => fieldLine "data" d.toList).toList := by
  rw [Record.blockLines]
  cases hd : r.data with
  | none => rfl
  | some d =>
      dsimp only
      rw [pieces_of_not_mem (h.data d hd).1]
      rfl

/-- The name alone, or a beginning of it. -/
theorem begins_of_named {r part : Record} {name : List Char} (hname : name <+: r.event.toList)
    (h : Record.ofFieldLines? [⟨"event".toList, name⟩] = some part) : part.Begins r := by
  rw [show [FieldLine.mk "event".toList name] =
    ⟨"event".toList, name⟩ :: [].map (FieldLine.mk "data".toList) from rfl,
    ofFieldLines?_named] at h
  obtain rfl := Option.some.inj h
  exact .name (by rwa [String.toList_ofList])

/-- What the first line of a block says when the block was cut off within it or behind it. -/
theorem torn_fieldLine {field : String} (hf : IsFieldName field) {value : List Char}
    {ls ls' : List (List Char)} (h : Torn (fieldLine field value :: ls) ls') :
    ls'.filterMap FieldLine.ofLine? = [] ∨
      (∃ name, name <+: field.toList ∧ ls'.filterMap FieldLine.ofLine? = [⟨name, []⟩]) ∨
      (∃ v, v <+: value ∧ ls'.filterMap FieldLine.ofLine? = [⟨field.toList, v⟩]) ∨
      ∃ ls'', Torn ls ls'' ∧ ls'.filterMap FieldLine.ofLine? =
        ⟨field.toList, value⟩ :: ls''.filterMap FieldLine.ofLine? := by
  cases h with
  | nothing => exact Or.inl rfl
  | @part _ l' _ hl =>
      have hone : ∀ {x}, FieldLine.ofLine? l' = x →
          [l'].filterMap FieldLine.ofLine? = x.toList := by
        rintro x rfl
        cases hx : FieldLine.ofLine? l' <;> simp [hx]
      rcases ofLine?_prefix hf hl with hnone | ⟨name, hname, hsome⟩ | ⟨v, hv, hsome⟩
      · exact Or.inl (hone hnone)
      · exact Or.inr (Or.inl ⟨name, hname, hone hsome⟩)
      · exact Or.inr (Or.inr (Or.inl ⟨v, hv, hone hsome⟩))
  | @line _ _ ls'' hls =>
      refine Or.inr (Or.inr (Or.inr ⟨ls'', hls, ?_⟩))
      rw [List.filterMap_cons, ofLine?_fieldLine hf]

/-- A line that has neither a name nor data says nothing, whole or not. -/
theorem ofFieldLines?_other {name value : List Char} (hevent : name ≠ "event".toList)
    (hdata : name ≠ "data".toList) : Record.ofFieldLines? [⟨name, value⟩] = none :=
  ofFieldLines?_cons_other hevent hdata []

theorem ne_of_prefix_of_head {name field other : List Char} (h : name <+: field)
    (hhead : field.head? ≠ other.head?) (hother : other ≠ []) : name ≠ other := by
  rintro rfl
  obtain ⟨c, cs, rfl⟩ := List.exists_cons_of_ne_nil hother
  obtain ⟨t, rfl⟩ := h
  exact hhead rfl

/-- What the data's line adds when it was cut off. -/
theorem begins_of_torn_data {event d : String} {ls : List (List Char)} {part : Record}
    (hls : Torn [fieldLine "data" d.toList] ls)
    (h : Record.ofFieldLines?
      (⟨"event".toList, event.toList⟩ :: ls.filterMap FieldLine.ofLine?) = some part) :
    part.Begins (Record.readBack ⟨event, some d⟩) := by
  have hnamed : Record.ofFieldLines? [⟨"event".toList, event.toList⟩] = some part →
      part.Begins (Record.readBack ⟨event, some d⟩) := begins_of_named List.prefix_rfl
  have hvalue : ∀ v, v <+: d.toList →
      Record.ofFieldLines? [⟨"event".toList, event.toList⟩, ⟨"data".toList, v⟩] = some part →
      part.Begins (Record.readBack ⟨event, some d⟩) := by
    intro v hv h
    have hread := ofFieldLines?_named event.toList [v]
    rw [List.map_singleton, h] at hread
    obtain rfl := Option.some.inj hread
    rw [String.ofList_toList]
    cases v with
    | nil => exact .name List.prefix_rfl
    | cons c v =>
        have hd : d ≠ "" := by
          rintro rfl
          cases List.prefix_nil.mp hv
        have hback : Record.readBack ⟨event, some d⟩ = ⟨event, some d⟩ := by
          simp [Record.readBack, hd]
        rw [hback]
        exact .data (by rw [String.toList_ofList]; exact hv)
  rcases torn_fieldLine isFieldName_data hls with
    hnil | ⟨name, hname, heq⟩ | ⟨v, hv, heq⟩ | ⟨ls', hls', heq⟩
  · rw [hnil] at h
    exact hnamed h
  · rw [heq] at h
    by_cases hdata : name = "data".toList
    · rw [hdata] at h
      exact hvalue [] List.nil_prefix h
    · have hevent : name ≠ "event".toList := ne_of_prefix_of_head hname (by decide) (by decide)
      rw [ofFieldLines?_cons_cons_other hevent hdata] at h
      exact hnamed h
  · rw [heq] at h
    exact hvalue v hv h
  · cases hls'
    rw [heq] at h
    exact hvalue _ List.prefix_rfl h

theorem begins_of_torn_block {r part : Record} (hr : r.Severable) {ls : List (List Char)}
    (hls : Torn r.blockLines ls)
    (h : Record.ofFieldLines? (ls.filterMap FieldLine.ofLine?) = some part) :
    part.Begins r.readBack := by
  rw [hr.blockLines] at hls
  rcases torn_fieldLine isFieldName_event hls with
    hnil | ⟨name, hname, heq⟩ | ⟨v, hv, heq⟩ | ⟨ls', hls', heq⟩
  · rw [hnil] at h
    cases h
  · rw [heq] at h
    by_cases hevent : name = "event".toList
    · rw [hevent] at h
      exact begins_of_named List.nil_prefix h
    · have hdata : name ≠ "data".toList := ne_of_prefix_of_head hname (by decide) (by decide)
      rw [ofFieldLines?_other hevent hdata] at h
      cases h
  · rw [heq] at h
    exact begins_of_named hv h
  · rw [heq] at h
    obtain ⟨event, data⟩ := r
    cases data with
    | none =>
        cases hls'
        exact begins_of_named List.prefix_rfl h
    | some d => exact begins_of_torn_data hls' h

theorem begins_of_torn {r part : Record} (hr : r.Severable) {i : Nat} {ls : List (List Char)}
    (hls : Torn (r.numberedLines i) ls)
    (h : Record.ofFieldLines? (ls.filterMap FieldLine.ofLine?) = some part) :
    part.Begins r.readBack := by
  have hother : ∀ name, name <+: "id".toList → name ≠ "event".toList ∧ name ≠ "data".toList :=
    fun name hname => ⟨ne_of_prefix_of_head hname (by decide) (by decide),
      ne_of_prefix_of_head hname (by decide) (by decide)⟩
  rcases torn_fieldLine isFieldName_id hls with
    hnil | ⟨name, hname, heq⟩ | ⟨v, hv, heq⟩ | ⟨ls', hls', heq⟩
  · rw [hnil] at h
    cases h
  · rw [heq, ofFieldLines?_other (hother name hname).1 (hother name hname).2] at h
    cases h
  · rw [heq, ofFieldLines?_other (hother _ List.prefix_rfl).1 (hother _ List.prefix_rfl).2] at h
    cases h
  · rw [heq] at h
    have hskip := ofFieldLines?_cons_other (l := ⟨"id".toList, (numeral i).toList⟩)
      (hother _ List.prefix_rfl).1 (hother _ List.prefix_rfl).2
      (ls'.filterMap FieldLine.ofLine?)
    exact begins_of_torn_block hr hls' (hskip.symm.trans h)

theorem takeBlock?_cut {p bs : List UInt8} (hp : p <+: bs) (h : takeBlock? bs = none) :
    takeBlock? p = none := by
  obtain ⟨more, rfl⟩ := hp
  cases hblock : takeBlock? p with
  | none => rfl
  | some found => rw [takeBlock?_append hblock] at h; cases h

/-- A beginning of a block's bytes ends no block, and is read as a fault or a beginning of the
record, if as anything. -/
theorem read_of_cut {r : Record} (hr : r.Severable) {i : Nat} {p t : List UInt8}
    (hp : p ++ t = Utf8.encode (r.writeNumbered i)) (ht : t ≠ []) :
    takeBlock? p = none ∧ ∀ item, lastItem? p = some item →
      (∃ f, item = .error f) ∨ ∃ part, item = .ok part ∧ part.Begins r.readBack := by
  have hlines := singleLine_numberedLines i hr.writable
  have hpre : p <+: Utf8.encode (unlines (r.numberedLines i)) := by
    rw [writeNumbered_eq, Utf8.encode_append] at hp
    rcases prefix_append_cases ⟨t, hp⟩ with ⟨t', -, ht'⟩ | ⟨q, rfl, hq⟩
    · exact ⟨t', ht'⟩
    · have hfeed : q ++ t = [10] := by
        rw [List.append_assoc] at hp
        exact List.append_cancel_left hp
      cases q with
      | nil => simp
      | cons b q => exact absurd (List.append_eq_nil_iff.mp (List.cons.inj hfeed).2).2 ht
  refine ⟨takeBlock?_cut hpre (takeBlock?_unlines hlines), fun item hitem => ?_⟩
  unfold lastItem? at hitem
  split at hitem
  · cases hitem
  · unfold itemOfBlock? at hitem
    split at hitem
    · next cs hdecode =>
      obtain ⟨part, hpart, rfl⟩ := Option.map_eq_some_iff.mp hitem
      obtain ⟨hcs, -⟩ := Utf8.prefix_of_decode hpre hdecode
      have htorn := torn_lines (fun l hl => (hlines l hl).2) hcs
      exact Or.inr ⟨part, rfl, begins_of_torn hr htorn hpart⟩
    · exact Or.inl ⟨_, (Option.some.inj hitem).symm⟩

/-- The items of a beginning of a body, whatever ends it. -/
theorem cutOff_of_prefix {rs : List Record} (h : ∀ r ∈ rs, r.Severable) {i : Nat} {p : List UInt8}
    (hp : p <+: Utf8.encode (writeBodyFrom i rs)) :
    CutOff (rs.map Record.readBack) (endedItems p ++ (lastItem? (cutBlocks p).2).toList) ∧
      ∀ f late, CutOff (rs.map Record.readBack) (endedItems p ++ .error f :: late) := by
  induction rs generalizing i p with
  | nil =>
      obtain rfl := List.prefix_nil.mp hp
      exact ⟨.dry [], .fault []⟩
  | cons r rs ih =>
      obtain ⟨hr, hrs⟩ := List.forall_mem_cons.mp h
      rw [writeBodyFrom, Utf8.encode_append] at hp
      -- The cut lies within the first block, or that block is whole and the cut is behind it.
      rcases prefix_append_cases hp with ⟨t, ht, hpt⟩ | ⟨q, rfl, hq⟩
      · obtain ⟨hnone, hlast⟩ := read_of_cut hr hpt ht
        have hended : endedItems p = [] := by rw [endedItems, cutBlocks_of_none hnone]; rfl
        rw [hended, cutBlocks_of_none hnone]
        refine ⟨?_, fun f late => .fault _ f late⟩
        cases hitem : lastItem? p with
        | none => exact .dry _
        | some item =>
            rcases hlast item hitem with ⟨f, rfl⟩ | ⟨part, rfl, hbegins⟩
            · exact .fault _ f []
            · exact .torn hbegins
      · obtain ⟨hdry, hfault⟩ := ih hrs hq
        have hblock := blockText_writeNumbered i hr.writable
        rw [hblock.endedItems_append, hblock.left_append]
        exact ⟨.record hdry, fun f late => .record (hfault f late)⟩

theorem dropReturns_of_prefix {p bs : List UInt8} (hp : p <+: bs) (h : dropReturns bs = bs) :
    dropReturns p = p :=
  List.filter_eq_self.mpr fun b hb => List.filter_eq_self.mp h b (hp.subset hb)

/-- What chunks give that bring a beginning of a body and then end or fail. -/
theorem cutOff_of_chunks {rs : List Record} (h : ∀ r ∈ rs, r.Severable)
    {delivered closing : List Chunk} (hcut : bytesOf delivered <+: Utf8.encode (writeBody rs))
    (hsound : reasonsOf delivered = [])
    (hclosing : closing = [] ∨ ∃ reason after, closing = .failure reason :: after) :
    CutOff (rs.map Record.readBack) (itemsOfChunks (delivered ++ closing)) := by
  rw [writeBody_eq] at hcut
  have hplain : dropReturns (bytesOf delivered) = bytesOf delivered :=
    dropReturns_of_prefix hcut
      (dropReturns_encode (return_not_mem_writeBodyFrom (fun r hr => (h r hr).writable) 0))
  obtain ⟨hdry, hfault⟩ := cutOff_of_prefix h hcut
  rcases hclosing with rfl | ⟨reason, after, rfl⟩
  · rw [List.append_nil, itemsOfChunks_undisturbed hsound, readWhole, hplain]
    exact hdry
  · obtain ⟨late, hlate⟩ := itemsOfChunks_interrupted hsound reason after
    rw [hlate, hplain]
    exact hfault _ late

/-- A feed whose bytes end or fail early gives the outcome of the whole feed or none, however its
bytes are delivered and however long its items take. -/
theorem cut_off_feed_never_other {records : List Record} (hrecords : ∀ r ∈ records, r.Severable)
    {input delivered closing : List Chunk}
    (hbody : bytesOf input = Utf8.encode (writeBody records)) (hsound : reasonsOf input = [])
    (hcut : bytesOf delivered <+: Utf8.encode (writeBody records))
    (hdelivered : reasonsOf delivered = [])
    (hclosing : closing = [] ∨ ∃ reason after, closing = .failure reason :: after)
    {whole part : Arrivals} (hwhole : whole.items.map Arrival.item = itemsOfChunks input)
    (hpart : part.items.map Arrival.item = itemsOfChunks (delivered ++ closing))
    {build : String} {timeout : Span} {o : Outcome} (hok : consume build timeout whole = .ok o) :
    consume build timeout part = .ok o ∨ ∃ f, consume build timeout part = .error f := by
  have hitems : whole.items.map Arrival.item = (records.map Record.readBack).map .ok := by
    rw [hwhole, itemsOfChunks_undisturbed hsound, hbody,
      readWhole_writeBody fun r hr => (hrecords r hr).writable, List.map_map]
    rfl
  refine consumeFrom_cutOff (cutOff_of_chunks hrecords hcut hdelivered hclosing) ?_ rfl hitems
    hpart hok
  intro r hr
  obtain ⟨written, hwritten, rfl⟩ := List.mem_map.mp hr
  exact (hrecords written hwritten).endEvent

/-- A feed that fails after twenty of its bytes, within the name of its second record. -/
theorem cut_off_ping_feed :
    let records : List Record := [⟨"ping", none⟩, endRecord]
    let body := Utf8.encode (writeBody records)
    let cut : List Chunk := [.bytes (body.take 20), .pending]
    let part := Arrivals.ofChunks (cut ++ [.failure "reset"])
    let minute : Span := .ofSeconds 60
    consume "7" minute (Arrivals.ofChunks [.bytes body]) = .ok ⟨"unknown", "", .endEvent⟩ ∧
      (consume "7" minute part = .ok ⟨"unknown", "", .endEvent⟩ ∨
        ∃ f, consume "7" minute part = .error f) := by
  intro records body cut part minute
  have hrecords : ∀ r ∈ records, r.Severable := by
    have hping : Record.Severable ⟨"ping", none⟩ := ⟨by decide, nofun, by decide⟩
    have hend : Record.Severable endRecord := ⟨by decide, nofun, fun _ => rfl⟩
    exact List.forall_mem_cons.mpr ⟨hping, List.forall_mem_singleton.mpr hend⟩
  have hwhole : consume "7" minute (Arrivals.ofChunks [.bytes body]) =
      .ok ⟨"unknown", "", .endEvent⟩ := by
    have hitems : itemsOfChunks [.bytes body] = records.map fun r => .ok r.readBack := by
      rw [itemsOfChunks_undisturbed rfl, bytesOf, bytesOf, List.append_nil,
        readWhole_writeBody fun r hr => (hrecords r hr).writable]
    rw [Arrivals.ofChunks, hitems]
    rfl
  have hbody : bytesOf [.bytes body] = body := List.append_nil _
  have hcut : bytesOf cut <+: body := by
    rw [show bytesOf cut = body.take 20 from List.append_nil _]
    exact List.take_prefix 20 body
  exact ⟨hwhole, cut_off_feed_never_other hrecords hbody rfl hcut rfl
    (Or.inr ⟨"reset", [], rfl⟩) (items_ofChunks _) (items_ofChunks _) hwhole⟩

end JobHealth.Feed
