import JobHealth.Feed.Envelope
import JobHealth.Proofs.Json.Forms
/-!
# `JobHealth.Proofs.Feed.Envelope` — what an event's text holds

An event is a JSON record, with its kind under one name and data of its own
under another.  Both are told here by the text alone, and by the members of the
data, without asking how they are read.

| part          | what it is                                                   |
| :------------ | :----------------------------------------------------------- |
| the kind      | a string, under `event`, once                                |
| the data      | any value, under `data`, at most once; `null` if it is absent |
| other members | any values, which may nest without bound                     |
| their text    | in the data: the last member of its name, or the only item   |
-/

namespace JobHealth.Feed

/-- The data hold a text and no other one counts: it is the last member of that name, or the only
item of a list. -/
inductive HoldsText (field s : String) : Json.Value → Prop
  | member {before after : List (String × Json.Value)} : (∀ m ∈ after, m.1 ≠ field) →
      HoldsText field s (.record (before ++ (field, .text s) :: after))
  | item : HoldsText field s (.list [.text s])

theorem lookupLast_eq_some_iff {α : Type} {name : String} {members : List (String × α)} {v : α} :
    Json.lookupLast name members = some v ↔ ∃ before after,
      members = before ++ (name, v) :: after ∧ ∀ m ∈ after, m.1 ≠ name := by
  rw [Json.lookupLast, List.lookup_eq_some_iff]
  constructor
  · rintro ⟨after, before, hmembers, hafter⟩
    refine ⟨before.reverse, after.reverse, ?_, fun m hm => ?_⟩
    · rw [← List.reverse_reverse members, hmembers]
      simp
    · have hne := hafter m (List.mem_reverse.mp hm)
      exact fun h => by simp [h] at hne
  · rintro ⟨before, after, rfl, hafter⟩
    refine ⟨after.reverse, before.reverse, by simp, fun m hm => ?_⟩
    exact bne_iff_ne.mpr (hafter m (List.mem_reverse.mp hm)).symm

theorem soleText_eq_ok_iff {shape field s : String} {v : Json.Value} :
    soleText shape field v = .ok s ↔ HoldsText field s v := by
  constructor
  · intro h
    unfold soleText at h
    split at h
    · next members =>
      split at h
      · next s' hlast =>
        obtain rfl := Except.ok.inj h
        obtain ⟨before, after, rfl, hafter⟩ := lookupLast_eq_some_iff.mp hlast
        exact .member hafter
      · cases h
      · cases h
    · cases h
    · obtain rfl := Except.ok.inj h
      exact .item
    · cases h
    · cases h
    · cases h
  · intro h
    cases h with
    | @member before after hafter =>
        have hlast : Json.lookupLast field (before ++ (field, .text s) :: after) = some (.text s) :=
          lookupLast_eq_some_iff.mpr ⟨before, after, rfl, hafter⟩
        rw [soleText, hlast]
    | item => rfl

namespace Envelope

theorem status_eq_ok_iff {e : Envelope} {word : String} :
    e.status = .ok word ↔ HoldsText "status" word e.data := by
  rw [← @soleText_eq_ok_iff "StatusData", status]
  cases soleText "StatusData" "status" e.data <;> simp [Except.mapError]

theorem payload_eq_ok_iff {e : Envelope} {payload : String} :
    e.payload = .ok payload ↔ HoldsText "payload" payload e.data := by
  rw [← @soleText_eq_ok_iff "LogData", Envelope.payload]
  cases soleText "LogData" "payload" e.data <;> simp [Except.mapError]

end Envelope

/-! ## The text of an event -/

open Json (Members ObjectText valuesOf spelled exact Texts ValueText ItemsText BodyText MemberText
  RawText RecordMember RecordText Fields FieldText Gap)

/-- What the values for an event's own data say: there may be one, or none. -/
inductive OwnData : List (List Char) → Json.Value → Prop
  | absent : OwnData [] .null
  | present {d : List Char} {data : Json.Value} : ValueText exact dataDepth data d →
      OwnData [d] data

theorem OwnData.length_le {ds : List (List Char)} {data : Json.Value} (h : OwnData ds data) :
    ds.length ≤ 1 := by
  cases h with
  | absent => exact Nat.zero_le 1
  | present _ => exact Nat.le_refl 1

/-- The texts of lists, with gaps around them. -/
def ListText : Texts (List (List Char)) := fun ts text =>
  ∃ g t g', Gap g ∧ BodyText RawText ts t ∧ Gap g' ∧ text = g ++ ('[' :: t ++ [']']) ++ g'

/-- The text of an event of that kind with these data of its own: a record with members of these
names, or a list of the two. -/
inductive EventText (kind : String) (data : Json.Value) (text : List Char) : Prop
  | record {ms : Members} {k : List Char} : ObjectText ms text → spelled kind k →
      valuesOf "event" ms = ['"' :: k ++ ['"']] → OwnData (valuesOf "data" ms) data →
      EventText kind data text
  | list {ds : List (List Char)} {k : List Char} : ListText (('"' :: k ++ ['"']) :: ds) text →
      spelled kind k → OwnData ds data → EventText kind data text

/-! ### Members with known fields among them -/

section
variable (known : Fields)

/-- The known field that stands under the name of a member, if there is one. -/
def fieldUnder? (m : String × List Char) : Option (String × Json.Field) :=
  (known.lookup m.1).map fun v => (m.1, v)

theorem lookup_fieldsUnder (ms : Members) (name : String) :
    (ms.filterMap (fieldUnder? known)).lookup name =
      (valuesOf name ms).head?.bind fun _ => known.lookup name := by
  induction ms with
  | nil => rfl
  | cons m ms ih =>
      obtain ⟨name', raw⟩ := m
      by_cases hname : name' = name
      · subst hname
        cases hknown : known.lookup name' with
        | none =>
            rw [hknown] at ih
            simpa [fieldUnder?, hknown] using ih
        | some v => simp [fieldUnder?, hknown]
      · have hbeq : (name == name') = false := beq_eq_false_iff_ne.mpr (Ne.symm hname)
        rw [Json.valuesOf_cons_of_ne hname, ← ih]
        cases hknown : known.lookup name' with
        | none => simp [fieldUnder?, hknown]
        | some v => simp [fieldUnder?, hknown, List.lookup_cons, hbeq]

theorem names_fieldsUnder (ms : Members) :
    (ms.filterMap (fieldUnder? known)).map Prod.fst =
      (ms.map Prod.fst).filter fun name => (known.lookup name).isSome := by
  induction ms with
  | nil => rfl
  | cons m ms ih =>
      cases hknown : known.lookup m.1 with
      | none => simp [fieldUnder?, hknown, ih]
      | some v => simp [fieldUnder?, hknown, ih]

theorem count_name (name : String) (ms : Members) :
    (ms.map Prod.fst).count name = (valuesOf name ms).length := by
  rw [valuesOf, List.length_map, ← List.countP_eq_length_filter, List.count, List.countP_map]
  rfl

variable {known} in
/-- Known names that do not repeat among the members do not repeat among the fields. -/
theorem nodup_fieldsUnder {ms : Members}
    (h : ∀ name, (known.lookup name).isSome → (valuesOf name ms).length ≤ 1) :
    ((ms.filterMap (fieldUnder? known)).map Prod.fst).Nodup := by
  rw [names_fieldsUnder, List.nodup_iff_count_le_one]
  intro name
  by_cases hname : (known.lookup name).isSome
  · exact Nat.le_trans (List.Sublist.count_le name List.filter_sublist)
      (count_name name ms ▸ h name hname)
  · have hmem : name ∉ (ms.map Prod.fst).filter fun name => (known.lookup name).isSome :=
      fun hmem => hname (List.mem_filter.mp hmem).2
    rw [List.count_eq_zero_of_not_mem hmem]
    exact Nat.zero_le 1

end

/-- The fields of an event. -/
def eventFields (kind : String) (data : Json.Value) : Fields :=
  [("event", .text kind), ("data", .free data)]

section
variable {kind : String} {data : Json.Value} {ms : Members} {k : List Char}

theorem recordMember_fieldUnder? (hkind : spelled kind k)
    (hevent : valuesOf "event" ms = ['"' :: k ++ ['"']]) (hdata : OwnData (valuesOf "data" ms) data)
    {m : String × List Char} (hm : m ∈ ms) {t : List Char} (ht : MemberText spelled RawText m t) :
    RecordMember envelopeShape (fieldUnder? (eventFields kind data) m) t := by
  cases ht with
  | @mk name raw n g g' t hn hg hg' hraw =>
      obtain ⟨rfl, depth, v, hv⟩ := hraw
      have hunder : t ∈ valuesOf name ms :=
        List.mem_map.mpr ⟨(name, t), List.mem_filter.mpr ⟨hm, beq_self_eq_true name⟩, rfl⟩
      by_cases hname : name = "event"
      · subst hname
        rw [hevent] at hunder
        obtain rfl := List.mem_singleton.mp hunder
        exact .known (m := ("event", .text kind)) rfl (.mk hn hg hg' (.text hkind))
      · by_cases hname' : name = "data"
        · subst hname'
          generalize valuesOf "data" ms = ds at hunder hdata
          cases hdata with
          | absent => cases hunder
          | present hd =>
              obtain rfl := List.mem_singleton.mp hunder
              exact .known (m := ("data", .free data)) rfl (.mk hn hg hg' (.free hd))
        · have hnone : fieldUnder? (eventFields kind data) (name, t) = none := by
            simp [fieldUnder?, eventFields, List.lookup_cons, beq_eq_false_iff_ne.mpr hname,
              beq_eq_false_iff_ne.mpr hname']
          have hother : envelopeShape.field? name = none := by
            simp [Json.Shape.field?, envelopeShape, Ne.symm hname, Ne.symm hname']
          rw [hnone]
          exact .other (m := (name, v)) hother (.mk hn hg hg' hv)

/-- An event's members are those of a record of its shape. -/
theorem recordText_of_members {t : List Char} (hms : BodyText (MemberText spelled RawText) ms t)
    (hkind : spelled kind k) (hevent : valuesOf "event" ms = ['"' :: k ++ ['"']])
    (hdata : OwnData (valuesOf "data" ms) data) :
    RecordText envelopeShape (ms.filterMap (fieldUnder? (eventFields kind data)))
      ('\x7b' :: t ++ ['\x7d']) := by
  have hfields : ms.filterMap (fieldUnder? (eventFields kind data)) =
      (ms.map (fieldUnder? (eventFields kind data))).filterMap id := by
    rw [List.filterMap_map]
    rfl
  have hnodup : ((ms.filterMap (fieldUnder? (eventFields kind data))).map Prod.fst).Nodup := by
    refine nodup_fieldsUnder fun name hname => ?_
    by_cases hname' : name = "event"
    · rw [hname', hevent]
      exact Nat.le_refl 1
    · by_cases hname'' : name = "data"
      · rw [hname'']
        exact hdata.length_le
      · simp [eventFields, List.lookup_cons, beq_eq_false_iff_ne.mpr hname',
          beq_eq_false_iff_ne.mpr hname''] at hname
  rw [hfields] at hnodup ⊢
  have hbody := Json.bodyText_map hms fun m hm t ht =>
    recordMember_fieldUnder? hkind hevent hdata hm ht
  exact .mk hbody hnodup

end

theorem complete_envelope {kind : String} {data : Json.Value} {seen : Fields}
    (hkind : seen.lookup "event" = some (.text kind))
    (hdata : seen.lookup "data" = some (.free data) ∨ seen.lookup "data" = none ∧ data = .null) :
    Json.complete seen envelopeShape.fields = .ok (eventFields kind data) := by
  rcases hdata with hdata | ⟨hdata, rfl⟩
  · simp only [envelopeShape, Json.complete, hkind, hdata]
    rfl
  · simp only [envelopeShape, Json.complete, hkind, hdata]
    rfl

/-- What a completed record of an event says stood under its two names. -/
theorem values_of_complete {ms : Members} {seen vs : Fields}
    (hall : Json.TakesAll envelopeShape [] ms seen)
    (h : Json.complete seen envelopeShape.fields = .ok vs) : ∃ kind data k,
      valuesOf "event" ms = ['"' :: k ++ ['"']] ∧ spelled kind k ∧
        OwnData (valuesOf "data" ms) data ∧ vs = eventFields kind data := by
  have hevent := Json.lookup_of_takesAll hall (rfl : envelopeShape.field? "event" = some _)
  have hdata := Json.lookup_of_takesAll hall (rfl : envelopeShape.field? "data" = some _)
  rcases hevent with ⟨hnone, -⟩ | ⟨-, t, v, hvalues, hlookup, ht⟩
  · simp only [envelopeShape, Json.complete, hnone, List.lookup_nil] at h
    cases h
  · cases ht with
    | @text kind k hk =>
        rcases hdata with ⟨hnone, hempty⟩ | ⟨-, d, v, hvalues', hlookup', hd⟩
        · rw [complete_envelope hlookup (.inr ⟨hnone, rfl⟩)] at h
          exact ⟨kind, .null, k, hvalues, hk, hempty ▸ .absent, (Except.ok.inj h).symm⟩
        · cases hd with
          | @free _ data _ hd =>
              rw [complete_envelope hlookup (.inl hlookup')] at h
              exact ⟨kind, data, k, hvalues, hk, hvalues' ▸ .present hd, (Except.ok.inj h).symm⟩

/-- The items of a list of an event's fields. -/
theorem fills_envelope_iff {ts : List (List Char)} {vs : Fields} :
    Json.Fills envelopeShape.fields ts vs ↔ ∃ kind data k ds, ts = ('"' :: k ++ ['"']) :: ds ∧
      spelled kind k ∧ OwnData ds data ∧ vs = eventFields kind data := by
  constructor
  · intro h
    cases h with
    | rest h => cases h
    | slot hkind h =>
        cases hkind with
        | @text kind k hk =>
            cases h with
            | rest h =>
                cases h
                exact ⟨kind, .null, k, [], rfl, hk, .absent, rfl⟩
            | slot hdata h =>
                cases hdata with
                | @free _ data _ hd =>
                    cases h with
                    | rest h =>
                        cases h
                        exact ⟨kind, data, k, [_], rfl, hk, .present hd, rfl⟩
  · rintro ⟨kind, data, k, ds, rfl, hk, hdata, rfl⟩
    refine .slot (.text hk) ?_
    cases hdata with
    | absent => exact .rest rfl
    | present hd => exact .slot (.free hd) (.rest rfl)

/-- The two forms of an event's text, as they are read. -/
theorem readRecord_eventText {kind : String} {data : Json.Value} {text : List Char}
    (h : EventText kind data text) : ∃ rest, Gap rest ∧
      Json.readRecord envelopeShape text = .ok (eventFields kind data, rest) := by
  cases h with
  | @record ms k hms hkind hevent hdata =>
      obtain ⟨g, t, g', hg, ht, hg', rfl⟩ := hms
      refine ⟨g', hg', ?_⟩
      refine Json.readRecord_text (recordText_of_members ht hkind hevent hdata)
        (complete_envelope ?_ ?_) hg g'
      · rw [lookup_fieldsUnder, hevent]
        rfl
      · rw [lookup_fieldsUnder]
        generalize valuesOf "data" ms = ds at hdata
        cases hdata with
        | absent => exact .inr ⟨rfl, rfl⟩
        | present _ => exact .inl rfl
  | @list ds k hts hkind hdata =>
      obtain ⟨g, t, g', hg, ht, hg', rfl⟩ := hts
      refine ⟨g', hg', ?_⟩
      have hfills := fills_envelope_iff.mpr ⟨kind, data, k, ds, rfl, hkind, hdata, rfl⟩
      have happ : g ++ ('[' :: t ++ [']']) ++ g' = g ++ '[' :: (t ++ ']' :: g') := by simp
      rw [happ, Json.readRecord, Json.skipGap_token hg (by decide)]
      cases ht with
      | items hg'' hts => exact Json.readSlots_items hts hfills 0 Json.gap_nil hg'' g'

/-- A record's reading is that of an event's text, with what is left behind it. -/
theorem eventText_of_readRecord {text rest : List Char} {fields : Fields} (hrest : Gap rest)
    (h : Json.readRecord envelopeShape text = .ok (fields, rest)) :
    ∃ kind data, EventText kind data text ∧ fields = eventFields kind data := by
  unfold Json.readRecord at h
  split at h
  · next r hgap =>
    obtain ⟨g, hg, rfl⟩ := Json.eq_of_skipGap hgap
    obtain ⟨⟨seen, r'⟩, hread, h⟩ := Json.bind_eq_ok.mp h
    obtain ⟨vs, hvs, h⟩ := Json.bind_eq_ok.mp h
    cases h
    obtain ⟨ms, t, ht, hall, rfl⟩ := Json.body_of_readFields hread
    obtain ⟨kind, data, k, hevent, hk, hdata, rfl⟩ := values_of_complete hall hvs
    exact ⟨kind, data, .record ⟨g, t, rest, hg, ht, hrest, by simp⟩ hk hevent hdata, rfl⟩
  · next r hgap =>
    obtain ⟨g, hg, rfl⟩ := Json.eq_of_skipGap hgap
    obtain ⟨ts, t, ht, hfills, rfl⟩ := Json.body_of_readSlots h
    obtain ⟨kind, data, k, ds, rfl, hk, hdata, rfl⟩ := fills_envelope_iff.mp hfills
    exact ⟨kind, data, .list ⟨g, t, rest, hg, ht, hrest, by simp⟩ hk hdata, rfl⟩
  · cases h

theorem gap_of_isEmpty {rest : List Char} (h : (Json.skipGap rest).isEmpty = true) : Gap rest := by
  obtain ⟨g, hg, hrest⟩ := Json.exists_gap rest
  rw [List.isEmpty_iff.mp h, List.append_nil] at hrest
  exact hrest ▸ hg

/-- A text is read as an event exactly if it is that event's text. -/
theorem Envelope.read_eq_ok_iff {text : String} {e : Envelope} :
    Envelope.read text = .ok e ↔ EventText e.event e.data text.toList := by
  constructor
  · intro h
    unfold Envelope.read at h
    split at h
    · cases h
    · next fields hall =>
      cases h
      obtain ⟨⟨fields', rest⟩, hread, hall⟩ := Json.bind_eq_ok.mp hall
      dsimp only at hall
      split at hall
      · next hempty =>
        cases hall
        obtain ⟨kind, data, htext, rfl⟩ := eventText_of_readRecord (gap_of_isEmpty hempty) hread
        exact htext
      · cases hall
  · intro h
    obtain ⟨rest, hrest, hread⟩ := readRecord_eventText h
    have hall : Json.readAll (Json.readRecord envelopeShape) text =
        .ok (eventFields e.event e.data) :=
      Json.bind_eq_ok.mpr ⟨_, hread, if_pos (Json.isEmpty_skipGap hrest)⟩
    rw [Envelope.read, hall]
    rfl

end JobHealth.Feed
