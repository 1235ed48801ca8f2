import JobHealth.Proofs.Feed.Framing
import JobHealth.Proofs.Text.Lines
/-!
# `JobHealth.Proofs.Feed.Body` — the blocks of a written feed

A block is written as lines, each a field with its value, and an empty line.
None of the lines is empty, so the first two line feeds in a row are the end of
the block and no byte of it is cut away.  Read back, the block is the record,
only that empty data count as none.
-/

namespace JobHealth.Feed

open JobHealth.Text

/-! ## One line -/

/-- A field and its value, as a line. -/
def fieldLine (field : String) (value : List Char) : List Char :=
  field.toList ++ ':' :: ' ' :: value

theorem writeFieldLine_eq (field : String) (value : List Char) :
    writeFieldLine field value = fieldLine field value ++ ['\n'] := by
  simp [writeFieldLine, fieldLine]

theorem fieldLine_ne_nil (field : String) (value : List Char) : fieldLine field value ≠ [] :=
  List.append_ne_nil_of_right_ne_nil _ nofun

theorem singleLine_fieldLine {field : String} {value : List Char} (hf : SingleLine field.toList)
    (hv : SingleLine value) : SingleLine (fieldLine field value) :=
  hf.append (SingleLine.append (l := [':', ' ']) (by decide) hv)

/-- A line that is neither empty nor a comment. -/
theorem ofLine?_cons {c : Char} (hc : c ≠ ':') (cs : List Char) :
    FieldLine.ofLine? (c :: cs) =
      some (match cutAt? ':' (c :: cs) with
        | some (field, value) => ⟨field, dropOneSpace value⟩
        | none => ⟨c :: cs, []⟩) := by
  rw [FieldLine.ofLine?.eq_3 (c :: cs) nofun fun cs' e => hc (List.cons.inj e).1]
  cases cutAt? ':' (c :: cs) <;> rfl

/-- Without a colon, a line is a field without a value. -/
theorem ofLine?_of_not_mem {line : List Char} (h : ':' ∉ line) :
    FieldLine.ofLine? line = if line = [] then none else some ⟨line, []⟩ := by
  cases line with
  | nil => rfl
  | cons c cs =>
      have hc : c ≠ ':' := fun e => h (e ▸ List.mem_cons_self)
      rw [ofLine?_cons hc, cutAt?_eq_none_iff.mpr h, if_neg nofun]

theorem ofLine?_colon {field : List Char} (hne : field ≠ []) (h : ':' ∉ field)
    (value : List Char) :
    FieldLine.ofLine? (field ++ ':' :: value) = some ⟨field, dropOneSpace value⟩ := by
  have hcut := cutAt?_append h value
  cases field with
  | nil => exact absurd rfl hne
  | cons c cs =>
      have hc : c ≠ ':' := fun e => h (e ▸ List.mem_cons_self)
      rw [List.cons_append] at hcut ⊢
      rw [ofLine?_cons hc, hcut]

/-- What a line of a block can have before its colon. -/
structure IsFieldName (field : String) : Prop where
  ne_nil : field.toList ≠ []
  colon_not_mem : ':' ∉ field.toList
  singleLine : SingleLine field.toList

theorem ofLine?_fieldLine {field : String} (hf : IsFieldName field) (value : List Char) :
    FieldLine.ofLine? (fieldLine field value) = some ⟨field.toList, value⟩ :=
  ofLine?_colon hf.ne_nil hf.colon_not_mem (' ' :: value)

/-- A line that was cut off says nothing, or has a beginning of its field or of its value. -/
theorem ofLine?_prefix {field : String} (hf : IsFieldName field) {value line : List Char}
    (h : line <+: fieldLine field value) :
    FieldLine.ofLine? line = none ∨
      (∃ part, part <+: field.toList ∧ FieldLine.ofLine? line = some ⟨part, []⟩) ∨
      ∃ part, part <+: value ∧ FieldLine.ofLine? line = some ⟨field.toList, part⟩ := by
  have hname : line <+: field.toList → FieldLine.ofLine? line = none ∨
      ∃ part, part <+: field.toList ∧ FieldLine.ofLine? line = some ⟨part, []⟩ := by
    intro hline
    rw [ofLine?_of_not_mem fun hmem => hf.colon_not_mem (hline.subset hmem)]
    split
    · exact Or.inl rfl
    · exact Or.inr ⟨line, hline, rfl⟩
  rcases prefix_append_cases h with ⟨t, -, ht⟩ | ⟨q, rfl, hq⟩
  · rcases hname ⟨t, ht⟩ with hnone | hpart
    · exact Or.inl hnone
    · exact Or.inr (Or.inl hpart)
  · cases q with
    | nil =>
        rw [List.append_nil] at hname ⊢
        rcases hname List.prefix_rfl with hnone | hpart
        · exact Or.inl hnone
        · exact Or.inr (Or.inl hpart)
    | cons c q =>
        obtain ⟨rfl, hq'⟩ := List.cons_prefix_cons.mp hq
        refine Or.inr (Or.inr ⟨dropOneSpace q, ?_, ofLine?_colon hf.ne_nil hf.colon_not_mem q⟩)
        cases q with
        | nil => exact List.nil_prefix
        | cons c q =>
            obtain ⟨rfl, hq''⟩ := List.cons_prefix_cons.mp hq'
            exact hq''

theorem isFieldName_id : IsFieldName "id" := ⟨by decide, by decide, by decide⟩

theorem isFieldName_event : IsFieldName "event" := ⟨by decide, by decide, by decide⟩

theorem isFieldName_data : IsFieldName "data" := ⟨by decide, by decide, by decide⟩

/-! ## One block -/

/-- The lines of a record's block, up to the empty one. -/
def Record.blockLines (r : Record) : List (List Char) :=
  fieldLine "event" r.event.toList ::
    match r.data with
    | none => []
    | some d => (pieces '\n' d.toList).map (fieldLine "data")

/-- The lines of a numbered block. -/
def Record.numberedLines (i : Nat) (r : Record) : List (List Char) :=
  fieldLine "id" (numeral i).toList :: r.blockLines

theorem write_eq (r : Record) : r.write = unlines r.blockLines ++ ['\n'] := by
  rw [Record.write, Record.blockLines, unlines, List.flatMap_cons, writeFieldLine_eq]
  cases r.data with
  | none => simp
  | some d =>
      have hline : writeFieldLine "data" = fun value => fieldLine "data" value ++ ['\n'] :=
        funext (writeFieldLine_eq "data")
      simp [List.flatMap_map, hline]

theorem writeNumbered_eq (i : Nat) (r : Record) :
    r.writeNumbered i = unlines (r.numberedLines i) ++ ['\n'] := by
  rw [Record.writeNumbered, write_eq, Record.numberedLines, unlines_cons, writeFieldLine_eq]
  simp

/-- A record that can be written: its name stays within a line, and no return is dropped from its
data. -/
structure Record.Writable (r : Record) : Prop where
  event : SingleLine r.event.toList
  data : ∀ d, r.data = some d → '\r' ∉ d.toList

/-- The record that the block of a record is read back as. -/
def Record.readBack (r : Record) : Record := { r with data := r.data.filter fun d => d != "" }

theorem singleLine_pieces {cs p : List Char} (h : '\r' ∉ cs) (hp : p ∈ pieces '\n' cs) :
    SingleLine p :=
  ⟨fun hmem => (mem_pieces hp hmem).2 rfl, fun hmem => h (mem_pieces hp hmem).1⟩

theorem singleLine_blockLines {r : Record} (h : r.Writable) :
    ∀ l ∈ r.blockLines, l ≠ [] ∧ SingleLine l := by
  rw [Record.blockLines]
  refine List.forall_mem_cons.mpr
    ⟨⟨fieldLine_ne_nil _ _, singleLine_fieldLine isFieldName_event.singleLine h.event⟩, ?_⟩
  intro l hl
  cases hd : r.data with
  | none => rw [hd] at hl; cases hl
  | some d =>
      rw [hd] at hl
      obtain ⟨p, hp, rfl⟩ := List.mem_map.mp hl
      exact ⟨fieldLine_ne_nil _ _, singleLine_fieldLine isFieldName_data.singleLine
        (singleLine_pieces (h.data d hd) hp)⟩

theorem singleLine_numeral (n : Nat) : SingleLine (numeral n).toList := by
  have hdigit : ∀ c ∈ (numeral n).toList, c.isDigit = true := by
    rw [numeral, Nat.toList_repr]
    exact fun c hc => Nat.isDigit_of_mem_toDigits (by decide) (by decide) hc
  exact ⟨fun hmem => absurd (hdigit _ hmem) (by decide),
    fun hmem => absurd (hdigit _ hmem) (by decide)⟩

theorem singleLine_numberedLines (i : Nat) {r : Record} (h : r.Writable) :
    ∀ l ∈ r.numberedLines i, l ≠ [] ∧ SingleLine l :=
  List.forall_mem_cons.mpr
    ⟨⟨fieldLine_ne_nil _ _, singleLine_fieldLine isFieldName_id.singleLine (singleLine_numeral i)⟩,
      singleLine_blockLines h⟩

/-! ### What the lines say -/

theorem fieldValues_cons_same (field : String) (v : List Char) (ls : List FieldLine) :
    fieldValues field (⟨field.toList, v⟩ :: ls) = v :: fieldValues field ls := by
  simp [fieldValues]

theorem fieldValues_cons_other {field : String} {l : FieldLine} (h : l.field ≠ field.toList)
    (ls : List FieldLine) : fieldValues field (l :: ls) = fieldValues field ls := by
  simp [fieldValues, h]

theorem fieldValues_cons_cons_other {field : String} {l : FieldLine} (h : l.field ≠ field.toList)
    (first : FieldLine) (ls : List FieldLine) :
    fieldValues field (first :: l :: ls) = fieldValues field (first :: ls) := by
  simp [fieldValues, List.filter_cons, h]

theorem fieldValues_same (field : String) (values : List (List Char)) :
    fieldValues field (values.map (FieldLine.mk field.toList)) = values := by
  induction values with
  | nil => rfl
  | cons v values ih => rw [List.map_cons, fieldValues_cons_same, ih]

theorem fieldValues_other {field other : String} (h : other.toList ≠ field.toList)
    (values : List (List Char)) :
    fieldValues field (values.map (FieldLine.mk other.toList)) = [] := by
  induction values with
  | nil => rfl
  | cons v values ih => exact (fieldValues_cons_other h _).trans ih

/-- A block says what its names and its data say. -/
theorem ofFieldLines?_congr {ls ls' : List FieldLine}
    (hevent : fieldValues "event" ls = fieldValues "event" ls')
    (hdata : fieldValues "data" ls = fieldValues "data" ls') :
    Record.ofFieldLines? ls = Record.ofFieldLines? ls' := by
  rw [Record.ofFieldLines?, Record.ofFieldLines?, hevent, hdata]

/-- A line of any other field says nothing. -/
theorem ofFieldLines?_cons_other {l : FieldLine} (hevent : l.field ≠ "event".toList)
    (hdata : l.field ≠ "data".toList) (ls : List FieldLine) :
    Record.ofFieldLines? (l :: ls) = Record.ofFieldLines? ls :=
  ofFieldLines?_congr (fieldValues_cons_other hevent ls) (fieldValues_cons_other hdata ls)

theorem ofFieldLines?_cons_cons_other {l : FieldLine} (hevent : l.field ≠ "event".toList)
    (hdata : l.field ≠ "data".toList) (first : FieldLine) (ls : List FieldLine) :
    Record.ofFieldLines? (first :: l :: ls) = Record.ofFieldLines? (first :: ls) :=
  ofFieldLines?_congr (fieldValues_cons_cons_other hevent first ls)
    (fieldValues_cons_cons_other hdata first ls)

/-- A name and values of the data. -/
theorem ofFieldLines?_named (name : List Char) (values : List (List Char)) :
    Record.ofFieldLines?
        (⟨"event".toList, name⟩ :: values.map (FieldLine.mk "data".toList)) =
      some ⟨String.ofList name, if (join '\n' values).isEmpty then none
        else some (String.ofList (join '\n' values))⟩ := by
  have hne : "data".toList ≠ "event".toList := by decide
  have hevent := fieldValues_cons_same "event" name (values.map (FieldLine.mk "data".toList))
  rw [fieldValues_other hne] at hevent
  have hdata := fieldValues_cons_other (l := ⟨"event".toList, name⟩) hne.symm
    (values.map (FieldLine.mk "data".toList))
  rw [fieldValues_same] at hdata
  rw [Record.ofFieldLines?, hevent, hdata]
  rfl

theorem filterMap_fieldLine {field : String} (hf : IsFieldName field) (values : List (List Char)) :
    (values.map (fieldLine field)).filterMap FieldLine.ofLine? =
      values.map (FieldLine.mk field.toList) := by
  induction values with
  | nil => rfl
  | cons v values ih =>
      rw [List.map_cons, List.filterMap_cons, ofLine?_fieldLine hf, ih]
      rfl

/-- The lines of a block say what the record is. -/
theorem ofFieldLines?_blockLines (r : Record) :
    Record.ofFieldLines? (r.blockLines.filterMap FieldLine.ofLine?) = some r.readBack := by
  rw [Record.blockLines, List.filterMap_cons, ofLine?_fieldLine isFieldName_event]
  cases hd : r.data with
  | none =>
      rw [Record.readBack, hd]
      exact (ofFieldLines?_named r.event.toList []).trans (by rw [String.ofList_toList]; rfl)
  | some d =>
      show Record.ofFieldLines? (_ :: List.filterMap _ ((pieces '\n' d.toList).map _)) = _
      rw [filterMap_fieldLine isFieldName_data, ofFieldLines?_named, join_pieces,
        String.ofList_toList, String.ofList_toList, Record.readBack, hd]
      by_cases hempty : d = ""
      · subst hempty
        rfl
      · have hlist : d.toList.isEmpty = false := by simpa using hempty
        have hfilter : (some d).filter (fun d => d != "") = some d := by simp [hempty]
        rw [hlist, hfilter]
        rfl

theorem ofFieldLines?_numberedLines (i : Nat) (r : Record) :
    Record.ofFieldLines? ((r.numberedLines i).filterMap FieldLine.ofLine?) = some r.readBack := by
  rw [Record.numberedLines, List.filterMap_cons, ofLine?_fieldLine isFieldName_id]
  have hid : "id".toList ≠ "event".toList ∧ "id".toList ≠ "data".toList := by decide
  exact (ofFieldLines?_cons_other hid.1 hid.2 _).trans (ofFieldLines?_blockLines r)

/-! ## The bytes of a block -/

theorem takeBlock?_cons {b : UInt8} {bs : List UInt8} (hb : b = 10 → bs.head? ≠ some 10)
    (h : takeBlock? bs = none) : takeBlock? (b :: bs) = none := by
  cases bs with
  | nil => rfl
  | cons c bs =>
      refine takeBlock?_cons_none (fun hbc => ?_) h
      obtain ⟨rfl, rfl⟩ : b = 10 ∧ c = 10 := by simpa using hbc
      exact hb rfl rfl

theorem takeBlock?_line {l rest : List UInt8} (hl : 10 ∉ l) (hrest : takeBlock? rest = none)
    (hhead : rest.head? ≠ some 10) : takeBlock? (l ++ 10 :: rest) = none := by
  induction l with
  | nil => exact takeBlock?_cons (fun _ => hhead) hrest
  | cons b l ih =>
      obtain ⟨hb, hl⟩ := not_or.mp (mt List.mem_cons.mpr hl)
      exact takeBlock?_cons (fun e => absurd e.symm hb) (ih hl)

theorem encode_unlines_cons (l : List Char) (ls : List (List Char)) :
    Utf8.encode (unlines (l :: ls)) = Utf8.encode l ++ 10 :: Utf8.encode (unlines ls) := by
  rw [unlines_cons, Utf8.encode_append]
  rfl

theorem head?_encode_append {l : List Char} (hne : l ≠ []) (hl : SingleLine l)
    (rest : List UInt8) : (Utf8.encode l ++ rest).head? ≠ some 10 := by
  have hmem := hl.lineFeed_not_mem
  cases hbytes : Utf8.encode l with
  | nil =>
      have hdecode := Utf8.decode_encode l
      rw [hbytes] at hdecode
      exact absurd (Except.ok.inj hdecode).symm hne
  | cons b bs =>
      rintro e
      obtain rfl := Option.some.inj e
      exact hmem (hbytes ▸ List.mem_cons_self)

/-- Lines that are not empty end no block. -/
theorem takeBlock?_unlines {ls : List (List Char)} (h : ∀ l ∈ ls, l ≠ [] ∧ SingleLine l) :
    takeBlock? (Utf8.encode (unlines ls)) = none := by
  induction ls with
  | nil => rfl
  | cons l ls ih =>
      obtain ⟨⟨-, hl⟩, hls⟩ := List.forall_mem_cons.mp h
      rw [encode_unlines_cons]
      refine takeBlock?_line hl.lineFeed_not_mem (ih hls) ?_
      cases ls with
      | nil => exact nofun
      | cons l' ls =>
          obtain ⟨⟨hne', hl'⟩, -⟩ := List.forall_mem_cons.mp hls
          rw [encode_unlines_cons]
          exact head?_encode_append hne' hl' _

/-- The bytes of lines and an empty one are a block, and what comes behind it is left. -/
theorem takeBlock?_block {ls : List (List Char)} (hls : ls ≠ [])
    (h : ∀ l ∈ ls, l ≠ [] ∧ SingleLine l) (rest : List UInt8) :
    takeBlock? (Utf8.encode (unlines ls ++ ['\n']) ++ rest) =
      some (Utf8.encode (join '\n' ls), rest) := by
  have hnone := takeBlock?_unlines h
  have hfeed : Utf8.encode ['\n'] = [10] := rfl
  rw [unlines_eq_join hls, Utf8.encode_append, hfeed] at hnone
  have hended := takeBlock?_ended hnone rest
  rw [unlines_eq_join hls, Utf8.encode_append, Utf8.encode_append, hfeed]
  simpa using hended

theorem itemOfBlock?_join {ls : List (List Char)} (h : ∀ l ∈ ls, l ≠ [] ∧ SingleLine l) :
    itemOfBlock? (Utf8.encode (join '\n' ls)) =
      (Record.ofFieldLines? (ls.filterMap FieldLine.ofLine?)).map .ok := by
  rw [itemOfBlock?, Utf8.decode_encode]
  show (Record.ofBlock? _).map _ = _
  rw [Record.ofBlock?, lines_join h]

/-! ## Blocks in a row -/

theorem return_not_mem_unlines {ls : List (List Char)} (h : ∀ l ∈ ls, SingleLine l) :
    '\r' ∉ unlines ls := by
  intro hmem
  obtain ⟨l, hl, hc⟩ := List.mem_flatMap.mp hmem
  rcases List.mem_append.mp hc with hc | hc
  · exact (h l hl).2 hc
  · exact absurd hc (by decide)

theorem dropReturns_encode {cs : List Char} (h : '\r' ∉ cs) :
    dropReturns (Utf8.encode cs) = Utf8.encode cs := by
  refine List.filter_eq_self.mpr fun b hb => ?_
  have hne : b ≠ 13 := fun e => return_not_mem_encode h (e ▸ hb)
  simpa using hne

/-- The text is a block that says the record. -/
inductive BlockText : Record → List Char → Prop
  | mk {r : Record} {ls : List (List Char)} : ls ≠ [] → (∀ l ∈ ls, l ≠ [] ∧ SingleLine l) →
      Record.ofFieldLines? (ls.filterMap FieldLine.ofLine?) = some r →
      BlockText r (unlines ls ++ ['\n'])

section
variable {r : Record} {t : List Char}

theorem BlockText.exists_takeBlock? (h : BlockText r t) :
    ∃ block, itemOfBlock? block = some (.ok r) ∧
      ∀ rest, takeBlock? (Utf8.encode t ++ rest) = some (block, rest) := by
  cases h with
  | mk hne hls hr =>
      refine ⟨_, ?_, takeBlock?_block hne hls⟩
      rw [itemOfBlock?_join hls, hr]
      rfl

theorem BlockText.endedItems_append (h : BlockText r t) (rest : List UInt8) :
    endedItems (Utf8.encode t ++ rest) = .ok r :: endedItems rest := by
  obtain ⟨block, hitem, htake⟩ := h.exists_takeBlock?
  rw [endedItems_of_some (htake rest), hitem]
  rfl

theorem BlockText.left_append (h : BlockText r t) (rest : List UInt8) :
    (cutBlocks (Utf8.encode t ++ rest)).2 = (cutBlocks rest).2 := by
  obtain ⟨block, -, htake⟩ := h.exists_takeBlock?
  rw [cutBlocks_of_some (htake rest)]

theorem BlockText.return_not_mem (h : BlockText r t) : '\r' ∉ t := by
  cases h with
  | mk hne hls hr =>
      rw [List.mem_append, not_or]
      exact ⟨return_not_mem_unlines fun l hl => (hls l hl).2, by decide⟩

end

/-- Blocks in a row are read record by record, and nothing is left. -/
theorem readWhole_blocks {blocks : List (Record × List Char)}
    (h : ∀ b ∈ blocks, BlockText b.1 b.2) :
    readWhole (Utf8.encode (blocks.flatMap Prod.snd)) = blocks.map fun b => .ok b.1 := by
  have hreturn : '\r' ∉ blocks.flatMap Prod.snd := by
    intro hmem
    obtain ⟨b, hb, hc⟩ := List.mem_flatMap.mp hmem
    exact (h b hb).return_not_mem hc
  rw [readWhole, dropReturns_encode hreturn]
  clear hreturn
  induction blocks with
  | nil => rfl
  | cons b blocks ih =>
      obtain ⟨hb, hblocks⟩ := List.forall_mem_cons.mp h
      rw [List.flatMap_cons, Utf8.encode_append, hb.endedItems_append, hb.left_append,
        List.cons_append, ih hblocks]
      rfl

theorem blockText_write {r : Record} (h : r.Writable) : BlockText r.readBack r.write := by
  have hne : r.blockLines ≠ [] := nofun
  exact write_eq r ▸ .mk hne (singleLine_blockLines h) (ofFieldLines?_blockLines r)

theorem blockText_writeNumbered (i : Nat) {r : Record} (h : r.Writable) :
    BlockText r.readBack (r.writeNumbered i) := by
  have hne : r.numberedLines i ≠ [] := nofun
  exact writeNumbered_eq i r ▸
    .mk hne (singleLine_numberedLines i h) (ofFieldLines?_numberedLines i r)

/-! ## The whole body -/

/-- The body of records that are numbered from `i` on. -/
def writeBodyFrom (i : Nat) : List Record → List Char
  | [] => []
  | r :: rs => r.writeNumbered i ++ writeBodyFrom (i + 1) rs

theorem writeBody_eq (rs : List Record) : writeBody rs = writeBodyFrom 0 rs := by
  have hzip : ∀ i, ((rs.zipIdx i).map fun p => p.1.writeNumbered p.2).flatten =
      writeBodyFrom i rs := by
    induction rs with
    | nil => exact fun i => rfl
    | cons r rs ih =>
        intro i
        rw [List.zipIdx_cons, List.map_cons, List.flatten_cons, ih (i + 1)]
        rfl
  exact hzip 0

theorem return_not_mem_writeBodyFrom {rs : List Record} (h : ∀ r ∈ rs, r.Writable) (i : Nat) :
    '\r' ∉ writeBodyFrom i rs := by
  induction rs generalizing i with
  | nil => exact nofun
  | cons r rs ih =>
      obtain ⟨hr, hrs⟩ := List.forall_mem_cons.mp h
      rw [writeBodyFrom, List.mem_append, not_or]
      exact ⟨(blockText_writeNumbered i hr).return_not_mem, ih hrs (i + 1)⟩

/-- A written body is read back record by record, and nothing is left. -/
theorem readWhole_writeBody {rs : List Record} (h : ∀ r ∈ rs, r.Writable) :
    readWhole (Utf8.encode (writeBody rs)) = rs.map fun r => .ok r.readBack := by
  have hblocks : ∀ b ∈ rs.zipIdx.map fun p => (p.1.readBack, p.1.writeNumbered p.2),
      BlockText b.1 b.2 := by
    intro b hb
    obtain ⟨⟨r, i⟩, hmem, rfl⟩ := List.mem_map.mp hb
    exact blockText_writeNumbered i (h r (List.fst_mem_of_mem_zipIdx hmem))
  have hread := readWhole_blocks hblocks
  rw [List.flatMap_map, List.map_map] at hread
  have hrecords : rs.zipIdx.map ((fun r => Except.ok r.readBack) ∘ Prod.fst) =
      rs.map fun r => (.ok r.readBack : Item) := by
    rw [← List.map_map, List.zipIdx_map_fst]
  rw [writeBody, ← List.flatMap_def]
  exact hread.trans hrecords

end JobHealth.Feed
