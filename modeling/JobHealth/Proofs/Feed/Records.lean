import JobHealth.Proofs.Feed.Body
/-!
# `JobHealth.Proofs.Feed.Records` — any records that blocks can tell are read back

Data of several lines is written line by line, each under a field of its own.
So no line of a block is empty, also where a line of the data is, and the first
two line feeds in a row end the block; the one blank behind a colon is the
writer's, and what follows it, a blank or a colon too, is the reader's.

| of a record | what a block cannot tell                              |
| :---------- | :---------------------------------------------------- |
| its name    | line feeds, which end the line, and returns           |
| its data    | returns, which are dropped; nothing apart from no data |
-/

namespace JobHealth.Feed

open JobHealth.Text

/-- A record that a block can tell: its name stays within a line, and its data, if it has some, is
not empty and has no returns. -/
structure Record.Tellable (r : Record) : Prop where
  event : SingleLine r.event.toList
  data : ∀ d, r.data = some d → d ≠ "" ∧ '\r' ∉ d.toList

theorem Record.Tellable.writable {r : Record} (h : r.Tellable) : r.Writable :=
  ⟨h.event, fun d hd => (h.data d hd).2⟩

/-- Data that is not empty is read back as it is. -/
theorem Record.Tellable.readBack {r : Record} (h : r.Tellable) : r.readBack = r := by
  obtain ⟨event, data⟩ := r
  cases data with
  | none => rfl
  | some d =>
      have hne := (h.data d rfl).1
      rw [Record.readBack, Option.filter_some, if_pos (bne_iff_ne.mpr hne)]

/-- The bytes of records, block by block. -/
def recordBytes (records : List Record) : List UInt8 := Utf8.encode (records.flatMap Record.write)

theorem readWhole_recordBytes {records : List Record} (h : ∀ r ∈ records, r.Tellable) :
    readWhole (recordBytes records) = records.map .ok := by
  have hblocks : ∀ b ∈ records.map fun r => (r, r.write), BlockText b.1 b.2 := by
    intro b hb
    obtain ⟨r, hr, rfl⟩ := List.mem_map.mp hb
    have hblock := blockText_write (h r hr).writable
    rwa [(h r hr).readBack] at hblock
  have hread := readWhole_blocks hblocks
  rw [List.flatMap_map, List.map_map] at hread
  exact hread

/-- Records that blocks can tell are what comes of their bytes, however these are cut into chunks:
exactly these records in order, and then the end. -/
theorem written_records_come_back {records : List Record} (h : ∀ r ∈ records, r.Tellable)
    {input : List Chunk} (hbytes : bytesOf input = recordBytes records)
    (hsound : reasonsOf input = []) :
    itemsOfChunks input = records.map .ok ∧
      ∃ n, (Stream.ofChunks input).EndsAfter n (records.map .ok) := by
  have hitems : itemsOfChunks input = records.map .ok := by
    rw [itemsOfChunks_undisturbed hsound, hbytes, readWhole_recordBytes h]
  obtain ⟨n, hends⟩ := Stream.exists_endsAfter (Stream.ofChunks input)
  rw [← itemsOfChunks, hitems] at hends
  exact ⟨hitems, n, hends⟩

/-- Records whose data begins and ends with line feeds, is nothing else, or looks like a comment,
cut between the two line feeds that end a block and inside a character. -/
theorem uneven_records_come_back :
    let records : List Record :=
      [⟨"", some "\n\n"⟩, ⟨"end", none⟩, ⟨" a: b", some "\n  : é\n\n:\n"⟩]
    let bytes := recordBytes records
    let input := [Chunk.bytes (bytes.take 29), .pending, .bytes ((bytes.drop 29).take 44),
      .bytes ((bytes.drop 29).drop 44)]
    (∀ r ∈ records, r.Tellable) ∧ bytesOf input = bytes ∧ reasonsOf input = [] ∧
      itemsOfChunks input = records.map .ok ∧
      ∃ n, (Stream.ofChunks input).EndsAfter n (records.map .ok) := by
  intro records bytes input
  have htellable : ∀ r ∈ records, r.Tellable := by
    refine List.forall_mem_cons.mpr ⟨⟨by decide, ?_⟩, List.forall_mem_cons.mpr
      ⟨⟨by decide, nofun⟩, List.forall_mem_singleton.mpr ⟨by decide, ?_⟩⟩⟩
    · rintro d ⟨⟩
      decide
    · rintro d ⟨⟩
      decide
  have hbytes : bytesOf input = bytes := by
    simp only [input, bytesOf, List.append_nil, List.take_append_drop]
  exact ⟨htellable, hbytes, rfl, written_records_come_back htellable hbytes rfl⟩

end JobHealth.Feed
