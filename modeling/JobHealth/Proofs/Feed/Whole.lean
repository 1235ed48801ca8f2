import Mathlib.Data.List.Forall2
import JobHealth.Proofs.Feed.Block
import JobHealth.Proofs.Text.Utf8
/-!
# `JobHealth.Proofs.Feed.Whole` — polling reads a feed as a whole

What the bytes of a feed say is told here of all of them at once, and without
reading them: where they are cut, which texts their blocks are, and what the
lines of these texts tell.  Chunks have no part in it.

| what it is        | how it is told                                               |
| :---------------- | :----------------------------------------------------------- |
| `Cut`             | no two line feeds within a block, its end, or the rest       |
| `Encodes`         | the bytes of a text                                          |
| `BlockGives`      | what the lines of its text tell; a fault if there is none    |
| `BlocksGive`      | all blocks that are ended                                    |
| `WholeGives`      | these, and what is left if it is not empty                   |

Polling gives just that, with the failures of the transport put in between.
-/

namespace JobHealth.Feed

open JobHealth.Text

/-! ## The whole bytes -/

/-- The bytes are cut into blocks, each ended by the leftmost two line feeds that are left, and a
rest without an end. -/
structure Cut (bs : List UInt8) (blocks : List (List UInt8)) (left : List UInt8) : Prop where
  bytes_eq : bs = blocks.flatMap (· ++ [10, 10]) ++ left
  leftmost : ∀ block ∈ blocks, ¬ [10, 10] <:+: block ++ [10]
  unended : ¬ [10, 10] <:+: left

/-- The bytes are those of the text. -/
def Encodes (bs : List UInt8) (text : List Char) : Prop := bs = text.flatMap String.utf8EncodeChar

/-- What a block gives: the record that the lines of its text tell, nothing if they tell neither a
name nor data, and one fault if the bytes are those of no text. -/
inductive BlockGives (block : List UInt8) : List Item → Prop
  | nothing {text : List Char} : Encodes block text → LinesTell (lines text) none [] →
      BlockGives block []
  | record {text : List Char} {name : Option (List Char)} {values : List (List Char)} :
      Encodes block text → LinesTell (lines text) name values → (name ≠ none ∨ values ≠ []) →
      BlockGives block
        [.ok ⟨(name.map String.ofList).getD "message",
          if join '\n' values = [] then none else some (String.ofList (join '\n' values))⟩]
  | fault {f : Utf8.Fault} : (∀ text, ¬ Encodes block text) →
      BlockGives block [.error (.malformedEvent (.notText f))]

/-- The items of the blocks that are ended within the bytes, returns deleted. -/
def BlocksGive (bs : List UInt8) (items : List Item) : Prop :=
  ∃ blocks left parts, Cut (bs.filter (· ≠ 13)) blocks left ∧
    List.Forall₂ BlockGives blocks parts ∧ items = parts.flatten

/-- What two line feeds do not end is a last block, unless it is empty. -/
def lastBlock (left : List UInt8) : List (List UInt8) := if left = [] then [] else [left]

/-- The items of the bytes, returns deleted. -/
def WholeGives (bs : List UInt8) (items : List Item) : Prop :=
  ∃ blocks left parts, Cut (bs.filter (· ≠ 13)) blocks left ∧
    List.Forall₂ BlockGives (blocks ++ lastBlock left) parts ∧ items = parts.flatten

/-! ## One block -/

theorem encodes_iff {bs : List UInt8} {text : List Char} :
    Encodes bs text ↔ Utf8.decode bs = .ok text := by
  rw [Utf8.decode_eq_ok_iff, Encodes, Utf8.encode, funext Utf8.encodeChar_eq]

theorem ofBlock?_eq_recordOf? {text : List Char} {name : Option (List Char)}
    {values : List (List Char)} (h : LinesTell (lines text) name values) :
    Record.ofBlock? text = recordOf? name values := by
  obtain ⟨rfl, rfl⟩ := h.told_eq
  exact ofFieldLines?_eq _

theorem blockGives_itemOfBlock? (block : List UInt8) :
    BlockGives block (itemOfBlock? block).toList := by
  unfold itemOfBlock?
  split
  · next text hdecode =>
    obtain ⟨name, values, htell⟩ := exists_linesTell (lines text)
    have htext := encodes_iff.mpr hdecode
    rw [ofBlock?_eq_recordOf? htell, recordOf?]
    split
    · next hnone =>
      obtain ⟨rfl, rfl⟩ := hnone
      exact .nothing htext htell
    · next hsome => exact .record htext htell (Decidable.not_and_iff_not_or_not.mp hsome)
  · next f hdecode =>
    refine .fault fun text htext => ?_
    rw [encodes_iff.mp htext] at hdecode
    cases hdecode

/-! ## All blocks -/

theorem cut_cutBlocks (bs : List UInt8) : Cut bs (cutBlocks bs).1 (cutBlocks bs).2 := by
  obtain ⟨hbytes, hblocks, hleft⟩ := cutBlocks_eq_iff.mp (rfl : cutBlocks bs = (_, _))
  exact ⟨hbytes, hblocks, hleft⟩

/-- Blocks give what is read of each of them. -/
theorem forall₂_blockGives (blocks : List (List UInt8)) :
    ∃ parts, List.Forall₂ BlockGives blocks parts ∧
      blocks.filterMap itemOfBlock? = parts.flatten := by
  refine ⟨blocks.map fun block => (itemOfBlock? block).toList, ?_, ?_⟩
  · rw [List.forall₂_map_right_iff, List.forall₂_same]
    exact fun block _ => blockGives_itemOfBlock? block
  · rw [← List.flatMap_def, List.filterMap_eq_flatMap_toList]

theorem dropReturns_eq (bs : List UInt8) : dropReturns bs = bs.filter (· ≠ 13) := by
  refine List.filter_congr fun b _ => ?_
  rw [bne, decide_not, beq_eq_decide]

theorem blocksGive_endedItems (bs : List UInt8) : BlocksGive bs (endedItems (dropReturns bs)) := by
  obtain ⟨parts, hparts, hitems⟩ := forall₂_blockGives (cutBlocks (dropReturns bs)).1
  have hcut := cut_cutBlocks (dropReturns bs)
  rw [dropReturns_eq] at hcut hparts
  exact ⟨_, _, parts, hcut, hparts, hitems⟩

theorem wholeGives_readWhole (bs : List UInt8) : WholeGives bs (readWhole bs) := by
  have hlast : ∀ left : List UInt8,
      (lastItem? left).toList = (lastBlock left).filterMap itemOfBlock? := by
    intro left
    cases left with
    | nil => rfl
    | cons b left =>
        show (itemOfBlock? (b :: left)).toList = [b :: left].filterMap itemOfBlock?
        cases hitem : itemOfBlock? (b :: left) <;> simp [hitem]
  obtain ⟨parts, hparts, hitems⟩ := forall₂_blockGives
    ((cutBlocks (dropReturns bs)).1 ++ lastBlock (cutBlocks (dropReturns bs)).2)
  have hcut := cut_cutBlocks (dropReturns bs)
  have hread : readWhole bs = parts.flatten := by
    rw [readWhole, hlast, ← hitems, List.filterMap_append]
    rfl
  rw [dropReturns_eq] at hcut hparts
  exact ⟨_, _, parts, hcut, hparts, hread⟩

/-! ## Polling -/

/-- **Polling reads a feed as a whole.**  It comes to an end and stays there.  The failures apart,
it gives what the bytes give as a whole.  Each failure is given once and in order, directly behind
the items of the blocks that the bytes before it end. -/
theorem polling_reads_whole (input : List Chunk) :
    (∃ n, (Stream.ofChunks input).EndsAfter n (itemsOfChunks input)) ∧
    WholeGives (bytesOf input) (quiet (itemsOfChunks input)) ∧
    loud (itemsOfChunks input) = (reasonsOf input).map interruption ∧
    ∀ before reason after, input = before ++ .failure reason :: after → ∃ early late,
      itemsOfChunks input = early ++ interruption reason :: late ∧
      BlocksGive (bytesOf before) (quiet early) ∧
      loud early = (reasonsOf before).map interruption := by
  refine ⟨Stream.exists_endsAfter _, ?_, ?_, ?_⟩
  · have hquiet : quiet (itemsOfChunks input) = readWhole (bytesOf input) := by
      rw [itemsOfChunks_eq, quiet_readChunks]
      rfl
    rw [hquiet]
    exact wholeGives_readWhole (bytesOf input)
  · rw [itemsOfChunks_eq, loud_readChunks]
  · rintro before reason after rfl
    obtain ⟨early, hread, hquiet, hloud⟩ := readChunks_failure [] before after reason
    refine ⟨early, _, (itemsOfChunks_eq _).trans hread, ?_, hloud⟩
    rw [hquiet]
    exact blocksGive_endedItems (bytesOf before)

/-- A failure within a character, a block that says nothing, one that is no text, and a last one
without an end. -/
theorem polling_torn_feed :
    let start : List Chunk := [.bytes (Utf8.encode "event: a\r".toList), .pending,
      .bytes (Utf8.encode "\ndata: ".toList ++ [0xC3])]
    let rest : List Chunk := [.bytes (0xA9 :: Utf8.encode "\n\n: ping\n".toList),
      .bytes [10, 0xFF, 10, 10], .bytes (Utf8.encode "event: end".toList)]
    let input := start ++ .failure "reset" :: rest
    let records : List Item := [.ok ⟨"a", some "é"⟩,
      .error (.malformedEvent (.notText (.invalid 1 0))), .ok ⟨"end", none⟩]
    itemsOfChunks input = interruption "reset" :: records ∧ WholeGives (bytesOf input) records ∧
      BlocksGive (bytesOf start) [] := by
  intro start rest input records
  have hitems : itemsOfChunks input = interruption "reset" :: records := by
    rw [itemsOfChunks_eq]
    decide +kernel
  obtain ⟨-, hwhole, -, hfailure⟩ := polling_reads_whole input
  obtain ⟨early, late, hearly, hblocks, hquiet⟩ := hfailure start "reset" rest rfl
  have hnone : early = [] := by
    cases early with
    | nil => rfl
    | cons i early =>
        rw [hitems] at hearly
        obtain rfl := (List.cons.inj hearly).1
        cases hquiet
  rw [hitems] at hwhole
  rw [hnone] at hblocks
  exact ⟨hitems, hwhole, hblocks⟩

end JobHealth.Feed
