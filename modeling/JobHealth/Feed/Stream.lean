import JobHealth.Fault
import JobHealth.Feed.Record
/-!
# `JobHealth.Feed.Stream` — records out of bytes that arrive piece by piece

Bytes arrive in chunks whose borders mean nothing; between chunks the transport
may fail or have nothing yet.  A return is dropped wherever it stands, and two
line feeds end a block.  What is not ended when the bytes end is a last block.

There are two readings.  `Stream.poll` takes one step: it looks for an item in
the bytes held back so far and pulls chunks until there is one.  `readWhole`
looks at all the bytes at once and knows nothing of chunks.  `Stream.items` is
everything that polling gives up to the end.

A failure of the transport is handed out where it happens, after the records
that were complete by then, and no byte that arrived before it is lost.
-/

namespace JobHealth.Feed

open JobHealth.Text

/-- What the transport gives at one time. -/
inductive Chunk where
  | bytes (bs : List UInt8)
  /-- The transport failed, for the given reason. -/
  | failure (reason : String)
  /-- Nothing is there yet. -/
  | pending
  deriving DecidableEq, Repr

/-- A record, or what stands in its place. -/
abbrev Item := Except Fault Record

/-- The bytes without any return. -/
def dropReturns (bs : List UInt8) : List UInt8 := bs.filter fun b => b != 13

/-- What one block gives: a record, nothing, or the fault that it is no text. -/
def itemOfBlock? (block : List UInt8) : Option Item :=
  match Utf8.decode block with
  | .ok cs => (Record.ofBlock? cs).map .ok
  | .error f => some (.error (.malformedEvent (.notText f)))

def interruption (reason : String) : Item := .error (.network (.interrupted reason))

/-! ## The whole reading -/

/-- The blocks that two line feeds end, from the left, and the bytes behind the last of them. -/
def cutBlocks : List UInt8 → List (List UInt8) × List UInt8
  | [] => ([], [])
  | [b] => ([], [b])
  | b :: c :: rest =>
    if b == 10 && c == 10 then
      let (blocks, left) := cutBlocks rest
      ([] :: blocks, left)
    else
      match cutBlocks (c :: rest) with
      | ([], left) => ([], b :: left)
      | (block :: blocks, left) => ((b :: block) :: blocks, left)

/-- The items of the blocks that are ended within the bytes. -/
def endedItems (bs : List UInt8) : List Item := (cutBlocks bs).1.filterMap itemOfBlock?

/-- The item of what no two line feeds end, if there is anything and it gives one. -/
def lastItem? (left : List UInt8) : Option Item :=
  if left.isEmpty then none else itemOfBlock? left

/-- The items of whole bytes: those of their blocks, and of an unended rest. -/
def readWhole (bs : List UInt8) : List Item :=
  endedItems (dropReturns bs) ++ (lastItem? (cutBlocks (dropReturns bs)).2).toList

/-! ## The reading step by step -/

/-- The first block that two line feeds end, and the bytes behind these. -/
def takeBlock? : List UInt8 → Option (List UInt8 × List UInt8)
  | [] => none
  | [_] => none
  | b :: c :: rest =>
    if b == 10 && c == 10 then some ([], rest)
    else (takeBlock? (c :: rest)).map fun (block, rest) => (b :: block, rest)

theorem length_of_takeBlock? {bs block rest : List UInt8}
    (h : takeBlock? bs = some (block, rest)) : rest.length < bs.length := by
  fun_induction takeBlock? bs generalizing block with
  | case1 => cases h
  | case2 => cases h
  | case3 b c tail hbc =>
      obtain ⟨rfl, rfl⟩ : [] = block ∧ tail = rest := by simpa using h
      simp only [List.length_cons]
      omega
  | case4 b c tail hbc ih =>
      obtain ⟨⟨inner, rest'⟩, hinner, heq⟩ := Option.map_eq_some_iff.mp h
      obtain ⟨rfl, rfl⟩ : b :: inner = block ∧ rest' = rest := by simpa using heq
      have := ih hinner
      simp only [List.length_cons] at this ⊢
      omega

/-- The item of the first block that gives one, and the bytes behind that block; without such a
block, the bytes behind the last one. -/
def takeItem (bs : List UInt8) : Option Item × List UInt8 :=
  match _h : takeBlock? bs with
  | none => (none, bs)
  | some (block, rest) =>
    match itemOfBlock? block with
    | some i => (some i, rest)
    | none => takeItem rest
termination_by bs.length
decreasing_by exact length_of_takeBlock? _h

structure Stream where
  /-- The bytes held back: those behind the last block that was looked at. -/
  buffer : List UInt8
  /-- Whether the transport came to its end. -/
  exhausted : Bool
  /-- What the transport will give. -/
  input : List Chunk

inductive Poll where
  | item (i : Item)
  | pending
  | finished

namespace Stream

def ofChunks (input : List Chunk) : Stream := ⟨[], false, input⟩

/-- A step when the transport is at its end and no block is ended: the bytes held back are a last
block. -/
def flush (buffer : List UInt8) (input : List Chunk) : Poll × Stream :=
  match lastItem? buffer with
  | some i => (.item i, ⟨[], true, input⟩)
  | none => (.finished, ⟨[], true, input⟩)

/-- A step when no block is ended: chunks are pulled until there is something to say. -/
def pull (buffer : List UInt8) : List Chunk → Poll × Stream
  | [] => flush buffer []
  | .pending :: input => (.pending, ⟨buffer, false, input⟩)
  | .failure reason :: input => (.item (interruption reason), ⟨buffer, false, input⟩)
  | .bytes bs :: input =>
    match takeItem (buffer ++ dropReturns bs) with
    | (some i, buffer) => (.item i, ⟨buffer, false, input⟩)
    | (none, buffer) => pull buffer input

/-- One step: an item out of the bytes held back, or else a look at the transport, unless that is
at its end. -/
def poll (s : Stream) : Poll × Stream :=
  match takeItem s.buffer with
  | (some i, buffer) => (.item i, { s with buffer })
  | (none, buffer) => if s.exhausted then flush buffer s.input else pull buffer s.input

/-- What the next `n` steps give. -/
def polls : Nat → Stream → List Poll
  | 0, _ => []
  | n + 1, s => s.poll.1 :: polls n s.poll.2

/-! Polling comes to an end, since each step before it takes bytes or a chunk away. -/

/-- The number of bytes and chunks that a transport will give. -/
def inputWeight : List Chunk → Nat
  | [] => 0
  | .bytes bs :: input => bs.length + 1 + inputWeight input
  | _ :: input => 1 + inputWeight input

/-- The number of bytes and chunks that are still to be read. -/
def weight (s : Stream) : Nat := s.buffer.length + inputWeight s.input

theorem length_takeItem_le (bs : List UInt8) : (takeItem bs).2.length ≤ bs.length := by
  fun_induction takeItem bs with
  | case1 bs h => exact Nat.le_refl _
  | case2 bs block rest h i hi => exact Nat.le_of_lt (length_of_takeBlock? h)
  | case3 bs block rest h hi ih => exact Nat.le_trans ih (Nat.le_of_lt (length_of_takeBlock? h))

theorem length_takeItem_lt {bs rest : List UInt8} {i : Item} (h : takeItem bs = (some i, rest)) :
    rest.length < bs.length := by
  fun_induction takeItem bs with
  | case1 bs hb => cases h
  | case2 bs block tail hb j hj =>
      obtain ⟨rfl, rfl⟩ : j = i ∧ tail = rest := by simpa using h
      exact length_of_takeBlock? hb
  | case3 bs block tail hb hj ih => exact Nat.lt_trans (ih h) (length_of_takeBlock? hb)

theorem weight_flush {buffer : List UInt8} {input : List Chunk} {i : Item} {s : Stream}
    (h : flush buffer input = (.item i, s)) : s.weight < buffer.length + inputWeight input := by
  unfold flush lastItem? at h
  cases buffer with
  | nil => simp at h
  | cons b buffer =>
      split at h
      · obtain ⟨-, rfl⟩ := Prod.mk.inj h
        simp only [weight, List.length_cons, List.length_nil]
        omega
      · simp at h

/-- A step that pulls chunks gives nothing more only when it is at the end. -/
theorem weight_pull {input : List Chunk} : ∀ {buffer : List UInt8} {p : Poll} {s : Stream},
    pull buffer input = (p, s) → p = .finished ∨ s.weight < buffer.length + inputWeight input := by
  induction input with
  | nil =>
      intro buffer p s h
      cases p with
      | item i => exact Or.inr (weight_flush h)
      | pending => unfold pull flush at h; split at h <;> simp at h
      | finished => exact Or.inl rfl
  | cons c input ih =>
      intro buffer p s h
      cases c with
      | pending =>
          obtain ⟨-, rfl⟩ := Prod.mk.inj h
          exact Or.inr (by simp only [weight, inputWeight]; omega)
      | failure reason =>
          obtain ⟨-, rfl⟩ := Prod.mk.inj h
          exact Or.inr (by simp only [weight, inputWeight]; omega)
      | bytes bs =>
          have hdrop : (dropReturns bs).length ≤ bs.length := List.length_filter_le _ _
          have hlen : (buffer ++ dropReturns bs).length ≤ buffer.length + bs.length := by
            rw [List.length_append]; omega
          unfold pull at h
          have hle := length_takeItem_le (buffer ++ dropReturns bs)
          split at h
          · next i rest htake =>
            obtain ⟨-, rfl⟩ := Prod.mk.inj h
            have := length_takeItem_lt htake
            exact Or.inr (by simp only [weight, inputWeight]; omega)
          · next rest htake =>
            have hrest : rest.length ≤ (buffer ++ dropReturns bs).length := by rwa [htake] at hle
            rcases ih h with hfin | hlt
            · exact Or.inl hfin
            · exact Or.inr (by simp only [inputWeight] at hlt ⊢; omega)

theorem weight_poll {s s' : Stream} {p : Poll} (h : s.poll = (p, s')) :
    p = .finished ∨ s'.weight < s.weight := by
  unfold poll at h
  have hle := length_takeItem_le s.buffer
  split at h
  · next i rest htake =>
    obtain ⟨-, rfl⟩ := Prod.mk.inj h
    have := length_takeItem_lt htake
    exact Or.inr (by simp only [weight]; omega)
  · next rest htake =>
    have hrest : rest.length ≤ s.buffer.length := by rwa [htake] at hle
    split at h
    · cases p with
      | item i => exact Or.inr (by have := weight_flush h; simp only [weight] at this ⊢; omega)
      | pending => unfold flush at h; split at h <;> simp at h
      | finished => exact Or.inl rfl
    · rcases weight_pull h with hfin | hlt
      · exact Or.inl hfin
      · exact Or.inr (by simp only [weight] at hlt ⊢; omega)

/-- All items up to the end of the reading, in order. -/
def items (s : Stream) : List Item :=
  match _h : s.poll with
  | (.finished, _) => []
  | (.pending, s') => items s'
  | (.item i, s') => i :: items s'
termination_by s.weight
decreasing_by
  · exact (weight_poll _h).resolve_left nofun
  · exact (weight_poll _h).resolve_left nofun

end Stream

def itemsOfChunks (input : List Chunk) : List Item := (Stream.ofChunks input).items

/-- The body of a feed: the numbered blocks of its records. -/
def writeBody (records : List Record) : List Char :=
  (records.zipIdx.map fun (r, i) => r.writeNumbered i).flatten

end JobHealth.Feed
