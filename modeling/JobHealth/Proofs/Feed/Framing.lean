import JobHealth.Feed.Stream
/-!
# `JobHealth.Proofs.Feed.Framing` — the borders of chunks mean nothing

A reading in progress holds back what no two line feeds have ended yet: part of
a block, part of a character, or the first half of the end of a block.  It is
carried from step to step, across failures and pauses, and each step looks for
the leftmost end anew.

| layer          | what it says                                                 |
| :------------- | :----------------------------------------------------------- |
| `takeBlock?`   | the leftmost end of a block, found again in longer bytes     |
| `cutBlocks`    | all ends at once; cutting may be interrupted anywhere        |
| `readChunks`   | what chunks give, with the bytes gathered up to each failure |
| `Stream.poll`  | one step gives the head of that and leaves its tail          |
| `Stream.items` | so a whole run of steps gives all of it                      |
-/

namespace JobHealth.Feed

/-! ## Cutting bytes into blocks -/

theorem cutBlocks_of_none {bs : List UInt8} (h : takeBlock? bs = none) :
    cutBlocks bs = ([], bs) := by
  fun_induction takeBlock? bs with
  | case1 => rfl
  | case2 b => rfl
  | case3 b c rest hbc => cases h
  | case4 b c rest hbc ih =>
      rw [cutBlocks, if_neg hbc, ih (Option.map_eq_none_iff.mp h)]

theorem cutBlocks_of_some {bs block rest : List UInt8} (h : takeBlock? bs = some (block, rest)) :
    cutBlocks bs = (block :: (cutBlocks rest).1, (cutBlocks rest).2) := by
  fun_induction takeBlock? bs generalizing block with
  | case1 => cases h
  | case2 b => cases h
  | case3 b c tail hbc =>
      obtain ⟨rfl, rfl⟩ : [] = block ∧ tail = rest := by simpa using h
      rw [cutBlocks, if_pos hbc]
  | case4 b c tail hbc ih =>
      obtain ⟨⟨inner, rest'⟩, hinner, heq⟩ := Option.map_eq_some_iff.mp h
      obtain ⟨rfl, rfl⟩ : b :: inner = block ∧ rest' = rest := by simpa using heq
      rw [cutBlocks, if_neg hbc, ih hinner]

/-- An end of a block that was found stays the leftmost one when more bytes come. -/
theorem takeBlock?_append {bs block rest : List UInt8} (h : takeBlock? bs = some (block, rest))
    (more : List UInt8) : takeBlock? (bs ++ more) = some (block, rest ++ more) := by
  fun_induction takeBlock? bs generalizing block with
  | case1 => cases h
  | case2 b => cases h
  | case3 b c tail hbc =>
      obtain ⟨rfl, rfl⟩ : [] = block ∧ tail = rest := by simpa using h
      show takeBlock? (b :: c :: (tail ++ more)) = _
      rw [takeBlock?, if_pos hbc]
  | case4 b c tail hbc ih =>
      obtain ⟨⟨inner, rest'⟩, hinner, heq⟩ := Option.map_eq_some_iff.mp h
      obtain ⟨rfl, rfl⟩ : b :: inner = block ∧ rest' = rest := by simpa using heq
      show takeBlock? (b :: c :: (tail ++ more)) = _
      have ih' : takeBlock? (c :: (tail ++ more)) = some (inner, rest' ++ more) := ih hinner
      rw [takeBlock?, if_neg hbc, ih']
      rfl

/-- Bytes are either without an end of a block, or a block and shorter bytes behind its end. -/
theorem block_induction {P : List UInt8 → Prop}
    (last : ∀ bs, takeBlock? bs = none → P bs)
    (block : ∀ bs block rest, takeBlock? bs = some (block, rest) → P rest → P bs)
    (bs : List UInt8) : P bs := by
  induction hn : bs.length using Nat.strongRecOn generalizing bs with
  | ind n ih =>
      subst hn
      cases h : takeBlock? bs with
      | none => exact last bs h
      | some p => exact block bs p.1 p.2 h (ih _ (length_of_takeBlock? h) p.2 rfl)

/-- Cutting may stop anywhere and go on from what is left. -/
theorem cutBlocks_append (bs more : List UInt8) :
    cutBlocks (bs ++ more) =
      ((cutBlocks bs).1 ++ (cutBlocks ((cutBlocks bs).2 ++ more)).1,
        (cutBlocks ((cutBlocks bs).2 ++ more)).2) := by
  induction bs using block_induction with
  | last bs h => rw [cutBlocks_of_none h]; rfl
  | block bs block rest h ih =>
      rw [cutBlocks_of_some h, cutBlocks_of_some (takeBlock?_append h more), ih]
      rfl

/-! What the cut is: no two line feeds stand within a block or at its end, so each block ends at
the leftmost two of those that are left. -/

theorem takeBlock?_eq_none_iff {bs : List UInt8} :
    takeBlock? bs = none ↔ ¬ [10, 10] <:+: bs := by
  fun_induction takeBlock? bs with
  | case1 => simp
  | case2 b =>
      simp only [true_iff]
      intro h
      have := h.length_le
      simp at this
  | case3 b c rest hbc =>
      obtain ⟨rfl, rfl⟩ : b = 10 ∧ c = 10 := by simpa using hbc
      simp only [reduceCtorEq, false_iff, Classical.not_not]
      exact ⟨[], rest, rfl⟩
  | case4 b c rest hbc ih =>
      have hne : ¬ (b = 10 ∧ c = 10) := by simpa using hbc
      rw [Option.map_eq_none_iff, ih, @List.infix_cons_iff _ _ b]
      have hpre : ¬ [10, 10] <+: b :: c :: rest := by
        rintro ⟨t, ht⟩
        obtain ⟨hb, hc, -⟩ : 10 = b ∧ 10 = c ∧ t = rest := by simpa using ht
        exact hne ⟨hb.symm, hc.symm⟩
      simp only [hpre, false_or]

theorem takeBlock?_cons_none {b c : UInt8} {bs : List UInt8} (hbc : ¬ (b == 10 && c == 10) = true)
    (h : takeBlock? (c :: bs) = none) : takeBlock? (b :: c :: bs) = none := by
  rw [takeBlock?, if_neg hbc, h]
  rfl

/-- Without two line feeds before its end, a block is what the leftmost end cuts off. -/
theorem takeBlock?_ended {block : List UInt8} (h : takeBlock? (block ++ [10]) = none)
    (rest : List UInt8) : takeBlock? (block ++ 10 :: 10 :: rest) = some (block, rest) := by
  induction block with
  | nil => rfl
  | cons b block ih =>
      cases block with
      | nil =>
          have hb : ¬ (b == 10 && (10 : UInt8) == 10) = true := by
            intro hb
            have h' : takeBlock? [b, 10] = none := h
            rw [takeBlock?, if_pos hb] at h'
            cases h'
          show takeBlock? (b :: 10 :: 10 :: rest) = _
          rw [takeBlock?, if_neg hb]
          rfl
      | cons c block =>
          have hbc : ¬ (b == 10 && c == 10) = true := by
            intro hbc
            simp [takeBlock?, hbc] at h
          have h' : takeBlock? (c :: block ++ [10]) = none := by
            simp only [List.cons_append, takeBlock?, if_neg hbc] at h
            exact Option.map_eq_none_iff.mp h
          show takeBlock? (b :: c :: (block ++ 10 :: 10 :: rest)) = _
          have ih' : takeBlock? (c :: (block ++ 10 :: 10 :: rest)) = some (c :: block, rest) := ih h'
          rw [takeBlock?, if_neg hbc, ih']
          rfl

theorem bytes_of_takeBlock? {bs block rest : List UInt8} (h : takeBlock? bs = some (block, rest)) :
    bs = block ++ 10 :: 10 :: rest ∧ takeBlock? (block ++ [10]) = none := by
  fun_induction takeBlock? bs generalizing block with
  | case1 => cases h
  | case2 b => cases h
  | case3 b c tail hbc =>
      obtain ⟨rfl, rfl⟩ : b = 10 ∧ c = 10 := by simpa using hbc
      obtain ⟨rfl, rfl⟩ : [] = block ∧ tail = rest := by simpa using h
      exact ⟨rfl, rfl⟩
  | case4 b c tail hbc ih =>
      obtain ⟨⟨inner, rest'⟩, hinner, heq⟩ := Option.map_eq_some_iff.mp h
      obtain ⟨rfl, rfl⟩ : b :: inner = block ∧ rest' = rest := by simpa using heq
      obtain ⟨hbs, hnone⟩ := ih hinner
      refine ⟨by rw [hbs]; rfl, ?_⟩
      cases inner with
      | nil =>
          obtain ⟨rfl, -⟩ : c = 10 ∧ tail = 10 :: rest' := by simpa using hbs
          exact takeBlock?_cons_none hbc hnone
      | cons x inner =>
          obtain ⟨rfl, -⟩ : c = x ∧ tail = inner ++ 10 :: 10 :: rest' := by simpa using hbs
          exact takeBlock?_cons_none hbc hnone

theorem cutBlocks_eq_iff {bs left : List UInt8} {blocks : List (List UInt8)} :
    cutBlocks bs = (blocks, left) ↔
      bs = blocks.flatMap (· ++ [10, 10]) ++ left ∧
        (∀ block ∈ blocks, ¬ [10, 10] <:+: block ++ [10]) ∧ ¬ [10, 10] <:+: left := by
  constructor
  · intro h
    induction bs using block_induction generalizing blocks with
    | last bs hbs =>
        rw [cutBlocks_of_none hbs] at h
        obtain ⟨rfl, rfl⟩ := Prod.mk.inj h
        exact ⟨rfl, nofun, takeBlock?_eq_none_iff.mp hbs⟩
    | block bs block rest hbs ih =>
        rw [cutBlocks_of_some hbs] at h
        obtain ⟨rfl, rfl⟩ := Prod.mk.inj h
        obtain ⟨hrest, hblocks, hleft⟩ := ih rfl
        obtain ⟨rfl, hblock⟩ := bytes_of_takeBlock? hbs
        refine ⟨?_, List.forall_mem_cons.mpr ⟨takeBlock?_eq_none_iff.mp hblock, hblocks⟩, hleft⟩
        conv => lhs; rw [hrest]
        simp
  · rintro ⟨rfl, hblocks, hleft⟩
    induction blocks with
    | nil => exact cutBlocks_of_none (takeBlock?_eq_none_iff.mpr hleft)
    | cons block blocks ih =>
        obtain ⟨hblock, hblocks⟩ := List.forall_mem_cons.mp hblocks
        have hcut : takeBlock? ((block :: blocks).flatMap (· ++ [10, 10]) ++ left) =
            some (block, blocks.flatMap (· ++ [10, 10]) ++ left) := by
          have := takeBlock?_ended (takeBlock?_eq_none_iff.mpr hblock)
            (blocks.flatMap (· ++ [10, 10]) ++ left)
          simpa using this
        rw [cutBlocks_of_some hcut, ih hblocks]

/-! ## Ended blocks and what is left of them -/

theorem endedItems_of_some {bs block rest : List UInt8} (h : takeBlock? bs = some (block, rest)) :
    endedItems bs = (itemOfBlock? block).toList ++ endedItems rest := by
  unfold endedItems
  rw [cutBlocks_of_some h, List.filterMap_cons]
  cases itemOfBlock? block <;> rfl

theorem endedItems_append (bs more : List UInt8) :
    endedItems (bs ++ more) = endedItems bs ++ endedItems ((cutBlocks bs).2 ++ more) := by
  unfold endedItems
  rw [cutBlocks_append, List.filterMap_append]

theorem left_append (bs more : List UInt8) :
    (cutBlocks (bs ++ more)).2 = (cutBlocks ((cutBlocks bs).2 ++ more)).2 := by
  rw [cutBlocks_append]

/-! ## What chunks give, all at once -/

/-- The items that chunks give behind the bytes in `buffer`.  Bytes are only gathered, up to a
failure or to the end. -/
def readChunks (buffer : List UInt8) : List Chunk → List Item
  | [] => endedItems buffer ++ (lastItem? (cutBlocks buffer).2).toList
  | .pending :: input => readChunks buffer input
  | .failure reason :: input =>
    endedItems buffer ++ interruption reason :: readChunks (cutBlocks buffer).2 input
  | .bytes bs :: input => readChunks (buffer ++ dropReturns bs) input

theorem readChunks_of_some {buffer block rest : List UInt8}
    (h : takeBlock? buffer = some (block, rest)) (input : List Chunk) :
    readChunks buffer input = (itemOfBlock? block).toList ++ readChunks rest input := by
  induction input generalizing buffer rest with
  | nil => rw [readChunks, readChunks, endedItems_of_some h, cutBlocks_of_some h, List.append_assoc]
  | cons c input ih =>
      cases c with
      | pending => exact ih h
      | failure reason =>
          rw [readChunks, readChunks, endedItems_of_some h, cutBlocks_of_some h, List.append_assoc]
      | bytes bs => exact ih (takeBlock?_append h (dropReturns bs))

theorem readChunks_takeItem (buffer : List UInt8) (input : List Chunk) :
    readChunks buffer input = (takeItem buffer).1.toList ++ readChunks (takeItem buffer).2 input := by
  fun_induction takeItem buffer with
  | case1 buffer h => rfl
  | case2 buffer block rest h i hi => rw [readChunks_of_some h, hi]
  | case3 buffer block rest h hi ih => rw [readChunks_of_some h, hi]; exact ih

/-- Where no item was found, no end of a block is left. -/
theorem takeBlock?_takeItem {buffer rest : List UInt8} (h : takeItem buffer = (none, rest)) :
    takeBlock? rest = none := by
  fun_induction takeItem buffer with
  | case1 buffer hb =>
      obtain ⟨-, rfl⟩ := Prod.mk.inj h
      exact hb
  | case2 buffer block tail hb i hi => cases h
  | case3 buffer block tail hb hi ih => exact ih h

/-! ## One step and a whole run -/

/-- The item of a step that gives one. -/
def Poll.item? : Poll → Option Item
  | .item i => some i
  | _ => none

namespace Stream

/-- What a reading in progress will still give. -/
def ahead (s : Stream) : List Item := readChunks s.buffer (if s.exhausted then [] else s.input)

/-- A step gives the head of what is ahead and leaves the rest. -/
def Gives (ahead : List Item) (step : Poll × Stream) : Prop :=
  match step.1 with
  | .item i => ahead = i :: step.2.ahead
  | .pending => ahead = step.2.ahead
  | .finished => ahead = []

theorem flush_gives {buffer : List UInt8} (h : takeBlock? buffer = none) (input : List Chunk) :
    Gives (readChunks buffer []) (flush buffer input) := by
  have hread : readChunks buffer [] = (lastItem? buffer).toList := by
    rw [readChunks, endedItems, cutBlocks_of_none h]
    rfl
  unfold flush
  cases hlast : lastItem? buffer with
  | none =>
      show readChunks buffer [] = []
      rw [hread, hlast]
      rfl
  | some i =>
      show readChunks buffer [] = i :: readChunks [] []
      rw [hread, hlast]
      rfl

theorem pull_gives {input : List Chunk} : ∀ {buffer : List UInt8}, takeBlock? buffer = none →
    Gives (readChunks buffer input) (pull buffer input) := by
  induction input with
  | nil => exact fun h => flush_gives h []
  | cons c input ih =>
      intro buffer h
      cases c with
      | pending => exact rfl
      | failure reason =>
          show readChunks buffer (.failure reason :: input) =
            interruption reason :: readChunks buffer input
          rw [readChunks, endedItems, cutBlocks_of_none h]
          rfl
      | bytes bs =>
          have hread := readChunks_takeItem (buffer ++ dropReturns bs) input
          show Gives (readChunks (buffer ++ dropReturns bs) input) _
          unfold pull
          split
          · next i rest htake =>
            rw [htake] at hread
            exact hread
          · next rest htake =>
            rw [htake] at hread
            rw [hread]
            exact ih (takeBlock?_takeItem htake)

theorem poll_gives (s : Stream) : Gives s.ahead s.poll := by
  have hread := readChunks_takeItem s.buffer (if s.exhausted then [] else s.input)
  unfold poll ahead
  rw [hread]
  cases htake : takeItem s.buffer with
  | mk item? rest =>
      cases item? with
      | some i => exact rfl
      | none =>
          have hnone := takeBlock?_takeItem htake
          cases hs : s.exhausted with
          | true => exact flush_gives hnone s.input
          | false => exact pull_gives hnone

/-- All the steps up to the end give what is ahead. -/
theorem items_eq_ahead (s : Stream) : s.items = s.ahead := by
  have hstep := poll_gives s
  fun_induction items s with
  | case1 s s' h =>
      rw [h] at hstep
      exact hstep.symm
  | case2 s s' h ih =>
      rw [h] at hstep
      exact (ih (poll_gives s')).trans hstep.symm
  | case3 s i s' h ih =>
      rw [h] at hstep
      rw [ih (poll_gives s')]
      exact hstep.symm

/-! ### The end of a run -/

/-- The end of a reading is where polling stays. -/
theorem poll_of_finished {s s' : Stream} (h : s.poll = (.finished, s')) :
    s'.poll = (.finished, s') := by
  have hflush : ∀ {buffer input}, flush buffer input = (.finished, s') →
      s' = ⟨[], true, input⟩ := by
    intro buffer input hf
    unfold flush at hf
    split at hf
    · cases hf
    · exact (Prod.mk.inj hf).2.symm
  have hpull : ∀ {input buffer}, pull buffer input = (.finished, s') →
      ∃ rest, s' = ⟨[], true, rest⟩ := by
    intro input
    induction input with
    | nil => exact fun hp => ⟨[], hflush hp⟩
    | cons c input ih =>
        intro buffer hp
        cases c with
        | pending => cases hp
        | failure reason => cases hp
        | bytes bs =>
            unfold pull at hp
            split at hp
            · cases hp
            · exact ih hp
  have hend : ∃ rest, s' = ⟨[], true, rest⟩ := by
    unfold poll at h
    split at h
    · cases h
    · split at h
      · exact ⟨s.input, hflush h⟩
      · exact hpull h
  obtain ⟨rest, rfl⟩ := hend
  simp [poll, takeItem, takeBlock?, flush, lastItem?]

theorem polls_of_finished {s : Stream} (h : s.poll = (.finished, s)) (n : Nat) :
    s.polls n = List.replicate n .finished := by
  induction n with
  | zero => rfl
  | succ n ih => rw [polls, h, List.replicate_succ, ih]

theorem polls_succ {s s' : Stream} {p : Poll} (h : s.poll = (p, s')) (n : Nat) :
    s.polls (n + 1) = p :: s'.polls n := by
  rw [polls, h]

/-- The first `n` steps are the run up to the end, and its items are as given. -/
structure EndsAfter (s : Stream) (n : Nat) (items : List Item) : Prop where
  before : .finished ∉ s.polls n
  items_eq : (s.polls n).filterMap Poll.item? = items
  after : ∀ m, s.polls (n + m) = s.polls n ++ List.replicate m .finished

theorem EndsAfter.step {s s' : Stream} {p : Poll} {n : Nat} {items : List Item}
    (h : s.poll = (p, s')) (hp : p ≠ .finished) (hend : s'.EndsAfter n items) :
    s.EndsAfter (n + 1) (p.item?.toList ++ items) := by
  obtain ⟨hmem, hitems, hstay⟩ := hend
  refine ⟨?_, ?_, fun m => ?_⟩
  · rw [polls_succ h, List.mem_cons, not_or]
    exact ⟨hp.symm, hmem⟩
  · rw [polls_succ h, List.filterMap_cons, hitems]
    cases p.item? <;> rfl
  · rw [show n + 1 + m = n + m + 1 by omega, polls_succ h, polls_succ h, hstay m]
    rfl

/-- A run comes to its end after finitely many steps, which give all items, and stays there. -/
theorem exists_endsAfter (s : Stream) : ∃ n, s.EndsAfter n s.items := by
  fun_induction items s with
  | case1 s s' h =>
      refine ⟨0, nofun, rfl, fun m => ?_⟩
      cases m with
      | zero => rfl
      | succ m =>
          rw [Nat.zero_add, polls_succ h, polls_of_finished (poll_of_finished h)]
          rfl
  | case2 s s' h ih =>
      obtain ⟨n, hend⟩ := ih
      exact ⟨n + 1, hend.step h nofun⟩
  | case3 s i s' h ih =>
      obtain ⟨n, hend⟩ := ih
      exact ⟨n + 1, hend.step h nofun⟩

end Stream

/-! ## Failures apart -/

/-- All bytes that chunks bring. -/
def bytesOf : List Chunk → List UInt8
  | [] => []
  | .bytes bs :: input => bs ++ bytesOf input
  | _ :: input => bytesOf input

/-- The reasons of all failures among chunks, in order. -/
def reasonsOf : List Chunk → List String
  | [] => []
  | .failure reason :: input => reason :: reasonsOf input
  | _ :: input => reasonsOf input

/-- Whether the item is a fault between here and the server. -/
def isNetworkFault : Item → Bool
  | .error (.network _) => true
  | _ => false

theorem isNetworkFault_of_block {block : List UInt8} {i : Item} (h : itemOfBlock? block = some i) :
    isNetworkFault i = false := by
  unfold itemOfBlock? at h
  split at h
  · obtain ⟨r, -, rfl⟩ := Option.map_eq_some_iff.mp h
    rfl
  · obtain rfl := Option.some.inj h
    rfl

theorem isNetworkFault_of_ended {bs : List UInt8} {i : Item} (h : i ∈ endedItems bs) :
    isNetworkFault i = false := by
  obtain ⟨block, -, hblock⟩ := List.mem_filterMap.mp h
  exact isNetworkFault_of_block hblock

theorem isNetworkFault_of_last {left : List UInt8} {i : Item} (h : lastItem? left = some i) :
    isNetworkFault i = false := by
  unfold lastItem? at h
  split at h
  · cases h
  · exact isNetworkFault_of_block h

/-- The items that are no faults of the network. -/
def quiet (items : List Item) : List Item := items.filter fun i => !isNetworkFault i

/-- The items that are faults of the network. -/
def loud (items : List Item) : List Item := items.filter isNetworkFault

theorem quiet_append (xs ys : List Item) : quiet (xs ++ ys) = quiet xs ++ quiet ys :=
  List.filter_append ..

theorem loud_append (xs ys : List Item) : loud (xs ++ ys) = loud xs ++ loud ys :=
  List.filter_append ..

theorem quiet_ended (bs : List UInt8) : quiet (endedItems bs) = endedItems bs :=
  List.filter_eq_self.mpr fun _ hi => by rw [isNetworkFault_of_ended hi]; rfl

theorem loud_ended (bs : List UInt8) : loud (endedItems bs) = [] :=
  List.filter_eq_nil_iff.mpr fun _ hi => by rw [isNetworkFault_of_ended hi]; exact nofun

theorem quiet_last (left : List UInt8) :
    quiet (lastItem? left).toList = (lastItem? left).toList := by
  cases h : lastItem? left with
  | none => rfl
  | some i => simp [quiet, isNetworkFault_of_last h]

theorem loud_last (left : List UInt8) : loud (lastItem? left).toList = [] := by
  cases h : lastItem? left with
  | none => rfl
  | some i => simp [loud, isNetworkFault_of_last h]

/-- Without the failures, the items are those of all bytes at once. -/
theorem quiet_readChunks (buffer : List UInt8) (input : List Chunk) :
    quiet (readChunks buffer input) =
      endedItems (buffer ++ dropReturns (bytesOf input)) ++
        (lastItem? (cutBlocks (buffer ++ dropReturns (bytesOf input))).2).toList := by
  induction input generalizing buffer with
  | nil => simp [readChunks, bytesOf, dropReturns, quiet_append, quiet_ended, quiet_last]
  | cons c input ih =>
      cases c with
      | pending => exact ih buffer
      | failure reason =>
          show quiet
              (endedItems buffer ++ interruption reason :: readChunks (cutBlocks buffer).2 input) =
            endedItems (buffer ++ dropReturns (bytesOf input)) ++
              (lastItem? (cutBlocks (buffer ++ dropReturns (bytesOf input))).2).toList
          have hcons : quiet (interruption reason :: readChunks (cutBlocks buffer).2 input) =
              quiet (readChunks (cutBlocks buffer).2 input) := rfl
          rw [quiet_append, quiet_ended, hcons, ih, endedItems_append buffer, left_append buffer,
            List.append_assoc]
      | bytes bs =>
          show quiet (readChunks (buffer ++ dropReturns bs) input) =
            endedItems (buffer ++ dropReturns (bs ++ bytesOf input)) ++
              (lastItem? (cutBlocks (buffer ++ dropReturns (bs ++ bytesOf input))).2).toList
          have hdrop : buffer ++ dropReturns (bs ++ bytesOf input) =
              buffer ++ dropReturns bs ++ dropReturns (bytesOf input) := by
            rw [dropReturns, List.filter_append, List.append_assoc]
            rfl
          rw [ih, hdrop]

/-- What chunks give up to a failure: it stands behind the items of the blocks that the bytes
before it end, and the reading goes on from what is left of them. -/
theorem readChunks_failure (buffer : List UInt8) (before after : List Chunk) (reason : String) :
    ∃ early, readChunks buffer (before ++ .failure reason :: after) =
        early ++ interruption reason ::
          readChunks (cutBlocks (buffer ++ dropReturns (bytesOf before))).2 after ∧
      quiet early = endedItems (buffer ++ dropReturns (bytesOf before)) ∧
      loud early = (reasonsOf before).map interruption := by
  induction before generalizing buffer with
  | nil =>
      refine ⟨endedItems buffer, ?_, ?_, loud_ended buffer⟩
      · simp [readChunks, bytesOf, dropReturns]
      · simp [bytesOf, dropReturns, quiet_ended]
  | cons c before ih =>
      cases c with
      | pending => exact ih buffer
      | failure reason' =>
          obtain ⟨early, hread, hquiet, hloud⟩ := ih (cutBlocks buffer).2
          refine ⟨endedItems buffer ++ interruption reason' :: early, ?_, ?_, ?_⟩
          · rw [List.cons_append, readChunks, hread, ← left_append buffer]
            simp [bytesOf]
          · have hcons : quiet (interruption reason' :: early) = quiet early := rfl
            rw [quiet_append, quiet_ended, hcons, hquiet, ← endedItems_append]
            rfl
          · have hcons : loud (interruption reason' :: early) =
                interruption reason' :: loud early := rfl
            rw [loud_append, loud_ended, hcons, hloud]
            rfl
      | bytes bs =>
          have hdrop : buffer ++ dropReturns (bytesOf (.bytes bs :: before)) =
              buffer ++ dropReturns bs ++ dropReturns (bytesOf before) := by
            rw [bytesOf, dropReturns, List.filter_append, List.append_assoc]
            rfl
          rw [hdrop]
          exact ih (buffer ++ dropReturns bs)

theorem loud_readChunks (buffer : List UInt8) (input : List Chunk) :
    loud (readChunks buffer input) = (reasonsOf input).map interruption := by
  induction input generalizing buffer with
  | nil => simp [readChunks, reasonsOf, loud_append, loud_ended, loud_last]
  | cons c input ih =>
      cases c with
      | pending => exact ih buffer
      | failure reason =>
          have hcons : loud (interruption reason :: readChunks (cutBlocks buffer).2 input) =
              interruption reason :: loud (readChunks (cutBlocks buffer).2 input) := rfl
          rw [readChunks, loud_append, loud_ended, hcons, ih]
          rfl
      | bytes bs => exact ih (buffer ++ dropReturns bs)

theorem itemsOfChunks_eq (input : List Chunk) : itemsOfChunks input = readChunks [] input :=
  Stream.items_eq_ahead (.ofChunks input)

theorem quiet_of_loud_nil {items : List Item} (h : loud items = []) : quiet items = items :=
  List.filter_eq_self.mpr fun i hi => by simpa using List.filter_eq_nil_iff.mp h i hi

/-- Without failures the items are those of the whole bytes. -/
theorem itemsOfChunks_undisturbed {input : List Chunk} (h : reasonsOf input = []) :
    itemsOfChunks input = readWhole (bytesOf input) := by
  have hloud := loud_readChunks [] input
  rw [h] at hloud
  rw [itemsOfChunks_eq, ← quiet_of_loud_nil hloud, quiet_readChunks]
  rfl

/-- Up to the first failure the items are those of the blocks that the bytes before it end. -/
theorem itemsOfChunks_interrupted {before : List Chunk} (h : reasonsOf before = [])
    (reason : String) (after : List Chunk) :
    ∃ late, itemsOfChunks (before ++ .failure reason :: after) =
      endedItems (dropReturns (bytesOf before)) ++ interruption reason :: late := by
  obtain ⟨early, hread, hquiet, hloud⟩ := readChunks_failure [] before after reason
  rw [h] at hloud
  rw [quiet_of_loud_nil hloud] at hquiet
  rw [itemsOfChunks_eq, hread, hquiet]
  exact ⟨_, rfl⟩

end JobHealth.Feed
