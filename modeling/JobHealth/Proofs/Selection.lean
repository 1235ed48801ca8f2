import JobHealth.Proofs.ListingOrder
/-!
# `JobHealth.Proofs.Selection` — which builds of a page are selected, and in which order

A page and a count determine one result, and the result can be said without
sorting anything.

| page and count                          | result                                    |
| :-------------------------------------- | :---------------------------------------- |
| a status is none of the six             | the first build that has such a status    |
| fewer completed builds than asked for   | how many were fetched, completed, asked for |
| otherwise                               | the front of the ranking, all of it for 0 |

The ranking of a page is the list of its completed builds in which ids do not
rise, and in which those of one id are the succeeded ones, in page order, and
then the failed ones, in page order.  A page has exactly one ranking, also if
its builds share ids.
-/

namespace JobHealth

/-! ## Statuses -/

/-- The build's status is one of the six. -/
def Build.Known (b : Build) : Prop :=
  b.status ∈ ["succeeded", "failed", "aborted", "errored", "pending", "started"]

/-- The build ran to an end of its own. -/
def Build.Completed (b : Build) : Prop := b.status = "succeeded" ∨ b.status = "failed"

instance (b : Build) : Decidable b.Completed := inferInstanceAs (Decidable (_ ∨ _))

theorem Status.ofWord?_eq_some_iff {w : String} {s : Status} : ofWord? w = some s ↔ w = s.word := by
  constructor
  · intro h
    exact (eq_of_beq (List.find?_some (p := fun s : Status => s.word == w) h)).symm
  · rintro rfl
    exact ofWord?_word s

theorem status?_eq_some_iff {b : Build} {s : Status} : b.status? = some s ↔ b.status = s.word :=
  Status.ofWord?_eq_some_iff

theorem known_iff {b : Build} : b.Known ↔ b.status?.isSome := by
  have hwords : ["succeeded", "failed", "aborted", "errored", "pending", "started"] =
      Status.all.map Status.word := rfl
  rw [Build.Known, hwords, List.mem_map, Option.isSome_iff_exists]
  refine exists_congr fun s => ?_
  rw [status?_eq_some_iff]
  exact ⟨fun h => h.2.symm, fun h => ⟨Status.mem_all s, h.symm⟩⟩

theorem withStatus_eq (s : Status) (page : List Build) :
    Selection.withStatus s page = page.filter fun b => b.status = s.word := by
  refine List.filter_congr fun b _ => ?_
  rw [Build.hasStatus, Bool.eq_iff_iff, beq_iff_eq, decide_eq_true_iff, status?_eq_some_iff]

/-! ## The completed builds of a page -/

/-- Two filters of which each element passes one at most give together what passes either. -/
theorem filter_or_perm {α : Type} {p q : α → Bool} (h : ∀ a, p a = true → q a = false)
    (xs : List α) : (xs.filter p ++ xs.filter q).Perm (xs.filter fun a => p a || q a) := by
  refine List.Perm.trans ?_ (List.filter_append_perm p (xs.filter fun a => p a || q a))
  rw [List.filter_filter, List.filter_filter]
  refine List.Perm.of_eq (congrArg₂ (· ++ ·) ?_ ?_)
  · refine List.filter_congr fun a _ => ?_
    cases p a <;> simp
  · refine List.filter_congr fun a _ => ?_
    cases hp : p a with
    | true => simp [h a hp]
    | false => simp

theorem completed_perm (page : List Build) :
    (Selection.completed page).Perm (page.filter fun b => b.Completed) := by
  refine (List.mergeSort_perm _ _).trans ?_
  rw [withStatus_eq, withStatus_eq]
  refine (filter_or_perm (fun b hb => ?_) page).trans (List.Perm.of_eq ?_)
  · rw [decide_eq_true_iff] at hb
    rw [hb]
    decide
  · refine List.filter_congr fun b _ => ?_
    rw [← Bool.decide_or]
    rfl

theorem length_completed (page : List Build) :
    (Selection.completed page).length = page.countP fun b => b.Completed := by
  rw [(completed_perm page).length_eq, List.countP_eq_length_filter]

/-! ## The ranking -/

/-- The completed builds of a page from the highest id down; of those with one id the succeeded
ones come first, and both kinds stay in page order. -/
structure Ranking (page ranked : List Build) : Prop where
  descending : ranked.Pairwise fun a b => b.id ≤ a.id
  same_id : ∀ id, ranked.filter (fun b => b.id = id) =
    page.filter (fun b => b.id = id ∧ b.status = "succeeded") ++
      page.filter fun b => b.id = id ∧ b.status = "failed"

/-- Sorting by id keeps the order of the builds that share one. -/
theorem filter_byRecency (builds : List Build) (id : UInt64) :
    (Build.byRecency builds).filter (fun b => b.id = id) = builds.filter fun b => b.id = id := by
  have hsorted : (builds.filter fun b => b.id = id).Pairwise
      fun a b => decide (b.id ≤ a.id) = true := by
    refine List.pairwise_of_forall_mem_list fun a ha b hb => ?_
    have ha' := of_decide_eq_true (List.mem_filter.mp ha).2
    have hb' := of_decide_eq_true (List.mem_filter.mp hb).2
    rw [ha', hb', decide_eq_true_iff]
    exact UInt64.le_refl id
  -- A sorted sublist is a sublist of the sorted list, and here none of its kind is missing.
  have hsub : (builds.filter fun b => b.id = id).Sublist (Build.byRecency builds) :=
    List.sublist_mergeSort recency_trans recency_total hsorted List.filter_sublist
  have hsub' := hsub.filter fun b => decide (b.id = id)
  rw [List.filter_filter] at hsub'
  simp only [Bool.and_self] at hsub'
  refine (hsub'.eq_of_length ?_).symm
  exact ((List.mergeSort_perm builds _).filter _).length_eq.symm

theorem ranking_completed (page : List Build) : Ranking page (Selection.completed page) where
  descending := byRecency_pairwise _
  same_id id := by
    rw [Selection.completed, filter_byRecency, List.filter_append, withStatus_eq, withStatus_eq,
      List.filter_filter, List.filter_filter]
    refine congrArg₂ (· ++ ·) ?_ ?_
    · refine List.filter_congr fun b _ => ?_
      rw [Bool.decide_and]
      rfl
    · refine List.filter_congr fun b _ => ?_
      rw [Bool.decide_and]
      rfl

/-- Lists in which ids do not rise are equal if they have the same builds of each id, in the same
order. -/
theorem eq_of_descending {xs ys : List Build} (hx : xs.Pairwise fun a b => b.id ≤ a.id)
    (hy : ys.Pairwise fun a b => b.id ≤ a.id)
    (h : ∀ id, xs.filter (fun b => b.id = id) = ys.filter fun b => b.id = id) : xs = ys := by
  induction xs generalizing ys with
  | nil =>
      cases ys with
      | nil => rfl
      | cons y ys => simpa using h y.id
  | cons x xs ih =>
      cases ys with
      | nil => simpa using h x.id
      | cons y ys =>
          obtain ⟨hx_le, hxs⟩ := List.pairwise_cons.mp hx
          obtain ⟨hy_le, hys⟩ := List.pairwise_cons.mp hy
          have hmem : ∀ b, b ∈ x :: xs ↔ b ∈ y :: ys := by
            intro b
            have hb : b ∈ (x :: xs).filter (fun c => c.id = b.id) ↔
                b ∈ (y :: ys).filter fun c => c.id = b.id := by rw [h b.id]
            simpa only [List.mem_filter, decide_true, and_true] using hb
          have hid : x.id = y.id := by
            refine UInt64.le_antisymm ?_ ?_
            · rcases List.mem_cons.mp ((hmem x).mp List.mem_cons_self) with rfl | hmem
              · exact UInt64.le_refl _
              · exact hy_le x hmem
            · rcases List.mem_cons.mp ((hmem y).mpr List.mem_cons_self) with rfl | hmem
              · exact UInt64.le_refl _
              · exact hx_le y hmem
          have hhead := h x.id
          rw [List.filter_cons_of_pos (by simp), List.filter_cons_of_pos (by simp [hid])] at hhead
          obtain rfl : x = y := (List.cons.inj hhead).1
          refine congrArg (x :: ·) (ih hxs hys fun id => ?_)
          have hrest := h id
          rw [List.filter_cons, List.filter_cons] at hrest
          split at hrest
          · exact (List.cons.inj hrest).2
          · exact hrest

theorem Ranking.eq_completed {page ranked : List Build} (h : Ranking page ranked) :
    ranked = Selection.completed page := by
  have hcompleted := ranking_completed page
  refine eq_of_descending h.descending hcompleted.descending fun id => ?_
  rw [h.same_id, hcompleted.same_id]

/-! ## The result -/

/-- What comes of asking for `count` completed builds of a page. -/
inductive Selects (page : List Build) (count : Nat) : Except Fault Selection → Prop
  /-- The first build whose status is none of the six. -/
  | unknown {front back : List Build} {b : Build} : page = front ++ b :: back →
      (∀ a ∈ front, a.Known) → ¬ b.Known →
      Selects page count (.error (.unknownStatus b.name b.status))
  | tooFew {completed : Nat} : (∀ b ∈ page, b.Known) →
      completed = page.countP (fun b => b.Completed) → 0 < count → completed < count →
      Selects page count (.error (.tooFewCompleted page.length completed count))
  | all {ranked : List Build} : (∀ b ∈ page, b.Known) → Ranking page ranked → count = 0 →
      Selects page count (.ok ⟨ranked⟩)
  | front {ranked : List Build} : (∀ b ∈ page, b.Known) → Ranking page ranked → 0 < count →
      count ≤ page.countP (fun b => b.Completed) →
      Selects page count (.ok ⟨ranked.take count⟩)

theorem statusesKnown_iff {page : List Build} : StatusesKnown page ↔ ∀ b ∈ page, b.Known :=
  forall₂_congr fun _ _ => known_iff.symm

theorem unknown?_eq_some_iff {page : List Build} {b : Build} :
    Selection.unknown? page = some b ↔
      ∃ front back, page = front ++ b :: back ∧ (∀ a ∈ front, a.Known) ∧ ¬ b.Known := by
  rw [Selection.unknown?, List.find?_eq_some_iff_append]
  simp only [known_iff, Option.isNone_iff_eq_none, Option.not_isSome_iff_eq_none]
  constructor
  · rintro ⟨hb, front, back, hpage, hfront⟩
    exact ⟨front, back, hpage, fun a ha => by simpa using hfront a ha, hb⟩
  · rintro ⟨front, back, hpage, hfront, hb⟩
    exact ⟨hb, front, back, hpage, fun a ha => by simpa using hfront a ha⟩

theorem ofPage_of_known {page : List Build} (h : ∀ b ∈ page, b.Known) (count : Nat) :
    Selection.ofPage page count =
      if (Selection.completed page).length < count then
        .error (.tooFewCompleted page.length (Selection.completed page).length count)
      else .ok ⟨Selection.front count (Selection.completed page)⟩ := by
  rw [Selection.ofPage, unknown?_eq_none (statusesKnown_iff.mpr h)]

/-- A page and a count have a result. -/
theorem selects_ofPage (page : List Build) (count : Nat) :
    Selects page count (Selection.ofPage page count) := by
  cases hunknown : Selection.unknown? page with
  | some b =>
      obtain ⟨front, back, hpage, hfront, hb⟩ := unknown?_eq_some_iff.mp hunknown
      rw [Selection.ofPage, hunknown]
      exact .unknown hpage hfront hb
  | none =>
      have hknown : ∀ b ∈ page, b.Known := by
        intro b hb
        rw [known_iff, Option.isSome_iff_ne_none]
        simpa using List.find?_eq_none.mp hunknown b hb
      have hranking := ranking_completed page
      rw [ofPage_of_known hknown, length_completed]
      split
      · next hfew => exact .tooFew hknown rfl (Nat.zero_lt_of_lt hfew) hfew
      · next henough =>
        rw [Selection.front]
        split
        · next hcount => exact .all hknown hranking hcount
        · next hcount =>
          exact .front hknown hranking (Nat.pos_of_ne_zero hcount) (Nat.not_lt.mp henough)

/-- The result of a page and a count is the only one. -/
theorem ofPage_of_selects {page : List Build} {count : Nat} {result : Except Fault Selection}
    (h : Selects page count result) : Selection.ofPage page count = result := by
  cases h with
  | @unknown front back b hpage hfront hb =>
      have hunknown := unknown?_eq_some_iff.mpr ⟨front, back, hpage, hfront, hb⟩
      rw [Selection.ofPage, hunknown]
  | tooFew hknown hcompleted _ hfew =>
      subst hcompleted
      rw [ofPage_of_known hknown, length_completed, if_pos hfew]
  | all hknown hranking hcount =>
      rw [ofPage_of_known hknown, hranking.eq_completed, hcount, if_neg (Nat.not_lt_zero _)]
      rfl
  | front hknown hranking hcount henough =>
      rw [ofPage_of_known hknown, hranking.eq_completed, length_completed,
        if_neg (Nat.not_lt.mpr henough), Selection.front, if_neg (Nat.ne_of_gt hcount)]

/-- The builds left over behind the front of a list. -/
theorem front_append_back (count : Nat) (builds : List Build) :
    ∃ back, Selection.front count builds ++ back = builds := by
  rw [Selection.front]
  split
  · exact ⟨[], List.append_nil _⟩
  · exact ⟨builds.drop count, List.take_append_drop _ _⟩

theorem length_front {count : Nat} {builds : List Build} (h : count ≤ builds.length) :
    (Selection.front count builds).length = if count = 0 then builds.length else count := by
  rw [Selection.front]
  split
  · rfl
  · exact List.length_take_of_le h

/-- Where builds are selected, there are as many completed ones as were asked for. -/
theorem enough_of_ofPage {page : List Build} {count : Nat} {selection : Selection}
    (h : Selection.ofPage page count = .ok selection) :
    count ≤ page.countP fun b => b.Completed := by
  have hselects := selects_ofPage page count
  rw [h] at hselects
  cases hselects with
  | all _ _ hcount =>
      rw [hcount]
      exact Nat.zero_le _
  | front _ _ _ henough => exact henough

/-- A page and a count have exactly one result: the first build with a status that is none of the
six, too few completed builds, or the front of the ranking.  A selection and the builds left over
are together the completed builds of the page, and none of those left over has a higher id than one
that is selected. -/
theorem selection_from_ranking (page : List Build) (count : Nat) :
    (∀ result, Selection.ofPage page count = result ↔ Selects page count result) ∧
    ∀ selection, Selection.ofPage page count = .ok selection →
      (∀ b ∈ selection.builds, b ∈ page) ∧
      (selection.builds.Pairwise fun a b => b.id ≤ a.id) ∧
      selection.builds.length =
        (if count = 0 then page.countP (fun b => b.Completed) else count) ∧
      ∃ unselected, (selection.builds ++ unselected).Perm (page.filter fun b => b.Completed) ∧
        ∀ a ∈ selection.builds, ∀ b ∈ unselected, b.id ≤ a.id := by
  refine ⟨fun result => ⟨fun h => h ▸ selects_ofPage page count, ofPage_of_selects⟩, ?_⟩
  intro selection h
  obtain ⟨unselected, hranked⟩ := front_append_back count (Selection.completed page)
  rw [← ofPage_eq_ok h] at hranked
  have hperm := completed_perm page
  have hdescending := byRecency_pairwise
    (Selection.withStatus .succeeded page ++ Selection.withStatus .failed page)
  rw [← Selection.completed, ← hranked] at hdescending
  rw [← hranked] at hperm
  obtain ⟨hselected, -, hborder⟩ := List.pairwise_append.mp hdescending
  refine ⟨fun b hb => ?_, hselected, ?_, unselected, hperm, hborder⟩
  · exact (List.mem_filter.mp (hperm.mem_iff.mp (List.mem_append_left _ hb))).1
  · have henough := enough_of_ofPage h
    rw [← length_completed] at henough
    rw [ofPage_eq_ok h, length_front henough, length_completed]

/-- Three completed builds of which two share an id: the succeeded one of the two is selected before
the failed one, which stands first on the page. -/
theorem selection_with_shared_id :
    let build (id : UInt64) (name status : String) : Build :=
      ⟨id, name, status, "/api/v1/builds/" ++ name, "main", "develop", "UnitTest"⟩
    let page := [build 7 "1" "failed", build 9 "3" "succeeded", build 7 "2" "succeeded",
      build 8 "4" "pending"]
    let selected := [build 9 "3" "succeeded", build 7 "2" "succeeded"]
    Selects page 2 (.ok ⟨selected⟩) ∧
      ∃ unselected, (selected ++ unselected).Perm (page.filter fun b => b.Completed) ∧
        ∀ a ∈ selected, ∀ b ∈ unselected, b.id ≤ a.id := by
  intro build page selected
  have hcompleted : Selection.completed page = selected ++ [build 7 "1" "failed"] :=
    List.mergeSort_of_pairwise (by decide +kernel)
  have hresult : Selection.ofPage page 2 = .ok ⟨selected⟩ := by
    rw [Selection.ofPage, hcompleted]
    rfl
  obtain ⟨hiff, hleft⟩ := selection_from_ranking page 2
  exact ⟨(hiff _).mp hresult, (hleft _ hresult).2.2.2⟩

end JobHealth
