import Mathlib.Algebra.BigOperators.Group.List.Lemmas
import Mathlib.Algebra.Ring.Nat
import Mathlib.Data.Finset.Card
import JobHealth.Proofs.Log.Tally
/-!
# `JobHealth.Proofs.Log.Grouping` — what is listed after any pushes

Pushes come in any order, of tests that are listed already and of new ones, and
after all of them the failures are what these pushes are when they are grouped
by test.  Nothing of this looks at how a push is made:

| of the failures   | after pushes                                              |
| :---------------- | :-------------------------------------------------------- |
| the index         | each listed test once, with the place at which it stands  |
| the listed tests  | the pushed ones, each once, by the place of their first push |
| a test's builds   | those pushed under it, in order, repeats kept             |
| all lists         | as long together as there were pushes                     |
-/

namespace JobHealth.Log

/-! ## Texts without repeats -/

/-- Without repeats, texts stand in the order of their first occurrence. -/
theorem eraseDups_pairwise (tests : List String) :
    tests.eraseDups.Pairwise fun s t => tests.idxOf s < tests.idxOf t := by
  induction tests using List.reverseRecOn with
  | nil => exact List.Pairwise.nil
  | append_singleton tests test ih =>
      have hold : (tests.eraseDups).Pairwise fun s t =>
          (tests ++ [test]).idxOf s < (tests ++ [test]).idxOf t := by
        refine ih.imp_of_mem fun {s t} hs ht hlt => ?_
        rw [List.idxOf_append_of_mem (List.mem_eraseDups.mp hs),
          List.idxOf_append_of_mem (List.mem_eraseDups.mp ht)]
        exact hlt
      rw [List.eraseDups_append]
      by_cases hmem : test ∈ tests
      · have hnone : [test].removeAll tests = [] := by simp [List.removeAll, hmem]
        rw [hnone, List.eraseDups_nil, List.append_nil]
        exact hold
      · have hnew : ([test].removeAll tests).eraseDups = [test] := by
          simp [List.removeAll, hmem, List.eraseDups_cons]
        rw [hnew, List.pairwise_append]
        refine ⟨hold, List.pairwise_singleton _ _, fun s hs t ht => ?_⟩
        obtain rfl := List.mem_singleton.mp ht
        have hs' : s ∈ tests := List.mem_eraseDups.mp hs
        rw [List.idxOf_append_of_mem hs', List.idxOf_append_of_notMem hmem]
        exact Nat.lt_add_right _ (List.idxOf_lt_length_of_mem hs')

theorem length_buildsNaming (test : String) (pushes : List Naming) :
    (buildsNaming test pushes).length = (pushes.map Prod.fst).count test := by
  rw [buildsNaming, List.length_map, ← List.countP_eq_length_filter, List.count, List.countP_map]
  rfl

/-- Grouping loses no naming and adds none. -/
theorem sum_length_grouped (pushes : List Naming) :
    ((grouped pushes).map fun entry => entry.2.length).sum = pushes.length := by
  have hperm : (pushes.map Prod.fst).eraseDups.Perm (pushes.map Prod.fst).dedup := by
    refine (List.perm_ext_iff_of_nodup (nodup_eraseDups _) (List.nodup_dedup _)).mpr fun test => ?_
    rw [List.mem_eraseDups, List.mem_dedup]
  have hlengths : (grouped pushes).map (fun entry => entry.2.length) =
      (pushes.map Prod.fst).eraseDups.map fun test => (pushes.map Prod.fst).count test := by
    rw [grouped, List.map_map]
    exact List.map_congr_left fun test _ => length_buildsNaming test pushes
  rw [hlengths, (hperm.map _).sum_eq, List.sum_map_count_dedup_eq_length, List.length_map]

namespace Failures

/-! ## The index -/

/-- The index has the tests as they stand, the last one in front. -/
def Listed (f : Failures) : Prop := f.index = f.tests.zipIdx.reverse

theorem Listed.push {f : Failures} (h : f.Listed) (test : String) (build : Build) :
    (f.push test build).Listed := by
  cases hpos : f.position? test with
  | some place =>
      show (f.push test build).index = (f.push test build).tests.zipIdx.reverse
      rw [tests_push_of_some hpos, ← h, push_of_some hpos]
  | none =>
      have htests : (f.push test build).tests = f.tests ++ [test] := by
        rw [push_of_none hpos]
        exact List.map_append
      have hlength : f.entries.length = f.tests.length := (List.length_map _).symm
      show (f.push test build).index = (f.push test build).tests.zipIdx.reverse
      rw [htests, List.zipIdx_append, List.reverse_append, ← h, push_of_none hpos, hlength,
        Nat.zero_add]
      rfl

theorem Listed.pushAll {f : Failures} (h : f.Listed) (pushes : List Naming) :
    (f.pushAll pushes).Listed := by
  induction pushes generalizing f with
  | nil => exact h
  | cons naming pushes ih => exact ih (h.push naming.1 naming.2)

theorem Listed.mem_index_iff {f : Failures} (h : f.Listed) {test : String} {place : Nat} :
    (test, place) ∈ f.index ↔ f.tests[place]? = some test := by
  rw [h, List.mem_reverse, List.mk_mem_zipIdx_iff_getElem?]

theorem Listed.keys_index {f : Failures} (h : f.Listed) :
    f.index.map Prod.fst = f.tests.reverse := by
  rw [h, List.map_reverse, List.zipIdx_map_fst]

/-! ## Looking a test up -/

theorem getElem?_tests_eq_some_iff {f : Failures} {test : String} {place : Nat} :
    f.tests[place]? = some test ↔ ∃ builds, f.entries[place]? = some (test, builds) := by
  rw [tests, List.getElem?_map, Option.map_eq_some_iff]
  constructor
  · rintro ⟨⟨test', builds⟩, hentry, rfl⟩
    exact ⟨builds, hentry⟩
  · rintro ⟨builds, hentry⟩
    exact ⟨(test, builds), hentry, rfl⟩

/-- A look-up finds the entry of the test. -/
theorem Indexed.get?_eq_some_iff {f : Failures} (h : f.Indexed) {test : String}
    {builds : List Build} : f.get? test = some builds ↔ (test, builds) ∈ f.entries := by
  rw [get?, Option.bind_eq_some_iff]
  constructor
  · rintro ⟨place, hplace, hbuilds⟩
    obtain ⟨builds', hentry⟩ := getElem?_tests_eq_some_iff.mp ((h.agree test place).mp hplace)
    rw [hentry] at hbuilds
    obtain rfl : builds' = builds := Option.some.inj hbuilds
    exact List.mem_of_getElem? hentry
  · intro hmem
    obtain ⟨place, hentry⟩ := List.getElem?_of_mem hmem
    have htest := getElem?_tests_eq_some_iff.mpr ⟨builds, hentry⟩
    exact ⟨place, (h.agree test place).mpr htest, by rw [hentry]; rfl⟩

/-- A look-up finds nothing exactly if the test is not listed. -/
theorem Indexed.get?_eq_none_iff {f : Failures} (h : f.Indexed) {test : String} :
    f.get? test = none ↔ test ∉ f.tests := by
  rw [Option.eq_none_iff_forall_ne_some]
  constructor
  · intro hnone hmem
    obtain ⟨⟨test', builds⟩, hentry, rfl⟩ := List.mem_map.mp hmem
    exact hnone builds (h.get?_eq_some_iff.mpr hentry)
  · intro hmem builds hsome
    exact hmem (List.mem_map.mpr ⟨(test, builds), h.get?_eq_some_iff.mp hsome, rfl⟩)

/-! ## After any pushes -/

/-- Failures are what pushes come to when they are grouped by test. -/
structure Groups (f : Failures) (pushes : List Naming) : Prop where
  index_iff : ∀ test place, (test, place) ∈ f.index ↔ f.tests[place]? = some test
  /-- No test is in the index twice. -/
  index_nodup : (f.index.map Prod.fst).Nodup
  index_keys : ∀ test, test ∈ f.index.map Prod.fst ↔ test ∈ f.tests
  tests_nodup : f.tests.Nodup
  position?_iff : ∀ test place, f.position? test = some place ↔ f.tests[place]? = some test
  /-- A place that is looked up is that of the test's own entry. -/
  in_range : ∀ test place, f.position? test = some place →
    ∃ builds, f.entries[place]? = some (test, builds)
  get?_of_pushed : ∀ test, test ∈ pushes.map Prod.fst →
    f.get? test = some (buildsNaming test pushes)
  get?_of_not_pushed : ∀ test, test ∉ pushes.map Prod.fst → f.get? test = none
  mem_tests : ∀ test, test ∈ f.tests ↔ test ∈ pushes.map Prod.fst
  /-- The tests stand in the order of their first pushes. -/
  by_first_push : f.tests.Pairwise fun s t =>
    (pushes.map Prod.fst).idxOf s < (pushes.map Prod.fst).idxOf t
  entries_iff : ∀ test builds, (test, builds) ∈ f.entries ↔ f.get? test = some builds
  size_eq : f.size = (pushes.map Prod.fst).toFinset.card
  sum_eq : (f.entries.map fun entry => entry.2.length).sum = pushes.length

/-- Whatever is pushed in whatever order, the failures are the pushes grouped by test, and the
index has the place of each of them. -/
theorem groups_pushAll (pushes : List Naming) : (empty.pushAll pushes).Groups pushes := by
  have hnone : empty.entries = grouped [] := rfl
  obtain ⟨hindexed, hentries⟩ := indexed_empty.pushAll hnone pushes
  have hlisted : (empty.pushAll pushes).Listed := Listed.pushAll (f := empty) rfl pushes
  rw [List.nil_append] at hentries
  have htests : (empty.pushAll pushes).tests = (pushes.map Prod.fst).eraseDups := by
    rw [tests, hentries, grouped_map_fst]
  have hmem : ∀ test, test ∈ (empty.pushAll pushes).tests ↔ test ∈ pushes.map Prod.fst :=
    fun test => by rw [htests, List.mem_eraseDups]
  have hnodup : (empty.pushAll pushes).tests.Nodup := htests ▸ nodup_eraseDups _
  refine
    { index_iff := fun _ _ => hlisted.mem_index_iff
      index_nodup := ?index_nodup
      index_keys := fun test => by rw [hlisted.keys_index, List.mem_reverse]
      tests_nodup := hnodup
      position?_iff := hindexed.agree
      in_range := fun test place h =>
        getElem?_tests_eq_some_iff.mp ((hindexed.agree test place).mp h)
      get?_of_pushed := ?get?_of_pushed
      get?_of_not_pushed := fun test h => hindexed.get?_eq_none_iff.mpr (mt (hmem test).mp h)
      mem_tests := hmem
      by_first_push := htests ▸ eraseDups_pairwise _
      entries_iff := fun _ _ => hindexed.get?_eq_some_iff.symm
      size_eq := ?size_eq
      sum_eq := by rw [hentries, sum_length_grouped] }
  case index_nodup =>
    rw [hlisted.keys_index]
    exact List.nodup_reverse.mpr hnodup
  case get?_of_pushed =>
    intro test h
    refine hindexed.get?_eq_some_iff.mpr ?_
    rw [hentries]
    exact List.mem_map.mpr ⟨test, List.mem_eraseDups.mpr h, rfl⟩
  case size_eq =>
    have hsame : (pushes.map Prod.fst).toFinset = (empty.pushAll pushes).tests.toFinset := by
      ext test
      rw [List.mem_toFinset, List.mem_toFinset, hmem]
    rw [hsame, List.toFinset_card_of_nodup hnodup]
    exact (List.length_map _).symm

end Failures

end JobHealth.Log
