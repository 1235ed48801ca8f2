import JobHealth.Log.Tally
/-!
# `JobHealth.Proofs.Log.Failures` — the entries and their index stay in step

A push looks a test up in the index and then changes the entries at the place
it was told, so the two have to agree at every moment: `Indexed` says that the
index holds a test at a place exactly when the entries do.  Every push keeps
this, and under it a push does to the entries what appending one naming does to
a list of namings that is grouped by test.
-/

namespace JobHealth.Log

/-- A test that a log line names as failed, with the build of the log. -/
abbrev Naming := String × Build

/-- The builds whose lines name a test, once per line, in order. -/
def buildsNaming (test : String) (namings : List Naming) : List Build :=
  (namings.filter fun naming => naming.1 == test).map Prod.snd

/-- Namings by test: the tests in the order in which they were first named, each with its builds. -/
def grouped (namings : List Naming) : List (String × List Build) :=
  (namings.map Prod.fst).eraseDups.map fun test => (test, buildsNaming test namings)

theorem grouped_map_fst (namings : List Naming) :
    (grouped namings).map Prod.fst = (namings.map Prod.fst).eraseDups := by
  rw [grouped, List.map_map]
  exact List.map_id _

theorem buildsNaming_append (test : String) (xs ys : List Naming) :
    buildsNaming test (xs ++ ys) = buildsNaming test xs ++ buildsNaming test ys := by
  rw [buildsNaming, List.filter_append, List.map_append]
  rfl

theorem buildsNaming_same (test : String) (build : Build) :
    buildsNaming test [(test, build)] = [build] := by
  simp [buildsNaming]

theorem buildsNaming_other {test other : String} (h : other ≠ test) (build : Build) :
    buildsNaming test [(other, build)] = [] := by
  simp [buildsNaming, h]

theorem buildsNaming_of_not_mem {test : String} {namings : List Naming}
    (h : test ∉ namings.map Prod.fst) : buildsNaming test namings = [] := by
  rw [buildsNaming, List.map_eq_nil_iff, List.filter_eq_nil_iff]
  intro naming hmem heq
  exact h (List.mem_map.mpr ⟨naming, hmem, by simpa using heq⟩)

namespace Failures

/-- The index holds a test at a place exactly when the entries do. -/
structure Indexed (f : Failures) : Prop where
  agree : ∀ test place, f.position? test = some place ↔ f.tests[place]? = some test

theorem indexed_empty : Failures.empty.Indexed := ⟨by simp [empty, position?, tests]⟩

theorem Indexed.not_mem {f : Failures} (h : f.Indexed) {test : String}
    (hnone : f.position? test = none) : test ∉ f.tests := by
  intro hmem
  obtain ⟨place, hplace⟩ := List.getElem?_of_mem hmem
  rw [(h.agree test place).mpr hplace] at hnone
  cases hnone

/-- A test stands at one place only. -/
theorem Indexed.place_eq {f : Failures} (h : f.Indexed) {test : String} {i j : Nat}
    (hi : f.tests[i]? = some test) (hj : f.tests[j]? = some test) : i = j := by
  have := (h.agree test i).mpr hi
  rw [(h.agree test j).mpr hj] at this
  exact (Option.some.inj this).symm

theorem push_of_some {f : Failures} {test : String} {place : Nat}
    (h : f.position? test = some place) (build : Build) :
    f.push test build =
      { f with entries := f.entries.modify place fun (t, builds) => (t, builds ++ [build]) } := by
  rw [push, h]

theorem push_of_none {f : Failures} {test : String} (h : f.position? test = none) (build : Build) :
    f.push test build = ⟨f.entries ++ [(test, [build])], (test, f.entries.length) :: f.index⟩ := by
  rw [push, h]

theorem tests_push_of_some {f : Failures} {test : String} {place : Nat}
    (h : f.position? test = some place) (build : Build) : (f.push test build).tests = f.tests := by
  rw [push_of_some h, tests, tests]
  apply List.ext_getElem?
  intro i
  rw [List.getElem?_map, List.getElem?_map]
  by_cases hi : place = i
  · subst hi
    rw [List.getElem?_modify_eq]
    cases f.entries[place]? <;> rfl
  · rw [List.getElem?_modify_ne _ _ hi]

theorem Indexed.push {f : Failures} (h : f.Indexed) (test : String) (build : Build) :
    (f.push test build).Indexed := by
  cases hpos : f.position? test with
  | some place =>
      refine ⟨fun test' place' => ?_⟩
      rw [tests_push_of_some hpos, ← h.agree, push_of_some hpos]
      rfl
  | none =>
      refine ⟨fun test' place' => ?_⟩
      rw [push_of_none hpos]
      have htests : (Failures.mk (f.entries ++ [(test, [build])])
          ((test, f.entries.length) :: f.index)).tests = f.tests ++ [test] := by
        simp [tests]
      have hlength : f.entries.length = f.tests.length := by simp [tests]
      rw [htests, position?, List.lookup_cons]
      by_cases heq : test' = test
      · subst heq
        rw [beq_self_eq_true, hlength]
        constructor
        · intro hplace
          obtain rfl := Option.some.inj hplace
          simp
        · intro hplace
          by_cases hlt : place' < f.tests.length
          · rw [List.getElem?_append_left hlt] at hplace
            rw [(h.agree test' place').mpr hplace] at hpos
            cases hpos
          · rw [List.getElem?_append_right (by omega)] at hplace
            have := List.getElem?_eq_some_iff.mp hplace
            obtain ⟨hlt', -⟩ := this
            simp only [List.length_cons, List.length_nil] at hlt'
            rw [show place' = f.tests.length by omega]
      · have hne : (test' == test) = false := by simpa using heq
        rw [hne]
        show f.position? test' = some place' ↔ _
        rw [h.agree]
        by_cases hlt : place' < f.tests.length
        · rw [List.getElem?_append_left hlt]
        · rw [List.getElem?_append_right (by omega), List.getElem?_eq_none (by omega)]
          constructor
          · exact nofun
          · intro hplace
            obtain ⟨hlt', htest⟩ := List.getElem?_eq_some_iff.mp hplace
            simp only [List.getElem_singleton] at htest
            exact absurd htest.symm heq

/-- A push groups one more naming. -/
theorem Indexed.entries_push {f : Failures} (h : f.Indexed) {namings : List Naming}
    (hentries : f.entries = grouped namings) (test : String) (build : Build) :
    (f.push test build).entries = grouped (namings ++ [(test, build)]) := by
  have htests : f.tests = (namings.map Prod.fst).eraseDups := by
    rw [tests, hentries, grouped_map_fst]
  cases hpos : f.position? test with
  | some place =>
      have hplace : f.tests[place]? = some test := (h.agree test place).mp hpos
      have hmem : test ∈ namings.map Prod.fst := by
        rw [← List.mem_eraseDups, ← htests]
        exact List.mem_of_getElem? hplace
      have hdups : ((namings ++ [(test, build)]).map Prod.fst).eraseDups = f.tests := by
        rw [List.map_append, List.eraseDups_append, htests]
        simp [List.removeAll, hmem]
      rw [push_of_some hpos, grouped, hdups]
      apply List.ext_getElem?
      intro i
      by_cases heq : place = i
      · subst heq
        rw [List.getElem?_modify_eq, hentries, grouped, ← htests, List.getElem?_map,
          List.getElem?_map, hplace]
        simp only [Option.map_some, buildsNaming_append, buildsNaming_same]
        rfl
      · rw [List.getElem?_modify_ne _ _ heq, hentries, grouped, ← htests, List.getElem?_map,
          List.getElem?_map]
        cases hi : f.tests[i]? with
        | none => rfl
        | some other =>
            have hne : test ≠ other := by
              rintro rfl
              exact heq (h.place_eq hplace hi)
            simp only [Option.map_some, buildsNaming_append, buildsNaming_other hne,
              List.append_nil]
  | none =>
      have hmem : test ∉ namings.map Prod.fst := by
        rw [← List.mem_eraseDups, ← htests]
        exact h.not_mem hpos
      have hdups : ((namings ++ [(test, build)]).map Prod.fst).eraseDups = f.tests ++ [test] := by
        rw [List.map_append, List.eraseDups_append, htests]
        simp [List.removeAll, hmem, List.eraseDups_cons]
      have hold : (f.tests.map fun other => (other, buildsNaming other (namings ++ [(test, build)])))
          = f.tests.map fun other => (other, buildsNaming other namings) := by
        apply List.map_congr_left
        intro other hother
        have hne : test ≠ other := by
          rintro rfl
          exact h.not_mem hpos hother
        rw [buildsNaming_append, buildsNaming_other hne, List.append_nil]
      rw [grouped, hdups, List.map_append, hold, List.map_singleton, buildsNaming_append,
        buildsNaming_of_not_mem hmem, buildsNaming_same, push_of_none hpos]
      show f.entries ++ [(test, [build])] = _
      rw [hentries, grouped, ← htests]
      rfl

/-- Pushes all namings in order. -/
def pushAll (f : Failures) (namings : List Naming) : Failures :=
  namings.foldl (fun f (test, build) => f.push test build) f

theorem pushAll_append (f : Failures) (xs ys : List Naming) :
    f.pushAll (xs ++ ys) = (f.pushAll xs).pushAll ys := List.foldl_append

theorem Indexed.pushAll {f : Failures} (h : f.Indexed) {done : List Naming}
    (hentries : f.entries = grouped done) (namings : List Naming) :
    (f.pushAll namings).Indexed ∧ (f.pushAll namings).entries = grouped (done ++ namings) := by
  induction namings generalizing f done with
  | nil => exact ⟨h, by rw [List.append_nil]; exact hentries⟩
  | cons naming namings ih =>
      obtain ⟨hind, hgroup⟩ := ih (h.push naming.1 naming.2) (h.entries_push hentries naming.1 naming.2)
      refine ⟨hind, hgroup.trans ?_⟩
      rw [List.append_assoc]
      rfl

/-- Pushing namings one by one groups them. -/
theorem entries_pushAll_empty (namings : List Naming) :
    (Failures.empty.pushAll namings).entries = grouped namings := by
  have hempty : Failures.empty.entries = grouped [] := rfl
  exact (indexed_empty.pushAll hempty namings).2

end Failures

end JobHealth.Log
