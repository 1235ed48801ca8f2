import Mathlib.Algebra.BigOperators.Group.List.Lemmas
import Mathlib.Algebra.Ring.Nat
import JobHealth.Proofs.Rates
import JobHealth.Proofs.Text.Lines
/-!
# `JobHealth.Proofs.ReportText` — a report read back

A report without colours is plain lines, and nothing marks which of them is on
a test and which on a build.  They can be told apart all the same: a build's
line begins with a blank and a test's does not, since no test's key does.

| of a line   | where it stands                                        |
| :---------- | :----------------------------------------------------- |
| test        | the first word, without the colon behind it            |
| failures    | the second word                                        |
| build       | between the opening words and the next blank           |
| address     | behind `at`, up to the end                             |

A build belongs to the nearest test above it.  Control characters, line feeds
among them, are only where a name holds them.  So the text has all of the
failures in it, provided that keys, names and addresses have no white space.
-/

namespace JobHealth.Report

open JobHealth.Text JobHealth.Number

/-! ## Reading a report -/

/-- What a report says about one test: its key, the number of its failures, and each of its builds
by name and address. -/
structure Entry where
  test : String
  failures : Nat
  builds : List (String × String)
  deriving DecidableEq, Repr

/-- The entry of a test and its builds. -/
def Entry.ofBuilds (base : String) (entry : String × List Build) : Entry :=
  ⟨entry.1, entry.2.length, entry.2.map fun b => (b.name, b.webUrl base)⟩

/-- The build on a line, by name and address. -/
def buildOfLine? (line : List Char) : Option (String × String) := do
  let rest ← after? "  Failed build ".toList line
  let (name, rest) ← cutAt? ' ' rest
  let address ← after? "at ".toList rest
  return (String.ofList name, String.ofList address)

/-- The test on a line, with the number of its failures. -/
def testOfLine? (line : List Char) : Option (String × Nat) := do
  let (key, rest) ← cutAt? ' ' line
  let (failures, _) ← cutAt? ' ' rest
  return (String.ofList key.dropLast, Nat.ofDigitChars 10 failures 0)

/-- Reads one more line in front of others: of these the first lines were on the given builds, whose
test is still to come, and then on the given tests. -/
def readLine (line : List Char) (behind : List (String × String) × List Entry) :
    List (String × String) × List Entry :=
  match buildOfLine? line with
  | some build => (build :: behind.1, behind.2)
  | none =>
    match testOfLine? line with
    | some (test, failures) => ([], ⟨test, failures, behind.1⟩ :: behind.2)
    | none => behind

/-- The entries of a report, from the lines behind the three on all builds. -/
def readEntries (text : String) : List Entry :=
  (((Text.lines text.toList).drop 3).foldr readLine ([], [])).2

/-! ## The lines of a report -/

/-- The characters of a line without colours. -/
def chars (line : Line) : List Char := line.flatMap fun span => span.text.toList

theorem toList_renderLine (line : Line) :
    (renderLine false line).toList = chars line ++ ['\n'] := by
  rw [renderLine, String.toList_append, String.toList_join, List.flatMap_map, chars]
  rfl

theorem toList_render (base : String) (t : Totals) (failures : Log.Failures) :
    (render false base t failures).toList = unlines ((lines base t failures).map chars) := by
  rw [render, String.toList_join, List.flatMap_map, unlines, List.flatMap_map]
  exact List.flatMap_congr fun line _ => toList_renderLine line

/-! ### Text without white space -/

/-- Text without white space. -/
def Unbroken (s : String) : Prop := ∀ c ∈ s.toList, isBlank c = false

instance (s : String) : Decidable (Unbroken s) := List.decidableBAll _ s.toList

theorem Unbroken.not_mem {s : String} (h : Unbroken s) {c : Char} (hc : isBlank c = true) :
    c ∉ s.toList := by
  intro hmem
  rw [h c hmem] at hc
  cases hc

theorem Unbroken.append {s t : String} (hs : Unbroken s) (ht : Unbroken t) : Unbroken (s ++ t) := by
  intro c hc
  rw [String.toList_append] at hc
  exact (List.mem_append.mp hc).elim (hs c) (ht c)

theorem toNat_of_isDigit {c : Char} (h : c.isDigit = true) : 48 ≤ c.toNat ∧ c.toNat ≤ 57 := by
  simpa [Char.isDigit, UInt32.le_iff_toNat_le] using h

theorem isDigit_of_mem_repr {n : Nat} {c : Char} (h : c ∈ n.repr.toList) : c.isDigit = true := by
  rw [Nat.toList_repr] at h
  exact Nat.isDigit_of_mem_toDigits (by decide) (by decide) h

theorem unbroken_repr (n : Nat) : Unbroken n.repr := by
  intro c hc
  have hvalue := toNat_of_isDigit (isDigit_of_mem_repr hc)
  simp only [isBlank]
  grind

/-! ### Text without control characters -/

/-- Text without control characters. -/
def Printed (s : String) : Prop := ∀ c ∈ s.toList, 0x20 ≤ c.toNat

instance (s : String) : Decidable (Printed s) := List.decidableBAll _ s.toList

/-- Digits, and what else a number may be written with. -/
theorem printed_of_numeric {s : String} (h : Numeric s) : Printed s := by
  intro c hc
  rcases h c hc with hdigit | rfl | rfl
  · have hvalue := toNat_of_isDigit hdigit
    omega
  · decide
  · decide

theorem printed_fixed (places : Nat) (x : Binary64) : Printed (fixed places x) := by
  cases x with
  | nan => exact (by decide : Printed "NaN")
  | infinite s =>
      cases s with
      | true => exact (by decide : Printed "-inf")
      | false => exact (by decide : Printed "inf")
  | finite q => exact printed_of_numeric (numeric_fixed places q)

theorem printed_repr (n : Nat) : Printed n.repr :=
  printed_of_numeric fun _ hc => .inl (isDigit_of_mem_repr hc)

theorem Printed.append {s t : String} (hs : Printed s) (ht : Printed t) : Printed (s ++ t) := by
  intro c hc
  rw [String.toList_append] at hc
  exact (List.mem_append.mp hc).elim (hs c) (ht c)

theorem printed_toString (i : Int) : Printed (toString i) := by
  cases i with
  | ofNat n => exact printed_repr n
  | negSucc n => exact Printed.append (s := "-") (by decide) (printed_repr (n + 1))

/-! ### Control characters -/

/-- Neither the address of the server nor a name in a report on these failures has the character. -/
structure Lacks (base : String) (failures : Log.Failures) (c : Char) : Prop where
  base : c ∉ base.toList
  tests : ∀ entry ∈ failures.entries, c ∉ entry.1.toList
  builds : ∀ entry ∈ failures.entries, ∀ b ∈ entry.2, c ∉ b.name.toList ∧ c ∉ b.teamName.toList ∧
    c ∉ b.pipelineName.toList ∧ c ∉ b.jobName.toList

section
variable {c : Char}

theorem not_mem_append {s t : String} (hs : c ∉ s.toList) (ht : c ∉ t.toList) :
    c ∉ (s ++ t).toList := by
  rw [String.toList_append, List.mem_append, not_or]
  exact ⟨hs, ht⟩

theorem Printed.not_mem {s : String} (h : Printed s) (hc : c.toNat < 0x20) : c ∉ s.toList :=
  fun hmem => absurd (h c hmem) (Nat.not_le.mpr hc)

theorem not_mem_overallLines (hc : c.toNat < 0x20) (t : Totals) :
    ∀ line ∈ overallLines t, ∀ span ∈ line, c ∉ span.text.toList := by
  have hrule : Printed rule := by decide +kernel
  have hlead : Printed " Overall build success rate: " := by decide
  have hpercent : Printed "% (" := by decide
  have hof : Printed " of " := by decide
  have hend : Printed ")" := by decide
  have hrate := ((((printed_fixed 5 (successRate t.examined t.failureLines)).append hpercent).append
    (printed_toString t.passed.toInt)).append hof).append (printed_repr t.examined)
  simp only [overallLines, List.forall_mem_cons]
  exact ⟨⟨hrule.not_mem hc, nofun⟩,
    ⟨hlead.not_mem hc, (hrate.append hend).not_mem hc, nofun⟩,
    ⟨hrule.not_mem hc, nofun⟩, nofun⟩

theorem not_mem_testLine (hc : c.toNat < 0x20) {test : String} (h : c ∉ test.toList)
    (examined count : Nat) : ∀ span ∈ testLine examined test count, c ∉ span.text.toList := by
  have hcolon : Printed ":" := by decide
  have hblank : Printed " " := by decide
  have hfailures : Printed " failures" := by decide
  have hopen : Printed "(" := by decide
  have hclose : Printed "% success rate)" := by decide
  have hrate := (hopen.append (printed_fixed 2 (successRate examined count))).append hclose
  simp only [testLine, List.forall_mem_cons]
  exact ⟨not_mem_append h (hcolon.not_mem hc), hblank.not_mem hc,
    ((printed_repr count).append hfailures).not_mem hc, hblank.not_mem hc, hrate.not_mem hc, nofun⟩

theorem not_mem_buildLine (hc : c.toNat < 0x20) {base : String} {b : Build}
    (hbase : c ∉ base.toList) (hb : c ∉ b.name.toList ∧ c ∉ b.teamName.toList ∧
      c ∉ b.pipelineName.toList ∧ c ∉ b.jobName.toList) :
    ∀ span ∈ buildLine base b, c ∉ span.text.toList := by
  obtain ⟨hname, hteam, hpipeline, hjob⟩ := hb
  have hlead : Printed "  Failed build " := by decide
  have hblank : Printed " " := by decide
  have hat : Printed "at " := by decide
  have hteams : Printed "/teams/" := by decide
  have hpipelines : Printed "/pipelines/" := by decide
  have hjobs : Printed "/jobs/" := by decide
  have hbuilds : Printed "/builds/" := by decide
  have hurl : c ∉ (b.webUrl base).toList :=
    not_mem_append (not_mem_append (not_mem_append (not_mem_append (not_mem_append (not_mem_append
      (not_mem_append (not_mem_append hbase (hteams.not_mem hc)) hteam) (hpipelines.not_mem hc))
      hpipeline) (hjobs.not_mem hc)) hjob) (hbuilds.not_mem hc)) hname
  simp only [buildLine, List.forall_mem_cons]
  exact ⟨not_mem_append (hlead.not_mem hc) hname, hblank.not_mem hc,
    not_mem_append (hat.not_mem hc) hurl, nofun⟩

/-- A report holds no control character but in its names. -/
theorem Lacks.not_mem_lines {base : String} {failures : Log.Failures} (h : Lacks base failures c)
    (hc : c.toNat < 0x20) (t : Totals) :
    ∀ line ∈ lines base t failures, ∀ span ∈ line, c ∉ span.text.toList := by
  intro line hline
  rw [lines] at hline
  split at hline
  · obtain rfl := List.mem_singleton.mp hline
    have hclean : Printed "No failures! 100% success rate" := by decide
    exact List.forall_mem_singleton.mpr (hclean.not_mem hc)
  · rcases List.mem_append.mp hline with hoverall | htests
    · exact not_mem_overallLines hc t line hoverall
    · obtain ⟨entry, hentry, hmem⟩ := List.mem_flatMap.mp htests
      rcases List.mem_cons.mp hmem with rfl | hbuild
      · exact not_mem_testLine hc (h.tests entry hentry) _ _
      · obtain ⟨b, hb, rfl⟩ := List.mem_map.mp hbuild
        exact not_mem_buildLine hc h.base (h.builds entry hentry b hb)

end

/-! ### Each line on its own -/

/-- Failures whose report can be read: nothing in a line of theirs has white space, and each test
has a key. -/
structure Legible (base : String) (failures : Log.Failures) : Prop where
  base : Unbroken base
  tests : ∀ entry ∈ failures.entries, entry.1 ≠ "" ∧ Unbroken entry.1
  builds : ∀ entry ∈ failures.entries, ∀ b ∈ entry.2, Unbroken b.name ∧ Unbroken b.teamName ∧
    Unbroken b.pipelineName ∧ Unbroken b.jobName

theorem Legible.lacks {base : String} {failures : Log.Failures} (h : Legible base failures)
    {c : Char} (hc : isBlank c = true) : Lacks base failures c where
  base := h.base.not_mem hc
  tests := fun entry hentry => (h.tests entry hentry).2.not_mem hc
  builds := by
    intro entry hentry b hb
    obtain ⟨hname, hteam, hpipeline, hjob⟩ := h.builds entry hentry b hb
    exact ⟨hname.not_mem hc, hteam.not_mem hc, hpipeline.not_mem hc, hjob.not_mem hc⟩

theorem not_mem_chars {c : Char} {line : Line} (h : ∀ span ∈ line, c ∉ span.text.toList) :
    c ∉ chars line := by
  intro hmem
  obtain ⟨span, hspan, hc⟩ := List.mem_flatMap.mp hmem
  exact h span hspan hc

theorem after?_append (lead rest : List Char) : after? lead (lead ++ rest) = some rest := by
  induction lead with
  | nil => rfl
  | cons c lead ih => rw [List.cons_append, after?, if_pos rfl, ih]

theorem chars_testLine (examined : Nat) (test : String) (count : Nat) :
    chars (testLine examined test count) = (test ++ ":").toList ++ ' ' :: (count.repr.toList ++
      ' ' :: ("failures (".toList ++ (fixed 2 (successRate examined count)).toList ++
        "% success rate)".toList)) := by
  simp [chars, testLine, inColour, plain, String.toList_append]

theorem chars_buildLine (base : String) (b : Build) :
    chars (buildLine base b) = "  Failed build ".toList ++ (b.name.toList ++
      ' ' :: ("at ".toList ++ (b.webUrl base).toList)) := by
  simp [chars, buildLine, inColour, inBold, plain, String.toList_append]

theorem buildOfLine?_buildLine {base : String} {b : Build} (hname : Unbroken b.name) :
    buildOfLine? (chars (buildLine base b)) = some (b.name, b.webUrl base) := by
  have hblank : ' ' ∉ b.name.toList := hname.not_mem (by decide)
  rw [chars_buildLine, buildOfLine?, after?_append]
  simp only [Option.bind_eq_bind, Option.bind_some, cutAt?_append hblank, after?_append,
    String.ofList_toList, Option.pure_def]

/-- A line that begins with no blank is not on a build. -/
theorem buildOfLine?_testLine {test : String} (hne : test ≠ "") (h : Unbroken test)
    (examined count : Nat) : buildOfLine? (chars (testLine examined test count)) = none := by
  obtain ⟨c, cs, hcs⟩ := List.exists_cons_of_ne_nil (mt String.toList_eq_nil_iff.mp hne)
  have hc : ' ' ≠ c := by
    rintro rfl
    exact h.not_mem (by decide) (hcs ▸ List.mem_cons_self)
  have hlead : "  Failed build ".toList = ' ' :: " Failed build ".toList := rfl
  rw [chars_testLine, String.toList_append, hcs, buildOfLine?, hlead, List.cons_append,
    List.cons_append, after?, if_neg hc]
  rfl

theorem testOfLine?_testLine {test : String} (h : Unbroken test) (examined count : Nat) :
    testOfLine? (chars (testLine examined test count)) = some (test, count) := by
  have hcolon : Unbroken ":" := by decide
  have hkey : ' ' ∉ (test ++ ":").toList := (h.append hcolon).not_mem (by decide)
  have hcount : ' ' ∉ count.repr.toList := (unbroken_repr count).not_mem (by decide)
  have hdrop : (test ++ ":").toList.dropLast = test.toList := by
    rw [String.toList_append]
    exact List.dropLast_concat
  have hvalue : Nat.ofDigitChars 10 count.repr.toList 0 = count := by
    rw [Nat.toList_repr]
    exact Nat.ofDigitChars_ten_toDigits
  rw [chars_testLine, testOfLine?, cutAt?_append hkey]
  simp only [Option.bind_eq_bind, Option.bind_some, cutAt?_append hcount, hdrop, hvalue,
    String.ofList_toList, Option.pure_def]

/-! ## The whole report -/

section
variable {base : String} {failures : Log.Failures}

theorem Legible.singleLine_lines (h : Legible base failures) (t : Totals) :
    ∀ line ∈ lines base t failures, SingleLine (chars line) := by
  intro line hline
  have hfeed : isBlank '\n' = true ∧ '\n'.toNat < 0x20 := by decide
  have hreturn : isBlank '\r' = true ∧ '\r'.toNat < 0x20 := by decide
  exact ⟨not_mem_chars ((h.lacks hfeed.1).not_mem_lines hfeed.2 t line hline),
    not_mem_chars ((h.lacks hreturn.1).not_mem_lines hreturn.2 t line hline)⟩

theorem Legible.lines_render (h : Legible base failures) (t : Totals) :
    Text.lines (render false base t failures).toList = (lines base t failures).map chars := by
  rw [toList_render]
  refine lines_unlines fun l hl => ?_
  obtain ⟨line, hline, rfl⟩ := List.mem_map.mp hl
  exact h.singleLine_lines t line hline

/-- The lines of builds wait for the test that stands above them. -/
theorem foldr_readLine_builds (base : String) {builds : List Build}
    (h : ∀ b ∈ builds, Unbroken b.name) (told : List Entry) :
    (builds.map fun b => chars (buildLine base b)).foldr readLine ([], told) =
      (builds.map fun b => (b.name, b.webUrl base), told) := by
  induction builds with
  | nil => rfl
  | cons b builds ih =>
      obtain ⟨hb, hbuilds⟩ := List.forall_mem_cons.mp h
      rw [List.map_cons, List.foldr_cons, ih hbuilds, readLine, buildOfLine?_buildLine hb]
      rfl

/-- The lines of entries are read as these entries. -/
theorem foldr_readLine_entries {entries : List (String × List Build)}
    (htests : ∀ entry ∈ entries, entry.1 ≠ "" ∧ Unbroken entry.1)
    (hbuilds : ∀ entry ∈ entries, ∀ b ∈ entry.2, Unbroken b.name) (examined : Nat) :
    ((entries.flatMap (testLines base examined)).map chars).foldr readLine ([], []) =
      ([], entries.map (Entry.ofBuilds base)) := by
  induction entries with
  | nil => rfl
  | cons entry entries ih =>
      obtain ⟨⟨hne, htest⟩, htests⟩ := List.forall_mem_cons.mp htests
      obtain ⟨hentry, hbuilds⟩ := List.forall_mem_cons.mp hbuilds
      rw [List.flatMap_cons, List.map_append, List.foldr_append, ih htests hbuilds, testLines,
        List.map_cons, List.foldr_cons, List.map_map]
      have hread := foldr_readLine_builds base hentry (entries.map (Entry.ofBuilds base))
      rw [show (chars ∘ buildLine base) = fun b => chars (buildLine base b) from rfl, hread,
        readLine, buildOfLine?_testLine hne htest, testOfLine?_testLine htest]
      rfl

theorem Legible.readEntries_render (h : Legible base failures) {t : Totals}
    (hlines : t.failureLines ≠ 0) :
    readEntries (render false base t failures) = failures.entries.map (Entry.ofBuilds base) := by
  have hoverall : ((lines base t failures).map chars).drop 3 =
      (failures.entries.flatMap (testLines base t.examined)).map chars := by
    rw [lines, if_neg hlines, List.map_append]
    exact List.drop_left' (by rw [List.length_map]; rfl)
  have hnames : ∀ entry ∈ failures.entries, ∀ b ∈ entry.2, Unbroken b.name :=
    fun entry hentry b hb => (h.builds entry hentry b hb).1
  rw [readEntries, h.lines_render t, hoverall, foldr_readLine_entries h.tests hnames]

theorem length_lines {t : Totals} (hlines : t.failureLines ≠ 0) :
    (lines base t failures).length =
      3 + (failures.entries.map fun entry => 1 + entry.2.length).sum := by
  rw [lines, if_neg hlines, List.length_append, List.length_flatMap]
  refine congrArg (3 + ·) (congrArg List.sum (List.map_congr_left fun entry _ => ?_))
  rw [testLines, List.length_cons, List.length_map, Nat.add_comm]

/-- A test with the names of its builds. -/
def named (entry : String × List Build) : String × List String := (entry.1, entry.2.map Build.name)

/-- The report of legible failures has three lines on all builds, one for each test and one for each
of its builds, and can be read back: the tests in their order, each with the number of its failures
and its builds by name and address.  So failures with other tests, another order, other names or
other repeats have another report. -/
theorem report_tells_failures {t : Totals} (hlines : t.failureLines ≠ 0)
    (h : Legible base failures) :
    (Text.lines (render false base t failures).toList).length =
        3 + (failures.entries.map fun entry => 1 + entry.2.length).sum ∧
      readEntries (render false base t failures) = failures.entries.map (Entry.ofBuilds base) ∧
      ∀ failures', Legible base failures' →
        failures'.entries.map named ≠ failures.entries.map named →
          render false base t failures' ≠ render false base t failures := by
  refine ⟨?_, h.readEntries_render hlines, fun failures' h' hne heq => hne ?_⟩
  · rw [h.lines_render t, List.length_map, length_lines hlines]
  · have hread := h'.readEntries_render hlines
    rw [heq, h.readEntries_render hlines] at hread
    have hnamed := congrArg (List.map fun e : Entry => (e.test, e.builds.map Prod.fst)) hread
    rw [List.map_map, List.map_map] at hnamed
    have hof :
        (fun e : Entry => (e.test, e.builds.map Prod.fst)) ∘ Entry.ofBuilds base = named := by
      funext entry
      show (entry.1, (entry.2.map _).map _) = named entry
      rw [List.map_map]
      rfl
    rw [hof] at hnamed
    exact hnamed.symm

end

/-- Two tests whose keys look like other parts of a report, the first of them named twice in the log
of one build; and the same tests in the other order. -/
theorem report_of_lookalikes :
    let b : Build := ⟨7, "7", "failed", "/api/v1/builds/7", "main", "p", "j"⟩
    let failures := ((Log.Failures.empty.push "Failed:(1" b).push "at" b).push "Failed:(1" b
    let failures' := ((Log.Failures.empty.push "at" b).push "Failed:(1" b).push "Failed:(1" b
    let t : Totals := ⟨2, 1, 0⟩
    let address := "http://ci/teams/main/pipelines/p/jobs/j/builds/7"
    t.failureLines ≠ 0 ∧ Legible "http://ci" failures ∧ Legible "http://ci" failures' ∧
      (Text.lines (render false "http://ci" t failures).toList).length = 8 ∧
      readEntries (render false "http://ci" t failures) =
        [⟨"Failed:(1", 2, [("7", address), ("7", address)]⟩, ⟨"at", 1, [("7", address)]⟩] ∧
      render false "http://ci" t failures' ≠ render false "http://ci" t failures := by
  intro b failures failures' t address
  have hlines : t.failureLines ≠ 0 := by decide
  have hlegible : Legible "http://ci" failures :=
    ⟨by decide +kernel, by decide +kernel, by decide +kernel⟩
  have hlegible' : Legible "http://ci" failures' :=
    ⟨by decide +kernel, by decide +kernel, by decide +kernel⟩
  obtain ⟨hlength, hread, hother⟩ := report_tells_failures hlines hlegible
  exact ⟨hlines, hlegible, hlegible', hlength, hread, hother _ hlegible' (by decide +kernel)⟩

end JobHealth.Report
