import JobHealth.Proofs.Log.Line
/-!
# `JobHealth.Proofs.Log.Padding` — blanks around a line and its line end do not count

Nothing that a line reports begins or ends with a blank: not the fixed words,
not a class, and not the `FAILED` behind a method.  So blanks in front of a line
and behind it are never part of what is found, and what is found without them is
found with them.

A `\r` before a line feed is such a blank, where it is not part of the line end
anyway.  A log written with `\r\n` therefore has lines that report the same, one
for one, and is recorded the same.
-/

namespace JobHealth.Log

open JobHealth.Text

/-! ## Where blanks end and ink begins -/

section
variable {text front rest : List Char} {c : Char}

/-- Blanks in front of a text stand in front of each place with ink. -/
theorem Blanks.exists_before {u : List Char} (hu : Blanks u) (hc : isInk c = true)
    (h : u ++ text = front ++ c :: rest) :
    ∃ more, front = u ++ more ∧ text = more ++ c :: rest := by
  rcases List.append_eq_append_iff.mp h with ⟨more, hfront, htext⟩ | ⟨more, hu_eq, hrest⟩
  · exact ⟨more, hfront, htext⟩
  · cases more with
    | nil => exact ⟨[], by simpa using hu_eq.symm, hrest.symm⟩
    | cons d more =>
        obtain ⟨rfl, -⟩ := List.cons.inj hrest
        exact absurd hc (not_ink_of_isBlank (hu c (by simp [hu_eq])))

/-- Blanks behind a text stand behind each place with ink. -/
theorem Blanks.exists_behind {v : List Char} (hv : Blanks v) (hc : isInk c = true)
    (h : text ++ v = front ++ c :: rest) :
    ∃ more, text = front ++ c :: more ∧ rest = more ++ v := by
  rcases List.append_eq_append_iff.mp h with ⟨more, -, hv_eq⟩ | ⟨more, htext, hrest⟩
  · exact absurd hc (not_ink_of_isBlank (hv c (by simp [hv_eq])))
  · cases more with
    | nil =>
        rw [List.nil_append] at hrest
        exact absurd hc (not_ink_of_isBlank (hv c (hrest ▸ List.mem_cons_self)))
    | cons d more =>
        obtain ⟨rfl, hmore⟩ := List.cons.inj hrest
        exact ⟨more, htext, hmore⟩

end

/-! ## Fixed words -/

/-- Text of two characters at least that begins and ends with ink. -/
def InkEnds (part : List Char) : Prop :=
  ∃ c mid d, part = c :: (mid ++ [d]) ∧ isInk c = true ∧ isInk d = true

theorem infix_padded_iff {part u v : List Char} (hpart : InkEnds part) (hu : Blanks u)
    (hv : Blanks v) (line : List Char) : part <:+: u ++ line ++ v ↔ part <:+: line := by
  obtain ⟨c, mid, d, rfl, hc, hd⟩ := hpart
  constructor
  · rintro ⟨front, rest, h⟩
    have hend : u ++ line ++ v = (front ++ c :: mid) ++ d :: rest := by simp [← h]
    obtain ⟨more, hline, -⟩ := hv.exists_behind hd hend
    have hbegin : u ++ line = front ++ c :: (mid ++ d :: more) := by simp [hline]
    obtain ⟨front', -, rfl⟩ := hu.exists_before hc hbegin
    exact ⟨front', more, by simp⟩
  · intro h
    exact h.trans ⟨u, v, rfl⟩

theorem inkEnds_buildFailed : InkEnds "BUILD FAILED".toList :=
  ⟨'B', "UILD FAILE".toList, 'D', rfl, rfl, rfl⟩

theorem inkEnds_testFailed : InkEnds "Test Failed!".toList :=
  ⟨'T', "est Failed".toList, '!', rfl, rfl, rfl⟩

theorem inkEnds_timeoutExceeded : InkEnds "timeout exceeded".toList :=
  ⟨'t', "imeout exceede".toList, 'd', rfl, rfl, rfl⟩

/-! ## Blanks behind a failed test -/

section
variable {v : List Char} (hv : Blanks v)
include hv

theorem failedAhead_padded_iff {cs : List Char} : FailedAhead (cs ++ v) ↔ FailedAhead cs := by
  constructor
  · rintro ⟨between, rest, h, hbetween⟩
    have hend : cs ++ v = (between ++ "FAILE".toList) ++ 'D' :: rest := by simp [h]
    obtain ⟨more, rfl, -⟩ := hv.exists_behind (by decide) hend
    exact ⟨between, more, by simp, hbetween⟩
  · rintro ⟨between, rest, rfl, hbetween⟩
    exact ⟨between, rest ++ v, List.append_assoc _ _ _, hbetween⟩

theorem methodAt_padded_iff {text method : List Char} :
    MethodAt (text ++ v) method ↔ MethodAt text method := by
  constructor
  · rintro ⟨rest, h, hne, hink, hahead⟩
    obtain ⟨front, c, rfl⟩ := (List.eq_nil_or_concat' method).resolve_left hne
    rw [List.append_assoc, List.singleton_append] at h
    obtain ⟨more, rfl, rfl⟩ := hv.exists_behind (hink c (by simp)) h
    exact ⟨more, by simp, hne, hink, (failedAhead_padded_iff hv).mp hahead⟩
  · rintro ⟨rest, rfl, hne, hink, hahead⟩
    exact ⟨rest ++ v, List.append_assoc _ _ _, hne, hink, (failedAhead_padded_iff hv).mpr hahead⟩

theorem leadsToMethod_padded_iff {back : List Char} :
    LeadsToMethod (back ++ v) ↔ LeadsToMethod back := by
  constructor
  · rintro ⟨gap, c, rest, h, hgap, hc, hahead⟩
    obtain ⟨more, rfl, rfl⟩ := hv.exists_behind hc h
    exact ⟨gap, c, more, rfl, hgap, hc, (failedAhead_padded_iff hv).mp hahead⟩
  · rintro ⟨gap, c, rest, rfl, hgap, hc, hahead⟩
    exact ⟨gap, c, rest ++ v, List.append_assoc _ _ _, hgap, hc,
      (failedAhead_padded_iff hv).mpr hahead⟩

theorem classAt_padded_iff {line before cls back : List Char} :
    ClassAt (line ++ v) before cls back ↔
      ∃ back', back = back' ++ v ∧ ClassAt line before cls back' := by
  constructor
  · rintro ⟨gap, h, hne, hink, hgap, hfront, hleads⟩
    obtain ⟨back', rfl, rfl⟩ := hv.exists_behind (by decide) h
    exact ⟨back', rfl, gap, rfl, hne, hink, hgap, hfront, (leadsToMethod_padded_iff hv).mp hleads⟩
  · rintro ⟨back', rfl, gap, rfl, hne, hink, hgap, hfront, hleads⟩
    exact ⟨gap, by simp, hne, hink, hgap, hfront, (leadsToMethod_padded_iff hv).mpr hleads⟩

theorem LongestMethod.padded {back method : List Char} (h : LongestMethod back method) :
    LongestMethod (back ++ v) method := by
  obtain ⟨gap, text, rfl, hgap, hmethod, hlongest⟩ := h
  refine ⟨gap, text ++ v, List.append_assoc _ _ _, hgap, (methodAt_padded_iff hv).mpr hmethod, ?_⟩
  intro other hother
  exact hlongest other ((methodAt_padded_iff hv).mp hother)

theorem Names.padded {line before cls back method : List Char}
    (h : Names line before cls back method) :
    Names (line ++ v) before cls (back ++ v) method where
  word_begins := h.word_begins
  class_at := (classAt_padded_iff hv).mpr ⟨back, rfl, h.class_at⟩
  first := by
    intro before' cls' back' hbegins hclass
    obtain ⟨back', rfl, hline⟩ := (classAt_padded_iff hv).mp hclass
    exact h.first before' cls' back' hbegins hline
  longest := by
    intro cls' back' hclass
    obtain ⟨back', rfl, hline⟩ := (classAt_padded_iff hv).mp hclass
    exact h.longest cls' back' hline
  method := h.method.padded hv

/-- What is found in a line is found with blanks behind it. -/
theorem Finds.padded_behind {line : List Char} {found : Option (List Char × List Char)}
    (h : Finds line found) : Finds (line ++ v) found := by
  cases found with
  | none =>
      intro before cls back hbegins hclass
      obtain ⟨back', rfl, hline⟩ := (classAt_padded_iff hv).mp hclass
      exact h before cls back' hbegins hline
  | some found =>
      obtain ⟨before, back, hnames⟩ := h
      exact ⟨before, back ++ v, hnames.padded hv⟩

end

/-! ## Blanks in front of a failed test -/

/-- What is found in a line is found with blanks in front of it. -/
theorem Finds.padded_before {u line : List Char} (hu : Blanks u)
    {found : Option (List Char × List Char)} (h : Finds line found) :
    Finds (u ++ line) found := by
  refine h.behind ?_ ?_
  · intro _ _ _ front c hfront
    exact hu c (by simp [hfront])
  · intro before cls back _ hclass
    obtain ⟨text, hline, hin⟩ := hclass.exists_text
    obtain ⟨c, rest, rfl, hc⟩ := hin.head
    obtain ⟨more, hbefore, -⟩ := hu.exists_before hc hline
    exact ⟨more, hbefore⟩

/-! ## A whole line -/

section
variable {u v : List Char} (hu : Blanks u) (hv : Blanks v) (line : List Char)
include hu hv

theorem reportsBuildFailure_padded :
    reportsBuildFailure (u ++ line ++ v) = reportsBuildFailure line := by
  rw [Bool.eq_iff_iff, reportsBuildFailure_iff, reportsBuildFailure_iff,
    infix_padded_iff inkEnds_buildFailed hu hv, infix_padded_iff inkEnds_testFailed hu hv]

theorem reportsHang_padded : reportsHang (u ++ line ++ v) = reportsHang line := by
  rw [Bool.eq_iff_iff, reportsHang_iff, reportsHang_iff,
    infix_padded_iff inkEnds_timeoutExceeded hu hv]

/-- The search in the padded line and the search in the line find one and the same test, since a
line names one at most. -/
theorem failedTest?_padded : failedTest? (u ++ line ++ v) = failedTest? line := by
  have hpadded : Finds (u ++ line ++ v) ((failedTest? line).map TestName.parts) :=
    ((finds_failedTest? line).padded_before hu).padded_behind hv
  have hparts := (finds_failedTest? (u ++ line ++ v)).unique hpadded
  exact Option.map_injective (fun _ _ => TestName.eq_of_parts) hparts

theorem classify_padded : classify (u ++ line ++ v) = classify line := by
  rw [classify, classify, reportsBuildFailure_padded hu hv, reportsHang_padded hu hv,
    failedTest?_padded hu hv]

end

/-! ## Line ends -/

/-- The text with `\r\n` for each line feed. -/
def withReturns (cs : List Char) : List Char :=
  cs.flatMap fun c => if c = '\n' then ['\r', '\n'] else [c]

/-- A log with `\r\n` for each line feed. -/
def logWithReturns (log : String) : String := String.ofList (withReturns log.toList)

/-- What a line that ended is without the `\r` of its line end, reports the same with it. -/
theorem classify_chomp (seen : List Char) : classify (chomp seen) = classify seen.reverse := by
  unfold chomp
  split
  · next seen =>
    have hreturn : Blanks ['\r'] := fun c hc => by rw [List.mem_singleton.mp hc]; rfl
    have hpadded := classify_padded (u := []) nofun hreturn seen.reverse
    rw [List.reverse_cons]
    exact hpadded.symm
  · rfl

/-- The line that is being read is the same in both texts, up to the line feed that ends it. -/
theorem map_classify_linesAfter (cs seen : List Char) :
    (linesAfter seen (withReturns cs)).map classify = (linesAfter seen cs).map classify := by
  induction cs generalizing seen with
  | nil => rfl
  | cons c cs ih =>
      rw [withReturns, List.flatMap_cons, ← withReturns]
      by_cases hc : c = '\n'
      · subst hc
        have hread : linesAfter seen ('\r' :: '\n' :: withReturns cs) =
            seen.reverse :: linesAfter [] (withReturns cs) := rfl
        have hline : linesAfter seen ('\n' :: cs) = chomp seen :: linesAfter [] cs := rfl
        rw [if_pos rfl, List.cons_append, List.cons_append, List.nil_append, hread, hline,
          List.map_cons, List.map_cons, ih, classify_chomp]
      · rw [if_neg hc, List.singleton_append, linesAfter, linesAfter, if_neg hc, if_neg hc]
        exact ih (c :: seen)

namespace Tally

/-- Adds what a line says, from what it says. -/
def addReport (build : Build) : Tally × Nat → LineReport → Tally × Nat
  | (t, n), report =>
    ({ t with
        failures := match report.failedTest with
          | some test => t.failures.push test.key build
          | none => t.failures
        hangLines := t.hangLines + report.hang.toNat },
      n + report.buildFailure.toNat)

/-- Of the lines only what they report is recorded. -/
theorem foldl_addLine_eq (build : Build) (lines : List (List Char)) (start : Tally × Nat) :
    lines.foldl (addLine build) start = (lines.map classify).foldl (addReport build) start := by
  rw [List.foldl_map]
  rfl

theorem record_congr {log log' : String}
    (h : (lines log.toList).map classify = (lines log'.toList).map classify) (t : Tally)
    (build : Build) : t.record build log = t.record build log' := by
  rw [record, record, foldl_addLine_eq, foldl_addLine_eq, h]

end Tally

/-- **Padding and the style of line ends do not matter.**  Blanks around a line leave what it
reports as it is, and a log with `\r\n` for each line feed is recorded with the same tally and the
same number of failed builds. -/
theorem padding_does_not_count :
    (∀ u line v : List Char, Blanks u → Blanks v → classify (u ++ line ++ v) = classify line) ∧
      ∀ (t : Tally) (build : Build) (log : String),
        t.record build (logWithReturns log) = t.record build log := by
  refine ⟨?_, ?_⟩
  · intro u line v hu hv
    exact classify_padded hu hv line
  · intro t build log
    refine Tally.record_congr ?_ t build
    rw [logWithReturns, String.toList_ofList]
    exact map_classify_linesAfter log.toList []

/-- A line between a wide blank and two line ends.  Its log has three lines: one that ends in a
return and a line feed already, an empty one, and one with a return at its end that is not ended. -/
theorem padding_of_named_test :
    let line := "A>B > m FAILED".toList
    let log := "A>B > m FAILED\r\n\n BUILD FAILED\r"
    let b : Build := ⟨7, "7", "failed", "/api/v1/builds/7", "main", "develop", "UnitTest"⟩
    (Blanks "\u3000\t".toList ∧ Blanks "\n\r\n".toList) ∧
      classify ("\u3000\t".toList ++ line ++ "\n\r\n".toList) = classify line ∧
      (classify line).failedTest = some ⟨"A>B", "m"⟩ ∧
      logWithReturns log = "A>B > m FAILED\r\r\n\r\n BUILD FAILED\r" ∧
      Tally.empty.record b (logWithReturns log) = Tally.empty.record b log ∧
      (Tally.empty.record b log).2 = 1 ∧
      (Tally.empty.record b log).1.failures.entries = [("A>B.m", [b])] := by
  intro line log b
  have hfront : Blanks "\u3000\t".toList := List.all_eq_true.mp rfl
  have hbehind : Blanks "\n\r\n".toList := List.all_eq_true.mp rfl
  obtain ⟨hline, hlog⟩ := padding_does_not_count
  refine ⟨⟨hfront, hbehind⟩, hline _ line _ hfront hbehind, ?_, ?_, hlog Tally.empty b log, ?_, ?_⟩
  · decide +kernel
  · decide +kernel
  · decide +kernel
  · decide +kernel

end JobHealth.Log
