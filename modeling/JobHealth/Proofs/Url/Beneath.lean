import Mathlib.Data.List.DropRight
import JobHealth.Proofs.Url.Appended
/-!
# `JobHealth.Proofs.Url.Beneath` — which paths a path of names can be written behind

The path of a server is one empty segment, but the text that it was read from
may be longer.  A path of names that is written behind that text is the path of
the whole just if there is no such text, or its last piece is one of dots.  Any
other last piece is a segment in front of the names: the empty one behind a
slash, and one that ends in a blank.
-/

namespace JobHealth.Url

/-! ## Names -/

def isNameChar (c : Char) : Bool := isLetter c || c.isDigit || c == '-' || c == '_'

/-- A segment that is written as it is. -/
def IsName (n : List Char) : Prop := n ≠ [] ∧ ∀ c ∈ n, isNameChar c = true

instance (n : List Char) : Decidable (IsName n) :=
  @instDecidableAnd _ _ _ (List.decidableBAll _ n)

theorem isPlain_of_isNameChar {c : Char} (h : isNameChar c = true) : isPlain c = true := by
  rw [isNameChar] at h
  rw [isPlain]
  revert h
  cases isLetter c <;> cases c.isDigit <;> cases c == '-' <;> cases c == '_' <;> cases c == '/' <;>
    decide

theorem IsName.plain {n : List Char} (h : IsName n) : Plain n := fun c hc =>
  isPlain_of_isNameChar (h.2 c hc)

theorem IsName.not_isSlash {n : List Char} (h : IsName n) (special : Bool) :
    ∀ c ∈ n, isSlash special c = false := by
  intro c hc
  have hname := h.2 c hc
  cases hslash : isSlash special c with
  | false => rfl
  | true =>
      have hchar : c = '/' ∨ special = true ∧ c = '\\' := by simpa [isSlash] using hslash
      rcases hchar with rfl | ⟨-, rfl⟩ <;> exact absurd hname (by decide)

/-- The text of a path with the given segments. -/
def pathText (ss : List (List Char)) : List Char := (Path.segments ss).render

theorem pathText_cons (s : List Char) (ss : List (List Char)) :
    pathText (s :: ss) = '/' :: (s ++ pathText ss) := List.flatMap_cons

theorem pathText_append (ss ss' : List (List Char)) :
    pathText (ss ++ ss') = pathText ss ++ pathText ss' := List.flatMap_append

theorem plain_pathText {names : List (List Char)} (h : ∀ n ∈ names, IsName n) :
    Plain (pathText names) := by
  induction names with
  | nil => exact nofun
  | cons n names ih =>
      obtain ⟨hn, hnames⟩ := List.forall_mem_cons.mp h
      rw [pathText_cons]
      exact List.forall_mem_cons.mpr ⟨by decide, hn.plain.append (ih hnames)⟩

/-- One segment more makes another path. -/
theorem pathText_ne (front : List (List Char)) (s : List Char) (ss : List (List Char)) :
    pathText (front ++ s :: ss) ≠ pathText ss := by
  intro h
  have hlength := congrArg List.length h
  rw [pathText_append, pathText_cons] at hlength
  simp only [List.length_append, List.length_cons] at hlength
  omega

/-- Only an empty segment alone is shown as a slash. -/
theorem eq_of_pathText_eq_slash {ss : List (List Char)} (h : pathText ss = ['/']) : ss = [[]] := by
  cases ss with
  | nil => cases h
  | cons s ss =>
      rw [pathText_cons] at h
      obtain ⟨rfl, hss⟩ := List.append_eq_nil_iff.mp (List.cons.inj h).2
      cases ss with
      | nil => rfl
      | cons s' ss => cases hss

/-! ## The pieces of a path -/

theorem splitSlashes_of_not_isSlash {special : Bool} {cs : List Char}
    (h : ∀ c ∈ cs, isSlash special c = false) : splitSlashes special cs = [cs] := by
  induction cs with
  | nil => rfl
  | cons c cs ih =>
      obtain ⟨hc, hcs⟩ := List.forall_mem_cons.mp h
      rw [splitSlashes, ih hcs, hc]
      rfl

theorem isSlash_slash (special : Bool) : isSlash special '/' = true := by cases special <;> decide

theorem splitSlashes_append_pathText (special : Bool) (cs : List Char) {names : List (List Char)}
    (hne : names ≠ []) (h : ∀ n ∈ names, IsName n) :
    splitSlashes special (cs ++ pathText names) = splitSlashes special cs ++ names := by
  induction names generalizing cs with
  | nil => exact absurd rfl hne
  | cons n names ih =>
      obtain ⟨hn, hnames⟩ := List.forall_mem_cons.mp h
      have hone := splitSlashes_of_not_isSlash (hn.not_isSlash special)
      rw [pathText_cons, splitSlashes_append (isSlash_slash special)]
      cases names with
      | nil => rw [pathText, Path.render, List.flatMap_nil, List.append_nil, hone]
      | cons n' names => rw [ih _ (List.cons_ne_nil _ _) hnames, hone, List.singleton_append]

/-- What stands behind the last slash of a text. -/
def lastPiece (special : Bool) (cs : List Char) : List Char :=
  cs.rtakeWhile fun c => !isSlash special c

theorem splitSlashes_lastPiece (special : Bool) (cs : List Char) :
    ∃ front, splitSlashes special cs = front ++ [lastPiece special cs] := by
  have hpiece : splitSlashes special (lastPiece special cs) = [lastPiece special cs] := by
    refine splitSlashes_of_not_isSlash fun c hc => ?_
    simpa using List.mem_rtakeWhile_imp hc
  have hcs : cs.rdropWhile (fun c => !isSlash special c) ++ lastPiece special cs = cs :=
    List.rdropWhile_append_rtakeWhile
  by_cases hfront : cs.rdropWhile (fun c => !isSlash special c) = []
  · rw [hfront, List.nil_append] at hcs
    refine ⟨[], ?_⟩
    rw [hcs] at hpiece
    rw [hcs, hpiece]
    rfl
  · have hslash := List.rdropWhile_last_not _ _ hfront
    rw [← List.dropLast_append_getLast hfront, List.append_assoc, List.singleton_append] at hcs
    rw [Bool.not_eq_true, Bool.not_eq_false'] at hslash
    have hsplit := splitSlashes_append hslash
      (cs.rdropWhile fun c => !isSlash special c).dropLast (lastPiece special cs)
    rw [hcs, hpiece] at hsplit
    exact ⟨_, hsplit⟩

theorem lastPiece_eq_nil_iff {special : Bool} {cs : List Char} :
    lastPiece special cs = [] ↔ ∀ c ∈ cs.getLast?, isSlash special c = true := by
  rw [lastPiece, List.rtakeWhile_eq_nil_iff]
  constructor
  · intro h c hc
    obtain ⟨hne, rfl⟩ := List.mem_getLast?_eq_getLast hc
    simpa using h hne
  · intro h hne
    simpa using h _ (List.getLast?_eq_getLast_of_ne_nil hne)

theorem lastPiece_ne_nil_iff {special : Bool} {s : Char} (hs : isSlash special s = true)
    (cs : List Char) :
    lastPiece special cs ≠ [] ↔ ∀ c ∈ (s :: cs).getLast?, isSlash special c = false := by
  rw [Ne, lastPiece_eq_nil_iff, List.getLast?_cons]
  cases hlast : cs.getLast? with
  | none => simp [hs]
  | some c => simp

/-! ## The segments behind a path -/

theorem isEdge_of_dotCount? {p : List Char} {n : Nat} (h : dotCount? p = some n) :
    ∀ c ∈ p, isEdge c = false := by
  fun_induction dotCount? p generalizing n with
  | case1 => exact nofun
  | case2 cs ih =>
      obtain ⟨m, hm, -⟩ := Option.map_eq_some_iff.mp h
      exact List.forall_mem_cons.mpr ⟨by decide, ih hm⟩
  | case3 cs ih =>
      obtain ⟨m, hm, -⟩ := Option.map_eq_some_iff.mp h
      simp only [List.forall_mem_cons]
      exact ⟨by decide, by decide, by decide, ih hm⟩
  | case4 cs ih =>
      obtain ⟨m, hm, -⟩ := Option.map_eq_some_iff.mp h
      simp only [List.forall_mem_cons]
      exact ⟨by decide, by decide, by decide, ih hm⟩
  | case5 => cases h

theorem IsDots.not_isEdge {p : List Char} (h : IsDots p) : ∀ c ∈ p, isEdge c = false :=
  h.elim isEdge_of_dotCount? isEdge_of_dotCount?

theorem IsDots.ne_nil {p : List Char} (h : IsDots p) : p ≠ [] := by
  rintro rfl
  exact h.elim nofun nofun

/-- The last piece goes on with the blanks behind a path. -/
theorem exists_isEdge_mem_lastPiece (special : Bool) (cs : List Char) {blanks : List Char}
    (hne : blanks ≠ []) (hblanks : ∀ c ∈ blanks, isEdge c = true) :
    ∃ b ∈ lastPiece special (cs ++ blanks), isEdge b = true := by
  obtain ⟨front, b, rfl⟩ := (List.eq_nil_or_concat' blanks).resolve_left hne
  have hedge := hblanks b (List.mem_append_right _ List.mem_cons_self)
  refine ⟨b, ?_, hedge⟩
  rw [← List.append_assoc, lastPiece,
    List.rtakeWhile_concat_pos _ _ _ (by simp [not_isSlash_of_isEdge special hedge])]
  exact List.mem_append_right _ List.mem_cons_self

theorem percentEncode_eq_nil {inSet : Char → Bool} {cs : List Char}
    (h : percentEncode inSet cs = []) : cs = [] := by
  cases cs with
  | nil => rfl
  | cons c cs =>
      rw [percentEncode, List.flatMap_cons] at h
      have hhead := (List.append_eq_nil_iff.mp h).1
      split at hhead
      · unfold Text.Utf8.encodeChar at hhead
        simp only at hhead
        split at hhead
        · cases hhead
        · split at hhead
          · cases hhead
          · split at hhead <;> cases hhead
      · cases hhead

/-! ## Drives and empty segments in a file's path -/

theorem IsName.not_isDrive {n : List Char} (h : IsName n) : isDrive n = false := by
  unfold isDrive
  split
  · next c m =>
    have hm := h.2 m (List.mem_cons_of_mem _ List.mem_cons_self)
    have hmark : (m == ':' || m == '|') = false := by
      rw [Bool.or_eq_false_iff, beq_eq_false_iff_ne, beq_eq_false_iff_ne]
      constructor <;> rintro rfl <;> exact absurd hm (by decide)
    rw [hmark, Bool.and_false]
  · rfl

/-- A drive in front changes the first segment only. -/
theorem readFilePath_eq_cons {cs s : List Char} {ss : List (List Char)}
    (h : (readSegments .file cs).dropWhile List.isEmpty = s :: ss) :
    ∃ s', readFilePath cs = s' :: ss := by
  rw [readFilePath, h]
  simp only
  split
  · split <;> exact ⟨_, rfl⟩
  · exact ⟨_, rfl⟩

theorem all_empty_of_readFilePath {cs : List Char} (h : readFilePath cs = [[]]) :
    ∀ s ∈ readSegments .file cs, s = [] := by
  cases hdrop : (readSegments .file cs).dropWhile List.isEmpty with
  | nil => exact fun s hs => List.isEmpty_iff.mp (List.dropWhile_eq_nil_iff.mp hdrop s hs)
  | cons s ss =>
      have hs : s.isEmpty = false := by
        have hhead := List.head?_dropWhile_not List.isEmpty (readSegments .file cs)
        rw [hdrop] at hhead
        exact hhead
      -- a first segment that counts is never shown as an empty one
      rw [readFilePath, hdrop] at h
      simp only at h
      split at h
      · split at h <;> cases (List.cons.inj h).1
      · rw [(List.cons.inj h).1] at hs
        cases hs

section
variable {names : List (List Char)} (hne : names ≠ []) (hnames : ∀ n ∈ names, IsName n)
include hne hnames

/-- Names change nothing in front of the last piece of a path. -/
theorem readSegments_reaches (rules : Rules) (tail : List Char) :
    ∃ reached, readSegments rules tail = walk rules reached [lastPiece rules.isSpecial tail] ∧
      readSegments rules (tail ++ pathText names) =
        walk rules reached (lastPiece rules.isSpecial tail :: names) := by
  obtain ⟨ps, hps⟩ := splitSlashes_lastPiece rules.isSpecial tail
  obtain ⟨reached, hreached⟩ := walk_reaches rules ps []
  refine ⟨reached, ?_, ?_⟩
  · rw [readSegments, hps, hreached (List.cons_ne_nil _ _)]
  · rw [readSegments, splitSlashes_append_pathText _ _ hne hnames, hps, List.append_assoc,
      List.singleton_append, hreached (List.cons_ne_nil _ _)]

/-- A piece of dots at the end of a path makes way for names. -/
theorem readSegments_dots {rules : Rules} {tail : List Char}
    (h : IsDots (lastPiece rules.isSpecial tail)) :
    ∃ front, readSegments rules tail = front ++ [[]] ∧
      readSegments rules (tail ++ pathText names) = front ++ names := by
  obtain ⟨reached, htail, hwhole⟩ := readSegments_reaches hne hnames rules tail
  obtain ⟨left, hend, hleft⟩ := walk_cons_dots h rules reached
  refine ⟨left.reverse, htail.trans hend, ?_⟩
  rw [hwhole, hleft hne, walk_plain fun n hn => (hnames n hn).plain]

/-- Any other piece at the end of a path is a segment in front of the names. -/
theorem readSegments_segment {rules : Rules} {tail : List Char}
    (h : ¬ IsDots (lastPiece rules.isSpecial tail)) :
    ∃ front, let s := percentEncode inPath (lastPiece rules.isSpecial tail)
      readSegments rules tail = front ++ [s] ∧
        readSegments rules (tail ++ pathText names) = front ++ s :: names := by
  obtain ⟨reached, htail, hwhole⟩ := readSegments_reaches hne hnames rules tail
  rw [walk_cons_segment h] at htail hwhole
  rw [walk_plain (fun n hn => (hnames n hn).plain), List.reverse_cons, List.append_assoc] at hwhole
  rw [walk, List.reverse_cons] at htail
  exact ⟨reached.reverse, htail, hwhole⟩

/-- Behind blanks there is one segment more than the names. -/
theorem readSegments_blanks (rules : Rules) (tail : List Char) {blanks : List Char}
    (hblank : blanks ≠ []) (hblanks : ∀ c ∈ blanks, isEdge c = true) :
    ∃ front s, s ≠ [] ∧ readSegments rules (tail ++ blanks ++ pathText names) =
      front ++ s :: names := by
  obtain ⟨b, hmem, hedge⟩ := exists_isEdge_mem_lastPiece rules.isSpecial tail hblank hblanks
  have hdots : ¬ IsDots (lastPiece rules.isSpecial (tail ++ blanks)) := by
    intro h
    rw [h.not_isEdge b hmem] at hedge
    cases hedge
  obtain ⟨front, -, hwhole⟩ := readSegments_segment hne hnames hdots
  refine ⟨front, _, fun hnil => ?_, hwhole⟩
  rw [percentEncode_eq_nil hnil] at hmem
  cases hmem

theorem splitSlashes_tail_pathText (special : Bool) :
    splitSlashes special (pathText names).tail = names := by
  have hsplit := splitSlashes_append_pathText special [] hne hnames
  obtain ⟨n, names, rfl⟩ := List.exists_cons_of_ne_nil hne
  rw [List.nil_append, splitSlashes, pathText_cons, splitSlashes,
    if_pos (isSlash_slash special)] at hsplit
  exact (List.cons.inj hsplit).2

theorem readSegments_tail_pathText (rules : Rules) :
    readSegments rules (pathText names).tail = names := by
  rw [readSegments, splitSlashes_tail_pathText hne hnames,
    walk_plain fun n hn => (hnames n hn).plain]
  rfl

/-! ## The path of a server -/

theorem readPath_pathText (rules : Rules) : readPath rules (pathText names) = .segments names := by
  have hsegments := readSegments_tail_pathText hne hnames rules
  obtain ⟨n, names, rfl⟩ := List.exists_cons_of_ne_nil hne
  rw [pathText_cons, List.tail_cons] at hsegments
  rw [pathText_cons, readPath_slash rules (isSlash_slash _), hsegments]

/-- Names are the path behind the path of a server just if that ends in something, and not in a
blank. -/
theorem readPath_names_iff (rules : Rules) {s : Char} (hs : isSlash rules.isSpecial s = true)
    {tail blanks : List Char} (hroot : (readPath rules (s :: tail)).render = ['/'])
    (hblanks : ∀ c ∈ blanks, isEdge c = true) :
    (readPath rules (s :: tail ++ blanks ++ pathText names)).render = pathText names ↔
      blanks = [] ∧ ∀ c ∈ (s :: tail).getLast?, isSlash rules.isSpecial c = false := by
  rw [readPath_slash rules hs] at hroot
  replace hroot : readSegments rules tail = [[]] := eq_of_pathText_eq_slash hroot
  rw [List.cons_append, List.cons_append, readPath_slash rules hs, ← pathText]
  by_cases hblank : blanks = []
  · subst hblank
    rw [List.append_nil, ← lastPiece_ne_nil_iff hs]
    by_cases hdots : IsDots (lastPiece rules.isSpecial tail)
    · obtain ⟨front, htail, hwhole⟩ := readSegments_dots hne hnames hdots
      have hfront : [] = front := by
        rw [hroot] at htail
        exact List.append_cancel_right htail
      rw [hwhole, ← hfront, List.nil_append]
      exact ⟨fun _ => ⟨rfl, hdots.ne_nil⟩, fun _ => rfl⟩
    · obtain ⟨front, htail, hwhole⟩ := readSegments_segment hne hnames hdots
      rw [hwhole]
      refine ⟨fun h => absurd h (pathText_ne _ _ _), fun ⟨_, hpiece⟩ => ?_⟩
      have hlast := congrArg List.getLast? (hroot.symm.trans htail)
      rw [List.getLast?_concat] at hlast
      exact absurd (percentEncode_eq_nil (Option.some.inj hlast).symm) hpiece
  · obtain ⟨front, p, -, hwhole⟩ := readSegments_blanks hne hnames rules tail hblank hblanks
    rw [hwhole]
    exact ⟨fun h => absurd h (pathText_ne _ _ _), fun h => absurd h.1 hblank⟩

/-! ## The path of a file -/

/-- Empty segments in front of names do not count in the path of a file. -/
theorem readFilePath_eq_names {cs : List Char} {empties : List (List Char)}
    (hempties : ∀ s ∈ empties, s = []) (h : readSegments .file cs = empties ++ names) :
    readFilePath cs = names := by
  have hdrop : (empties ++ names).dropWhile List.isEmpty = names := by
    rw [List.dropWhile_append_of_pos fun s hs => List.isEmpty_iff.mpr (hempties s hs)]
    obtain ⟨n, names, rfl⟩ := List.exists_cons_of_ne_nil hne
    have hn : ¬ n.isEmpty = true := mt List.isEmpty_iff.mp (hnames n List.mem_cons_self).1
    rw [List.dropWhile_cons, if_neg hn]
  obtain ⟨n, names, rfl⟩ := List.exists_cons_of_ne_nil hne
  have hdrive := (hnames n List.mem_cons_self).not_isDrive
  rw [readFilePath, h, hdrop]
  split
  · next heq => cases heq
  · next s ss heq =>
    obtain ⟨rfl, rfl⟩ := List.cons.inj heq
    split
    · rw [hdrive]
      rfl
    · rfl

theorem readFilePath_tail_pathText : readFilePath (pathText names).tail = names := by
  have hnone : ∀ s ∈ ([] : List (List Char)), s = [] := nofun
  exact readFilePath_eq_names hne hnames hnone (readSegments_tail_pathText hne hnames .file)

theorem readFilePath_names {tail : List Char} (hroot : readFilePath tail = [[]]) :
    readFilePath (tail ++ pathText names) = names := by
  have hempty := all_empty_of_readFilePath hroot
  by_cases hdots : IsDots (lastPiece Rules.file.isSpecial tail)
  · obtain ⟨front, htail, hwhole⟩ := readSegments_dots hne hnames hdots
    rw [htail] at hempty
    exact readFilePath_eq_names hne hnames (fun s hs => hempty s (List.mem_append_left _ hs)) hwhole
  · obtain ⟨front, htail, hwhole⟩ := readSegments_segment hne hnames hdots
    rw [htail] at hempty
    refine readFilePath_eq_names hne hnames hempty ?_
    rw [hwhole, List.append_assoc]
    rfl

theorem readFilePath_blanks (tail : List Char) {blanks : List Char} (hblank : blanks ≠ [])
    (hblanks : ∀ c ∈ blanks, isEdge c = true) :
    ∃ front s, readFilePath (tail ++ blanks ++ pathText names) = front ++ s :: names := by
  obtain ⟨front, s, hs, hwhole⟩ := readSegments_blanks hne hnames .file tail hblank hblanks
  have hkept : ¬ s.isEmpty = true := mt List.isEmpty_iff.mp hs
  have hdrop : ∃ front', (front ++ s :: names).dropWhile List.isEmpty = front' ++ s :: names := by
    rw [List.dropWhile_append]
    split
    · exact ⟨[], by rw [List.dropWhile_cons, if_neg hkept]; rfl⟩
    · exact ⟨_, rfl⟩
  obtain ⟨front', hdrop⟩ := hdrop
  rw [← hwhole] at hdrop
  cases front' with
  | nil =>
      obtain ⟨s', hpath⟩ := readFilePath_eq_cons hdrop
      exact ⟨[], s', hpath⟩
  | cons p front' =>
      obtain ⟨p', hpath⟩ := readFilePath_eq_cons hdrop
      exact ⟨p' :: front', s, hpath⟩

end

end JobHealth.Url
