import JobHealth.Proofs.ReportText
/-!
# `JobHealth.Proofs.ReportColours` — colours come off again

A terminal reads a text as characters, between which there are control
sequences: an escape, an opening bracket, a code and an `m`.  Of a report with
colours these are all that is more than in the report without.

| of a report       | what a terminal reads                                 |
| :---------------- | :---------------------------------------------------- |
| a plain span      | its characters                                        |
| a styled span     | one or two codes, its characters, and the code `0`    |
| the end of a line | a line feed, which is in no style                     |

No span holds an escape of its own, provided that no name in it does.  So no
style is left on when the next begins, nor at the end of the text.
-/

namespace JobHealth.Report

open JobHealth.Text

/-! ## What a terminal reads -/

/-- The character that control sequences begin with. -/
def escape : Char := '\x1b'

/-- What a terminal reads at a time. -/
inductive Token where
  /-- A control sequence with its code, which is digits and semicolons. -/
  | control (code : List Char)
  | char (c : Char)
  deriving DecidableEq, Repr

def isParameter (c : Char) : Bool := c.isDigit || c == ';'

/-- The code of the control sequence that the escape before the text begins, and the text behind
it. -/
def code? : List Char → Option (List Char × List Char)
  | '[' :: cs => (cutAt? 'm' cs).filter fun (code, _) => code.all isParameter
  | _ => none

/-- An escape, and what stands behind it up to the next one. -/
def stretchTokens (behind : List Char) : List Token :=
  match code? behind with
  | some (code, text) => .control code :: text.map .char
  | none => .char escape :: behind.map .char

def tokens (text : List Char) : List Token :=
  match pieces escape text with
  | [] => []
  | front :: stretches => front.map .char ++ stretches.flatMap stretchTokens

def Token.written : Token → List Char
  | .control code => escape :: '[' :: code ++ ['m']
  | .char c => [c]

def Token.char? : Token → Option Char
  | .control _ => none
  | .char c => some c

/-- The text without its control sequences. -/
def withoutControls (text : String) : String :=
  String.ofList ((tokens text.toList).filterMap Token.char?)

/-- Each styled stretch is closed before the next one begins, and before the end.  A stretch is
begun by one code or by several in a row, and closed by the code `0`. -/
inductive Closed : List Token → Prop
  | nil : Closed []
  | char {c : Char} {ts : List Token} : c ≠ escape → Closed ts → Closed (.char c :: ts)
  | styled {codes : List (List Char)} {text : List Char} {ts : List Token} : codes ≠ [] →
      ['0'] ∉ codes → escape ∉ text → Closed ts →
      Closed (codes.map .control ++ text.map .char ++ .control ['0'] :: ts)

/-! ## Tokens of texts put together -/

theorem tokens_of_pieces {text front : List Char} {stretches : List (List Char)}
    (h : pieces escape text = front :: stretches) :
    tokens text = front.map .char ++ stretches.flatMap stretchTokens := by
  rw [tokens, h]

theorem tokens_append {text : List Char} (h : escape ∉ text) (rest : List Char) :
    tokens (text ++ rest) = text.map .char ++ tokens rest := by
  obtain ⟨front, stretches, hrest⟩ := exists_pieces escape rest
  rw [tokens_of_pieces (pieces_append h hrest), tokens_of_pieces hrest, List.map_append,
    List.append_assoc]

theorem written_chars (text : List Char) : (text.map Token.char).flatMap Token.written = text := by
  rw [List.flatMap_map]
  exact List.flatMap_singleton' text

theorem eq_of_code? {behind code text : List Char} (h : code? behind = some (code, text)) :
    behind = '[' :: code ++ 'm' :: text := by
  rw [code?.eq_def] at h
  split at h
  · obtain ⟨hcut, -⟩ := Option.filter_eq_some_iff.mp h
    rw [eq_of_cutAt? hcut, List.cons_append]
  · cases h

theorem written_stretchTokens (behind : List Char) :
    (stretchTokens behind).flatMap Token.written = escape :: behind := by
  rw [stretchTokens]
  split
  · next code text hcode =>
    rw [List.flatMap_cons, written_chars, eq_of_code? hcode]
    simp [Token.written]
  · rw [List.flatMap_cons, written_chars]
    rfl

/-- What a terminal reads is all of the text. -/
theorem written_tokens (text : List Char) : (tokens text).flatMap Token.written = text := by
  obtain ⟨front, stretches, htext⟩ := exists_pieces escape text
  have hjoin := join_pieces escape text
  rw [htext, join_cons] at hjoin
  rw [tokens_of_pieces htext, List.flatMap_append, written_chars, List.flatMap_assoc]
  simp only [written_stretchTokens]
  exact hjoin

theorem not_mem_of_parameters {code : List Char} (h : code.all isParameter = true) {c : Char}
    (hc : isParameter c = false) : c ∉ code := by
  intro hmem
  rw [List.all_eq_true.mp h c hmem] at hc
  cases hc

/-- A control sequence is read at once, whatever follows it. -/
theorem tokens_control {code : List Char} (h : code.all isParameter = true) (rest : List Char) :
    tokens ((Token.control code).written ++ rest) = .control code :: tokens rest := by
  have hescape : escape ∉ '[' :: code ++ ['m'] := by
    intro hmem
    rcases List.mem_append.mp hmem with hmem | hmem
    · rcases List.mem_cons.mp hmem with hbracket | hmem
      · exact absurd hbracket (by decide)
      · exact not_mem_of_parameters h (by decide) hmem
    · exact absurd hmem (by decide)
  obtain ⟨front, stretches, hrest⟩ := exists_pieces escape rest
  -- The sequence has no escape but its first, so it begins one stretch of the text.
  have hpieces : pieces escape ((Token.control code).written ++ rest) =
      [] :: ('[' :: code ++ ['m'] ++ front) :: stretches := by
    show pieces escape (escape :: ('[' :: code ++ ['m'] ++ rest)) = _
    rw [pieces, if_pos rfl, pieces_append hescape hrest]
  have hcode : code? ('[' :: code ++ ['m'] ++ front) = some (code, front) := by
    have hm : 'm' ∉ code := not_mem_of_parameters h (by decide)
    have hcut := cutAt?_append hm front
    show (cutAt? 'm' (code ++ ['m'] ++ front)).filter _ = _
    rw [List.append_assoc, List.singleton_append, hcut, Option.filter_some, if_pos h]
  rw [tokens_of_pieces hpieces, tokens_of_pieces hrest, List.flatMap_cons, stretchTokens, hcode]
  rfl

/-! ## Tokens of a report -/

/-- The codes that turn a style on. -/
def Style.codes (s : Style) : List (List Char) :=
  s.colour.code.toList :: if s.bold then [['1']] else []

/-- What a terminal reads of a span with colours. -/
def Span.tokens (s : Span) : List Token :=
  match s.style with
  | none => s.text.toList.map .char
  | some style => style.codes.map .control ++ s.text.toList.map .char ++ [.control ['0']]

def lineTokens (line : Line) : List Token := line.flatMap Span.tokens ++ [.char '\n']

theorem toList_control (code : String) :
    (control code).toList = (Token.control code.toList).written := by
  simp [control, Token.written, escape, String.toList_append]

theorem toList_opening (s : Style) :
    s.opening.toList = s.codes.flatMap fun code => (Token.control code).written := by
  obtain ⟨colour, bold⟩ := s
  cases bold <;> simp [Style.opening, Style.codes, String.toList_append, toList_control]

theorem parameters_codes (s : Style) : ∀ code ∈ s.codes, code.all isParameter = true := by
  obtain ⟨colour, bold⟩ := s
  cases colour <;> cases bold <;> decide

theorem tokens_codes {codes : List (List Char)} (h : ∀ code ∈ codes, code.all isParameter = true)
    (rest : List Char) :
    tokens ((codes.flatMap fun code => (Token.control code).written) ++ rest) =
      codes.map .control ++ tokens rest := by
  induction codes with
  | nil => rfl
  | cons code codes ih =>
      obtain ⟨hcode, hcodes⟩ := List.forall_mem_cons.mp h
      rw [List.flatMap_cons, List.append_assoc, tokens_control hcode, ih hcodes]
      rfl

theorem tokens_span {s : Span} (h : escape ∉ s.text.toList) (rest : List Char) :
    tokens ((s.render true).toList ++ rest) = s.tokens ++ tokens rest := by
  obtain ⟨style, text⟩ := s
  cases style with
  | none => exact tokens_append h rest
  | some style =>
      have hclosing : closing.toList = (Token.control ['0']).written := toList_control "0"
      have hzero : (['0'] : List Char).all isParameter = true := by decide
      show tokens ((style.opening ++ text ++ closing).toList ++ rest) =
        style.codes.map .control ++ text.toList.map .char ++ [.control ['0']] ++ tokens rest
      rw [String.toList_append, String.toList_append, toList_opening, hclosing, List.append_assoc,
        List.append_assoc, tokens_codes (parameters_codes style), tokens_append h,
        tokens_control hzero]
      simp only [List.append_assoc, List.singleton_append]

theorem tokens_spans {line : Line} (h : ∀ s ∈ line, escape ∉ s.text.toList) (rest : List Char) :
    tokens (line.flatMap (fun s => (s.render true).toList) ++ rest) =
      line.flatMap Span.tokens ++ tokens rest := by
  induction line with
  | nil => rfl
  | cons s line ih =>
      obtain ⟨hs, hline⟩ := List.forall_mem_cons.mp h
      rw [List.flatMap_cons, List.append_assoc, tokens_span hs, ih hline, List.flatMap_cons,
        List.append_assoc]

theorem tokens_line {line : Line} (h : ∀ s ∈ line, escape ∉ s.text.toList) (rest : List Char) :
    tokens ((renderLine true line).toList ++ rest) = lineTokens line ++ tokens rest := by
  have hfeed : escape ∉ ['\n'] := by decide
  rw [renderLine, String.toList_append, String.toList_join, List.flatMap_map, List.append_assoc,
    tokens_spans h]
  show _ ++ tokens (['\n'] ++ rest) = _
  rw [tokens_append hfeed, lineTokens, List.append_assoc]
  rfl

theorem tokens_lines {ls : List Line} (h : ∀ line ∈ ls, ∀ s ∈ line, escape ∉ s.text.toList) :
    tokens (ls.flatMap fun line => (renderLine true line).toList) = ls.flatMap lineTokens := by
  induction ls with
  | nil => rfl
  | cons line ls ih =>
      obtain ⟨hline, hls⟩ := List.forall_mem_cons.mp h
      rw [List.flatMap_cons, tokens_line hline, ih hls, List.flatMap_cons]

theorem toList_render_coloured (base : String) (t : Totals) (failures : Log.Failures) :
    (render true base t failures).toList =
      (lines base t failures).flatMap fun line => (renderLine true line).toList := by
  rw [render, String.toList_join, List.flatMap_map]

/-! ## Without the control sequences -/

theorem filterMap_char (text : List Char) : (text.map Token.char).filterMap Token.char? = text := by
  rw [List.filterMap_map]
  exact List.filterMap_some

theorem filterMap_control (codes : List (List Char)) :
    (codes.map Token.control).filterMap Token.char? = [] := by
  rw [List.filterMap_map]
  exact List.filterMap_eq_nil_iff.mpr fun _ _ => rfl

theorem filterMap_span (s : Span) : s.tokens.filterMap Token.char? = s.text.toList := by
  obtain ⟨style, text⟩ := s
  cases style with
  | none => exact filterMap_char text.toList
  | some style =>
      show (style.codes.map Token.control ++ text.toList.map Token.char ++
        [Token.control ['0']]).filterMap Token.char? = text.toList
      rw [List.filterMap_append, List.filterMap_append, filterMap_control, filterMap_char]
      exact List.append_nil _

theorem filterMap_line (line : Line) :
    (lineTokens line).filterMap Token.char? = chars line ++ ['\n'] := by
  rw [lineTokens, List.filterMap_append, List.filterMap_flatMap, chars]
  exact congrArg (· ++ ['\n']) (List.flatMap_congr fun s _ => filterMap_span s)

/-! ## Closed stretches -/

theorem Closed.append {ts ts' : List Token} (h : Closed ts) (h' : Closed ts') :
    Closed (ts ++ ts') := by
  induction h with
  | nil => exact h'
  | char hc _ ih => exact .char hc ih
  | styled hcodes hzero htext _ ih =>
      rw [List.append_assoc, List.cons_append]
      exact .styled hcodes hzero htext ih

theorem closed_chars {text : List Char} (h : escape ∉ text) : Closed (text.map .char) := by
  induction text with
  | nil => exact .nil
  | cons c text ih =>
      obtain ⟨hc, htext⟩ := not_or.mp (mt List.mem_cons.mpr h)
      exact .char (Ne.symm hc) (ih htext)

theorem zero_not_mem_codes (s : Style) : ['0'] ∉ s.codes := by
  obtain ⟨colour, bold⟩ := s
  cases colour <;> cases bold <;> decide

theorem closed_span {s : Span} (h : escape ∉ s.text.toList) : Closed s.tokens := by
  obtain ⟨style, text⟩ := s
  cases style with
  | none => exact closed_chars h
  | some style => exact .styled nofun (zero_not_mem_codes style) h .nil

theorem closed_flatMap {α : Type} {f : α → List Token} {xs : List α}
    (h : ∀ x ∈ xs, Closed (f x)) : Closed (xs.flatMap f) := by
  induction xs with
  | nil => exact .nil
  | cons x xs ih =>
      obtain ⟨hx, hxs⟩ := List.forall_mem_cons.mp h
      exact hx.append (ih hxs)

theorem closed_line {line : Line} (h : ∀ s ∈ line, escape ∉ s.text.toList) :
    Closed (lineTokens line) :=
  (closed_flatMap fun s hs => closed_span (h s hs)).append (.char (by decide) .nil)

/-! ## The whole report -/

/-- **Colours add nothing but colours**: deleted from a report with colours, the control sequences
leave the report without colours, and each styled stretch is closed before the next one begins and
before the end of the text. -/
theorem colours_come_off {base : String} {failures : Log.Failures}
    (h : Lacks base failures escape) (t : Totals) :
    (tokens (render true base t failures).toList).flatMap Token.written =
        (render true base t failures).toList ∧
      withoutControls (render true base t failures) = render false base t failures ∧
      Closed (tokens (render true base t failures).toList) := by
  have hescape := h.not_mem_lines (by decide) t
  have htokens : tokens (render true base t failures).toList =
      (lines base t failures).flatMap lineTokens := by
    rw [toList_render_coloured, tokens_lines hescape]
  have hplain : (tokens (render true base t failures).toList).filterMap Token.char? =
      (render false base t failures).toList := by
    rw [htokens, List.filterMap_flatMap, toList_render, unlines, List.flatMap_map]
    exact List.flatMap_congr fun line _ => filterMap_line line
  refine ⟨written_tokens _, ?_, ?_⟩
  · rw [withoutControls, hplain, String.ofList_toList]
  · rw [htokens]
    exact closed_flatMap fun line hline => closed_line (hescape line hline)

/-- A test whose key looks like the rest of a control sequence, on builds with line feeds and
brackets in their names. -/
theorem colours_of_lookalikes :
    let b : Build := ⟨7, "[0m\n7", "failed", "/api/v1/builds/7", "ma[in", "31m", "j;j"⟩
    let failures := (Log.Failures.empty.push "[31m" b).push "[31m" b
    let t : Totals := ⟨1, 2, 0⟩
    Lacks "http://ci" failures escape ∧
      render true "http://ci" t failures ≠ render false "http://ci" t failures ∧
      withoutControls (render true "http://ci" t failures) = render false "http://ci" t failures ∧
      Closed (tokens (render true "http://ci" t failures).toList) := by
  intro b failures t
  have hlacks : Lacks "http://ci" failures escape :=
    ⟨by decide +kernel, by decide +kernel, by decide +kernel⟩
  obtain ⟨-, hoff, hclosed⟩ := colours_come_off hlacks t
  refine ⟨hlacks, ?_, hoff, hclosed⟩
  decide +kernel

end JobHealth.Report
