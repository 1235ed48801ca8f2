import JobHealth.Proofs.Text.Utf8
import JobHealth.Text.Lines
/-!
# `JobHealth.Proofs.Text.Lines` — lines that were written, whole or cut off

`unlines` ends each line with a line feed.  The lines of such a text are read
back, and of a text that was cut off the whole lines are, with a beginning of
one more line at most.
-/

namespace JobHealth.Text

/-- Text that ends no line. -/
def SingleLine (l : List Char) : Prop := '\n' ∉ l ∧ '\r' ∉ l

instance (l : List Char) : Decidable (SingleLine l) := inferInstanceAs (Decidable (_ ∧ _))

theorem SingleLine.of_prefix {l l' : List Char} (h : SingleLine l) (hl : l' <+: l) :
    SingleLine l' :=
  ⟨fun hmem => h.1 (hl.subset hmem), fun hmem => h.2 (hl.subset hmem)⟩

theorem SingleLine.append {l l' : List Char} (h : SingleLine l) (h' : SingleLine l') :
    SingleLine (l ++ l') := by
  unfold SingleLine
  rw [List.mem_append, List.mem_append, not_or, not_or]
  exact ⟨⟨h.1, h'.1⟩, ⟨h.2, h'.2⟩⟩

theorem SingleLine.lineFeed_not_mem {l : List Char} (h : SingleLine l) : 10 ∉ Utf8.encode l :=
  fun hmem => h.1 (Utf8.mem_encode hmem (by decide))

theorem return_not_mem_encode {cs : List Char} (h : '\r' ∉ cs) : 13 ∉ Utf8.encode cs :=
  fun hmem => h (Utf8.mem_encode hmem (by decide))

/-! ## Texts cut at a separator -/

theorem cutAt?_append {sep : Char} {xs : List Char} (h : sep ∉ xs) (ys : List Char) :
    cutAt? sep (xs ++ sep :: ys) = some (xs, ys) := by
  induction xs with
  | nil => rw [List.nil_append, cutAt?, if_pos rfl]
  | cons x xs ih =>
      obtain ⟨hx, hxs⟩ := not_or.mp (mt List.mem_cons.mpr h)
      rw [List.cons_append, cutAt?, if_neg (Ne.symm hx), ih hxs]
      rfl

theorem cutAt?_eq_none_iff {sep : Char} {xs : List Char} : cutAt? sep xs = none ↔ sep ∉ xs := by
  induction xs with
  | nil => exact ⟨fun _ => nofun, fun _ => rfl⟩
  | cons x xs ih =>
      by_cases hx : x = sep
      · subst hx
        simp [cutAt?]
      · simp [cutAt?, hx, ih, Ne.symm hx]

theorem eq_of_cutAt? {sep : Char} {cs front behind : List Char}
    (h : cutAt? sep cs = some (front, behind)) : cs = front ++ sep :: behind := by
  induction cs generalizing front with
  | nil => cases h
  | cons c cs ih =>
      rw [cutAt?] at h
      split at h
      · next hc =>
        obtain ⟨rfl, rfl⟩ := Prod.mk.inj (Option.some.inj h)
        rw [hc, List.nil_append]
      · obtain ⟨⟨front', behind'⟩, hcut, heq⟩ := Option.map_eq_some_iff.mp h
        obtain ⟨rfl, rfl⟩ := Prod.mk.inj heq
        rw [ih hcut, List.cons_append]

theorem exists_pieces (sep : Char) (cs : List Char) : ∃ p ps, pieces sep cs = p :: ps :=
  List.exists_cons_of_ne_nil (pieces_ne_nil sep cs)

/-- Text without the separator belongs to the first piece of what it stands before. -/
theorem pieces_append {sep : Char} {xs ys p : List Char} {ps : List (List Char)} (h : sep ∉ xs)
    (hys : pieces sep ys = p :: ps) : pieces sep (xs ++ ys) = (xs ++ p) :: ps := by
  induction xs with
  | nil => exact hys
  | cons x xs ih =>
      obtain ⟨hx, hxs⟩ := not_or.mp (mt List.mem_cons.mpr h)
      rw [List.cons_append, pieces, if_neg (Ne.symm hx), ih hxs]
      rfl

theorem mem_pieces {sep c : Char} {cs p : List Char} (hp : p ∈ pieces sep cs) (hc : c ∈ p) :
    c ∈ cs ∧ c ≠ sep := by
  induction cs generalizing p with
  | nil =>
      obtain rfl := List.mem_singleton.mp hp
      cases hc
  | cons x cs ih =>
      rw [pieces] at hp
      split at hp
      · rcases List.mem_cons.mp hp with rfl | hp
        · cases hc
        · exact ⟨List.mem_cons_of_mem _ (ih hp hc).1, (ih hp hc).2⟩
      · next hx =>
        split at hp
        · next hnil => exact absurd hnil (pieces_ne_nil sep cs)
        · next q qs hqs =>
          rcases List.mem_cons.mp hp with rfl | hp
          · rcases List.mem_cons.mp hc with rfl | hc
            · exact ⟨List.mem_cons_self, hx⟩
            · have hq := ih (hqs ▸ List.mem_cons_self) hc
              exact ⟨List.mem_cons_of_mem _ hq.1, hq.2⟩
          · have hq := ih (hqs ▸ List.mem_cons_of_mem _ hp) hc
            exact ⟨List.mem_cons_of_mem _ hq.1, hq.2⟩

theorem exists_mem_pieces {sep c : Char} {cs : List Char} (hc : c ∈ cs) (hsep : c ≠ sep) :
    ∃ p ∈ pieces sep cs, c ∈ p := by
  induction cs with
  | nil => cases hc
  | cons x cs ih =>
      rw [pieces]
      split
      · next hx =>
        rcases List.mem_cons.mp hc with rfl | hc
        · exact absurd hx hsep
        · obtain ⟨p, hp, hmem⟩ := ih hc
          exact ⟨p, List.mem_cons_of_mem _ hp, hmem⟩
      · split
        · next hnil => exact absurd hnil (pieces_ne_nil sep cs)
        · next q qs hqs =>
          rcases List.mem_cons.mp hc with rfl | hc
          · exact ⟨_, List.mem_cons_self, List.mem_cons_self⟩
          · obtain ⟨p, hp, hmem⟩ := ih hc
            rw [hqs] at hp
            rcases List.mem_cons.mp hp with rfl | hp
            · exact ⟨_, List.mem_cons_self, List.mem_cons_of_mem x hmem⟩
            · exact ⟨p, List.mem_cons_of_mem _ hp, hmem⟩

/-! ## Lines that were written -/

/-- The text of which these are the lines, each ended. -/
def unlines (ls : List (List Char)) : List Char := ls.flatMap (· ++ ['\n'])

theorem unlines_cons (l : List Char) (ls : List (List Char)) :
    unlines (l :: ls) = l ++ '\n' :: unlines ls := by
  rw [unlines, List.flatMap_cons, List.append_assoc]
  rfl

theorem join_cons_cons (sep : Char) (p q : List Char) (ps : List (List Char)) :
    join sep (p :: q :: ps) = p ++ sep :: join sep (q :: ps) := rfl

theorem join_cons (sep : Char) (p : List Char) (ps : List (List Char)) :
    join sep (p :: ps) = p ++ ps.flatMap (sep :: ·) := by
  induction ps generalizing p with
  | nil => exact (List.append_nil p).symm
  | cons q ps ih => rw [join_cons_cons, ih, List.flatMap_cons, List.cons_append]

theorem unlines_eq_join {ls : List (List Char)} (h : ls ≠ []) :
    unlines ls = join '\n' ls ++ ['\n'] := by
  induction ls with
  | nil => exact absurd rfl h
  | cons l ls ih =>
      cases ls with
      | nil => exact unlines_cons l []
      | cons l' ls =>
          rw [unlines_cons, ih nofun, join_cons_cons, List.append_assoc]
          rfl

/-! ## Reading lines -/

theorem linesAfter_append {l : List Char} (h : SingleLine l) (seen rest : List Char) :
    linesAfter seen (l ++ rest) = linesAfter (l.reverse ++ seen) rest := by
  induction l generalizing seen with
  | nil => rfl
  | cons c l ih =>
      have hc : c ≠ '\n' := fun e => h.1 (e ▸ List.mem_cons_self)
      have hl : SingleLine l :=
        ⟨fun hmem => h.1 (List.mem_cons_of_mem _ hmem), fun hmem => h.2 (List.mem_cons_of_mem _ hmem)⟩
      rw [List.cons_append, linesAfter, if_neg hc, ih hl, List.reverse_cons, List.append_assoc]
      rfl

theorem lines_append {l : List Char} (h : SingleLine l) (rest : List Char) :
    lines (l ++ '\n' :: rest) = l :: lines rest := by
  have hchomp : chomp l.reverse = l := by
    cases hr : l.reverse with
    | nil => rw [List.reverse_eq_nil_iff.mp hr]; rfl
    | cons c cs =>
        have hc : c ≠ '\r' := by
          rintro rfl
          exact h.2 (List.mem_reverse.mp (hr ▸ List.mem_cons_self))
        rw [chomp, ← hr, List.reverse_reverse]
        exact fun seen e => hc (List.cons.inj e).1
  rw [lines, linesAfter_append h, List.append_nil, linesAfter, if_pos rfl, hchomp]
  rfl

theorem lines_singleLine {l : List Char} (h : SingleLine l) :
    lines l = if l = [] then [] else [l] := by
  have happ := linesAfter_append h [] []
  rw [List.append_nil, List.append_nil] at happ
  rw [lines, happ, linesAfter, List.reverse_reverse]
  cases l <;> simp

theorem lines_join {ls : List (List Char)} (h : ∀ l ∈ ls, l ≠ [] ∧ SingleLine l) :
    lines (join '\n' ls) = ls := by
  induction ls with
  | nil => rfl
  | cons l ls ih =>
      obtain ⟨⟨hne, hl⟩, hls⟩ := List.forall_mem_cons.mp h
      cases ls with
      | nil => rw [join, lines_singleLine hl, if_neg hne]
      | cons l' ls =>
          rw [join_cons_cons, lines_append hl, ih hls]

theorem lines_unlines {ls : List (List Char)} (h : ∀ l ∈ ls, SingleLine l) :
    lines (unlines ls) = ls := by
  induction ls with
  | nil => rfl
  | cons l ls ih =>
      obtain ⟨hl, hls⟩ := List.forall_mem_cons.mp h
      rw [unlines_cons, lines_append hl, ih hls]

/-! ## Texts at a line boundary -/

/-- Behind the text a new line begins. -/
def EndsLine (cs : List Char) : Prop := cs = [] ∨ ∃ front, cs = front ++ ['\n']

theorem linesAfter_lineFeed (seen cs rest : List Char) :
    linesAfter seen (cs ++ '\n' :: rest) = linesAfter seen (cs ++ ['\n']) ++ lines rest := by
  induction cs generalizing seen with
  | nil =>
      rw [List.nil_append, List.nil_append, linesAfter, linesAfter, if_pos rfl, if_pos rfl]
      rfl
  | cons c cs ih =>
      rw [List.cons_append, List.cons_append, linesAfter, linesAfter]
      split
      · rw [ih, List.cons_append]
      · exact ih _

/-- Texts are read line by line, each on its own, where they are put together between lines. -/
theorem lines_append_of_endsLine {cs : List Char} (h : EndsLine cs) (rest : List Char) :
    lines (cs ++ rest) = lines cs ++ lines rest := by
  rcases h with rfl | ⟨front, rfl⟩
  · rfl
  · rw [List.append_assoc]
    exact linesAfter_lineFeed [] front rest

theorem EndsLine.append {cs cs' : List Char} (h : EndsLine cs) (h' : EndsLine cs') :
    EndsLine (cs ++ cs') := by
  rcases h' with rfl | ⟨front, rfl⟩
  · rwa [List.append_nil]
  · exact .inr ⟨cs ++ front, (List.append_assoc _ _ _).symm⟩

/-! ## Text that was cut off -/

/-- The second lines are what is left of the first ones when their text is cut off. -/
inductive Torn : List (List Char) → List (List Char) → Prop
  | nothing (ls : List (List Char)) : Torn ls []
  | part {l l' : List Char} {ls : List (List Char)} : l' <+: l → Torn (l :: ls) [l']
  | line {l : List Char} {ls ls' : List (List Char)} : Torn ls ls' → Torn (l :: ls) (l :: ls')

theorem torn_lines {ls : List (List Char)} (h : ∀ l ∈ ls, SingleLine l) {q : List Char}
    (hq : q <+: unlines ls) : Torn ls (lines q) := by
  induction ls generalizing q with
  | nil =>
      obtain rfl := List.prefix_nil.mp hq
      exact .nothing []
  | cons l ls ih =>
      obtain ⟨hl, hls⟩ := List.forall_mem_cons.mp h
      have hpart : ∀ {q}, q <+: l → Torn (l :: ls) (lines q) := by
        intro q hq
        rw [lines_singleLine (hl.of_prefix hq)]
        split
        · exact .nothing _
        · exact .part hq
      rw [unlines_cons] at hq
      rcases prefix_append_cases hq with ⟨t, -, rfl⟩ | ⟨q', rfl, hq'⟩
      · exact hpart (List.prefix_append _ _)
      · cases q' with
        | nil => exact hpart (by simp)
        | cons c q' =>
            obtain ⟨rfl, hq''⟩ := List.cons_prefix_cons.mp hq'
            rw [lines_append hl]
            exact .line (ih hls hq'')

end JobHealth.Text
