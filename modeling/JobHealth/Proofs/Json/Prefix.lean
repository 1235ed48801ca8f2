import JobHealth.Json.Read
import JobHealth.Proofs.Json.Spelling
/-!
# `JobHealth.Proofs.Json.Prefix` — what a reader has read, more text does not change

A reader goes from left to right and stops where its value ends.  Only behind a
numeral does it look at the next character, so once anything is left of a text,
or the value has an end of its own, the same value is read from every longer
text.
-/

namespace JobHealth.Json

open JobHealth.Number

theorem bind_eq_ok {ε α β : Type} {x : Except ε α} {f : α → Except ε β} {b : β} :
    (x >>= f) = .ok b ↔ ∃ a, x = .ok a ∧ f a = .ok b := by
  cases x with
  | error e => exact ⟨nofun, fun ⟨_, h, _⟩ => nomatch h⟩
  | ok a => exact ⟨fun h => ⟨a, rfl, h⟩, fun ⟨_, ha, h⟩ => by rw [Except.ok.inj ha]; exact h⟩

theorem map_eq_ok {ε α β : Type} {x : Except ε α} {f : α → β} {b : β} :
    x.map f = .ok b ↔ ∃ a, x = .ok a ∧ f a = b := by
  cases x with
  | error e => exact ⟨nofun, fun ⟨_, h, _⟩ => nomatch h⟩
  | ok a =>
      exact ⟨fun h => ⟨a, rfl, Except.ok.inj h⟩, fun ⟨_, ha, h⟩ => by
        rw [Except.ok.inj ha, ← h]; rfl⟩

/-! ## Lexical forms -/

theorem skipGap_append {cs rest : List Char} {c : Char} (h : skipGap cs = c :: rest)
    (more : List Char) : skipGap (cs ++ more) = c :: (rest ++ more) := by
  unfold skipGap at h ⊢
  rw [List.dropWhile_append, h]
  rfl

theorem scanString_append {cs s rest : List Char} (h : scanString cs = some (s, rest))
    (more : List Char) : scanString (cs ++ more) = some (s, rest ++ more) := by
  obtain ⟨t, ht, rfl⟩ := scanString_eq_some_iff.mp h
  exact scanString_eq_some_iff.mpr ⟨t, ht, List.append_assoc ..⟩

theorem skipString_append {cs rest : List Char} (h : skipString cs = some rest)
    (more : List Char) : skipString (cs ++ more) = some (rest ++ more) := by
  fun_induction skipString cs with
  | case2 cs =>
      obtain rfl := Option.some.inj h
      show skipString ('"' :: (cs ++ more)) = _
      rw [skipString.eq_def]
      rfl
  | case4 h₁ h₂ h₃ h₄ cs hword _ ih =>
      obtain ⟨n, hn⟩ := Option.isSome_iff_exists.mp hword
      exact (skipString_word hn (cs ++ more)).trans (ih h)
  | case7 e cs hu he _ ih =>
      show skipString ('\\' :: e :: (cs ++ more)) = _
      rw [skipString.eq_def]
      simp only [if_neg hu, if_pos he]
      exact ih h
  | case10 c cs hquote hslash hc ih =>
      show skipString (c :: (cs ++ more)) = _
      rw [skipString.eq_def]
      simp only [if_neg hquote, if_neg hslash, if_neg hc]
      exact ih h
  | _ => cases h

/-- A run of digits that ends within the text. -/
theorem digits_append {cs : List Char} (h : cs.dropWhile Char.isDigit ≠ []) (more : List Char) :
    (cs ++ more).takeWhile Char.isDigit = cs.takeWhile Char.isDigit ∧
      (cs ++ more).dropWhile Char.isDigit = cs.dropWhile Char.isDigit ++ more := by
  have hlen : (cs.takeWhile Char.isDigit).length ≠ cs.length := by
    intro hlen
    have hsplit := congrArg List.length
      (List.takeWhile_append_dropWhile (p := Char.isDigit) (l := cs))
    rw [List.length_append, hlen] at hsplit
    exact h (List.length_eq_zero_iff.mp (by omega))
  rw [List.takeWhile_append, if_neg hlen, List.dropWhile_append, if_neg (by simpa using h)]
  exact ⟨rfl, rfl⟩

theorem scanFraction_append {cs rest : List Char} {f : Option (List Char)}
    (h : scanFraction cs = some (f, rest)) (hrest : rest ≠ []) (more : List Char) :
    scanFraction (cs ++ more) = some (f, rest ++ more) := by
  cases cs with
  | nil =>
      obtain ⟨-, rfl⟩ := Prod.mk.inj (Option.some.inj h)
      exact absurd rfl hrest
  | cons c cs =>
      by_cases hc : c = '.'
      · subst hc
        rw [scanFraction] at h
        split at h
        · cases h
        · next hds =>
          obtain ⟨rfl, rfl⟩ := Prod.mk.inj (Option.some.inj h)
          obtain ⟨htake, hdrop⟩ := digits_append hrest more
          show scanFraction ('.' :: (cs ++ more)) = _
          rw [scanFraction, htake, hdrop, if_neg hds]
      · have hplain : ∀ ds, scanFraction (c :: ds) = some (none, c :: ds) := by
          intro ds
          rw [scanFraction]
          exact fun rest e => hc (List.cons.inj e).1
        rw [hplain] at h
        obtain ⟨rfl, rfl⟩ := Prod.mk.inj (Option.some.inj h)
        exact hplain (cs ++ more)

theorem cutSign_append {cs : List Char} (h : cs ≠ []) (more : List Char) :
    cutSign (cs ++ more) = ((cutSign cs).1, (cutSign cs).2 ++ more) := by
  cases cs with
  | nil => exact absurd rfl h
  | cons c cs =>
      by_cases hminus : c = '-'
      · subst hminus; rfl
      · by_cases hplus : c = '+'
        · subst hplus; rfl
        · simp [cutSign, hminus, hplus]

theorem cutMinus_append {cs : List Char} (h : cs ≠ []) (more : List Char) :
    cutMinus (cs ++ more) = ((cutMinus cs).1, (cutMinus cs).2 ++ more) := by
  cases cs with
  | nil => exact absurd rfl h
  | cons c cs =>
      by_cases hminus : c = '-'
      · subst hminus; rfl
      · simp [cutMinus, hminus]

theorem scanExponent_cons (c : Char) (cs : List Char) :
    scanExponent (c :: cs) =
      if c = 'e' || c = 'E' then
        if ((cutSign cs).2.takeWhile Char.isDigit).isEmpty then none
        else some (some ((cutSign cs).1, (cutSign cs).2.takeWhile Char.isDigit),
          (cutSign cs).2.dropWhile Char.isDigit)
      else some (none, c :: cs) := rfl

theorem scanExponent_append {cs rest : List Char} {x : Option (Bool × List Char)}
    (h : scanExponent cs = some (x, rest)) (hrest : rest ≠ []) (more : List Char) :
    scanExponent (cs ++ more) = some (x, rest ++ more) := by
  cases cs with
  | nil =>
      obtain ⟨-, rfl⟩ := Prod.mk.inj (Option.some.inj h)
      exact absurd rfl hrest
  | cons c cs =>
      rw [scanExponent_cons] at h
      rw [List.cons_append, scanExponent_cons]
      split at h
      · next hc =>
        split at h
        · cases h
        · next hds =>
          obtain ⟨rfl, rfl⟩ := Prod.mk.inj (Option.some.inj h)
          have hcs : cs ≠ [] := by
            rintro rfl
            exact hrest rfl
          obtain ⟨htake, hdrop⟩ := digits_append hrest more
          rw [if_pos hc, cutSign_append hcs, htake, hdrop, if_neg hds]
      · next hc =>
        obtain ⟨rfl, rfl⟩ := Prod.mk.inj (Option.some.inj h)
        rw [if_neg hc]
        rfl

/-- The whole digits of a numeral with a leading zero only as the sole one. -/
def WholeDigits (ds : List Char) : Prop :=
  ¬ (ds.isEmpty || (ds.length != 1 && ds.head? == some '0')) = true

theorem scanNumeral_eq_some_iff {cs rest : List Char} {n : Numeral} :
    scanNumeral cs = some (n, rest) ↔
      n.negative = (cutMinus cs).1 ∧ n.whole = (cutMinus cs).2.takeWhile Char.isDigit ∧
        WholeDigits n.whole ∧
        ∃ r, scanFraction ((cutMinus cs).2.dropWhile Char.isDigit) = some (n.fraction, r) ∧
          scanExponent r = some (n.exponent, rest) := by
  have heq : scanNumeral cs =
      if ((cutMinus cs).2.takeWhile Char.isDigit).isEmpty ||
          (((cutMinus cs).2.takeWhile Char.isDigit).length != 1 &&
            ((cutMinus cs).2.takeWhile Char.isDigit).head? == some '0') then none
      else
        (scanFraction ((cutMinus cs).2.dropWhile Char.isDigit)).bind fun f =>
          (scanExponent f.2).bind fun x =>
            some (⟨(cutMinus cs).1, (cutMinus cs).2.takeWhile Char.isDigit, f.1, x.1⟩, x.2) := rfl
  rw [heq]
  constructor
  · intro h
    split at h
    · cases h
    · next hds =>
      obtain ⟨⟨f, r⟩, hfraction, h⟩ := Option.bind_eq_some_iff.mp h
      obtain ⟨⟨x, rest'⟩, hexponent, h⟩ := Option.bind_eq_some_iff.mp h
      obtain ⟨rfl, rfl⟩ := Prod.mk.inj (Option.some.inj h)
      exact ⟨rfl, rfl, hds, r, hfraction, hexponent⟩
  · rintro ⟨hneg, hwhole, hds, r, hfraction, hexponent⟩
    rw [hwhole] at hds
    rw [if_neg hds]
    simp only [hfraction, hexponent, Option.bind_some, ← hneg, ← hwhole]

theorem scanNumeral_append {cs rest : List Char} {n : Numeral}
    (h : scanNumeral cs = some (n, rest)) (hrest : rest ≠ []) (more : List Char) :
    scanNumeral (cs ++ more) = some (n, rest ++ more) := by
  obtain ⟨hneg, hwhole, hds, r, hfraction, hexponent⟩ := scanNumeral_eq_some_iff.mp h
  have hr : r ≠ [] := by
    rintro rfl
    obtain ⟨-, rfl⟩ := Prod.mk.inj (Option.some.inj hexponent)
    exact hrest rfl
  have hbehind : (cutMinus cs).2.dropWhile Char.isDigit ≠ [] := by
    intro hnil
    rw [hnil] at hfraction
    obtain ⟨-, rfl⟩ := Prod.mk.inj (Option.some.inj hfraction)
    exact hr rfl
  have hcs : cs ≠ [] := by
    rintro rfl
    exact hbehind rfl
  obtain ⟨htake, hdrop⟩ := digits_append hbehind more
  rw [scanNumeral_eq_some_iff, cutMinus_append hcs, htake, hdrop]
  exact ⟨hneg, hwhole, hds, r ++ more, scanFraction_append hfraction hr more,
    scanExponent_append hexponent hrest more⟩

/-! ## Readers -/

/-- A reader that stops within a text reads the same when more text follows. -/
def Settled {α : Type} (read : Reader α) : Prop :=
  ∀ ⦃cs v rest⦄, read cs = .ok (v, rest) → rest ≠ [] →
    ∀ more, read (cs ++ more) = .ok (v, rest ++ more)

/-- A reader that sees the end of its value reads the same when more text follows. -/
def Delimited {α : Type} (read : Reader α) : Prop :=
  ∀ ⦃cs v rest⦄, read cs = .ok (v, rest) → ∀ more, read (cs ++ more) = .ok (v, rest ++ more)

theorem expectLetters_append {letters cs rest : List Char}
    (h : expectLetters letters cs = .ok rest) (more : List Char) :
    expectLetters letters (cs ++ more) = .ok (rest ++ more) := by
  unfold expectLetters at h ⊢
  split at h
  · next hpre =>
    obtain rfl := Except.ok.inj h
    obtain ⟨t, rfl⟩ := List.isPrefixOf_iff_prefix.mp hpre
    rw [if_pos (List.isPrefixOf_iff_prefix.mpr
      ((List.prefix_append _ t).trans (List.prefix_append _ more)))]
    simp
  · cases h

theorem readMark_append {mark : Char} {cs rest : List Char} (h : readMark mark cs = .ok rest)
    (more : List Char) : readMark mark (cs ++ more) = .ok (rest ++ more) := by
  unfold readMark at h ⊢
  cases hgap : skipGap cs with
  | nil => rw [hgap] at h; cases h
  | cons c cs =>
      rw [skipGap_append hgap]
      rw [hgap] at h
      dsimp only at h ⊢
      split at h
      · next hc =>
        obtain rfl := Except.ok.inj h
        rw [if_pos hc]
      · cases h

theorem settled_readNumber : Settled readNumber := by
  intro cs v rest h hrest more
  unfold readNumber at h ⊢
  cases hscan : scanNumeral cs with
  | none => rw [hscan] at h; cases h
  | some p =>
      obtain ⟨n, r⟩ := p
      rw [hscan] at h
      dsimp only at h
      cases hn : n.toNumber? with
      | none => rw [hn] at h; cases h
      | some x =>
          rw [hn] at h
          obtain ⟨rfl, rfl⟩ := Prod.mk.inj (Except.ok.inj h)
          rw [scanNumeral_append hscan hrest]
          dsimp only
          rw [hn]

theorem delimited_readName : Delimited readName := by
  intro cs v rest h more
  unfold readName at h ⊢
  obtain ⟨r, hmark, h⟩ := bind_eq_ok.mp h
  cases hscan : scanString r with
  | none => rw [hscan] at h; cases h
  | some p =>
      rw [hscan] at h
      obtain ⟨rfl, rfl⟩ := Prod.mk.inj (Except.ok.inj h)
      refine bind_eq_ok.mpr ⟨r ++ more, readMark_append hmark more, ?_⟩
      rw [scanString_append hscan]

theorem delimited_readText : Delimited readText := by
  intro cs v rest h more
  unfold readText readTextAs at h ⊢
  split at h
  · next r hgap =>
    cases hscan : scanString r with
    | none => rw [hscan] at h; cases h
    | some p =>
        rw [hscan] at h
        obtain ⟨rfl, rfl⟩ := Prod.mk.inj (Except.ok.inj h)
        simp only [skipGap_append hgap, scanString_append hscan]
  · cases h

/-! ### Items and members -/

theorem ne_nil_of_skipGap {cs rest : List Char} {c : Char} (h : skipGap cs = c :: rest) :
    cs ≠ [] := by
  rintro rfl
  cases h

section
variable {α : Type} {item : Reader α} {close : Char}

/-- An item, and more behind a comma or the closing bracket. -/
theorem readItems_succ (hclose : close ≠ ',') {fuel : Nat} {cs rest : List Char} {vs : List α} :
    readItems close item (fuel + 1) cs = .ok (vs, rest) ↔
      ∃ v r, item cs = .ok (v, r) ∧
        ((∃ r' vs', skipGap r = ',' :: r' ∧ readItems close item fuel r' = .ok (vs', rest) ∧
            vs = v :: vs') ∨
          skipGap r = close :: rest ∧ vs = [v]) := by
  rw [readItems, bind_eq_ok]
  constructor
  · rintro ⟨⟨v, r⟩, hitem, h⟩
    refine ⟨v, r, hitem, ?_⟩
    cases hgap : skipGap r with
    | nil => simp only [hgap, reduceCtorEq] at h
    | cons c r' =>
        simp only [hgap] at h
        split at h
        · next hc =>
          obtain ⟨⟨vs', rest'⟩, hitems, h⟩ := bind_eq_ok.mp h
          obtain ⟨rfl, rfl⟩ := Prod.mk.inj (Except.ok.inj h)
          exact Or.inl ⟨r', vs', by rw [hc], hitems, rfl⟩
        · split at h
          · next hc =>
            obtain ⟨rfl, rfl⟩ := Prod.mk.inj (Except.ok.inj h)
            exact Or.inr ⟨by rw [hc], rfl⟩
          · cases h
  · rintro ⟨v, r, hitem, ⟨r', vs', hgap, hitems, rfl⟩ | ⟨hgap, rfl⟩⟩
    · refine ⟨(v, r), hitem, ?_⟩
      simp only [hgap, if_true]
      exact bind_eq_ok.mpr ⟨(vs', rest), hitems, rfl⟩
    · refine ⟨(v, r), hitem, ?_⟩
      simp only [hgap, if_neg hclose, if_true]

/-- More fuel does no harm either. -/
theorem readItems_append (hclose : close ≠ ',') (hitem : Settled item) {fuel fuel' : Nat}
    {cs rest : List Char} {vs : List α} (h : readItems close item fuel cs = .ok (vs, rest))
    (hfuel : fuel ≤ fuel') (more : List Char) :
    readItems close item fuel' (cs ++ more) = .ok (vs, rest ++ more) := by
  induction fuel generalizing fuel' cs vs with
  | zero => cases h
  | succ fuel ih =>
      cases fuel' with
      | zero => omega
      | succ fuel' =>
          obtain ⟨v, r, hv, hnext⟩ := (readItems_succ hclose).mp h
          have hr : r ≠ [] := by
            rcases hnext with ⟨r', vs', hgap, -⟩ | ⟨hgap, -⟩
            · exact ne_nil_of_skipGap hgap
            · exact ne_nil_of_skipGap hgap
          refine (readItems_succ hclose).mpr ⟨v, r ++ more, hitem hv hr more, ?_⟩
          rcases hnext with ⟨r', vs', hgap, hitems, rfl⟩ | ⟨hgap, rfl⟩
          · exact Or.inl ⟨r' ++ more, vs', skipGap_append hgap more, ih hitems (by omega), rfl⟩
          · exact Or.inr ⟨skipGap_append hgap more, rfl⟩

theorem delimited_readBody (hclose : close ≠ ',') (hitem : Settled item) :
    Delimited (readBody close item) := by
  intro cs vs rest h more
  unfold readBody at h ⊢
  cases hgap : skipGap cs with
  | nil => rw [hgap] at h; cases h
  | cons c r =>
      rw [hgap] at h
      rw [skipGap_append hgap]
      dsimp only at h ⊢
      split at h
      · next hc =>
        rw [if_pos hc]
        obtain ⟨rfl, rfl⟩ := Prod.mk.inj (Except.ok.inj h)
        rfl
      · next hc =>
        have hlen : (c :: r).length ≤ (c :: (r ++ more)).length := by simp
        rw [if_neg hc]
        exact readItems_append hclose hitem h hlen more

theorem settled_readMember (hitem : Settled item) : Settled (readMember item) := by
  intro cs m rest h hrest more
  unfold readMember at h ⊢
  obtain ⟨⟨name, r₁⟩, hname, h⟩ := bind_eq_ok.mp h
  obtain ⟨r₂, hmark, h⟩ := bind_eq_ok.mp h
  obtain ⟨⟨v, r₃⟩, hv, h⟩ := bind_eq_ok.mp h
  cases h
  exact bind_eq_ok.mpr ⟨_, delimited_readName hname more, bind_eq_ok.mpr
    ⟨_, readMark_append hmark more, bind_eq_ok.mpr ⟨_, hitem hv hrest more, rfl⟩⟩⟩

end

/-! ### Values -/

theorem map_append {α β : Type} {f : α → β} {x y : Except Fault (α × List Char)} {v : β}
    {rest more : List Char}
    (hxy : ∀ a r, x = .ok (a, r) → r = rest → y = .ok (a, r ++ more))
    (h : x.map (fun (a, r) => (f a, r)) = .ok (v, rest)) :
    y.map (fun (a, r) => (f a, r)) = .ok (v, rest ++ more) := by
  obtain ⟨⟨a, r⟩, hx, h⟩ := map_eq_ok.mp h
  obtain ⟨rfl, rfl⟩ := Prod.mk.inj h
  rw [hxy a r hx rfl]
  rfl

theorem word_append {letters cs rest : List Char} {x v : Value}
    (h : (expectLetters letters cs).map (fun rest => (x, rest)) = .ok (v, rest))
    (more : List Char) :
    (expectLetters letters (cs ++ more)).map (fun rest => (x, rest)) = .ok (v, rest ++ more) := by
  obtain ⟨r, hletters, h⟩ := map_eq_ok.mp h
  obtain ⟨rfl, rfl⟩ := Prod.mk.inj h
  rw [expectLetters_append hletters]
  rfl

theorem settled_readLevel {inner : Option (Reader Value)}
    (hinner : ∀ item, inner = some item → Settled item) : Settled (readLevel inner) := by
  intro cs v rest h hrest more
  unfold readLevel at h ⊢
  cases hgap : skipGap cs with
  | nil => rw [hgap] at h; cases h
  | cons c r =>
      rw [hgap] at h
      rw [skipGap_append hgap]
      dsimp only at h ⊢
      by_cases hn : c = 'n'
      · rw [if_pos hn] at h ⊢
        exact word_append h more
      rw [if_neg hn] at h ⊢
      by_cases ht : c = 't'
      · rw [if_pos ht] at h ⊢
        exact word_append h more
      rw [if_neg ht] at h ⊢
      by_cases hf : c = 'f'
      · rw [if_pos hf] at h ⊢
        exact word_append h more
      rw [if_neg hf] at h ⊢
      by_cases hnumeral : startsNumeral c = true
      · rw [if_pos hnumeral] at h ⊢
        rw [← List.cons_append]
        exact map_append (fun n r' hread e => settled_readNumber hread (e ▸ hrest) more) h
      rw [if_neg hnumeral] at h ⊢
      by_cases hquote : c = '"'
      · rw [if_pos hquote] at h ⊢
        cases hscan : scanString r with
        | none => rw [hscan] at h; cases h
        | some p =>
            rw [hscan] at h
            obtain ⟨rfl, rfl⟩ := Prod.mk.inj (Except.ok.inj h)
            rw [scanString_append hscan]
      rw [if_neg hquote] at h ⊢
      by_cases hlist : c = '['
      · rw [if_pos hlist] at h ⊢
        cases inner with
        | none => cases h
        | some item =>
            exact map_append
              (fun vs r' hread _ => delimited_readBody (by decide) (hinner item rfl) hread more) h
      rw [if_neg hlist] at h ⊢
      by_cases hrecord : c = '\x7b'
      · rw [if_pos hrecord] at h ⊢
        cases inner with
        | none => cases h
        | some item =>
            have hmember := settled_readMember (hinner item rfl)
            exact map_append
              (fun ms r' hread _ => delimited_readBody (by decide) hmember hread more) h
      rw [if_neg hrecord] at h
      cases h

theorem settled_readValue (depth : Nat) : Settled (readValue depth) := by
  induction depth with
  | zero => exact settled_readLevel nofun
  | succ depth ih =>
      refine settled_readLevel fun item e => ?_
      obtain rfl := Option.some.inj e
      exact ih

/-! ### Skipped values -/

theorem skipStep_nil (spot : Spot) (frames : List Frame) : skipStep spot frames [] = none := by
  cases spot with
  | after =>
      cases frames with
      | nil => rfl
      | cons frame frames => rfl
  | name => rfl
  | value => rfl

theorem ne_nil_of_skipFrom {fuel : Nat} {spot : Spot} {frames : List Frame} {cs rest : List Char}
    (h : skipFrom fuel spot frames cs = some rest) (hrest : rest ≠ []) : cs ≠ [] := by
  rintro rfl
  unfold skipFrom at h
  split at h
  · exact hrest (Option.some.inj h).symm
  · cases h
  · rw [skipStep_nil] at h
    cases h

/-- The rest of a step that took a word, a numeral or a string. -/
theorem skipOver_append {frames frames' : List Frame} {spot : Spot} {x y : Option (List Char)}
    {rest more : List Char} (hxy : ∀ r, x = some r → r = rest → y = some (r ++ more))
    (h : x.map (fun rest => (Spot.after, frames, rest)) = some (spot, frames', rest)) :
    y.map (fun rest => (Spot.after, frames, rest)) = some (spot, frames', rest ++ more) := by
  obtain ⟨r, hx, heq⟩ := Option.map_eq_some_iff.mp h
  obtain ⟨rfl, rfl, rfl⟩ : Spot.after = spot ∧ frames = frames' ∧ r = rest := by simpa using heq
  rw [hxy r hx rfl]
  rfl

theorem skipLetters_append {letters cs rest : List Char}
    (h : (expectLetters letters cs).toOption = some rest) (more : List Char) :
    (expectLetters letters (cs ++ more)).toOption = some (rest ++ more) := by
  cases hletters : expectLetters letters cs with
  | error e => rw [hletters] at h; cases h
  | ok r =>
      rw [hletters] at h
      obtain rfl := Option.some.inj h
      rw [expectLetters_append hletters]
      rfl

theorem skipOpen_append {frame : Frame} {frames frames' : List Frame} {spot : Spot}
    {cs rest : List Char} (h : skipOpen frame frames cs = some (spot, frames', rest))
    (more : List Char) :
    skipOpen frame frames (cs ++ more) = some (spot, frames', rest ++ more) := by
  unfold skipOpen at h ⊢
  cases hgap : skipGap cs with
  | nil => rw [hgap] at h; cases h
  | cons c r =>
      rw [hgap] at h
      rw [skipGap_append hgap]
      dsimp only at h ⊢
      split at h
      · next hc =>
        cases h
        rw [if_pos hc]
      · next hc =>
        cases h
        rw [if_neg hc]
        rfl

theorem skipAfter_append {spot : Spot} {frame : Frame} {frames frames' : List Frame}
    {cs rest : List Char} (h : skipStep .after (frame :: frames) cs = some (spot, frames', rest))
    (more : List Char) :
    skipStep .after (frame :: frames) (cs ++ more) = some (spot, frames', rest ++ more) := by
  rw [skipStep] at h ⊢
  cases hgap : skipGap cs with
  | nil => rw [hgap] at h; cases h
  | cons c r =>
      rw [hgap] at h
      rw [skipGap_append hgap]
      dsimp only at h ⊢
      by_cases hcomma : c = ','
      · rw [if_pos hcomma] at h ⊢
        cases h
        rfl
      · rw [if_neg hcomma] at h ⊢
        split at h
        · next hclose =>
          cases h
          rw [if_pos hclose]
        · cases h

theorem skipName_append {spot : Spot} {frames frames' : List Frame} {cs rest : List Char}
    (h : skipStep .name frames cs = some (spot, frames', rest)) (more : List Char) :
    skipStep .name frames (cs ++ more) = some (spot, frames', rest ++ more) := by
  rw [skipStep] at h ⊢
  split at h
  · next r hgap =>
    split at h
    · cases h
    · next r' hskip =>
      split at h
      · next r'' hcolon =>
        cases h
        simp only [skipGap_append hgap, skipString_append hskip, skipGap_append hcolon]
      · cases h
  · cases h

/-- What is left behind a numeral shows where it ends. -/
theorem skipValueStep_append {spot : Spot} {frames frames' : List Frame} {cs rest : List Char}
    (h : skipStep .value frames cs = some (spot, frames', rest)) (hrest : rest ≠ [])
    (more : List Char) : skipStep .value frames (cs ++ more) = some (spot, frames', rest ++ more) := by
  rw [skipStep] at h ⊢
  cases hgap : skipGap cs with
  | nil => rw [hgap] at h; cases h
  | cons c r =>
      rw [hgap] at h
      rw [skipGap_append hgap]
      dsimp only at h ⊢
      by_cases hn : c = 'n'
      · rw [if_pos hn] at h ⊢
        exact skipOver_append (fun r' hletters _ => skipLetters_append hletters more) h
      rw [if_neg hn] at h ⊢
      by_cases ht : c = 't'
      · rw [if_pos ht] at h ⊢
        exact skipOver_append (fun r' hletters _ => skipLetters_append hletters more) h
      rw [if_neg ht] at h ⊢
      by_cases hf : c = 'f'
      · rw [if_pos hf] at h ⊢
        exact skipOver_append (fun r' hletters _ => skipLetters_append hletters more) h
      rw [if_neg hf] at h ⊢
      by_cases hnumeral : startsNumeral c = true
      · rw [if_pos hnumeral] at h ⊢
        obtain ⟨⟨n, r'⟩, hscan, heq⟩ := Option.map_eq_some_iff.mp h
        obtain ⟨rfl, rfl, rfl⟩ : Spot.after = spot ∧ frames = frames' ∧ r' = rest := by
          simpa using heq
        exact Option.map_eq_some_iff.mpr ⟨(n, r' ++ more), scanNumeral_append hscan hrest more, rfl⟩
      rw [if_neg hnumeral] at h ⊢
      by_cases hquote : c = '"'
      · rw [if_pos hquote] at h ⊢
        exact skipOver_append (fun r' hskip _ => skipString_append hskip more) h
      rw [if_neg hquote] at h ⊢
      by_cases hlist : c = '['
      · rw [if_pos hlist] at h ⊢
        exact skipOpen_append h more
      rw [if_neg hlist] at h ⊢
      by_cases hrecord : c = '\x7b'
      · rw [if_pos hrecord] at h ⊢
        exact skipOpen_append h more
      rw [if_neg hrecord] at h
      cases h

theorem skipStep_append {spot spot' : Spot} {frames frames' : List Frame} {cs rest : List Char}
    (h : skipStep spot frames cs = some (spot', frames', rest)) (hrest : rest ≠ [])
    (more : List Char) : skipStep spot frames (cs ++ more) = some (spot', frames', rest ++ more) := by
  cases spot with
  | after =>
      cases frames with
      | nil => cases h
      | cons frame frames => exact skipAfter_append h more
  | name => exact skipName_append h more
  | value => exact skipValueStep_append h hrest more

theorem skipFrom_append {fuel fuel' : Nat} {spot : Spot} {frames : List Frame}
    {cs rest : List Char} (h : skipFrom fuel spot frames cs = some rest) (hrest : rest ≠ [])
    (hfuel : fuel ≤ fuel') (more : List Char) :
    skipFrom fuel' spot frames (cs ++ more) = some (rest ++ more) := by
  fun_induction skipFrom fuel spot frames cs generalizing fuel' with
  | case1 fuel cs =>
      obtain rfl := Option.some.inj h
      rw [skipFrom]
  | case2 => cases h
  | case3 => cases h
  | case4 fuel spot frames cs hover spot' frames' r hstep ih =>
      cases fuel' with
      | zero => omega
      | succ fuel' =>
          have hr := ne_nil_of_skipFrom h hrest
          rw [skipFrom, skipStep_append hstep hr]
          · exact ih h (by omega)
          · exact hover

theorem skipValue_append {cs rest : List Char} (h : skipValue cs = .ok rest) (hrest : rest ≠ [])
    (more : List Char) : skipValue (cs ++ more) = .ok (rest ++ more) := by
  unfold skipValue at h ⊢
  cases hskip : skipFrom cs.length .value [] cs with
  | none => rw [hskip] at h; cases h
  | some r =>
      rw [hskip] at h
      obtain rfl := Except.ok.inj h
      rw [skipFrom_append hskip hrest (by simp)]

/-! ### Records with known fields -/

theorem settled_readWord64 : Settled readWord64 := by
  intro cs v rest h hrest more
  unfold readWord64 at h ⊢
  cases hgap : skipGap cs with
  | nil => rw [hgap] at h; cases h
  | cons c r =>
      rw [hgap] at h
      rw [skipGap_append hgap]
      dsimp only at h ⊢
      split at h
      · next hnumeral =>
        obtain ⟨⟨n, r'⟩, hread, h⟩ := bind_eq_ok.mp h
        rw [if_pos hnumeral]
        cases n with
        | natural n =>
            obtain ⟨rfl, rfl⟩ := Prod.mk.inj (Except.ok.inj h)
            exact bind_eq_ok.mpr ⟨_, settled_readNumber hread hrest more, rfl⟩
        | negative n => cases h
        | fractional s m => cases h
      · cases h

theorem settled_kindRead (kind : Kind) : Settled kind.read := by
  intro cs v rest h hrest more
  cases kind with
  | text => exact map_append (fun _ _ hread _ => delimited_readText hread more) h
  | word64 =>
      exact map_append (fun _ _ hread e => settled_readWord64 hread (e ▸ hrest) more) h
  | free depth =>
      exact map_append (fun _ _ hread e => settled_readValue depth hread (e ▸ hrest) more) h

theorem ne_nil_of_kindRead {kind : Kind} {cs rest : List Char} {v : Field}
    (h : kind.read cs = .ok (v, rest)) : cs ≠ [] := by
  rintro rfl
  cases kind with
  | text => cases h
  | word64 => cases h
  | free depth => cases depth <;> cases h

/-- Where the value of a list's slot begins: behind the comma, unless it is the first. -/
theorem slotStart_append (done : Nat) (c : Char) (r more : List Char)
    (h : (if 0 < done then skipGap r else c :: r) ≠ []) :
    (if 0 < done then skipGap (r ++ more) else c :: (r ++ more)) =
      (if 0 < done then skipGap r else c :: r) ++ more := by
  split
  · next hdone =>
    rw [if_pos hdone] at h
    obtain ⟨c', r', hgap⟩ := List.exists_cons_of_ne_nil h
    rw [hgap, skipGap_append hgap]
    rfl
  · rfl

section
variable {shape : Shape}

theorem ne_nil_of_readFields {fuel : Nat} {first : Bool} {seen fields : Fields}
    {cs rest : List Char} (h : readFields shape fuel first seen cs = .ok (fields, rest)) :
    cs ≠ [] := by
  rintro rfl
  cases fuel <;> cases h

theorem settled_readNamed (seen : Fields) (name : String) : Settled (readNamed shape seen name) := by
  intro cs fields rest h hrest more
  unfold readNamed at h ⊢
  split at h
  · obtain ⟨r, hmark, h⟩ := bind_eq_ok.mp h
    obtain ⟨r', hskip, h⟩ := bind_eq_ok.mp h
    cases h
    exact bind_eq_ok.mpr ⟨_, readMark_append hmark more,
      bind_eq_ok.mpr ⟨_, skipValue_append hskip hrest more, rfl⟩⟩
  · next f hf =>
    split at h
    · cases h
    · next hnew =>
      obtain ⟨r, hmark, h⟩ := bind_eq_ok.mp h
      obtain ⟨⟨v, r'⟩, hread, h⟩ := bind_eq_ok.mp h
      cases h
      rw [if_neg hnew]
      exact bind_eq_ok.mpr ⟨_, readMark_append hmark more,
        bind_eq_ok.mpr ⟨_, settled_kindRead f.kind hread hrest more, rfl⟩⟩

theorem readFields_append {fuel fuel' : Nat} {first : Bool} {seen fields : Fields}
    {cs rest : List Char} (h : readFields shape fuel first seen cs = .ok (fields, rest))
    (hfuel : fuel ≤ fuel') (more : List Char) :
    readFields shape fuel' first seen (cs ++ more) = .ok (fields, rest ++ more) := by
  induction fuel generalizing fuel' first seen cs with
  | zero => cases h
  | succ fuel ih =>
      cases fuel' with
      | zero => omega
      | succ fuel' =>
          rw [readFields] at h ⊢
          dsimp only at h ⊢
          cases hgap : skipGap cs with
          | nil => rw [hgap] at h; cases h
          | cons c r =>
              rw [hgap] at h
              rw [skipGap_append hgap]
              dsimp only at h ⊢
              by_cases hclose : c = '\x7d'
              · rw [if_pos hclose] at h ⊢
                cases h
                rfl
              rw [if_neg hclose] at h ⊢
              by_cases hcomma : (!first && c != ',') = true
              · rw [if_pos hcomma] at h
                cases h
              rw [if_neg hcomma] at h ⊢
              obtain ⟨⟨name, r₁⟩, hname, h⟩ := bind_eq_ok.mp h
              obtain ⟨⟨seen', r₂⟩, hnamed, h⟩ := bind_eq_ok.mp h
              refine bind_eq_ok.mpr ⟨(name, r₁ ++ more), ?_, bind_eq_ok.mpr
                ⟨_, settled_readNamed seen name hnamed (ne_nil_of_readFields h) more, ?_⟩⟩
              · have happ := delimited_readName hname more
                cases first <;> exact happ
              · exact ih h (by omega)

theorem ne_nil_of_readSlots {done : Nat} {slots : List FieldShape} {fields : Fields}
    {cs rest : List Char} (h : readSlots shape done slots cs = .ok (fields, rest)) : cs ≠ [] := by
  rintro rfl
  cases slots <;> cases h

theorem readSlots_append {slots : List FieldShape} : ∀ {done : Nat} {fields : Fields}
    {cs rest : List Char}, readSlots shape done slots cs = .ok (fields, rest) →
    ∀ more, readSlots shape done slots (cs ++ more) = .ok (fields, rest ++ more) := by
  induction slots with
  | nil =>
      intro done fields cs rest h more
      rw [readSlots] at h ⊢
      obtain ⟨r, hmark, h⟩ := bind_eq_ok.mp h
      cases h
      exact bind_eq_ok.mpr ⟨_, readMark_append hmark more, rfl⟩
  | cons f slots ih =>
      intro done fields cs rest h more
      rw [readSlots] at h ⊢
      dsimp only at h ⊢
      cases hgap : skipGap cs with
      | nil => rw [hgap] at h; cases h
      | cons c r =>
          rw [hgap] at h
          rw [skipGap_append hgap]
          dsimp only at h ⊢
          by_cases hclose : c = ']'
          · rw [if_pos hclose] at h ⊢
            split at h
            · next hall =>
              rw [if_pos hall]
              obtain ⟨vs, hcomplete, h⟩ := bind_eq_ok.mp h
              cases h
              exact bind_eq_ok.mpr ⟨_, hcomplete, rfl⟩
            · cases h
          rw [if_neg hclose] at h ⊢
          by_cases hcomma : (decide (0 < done) && c != ',') = true
          · rw [if_pos hcomma] at h
            cases h
          rw [if_neg hcomma] at h ⊢
          have hstart := slotStart_append done c r more
          generalize (if 0 < done then skipGap r else c :: r) = start at h hstart
          by_cases hhead : (start.head? == some ']') = true
          · rw [if_pos hhead] at h
            cases h
          · rw [if_neg hhead] at h
            obtain ⟨⟨v, r₁⟩, hread, h⟩ := bind_eq_ok.mp h
            obtain ⟨⟨vs, r₂⟩, hslots, h⟩ := bind_eq_ok.mp h
            cases h
            have hne := ne_nil_of_kindRead hread
            have hhead' : ¬ ((start ++ more).head? == some ']') = true := by
              rw [List.head?_append]
              cases start with
              | nil => exact absurd rfl hne
              | cons x start => exact hhead
            rw [hstart hne, if_neg hhead']
            refine bind_eq_ok.mpr
              ⟨_, settled_kindRead f.kind hread (ne_nil_of_readSlots hslots) more, ?_⟩
            exact bind_eq_ok.mpr ⟨_, ih hslots more, rfl⟩

theorem delimited_readRecord : Delimited (readRecord shape) := by
  intro cs fields rest h more
  unfold readRecord at h ⊢
  split at h
  · next r hgap =>
    obtain ⟨⟨seen, r'⟩, hfields, h⟩ := bind_eq_ok.mp h
    obtain ⟨vs, hcomplete, h⟩ := bind_eq_ok.mp h
    cases h
    rw [skipGap_append hgap]
    have hfuel : r.length + 1 ≤ (r ++ more).length + 1 := by simp
    refine bind_eq_ok.mpr ⟨_, readFields_append hfields hfuel more, ?_⟩
    exact bind_eq_ok.mpr ⟨_, hcomplete, rfl⟩
  · next r hgap =>
    rw [skipGap_append hgap]
    exact readSlots_append h more
  · cases h

end

/-- Of a text and a longer one that are both read whole, the values are the same. -/
theorem readAll_append {α : Type} {read : Reader α} (hread : Delimited read) {text more : String}
    {v w : α} (h : readAll read text = .ok v) (h' : readAll read (text ++ more) = .ok w) :
    v = w := by
  obtain ⟨⟨v', r⟩, hv, h⟩ := bind_eq_ok.mp h
  obtain ⟨⟨w', r'⟩, hw, h'⟩ := bind_eq_ok.mp h'
  rw [String.toList_append, hread hv more.toList] at hw
  cases hw
  dsimp only at h h'
  split at h
  · split at h'
    · exact Except.ok.inj (h.symm.trans h')
    · cases h'
  · cases h

end JobHealth.Json
