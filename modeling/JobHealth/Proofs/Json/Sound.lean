import JobHealth.Proofs.Json.Members
/-!
# `JobHealth.Proofs.Json.Sound` — whatever is read is a text of the grammar

The converse of what `Json.Grammar` and `Json.Record` say.  There each text of
the grammar is read as its value; here a text that is read is one of the
grammar, with a gap in front and the rest behind.

| reader                    | what stood there                             |
| :------------------------ | :------------------------------------------- |
| `scanString`              | a spelling, `quotes_of_scanString`           |
| `scanNumeral`             | a numeral, `numeral_of_scanNumeral`          |
| `readValue`               | a value, `sound_readValue`                   |
| `skipValue`               | a value with loose strings and numbers       |

Passing over a value keeps nothing but a stack of frames.  Its steps are put
together again by induction on the fuel: a value goes on behind an item of its
frame, and an item is a value that took less fuel.
-/

namespace JobHealth.Json

open JobHealth.Number

/-! ## Gaps, letters, strings -/

/-- Every text begins with a gap, which may be empty. -/
theorem exists_gap (cs : List Char) : ∃ g, Gap g ∧ cs = g ++ skipGap cs :=
  ⟨cs.takeWhile isGap, List.all_eq_true.mp List.all_takeWhile, List.takeWhile_append_dropWhile.symm⟩

theorem gap_append {g g' : List Char} (hg : Gap g) (hg' : Gap g') : Gap (g ++ g') :=
  fun c hc => (List.mem_append.mp hc).elim (hg c) (hg' c)

/-- The first character that is no gap, and what is around it. -/
theorem eq_of_skipGap {cs rest : List Char} {c : Char} (h : skipGap cs = c :: rest) :
    ∃ g, Gap g ∧ cs = g ++ c :: rest := by
  obtain ⟨g, hg, hcs⟩ := exists_gap cs
  exact ⟨g, hg, h ▸ hcs⟩

theorem eq_of_expectLetters {letters cs rest : List Char}
    (h : expectLetters letters cs = .ok rest) : cs = letters ++ rest := by
  unfold expectLetters at h
  split at h
  · next hpre =>
    obtain rfl := Except.ok.inj h
    obtain ⟨t, rfl⟩ := List.isPrefixOf_iff_prefix.mp hpre
    rw [List.drop_left]
  · cases h

theorem eq_of_readMark {mark : Char} {cs rest : List Char} (h : readMark mark cs = .ok rest) :
    ∃ g, Gap g ∧ cs = g ++ mark :: rest := by
  unfold readMark at h
  split at h
  · cases h
  · next c r hgap =>
    split at h
    · next hc =>
      obtain rfl := Except.ok.inj h
      obtain rfl := hc
      exact eq_of_skipGap hgap
    · cases h

theorem name_of_readName {name : String} {cs rest : List Char}
    (h : readName cs = .ok (name, rest)) :
    ∃ g n, Gap g ∧ spelled name n ∧ cs = g ++ ('"' :: n ++ '"' :: rest) := by
  unfold readName at h
  obtain ⟨r, hmark, hread⟩ := bind_eq_ok.mp h
  obtain ⟨g, hg, rfl⟩ := eq_of_readMark hmark
  cases hscan : scanString r with
  | none =>
      rw [hscan] at hread
      cases hread
  | some p =>
      rw [hscan] at hread
      cases hread
      obtain ⟨n, hn, rfl⟩ := quotes_of_scanString hscan
      exact ⟨g, n, hg, by rwa [spelled, String.toList_ofList], rfl⟩

theorem escaped_of_skipString {cs rest : List Char} (h : skipString cs = some rest) :
    ∃ t, Escaped t ∧ cs = t ++ '"' :: rest := by
  fun_induction skipString cs with
  | case2 cs =>
      obtain rfl := Option.some.inj h
      exact ⟨[], .nil, rfl⟩
  | case4 h₁ h₂ h₃ h₄ cs hword _ ih =>
      obtain ⟨n, hn⟩ := Option.isSome_iff_exists.mp hword
      obtain ⟨t, ht, rfl⟩ := ih h
      exact ⟨_, .word hn ht, rfl⟩
  | case7 e cs _ he _ ih =>
      obtain ⟨c, hc⟩ := Option.isSome_iff_exists.mp he
      obtain ⟨t, ht, rfl⟩ := ih h
      exact ⟨_, .letter hc ht, rfl⟩
  | case10 c cs hquote hslash hc ih =>
      obtain ⟨t, ht, rfl⟩ := ih h
      exact ⟨_, .plain hquote hslash (Nat.not_lt.mp hc) ht, rfl⟩
  | _ => cases h

/-! ## Numerals -/

theorem digits_of_takeWhile {cs : List Char} (h : ¬ (cs.takeWhile Char.isDigit).isEmpty = true) :
    Digits (cs.takeWhile Char.isDigit) :=
  ⟨by simpa using h, List.all_eq_true.mp List.all_takeWhile⟩

theorem fraction_of_scan {cs rest : List Char} {x : Option (List Char)}
    (h : scanFraction cs = some (x, rest)) : ∃ t, FractionText x t ∧ cs = t ++ rest := by
  unfold scanFraction at h
  split at h
  · next r =>
    dsimp only at h
    split at h
    · cases h
    · next hds =>
      cases h
      refine ⟨_, .present (digits_of_takeWhile hds), ?_⟩
      rw [List.cons_append, List.takeWhile_append_dropWhile]
  · cases h
    exact ⟨[], .absent, rfl⟩

theorem sign_of_cutSign (cs : List Char) :
    ∃ sign, SignText (cutSign cs).1 sign ∧ cs = sign ++ (cutSign cs).2 := by
  unfold cutSign
  split
  · exact ⟨_, .minus, rfl⟩
  · exact ⟨_, .plus, rfl⟩
  · exact ⟨_, .absent, rfl⟩

theorem exponent_of_scan {cs rest : List Char} {x : Option (Bool × List Char)}
    (h : scanExponent cs = some (x, rest)) : ∃ t, ExponentText x t ∧ cs = t ++ rest := by
  cases cs with
  | nil =>
      cases h
      exact ⟨[], .absent, rfl⟩
  | cons c cs =>
      rw [scanExponent_cons] at h
      split at h
      · next hc =>
        split at h
        · cases h
        · next hds =>
          cases h
          obtain ⟨sign, hsign, hcs⟩ := sign_of_cutSign cs
          refine ⟨_, .present (by simpa using hc) hsign (digits_of_takeWhile hds), ?_⟩
          rw [List.append_assoc, List.takeWhile_append_dropWhile, List.cons_append, ← hcs]
      · cases h
        exact ⟨[], .absent, rfl⟩

theorem eq_cutMinus (cs : List Char) :
    cs = (if (cutMinus cs).1 then ['-'] else []) ++ (cutMinus cs).2 := by
  unfold cutMinus
  split <;> rfl

theorem numeral_of_scanNumeral {cs rest : List Char} {n : Numeral}
    (h : scanNumeral cs = some (n, rest)) : ∃ t, NumeralText n t ∧ cs = t ++ rest := by
  obtain ⟨hneg, hwhole, hds, r, hfraction, hexponent⟩ := scanNumeral_eq_some_iff.mp h
  obtain ⟨ft, hft, hfcs⟩ := fraction_of_scan hfraction
  obtain ⟨et, het, rfl⟩ := exponent_of_scan hexponent
  obtain ⟨negative, whole, fraction, exponent⟩ := n
  dsimp only at hneg hwhole hds
  subst hneg hwhole
  rw [WholeDigits, Bool.or_eq_true, not_or] at hds
  refine ⟨_, .mk (digits_of_takeWhile hds.1) ?_ hft het, ?_⟩
  · have hzero := hds.2
    simp only [Bool.and_eq_true, bne_iff_ne, ne_eq, beq_iff_eq, not_and] at hzero
    exact (Decidable.em _).imp_right hzero
  · conv_lhs => rw [eq_cutMinus cs, ← List.takeWhile_append_dropWhile (p := Char.isDigit)
      (l := (cutMinus cs).2), hfcs]
    simp only [List.append_assoc]

/-! ## Values -/

/-- What the reader reads is a text of the value, behind some gap. -/
def Sound {α : Type} (read : Reader α) (texts : Texts α) : Prop :=
  ∀ ⦃cs v rest⦄, read cs = .ok (v, rest) → ∃ g t, Gap g ∧ texts v t ∧ cs = g ++ t ++ rest

section
variable {α : Type} {item : Texts α} {read : Reader α} {close : Char}

theorem items_of_readItems (hclose : close ≠ ',') (hread : Sound read item) {fuel : Nat}
    {cs rest : List Char} {vs : List α} (h : readItems close read fuel cs = .ok (vs, rest)) :
    ∃ g t, Gap g ∧ ItemsText item vs t ∧ cs = g ++ t ++ close :: rest := by
  induction fuel generalizing cs vs with
  | zero => cases h
  | succ fuel ih =>
      obtain ⟨v, r, hv, hnext⟩ := (readItems_succ hclose).mp h
      obtain ⟨g, t, hg, ht, rfl⟩ := hread hv
      rcases hnext with ⟨r', vs', hgap, hitems, rfl⟩ | ⟨hgap, rfl⟩
      · obtain ⟨g', hg', rfl⟩ := eq_of_skipGap hgap
        obtain ⟨g'', ts, hg'', hts, rfl⟩ := ih hitems
        exact ⟨g, _, hg, .more ht hg' hg'' hts, by simp⟩
      · obtain ⟨g', hg', rfl⟩ := eq_of_skipGap hgap
        exact ⟨g, _, hg, .last ht hg', by simp⟩

theorem body_of_readBody (hclose : close ≠ ',') (hread : Sound read item) {cs rest : List Char}
    {vs : List α} (h : readBody close read cs = .ok (vs, rest)) :
    ∃ t, BodyText item vs t ∧ cs = t ++ close :: rest := by
  unfold readBody at h
  split at h
  · cases h
  · next c r hgap =>
    obtain ⟨g, hg, rfl⟩ := eq_of_skipGap hgap
    split at h
    · next hc =>
      cases h
      exact ⟨g, .empty hg, by rw [hc]⟩
    · obtain ⟨g', t, hg', ht, heq⟩ := items_of_readItems hclose hread h
      refine ⟨_, .items (gap_append hg hg') ht, ?_⟩
      rw [heq]
      simp only [List.append_assoc]

theorem sound_readMember (hread : Sound read item) :
    Sound (readMember read) (MemberText spelled item) := by
  intro cs m rest h
  unfold readMember at h
  obtain ⟨⟨name, r₁⟩, hname, h⟩ := bind_eq_ok.mp h
  obtain ⟨r₂, hmark, h⟩ := bind_eq_ok.mp h
  obtain ⟨⟨v, r₃⟩, hv, h⟩ := bind_eq_ok.mp h
  cases h
  obtain ⟨g, n, hg, hn, rfl⟩ := name_of_readName hname
  obtain ⟨g', hg', rfl⟩ := eq_of_readMark hmark
  obtain ⟨g'', t, hg'', ht, rfl⟩ := hread hv
  exact ⟨g, _, hg, .mk hn hg' hg'' ht, by simp⟩

end

theorem number_of_readNumber {cs rest : List Char} {x : Number}
    (h : readNumber cs = .ok (x, rest)) : ∃ t, exact.numbers x t ∧ cs = t ++ rest := by
  unfold readNumber at h
  cases hscan : scanNumeral cs with
  | none =>
      rw [hscan] at h
      cases h
  | some p =>
      obtain ⟨n, r⟩ := p
      rw [hscan] at h
      dsimp only at h
      cases hn : n.toNumber? with
      | none =>
          rw [hn] at h
          cases h
      | some y =>
          rw [hn] at h
          cases h
          obtain ⟨t, ht, rfl⟩ := numeral_of_scanNumeral hscan
          exact ⟨t, ⟨n, ht, hn⟩, rfl⟩

/-- The letters of a word, whose first one was read. -/
theorem word_of_expectLetters {letters cs rest : List Char} {x v : Value}
    (h : (expectLetters letters cs).map (fun rest => (x, rest)) = .ok (v, rest)) :
    v = x ∧ cs = letters ++ rest := by
  obtain ⟨r, hletters, heq⟩ := map_eq_ok.mp h
  cases heq
  exact ⟨rfl, eq_of_expectLetters hletters⟩

theorem sound_readLevel {inner : Option (Reader Value)} {texts : Option (Texts Value)}
    (hinner : ∀ read, inner = some read → ∃ item, texts = some item ∧ Sound read item) :
    Sound (readLevel inner) (LevelText exact texts) := by
  intro cs v rest h
  unfold readLevel at h
  split at h
  · cases h
  · next c r hgap =>
    obtain ⟨g, hg, rfl⟩ := eq_of_skipGap hgap
    refine ⟨g, ?_⟩
    -- one case for each first character of a value
    split at h
    · next hc =>
      obtain ⟨rfl, rfl⟩ := word_of_expectLetters h
      exact ⟨_, hg, .null, by simp [hc]⟩
    · split at h
      · next hc =>
        obtain ⟨rfl, rfl⟩ := word_of_expectLetters h
        exact ⟨_, hg, .true, by simp [hc]⟩
      · split at h
        · next hc =>
          obtain ⟨rfl, rfl⟩ := word_of_expectLetters h
          exact ⟨_, hg, .false, by simp [hc]⟩
        · split at h
          · obtain ⟨⟨x, r'⟩, hnumber, heq⟩ := map_eq_ok.mp h
            cases heq
            obtain ⟨t, ht, hcs⟩ := number_of_readNumber hnumber
            exact ⟨t, hg, .number ht, by rw [hcs, List.append_assoc]⟩
          · split at h
            · next hc =>
              split at h
              · cases h
              · next s r' hscan =>
                cases h
                obtain ⟨n, hn, rfl⟩ := quotes_of_scanString hscan
                have hs : spelled (String.ofList s) n := by rwa [spelled, String.toList_ofList]
                exact ⟨_, hg, .text hs, by simp [hc]⟩
            · split at h
              · next hc =>
                cases inner with
                | none => cases h
                | some read =>
                    obtain ⟨item, hitem, hsound⟩ := hinner read rfl
                    obtain ⟨⟨vs, r'⟩, hbody, heq⟩ := map_eq_ok.mp h
                    cases heq
                    obtain ⟨t, ht, rfl⟩ :=
                      body_of_readBody (by decide : ']' ≠ ',') hsound hbody
                    exact ⟨_, hg, .list hitem ht, by simp [hc]⟩
              · split at h
                · next hc =>
                  cases inner with
                  | none => cases h
                  | some read =>
                      obtain ⟨item, hitem, hsound⟩ := hinner read rfl
                      obtain ⟨⟨ms, r'⟩, hbody, heq⟩ := map_eq_ok.mp h
                      cases heq
                      obtain ⟨t, ht, rfl⟩ :=
                        body_of_readBody (by decide : '\x7d' ≠ ',') (sound_readMember hsound) hbody
                      exact ⟨_, hg, .record hitem ht, by simp [hc]⟩
                · cases h

theorem sound_readValue (depth : Nat) : Sound (readValue depth) (ValueText exact depth) := by
  induction depth with
  | zero => exact sound_readLevel nofun
  | succ depth ih =>
      refine sound_readLevel fun read e => ⟨ValueText exact depth, rfl, ?_⟩
      obtain rfl := Option.some.inj e
      exact ih

theorem sound_readText : Sound readText fun s t => ∃ n, spelled s n ∧ t = '"' :: n ++ ['"'] := by
  intro cs s rest h
  unfold readText readTextAs at h
  split at h
  · next r hgap =>
    obtain ⟨g, hg, rfl⟩ := eq_of_skipGap hgap
    split at h
    · cases h
    · next s' r' hscan =>
      cases h
      obtain ⟨n, hn, rfl⟩ := quotes_of_scanString hscan
      exact ⟨g, _, hg, ⟨n, by rwa [spelled, String.toList_ofList], rfl⟩, by simp⟩
  · cases h

theorem sound_readWord64 : Sound readWord64 fun n t => ∃ m, exact.numbers (.natural m) t ∧
    n = UInt64.ofNat m := by
  intro cs n rest h
  unfold readWord64 at h
  split at h
  · cases h
  · next c r hgap =>
    obtain ⟨g, hg, rfl⟩ := eq_of_skipGap hgap
    split at h
    · obtain ⟨⟨x, r'⟩, hnumber, h⟩ := bind_eq_ok.mp h
      obtain ⟨t, ht, hcs⟩ := number_of_readNumber hnumber
      cases x with
      | natural m =>
          cases h
          exact ⟨g, t, hg, ⟨m, ht, rfl⟩, by rw [hcs, List.append_assoc]⟩
      | negative m => cases h
      | fractional s m => cases h
    · cases h

theorem sound_kindRead (kind : Kind) : Sound kind.read (FieldText kind) := by
  intro cs v rest h
  cases kind with
  | text =>
      obtain ⟨⟨s, r⟩, hs, heq⟩ := map_eq_ok.mp h
      cases heq
      obtain ⟨g, _, hg, ⟨n, hn, rfl⟩, hcs⟩ := sound_readText hs
      exact ⟨g, _, hg, .text hn, hcs⟩
  | word64 =>
      obtain ⟨⟨n, r⟩, hn, heq⟩ := map_eq_ok.mp h
      cases heq
      obtain ⟨g, _, hg, ⟨m, hm, rfl⟩, hcs⟩ := sound_readWord64 hn
      exact ⟨g, _, hg, .word64 hm, hcs⟩
  | free depth =>
      obtain ⟨⟨x, r⟩, hx, heq⟩ := map_eq_ok.mp h
      cases heq
      obtain ⟨g, t, hg, ht, hcs⟩ := sound_readValue depth hx
      exact ⟨g, t, hg, .free ht, hcs⟩

/-! ## Passing over a value -/

section
variable {α β : Type} {item : Texts α} {item' : Texts β} {f : α → β} {vs : List α} {t : List Char}

theorem itemsText_map (h : ItemsText item vs t) (hf : ∀ v ∈ vs, ∀ t, item v t → item' (f v) t) :
    ItemsText item' (vs.map f) t := by
  induction h with
  | last hv hg => exact .last (hf _ List.mem_cons_self _ hv) hg
  | more hv hg hg' _ ih =>
      obtain ⟨hfirst, hrest⟩ := List.forall_mem_cons.mp hf
      exact .more (hfirst _ hv) hg hg' (ih hrest)

theorem bodyText_map (h : BodyText item vs t) (hf : ∀ v ∈ vs, ∀ t, item v t → item' (f v) t) :
    BodyText item' (vs.map f) t := by
  cases h with
  | empty hg => exact .empty hg
  | items hg hvs => exact .items hg (itemsText_map hvs hf)

end

section
variable {α : Type} {item item' : Texts α}

theorem bodyText_mono {vs : List α} {t : List Char} (h : BodyText item vs t)
    (hle : ∀ v t, item v t → item' v t) : BodyText item' vs t := by
  have hmap := bodyText_map (f := id) h fun v _ t => hle v t
  rwa [List.map_id] at hmap

theorem memberText_mono {strings strings' : Texts String} {m : String × α} {t : List Char}
    (h : MemberText strings item m t) (hstrings : ∀ s t, strings s t → strings' s t)
    (hle : ∀ v t, item v t → item' v t) : MemberText strings' item' m t := by
  cases h with
  | mk hn hg hg' hv => exact .mk (hstrings _ _ hn) hg hg' (hle _ _ hv)

end

section
variable {lexis lexis' : Lexis} (hstrings : ∀ s t, lexis.strings s t → lexis'.strings s t)
  (hnumbers : ∀ x t, lexis.numbers x t → lexis'.numbers x t)
include hstrings hnumbers

theorem levelText_mono {texts texts' : Option (Texts Value)} {v : Value} {t : List Char}
    (h : LevelText lexis texts v t)
    (hinner : ∀ item, texts = some item →
      ∃ item', texts' = some item' ∧ ∀ v t, item v t → item' v t) :
    LevelText lexis' texts' v t := by
  cases h with
  | null => exact .null
  | true => exact .true
  | false => exact .false
  | number hx => exact .number (hnumbers _ _ hx)
  | text hs => exact .text (hstrings _ _ hs)
  | list hitem hvs =>
      obtain ⟨item', hitem', hle⟩ := hinner _ hitem
      exact .list hitem' (bodyText_mono hvs hle)
  | record hitem hms =>
      obtain ⟨item', hitem', hle⟩ := hinner _ hitem
      exact .record hitem' (bodyText_mono hms fun m t hm => memberText_mono hm hstrings hle)

/-- A looser lexis and more depth lose no text. -/
theorem valueText_mono {depth depth' : Nat} (hdepth : depth ≤ depth') {v : Value} {t : List Char}
    (h : ValueText lexis depth v t) : ValueText lexis' depth' v t := by
  induction depth generalizing depth' v t with
  | zero =>
      cases depth' with
      | zero => exact levelText_mono hstrings hnumbers h nofun
      | succ depth' => exact levelText_mono hstrings hnumbers h nofun
  | succ depth ih =>
      obtain ⟨depth', rfl⟩ := Nat.exists_eq_add_of_le' (Nat.le_trans (Nat.succ_pos depth) hdepth)
      refine levelText_mono hstrings hnumbers h fun item e => ⟨_, rfl, ?_⟩
      obtain rfl := Option.some.inj e
      exact fun v t => ih (Nat.le_of_succ_le_succ hdepth)

end

theorem loose_of_exact {depth : Nat} {v : Value} {t : List Char} (h : ValueText exact depth v t) :
    ValueText loose depth v t := by
  have hstrings : ∀ s t, exact.strings s t → loose.strings s t := fun _ _ => exact.escaped
  have hnumbers : ∀ x t, exact.numbers x t → loose.numbers x t := fun _ _ => exact.numeral
  exact valueText_mono hstrings hnumbers (Nat.le_refl depth) h

theorem loose_of_le {depth depth' : Nat} (hdepth : depth ≤ depth') {v : Value} {t : List Char}
    (h : ValueText loose depth v t) : ValueText loose depth' v t :=
  valueText_mono (fun _ _ => id) (fun _ _ => id) hdepth h

/-- Texts of a value, however deep it is. -/
def AnyText : Texts Value := fun v t => ∃ depth, ValueText loose depth v t

/-- Each item has its depth, and the greatest of them is enough for all. -/
theorem exists_depth {α : Type} {item : Nat → Texts α} {vs : List α} {t : List Char}
    (hmono : ∀ {d d'}, d ≤ d' → ∀ v t, item d v t → item d' v t)
    (h : BodyText (fun v t => ∃ depth, item depth v t) vs t) :
    ∃ depth, BodyText (item depth) vs t := by
  have hitems : ∀ {vs t}, ItemsText (fun v t => ∃ depth, item depth v t) vs t →
      ∃ depth, ItemsText (item depth) vs t := by
    intro vs t h
    induction h with
    | last hv hg =>
        obtain ⟨d, hv⟩ := hv
        exact ⟨d, .last hv hg⟩
    | more hv hg hg' _ ih =>
        obtain ⟨d, hv⟩ := hv
        obtain ⟨d', ih⟩ := ih
        refine ⟨max d d', .more (hmono (Nat.le_max_left d d') _ _ hv) hg hg' ?_⟩
        have hmap := itemsText_map (f := id) ih fun v _ t => hmono (Nat.le_max_right d d') v t
        rwa [List.map_id] at hmap
  cases h with
  | empty hg => exact ⟨0, .empty hg⟩
  | items hg hvs =>
      obtain ⟨depth, hvs⟩ := hitems hvs
      exact ⟨depth, .items hg hvs⟩

theorem anyText_list {vs : List Value} {t : List Char} (h : BodyText AnyText vs t) :
    AnyText (.list vs) ('[' :: t ++ [']']) := by
  obtain ⟨depth, h⟩ := @exists_depth _ (ValueText loose) vs t (fun hd _ _ => loose_of_le hd) h
  exact ⟨depth + 1, .list rfl h⟩

theorem anyText_record {ms : List (String × Value)} {t : List Char}
    (h : BodyText (MemberText loose.strings AnyText) ms t) :
    AnyText (.record ms) ('\x7b' :: t ++ ['\x7d']) := by
  have hms : BodyText (fun m t => ∃ depth, MemberText loose.strings (ValueText loose depth) m t)
      ms t := by
    refine bodyText_mono h fun m t hm => ?_
    cases hm with
    | mk hn hg hg' hv =>
        obtain ⟨depth, hv⟩ := hv
        exact ⟨depth, .mk hn hg hg' hv⟩
  obtain ⟨depth, hms⟩ :=
    @exists_depth _ (fun d => MemberText loose.strings (ValueText loose d)) ms t
      (fun hd _ _ hm => memberText_mono hm (fun _ _ => id) fun _ _ => loose_of_le hd) hms
  exact ⟨depth + 1, .record rfl hms⟩

/-- With so much fuel, a skip from the spot inside the frames passes over a text and comes to the
spot behind it, with less fuel left. -/
def SkipsOne {α : Type} (item : Texts α) (spot : Spot) (frames : List Frame) (fuel : Nat) : Prop :=
  ∀ ⦃cs rest⦄, skipFrom fuel spot frames cs = some rest → ∃ g v t cs' fuel',
    Gap g ∧ item v t ∧ cs = g ++ t ++ cs' ∧ fuel' < fuel ∧
      skipFrom fuel' .after frames cs' = some rest

theorem exists_step {spot : Spot} {frames : List Frame} {fuel : Nat} {cs rest : List Char}
    (h : skipFrom fuel spot frames cs = some rest) (hspot : spot = .after → frames ≠ []) :
    ∃ fuel' spot' frames' cs', fuel = fuel' + 1 ∧
      skipStep spot frames cs = some (spot', frames', cs') ∧
      skipFrom fuel' spot' frames' cs' = some rest := by
  have hover : ¬ (spot = .after ∧ frames = []) := fun ⟨hafter, hnil⟩ => hspot hafter hnil
  cases fuel with
  | zero =>
      rw [skipFrom] at h
      · cases h
      · exact fun hafter hnil => hover ⟨hafter, hnil⟩
  | succ fuel =>
      rw [skipFrom] at h
      · cases hstep : skipStep spot frames cs with
        | none =>
            rw [hstep] at h
            cases h
        | some p =>
            obtain ⟨spot', frames', cs'⟩ := p
            rw [hstep] at h
            exact ⟨fuel, spot', frames', cs', rfl, rfl, h⟩
      · exact fun hafter hnil => hover ⟨hafter, hnil⟩

/-- Behind an item the frame goes on or is closed. -/
theorem skipStep_after {frame : Frame} {frames frames' : List Frame} {spot : Spot}
    {cs cs' : List Char} (h : skipStep .after (frame :: frames) cs = some (spot, frames', cs')) :
    ∃ g, Gap g ∧ (cs = g ++ ',' :: cs' ∧ spot = frame.inside ∧ frames' = frame :: frames ∨
      cs = g ++ frame.close :: cs' ∧ spot = .after ∧ frames' = frames) := by
  rw [skipStep] at h
  split at h
  · cases h
  · next c r hgap =>
    obtain ⟨g, hg, rfl⟩ := eq_of_skipGap hgap
    refine ⟨g, hg, ?_⟩
    split at h
    · next hc =>
      cases h
      exact Or.inl ⟨by rw [hc], rfl, rfl⟩
    · split at h
      · next hc =>
        cases h
        exact Or.inr ⟨by rw [hc], rfl, rfl⟩
      · cases h

/-- If single items are passed over, so are items in a row, up to the closing bracket. -/
theorem items_of_skipFrom {α : Type} {item : Texts α} {frame : Frame} {frames : List Frame}
    {fuel : Nat} (hitem : ∀ fuel' ≤ fuel, SkipsOne item frame.inside (frame :: frames) fuel')
    {cs rest : List Char} (h : skipFrom fuel frame.inside (frame :: frames) cs = some rest) :
    ∃ g vs t cs' fuel', Gap g ∧ ItemsText item vs t ∧ cs = g ++ t ++ frame.close :: cs' ∧
      fuel' < fuel ∧ skipFrom fuel' .after frames cs' = some rest := by
  induction fuel using Nat.strongRecOn generalizing cs with
  | ind fuel ih =>
      obtain ⟨g, v, t, cs', fuel', hg, ht, rfl, hlt, hafter⟩ := hitem fuel (Nat.le_refl fuel) h
      obtain ⟨m, spot, frames', cs'', rfl, hstep, hrest⟩ :=
        exists_step hafter fun _ => List.cons_ne_nil _ _
      obtain ⟨g', hg', ⟨rfl, rfl, rfl⟩ | ⟨rfl, rfl, rfl⟩⟩ := skipStep_after hstep
      · have hm : m < fuel := by omega
        obtain ⟨g'', vs, ts, rest', n, hg'', hts, rfl, hn, hdone⟩ :=
          ih m hm (fun n hn => hitem n (by omega)) hrest
        exact ⟨g, v :: vs, _, rest', n, hg, .more ht hg' hg'' hts, by simp, by omega, hdone⟩
      · exact ⟨g, [v], _, cs'', m, hg, .last ht hg', by simp, by omega, hrest⟩

def Frame.bracket : Frame → Char
  | .list => '['
  | .record => '\x7b'

/-- What an open frame comes to: its items make a value, once its bracket is closed. -/
theorem value_of_open {α : Type} {item : Texts α} {frame : Frame}
    (hholds : ∀ vs t, BodyText item vs t → ∃ v, AnyText v (frame.bracket :: t ++ [frame.close]))
    {frames frames' : List Frame} {spot : Spot} {fuel : Nat} {cs cs' rest : List Char}
    (hitem : ∀ fuel' ≤ fuel, SkipsOne item frame.inside (frame :: frames) fuel')
    (hopen : skipOpen frame frames cs = some (spot, frames', cs'))
    (h : skipFrom fuel spot frames' cs' = some rest) :
    ∃ v t r fuel', AnyText v t ∧ frame.bracket :: cs = t ++ r ∧ fuel' ≤ fuel ∧
      skipFrom fuel' .after frames r = some rest := by
  unfold skipOpen at hopen
  split at hopen
  · cases hopen
  · next c r hgap =>
    obtain ⟨g, hg, rfl⟩ := eq_of_skipGap hgap
    split at hopen
    · next hc =>
      cases hopen
      obtain ⟨v, hv⟩ := hholds [] g (.empty hg)
      exact ⟨v, _, cs', fuel, hv, by simp [hc], Nat.le_refl fuel, h⟩
    · cases hopen
      obtain ⟨g', vs, t, r', fuel', hg', ht, heq, hlt, hafter⟩ := items_of_skipFrom hitem h
      obtain ⟨v, hv⟩ := hholds vs _ (.items (gap_append hg hg') ht)
      refine ⟨v, _, r', fuel', hv, ?_, Nat.le_of_lt hlt, hafter⟩
      rw [heq]
      simp

/-- The first step into a value passes over all of it, or opens a frame. -/
theorem skipStep_value {spot : Spot} {frames frames' : List Frame} {cs cs' : List Char}
    (h : skipStep .value frames cs = some (spot, frames', cs')) :
    ∃ g, Gap g ∧ ((∃ v t, AnyText v t ∧ cs = g ++ t ++ cs' ∧ spot = .after ∧ frames' = frames) ∨
      ∃ frame r, cs = g ++ frame.bracket :: r ∧
        skipOpen frame frames r = some (spot, frames', cs')) := by
  have hword : ∀ {letters r}, (expectLetters letters r).toOption.map
      (fun rest => (Spot.after, frames, rest)) = some (spot, frames', cs') →
        r = letters ++ cs' ∧ spot = .after ∧ frames' = frames := by
    intro letters r h
    cases hletters : expectLetters letters r with
    | error f =>
        rw [hletters] at h
        cases h
    | ok r' =>
        rw [hletters] at h
        cases h
        exact ⟨eq_of_expectLetters hletters, rfl, rfl⟩
  rw [skipStep] at h
  split at h
  · cases h
  · next c r hgap =>
    obtain ⟨g, hg, rfl⟩ := eq_of_skipGap hgap
    refine ⟨g, hg, ?_⟩
    split at h
    · next hc =>
      obtain ⟨rfl, hafter⟩ := hword h
      exact Or.inl ⟨.null, _, ⟨0, .null⟩, by simp [hc], hafter⟩
    · split at h
      · next hc =>
        obtain ⟨rfl, hafter⟩ := hword h
        exact Or.inl ⟨.flag true, _, ⟨0, .true⟩, by simp [hc], hafter⟩
      · split at h
        · next hc =>
          obtain ⟨rfl, hafter⟩ := hword h
          exact Or.inl ⟨.flag false, _, ⟨0, .false⟩, by simp [hc], hafter⟩
        · split at h
          · obtain ⟨⟨n, r'⟩, hscan, heq⟩ := Option.map_eq_some_iff.mp h
            cases heq
            obtain ⟨t, ht, hcs⟩ := numeral_of_scanNumeral hscan
            have hnumber : AnyText (.number (.natural 0)) t := ⟨0, .number ⟨n, ht⟩⟩
            exact Or.inl ⟨_, t, hnumber, by rw [hcs, List.append_assoc], rfl, rfl⟩
          · split at h
            · next hc =>
              obtain ⟨r', hskip, heq⟩ := Option.map_eq_some_iff.mp h
              cases heq
              obtain ⟨t, ht, rfl⟩ := escaped_of_skipString hskip
              have htext : AnyText (.text "") ('"' :: t ++ ['"']) := ⟨0, .text ht⟩
              exact Or.inl ⟨_, _, htext, by simp [hc], rfl, rfl⟩
            · split at h
              · next hc => exact Or.inr ⟨.list, r, by rw [hc]; rfl, h⟩
              · split at h
                · next hc => exact Or.inr ⟨.record, r, by rw [hc]; rfl, h⟩
                · cases h

theorem skipStep_name {spot : Spot} {frames frames' : List Frame} {cs cs' : List Char}
    (h : skipStep .name frames cs = some (spot, frames', cs')) :
    ∃ g n g', Gap g ∧ Escaped n ∧ Gap g' ∧ cs = g ++ ('"' :: n ++ '"' :: g' ++ ':' :: cs') ∧
      spot = .value ∧ frames' = frames := by
  rw [skipStep] at h
  split at h
  · next r hgap =>
    obtain ⟨g, hg, rfl⟩ := eq_of_skipGap hgap
    split at h
    · cases h
    · next r' hskip =>
      obtain ⟨n, hn, rfl⟩ := escaped_of_skipString hskip
      split at h
      · next r'' hgap' =>
        obtain ⟨g', hg', rfl⟩ := eq_of_skipGap hgap'
        cases h
        exact ⟨g, n, g', hg, hn, hg', by simp, rfl, rfl⟩
      · cases h
  · cases h

theorem skipsOne_member {frames : List Frame} {fuel : Nat}
    (hvalue : ∀ fuel' < fuel, SkipsOne AnyText .value frames fuel') :
    SkipsOne (MemberText loose.strings AnyText) .name frames fuel := by
  intro cs rest h
  obtain ⟨m, spot, frames', cs', rfl, hstep, hrest⟩ := exists_step h nofun
  obtain ⟨g, n, g', hg, hn, hg', rfl, rfl, rfl⟩ := skipStep_name hstep
  obtain ⟨g'', v, t, r, fuel', hg'', ht, rfl, hlt, hafter⟩ := hvalue m (Nat.lt_succ_self m) hrest
  exact ⟨g, ("", v), _, r, fuel', hg, .mk hn hg' hg'' ht, by simp, by omega, hafter⟩

theorem skipsOne_value (fuel : Nat) (frames : List Frame) :
    SkipsOne AnyText .value frames fuel := by
  -- A frame's items are passed over with less fuel than the value they are in.
  induction fuel using Nat.strongRecOn generalizing frames with
  | ind fuel ih =>
      intro cs rest h
      obtain ⟨m, spot, frames', cs', rfl, hstep, hrest⟩ := exists_step h nofun
      obtain ⟨g, hg, ⟨v, t, ht, rfl, rfl, rfl⟩ | ⟨frame, r, rfl, hopen⟩⟩ := skipStep_value hstep
      · exact ⟨g, v, t, cs', m, hg, ht, rfl, Nat.lt_succ_self m, hrest⟩
      · obtain ⟨v, t, r', fuel', hv, heq, hle, hafter⟩ : ∃ v t r' fuel', AnyText v t ∧
            frame.bracket :: r = t ++ r' ∧ fuel' ≤ m ∧
              skipFrom fuel' .after frames r' = some rest := by
          cases frame with
          | list =>
              exact value_of_open (fun _ _ ht => ⟨_, anyText_list ht⟩)
                (fun n hn => ih n (by omega) _) hopen hrest
          | record =>
              exact value_of_open (fun _ _ ht => ⟨_, anyText_record ht⟩)
                (fun n hn => skipsOne_member fun n' hn' => ih n' (by omega) _) hopen hrest
        exact ⟨g, v, t, r', fuel', hg, hv, by rw [heq, List.append_assoc], by omega, hafter⟩

/-- Behind a value that was passed over nothing else was. -/
theorem raw_of_skipValue {cs rest : List Char} (h : skipValue cs = .ok rest) :
    ∃ g t, Gap g ∧ RawText t t ∧ cs = g ++ t ++ rest := by
  unfold skipValue at h
  cases hskip : skipFrom cs.length .value [] cs with
  | none =>
      rw [hskip] at h
      cases h
  | some r =>
      rw [hskip] at h
      cases h
      obtain ⟨g, v, t, cs', fuel', hg, ⟨depth, ht⟩, hcs, -, hafter⟩ := skipsOne_value _ _ hskip
      rw [skipFrom] at hafter
      cases hafter
      exact ⟨g, t, hg, ⟨rfl, depth, v, ht⟩, hcs⟩

end JobHealth.Json
