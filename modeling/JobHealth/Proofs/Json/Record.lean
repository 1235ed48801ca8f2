import JobHealth.Proofs.Json.Grammar
/-!
# `JobHealth.Proofs.Json.Record` — the texts of records with known fields

A record of a shape may name its fields in any order, with any gaps, and other
members before, between and behind them.  Those others are passed over, frame
by frame, whatever they hold.
-/

namespace JobHealth.Json

/-! ## Passing over a value -/

theorem skipFrom_step {spot spot' : Spot} {frames frames' : List Frame} {cs rest : List Char}
    (h : skipStep spot frames cs = some (spot', frames', rest)) (fuel : Nat) :
    skipFrom (fuel + 1) spot frames cs = skipFrom fuel spot' frames' rest := by
  rw [skipFrom, h]
  rintro rfl rfl
  cases h

/-- From the spot, some steps pass over each text; there are not more of them than characters. -/
def Skips {α : Type} (spot : Spot) (texts : Texts α) : Prop :=
  ∀ ⦃v t⦄, texts v t → ∃ n, n ≤ t.length ∧
    ∀ ⦃g rest⦄, Gap g → Follows rest → ∀ frames fuel,
      skipFrom (fuel + n) spot frames (g ++ t ++ rest) = skipFrom fuel .after frames rest

theorem isClose_close (frame : Frame) : IsClose frame.close := by
  cases frame with
  | list => exact Or.inl rfl
  | record => exact Or.inr rfl

section
variable {α : Type} {item : Texts α}

theorem skips_items {frame : Frame} (hskip : Skips frame.inside item) {vs : List α} {t : List Char}
    (h : ItemsText item vs t) : ∃ n, n ≤ t.length + 1 ∧ ∀ ⦃g⦄, Gap g → ∀ rest frames fuel,
      skipFrom (fuel + n) frame.inside (frame :: frames) (g ++ t ++ frame.close :: rest) =
        skipFrom fuel .after frames rest := by
  have hstop := (isClose_close frame).isStop
  induction h with
  | @last v t g' hv hg' =>
      obtain ⟨n, hn, hskip⟩ := hskip hv
      refine ⟨n + 1, by simp only [List.length_append]; omega, fun g hg rest frames fuel => ?_⟩
      have happ : g ++ (t ++ g') ++ frame.close :: rest =
          g ++ t ++ (g' ++ frame.close :: rest) := by simp
      rw [happ, Nat.add_comm n 1, ← Nat.add_assoc,
        hskip hg (follows_stop hg' hstop rest)]
      refine skipFrom_step ?_ fuel
      rw [skipStep, skipGap_token hg' (isGap_of_isStop hstop)]
      dsimp only
      rw [if_neg (isClose_close frame).ne_comma, if_pos rfl]
  | @more v vs t g' g'' ts hv hg' hg'' _ ih =>
      obtain ⟨n, hn, hskip⟩ := hskip hv
      obtain ⟨m, hm, ih⟩ := ih
      refine ⟨m + 1 + n, ?_, fun g hg rest frames fuel => ?_⟩
      · simp only [List.length_append, List.length_cons]
        omega
      · have happ : g ++ (t ++ g' ++ ',' :: g'' ++ ts) ++ frame.close :: rest =
            g ++ t ++ (g' ++ ',' :: (g'' ++ ts ++ frame.close :: rest)) := by simp
        rw [happ, ← Nat.add_assoc, hskip hg (follows_stop hg' (Or.inl rfl) _), ← Nat.add_assoc]
        refine (skipFrom_step ?_ (fuel + m)).trans (ih hg'' rest frames fuel)
        rw [skipStep, skipGap_token hg' (by decide)]
        dsimp only
        rw [if_pos rfl]

theorem skipStep_gap {g : List Char} (hg : Gap g) (frames : List Frame) (cs : List Char) :
    skipStep .value frames (g ++ cs) = skipStep .value frames cs := by
  rw [skipStep, skipStep, skipGap_gap hg]

/-- A bracket, what stands behind it, and the bracket that closes it. -/
theorem skips_brackets (frame : Frame) {bracket : Char}
    (hopen : ∀ frames cs, skipStep .value frames (bracket :: cs) = skipOpen frame frames cs)
    (hskip : Skips frame.inside item) (hbegun : Begun item) {vs : List α} {t : List Char}
    (h : BodyText item vs t) : ∃ n, n ≤ (bracket :: t ++ [frame.close]).length ∧
      ∀ ⦃g⦄, Gap g → ∀ rest frames fuel,
        skipFrom (fuel + n) .value frames (g ++ (bracket :: t ++ [frame.close]) ++ rest) =
          skipFrom fuel .after frames rest := by
  have hstop := (isClose_close frame).isStop
  have happ : ∀ g t rest, g ++ (bracket :: t ++ [frame.close]) ++ rest =
      g ++ bracket :: (t ++ frame.close :: rest) := by simp
  cases h with
  | empty hg' =>
      refine ⟨1, by simp, fun g hg rest frames fuel => ?_⟩
      rw [happ]
      refine skipFrom_step ?_ fuel
      rw [skipStep_gap hg, hopen, skipOpen, skipGap_token hg' (isGap_of_isStop hstop)]
      dsimp only
      rw [if_pos rfl]
  | @items vs g' t hg' hvs =>
      obtain ⟨n, hn, hskip⟩ := skips_items hskip hvs
      obtain ⟨c, cs, rfl, hc, hnot⟩ := begun_itemsText hbegun hvs
      refine ⟨n + 1, ?_, fun g hg rest frames fuel => ?_⟩
      · simp only [List.length_append, List.length_cons, List.length_nil] at hn ⊢
        omega
      · have hne : c ≠ frame.close := by
          rintro rfl
          exact hnot hstop
        rw [happ, ← Nat.add_assoc]
        refine (skipFrom_step ?_ (fuel + n)).trans (hskip gap_nil rest frames fuel)
        rw [skipStep_gap hg, hopen, skipOpen, List.append_assoc, List.cons_append,
          skipGap_token hg' hc]
        dsimp only
        rw [if_neg hne]
        rfl

theorem skips_member {strings : Texts String} (hstrings : ∀ {s t}, strings s t → Escaped t)
    (hskip : Skips .value item) : Skips .name (MemberText strings item) := by
  rintro ⟨name, v⟩ t h
  cases h with
  | @mk _ _ n g' g'' t hn hg' hg'' hv =>
      obtain ⟨m, hm, hskip⟩ := hskip hv
      refine ⟨m + 1, ?_, fun g rest hg hrest frames fuel => ?_⟩
      · simp only [List.length_append, List.length_cons]
        omega
      · have happ : g ++ ('"' :: n ++ '"' :: g' ++ ':' :: g'' ++ t) ++ rest =
            g ++ '"' :: (n ++ '"' :: (g' ++ ':' :: (g'' ++ t ++ rest))) := by simp
        rw [happ, ← Nat.add_assoc]
        refine (skipFrom_step ?_ (fuel + m)).trans (hskip hg'' hrest frames fuel)
        have hcolon : isGap ':' = false := by decide
        rw [skipStep, skipGap_token hg (by decide)]
        simp only [skipString_escaped (hstrings hn), skipGap_token hg' hcolon]

end

/-- One step passes over a value without brackets. -/
theorem skips_once {t : List Char} (hne : t ≠ []) (hstep : ∀ {rest}, Follows rest → ∀ frames,
      skipStep .value frames (t ++ rest) = some (.after, frames, rest)) :
    ∃ n, n ≤ t.length ∧ ∀ ⦃g rest⦄, Gap g → Follows rest → ∀ frames fuel,
      skipFrom (fuel + n) .value frames (g ++ t ++ rest) = skipFrom fuel .after frames rest := by
  refine ⟨1, List.length_pos_iff.mpr hne, fun g rest hg hrest frames fuel => ?_⟩
  refine skipFrom_step ?_ fuel
  rw [List.append_assoc, skipStep_gap hg, hstep hrest]

theorem skips_word {letter : Char} {letters : List Char}
    (hstep : ∀ frames rest, skipStep .value frames (letter :: letters ++ rest) =
      (expectLetters letters (letters ++ rest)).toOption.map fun rest => (.after, frames, rest)) :
    ∃ n, n ≤ (letter :: letters).length ∧ ∀ ⦃g rest⦄, Gap g → Follows rest → ∀ frames fuel,
      skipFrom (fuel + n) .value frames (g ++ (letter :: letters) ++ rest) =
        skipFrom fuel .after frames rest := by
  refine skips_once (List.cons_ne_nil _ _) fun {rest} _ frames => ?_
  rw [hstep, expectLetters_text]
  rfl

theorem skips_levelText {lexis : Lexis} {texts : Option (Texts Value)}
    (hitems : ∀ item, texts = some item → Skips .value item ∧ Begun item) :
    Skips .value (LevelText lexis texts) := by
  intro v t h
  cases h with
  | null => exact skips_word fun frames rest => rfl
  | true => exact skips_word fun frames rest => rfl
  | false => exact skips_word fun frames rest => rfl
  | number hx =>
      obtain ⟨n, hn⟩ := lexis.numeral hx
      obtain ⟨d, ds, rfl, hd⟩ := head_numeral hn
      refine skips_once (List.cons_ne_nil _ _) fun {rest} hrest frames => ?_
      have hscan := scanNumeral_text hn hrest
      rw [List.cons_append] at hscan ⊢
      rw [skipStep, skipGap_cons (isGap_of_startsNumeral hd)]
      dsimp only
      rw [if_neg (ne_of_startsNumeral hd (by decide)), if_neg (ne_of_startsNumeral hd (by decide)),
        if_neg (ne_of_startsNumeral hd (by decide)), if_pos hd, hscan]
      rfl
  | @text s t hs =>
      refine skips_once (List.cons_ne_nil _ _) fun {rest} _ frames => ?_
      have hskip := skipString_escaped (lexis.escaped hs) rest
      have happ : ('"' :: t ++ ['"']) ++ rest = '"' :: (t ++ '"' :: rest) := by simp
      rw [happ, skipStep, skipGap_cons (by decide)]
      show (skipString (t ++ '"' :: rest)).map _ = _
      rw [hskip]
      rfl
  | list hitem hvs =>
      obtain ⟨hskip, hbegun⟩ := hitems _ hitem
      have hopen : ∀ frames cs, skipStep .value frames ('[' :: cs) = skipOpen .list frames cs := by
        intro frames cs
        rw [skipStep, skipGap_cons (by decide)]
        rfl
      obtain ⟨n, hn, hskip⟩ := skips_brackets .list hopen hskip hbegun hvs
      exact ⟨n, hn, fun g rest hg _ frames fuel => hskip hg rest frames fuel⟩
  | record hitem hms =>
      obtain ⟨hskip, hbegun⟩ := hitems _ hitem
      have hopen : ∀ frames cs,
          skipStep .value frames ('\x7b' :: cs) = skipOpen .record frames cs := by
        intro frames cs
        rw [skipStep, skipGap_cons (by decide)]
        rfl
      obtain ⟨n, hn, hskip⟩ := skips_brackets .record hopen
        (skips_member lexis.escaped hskip) (begun_memberText lexis.strings) hms
      exact ⟨n, hn, fun g rest hg _ frames fuel => hskip hg rest frames fuel⟩

theorem skips_valueText (lexis : Lexis) (depth : Nat) : Skips .value (ValueText lexis depth) := by
  induction depth with
  | zero => exact skips_levelText nofun
  | succ depth ih =>
      refine skips_levelText fun item e => ?_
      obtain rfl := Option.some.inj e
      exact ⟨ih, begun_valueText lexis depth⟩

/-- A value that nobody asked for is passed over, however deep it is. -/
theorem skipValue_text {lexis : Lexis} {depth : Nat} {v : Value} {t g rest : List Char}
    (h : ValueText lexis depth v t) (hg : Gap g) (hrest : Follows rest) :
    skipValue (g ++ t ++ rest) = .ok rest := by
  -- The steps take no more than the length of the text, so the fuel lasts.
  obtain ⟨n, hn, hskip⟩ := skips_valueText lexis depth h
  have hfuel : (g ++ t ++ rest).length = (g ++ t ++ rest).length - n + n := by
    simp only [List.length_append]
    omega
  have hover : ∀ fuel, skipFrom fuel .after [] rest = some rest := fun fuel => by rw [skipFrom]
  rw [skipValue, hfuel, hskip hg hrest, hover]

/-! ## Known fields -/

/-- The texts of a field of that kind. -/
inductive FieldText : Kind → Texts Field
  | text {s : String} {t : List Char} : spelled s t → FieldText .text (.text s) ('"' :: t ++ ['"'])
  | word64 {n : Nat} {t : List Char} : exact.numbers (.natural n) t →
      FieldText .word64 (.word64 (UInt64.ofNat n)) t
  | free {depth : Nat} {v : Value} {t : List Char} : ValueText exact depth v t →
      FieldText (.free depth) (.free v) t

theorem reads_kindRead (kind : Kind) : Reads kind.read (FieldText kind) := by
  intro v t h g rest hg hrest
  cases h with
  | @text s t hs =>
      have happ : g ++ ('"' :: t ++ ['"']) ++ rest = g ++ '"' :: (t ++ '"' :: rest) := by simp
      rw [happ]
      show (readText _).map _ = _
      rw [readText, readTextAs, skipGap_token hg (by decide)]
      simp only [scanString_spelling hs, String.ofList_toList]
      rfl
  | @word64 n t hx =>
      have hnumber := readNumber_text hx hrest
      obtain ⟨m, hm, -⟩ := hx
      obtain ⟨d, ds, rfl, hd⟩ := head_numeral hm
      rw [List.append_assoc, List.cons_append] at *
      show (readWord64 _).map _ = _
      rw [readWord64, skipGap_token hg (isGap_of_startsNumeral hd)]
      dsimp only
      rw [if_pos hd, hnumber]
      rfl
  | @free depth v t hv =>
      show (readValue depth _).map _ = _
      rw [reads_readValue depth hv hg hrest]
      rfl

/-- A member of a record of the shape: a known field, or any other member. -/
inductive RecordMember (shape : Shape) : Texts (Option (String × Field))
  | known {f : FieldShape} {m : String × Field} {t : List Char} : shape.field? m.1 = some f →
      MemberText spelled (FieldText f.kind) m t → RecordMember shape (some m) t
  | other {depth : Nat} {m : String × Value} {t : List Char} : shape.field? m.1 = none →
      MemberText spelled (ValueText loose depth) m t → RecordMember shape none t

section
variable {shape : Shape}

theorem begun_recordMember : Begun (RecordMember shape) := by
  intro m t h
  cases h with
  | known _ hm => exact begun_memberText spelled hm
  | other _ hm => exact begun_memberText spelled hm

/-- What stands in front of a member. -/
def lead (first : Bool) : List Char := if first then [] else [',']

theorem readFields_close {g : List Char} (hg : Gap g) (fuel : Nat) (first : Bool) (seen : Fields)
    (rest : List Char) :
    readFields shape (fuel + 1) first seen (g ++ '\x7d' :: rest) = .ok (seen, rest) := by
  rw [readFields]
  dsimp only
  rw [skipGap_token hg (by decide)]
  rfl

theorem lookup_eq_none {seen : Fields} {name : String} {v : Field}
    (h : ((seen ++ (some (name, v)).toList).map Prod.fst).Nodup) : seen.lookup name = none := by
  rw [List.map_append, List.nodup_append] at h
  refine List.lookup_eq_none_iff.mpr fun p hp => ?_
  have hne := h.2.2 p.1 (List.mem_map.mpr ⟨p, hp, rfl⟩) name List.mem_cons_self
  simpa [bne_iff_ne] using hne.symm

/-- Behind a name and its colon, what is read depends on whether the name is known and new. -/
theorem readNamed_colon {g : List Char} (hg : Gap g) (seen : Fields) (name : String)
    (rest : List Char) :
    readNamed shape seen name (g ++ ':' :: rest) =
      match shape.field? name with
      | none => (skipValue rest).map fun rest => (seen, rest)
      | some f =>
        if (seen.lookup name).isSome then .error (.duplicateField name)
        else (f.kind.read rest).map fun (v, rest) => (seen ++ [(name, v)], rest) := by
  have hmark := readMark_text hg (by decide : isGap ':' = false) rest
  unfold readNamed
  cases shape.field? name with
  | none =>
      show (readMark ':' _ >>= _) = _
      rw [hmark]
      show (skipValue rest >>= _) = _
      cases skipValue rest <;> rfl
  | some f =>
      dsimp only
      congr 1
      rw [hmark]
      show (f.kind.read rest >>= _) = _
      cases f.kind.read rest <;> rfl

theorem readNamed_text {m : Option (String × Field)} {t rest : List Char} {seen : Fields}
    (h : RecordMember shape m t) (hrest : Follows rest)
    (hnew : ((seen ++ m.toList).map Prod.fst).Nodup) :
    ∃ name n r, spelled name n ∧ t = '"' :: n ++ '"' :: r ∧
      readNamed shape seen name (r ++ rest) = .ok (seen ++ m.toList, rest) := by
  cases h with
  | @known f m t hf hm =>
      obtain ⟨name, v⟩ := m
      cases hm with
      | @mk _ _ n g g' t hn hg hg' hv =>
          refine ⟨name, n, g ++ ':' :: g' ++ t, hn, by simp, ?_⟩
          have hlookup : ¬ (seen.lookup name).isSome = true := by
            rw [lookup_eq_none hnew]
            exact nofun
          have happ : g ++ ':' :: g' ++ t ++ rest = g ++ ':' :: (g' ++ t ++ rest) := by simp
          dsimp only at hf
          rw [happ, readNamed_colon hg, hf]
          dsimp only
          rw [if_neg hlookup, reads_kindRead f.kind hv hg' hrest]
          rfl
  | @other depth m t hf hm =>
      obtain ⟨name, v⟩ := m
      cases hm with
      | @mk _ _ n g g' t hn hg hg' hv =>
          refine ⟨name, n, g ++ ':' :: g' ++ t, hn, by simp, ?_⟩
          have happ : g ++ ':' :: g' ++ t ++ rest = g ++ ':' :: (g' ++ t ++ rest) := by simp
          dsimp only at hf
          rw [happ, readNamed_colon hg, hf]
          dsimp only
          rw [skipValue_text hv hg' hrest, Option.toList_none, List.append_nil]
          rfl

/-- A member's name is read wherever the member stands, and what comes of it goes on to the next. -/
theorem readFields_name {name : String} {n g g' : List Char} (hn : spelled name n) (hg : Gap g)
    (hg' : Gap g') (fuel : Nat) (first : Bool) (seen : Fields) (rest : List Char) :
    readFields shape (fuel + 1) first seen (g ++ lead first ++ g' ++ ('"' :: n ++ '"' :: rest)) =
      (readNamed shape seen name rest >>= fun (seen, rest) =>
        readFields shape fuel false seen rest) := by
  rw [readFields]
  dsimp only
  cases first with
  | true =>
      have hname := readName_text hn gap_nil rest
      have hgap : Gap (g ++ g') := fun c hc => (List.mem_append.mp hc).elim (hg c) (hg' c)
      have happ : g ++ lead true ++ g' ++ ('"' :: n ++ '"' :: rest) =
          (g ++ g') ++ '"' :: (n ++ '"' :: rest) := by
        simp [lead]
      rw [happ, skipGap_token hgap (by decide)]
      dsimp only
      rw [if_neg (by decide), if_neg (by simp), if_pos rfl]
      rw [List.nil_append, List.cons_append] at hname
      rw [hname]
      rfl
  | false =>
      have hname := readName_text hn hg' rest
      have happ : g ++ lead false ++ g' ++ ('"' :: n ++ '"' :: rest) =
          g ++ ',' :: (g' ++ '"' :: n ++ '"' :: rest) := by
        simp [lead]
      rw [happ, skipGap_token hg (by decide)]
      dsimp only
      rw [if_neg (by decide), if_neg (by decide), if_neg (by decide), hname]
      rfl

/-- A member is taken in wherever it stands. -/
theorem readFields_member {m : Option (String × Field)} {t g g' rest : List Char} {seen : Fields}
    (h : RecordMember shape m t) (hg : Gap g) (hg' : Gap g') (hrest : Follows rest)
    (hnew : ((seen ++ m.toList).map Prod.fst).Nodup) (fuel : Nat) (first : Bool) :
    readFields shape (fuel + 1) first seen (g ++ lead first ++ g' ++ t ++ rest) =
      readFields shape fuel false (seen ++ m.toList) rest := by
  obtain ⟨name, n, r, hn, rfl, hnamed⟩ := readNamed_text h hrest hnew
  have happ : g ++ lead first ++ g' ++ ('"' :: n ++ '"' :: r) ++ rest =
      g ++ lead first ++ g' ++ ('"' :: n ++ '"' :: (r ++ rest)) := by simp
  rw [happ, readFields_name hn hg hg', hnamed]
  rfl

theorem filterMap_id_cons {α : Type} (m : Option α) (ms : List (Option α)) :
    (m :: ms).filterMap id = m.toList ++ ms.filterMap id := by
  cases m with
  | none => rfl
  | some _ => rfl

/-- Members in a row are taken in one after the other, up to the closing brace. -/
theorem readFields_items {ms : List (Option (String × Field))} {t : List Char}
    (h : ItemsText (RecordMember shape) ms t) {seen : Fields}
    (hnew : ((seen ++ ms.filterMap id).map Prod.fst).Nodup) {fuel : Nat} (hfuel : ms.length < fuel)
    (first : Bool) {g g' : List Char} (hg : Gap g) (hg' : Gap g') (rest : List Char) :
    readFields shape fuel first seen (g ++ lead first ++ g' ++ t ++ '\x7d' :: rest) =
      .ok (seen ++ ms.filterMap id, rest) := by
  -- Each member moves from the text to `seen`; its comma is the next one's lead.
  induction h generalizing seen fuel first g g' with
  | @last m t g'' hm hg'' =>
      obtain ⟨fuel, rfl⟩ : ∃ n, fuel = n + 1 + 1 := ⟨fuel - 2, by simp at hfuel; omega⟩
      rw [filterMap_id_cons, List.filterMap_nil, List.append_nil] at hnew ⊢
      have hstop : IsStop '\x7d' := Or.inr (Or.inr rfl)
      have happ : g ++ lead first ++ g' ++ (t ++ g'') ++ '\x7d' :: rest =
          g ++ lead first ++ g' ++ t ++ (g'' ++ '\x7d' :: rest) := by simp
      rw [happ, readFields_member hm hg hg' (follows_stop hg'' hstop rest) hnew,
        readFields_close hg'']
  | @more m ms t g₁ g₂ ts hm hg₁ hg₂ _ ih =>
      obtain ⟨fuel, rfl⟩ : ∃ n, fuel = n + 1 := ⟨fuel - 1, by omega⟩
      have hseen : seen ++ (m :: ms).filterMap id = seen ++ m.toList ++ ms.filterMap id := by
        rw [filterMap_id_cons, List.append_assoc]
      rw [hseen] at hnew ⊢
      have hm' : ((seen ++ m.toList).map Prod.fst).Nodup := by
        rw [List.map_append] at hnew
        exact (List.nodup_append.mp hnew).1
      have happ : g ++ lead first ++ g' ++ (t ++ g₁ ++ ',' :: g₂ ++ ts) ++ '\x7d' :: rest =
          g ++ lead first ++ g' ++ t ++ (g₁ ++ lead false ++ g₂ ++ ts ++ '\x7d' :: rest) := by
        simp [lead]
      have hfollows : Follows (g₁ ++ lead false ++ g₂ ++ ts ++ '\x7d' :: rest) := by
        have hcomma := follows_stop hg₁ (Or.inl rfl) (g₂ ++ ts ++ '\x7d' :: rest)
        simpa [lead] using hcomma
      rw [happ, readFields_member hm hg hg' hfollows hm']
      exact ih hnew (Nat.lt_of_succ_lt_succ hfuel) false hg₁ hg₂

/-- The texts of a record of the shape, with its known fields in the order they stand in. -/
inductive RecordText (shape : Shape) : Texts Fields
  | mk {ms : List (Option (String × Field))} {t : List Char} :
      BodyText (RecordMember shape) ms t → ((ms.filterMap id).map Prod.fst).Nodup →
      RecordText shape (ms.filterMap id) ('\x7b' :: t ++ ['\x7d'])

/-- A record's text is read as its fields and the fallbacks of those that are absent. -/
theorem readRecord_text {seen vs : Fields} {t g : List Char} (h : RecordText shape seen t)
    (hvs : complete seen shape.fields = .ok vs) (hg : Gap g) (rest : List Char) :
    readRecord shape (g ++ t ++ rest) = .ok (vs, rest) := by
  cases h with
  | @mk ms t hms hnew =>
      have happ : g ++ ('\x7b' :: t ++ ['\x7d']) ++ rest =
          g ++ '\x7b' :: (t ++ '\x7d' :: rest) := by simp
      rw [happ, readRecord, skipGap_token hg (by decide)]
      refine bind_eq_ok.mpr ⟨(ms.filterMap id, rest), ?_, bind_eq_ok.mpr ⟨vs, hvs, rfl⟩⟩
      cases hms with
      | empty hg' => exact readFields_close hg' _ true [] rest
      | @items ms g' t hg' hms =>
          have hlen := length_le_of_itemsText begun_recordMember hms
          have hfuel : ms.length < (g' ++ t ++ '\x7d' :: rest).length + 1 := by
            simp only [List.length_append]
            omega
          exact readFields_items hms hnew hfuel true gap_nil hg' rest

end

end JobHealth.Json
