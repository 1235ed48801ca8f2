import JobHealth.Proofs.Json.Prefix
/-!
# `JobHealth.Proofs.Json.Grammar` — the texts of values

What a JSON text may look like, and that each such text is read as its value.
A grammar of values is built level by level, as the reader is: the texts of the
items give those of lists and records of such items.

| layer           | its texts                                            |
| :-------------- | :--------------------------------------------------- |
| `Gap`           | blanks between two parts                             |
| `NumeralText`   | sign, digits, fraction and exponent                  |
| `ItemsText`     | items with commas between them                       |
| `BodyText`      | what stands between two brackets                     |
| `LevelText`     | values whose items have given texts                  |
| `ValueText`     | values with a bound on the brackets open at once     |

Strings and numbers are a parameter, the `Lexis`: a value that is read needs
strings that are text and numbers in range, one that is passed over does not.
-/

namespace JobHealth.Json

open JobHealth.Number

/-! ## Gaps -/

/-- Text that may stand between two parts. -/
def Gap (g : List Char) : Prop := ∀ c ∈ g, isGap c = true

instance (g : List Char) : Decidable (Gap g) := List.decidableBAll _ g

theorem gap_nil : Gap [] := nofun

theorem skipGap_gap {g : List Char} (hg : Gap g) (rest : List Char) :
    skipGap (g ++ rest) = skipGap rest :=
  List.dropWhile_append_of_pos hg

theorem isEmpty_skipGap {g : List Char} (hg : Gap g) : (skipGap g).isEmpty = true := by
  have hskip := skipGap_gap hg []
  rw [List.append_nil] at hskip
  rw [hskip]
  rfl

theorem skipGap_cons {c : Char} (hc : isGap c = false) (rest : List Char) :
    skipGap (c :: rest) = c :: rest := by
  rw [skipGap, List.dropWhile_cons, hc]
  rfl

theorem skipGap_token {g : List Char} {c : Char} (hg : Gap g) (hc : isGap c = false)
    (rest : List Char) : skipGap (g ++ c :: rest) = c :: rest := by
  rw [skipGap_gap hg, skipGap_cons hc]

/-- What may come behind a value: nothing that a numeral would go on with. -/
def Follows (rest : List Char) : Prop :=
  ∀ c ∈ rest.head?, c.isDigit = false ∧ c ≠ '.' ∧ c ≠ 'e' ∧ c ≠ 'E'

/-- The comma and the closing brackets, which end a value. -/
def IsStop (c : Char) : Prop := c = ',' ∨ c = ']' ∨ c = '\x7d'

theorem isGap_of_isStop {c : Char} (h : IsStop c) : isGap c = false := by
  rcases h with rfl | rfl | rfl <;> decide

theorem follows_of_isGap {c : Char} (h : isGap c = true) (rest : List Char) :
    Follows (c :: rest) := by
  rintro _ ⟨⟩
  have hc : c = ' ' ∨ c = '\n' ∨ c = '\t' ∨ c = '\r' := by simpa [isGap, or_assoc] using h
  rcases hc with rfl | rfl | rfl | rfl <;> decide

theorem follows_stop {g : List Char} {c : Char} (hg : Gap g) (hc : IsStop c) (rest : List Char) :
    Follows (g ++ c :: rest) := by
  cases g with
  | nil =>
      rintro _ ⟨⟩
      rcases hc with rfl | rfl | rfl <;> decide
  | cons b g => exact follows_of_isGap (hg b List.mem_cons_self) _

/-! ## Numerals -/

/-- At least one digit, and nothing else. -/
def Digits (ds : List Char) : Prop := ds ≠ [] ∧ ∀ d ∈ ds, d.isDigit = true

/-- The sign of an exponent. -/
inductive SignText : Bool → List Char → Prop
  | absent : SignText false []
  | plus : SignText false ['+']
  | minus : SignText true ['-']

/-- The text of an exponent, if there is one. -/
inductive ExponentText : Option (Bool × List Char) → List Char → Prop
  | absent : ExponentText none []
  | present {e : Char} {negative : Bool} {sign ds : List Char} : e = 'e' ∨ e = 'E' →
      SignText negative sign → Digits ds → ExponentText (some (negative, ds)) (e :: sign ++ ds)

/-- The text of a fraction, if there is one. -/
inductive FractionText : Option (List Char) → List Char → Prop
  | absent : FractionText none []
  | present {ds : List Char} : Digits ds → FractionText (some ds) ('.' :: ds)

/-- The text of a numeral. -/
inductive NumeralText : Numeral → List Char → Prop
  | mk {negative : Bool} {whole ft et : List Char} {fraction : Option (List Char)}
      {exponent : Option (Bool × List Char)} :
      Digits whole → (whole.length = 1 ∨ whole.head? ≠ some '0') →
      FractionText fraction ft → ExponentText exponent et →
      NumeralText ⟨negative, whole, fraction, exponent⟩
        ((if negative then ['-'] else []) ++ whole ++ ft ++ et)

theorem takeDigits {ds rest : List Char} (hds : ∀ d ∈ ds, d.isDigit = true)
    (hrest : ∀ c ∈ rest.head?, c.isDigit = false) :
    (ds ++ rest).takeWhile Char.isDigit = ds ∧ (ds ++ rest).dropWhile Char.isDigit = rest := by
  rw [List.takeWhile_append_of_pos hds, List.dropWhile_append_of_pos hds]
  cases rest with
  | nil => exact ⟨List.append_nil ds, rfl⟩
  | cons c rest =>
      have hc := hrest c rfl
      simp [hc]

theorem Digits.head {ds : List Char} (h : Digits ds) :
    ∃ d tail, ds = d :: tail ∧ d.isDigit = true := by
  obtain ⟨d, tail, rfl⟩ := List.exists_cons_of_ne_nil h.1
  exact ⟨d, tail, rfl, h.2 d List.mem_cons_self⟩

theorem ne_of_isDigit {d c : Char} (hd : d.isDigit = true) (hc : c.isDigit = false) : d ≠ c := by
  rintro rfl
  rw [hd] at hc
  cases hc

theorem cutSign_text {negative : Bool} {sign ds : List Char} (hsign : SignText negative sign)
    (hds : Digits ds) (rest : List Char) :
    cutSign (sign ++ ds ++ rest) = (negative, ds ++ rest) := by
  cases hsign with
  | absent =>
      obtain ⟨d, tail, rfl, hd⟩ := hds.head
      have hminus := ne_of_isDigit hd (by decide : '-'.isDigit = false)
      have hplus := ne_of_isDigit hd (by decide : '+'.isDigit = false)
      simp [cutSign, hminus, hplus]
  | plus => rfl
  | minus => rfl

theorem scanExponent_text {x : Option (Bool × List Char)} {t rest : List Char}
    (h : ExponentText x t) (hrest : Follows rest) : scanExponent (t ++ rest) = some (x, rest) := by
  cases h with
  | absent =>
      cases rest with
      | nil => rfl
      | cons c rest =>
          obtain ⟨-, -, he, hE⟩ := hrest c rfl
          rw [List.nil_append, scanExponent_cons, if_neg (by simp [he, hE])]
  | @present e negative sign ds he hsign hds =>
      obtain ⟨htake, hdrop⟩ := takeDigits hds.2 fun c hc => (hrest c hc).1
      have hempty : ¬ ds.isEmpty = true := by simpa using hds.1
      rw [List.cons_append, List.cons_append, scanExponent_cons, if_pos (by simpa using he),
        cutSign_text hsign hds, htake, hdrop, if_neg hempty]

theorem head_exponent {x : Option (Bool × List Char)} {t rest : List Char}
    (h : ExponentText x t) (hrest : Follows rest) :
    ∀ c ∈ (t ++ rest).head?, c.isDigit = false ∧ c ≠ '.' := by
  intro c hc
  cases h with
  | absent => exact ⟨(hrest c hc).1, (hrest c hc).2.1⟩
  | present he _ _ =>
      obtain rfl := Option.some.inj hc
      rcases he with rfl | rfl <;> decide

theorem scanFraction_text {x : Option (List Char)} {t rest : List Char} (h : FractionText x t)
    (hrest : ∀ c ∈ rest.head?, c.isDigit = false ∧ c ≠ '.') :
    scanFraction (t ++ rest) = some (x, rest) := by
  cases h with
  | absent =>
      cases rest with
      | nil => rfl
      | cons c rest =>
          rw [List.nil_append, scanFraction]
          exact fun ds e => (hrest c rfl).2 (List.cons.inj e).1
  | @present ds hds =>
      obtain ⟨htake, hdrop⟩ := takeDigits hds.2 fun c hc => (hrest c hc).1
      have hempty : ¬ ds.isEmpty = true := by simpa using hds.1
      rw [List.cons_append, scanFraction, htake, hdrop, if_neg hempty]

theorem head_fraction {x : Option (List Char)} {t rest : List Char} (h : FractionText x t)
    (hrest : ∀ c ∈ rest.head?, c.isDigit = false) :
    ∀ c ∈ (t ++ rest).head?, c.isDigit = false := by
  intro c hc
  cases h with
  | absent => exact hrest c hc
  | present _ =>
      obtain rfl := Option.some.inj hc
      decide

theorem cutMinus_text (negative : Bool) {whole : List Char} (hwhole : Digits whole)
    (rest : List Char) :
    cutMinus ((if negative then ['-'] else []) ++ whole ++ rest) = (negative, whole ++ rest) := by
  cases negative with
  | true => rfl
  | false =>
      obtain ⟨d, tail, rfl, hd⟩ := hwhole.head
      have hminus := ne_of_isDigit hd (by decide : '-'.isDigit = false)
      simp [cutMinus, hminus]

theorem scanNumeral_text {n : Numeral} {t rest : List Char} (h : NumeralText n t)
    (hrest : Follows rest) : scanNumeral (t ++ rest) = some (n, rest) := by
  cases h with
  | @mk negative whole ft et fraction exponent hwhole hzero hfraction hexponent =>
      have hstop := head_exponent hexponent hrest
      have hbehind := head_fraction hfraction fun c hc => (hstop c hc).1
      obtain ⟨htake, hdrop⟩ := takeDigits hwhole.2 hbehind
      have hcut := cutMinus_text negative hwhole (ft ++ (et ++ rest))
      have happ : (if negative then ['-'] else []) ++ whole ++ ft ++ et ++ rest =
          (if negative then ['-'] else []) ++ whole ++ (ft ++ (et ++ rest)) := by
        simp only [List.append_assoc]
      rw [scanNumeral_eq_some_iff, happ, hcut, htake, hdrop]
      refine ⟨rfl, rfl, ?_, et ++ rest, scanFraction_text hfraction hstop,
        scanExponent_text hexponent hrest⟩
      unfold WholeDigits
      rcases hzero with hone | hhead
      · simp [hwhole.1, hone]
      · simp [hwhole.1, hhead]

theorem head_numeral {n : Numeral} {t : List Char} (h : NumeralText n t) :
    ∃ c cs, t = c :: cs ∧ startsNumeral c = true := by
  cases h with
  | @mk negative whole ft et fraction exponent hwhole hzero hfraction hexponent =>
      cases negative with
      | true => exact ⟨'-', whole ++ ft ++ et, by simp, by decide⟩
      | false =>
          obtain ⟨d, tail, rfl, hd⟩ := hwhole.head
          exact ⟨d, tail ++ ft ++ et, by simp, by simp [startsNumeral, hd]⟩

theorem ne_of_startsNumeral {c d : Char} (hc : startsNumeral c = true)
    (hd : startsNumeral d = false) : c ≠ d := by
  rintro rfl
  rw [hc] at hd
  cases hd

theorem isGap_of_startsNumeral {c : Char} (h : startsNumeral c = true) : isGap c = false := by
  have hspace := ne_of_startsNumeral h (by decide : startsNumeral ' ' = false)
  have hfeed := ne_of_startsNumeral h (by decide : startsNumeral '\n' = false)
  have htab := ne_of_startsNumeral h (by decide : startsNumeral '\t' = false)
  have hreturn := ne_of_startsNumeral h (by decide : startsNumeral '\r' = false)
  simp [isGap, hspace, hfeed, htab, hreturn]

theorem not_isStop_of_startsNumeral {c : Char} (h : startsNumeral c = true) : ¬ IsStop c := by
  rintro (rfl | rfl | rfl) <;> exact absurd h (by decide)

/-! ## Items between brackets -/

/-- Texts that write values. -/
abbrev Texts (α : Type) := α → List Char → Prop

section
variable {α : Type}

/-- One item or more, with commas between them. -/
inductive ItemsText (item : Texts α) : List α → List Char → Prop
  | last {v : α} {t g : List Char} : item v t → Gap g → ItemsText item [v] (t ++ g)
  | more {v : α} {vs : List α} {t g g' ts : List Char} : item v t → Gap g → Gap g' →
      ItemsText item vs ts → ItemsText item (v :: vs) (t ++ g ++ ',' :: g' ++ ts)

/-- What may stand between two brackets. -/
inductive BodyText (item : Texts α) : List α → List Char → Prop
  | empty {g : List Char} : Gap g → BodyText item [] g
  | items {vs : List α} {g t : List Char} : Gap g → ItemsText item vs t → BodyText item vs (g ++ t)

/-- A member of a record: its name, a colon and its value. -/
inductive MemberText (strings : Texts String) (value : Texts α) : Texts (String × α)
  | mk {name : String} {v : α} {n g g' t : List Char} : strings name n → Gap g → Gap g' →
      value v t → MemberText strings value (name, v) ('"' :: n ++ '"' :: g ++ ':' :: g' ++ t)

/-- The reader reads each text as its value, behind any gap and before anything that may follow. -/
def Reads (read : Reader α) (texts : Texts α) : Prop :=
  ∀ ⦃v t⦄, texts v t → ∀ ⦃g rest⦄, Gap g → Follows rest → read (g ++ t ++ rest) = .ok (v, rest)

/-- The texts begin with something that ends no value. -/
def Begun (texts : Texts α) : Prop :=
  ∀ ⦃v t⦄, texts v t → ∃ c cs, t = c :: cs ∧ isGap c = false ∧ ¬ IsStop c

variable {item : Texts α} {read : Reader α} {close : Char}

/-- A bracket that may stand behind items. -/
def IsClose (c : Char) : Prop := c = ']' ∨ c = '\x7d'

theorem IsClose.isStop {c : Char} (h : IsClose c) : IsStop c := Or.inr h

theorem IsClose.ne_comma {c : Char} (h : IsClose c) : c ≠ ',' := by
  rcases h with rfl | rfl <;> decide

theorem readItems_text (hclose : IsClose close) (hread : Reads read item) {vs : List α}
    {t : List Char} (h : ItemsText item vs t) {fuel : Nat} (hfuel : vs.length ≤ fuel)
    {g : List Char} (hg : Gap g) (rest : List Char) :
    readItems close read fuel (g ++ t ++ close :: rest) = .ok (vs, rest) := by
  induction h generalizing fuel g with
  | @last v t g' hv hg' =>
      obtain ⟨fuel, rfl⟩ := Nat.exists_eq_add_of_le' hfuel
      refine (readItems_succ hclose.ne_comma).mpr ⟨v, g' ++ close :: rest, ?_, Or.inr ⟨?_, rfl⟩⟩
      · have happ := hread hv hg (follows_stop hg' hclose.isStop rest)
        rwa [show g ++ (t ++ g') ++ close :: rest = g ++ t ++ (g' ++ close :: rest) by simp]
      · exact skipGap_token hg' (isGap_of_isStop hclose.isStop) rest
  | @more v vs t g' g'' ts hv hg' hg'' _ ih =>
      cases fuel with
      | zero => cases hfuel
      | succ fuel =>
          refine (readItems_succ hclose.ne_comma).mpr
            ⟨v, g' ++ ',' :: (g'' ++ ts ++ close :: rest), ?_,
              Or.inl ⟨g'' ++ ts ++ close :: rest, vs, ?_, ?_, rfl⟩⟩
          · have happ := hread hv hg (follows_stop hg' (Or.inl rfl) (g'' ++ ts ++ close :: rest))
            rwa [show g ++ (t ++ g' ++ ',' :: g'' ++ ts) ++ close :: rest =
              g ++ t ++ (g' ++ ',' :: (g'' ++ ts ++ close :: rest)) by simp]
          · exact skipGap_token hg' (by decide) _
          · exact ih (Nat.le_of_succ_le_succ hfuel) hg''

theorem length_le_of_itemsText (hbegun : Begun item) {vs : List α} {t : List Char}
    (h : ItemsText item vs t) : vs.length ≤ t.length := by
  induction h with
  | last hv hg =>
      obtain ⟨c, cs, rfl, -⟩ := hbegun hv
      simp
  | more hv hg hg' _ ih =>
      obtain ⟨c, cs, rfl, -⟩ := hbegun hv
      simp only [List.length_append, List.length_cons]
      omega

theorem begun_itemsText (hbegun : Begun item) : Begun (ItemsText item) := by
  intro vs t h
  cases h with
  | last hv hg =>
      obtain ⟨c, cs, rfl, hc⟩ := hbegun hv
      exact ⟨c, _, rfl, hc⟩
  | more hv hg hg' hvs =>
      obtain ⟨c, cs, rfl, hc⟩ := hbegun hv
      exact ⟨c, _, rfl, hc⟩

theorem readBody_text (hclose : IsClose close) (hread : Reads read item) (hbegun : Begun item)
    {vs : List α} {t : List Char} (h : BodyText item vs t) (rest : List Char) :
    readBody close read (t ++ close :: rest) = .ok (vs, rest) := by
  unfold readBody
  cases h with
  | empty hg =>
      rw [skipGap_token hg (isGap_of_isStop hclose.isStop)]
      dsimp only
      rw [if_pos rfl]
  | @items vs g t hg hvs =>
      obtain ⟨c, cs, rfl, hc, hstop⟩ := begun_itemsText hbegun hvs
      have hne : c ≠ close := by
        rintro rfl
        exact hstop hclose.isStop
      have hlen := length_le_of_itemsText hbegun hvs
      rw [List.append_assoc, List.cons_append, skipGap_token hg hc]
      dsimp only
      rw [if_neg hne]
      have hfuel : vs.length ≤ (c :: (cs ++ close :: rest)).length := by
        simp only [List.length_cons, List.length_append] at hlen ⊢
        omega
      exact readItems_text hclose hread hvs hfuel gap_nil rest

/-! ### Members -/

/-- A string is written as one of its spellings. -/
def spelled : Texts String := fun s n => Spelling n s.toList

theorem readMark_text {mark : Char} {g : List Char} (hg : Gap g) (hmark : isGap mark = false)
    (rest : List Char) : readMark mark (g ++ mark :: rest) = .ok rest := by
  rw [readMark, skipGap_token hg hmark]
  exact if_pos rfl

theorem readName_text {name : String} {n g : List Char} (hn : spelled name n) (hg : Gap g)
    (rest : List Char) : readName (g ++ '"' :: n ++ '"' :: rest) = .ok (name, rest) := by
  rw [readName, List.append_assoc, List.cons_append]
  refine bind_eq_ok.mpr ⟨_, readMark_text hg (by decide) _, ?_⟩
  rw [scanString_spelling hn]
  dsimp only
  rw [String.ofList_toList]

theorem reads_readMember (hread : Reads read item) :
    Reads (readMember read) (MemberText spelled item) := by
  rintro ⟨name, v⟩ t h g rest hg hrest
  cases h with
  | @mk _ _ n g' g'' t hn hg' hg'' hv =>
      have happ : g ++ ('"' :: n ++ '"' :: g' ++ ':' :: g'' ++ t) ++ rest =
          g ++ '"' :: n ++ '"' :: (g' ++ ':' :: (g'' ++ t ++ rest)) := by simp
      rw [happ, readMember]
      refine bind_eq_ok.mpr ⟨_, readName_text hn hg _, ?_⟩
      refine bind_eq_ok.mpr ⟨_, readMark_text hg' (by decide) _, ?_⟩
      exact bind_eq_ok.mpr ⟨_, hread hv hg'' hrest, rfl⟩

theorem begun_memberText (strings : Texts String) : Begun (MemberText strings item) := by
  rintro ⟨name, v⟩ t h
  cases h with
  | mk => exact ⟨'"', _, rfl, by decide, by unfold IsStop; decide⟩

end

/-! ## Values -/

/-- What counts as a string and as a number. -/
structure Lexis where
  strings : Texts String
  numbers : Texts Number
  escaped : ∀ {s t}, strings s t → Escaped t
  numeral : ∀ {x t}, numbers x t → ∃ n, NumeralText n t

/-- Strings that are text and numbers in range. -/
def exact : Lexis where
  strings := spelled
  numbers x t := ∃ n, NumeralText n t ∧ n.toNumber? = some x
  escaped := Spelling.escaped
  numeral := fun ⟨n, hn, _⟩ => ⟨n, hn⟩

/-- Any strings and numbers of the right form, whatever they stand for. -/
def loose : Lexis where
  strings _ t := Escaped t
  numbers _ t := ∃ n, NumeralText n t
  escaped := id
  numeral := id

/-- The texts of values whose items, if they may have any, have the given texts. -/
inductive LevelText (lexis : Lexis) (inner : Option (Texts Value)) : Texts Value
  | null : LevelText lexis inner .null ['n', 'u', 'l', 'l']
  | true : LevelText lexis inner (.flag true) ['t', 'r', 'u', 'e']
  | false : LevelText lexis inner (.flag false) ['f', 'a', 'l', 's', 'e']
  | number {x : Number} {t : List Char} : lexis.numbers x t → LevelText lexis inner (.number x) t
  | text {s : String} {t : List Char} : lexis.strings s t →
      LevelText lexis inner (.text s) ('"' :: t ++ ['"'])
  | list {item : Texts Value} {vs : List Value} {t : List Char} : inner = some item →
      BodyText item vs t → LevelText lexis inner (.list vs) ('[' :: t ++ [']'])
  | record {item : Texts Value} {ms : List (String × Value)} {t : List Char} : inner = some item →
      BodyText (MemberText lexis.strings item) ms t →
      LevelText lexis inner (.record ms) ('\x7b' :: t ++ ['\x7d'])

/-- The texts of values with at most `depth` lists and records open at once. -/
def ValueText (lexis : Lexis) : (depth : Nat) → Texts Value
  | 0 => LevelText lexis none
  | depth + 1 => LevelText lexis (some (ValueText lexis depth))

theorem begun_levelText (lexis : Lexis) (inner : Option (Texts Value)) :
    Begun (LevelText lexis inner) := by
  intro v t h
  cases h with
  | null => exact ⟨_, _, rfl, by decide, by unfold IsStop; decide⟩
  | true => exact ⟨_, _, rfl, by decide, by unfold IsStop; decide⟩
  | false => exact ⟨_, _, rfl, by decide, by unfold IsStop; decide⟩
  | number hx =>
      obtain ⟨n, hn⟩ := lexis.numeral hx
      obtain ⟨c, cs, rfl, hc⟩ := head_numeral hn
      exact ⟨c, cs, rfl, isGap_of_startsNumeral hc, not_isStop_of_startsNumeral hc⟩
  | text hs => exact ⟨_, _, rfl, by decide, by unfold IsStop; decide⟩
  | list _ _ => exact ⟨_, _, rfl, by decide, by unfold IsStop; decide⟩
  | record _ _ => exact ⟨_, _, rfl, by decide, by unfold IsStop; decide⟩

theorem begun_valueText (lexis : Lexis) (depth : Nat) : Begun (ValueText lexis depth) := by
  cases depth with
  | zero => exact begun_levelText lexis none
  | succ depth => exact begun_levelText lexis _

theorem expectLetters_text (letters rest : List Char) :
    expectLetters letters (letters ++ rest) = .ok rest := by
  rw [expectLetters, if_pos (List.isPrefixOf_iff_prefix.mpr (List.prefix_append letters rest))]
  simp

theorem readNumber_text {x : Number} {t rest : List Char} (h : exact.numbers x t)
    (hrest : Follows rest) : readNumber (t ++ rest) = .ok (x, rest) := by
  obtain ⟨n, hn, hx⟩ := h
  rw [readNumber, scanNumeral_text hn hrest]
  dsimp only
  rw [hx]

/-- Each text of a level is read as its value, if those of the items are. -/
theorem reads_readLevel {inner : Option (Reader Value)} {texts : Option (Texts Value)}
    (hinner : ∀ item, texts = some item →
      ∃ read, inner = some read ∧ Reads read item ∧ Begun item) :
    Reads (readLevel inner) (LevelText exact texts) := by
  intro v t h g rest hg hrest
  obtain ⟨c, cs, ht, hc, -⟩ := begun_levelText exact texts h
  have hgap : skipGap (g ++ t ++ rest) = t ++ rest := by
    rw [ht, List.append_assoc, List.cons_append, skipGap_token hg hc]
  unfold readLevel
  rw [hgap]
  cases h with
  | null =>
      have hletters := expectLetters_text ['u', 'l', 'l'] rest
      show (expectLetters ['u', 'l', 'l'] (['u', 'l', 'l'] ++ rest)).map _ = _
      rw [hletters]
      rfl
  | true =>
      have hletters := expectLetters_text ['r', 'u', 'e'] rest
      show (expectLetters ['r', 'u', 'e'] (['r', 'u', 'e'] ++ rest)).map _ = _
      rw [hletters]
      rfl
  | false =>
      have hletters := expectLetters_text ['a', 'l', 's', 'e'] rest
      show (expectLetters ['a', 'l', 's', 'e'] (['a', 'l', 's', 'e'] ++ rest)).map _ = _
      rw [hletters]
      rfl
  | number hx =>
      have hnumber := readNumber_text hx hrest
      obtain ⟨n, hn, -⟩ := hx
      obtain ⟨d, ds, hds, hd⟩ := head_numeral hn
      rw [hds, List.cons_append] at hnumber ⊢
      dsimp only
      rw [if_neg (ne_of_startsNumeral hd (by decide)), if_neg (ne_of_startsNumeral hd (by decide)),
        if_neg (ne_of_startsNumeral hd (by decide)), if_pos hd, hnumber]
      rfl
  | @text s t hs =>
      have hscan := scanString_spelling hs rest
      have happ : ('"' :: t ++ ['"']) ++ rest = '"' :: (t ++ '"' :: rest) := by simp
      rw [happ]
      dsimp only
      rw [if_neg (by decide), if_neg (by decide), if_neg (by decide), if_neg (by decide), if_pos rfl]
      simp only [hscan, String.ofList_toList]
  | @list item vs t hitem hvs =>
      obtain ⟨read, rfl, hread, hbegun⟩ := hinner item hitem
      have hbody := readBody_text (Or.inl rfl) hread hbegun hvs rest
      have happ : ('[' :: t ++ [']']) ++ rest = '[' :: (t ++ ']' :: rest) := by simp
      rw [happ]
      show (readBody ']' read (t ++ ']' :: rest)).map _ = _
      rw [hbody]
      rfl
  | @record item ms t hitem hms =>
      obtain ⟨read, rfl, hread, -⟩ := hinner item hitem
      have hbody := readBody_text (Or.inr rfl) (reads_readMember hread)
        (begun_memberText spelled) hms rest
      have happ : ('\x7b' :: t ++ ['\x7d']) ++ rest = '\x7b' :: (t ++ '\x7d' :: rest) := by simp
      rw [happ]
      show (readBody '\x7d' (readMember read) (t ++ '\x7d' :: rest)).map _ = _
      rw [hbody]
      rfl

/-- Each text of a value is read as the value. -/
theorem reads_readValue (depth : Nat) : Reads (readValue depth) (ValueText exact depth) := by
  induction depth with
  | zero => exact reads_readLevel nofun
  | succ depth ih =>
      refine reads_readLevel fun item e => ⟨readValue depth, rfl, ?_⟩
      obtain rfl := Option.some.inj e
      exact ⟨ih, begun_valueText exact depth⟩

/-! ## What the writer writes -/

theorem spelled_write (s : String) : spelled s (s.toList.flatMap escapeChar) :=
  spelling_escape s.toList

section
variable {α : Type} {item : Texts α}

theorem itemsText_join (p : α × List Char) (ps : List (α × List Char))
    (h : ∀ q ∈ p :: ps, item q.1 q.2) :
    ItemsText item ((p :: ps).map Prod.fst) (Text.join ',' ((p :: ps).map Prod.snd)) := by
  induction ps generalizing p with
  | nil =>
      have hp := h p List.mem_cons_self
      have hlast := ItemsText.last hp gap_nil
      rwa [List.append_nil] at hlast
  | cons q ps ih =>
      obtain ⟨hp, hps⟩ := List.forall_mem_cons.mp h
      have hmore := ItemsText.more hp gap_nil gap_nil (ih q hps)
      simpa [Text.join] using hmore

/-- Written items with commas between them are a body. -/
theorem bodyText_join (ps : List (α × List Char)) (h : ∀ p ∈ ps, item p.1 p.2) :
    BodyText item (ps.map Prod.fst) (Text.join ',' (ps.map Prod.snd)) := by
  cases ps with
  | nil => exact .empty gap_nil
  | cons p ps => exact .items gap_nil (itemsText_join p ps h)

theorem memberText_write (name : String) {v : α} {t : List Char} (h : item v t) :
    MemberText spelled item (name, v) (writeMember name t) := by
  have hmember := MemberText.mk (spelled_write name) gap_nil gap_nil h
  simpa [writeMember, writeString] using hmember

end

end JobHealth.Json
