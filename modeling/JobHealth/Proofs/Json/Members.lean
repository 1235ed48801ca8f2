import Mathlib.Data.List.Nodup
import JobHealth.Proofs.Json.Record
/-!
# `JobHealth.Proofs.Json.Members` — which records are read, and as what

Here a record's text is nothing but members: names, and under each the text of
some value, whatever it is.  Of a shape whose fields are strings and whole
numbers, none of them optional, such a text is read if and only if each field's
name stands over exactly one value and that value's text is one of the field's.

| one member                | all members                    |
| :------------------------ | :----------------------------- |
| `Takes`, `readNamed_iff`  | `TakesAll`, `readFields_iff`   |
| `due_cons`                | `due_iff`                      |

`Due` is what carries the induction: a field was seen with its value and has no
member to come, or was not seen and has exactly one.
-/

namespace JobHealth.Json

/-! ## Values as they stand -/

/-- The texts of values, each taken as it stands. -/
def RawText : Texts (List Char) := fun raw t => t = raw ∧ ∃ depth v, ValueText loose depth v t

theorem skipValue_raw {raw t g rest : List Char} (h : RawText raw t) (hg : Gap g)
    (hrest : Follows rest) : skipValue (g ++ t ++ rest) = .ok rest := by
  obtain ⟨-, depth, v, hv⟩ := h
  exact skipValue_text hv hg hrest

theorem exists_levelText {lexis : Lexis} {depth : Nat} {v : Value} {t : List Char}
    (h : ValueText lexis depth v t) : ∃ inner, LevelText lexis inner v t := by
  cases depth with
  | zero => exact ⟨none, h⟩
  | succ depth => exact ⟨some (ValueText lexis depth), h⟩

/-- A value is a string or a numeral, or begins as neither does. -/
theorem RawText.start {raw t : List Char} (h : RawText raw t) :
    (∃ s, Escaped s ∧ t = '"' :: s ++ ['"']) ∨ (∃ n, NumeralText n t) ∨
      ∃ c cs, t = c :: cs ∧ isGap c = false ∧ c ≠ '"' ∧ startsNumeral c = false := by
  obtain ⟨-, depth, v, hv⟩ := h
  obtain ⟨inner, hlevel⟩ := exists_levelText hv
  cases hlevel with
  | null => exact .inr (.inr ⟨_, _, rfl, by decide⟩)
  | true => exact .inr (.inr ⟨_, _, rfl, by decide⟩)
  | false => exact .inr (.inr ⟨_, _, rfl, by decide⟩)
  | number hx => exact .inr (.inl hx)
  | text hs => exact .inl ⟨_, hs, rfl⟩
  | list _ _ => exact .inr (.inr ⟨_, _, rfl, by decide⟩)
  | record _ _ => exact .inr (.inr ⟨_, _, rfl, by decide⟩)

theorem rawText_spelled {s : String} {n : List Char} (h : spelled s n) :
    RawText ('"' :: n ++ ['"']) ('"' :: n ++ ['"']) :=
  ⟨rfl, 0, .text s, .text h.escaped⟩

theorem rawText_writeString (s : String) :
    RawText (writeString s.toList) (writeString s.toList) :=
  rawText_spelled (spelled_write s)

section
variable {raw t g rest rest' : List Char}

theorem readText_other {c : Char} (hg : Gap g) (hc : isGap c = false) (hquote : c ≠ '"')
    (cs : List Char) : readText (g ++ c :: cs) = .error (mismatch "a string" (c :: cs)) := by
  rw [readText, readTextAs, skipGap_token hg hc]
  split
  · next heq => exact absurd (List.cons.inj heq).1 hquote
  · rfl

theorem readWord64_other {c : Char} (hg : Gap g) (hc : isGap c = false)
    (hstart : startsNumeral c = false) (cs : List Char) :
    readWord64 (g ++ c :: cs) = .error (mismatch "u64" (c :: cs)) := by
  rw [readWord64, skipGap_token hg hc]
  dsimp only
  rw [if_neg (by simp [hstart])]

/-- A value that is read as a string is a spelling of it between quotes. -/
theorem spelled_of_readText {s : String} (h : RawText raw t) (hg : Gap g)
    (hread : readText (g ++ t ++ rest) = .ok (s, rest')) :
    (∃ n, spelled s n ∧ t = '"' :: n ++ ['"']) ∧ rest' = rest := by
  obtain ⟨e, he, rfl⟩ | ⟨n, hn⟩ | ⟨c, cs, rfl, hc, hquote, -⟩ := h.start
  · have happ : g ++ ('"' :: e ++ ['"']) ++ rest = g ++ '"' :: (e ++ '"' :: rest) := by simp
    rw [happ, readText, readTextAs, skipGap_token hg (by decide)] at hread
    cases hscan : scanString (e ++ '"' :: rest) with
    | none => simp only [hscan] at hread; cases hread
    | some p =>
        simp only [hscan] at hread
        cases hread
        obtain ⟨n, hn, heq⟩ := quotes_of_scanString hscan
        obtain ⟨rfl, hrest⟩ := he.unique hn.escaped heq
        exact ⟨⟨e, by rwa [spelled, String.toList_ofList], rfl⟩, hrest.symm⟩
  · obtain ⟨d, ds, rfl, hd⟩ := head_numeral hn
    rw [List.append_assoc, List.cons_append, readText_other hg (isGap_of_startsNumeral hd)
      (ne_of_startsNumeral hd (by decide))] at hread
    cases hread
  · rw [List.append_assoc, List.cons_append, readText_other hg hc hquote] at hread
    cases hread

/-- A value that is read as a word is a numeral of a whole number. -/
theorem numeral_of_readWord64 {n : UInt64} (h : RawText raw t) (hg : Gap g) (hrest : Follows rest)
    (hread : readWord64 (g ++ t ++ rest) = .ok (n, rest')) :
    (∃ m, exact.numbers (.natural m) t ∧ n = UInt64.ofNat m) ∧ rest' = rest := by
  obtain ⟨e, -, rfl⟩ | ⟨m, hm⟩ | ⟨c, cs, rfl, hc, -, hstart⟩ := h.start
  · rw [List.append_assoc, List.cons_append, List.cons_append,
      readWord64_other hg (by decide) (by decide)] at hread
    cases hread
  · have hscan := scanNumeral_text hm hrest
    obtain ⟨d, ds, rfl, hd⟩ := head_numeral hm
    rw [List.append_assoc, List.cons_append, readWord64,
      skipGap_token hg (isGap_of_startsNumeral hd)] at hread
    dsimp only at hread
    rw [if_pos hd] at hread
    obtain ⟨⟨x, r⟩, hnumber, hread⟩ := bind_eq_ok.mp hread
    rw [← List.cons_append, readNumber, hscan] at hnumber
    dsimp only at hnumber
    cases hx : m.toNumber? with
    | none => rw [hx] at hnumber; cases hnumber
    | some y =>
        rw [hx] at hnumber
        cases hnumber
        cases x with
        | natural k =>
            cases hread
            exact ⟨⟨k, ⟨m, hm, hx⟩, rfl⟩, rfl⟩
        | negative k => cases hread
        | fractional s k => cases hread
  · rw [List.append_assoc, List.cons_append, readWord64_other hg hc hstart] at hread
    cases hread

/-- Of a value as it stands, the field of a kind is read if the text is one of that field's. -/
theorem kindRead_iff {kind : Kind} (hkind : ∀ depth, kind ≠ .free depth) (h : RawText raw t)
    (hg : Gap g) (hrest : Follows rest) {v : Field} :
    kind.read (g ++ t ++ rest) = .ok (v, rest') ↔ FieldText kind v t ∧ rest' = rest := by
  constructor
  · intro hread
    cases kind with
    | text =>
        obtain ⟨⟨s, r⟩, hs, heq⟩ := map_eq_ok.mp hread
        obtain ⟨rfl, rfl⟩ := Prod.mk.inj heq
        obtain ⟨⟨n, hn, rfl⟩, rfl⟩ := spelled_of_readText h hg hs
        exact ⟨.text hn, rfl⟩
    | word64 =>
        obtain ⟨⟨n, r⟩, hn, heq⟩ := map_eq_ok.mp hread
        obtain ⟨rfl, rfl⟩ := Prod.mk.inj heq
        obtain ⟨⟨m, hm, rfl⟩, rfl⟩ := numeral_of_readWord64 h hg hrest hn
        exact ⟨.word64 hm, rfl⟩
    | free depth => exact absurd rfl (hkind depth)
  · rintro ⟨hv, rfl⟩
    exact reads_kindRead kind hv hg hrest

end

/-! ## Members -/

/-- The members of a record: their names, and their values as they stand. -/
abbrev Members := List (String × List Char)

/-- What stands under a name, in order. -/
def valuesOf (name : String) (ms : Members) : List (List Char) :=
  (ms.filter fun m => m.1 == name).map Prod.snd

@[simp] theorem valuesOf_nil (name : String) : valuesOf name [] = [] := rfl

@[simp] theorem valuesOf_cons_self (name : String) (t : List Char) (ms : Members) :
    valuesOf name ((name, t) :: ms) = t :: valuesOf name ms := by
  simp [valuesOf]

theorem valuesOf_cons_of_ne {name name' : String} (h : name' ≠ name) (t : List Char)
    (ms : Members) : valuesOf name ((name', t) :: ms) = valuesOf name ms := by
  simp [valuesOf, h]

/-- The texts of records, with gaps around them. -/
def ObjectText : Texts Members := fun ms text =>
  ∃ g t g', Gap g ∧ BodyText (MemberText spelled RawText) ms t ∧ Gap g' ∧
    text = g ++ ('\x7b' :: t ++ ['\x7d']) ++ g'

theorem objectText_join {ps : List ((String × List Char) × List Char)} {g g' : List Char}
    (hg : Gap g) (h : ∀ p ∈ ps, MemberText spelled RawText p.1 p.2) (hg' : Gap g') :
    ObjectText (ps.map Prod.fst) (g ++ writeRecord (ps.map Prod.snd) ++ g') :=
  ⟨g, _, g', hg, bodyText_join ps h, hg', rfl⟩

/-- Strings and whole numbers under names of their own, none of them optional. -/
structure Shape.Flat (shape : Shape) : Prop where
  names : (shape.fields.map FieldShape.name).Nodup
  kinds : ∀ f ∈ shape.fields, ∀ depth, f.kind ≠ .free depth
  required : ∀ f ∈ shape.fields, f.fallback = none

section
variable {shape : Shape}

theorem Shape.mem_of_field? {name : String} {f : FieldShape} (h : shape.field? name = some f) :
    f ∈ shape.fields ∧ f.name = name :=
  ⟨List.mem_of_find?_eq_some h, by simpa using List.find?_some h⟩

theorem Shape.Flat.eq_of_name (hflat : shape.Flat) {f f' : FieldShape} (hf : f ∈ shape.fields)
    (hf' : f' ∈ shape.fields) (hname : f.name = f'.name) : f = f' :=
  List.inj_on_of_nodup_map hflat.names hf hf' hname

/-! ## Reading them -/

/-- The known fields before and behind a member. -/
inductive Takes (shape : Shape) : Fields → String × List Char → Fields → Prop
  | other {seen : Fields} {name : String} {t : List Char} : shape.field? name = none →
      Takes shape seen (name, t) seen
  | known {seen : Fields} {name : String} {t : List Char} {f : FieldShape} {v : Field} :
      shape.field? name = some f → seen.lookup name = none → FieldText f.kind v t →
      Takes shape seen (name, t) (seen ++ [(name, v)])

/-- The known fields before and behind members in a row. -/
inductive TakesAll (shape : Shape) : Fields → Members → Fields → Prop
  | nil {seen : Fields} : TakesAll shape seen [] seen
  | cons {seen seen' seen'' : Fields} {m : String × List Char} {ms : Members} :
      Takes shape seen m seen' → TakesAll shape seen' ms seen'' →
      TakesAll shape seen (m :: ms) seen''

theorem readNamed_iff (hflat : shape.Flat) {name : String} {raw t g g' rest rest' : List Char}
    {seen seen' : Fields} (h : RawText raw t) (hg : Gap g) (hg' : Gap g') (hrest : Follows rest) :
    readNamed shape seen name (g ++ ':' :: (g' ++ t ++ rest)) = .ok (seen', rest') ↔
      Takes shape seen (name, t) seen' ∧ rest' = rest := by
  rw [readNamed_colon hg]
  cases hf : shape.field? name with
  | none =>
      dsimp only
      rw [skipValue_raw h hg' hrest]
      constructor
      · intro heq
        cases heq
        exact ⟨.other hf, rfl⟩
      · rintro ⟨htakes, rfl⟩
        cases htakes with
        | other _ => rfl
        | known hf' _ _ => rw [hf] at hf'; cases hf'
  | some f =>
      dsimp only
      have hkind := hflat.kinds f (Shape.mem_of_field? hf).1
      cases hlookup : seen.lookup name with
      | some v =>
          refine ⟨nofun, fun ⟨htakes, _⟩ => ?_⟩
          cases htakes with
          | other hf' => rw [hf] at hf'; cases hf'
          | known _ hnew _ => rw [hlookup] at hnew; cases hnew
      | none =>
          rw [if_neg (by simp), map_eq_ok]
          constructor
          · rintro ⟨⟨v, r⟩, hread, heq⟩
            cases heq
            obtain ⟨hv, rfl⟩ := (kindRead_iff hkind h hg' hrest).mp hread
            exact ⟨.known hf hlookup hv, rfl⟩
          · rintro ⟨htakes, rfl⟩
            cases htakes with
            | other hf' => rw [hf] at hf'; cases hf'
            | @known _ _ f' v hf' _ hv =>
                obtain rfl := Option.some.inj (hf.symm.trans hf')
                exact ⟨(v, rest'), (kindRead_iff hkind h hg' hrest).mpr ⟨hv, rfl⟩, rfl⟩

/-- One member and then the others, behind any lead. -/
theorem readFields_step (hflat : shape.Flat) {m : String × List Char}
    {t g g' rest rest' : List Char} {seen seen'' : Fields} (h : MemberText spelled RawText m t)
    (hg : Gap g) (hg' : Gap g') (hrest : Follows rest) (fuel : Nat) (first : Bool) :
    readFields shape (fuel + 1) first seen (g ++ lead first ++ g' ++ t ++ rest) =
        .ok (seen'', rest') ↔
      ∃ seen', Takes shape seen m seen' ∧
        readFields shape fuel false seen' rest = .ok (seen'', rest') := by
  cases h with
  | @mk name raw n g₁ g₂ t hn hg₁ hg₂ hraw =>
      have happ : g ++ lead first ++ g' ++ ('"' :: n ++ '"' :: g₁ ++ ':' :: g₂ ++ t) ++ rest =
          g ++ lead first ++ g' ++ ('"' :: n ++ '"' :: (g₁ ++ ':' :: (g₂ ++ t ++ rest))) := by simp
      obtain rfl : t = raw := hraw.1
      rw [happ, readFields_name hn hg hg', bind_eq_ok]
      constructor
      · rintro ⟨⟨seen', r⟩, hnamed, hread⟩
        obtain ⟨htakes, rfl⟩ := (readNamed_iff hflat hraw hg₁ hg₂ hrest).mp hnamed
        exact ⟨seen', htakes, hread⟩
      · rintro ⟨seen', htakes, hread⟩
        exact ⟨(seen', rest), (readNamed_iff hflat hraw hg₁ hg₂ hrest).mpr ⟨htakes, rfl⟩, hread⟩

theorem readFields_close_iff {g rest rest' : List Char} {seen seen' : Fields} (hg : Gap g)
    (fuel : Nat) (first : Bool) :
    readFields shape (fuel + 1) first seen (g ++ '\x7d' :: rest) = .ok (seen', rest') ↔
      seen' = seen ∧ rest' = rest := by
  rw [readFields_close hg, Except.ok.injEq, Prod.mk.injEq]
  exact and_congr eq_comm eq_comm

theorem takesAll_nil_iff {seen seen' : Fields} : TakesAll shape seen [] seen' ↔ seen' = seen :=
  ⟨fun h => by cases h; rfl, fun h => h ▸ .nil⟩

theorem takesAll_cons_iff {seen seen'' : Fields} {m : String × List Char} {ms : Members} :
    TakesAll shape seen (m :: ms) seen'' ↔
      ∃ seen', Takes shape seen m seen' ∧ TakesAll shape seen' ms seen'' :=
  ⟨fun h => by cases h with | cons hm hms => exact ⟨_, hm, hms⟩, fun ⟨_, hm, hms⟩ => .cons hm hms⟩

/-- The members of a record are read as far as each can be taken. -/
theorem readFields_iff (hflat : shape.Flat) {ms : Members} {t : List Char}
    (h : ItemsText (MemberText spelled RawText) ms t) {fuel : Nat} (hfuel : ms.length < fuel)
    {seen seen' : Fields} (first : Bool) {g g' rest rest' : List Char} (hg : Gap g)
    (hg' : Gap g') :
    readFields shape fuel first seen (g ++ lead first ++ g' ++ t ++ '\x7d' :: rest) =
        .ok (seen', rest') ↔
      TakesAll shape seen ms seen' ∧ rest' = rest := by
  -- As for the texts of known members, but step by step in both directions.
  induction h generalizing seen fuel first g g' with
  | @last m t g'' hm hg'' =>
      obtain ⟨fuel, rfl⟩ : ∃ n, fuel = n + 1 + 1 := ⟨fuel - 2, by simp at hfuel; omega⟩
      have hstop : IsStop '\x7d' := Or.inr (Or.inr rfl)
      have happ : g ++ lead first ++ g' ++ (t ++ g'') ++ '\x7d' :: rest =
          g ++ lead first ++ g' ++ t ++ (g'' ++ '\x7d' :: rest) := by simp
      rw [happ, readFields_step hflat hm hg hg' (follows_stop hg'' hstop rest), takesAll_cons_iff]
      simp only [readFields_close_iff hg'', takesAll_nil_iff, exists_and_right, ← and_assoc]
  | @more m ms t g₁ g₂ ts hm hg₁ hg₂ _ ih =>
      obtain ⟨fuel, rfl⟩ : ∃ n, fuel = n + 1 := ⟨fuel - 1, by omega⟩
      have happ : g ++ lead first ++ g' ++ (t ++ g₁ ++ ',' :: g₂ ++ ts) ++ '\x7d' :: rest =
          g ++ lead first ++ g' ++ t ++ (g₁ ++ lead false ++ g₂ ++ ts ++ '\x7d' :: rest) := by
        simp [lead]
      have hfollows : Follows (g₁ ++ lead false ++ g₂ ++ ts ++ '\x7d' :: rest) := by
        have hcomma := follows_stop hg₁ (Or.inl rfl) (g₂ ++ ts ++ '\x7d' :: rest)
        simpa [lead] using hcomma
      rw [happ, readFields_step hflat hm hg hg' hfollows, takesAll_cons_iff]
      simp only [ih (Nat.lt_of_succ_lt_succ hfuel) false hg₁ hg₂, exists_and_right, ← and_assoc]

/-! ## What each field is due -/

/-- Each field of the shape was seen with its value and has no member to come, or was not seen and
has exactly one, with a text of its value. -/
def Due (shape : Shape) (value : String → Field) (seen : Fields) (ms : Members) : Prop :=
  ∀ f ∈ shape.fields,
    (seen.lookup f.name = some (value f.name) ∧ valuesOf f.name ms = []) ∨
      (seen.lookup f.name = none ∧
        ∃ t, valuesOf f.name ms = [t] ∧ FieldText f.kind (value f.name) t)

variable {value : String → Field}

theorem lookup_append_self {seen : Fields} {name : String} (h : seen.lookup name = none)
    (v : Field) : (seen ++ [(name, v)]).lookup name = some v := by
  simp [List.lookup_append, h]

theorem lookup_append_of_ne {name name' : String} (h : name' ≠ name) (seen : Fields) (v : Field) :
    (seen ++ [(name', v)]).lookup name = seen.lookup name := by
  have hbeq : (name == name') = false := by simpa using h.symm
  simp [List.lookup_append, List.lookup_cons, hbeq]

/-- The first member takes its share, and the others have what is left. -/
theorem due_cons (hflat : shape.Flat) {seen : Fields} {m : String × List Char} {ms : Members} :
    Due shape value seen (m :: ms) ↔
      ∃ seen', Takes shape seen m seen' ∧ Due shape value seen' ms := by
  obtain ⟨name, t⟩ := m
  constructor
  · intro hdue
    cases hf : shape.field? name with
    | none =>
        refine ⟨seen, .other hf, fun f hmem => ?_⟩
        have hne : name ≠ f.name := by
          rintro rfl
          exact absurd (List.find?_eq_none.mp hf f hmem) (by simp)
        have := hdue f hmem
        rwa [valuesOf_cons_of_ne hne] at this
    | some f =>
        obtain ⟨hmem, rfl⟩ := Shape.mem_of_field? hf
        obtain ⟨-, habsent⟩ | ⟨hnew, t', hone, hv⟩ := hdue f hmem
        · rw [valuesOf_cons_self] at habsent
          cases habsent
        · rw [valuesOf_cons_self] at hone
          obtain ⟨rfl, hnone⟩ := List.cons.inj hone
          refine ⟨_, .known hf hnew hv, fun f' hmem' => ?_⟩
          by_cases hname : f.name = f'.name
          · rw [← hname]
            exact .inl ⟨lookup_append_self hnew _, hnone⟩
          · have := hdue f' hmem'
            rwa [valuesOf_cons_of_ne hname, ← lookup_append_of_ne hname seen (value f.name)] at this
  · rintro ⟨seen', htakes, hdue⟩ f hmem
    have hf := hdue f hmem
    cases htakes with
    | other hnone =>
        have hne : name ≠ f.name := by
          rintro rfl
          exact absurd (List.find?_eq_none.mp hnone f hmem) (by simp)
        rwa [valuesOf_cons_of_ne hne]
    | @known _ _ f' v hsome hnew hv =>
        obtain ⟨hmem', rfl⟩ := Shape.mem_of_field? hsome
        by_cases hname : f'.name = f.name
        · obtain rfl := hflat.eq_of_name hmem' hmem hname
          rw [lookup_append_self hnew] at hf
          obtain ⟨hvalue, hnone⟩ | ⟨habsurd, -⟩ := hf
          · refine .inr ⟨hnew, t, by rw [valuesOf_cons_self, hnone], ?_⟩
            rwa [← Option.some.inj hvalue]
          · cases habsurd
        · rw [lookup_append_of_ne hname] at hf
          rwa [valuesOf_cons_of_ne hname]

/-- What is due to each field is what it has in the end. -/
theorem due_iff (hflat : shape.Flat) {seen : Fields} {ms : Members} :
    Due shape value seen ms ↔ ∃ seen', TakesAll shape seen ms seen' ∧
      ∀ f ∈ shape.fields, seen'.lookup f.name = some (value f.name) := by
  induction ms generalizing seen with
  | nil => simp [Due, takesAll_nil_iff]
  | cons m ms ih =>
      rw [due_cons hflat]
      simp only [ih, takesAll_cons_iff]
      constructor
      · rintro ⟨seen', hm, seen'', hms, hin⟩
        exact ⟨seen'', ⟨seen', hm, hms⟩, hin⟩
      · rintro ⟨seen'', ⟨seen', hm, hms⟩, hin⟩
        exact ⟨seen', hm, seen'', hms, hin⟩

/-! ## The whole record -/

/-- The values of the fields that a shape's order gives. -/
def Shape.filled (shape : Shape) (value : String → Field) : Fields :=
  shape.fields.map fun f => (f.name, value f.name)

theorem complete_of_lookup {seen : Fields} {fs : List FieldShape}
    (h : ∀ f ∈ fs, seen.lookup f.name = some (value f.name)) :
    complete seen fs = .ok (fs.map fun f => (f.name, value f.name)) := by
  induction fs with
  | nil => rfl
  | cons f fs ih =>
      obtain ⟨hf, hfs⟩ := List.forall_mem_cons.mp h
      simp only [complete, hf, ih hfs]
      rfl

/-- Without fallbacks, every field of a completed record was seen. -/
theorem lookup_of_complete {seen vs : Fields} {fs : List FieldShape}
    (hrequired : ∀ f ∈ fs, f.fallback = none) (h : complete seen fs = .ok vs) :
    ∀ f ∈ fs, ∃ v, seen.lookup f.name = some v := by
  induction fs generalizing vs with
  | nil => exact nofun
  | cons f fs ih =>
      obtain ⟨hf, hfs⟩ := List.forall_mem_cons.mp hrequired
      cases hlookup : seen.lookup f.name with
      | some v =>
          simp only [complete, hlookup] at h
          obtain ⟨_, -, h⟩ := bind_eq_ok.mp h
          obtain ⟨vs', hvs, -⟩ := bind_eq_ok.mp h
          exact List.forall_mem_cons.mpr ⟨⟨v, hlookup⟩, ih hfs hvs⟩
      | none =>
          simp only [complete, hlookup, hf] at h
          cases h

theorem complete_iff (hflat : shape.Flat) {seen vs : Fields} :
    complete seen shape.fields = .ok vs ↔ ∃ value, vs = shape.filled value ∧
      ∀ f ∈ shape.fields, seen.lookup f.name = some (value f.name) := by
  constructor
  · intro h
    let value : String → Field := fun name => (seen.lookup name).getD (.text "")
    have hseen : ∀ f ∈ shape.fields, seen.lookup f.name = some (value f.name) := by
      intro f hf
      obtain ⟨v, hv⟩ := lookup_of_complete hflat.required h f hf
      simp [value, hv]
    exact ⟨value, Except.ok.inj (h.symm.trans (complete_of_lookup hseen)), hseen⟩
  · rintro ⟨value, rfl, hseen⟩
    exact complete_of_lookup hseen

/-- A record is read if and only if each field's name stands over exactly one value, and is read as
the fields that these values are texts of. -/
theorem readRecord_iff (hflat : shape.Flat) {ms : Members} {t : List Char}
    (h : BodyText (MemberText spelled RawText) ms t) {g rest rest' : List Char} (hg : Gap g)
    {vs : Fields} :
    readRecord shape (g ++ '\x7b' :: t ++ '\x7d' :: rest) = .ok (vs, rest') ↔
      (∃ value, vs = shape.filled value ∧
        ∀ f ∈ shape.fields, ∃ t, valuesOf f.name ms = [t] ∧ FieldText f.kind (value f.name) t) ∧
      rest' = rest := by
  have hfields : ∀ {seen r}, readFields shape ((t ++ '\x7d' :: rest).length + 1) true []
      (t ++ '\x7d' :: rest) = .ok (seen, r) ↔ TakesAll shape [] ms seen ∧ r = rest := by
    intro seen r
    cases h with
    | empty hg' => rw [readFields_close_iff hg', takesAll_nil_iff]
    | @items ms g' t hg' hms =>
        have hlen := length_le_of_itemsText (begun_memberText spelled) hms
        have hfuel : ms.length < (g' ++ t ++ '\x7d' :: rest).length + 1 := by
          simp only [List.length_append]
          omega
        exact readFields_iff hflat hms hfuel true gap_nil hg'
  have hdue : ∀ value, Due shape value [] ms ↔
      ∀ f ∈ shape.fields, ∃ t, valuesOf f.name ms = [t] ∧ FieldText f.kind (value f.name) t := by
    intro value
    simp [Due]
  rw [List.append_assoc, List.cons_append, readRecord, skipGap_token hg (by decide)]
  constructor
  · intro hread
    obtain ⟨⟨seen, r⟩, hseen, hread⟩ := bind_eq_ok.mp hread
    obtain ⟨vs', hcomplete, hread⟩ := bind_eq_ok.mp hread
    cases hread
    obtain ⟨htakes, rfl⟩ := hfields.mp hseen
    obtain ⟨value, rfl, hin⟩ := (complete_iff hflat).mp hcomplete
    exact ⟨⟨value, rfl, (hdue value).mp ((due_iff hflat).mpr ⟨seen, htakes, hin⟩)⟩, rfl⟩
  · rintro ⟨⟨value, rfl, hone⟩, rfl⟩
    obtain ⟨seen, htakes, hin⟩ := (due_iff hflat).mp ((hdue value).mpr hone)
    exact bind_eq_ok.mpr ⟨(seen, rest'), hfields.mpr ⟨htakes, rfl⟩,
      bind_eq_ok.mpr ⟨_, (complete_iff hflat).mpr ⟨value, rfl, hin⟩, rfl⟩⟩

/-- The same of a text that holds nothing else. -/
theorem readAll_record_iff (hflat : shape.Flat) {ms : Members} {text : String}
    (h : ObjectText ms text.toList) {vs : Fields} :
    readAll (readRecord shape) text = .ok vs ↔
      ∃ value, vs = shape.filled value ∧
        ∀ f ∈ shape.fields, ∃ t, valuesOf f.name ms = [t] ∧ FieldText f.kind (value f.name) t := by
  obtain ⟨g, t, g', hg, hms, hg', htext⟩ := h
  have happ : g ++ ('\x7b' :: t ++ ['\x7d']) ++ g' = g ++ '\x7b' :: t ++ '\x7d' :: g' := by simp
  rw [readAll, htext, happ, bind_eq_ok]
  constructor
  · rintro ⟨⟨vs', r⟩, hread, hvs⟩
    obtain ⟨hone, rfl⟩ := (readRecord_iff hflat hms hg).mp hread
    dsimp only at hvs
    rw [if_pos (isEmpty_skipGap hg')] at hvs
    cases hvs
    exact hone
  · intro hone
    exact ⟨(vs, g'), (readRecord_iff hflat hms hg).mpr ⟨hone, rfl⟩, if_pos (isEmpty_skipGap hg')⟩

end

end JobHealth.Json
