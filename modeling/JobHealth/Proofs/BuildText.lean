import Mathlib.Data.List.Induction
import JobHealth.Proofs.Build
import JobHealth.Proofs.Json.Members
/-!
# `JobHealth.Proofs.BuildText` — which records a build is read from

`Proofs.Build` writes texts that are read as a build.  Here the record comes
first, with whatever members it has: a build is read from it if and only if the
record holds it, each of the seven names once and with the build's own value
under it.  What stands under other names makes no difference, and a name that is
absent or there twice leaves nothing to be read.

A whole number has one text, its numeral; a string has many, its spellings.
A name is compared after its escapes are read, so it has to be text itself.
-/

namespace JobHealth

/-! ## Whole numbers -/

namespace Json

open JobHealth.Number

theorem digitChar_of_isDigit {d : Char} (h : d.isDigit = true) :
    digitValue d < 10 ∧ (digitValue d).digitChar = d := by
  obtain ⟨hlow, hhigh⟩ := Char.isDigit_iff_toNat.mp h
  have hzero : '0'.toNat = 48 := rfl
  have hnine : '9'.toNat = 57 := rfl
  have hlt : digitValue d < 10 := by rw [digitValue]; omega
  refine ⟨hlt, Char.toNat_inj.mp ?_⟩
  have hvalue := Nat.toNat_digitChar_of_lt_ten hlt
  rw [hvalue, digitValue]
  omega

/-- Digits without a needless zero are the numeral of their number. -/
theorem writeNat_ofDigitChars {ds : List Char} (hds : Digits ds)
    (hzero : ds.length = 1 ∨ ds.head? ≠ some '0') : writeNat (Nat.ofDigitChars 10 ds 0) = ds := by
  -- From the back, as the numeral is written: the last digit is the remainder.
  induction ds using List.reverseRecOn with
  | nil => exact absurd rfl hds.1
  | append_singleton ds d ih =>
      obtain ⟨hlt, hchar⟩ := digitChar_of_isDigit (hds.2 d (by simp))
      have hvalue : Nat.ofDigitChars 10 (ds ++ [d]) 0 =
          10 * Nat.ofDigitChars 10 ds 0 + digitValue d := by
        rw [Nat.ofDigitChars_append]
        rfl
      rw [hvalue]
      cases ds with
      | nil =>
          rw [Nat.ofDigitChars_nil, Nat.mul_zero, Nat.zero_add, writeNat,
            Nat.toDigits_of_lt_base hlt, hchar]
          rfl
      | cons c cs =>
          have hhead : c ≠ '0' := by simpa using hzero
          have hfront : writeNat (Nat.ofDigitChars 10 (c :: cs) 0) = c :: cs :=
            ih ⟨List.cons_ne_nil c cs, fun e he => hds.2 e (List.mem_append_left _ he)⟩
              (.inr (by simpa using hhead))
          have hpos : Nat.ofDigitChars 10 (c :: cs) 0 ≠ 0 := by
            intro e
            rw [e] at hfront
            exact hhead (List.cons.inj hfront).1.symm
          have happend := Nat.toDigits_append_toDigits (by decide : 1 < 10)
            (Nat.pos_of_ne_zero hpos) hlt
          rw [writeNat, ← happend, Nat.toDigits_of_lt_base hlt, hchar]
          exact congrArg (· ++ [d]) hfront

/-- If all digits fit a word, the word is their number. -/
theorem ofDigitChars_of_fill {ds : List Char} {n m : Nat} (h : fill n ds = (m, []))
    (hn : n ≤ maxWord) : m = Nat.ofDigitChars 10 ds n ∧ m ≤ maxWord := by
  induction ds generalizing n with
  | nil =>
      obtain rfl : n = m := congrArg Prod.fst h
      exact ⟨rfl, hn⟩
  | cons d ds ih =>
      rw [fill] at h
      split at h
      · cases h
      · next hfits =>
        obtain ⟨hm, hle⟩ := ih h (Nat.not_lt.mp hfits)
        rw [Nat.ofDigitChars_cons, Nat.mul_comm]
        exact ⟨hm, hle⟩

/-- Only a numeral without sign, point and exponent stands for a natural number. -/
theorem natural_of_toNumber? {m : Numeral} {n : Nat} (h : m.toNumber? = some (.natural n)) :
    m = ⟨false, m.whole, none, none⟩ ∧ fill 0 m.whole = (n, []) := by
  obtain ⟨negative, whole, fraction, exponent⟩ := m
  have hscaled : ∀ {x : Option Binary64},
      x.map (.fractional negative) ≠ some (Number.natural n) := by
    intro x hx
    obtain ⟨_, -, e⟩ := Option.map_eq_some_iff.mp hx
    cases e
  obtain ⟨significand, left, hfill⟩ : ∃ n left, fill 0 whole = (n, left) := ⟨_, _, rfl⟩
  rw [Numeral.toNumber?] at h
  dsimp only at h ⊢
  rw [hfill] at h ⊢
  dsimp only at h
  split at h
  · next hwhole =>
    simp only [Bool.and_eq_true, List.isEmpty_iff, Option.isNone_iff_eq_none] at hwhole
    obtain ⟨⟨rfl, rfl⟩, rfl⟩ := hwhole
    cases negative with
    | false =>
        cases h
        exact ⟨rfl, rfl⟩
    | true =>
        rw [if_neg (by decide)] at h
        split at h <;> cases h
  · -- With a fraction, an exponent or digits left over, what comes out is fractional.
    split at h
    · exact absurd h hscaled
    · split at h
      · split at h <;> cases h
      · exact absurd h hscaled

/-- The only text of a word is its numeral. -/
theorem word64Text_iff {v : Field} {t : List Char} :
    FieldText .word64 v t ↔ ∃ n : UInt64, v = .word64 n ∧ t = writeNat n.toNat := by
  constructor
  · intro h
    cases h with
    | @word64 n _ hx =>
        obtain ⟨m, hm, hnumber⟩ := hx
        obtain ⟨hplain, hfill⟩ := natural_of_toNumber? hnumber
        obtain ⟨hvalue, hle⟩ := ofDigitChars_of_fill hfill (Nat.zero_le _)
        rw [hplain] at hm
        cases hm with
        | mk hwhole hzero hfraction hexponent =>
            cases hfraction
            cases hexponent
            refine ⟨UInt64.ofNat n, rfl, ?_⟩
            have hsize : n < UInt64.size := by
              have : 0 < UInt64.size := by decide
              rw [maxWord] at hle
              omega
            rw [UInt64.toNat_ofNat_of_lt' hsize, hvalue, writeNat_ofDigitChars hwhole hzero]
            simp
  · rintro ⟨n, rfl, rfl⟩
    exact fieldText_writeNat n

theorem rawText_writeNat (n : Nat) : RawText (writeNat n) (writeNat n) :=
  ⟨rfl, 0, .number (.natural n), .number ⟨_, numeralText_writeNat n⟩⟩

theorem textText_iff {v : Field} {t : List Char} :
    FieldText .text v t ↔ ∃ s n, v = .text s ∧ spelled s n ∧ t = '"' :: n ++ ['"'] := by
  constructor
  · intro h
    cases h with
    | text hs => exact ⟨_, _, rfl, hs, rfl⟩
  · rintro ⟨s, n, rfl, hs, rfl⟩
    exact .text hs

theorem readAll_map {α β : Type} (read : Reader α) (f : α → β) (text : String) :
    readAll (fun cs => (read cs).map fun (v, rest) => (f v, rest)) text =
      (readAll read text).map f := by
  unfold readAll
  dsimp only
  cases hread : read text.toList with
  | error e => rfl
  | ok p =>
      obtain ⟨v, rest⟩ := p
      show (if _ then _ else _) = Except.map f (if _ then _ else _)
      split <;> rfl

/-- One member has the name, and its value is a spelling of the string. -/
def HoldsText (ms : Members) (name s : String) : Prop :=
  ∃ n, spelled s n ∧ valuesOf name ms = ['"' :: n ++ ['"']]

theorem holdsText_iff {ms : Members} {name s : String} :
    HoldsText ms name s ↔ ∃ t, valuesOf name ms = [t] ∧ FieldText .text (.text s) t := by
  constructor
  · rintro ⟨n, hn, hone⟩
    exact ⟨_, hone, .text hn⟩
  · rintro ⟨t, hone, ht⟩
    cases ht with
    | text hn => exact ⟨_, hn, hone⟩

end Json

namespace Build

open Json (Members ObjectText HoldsText valuesOf writeMember writeNat writeString)

theorem flat_shape : shape.Flat where
  names := by decide +kernel
  kinds := by simp [shape]
  required := by simp [shape]

/-! ## The build that a record holds -/

/-- The members hold the build: its seven names stand there once each, with its values. -/
structure HeldBy (b : Build) (ms : Members) : Prop where
  id : valuesOf "id" ms = [writeNat b.id.toNat]
  name : HoldsText ms "name" b.name
  status : HoldsText ms "status" b.status
  apiUrl : HoldsText ms "api_url" b.apiUrl
  teamName : HoldsText ms "team_name" b.teamName
  pipelineName : HoldsText ms "pipeline_name" b.pipelineName
  jobName : HoldsText ms "job_name" b.jobName

/-- The build's value of the field with that name. -/
def value (b : Build) (name : String) : Json.Field := (b.fields.lookup name).getD (.text "")

theorem filled_value (b : Build) : shape.filled b.value = b.fields := rfl

theorem ofFields_fields (b : Build) : ofFields b.fields = b := rfl

theorem heldBy_iff {b : Build} {ms : Members} :
    b.HeldBy ms ↔ ∀ f ∈ shape.fields,
      ∃ t, valuesOf f.name ms = [t] ∧ Json.FieldText f.kind (b.value f.name) t := by
  have hid : valuesOf "id" ms = [writeNat b.id.toNat] ↔
      ∃ t, valuesOf "id" ms = [t] ∧ Json.FieldText .word64 (b.value "id") t := by
    constructor
    · exact fun hone => ⟨_, hone, Json.fieldText_writeNat b.id⟩
    · rintro ⟨t, hone, ht⟩
      obtain ⟨n, hn, rfl⟩ := Json.word64Text_iff.mp ht
      cases hn
      exact hone
  simp only [shape, List.map_cons, List.map_nil, List.forall_mem_cons]
  constructor
  · rintro ⟨h₁, h₂, h₃, h₄, h₅, h₆, h₇⟩
    exact ⟨hid.mp h₁, Json.holdsText_iff.mp h₂, Json.holdsText_iff.mp h₃, Json.holdsText_iff.mp h₄,
      Json.holdsText_iff.mp h₅, Json.holdsText_iff.mp h₆, Json.holdsText_iff.mp h₇,
      List.forall_mem_nil _⟩
  · rintro ⟨h₁, h₂, h₃, h₄, h₅, h₆, h₇, -⟩
    exact ⟨hid.mpr h₁, Json.holdsText_iff.mpr h₂, Json.holdsText_iff.mpr h₃,
      Json.holdsText_iff.mpr h₄, Json.holdsText_iff.mpr h₅, Json.holdsText_iff.mpr h₆,
      Json.holdsText_iff.mpr h₇⟩

/-- Values that have texts of the shape's kinds are a build's. -/
theorem exists_value {value : String → Json.Field}
    (h : ∀ f ∈ shape.fields, ∃ t, Json.FieldText f.kind (value f.name) t) :
    ∃ b : Build, ∀ f ∈ shape.fields, value f.name = b.value f.name := by
  simp only [shape, List.map_cons, List.map_nil, List.forall_mem_cons] at h ⊢
  obtain ⟨⟨_, h₁⟩, ⟨_, h₂⟩, ⟨_, h₃⟩, ⟨_, h₄⟩, ⟨_, h₅⟩, ⟨_, h₆⟩, ⟨_, h₇⟩, -⟩ := h
  obtain ⟨id, hid, -⟩ := Json.word64Text_iff.mp h₁
  obtain ⟨name, -, hname, -⟩ := Json.textText_iff.mp h₂
  obtain ⟨status, -, hstatus, -⟩ := Json.textText_iff.mp h₃
  obtain ⟨apiUrl, -, hapiUrl, -⟩ := Json.textText_iff.mp h₄
  obtain ⟨teamName, -, hteamName, -⟩ := Json.textText_iff.mp h₅
  obtain ⟨pipelineName, -, hpipelineName, -⟩ := Json.textText_iff.mp h₆
  obtain ⟨jobName, -, hjobName, -⟩ := Json.textText_iff.mp h₇
  exact ⟨⟨id, name, status, apiUrl, teamName, pipelineName, jobName⟩, hid, hname, hstatus, hapiUrl,
    hteamName, hpipelineName, hjobName, List.forall_mem_nil _⟩

/-- A build is read from the text of a record if and only if the record holds it. -/
theorem ofJson?_eq_ok_iff {ms : Members} {text : String} (h : ObjectText ms text.toList)
    {b : Build} : ofJson? text = .ok b ↔ b.HeldBy ms := by
  have hread : ofJson? text = (Json.readAll (Json.readRecord shape) text).map ofFields :=
    Json.readAll_map (Json.readRecord shape) ofFields text
  rw [hread, Json.map_eq_ok, heldBy_iff]
  constructor
  · rintro ⟨vs, hvs, rfl⟩
    obtain ⟨value, rfl, hone⟩ := (Json.readAll_record_iff flat_shape h).mp hvs
    obtain ⟨b, hb⟩ := exists_value fun f hf => (hone f hf).imp fun _ ht => ht.2
    have hfilled : shape.filled value = shape.filled b.value :=
      List.map_congr_left fun f hf => congrArg (Prod.mk f.name) (hb f hf)
    rw [hfilled, filled_value, ofFields_fields]
    intro f hf
    rw [← hb f hf]
    exact hone f hf
  · intro hone
    exact ⟨b.fields, (Json.readAll_record_iff flat_shape h).mpr ⟨b.value, rfl, hone⟩, rfl⟩

/-- What is held has each name of the shape once. -/
theorem HeldBy.length_valuesOf {b : Build} {ms : Members} (h : b.HeldBy ms) {f : Json.FieldShape}
    (hf : f ∈ shape.fields) : (valuesOf f.name ms).length = 1 := by
  obtain ⟨t, hone, -⟩ := heldBy_iff.mp h f hf
  rw [hone]
  rfl

theorem ofJson?_toJson (b : Build) : ofJson? b.toJson = .ok b := by
  have hend : Json.Follows [] := fun _ hc => nomatch hc
  have hread := reads_read (jsonText_write b) Json.gap_nil hend
  rw [List.nil_append, List.append_nil] at hread
  refine Json.bind_eq_ok.mpr ⟨(b, []), ?_, rfl⟩
  rwa [toJson, String.toList_ofList]

/-- Every build is read back from its own text; and from the text of a record, whatever its members,
exactly the build is read that it holds.  A record in which one of the seven names is absent, or
stands more than once, is refused. -/
theorem decoding_of_object_text (b : Build) :
    ofJson? b.toJson = .ok b ∧
      ∀ (ms : Members) (text : String), ObjectText ms text.toList →
        (ofJson? text = .ok b ↔ b.HeldBy ms) ∧
        ((∃ f ∈ shape.fields, (valuesOf f.name ms).length ≠ 1) →
          ∃ fault, ofJson? text = .error fault) := by
  refine ⟨ofJson?_toJson b, fun ms text h => ⟨ofJson?_eq_ok_iff h, ?_⟩⟩
  rintro ⟨f, hf, hcount⟩
  cases hread : ofJson? text with
  | ok b' => exact absurd (((ofJson?_eq_ok_iff h).mp hread).length_valuesOf hf) hcount
  | error fault => exact ⟨fault, rfl⟩

/-- The fields stand in another order, with escapes in a value and in a name, behind a member that
is no field but has an `id` inside.  Without the last field, and with the first three members once
more, nothing is read. -/
theorem decoding_of_shuffled_object :
    let b : Build := ⟨18446744073709551615, "1", "😀", "", "main", "p", "build"⟩
    let stages := "[\x7b\"id\":\"\\ud800\"\x7d]".toList
    let status := "\\ud83d\\ude00".toList
    let field (name s : String) :=
      ((name, writeString s.toList), writeMember name (writeString s.toList))
    let members : List ((String × List Char) × List Char) :=
      [ (("stages", stages), writeMember "stages" stages), field "job_name" "build",
        (("id", writeNat b.id.toNat), "\"\\u0069d\"\t: ".toList ++ writeNat b.id.toNat),
        field "name" "1",
        (("status", '"' :: status ++ ['"']), writeMember "status" ('"' :: status ++ ['"'])),
        field "api_url" "", field "team_name" "main", field "pipeline_name" "p" ]
    let text (ps : List ((String × List Char) × List Char)) :=
      String.ofList (['\n'] ++ Json.writeRecord (ps.map Prod.snd) ++ [' '])
    ofJson? (text members) = .ok b ∧
      (∃ fault, ofJson? (text (members.take 7)) = .error fault) ∧
      ∃ fault, ofJson? (text (members ++ members.take 3)) = .error fault := by
  intro b stages status field members text
  have hstatus : Json.spelled b.status status := by
    have hpair : Json.Spells status '😀' :=
      @Json.Spells.pair 'd' '8' '3' 'd' 'd' 'e' '0' '0' 0xd83d 0xde00 rfl rfl rfl rfl
    have hchars : b.status.toList = ['😀'] := by decide +kernel
    have hone := Json.Spelling.cons hpair .nil
    rwa [Json.spelled, hchars, ← List.append_nil status]
  have hstages : Json.RawText stages stages := by
    have hhalf : Json.loose.strings "" "\\ud800".toList := Json.Escaped.word rfl .nil
    have hvalue : Json.ValueText Json.loose 0 _ _ := Json.LevelText.text hhalf
    have hname : Json.loose.strings "id" "id".toList := (Json.spelled_write "id").escaped
    have hid := Json.MemberText.mk hname Json.gap_nil Json.gap_nil hvalue
    have hrecord : Json.ValueText Json.loose 1 _ _ :=
      Json.LevelText.record rfl (.items Json.gap_nil (.last hid Json.gap_nil))
    have hlist : Json.ValueText Json.loose 2 _ _ :=
      Json.LevelText.list rfl (.items Json.gap_nil (.last hrecord Json.gap_nil))
    exact ⟨rfl, 2, _, hlist⟩
  have hmembers : ∀ p ∈ members, Json.MemberText Json.spelled Json.RawText p.1 p.2 := by
    have hstring (name s : String) := Json.memberText_write name (Json.rawText_writeString s)
    simp only [members, List.forall_mem_cons]
    refine ⟨Json.memberText_write "stages" hstages, hstring _ _, ?_, hstring _ _,
      Json.memberText_write "status" (Json.rawText_spelled hstatus), hstring _ _, hstring _ _,
      hstring _ _, List.forall_mem_nil _⟩
    have hletter : Json.Spells "\\u0069".toList 'i' :=
      @Json.Spells.word '0' '0' '6' '9' 0x69 rfl rfl rfl
    have hid : Json.spelled "id" _ := Json.Spelling.cons hletter (Json.spelling_escape ['d'])
    have htab : Json.Gap ['\t'] := by decide
    have hblank : Json.Gap [' '] := by decide
    exact Json.MemberText.mk hid htab hblank (Json.rawText_writeNat b.id.toNat)
  have hobject : ∀ ps ⊆ members, ObjectText (ps.map Prod.fst) (text ps).toList := by
    intro ps hps
    rw [String.toList_ofList]
    exact Json.objectText_join (by decide) (fun p hp => hmembers p (hps hp))
      (by decide)
  have hheld : b.HeldBy (members.map Prod.fst) :=
    ⟨rfl, ⟨_, Json.spelled_write b.name, rfl⟩, ⟨_, hstatus, rfl⟩,
      ⟨_, Json.spelled_write b.apiUrl, rfl⟩, ⟨_, Json.spelled_write b.teamName, rfl⟩,
      ⟨_, Json.spelled_write b.pipelineName, rfl⟩, ⟨_, Json.spelled_write b.jobName, rfl⟩⟩
  have hall (ps) (hps : ps ⊆ members) := (decoding_of_object_text b).2 _ _ (hobject ps hps)
  refine ⟨(hall members (List.Subset.refl _)).1.mpr hheld, ?_, ?_⟩
  · exact (hall _ (List.take_subset 7 members)).2
      ⟨⟨"pipeline_name", .text, none⟩, by simp [shape], by decide +kernel⟩
  · exact (hall _ (List.append_subset.mpr ⟨List.Subset.refl _, List.take_subset 3 members⟩)).2
      ⟨⟨"id", .word64, none⟩, by simp [shape], by decide +kernel⟩

end Build
end JobHealth
