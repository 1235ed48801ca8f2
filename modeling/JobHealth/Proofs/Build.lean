import JobHealth.Build
import JobHealth.Proofs.Json.Record
/-!
# `JobHealth.Proofs.Build` — the JSON texts of builds and of pages of them

A build's text is a record with its seven fields, in any order and among any
other members; a page's text is a list of such records.  Each is read as what
it says, and what the writer writes is one of them.

| what    | its texts   | read by               |
| :------ | :---------- | :-------------------- |
| a build | `JsonText`  | `reads_read`          |
| a page  | `PageText`  | `pageOfJson?_text`    |
-/

namespace JobHealth

/-! ## Whole numbers -/

namespace Json

theorem digits_writeNat (n : Nat) : Digits (writeNat n) :=
  ⟨Nat.toDigits_ne_nil, fun _ hd => Nat.isDigit_of_mem_toDigits (by decide) (by decide) hd⟩

theorem digitChar_ne_zero {n : Nat} (h : n ≠ 0) (hlt : n < 10) : n.digitChar ≠ '0' := by
  intro e
  have hvalue := Nat.toNat_digitChar_sub_48_of_lt_ten hlt
  rw [e] at hvalue
  exact h hvalue.symm

/-- No needless zero stands in front. -/
theorem head_writeNat {n : Nat} (h : n ≠ 0) : (writeNat n).head? ≠ some '0' := by
  induction n using Nat.strongRecOn with
  | ind n ih =>
      by_cases hlt : n < 10
      · rw [writeNat, Nat.toDigits_of_lt_base hlt]
        exact fun e => digitChar_ne_zero h hlt (Option.some.inj e)
      · have hle : 10 ≤ n := Nat.le_of_not_lt hlt
        have hfront := ih (n / 10) (Nat.div_lt_self (by omega) (by decide)) (by omega)
        obtain ⟨d, ds, hds⟩ := List.exists_cons_of_ne_nil (digits_writeNat (n / 10)).1
        rw [hds] at hfront
        have hwrite : writeNat n = writeNat (n / 10) ++ [(n % 10).digitChar] :=
          Nat.toDigits_of_base_le (by decide) hle
        rwa [hwrite, hds]

theorem numeralText_writeNat (n : Nat) :
    NumeralText ⟨false, writeNat n, none, none⟩ (writeNat n) := by
  have hzero : (writeNat n).length = 1 ∨ (writeNat n).head? ≠ some '0' := by
    by_cases h : n = 0
    · subst h
      exact Or.inl rfl
    · exact Or.inr (head_writeNat h)
  have htext : NumeralText ⟨false, writeNat n, none, none⟩ ([] ++ writeNat n ++ [] ++ []) :=
    .mk (digits_writeNat n) hzero .absent .absent
  simpa using htext

theorem le_ofDigitChars (ds : List Char) (n : Nat) : n ≤ Nat.ofDigitChars 10 ds n := by
  induction ds generalizing n with
  | nil => exact Nat.le_refl n
  | cons d ds ih =>
      rw [Nat.ofDigitChars_cons]
      exact Nat.le_trans (by omega) (ih _)

/-- Digits whose number fits a word are all taken in. -/
theorem fill_digits {ds : List Char} {n : Nat} (h : Nat.ofDigitChars 10 ds n ≤ maxWord) :
    fill n ds = (Nat.ofDigitChars 10 ds n, []) := by
  induction ds generalizing n with
  | nil => rfl
  | cons d ds ih =>
      have hnext : n * 10 + digitValue d = 10 * n + (d.toNat - '0'.toNat) := by
        rw [Nat.mul_comm]
        rfl
      rw [Nat.ofDigitChars_cons, ← hnext] at h ⊢
      have hle : ¬ maxWord < n * 10 + digitValue d :=
        Nat.not_lt.mpr (Nat.le_trans (le_ofDigitChars ds _) h)
      rw [fill, if_neg hle, ih h]

theorem fieldText_writeNat (n : UInt64) : FieldText .word64 (.word64 n) (writeNat n.toNat) := by
  have hsize : n.toNat < UInt64.size := n.toNat_lt
  have hvalue : Nat.ofDigitChars 10 (writeNat n.toNat) 0 = n.toNat := Nat.ofDigitChars_ten_toDigits
  have hfill : fill 0 (writeNat n.toNat) = (n.toNat, []) := by
    have hdigits : fill 0 (writeNat n.toNat) = _ := fill_digits (by rw [hvalue, maxWord]; omega)
    rwa [hvalue] at hdigits
  have hnumber : Numeral.toNumber? ⟨false, writeNat n.toNat, none, none⟩ =
      some (.natural n.toNat) := by
    rw [Numeral.toNumber?]
    simp only [hfill]
    rfl
  have htext := FieldText.word64 ⟨_, numeralText_writeNat n.toNat, hnumber⟩
  rwa [UInt64.ofNat_toNat] at htext

end Json

namespace Build

/-! ## One build -/

/-- The fields say what the build is. -/
structure Shown (b : Build) (fields : Json.Fields) : Prop where
  id : fields.lookup "id" = some (.word64 b.id)
  name : fields.lookup "name" = some (.text b.name)
  status : fields.lookup "status" = some (.text b.status)
  apiUrl : fields.lookup "api_url" = some (.text b.apiUrl)
  teamName : fields.lookup "team_name" = some (.text b.teamName)
  pipelineName : fields.lookup "pipeline_name" = some (.text b.pipelineName)
  jobName : fields.lookup "job_name" = some (.text b.jobName)

/-- The texts of builds. -/
inductive JsonText : Json.Texts Build
  | mk {b : Build} {fields : Json.Fields} {t : List Char} :
      Json.RecordText shape fields t → b.Shown fields → JsonText b t

/-- A build's fields, in the order of the shape. -/
def fields (b : Build) : Json.Fields :=
  [ ("id", .word64 b.id), ("name", .text b.name), ("status", .text b.status),
    ("api_url", .text b.apiUrl), ("team_name", .text b.teamName),
    ("pipeline_name", .text b.pipelineName), ("job_name", .text b.jobName) ]

theorem shown_fields (b : Build) : b.Shown b.fields := ⟨rfl, rfl, rfl, rfl, rfl, rfl, rfl⟩

theorem complete_of_shown {b : Build} {seen : Json.Fields} (h : b.Shown seen) :
    Json.complete seen shape.fields = .ok b.fields := by
  simp only [shape, List.map_cons, List.map_nil, Json.complete, h.id, h.name, h.status, h.apiUrl,
    h.teamName, h.pipelineName, h.jobName]
  rfl

theorem begun_recordText (shape : Json.Shape) : Json.Begun (Json.RecordText shape) := by
  intro fields t h
  cases h with
  | mk _ _ => exact ⟨_, _, rfl, by decide, by unfold Json.IsStop; decide⟩

theorem begun_jsonText : Json.Begun JsonText := by
  intro b t h
  cases h with
  | mk ht _ => exact begun_recordText shape ht

theorem reads_read : Json.Reads read JsonText := by
  intro b t h g rest hg _
  cases h with
  | mk ht hshown =>
      rw [read, Json.readRecord_text ht (complete_of_shown hshown) hg rest]
      rfl

/-! ## A page -/

/-- The texts of pages. -/
inductive PageText : Json.Texts (List Build)
  | mk {page : List Build} {g t g' : List Char} : Json.Gap g → Json.BodyText JsonText page t →
      Json.Gap g' → PageText page (g ++ ('[' :: t ++ [']']) ++ g')

theorem pageOfJson?_text {page : List Build} {t : List Char} (h : PageText page t) :
    pageOfJson? (String.ofList t) = .ok page := by
  cases h with
  | @mk page g t g' hg ht hg' =>
      have hbody := Json.readBody_text (Or.inl rfl) reads_read begun_jsonText ht g'
      have happ : g ++ ('[' :: t ++ [']']) ++ g' = g ++ '[' :: (t ++ ']' :: g') := by simp
      refine Json.bind_eq_ok.mpr ⟨(page, g'), ?_, if_pos (Json.isEmpty_skipGap hg')⟩
      rw [String.toList_ofList, happ, Json.readListOf, Json.skipGap_token hg (by decide)]
      exact hbody

/-! ## What the writer writes -/

theorem recordMember_text {name : String}
    (hname : shape.field? name = some { name := name, kind := .text }) (s : String) :
    Json.RecordMember shape (some (name, .text s))
      (Json.writeMember name (Json.writeString s.toList)) :=
  .known hname (Json.memberText_write name (.text (Json.spelled_write s)))

theorem recordText_write (b : Build) : Json.RecordText shape b.fields b.write := by
  refine @Json.RecordText.mk _ (b.fields.map some) _
    (Json.bodyText_join [(_, _), (_, _), (_, _), (_, _), (_, _), (_, _), (_, _)] ?_) ?_
  · simp only [List.forall_mem_cons]
    exact ⟨.known rfl (Json.memberText_write "id" (Json.fieldText_writeNat b.id)),
      recordMember_text rfl b.name, recordMember_text rfl b.status, recordMember_text rfl b.apiUrl,
      recordMember_text rfl b.teamName, recordMember_text rfl b.pipelineName,
      recordMember_text rfl b.jobName, nofun⟩
  · have hnames : b.fields.map Prod.fst = shape.fields.map Json.FieldShape.name := rfl
    show (b.fields.map Prod.fst).Nodup
    rw [hnames]
    decide +kernel

theorem jsonText_write (b : Build) : JsonText b b.write := .mk (recordText_write b) (shown_fields b)

theorem pageText_pageToJson (page : List Build) : PageText page (pageToJson page).toList := by
  have hitems : ∀ p ∈ page.map fun b => (b, b.write), JsonText p.1 p.2 := by
    intro p hp
    obtain ⟨b, -, rfl⟩ := List.mem_map.mp hp
    exact jsonText_write b
  have hbody := Json.bodyText_join _ hitems
  have hpage : (page.map fun b => (b, b.write)).map Prod.fst = page := by
    rw [List.map_map]
    exact List.map_id page
  have htexts : (page.map fun b => (b, b.write)).map Prod.snd = page.map write := List.map_map
  rw [hpage, htexts] at hbody
  have htext := PageText.mk Json.gap_nil hbody Json.gap_nil
  rw [List.nil_append, List.append_nil] at htext
  rwa [pageToJson, String.toList_ofList]

end Build
end JobHealth
