import Mathlib.Data.List.Induction
import Mathlib.Logic.Relation
import JobHealth.Proofs.Feed.Body
/-!
# `JobHealth.Proofs.Feed.Block` — what a block tells, line by line

A block is read from its first line to its last.  Of what was read so far only
two things are kept, and they are all that the record is made of.

| line                             | what is kept                            |
| :------------------------------- | :-------------------------------------- |
| `event: NAME`                    | the name, in place of an earlier one    |
| `data: VALUE`                    | the value, behind the earlier ones      |
| empty, a comment, other fields   | what was kept before                    |

So the lines of a block may be rearranged in many ways, and the block is read as
the same record: lines that tell nothing come and go, names move past values,
only the last name counts, and the blank behind a colon is not needed.
-/

namespace JobHealth.Feed

open JobHealth.Text

/-! ## What lines tell -/

/-- The line has the field with the value.  One blank behind the colon is no part of the value. -/
inductive Says (field : String) : (line value : List Char) → Prop
  | bare : Says field field.toList []
  | close {value : List Char} : value.head? ≠ some ' ' →
      Says field (field.toList ++ ':' :: value) value
  | spaced (value : List Char) : Says field (field.toList ++ ':' :: ' ' :: value) value

/-- A field that is neither a name nor data. -/
structure OtherField (field : List Char) : Prop where
  colon_not_mem : ':' ∉ field
  ne_event : field ≠ "event".toList
  ne_data : field ≠ "data".toList

/-- The line tells nothing of the record. -/
inductive Silent : List Char → Prop
  | empty : Silent []
  | comment (text : List Char) : Silent (':' :: text)
  | bare {field : List Char} : OtherField field → Silent field
  | other {field : List Char} (value : List Char) : OtherField field →
      Silent (field ++ ':' :: value)

/-- From the first line to the last, the lines tell the name, if any, and the values of the data. -/
inductive LinesTell :
    (lines : List (List Char)) → (name : Option (List Char)) → (values : List (List Char)) → Prop
  | start : LinesTell [] none []
  | silent {lines name values line} : LinesTell lines name values → Silent line →
      LinesTell (lines ++ [line]) name values
  | event {lines name values line} {latest : List Char} : LinesTell lines name values →
      Says "event" line latest → LinesTell (lines ++ [line]) (some latest) values
  | data {lines name values line} {value : List Char} : LinesTell lines name values →
      Says "data" line value → LinesTell (lines ++ [line]) name (values ++ [value])

/-- Lines that are changed in one place, so that they tell the same. -/
inductive Rearranged : List (List Char) → List (List Char) → Prop
  /-- A line that tells nothing is put in. -/
  | insert {line : List Char} (above below : List (List Char)) : Silent line →
      Rearranged (above ++ below) (above ++ line :: below)
  /-- A name changes places with a value. -/
  | swap {line line' name value : List Char} (above below : List (List Char)) :
      Says "event" line name → Says "data" line' value →
      Rearranged (above ++ line :: line' :: below) (above ++ line' :: line :: below)
  /-- A name is put in above another one. -/
  | earlier {line name line' name' : List Char} (above : List (List Char))
      {below : List (List Char)} : Says "event" line name → line' ∈ below →
      Says "event" line' name' → Rearranged (above ++ below) (above ++ line :: below)
  /-- A blank is put in behind the colon of a value that begins with none. -/
  | space {field value : List Char} (above below : List (List Char)) : ':' ∉ field →
      value.head? ≠ some ' ' →
      Rearranged (above ++ (field ++ ':' :: value) :: below)
        (above ++ (field ++ ':' :: ' ' :: value) :: below)

/-! ## One line -/

theorem dropOneSpace_of_head {value : List Char} (h : value.head? ≠ some ' ') :
    dropOneSpace value = value := by
  cases value with
  | nil => rfl
  | cons c cs =>
      refine dropOneSpace.eq_2 _ fun cs' heq => ?_
      obtain ⟨rfl, -⟩ := List.cons.inj heq
      exact h rfl

theorem Says.ofLine? {field : String} (hf : IsFieldName field) {line value : List Char}
    (h : Says field line value) : FieldLine.ofLine? line = some ⟨field.toList, value⟩ := by
  cases h with
  | bare =>
      have hline := ofLine?_of_not_mem hf.colon_not_mem
      rwa [if_neg hf.ne_nil] at hline
  | close hhead =>
      have hline := ofLine?_colon hf.ne_nil hf.colon_not_mem value
      rwa [dropOneSpace_of_head hhead] at hline
  | spaced value => exact ofLine?_fieldLine hf value

/-- A line that tells nothing is left out, or is of another field. -/
theorem Silent.ofLine? {line : List Char} (h : Silent line) :
    ∀ l, FieldLine.ofLine? line = some l → OtherField l.field := by
  intro l hl
  cases h with
  | empty => cases hl
  | comment text => cases hl
  | bare hfield =>
      rw [ofLine?_of_not_mem hfield.colon_not_mem] at hl
      split at hl
      · cases hl
      · obtain rfl := Option.some.inj hl
        exact hfield
  | @other field value hfield =>
      by_cases hne : field = []
      · subst hne
        cases hl
      · rw [ofLine?_colon hne hfield.colon_not_mem] at hl
        obtain rfl := Option.some.inj hl
        exact hfield

theorem exists_says_colon (field : String) (value : List Char) :
    ∃ v, Says field (field.toList ++ ':' :: value) v := by
  by_cases hhead : value.head? = some ' '
  · obtain ⟨rest, rfl⟩ := List.head?_eq_some_iff.mp hhead
    exact ⟨rest, .spaced rest⟩
  · exact ⟨value, .close hhead⟩

/-- Every line has a name or data, or tells nothing. -/
theorem says_or_silent (line : List Char) :
    (∃ name, Says "event" line name) ∨ (∃ value, Says "data" line value) ∨ Silent line := by
  by_cases hmem : ':' ∈ line
  · obtain ⟨field, value, rfl, hfield⟩ := List.eq_append_cons_of_mem hmem
    by_cases hevent : field = "event".toList
    · exact .inl (hevent ▸ exists_says_colon "event" value)
    · by_cases hdata : field = "data".toList
      · exact .inr (.inl (hdata ▸ exists_says_colon "data" value))
      · exact .inr (.inr (.other value ⟨hfield, hevent, hdata⟩))
  · by_cases hevent : line = "event".toList
    · exact .inl ⟨[], hevent ▸ .bare⟩
    · by_cases hdata : line = "data".toList
      · exact .inr (.inl ⟨[], hdata ▸ .bare⟩)
      · exact .inr (.inr (.bare ⟨hmem, hevent, hdata⟩))

/-! ## The lines of a block -/

/-- The values that lines give for a field. -/
def told (field : String) (ls : List (List Char)) : List (List Char) :=
  fieldValues field (ls.filterMap FieldLine.ofLine?)

theorem told_append (field : String) (ls ls' : List (List Char)) :
    told field (ls ++ ls') = told field ls ++ told field ls' := by
  rw [told, told, told, List.filterMap_append, fieldValues, List.filter_append, List.map_append]
  rfl

theorem told_cons (field : String) (line : List Char) (ls : List (List Char)) :
    told field (line :: ls) = told field [line] ++ told field ls :=
  told_append field [line] ls

theorem Says.told_same {field : String} (hf : IsFieldName field) {line value : List Char}
    (h : Says field line value) : told field [line] = [value] := by
  rw [told, List.filterMap_cons, h.ofLine? hf]
  exact fieldValues_cons_same field value []

theorem Says.told_other {field other : String} (hf : IsFieldName field)
    (hother : field.toList ≠ other.toList) {line value : List Char} (h : Says field line value) :
    told other [line] = [] := by
  rw [told, List.filterMap_cons, h.ofLine? hf]
  exact fieldValues_cons_other hother []

theorem event_ne_data : "event".toList ≠ "data".toList := by decide

section
variable {line value : List Char}

theorem told_event (h : Says "event" line value) :
    told "event" [line] = [value] ∧ told "data" [line] = [] :=
  ⟨h.told_same isFieldName_event, h.told_other isFieldName_event event_ne_data⟩

theorem told_data (h : Says "data" line value) :
    told "event" [line] = [] ∧ told "data" [line] = [value] :=
  ⟨h.told_other isFieldName_data event_ne_data.symm, h.told_same isFieldName_data⟩

theorem told_silent (h : Silent line) : told "event" [line] = [] ∧ told "data" [line] = [] := by
  rw [told, told, List.filterMap_cons]
  cases hline : FieldLine.ofLine? line with
  | none => exact ⟨rfl, rfl⟩
  | some l =>
      have hother := h.ofLine? l hline
      exact ⟨fieldValues_cons_other hother.ne_event [], fieldValues_cons_other hother.ne_data []⟩

end

/-- Lines tell the last of the names and all values of the data. -/
theorem LinesTell.told_eq {ls : List (List Char)} {name : Option (List Char)}
    {values : List (List Char)} (h : LinesTell ls name values) :
    (told "event" ls).getLast? = name ∧ told "data" ls = values := by
  induction h with
  | start => exact ⟨rfl, rfl⟩
  | silent _ hline ih =>
      obtain ⟨hevent, hdata⟩ := told_silent hline
      rw [told_append, told_append, hevent, hdata, List.append_nil, List.append_nil]
      exact ih
  | event _ hline ih =>
      obtain ⟨hevent, hdata⟩ := told_event hline
      rw [told_append, told_append, hevent, hdata, List.append_nil, List.getLast?_concat]
      exact ⟨rfl, ih.2⟩
  | data _ hline ih =>
      obtain ⟨hevent, hdata⟩ := told_data hline
      rw [told_append, told_append, hevent, hdata, List.append_nil, ih.2]
      exact ⟨ih.1, rfl⟩

theorem exists_linesTell (ls : List (List Char)) : ∃ name values, LinesTell ls name values := by
  induction ls using List.reverseRecOn with
  | nil => exact ⟨none, [], .start⟩
  | append_singleton ls line ih =>
      obtain ⟨name, values, htells⟩ := ih
      rcases says_or_silent line with ⟨latest, hline⟩ | ⟨value, hline⟩ | hline
      · exact ⟨_, _, .event htells hline⟩
      · exact ⟨_, _, .data htells hline⟩
      · exact ⟨_, _, .silent htells hline⟩

/-- What lines tell is one name, or none, and one list of values. -/
theorem linesTell_iff {ls : List (List Char)} {name : Option (List Char)}
    {values : List (List Char)} :
    LinesTell ls name values ↔ name = (told "event" ls).getLast? ∧ values = told "data" ls := by
  constructor
  · intro h
    exact ⟨h.told_eq.1.symm, h.told_eq.2.symm⟩
  · rintro ⟨rfl, rfl⟩
    obtain ⟨name, values, h⟩ := exists_linesTell ls
    obtain ⟨rfl, rfl⟩ := h.told_eq
    exact h

/-! ## Rearranged lines -/

theorem Says.exists_last_told {line name : List Char} {ls : List (List Char)}
    (h : Says "event" line name) (hmem : line ∈ ls) :
    ∃ last, (told "event" ls).getLast? = some last := by
  obtain ⟨above, below, rfl⟩ := List.append_of_mem hmem
  have hne : told "event" (above ++ line :: below) ≠ [] := by
    rw [told_append, told_cons, (told_event h).1]
    exact List.append_ne_nil_of_right_ne_nil _ nofun
  exact ⟨_, List.getLast?_eq_some_getLast hne⟩

/-- One value, with or without the blank behind the colon. -/
theorem told_space {field value : List Char} (hcolon : ':' ∉ field)
    (hhead : value.head? ≠ some ' ') (name : String) :
    told name [field ++ ':' :: ' ' :: value] = told name [field ++ ':' :: value] := by
  have hline : FieldLine.ofLine? (field ++ ':' :: ' ' :: value) =
      FieldLine.ofLine? (field ++ ':' :: value) := by
    by_cases hne : field = []
    · subst hne
      rfl
    · rw [ofLine?_colon hne hcolon, ofLine?_colon hne hcolon, dropOneSpace_of_head hhead]
      rfl
  rw [told, told, List.filterMap_cons, List.filterMap_cons, hline]

/-- Each of the changes leaves what is told. -/
theorem Rearranged.told_eq {ls ls' : List (List Char)} (h : Rearranged ls ls') :
    (told "event" ls').getLast? = (told "event" ls).getLast? ∧
      told "data" ls' = told "data" ls := by
  cases h with
  | insert above below hline =>
      obtain ⟨hevent, hdata⟩ := told_silent hline
      simp only [told_append, told_cons _ _ below, hevent, hdata, List.nil_append, and_self]
  | @swap line line' _ _ above below hname hvalue =>
      obtain ⟨hevent, hdata⟩ := told_event hname
      obtain ⟨hevent', hdata'⟩ := told_data hvalue
      simp only [told_append, told_cons _ _ (_ :: below), told_cons _ _ below, hevent, hdata,
        hevent', hdata', List.nil_append, and_self]
  | @earlier line name line' name' above below hname hmem hname' =>
      -- The last name is below, with or without the one that is put in.
      obtain ⟨hevent, hdata⟩ := told_event hname
      obtain ⟨last, hlast⟩ := hname'.exists_last_told hmem
      simp only [told_append, told_cons _ _ below, hevent, hdata, List.nil_append,
        List.getLast?_append, hlast, Option.some_or, and_self]
  | space above below hcolon hhead =>
      simp only [told_append, told_cons _ _ below, told_space hcolon hhead, and_self]

theorem told_eq_of_rearranged {ls ls' : List (List Char)}
    (h : Relation.EqvGen Rearranged ls ls') :
    (told "event" ls').getLast? = (told "event" ls).getLast? ∧
      told "data" ls' = told "data" ls := by
  induction h with
  | rel _ _ hstep => exact hstep.told_eq
  | refl _ => exact ⟨rfl, rfl⟩
  | symm _ _ _ ih => exact ⟨ih.1.symm, ih.2.symm⟩
  | trans _ _ _ _ _ ih ih' => exact ⟨ih'.1.trans ih.1, ih'.2.trans ih.2⟩

/-! ## The record -/

/-- The record of a name, if there is one, and values of the data. -/
def recordOf? (name : Option (List Char)) (values : List (List Char)) : Option Record :=
  if name = none ∧ values = [] then none
  else
    some
      { event := (name.map String.ofList).getD "message"
        data := if join '\n' values = [] then none else some (String.ofList (join '\n' values)) }

theorem ofFieldLines?_eq (ls : List FieldLine) :
    Record.ofFieldLines? ls =
      recordOf? (fieldValues "event" ls).getLast? (fieldValues "data" ls) := by
  rw [Record.ofFieldLines?, recordOf?]
  generalize fieldValues "event" ls = names
  generalize fieldValues "data" ls = values
  have hnone : (names.isEmpty && values.isEmpty) = true ↔ names.getLast? = none ∧ values = [] := by
    rw [Bool.and_eq_true, List.isEmpty_iff, List.isEmpty_iff, List.getLast?_eq_none_iff]
  simp only [hnone, List.isEmpty_iff]
  cases names.getLast? <;> rfl

theorem recordOf?_eq_none_iff {name : Option (List Char)} {values : List (List Char)} :
    recordOf? name values = none ↔ name = none ∧ values = [] := by
  rw [recordOf?]
  split
  · next h => exact iff_of_true rfl h
  · next h => exact iff_of_false nofun h

/-- **A block is read as what its lines tell**: the last name, `message` if there is none, and the
values of the data, line by line.  Blocks that tell the same are the same record, so lines may be
rearranged. -/
theorem record_told_by_lines (block : List Char) :
    ∃ name values,
      (∀ name' values', LinesTell (lines block) name' values' ↔ name' = name ∧ values' = values) ∧
      (Record.ofBlock? block = none ↔ name = none ∧ values = []) ∧
      (∀ r, Record.ofBlock? block = some r →
        r.event = (name.map String.ofList).getD "message" ∧
        r.data = if join '\n' values = [] then none
          else some (String.ofList (join '\n' values))) ∧
      (∀ block', LinesTell (lines block') name values →
        Record.ofBlock? block' = Record.ofBlock? block) ∧
      ∀ block', Relation.EqvGen Rearranged (lines block) (lines block') →
        Record.ofBlock? block' = Record.ofBlock? block := by
  have hread : ∀ b, Record.ofBlock? b =
      recordOf? (told "event" (lines b)).getLast? (told "data" (lines b)) :=
    fun b => ofFieldLines?_eq _
  refine ⟨_, _, fun name' values' => linesTell_iff, ?_, ?_, ?_, ?_⟩
  · rw [hread]
    exact recordOf?_eq_none_iff
  · intro r hr
    rw [hread, recordOf?] at hr
    split at hr
    · cases hr
    · obtain rfl := Option.some.inj hr
      exact ⟨rfl, rfl⟩
  · intro block' htells
    obtain ⟨hname, hvalues⟩ := htells.told_eq
    rw [hread, hread, hname, hvalues]
  · intro block' hrearranged
    obtain ⟨hname, hvalues⟩ := told_eq_of_rearranged hrearranged
    rw [hread, hread, hname, hvalues]

/-- The later name is empty, and so is the second value; the third begins with a blank. -/
example :
    Record.ofBlock? ": ping\nevent: old\ndata:first\nid: 9\nevent\n\ndata\ndata:  last".toList =
      some ⟨"", some "first\n\n last"⟩ := by
  decide +kernel

end JobHealth.Feed
