import Mathlib.Data.List.Basic
import JobHealth.Settings.Decode
/-!
# `JobHealth.Proofs.Settings.Fields` — a section is filled field by field

A field of a section is of a kind, and what it has can be written as a value
again.

| kind         | values that fit                                   |
| :----------- | :------------------------------------------------ |
| `text`       | a text                                            |
| `word bits`  | a whole number from zero on, of so many bits      |
| `path`       | a text, or nothing                                |

A slot sets its own field, to values that fit, and leaves the others alone.  So
it does not matter in which order the slots of a section are filled: each field
takes what the record mentions for it, or keeps what it has, and the filling
fails exactly if something that is mentioned does not fit its field.
-/

namespace JobHealth.Settings

open JobHealth.Json

/-! ## Kinds and their readers -/

inductive Kind where
  | text
  | word (bits : Nat)
  | path
  deriving DecidableEq, Repr

/-- The values that fit a kind. -/
def Kind.Fits : Kind → Value → Prop
  | .text, v => ∃ s, v = .text s
  | .word bits, v => ∃ n, v = .number (.natural n) ∧ n < Nat.pow 2 bits
  | .path, v => v = .null ∨ ∃ s, v = .text s

/-- What a fault shows of a value that fits is all of it, so no other value looks the same. -/
theorem Kind.Fits.eq_of_found {kind : Kind} {v w : Value} (h : kind.Fits w)
    (hfound : v.found = w.found) : v = w := by
  cases kind with
  | text =>
      obtain ⟨s, rfl⟩ := h
      cases v <;> cases hfound
      rfl
  | word bits =>
      obtain ⟨n, rfl, -⟩ := h
      cases v <;> cases hfound
      rfl
  | path =>
      rcases h with rfl | ⟨s, rfl⟩ <;> cases v <;> cases hfound <;> rfl

/-- A reader of a kind reads the values that fit, each as what it is the value of. -/
structure Reader {α : Type} (kind : Kind) (read : Value → Except Misfit α) (Allowed : α → Prop)
    (value : α → Value) : Prop where
  fits_iff : ∀ {v}, kind.Fits v ↔ ∃ a, v = value a ∧ Allowed a
  ok_iff : ∀ {v a}, read v = .ok a ↔ v = value a ∧ Allowed a
  error : ∀ {v m}, read v = .error m → m.path = []

/-- The value of a directory that may be missing. -/
def pathValue : Option String → Value
  | none => .null
  | some s => .text s

def numberValue (n : Nat) : Value := .number (.natural n)

theorem reader_text : Reader .text text (fun _ => True) Value.text where
  fits_iff := by
    intro v
    simp only [Kind.Fits, and_true]
  ok_iff := by
    intro v s
    cases v <;> simp [text]
  error := by
    intro v m h
    cases v <;> cases h <;> rfl

theorem reader_path : Reader .path path? (fun _ => True) pathValue where
  fits_iff := by
    intro v
    simp only [Kind.Fits, and_true, Option.exists, pathValue]
  ok_iff := by
    intro v d
    cases v <;> cases d <;> simp [path?, pathValue]
  error := by
    intro v m h
    cases v <;> cases h <;> rfl

theorem word_eq_ok {bits : Nat} {v : Value} {n : Nat} (h : word bits v = .ok n) :
    v = numberValue n ∧ n < Nat.pow 2 bits := by
  unfold word at h
  split at h
  · split at h
    · next hn =>
      obtain rfl := Except.ok.inj h
      exact ⟨rfl, hn⟩
    · split at h <;> cases h
  · split at h <;> cases h
  · cases h

theorem reader_word (bits : Nat) :
    Reader (.word bits) (word bits) (· < Nat.pow 2 bits) numberValue where
  fits_iff := Iff.rfl
  ok_iff := by
    intro v n
    constructor
    · exact word_eq_ok
    · rintro ⟨rfl, hn⟩
      exact if_pos hn
  error := by
    intro v m h
    unfold word at h
    split at h
    · split at h
      · cases h
      · split at h <;> cases h <;> rfl
    · split at h <;> cases h <;> rfl
    · cases h
      rfl

/-! ## Slots of one field -/

/-- A slot and the field of a kind that it sets.  What the field shows fits, and it shows what it was
set to; values that fit are not refused. -/
structure Sets {σ : Type} (kind : Kind) (slot : Slot σ) (shown : σ → Value) : Prop where
  fits_shown : ∀ s, kind.Fits (shown s)
  ok : ∀ {v s s'}, slot.set v s = .ok s' → shown s' = v
  error : ∀ {v s m}, slot.set v s = .error m → ¬ kind.Fits v ∧ m.path = []

section
variable {α σ : Type} {name : String} {read : Value → Except Misfit α} {put : σ → α → σ}
  {v : Value} {s : σ}

theorem slot_set_eq_ok {s' : σ} (h : (slot name read put).set v s = .ok s') :
    ∃ a, read v = .ok a ∧ s' = put s a := by
  have hmap : (read v).map (put s) = .ok s' := h
  cases hread : read v with
  | error m =>
      rw [hread] at hmap
      cases hmap
  | ok a =>
      rw [hread] at hmap
      exact ⟨a, rfl, (Except.ok.inj hmap).symm⟩

theorem slot_set_eq_error {m : Misfit} (h : (slot name read put).set v s = .error m) :
    read v = .error m := by
  have hmap : (read v).map (put s) = .error m := h
  cases hread : read v with
  | error m' =>
      rw [hread] at hmap
      rw [Except.error.inj hmap]
  | ok a =>
      rw [hread] at hmap
      cases hmap

theorem Reader.sets {kind : Kind} {Allowed : α → Prop} {value : α → Value}
    (h : Reader kind read Allowed value) {shown : σ → Value}
    (hput : ∀ s a, Allowed a → shown (put s a) = value a)
    (hshown : ∀ s, ∃ a, shown s = value a ∧ Allowed a) : Sets kind (slot name read put) shown where
  fits_shown := fun s => h.fits_iff.mpr (hshown s)
  ok := by
    intro v s s' hset
    obtain ⟨a, hread, rfl⟩ := slot_set_eq_ok hset
    obtain ⟨rfl, ha⟩ := h.ok_iff.mp hread
    exact hput s a ha
  error := by
    intro v s m hset
    have hread := slot_set_eq_error hset
    refine ⟨fun hfits => ?_, h.error hread⟩
    obtain ⟨a, ha⟩ := h.fits_iff.mp hfits
    rw [h.ok_iff.mpr ha] at hread
    cases hread

end

/-! ## The fields of a section -/

/-- The slots of a section, each for a field of its own.  Together the fields are all there is. -/
structure FieldTable (ι σ : Type) where
  all : List ι
  kind : ι → Kind
  slot : ι → Slot σ
  /-- The value that a field has. -/
  shown : ι → σ → Value
  nodup_all : all.Nodup
  mem_all : ∀ i, i ∈ all
  sets : ∀ i, Sets (kind i) (slot i) (shown i)
  frame : ∀ {i v s s'}, (slot i).set v s = .ok s' → ∀ j, j ≠ i → shown j s' = shown j s
  ext : ∀ {s s'}, (∀ i, shown i s = shown i s') → s = s'

namespace FieldTable
variable {ι σ : Type} (T : FieldTable ι σ) {members : List (String × Value)}

/-- What a record mentions for a field. -/
def mentioned? (members : List (String × Value)) (i : ι) : Option Value :=
  lookupLast (T.slot i).name members

section
variable {i : ι} {slots : List (Slot σ)} {v : Value} {s : σ}

theorem fillMembers_skip (h : T.mentioned? members i = none) :
    fillMembers members (T.slot i :: slots) s = fillMembers members slots s := by
  rw [mentioned?] at h
  rw [fillMembers, h]

theorem fillMembers_set (h : T.mentioned? members i = some v) {s' : σ}
    (hset : (T.slot i).set v s = .ok s') :
    fillMembers members (T.slot i :: slots) s = fillMembers members slots s' := by
  rw [mentioned?] at h
  rw [fillMembers, h]
  simp only [Slot.fill, hset, Except.mapError]

theorem fillMembers_misfit (h : T.mentioned? members i = some v) {m : Misfit}
    (hset : (T.slot i).set v s = .error m) :
    fillMembers members (T.slot i :: slots) s = .error (m.within (T.slot i).name) := by
  rw [mentioned?] at h
  rw [fillMembers, h]
  simp only [Slot.fill, hset, Except.mapError]

end

theorem fillMembers_eq_error {is : List ι} {s : σ} {m : Misfit}
    (h : fillMembers members (is.map T.slot) s = .error m) :
    ∃ i v, T.mentioned? members i = some v ∧ ¬ (T.kind i).Fits v ∧
      m.path = [(T.slot i).name] := by
  induction is generalizing s with
  | nil => cases h
  | cons i is ih =>
      rw [List.map_cons] at h
      cases hmention : T.mentioned? members i with
      | none =>
          rw [T.fillMembers_skip hmention] at h
          exact ih h
      | some v =>
          cases hset : (T.slot i).set v s with
          | error m' =>
              rw [T.fillMembers_misfit hmention hset] at h
              obtain rfl := Except.error.inj h
              obtain ⟨hfits, hpath⟩ := (T.sets i).error hset
              exact ⟨i, v, hmention, hfits, congrArg ((T.slot i).name :: ·) hpath⟩
          | ok s₁ =>
              rw [T.fillMembers_set hmention hset] at h
              exact ih h

/-- Slots in the order of their names are those of the fields in some order. -/
theorem exists_byName :
    ∃ is : List ι, is.Nodup ∧ (∀ i, i ∈ is) ∧ byName (T.all.map T.slot) = is.map T.slot := by
  refine ⟨T.all.mergeSort fun a b => !((T.slot b).name < (T.slot a).name), ?_, ?_, ?_⟩
  · exact (List.mergeSort_perm _ _).nodup_iff.mpr T.nodup_all
  · exact fun i => (List.mergeSort_perm _ _).mem_iff.mpr (T.mem_all i)
  · symm
    apply List.map_mergeSort
    intro i _ j _
    rfl

theorem fill_eq_error {s : σ} {m : Misfit}
    (h : fillMembers members (byName (T.all.map T.slot)) s = .error m) :
    ∃ i v, T.mentioned? members i = some v ∧ ¬ (T.kind i).Fits v ∧ m.path = [(T.slot i).name] := by
  obtain ⟨is, -, -, hslots⟩ := T.exists_byName
  rw [hslots] at h
  exact T.fillMembers_eq_error h

variable [DecidableEq ι]

/-- Filling slots sets their fields and no others. -/
theorem fillMembers_eq_ok_iff {is : List ι} (his : is.Nodup) {s s' : σ} :
    fillMembers members (is.map T.slot) s = .ok s' ↔
      ∀ j, T.shown j s' =
        if j ∈ is then (T.mentioned? members j).getD (T.shown j s) else T.shown j s := by
  induction is generalizing s with
  | nil =>
      simp only [List.map_nil, List.not_mem_nil, if_false, fillMembers, Except.ok.injEq]
      exact ⟨fun h _ => by rw [h], fun h => T.ext fun j => (h j).symm⟩
  | cons i is ih =>
      obtain ⟨hi, his⟩ := List.nodup_cons.mp his
      rw [List.map_cons]
      cases hmention : T.mentioned? members i with
      | none =>
          rw [T.fillMembers_skip hmention, ih his]
          refine forall_congr' fun j => ?_
          by_cases hj : j = i
          · subst hj
            simp [hi, hmention]
          · simp [hj]
      | some v =>
          cases hset : (T.slot i).set v s with
          | error m =>
              rw [T.fillMembers_misfit hmention hset]
              refine ⟨nofun, fun h => ?_⟩
              -- A section filled as the record says would show the value that does not fit.
              have hshown := h i
              rw [if_pos List.mem_cons_self, hmention, Option.getD_some] at hshown
              exact absurd (hshown ▸ (T.sets i).fits_shown s') ((T.sets i).error hset).1
          | ok s₁ =>
              rw [T.fillMembers_set hmention hset, ih his]
              refine forall_congr' fun j => ?_
              by_cases hj : j = i
              · subst hj
                rw [if_neg hi, if_pos List.mem_cons_self, hmention, (T.sets j).ok hset]
                rfl
              · rw [T.frame hset j hj]
                simp [hj]

/-- Each field takes what the record mentions for it, or keeps what it has. -/
theorem fill_eq_ok_iff {s s' : σ} :
    fillMembers members (byName (T.all.map T.slot)) s = .ok s' ↔
      ∀ j, T.shown j s' = (T.mentioned? members j).getD (T.shown j s) := by
  obtain ⟨is, hnodup, hmem, hslots⟩ := T.exists_byName
  rw [hslots, T.fillMembers_eq_ok_iff hnodup]
  simp only [hmem, if_true]

end FieldTable

end JobHealth.Settings
