import Mathlib.Data.List.Induction
import JobHealth.Proofs.Settings.Decode
import JobHealth.Settings.Overlay
/-!
# `JobHealth.Proofs.Settings.Overlay` — of several layers the highest counts

Records are laid over each other member by member, so a section that is in two
layers is laid together from both, and each of its fields by itself.  What all
layers together mention for a field is then what the highest of them does that
mentions it at all.

Only where two layers have records for one field, these are laid together as
well.  A record fits no field, so what matters of it is that it is one, and that
is what `Value.found` keeps.
-/

namespace JobHealth.Json

@[simp]
theorem lookupLast_nil {α : Type} (name : String) :
    lookupLast name ([] : List (String × α)) = none := rfl

theorem lookupLast_cons {α : Type} (name key : String) (v : α) (members : List (String × α)) :
    lookupLast name ((key, v) :: members) =
      (lookupLast name members).or (if name = key then some v else none) := by
  rw [lookupLast, List.reverse_cons, List.lookup_append, List.lookup_cons, List.lookup_nil]
  by_cases hkey : name = key
  · subst hkey
    simp [lookupLast]
  · simp [lookupLast, hkey, beq_false_of_ne hkey]

theorem lookupLast_append {α : Type} (name : String) (xs ys : List (String × α)) :
    lookupLast name (xs ++ ys) = (lookupLast name ys).or (lookupLast name xs) := by
  rw [lookupLast, List.reverse_append, List.lookup_append]
  rfl

theorem lookupLast_filter {α : Type} (name : String) (p : String → Bool)
    (members : List (String × α)) :
    lookupLast name (members.filter fun m => p m.1) =
      if p name then lookupLast name members else none := by
  induction members with
  | nil => simp
  | cons m members ih =>
      obtain ⟨key, v⟩ := m
      by_cases hkey : name = key
      · subst hkey
        cases hp : p name <;> simp [hp, lookupLast_cons, ih]
      · cases hp : p key <;> simp [hp, hkey, lookupLast_cons, ih]

end JobHealth.Json

namespace JobHealth.Settings

open JobHealth.Json

/-! ## Members -/

/-- A value that may be missing, laid over another one. -/
def overlay? : (lower upper : Option Value) → Option Value
  | none, upper => upper
  | some lower, none => some lower
  | some lower, some upper => some (overlay lower upper)

theorem lookupLast_overlayMembers (name : String) (lower upper : List (String × Value)) :
    lookupLast name (overlayMembers lower upper) =
      (lookupLast name lower).bind fun v => overlay? (some v) (lookupLast name upper) := by
  induction lower with
  | nil => rw [overlayMembers]; rfl
  | cons m lower ih =>
      obtain ⟨key, v⟩ := m
      rw [overlayMembers, lookupLast_cons, lookupLast_cons, ih]
      cases hlower : lookupLast name lower with
      | some w => cases lookupLast name upper <;> rfl
      | none =>
          by_cases hkey : name = key
          · subst hkey
            cases lookupLast name upper <;> simp [overlay?]
          · simp [hkey]

/-- Records are laid over each other member by member. -/
theorem get?_overlay (name : String) (lower upper : List (String × Value)) :
    (overlay (.record lower) (.record upper)).get? name =
      overlay? (lookupLast name lower) (lookupLast name upper) := by
  have hrest := lookupLast_filter name (fun key => (lookupLast key lower).isNone) upper
  rw [overlay, get?_record, lookupLast_append, lookupLast_overlayMembers]
  refine (congrArg (Option.or · _) hrest).trans ?_
  cases lookupLast name lower with
  | none => simp [overlay?]
  | some v => cases lookupLast name upper <;> rfl

theorem found_overlay (lower upper : Value) : (overlay lower upper).found = upper.found := by
  cases lower <;> cases upper <;> simp [overlay, Value.found]

theorem found_overlay? (lower upper : Option Value) :
    (overlay? lower upper).map Value.found = (upper.or lower).map Value.found := by
  cases lower with
  | none => cases upper <;> rfl
  | some l =>
      cases upper with
      | none => rfl
      | some u => exact congrArg some (found_overlay l u)

/-! ## Layers -/

theorem sectioned_empty : Sectioned (.record []) := ⟨[], rfl, nofun⟩

theorem Sectioned.overlay {lower upper : Value} (hl : Sectioned lower) (hu : Sectioned upper) :
    Sectioned (overlay lower upper) := by
  obtain ⟨ls, rfl, hls⟩ := hl
  obtain ⟨us, rfl, hus⟩ := hu
  refine ⟨_, by rw [Settings.overlay], ?_⟩
  intro f v hv
  have hget := get?_overlay f.title ls us
  rw [Settings.overlay, get?_record, hv] at hget
  cases hlower : lookupLast f.title ls with
  | none =>
      rw [hlower] at hget
      exact hus f v hget.symm
  | some l =>
      obtain ⟨fs, rfl⟩ := hls f l hlower
      cases hupper : lookupLast f.title us with
      | none =>
          rw [hlower, hupper] at hget
          exact ⟨fs, Option.some.inj hget⟩
      | some u =>
          obtain ⟨gs, rfl⟩ := hus f u hupper
          rw [hlower, hupper] at hget
          rw [Option.some.inj hget, Settings.overlay]
          exact ⟨_, rfl⟩

/-- Of two layers that mention a field the upper one counts. -/
theorem mentioned?_overlay {lower upper : Value} (hl : Sectioned lower) (hu : Sectioned upper)
    (f : Field) :
    (f.mentioned? (overlay lower upper)).map Value.found =
      ((f.mentioned? upper).or (f.mentioned? lower)).map Value.found := by
  obtain ⟨ls, rfl, hls⟩ := hl
  obtain ⟨us, rfl, hus⟩ := hu
  simp only [Field.mentioned?, get?_overlay, get?_record]
  cases hlower : lookupLast f.title ls with
  | none => simp [overlay?]
  | some l =>
      obtain ⟨fs, rfl⟩ := hls f l hlower
      cases hupper : lookupLast f.title us with
      | none => simp [overlay?]
      | some u =>
          obtain ⟨gs, rfl⟩ := hus f u hupper
          simp only [overlay?, Option.bind_some, get?_overlay, get?_record]
          exact found_overlay? _ _

/-- What the highest of several layers mentions for a field, of those that mention it. -/
def highest? (f : Field) (layers : List Value) : Option Value :=
  layers.reverse.findSome? f.mentioned?

theorem highest?_append (f : Field) (lower upper : List Value) :
    highest? f (lower ++ upper) = (highest? f upper).or (highest? f lower) := by
  rw [highest?, List.reverse_append, List.findSome?_append]
  rfl

theorem highest?_singleton (f : Field) (l : Value) : highest? f [l] = f.mentioned? l := by
  cases hl : f.mentioned? l <;> simp [highest?, hl]

theorem highest?_cons (f : Field) (l : Value) (layers : List Value) :
    highest? f (l :: layers) = (highest? f layers).or (f.mentioned? l) := by
  rw [← List.singleton_append, highest?_append, highest?_singleton]

theorem overlayAll_append_singleton (layers : List Value) (l : Value) :
    overlayAll (layers ++ [l]) = overlay (overlayAll layers) l := by
  rw [overlayAll, List.foldl_append]
  rfl

theorem sectioned_overlayAll {layers : List Value} (h : ∀ l ∈ layers, Sectioned l) :
    Sectioned (overlayAll layers) := by
  induction layers using List.reverseRecOn with
  | nil => exact sectioned_empty
  | append_singleton layers l ih =>
      rw [overlayAll_append_singleton]
      exact (ih fun l hl => h l (by simp [hl])).overlay (h l (by simp))

theorem mentioned?_overlayAll {layers : List Value} (h : ∀ l ∈ layers, Sectioned l) (f : Field) :
    (f.mentioned? (overlayAll layers)).map Value.found =
      (highest? f layers).map Value.found := by
  induction layers using List.reverseRecOn with
  | nil => rfl
  | append_singleton layers l ih =>
      have hlayers : ∀ l ∈ layers, Sectioned l := fun l hl => h l (by simp [hl])
      rw [overlayAll_append_singleton,
        mentioned?_overlay (sectioned_overlayAll hlayers) (h l (by simp)), highest?_append,
        highest?_singleton, Option.map_or, ih hlayers, ← Option.map_or]

end JobHealth.Settings
