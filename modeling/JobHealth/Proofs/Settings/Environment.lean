import Mathlib.Data.List.Nodup
import JobHealth.Proofs.Settings.Overlay
import JobHealth.Settings.Environment
/-!
# `JobHealth.Proofs.Settings.Environment` — one variable, one field

Variables that set single fields are layers of one member each.  If no two of
them have the same key, no two layers mention the same field, and the order in
which they are laid together does not matter: the environment mentions for a
field what the variable with its key holds.

The key of a variable does not depend on the size of the letters in its name.
-/

namespace JobHealth.Settings

open JobHealth.Json

/-! ## The layer of one variable -/

/-- A key that goes into a section goes to one of its members, and no further. -/
def SingleMember (key : List String) : Prop :=
  ∀ f : Field, key.head? = some f.title → ∃ name, key = [f.title, name]

theorem keyOf?_ne_nil {name : String} {key : List String} (h : keyOf? name = some key) :
    key ≠ [] := by
  rw [keyOf?] at h
  dsimp only at h
  split at h
  · cases h
  · split at h
    · cases h
    · rw [← Option.some.inj h, Ne, List.map_eq_nil_iff]
      exact Text.pieces_ne_nil _ _

theorem get?_single (name key : String) (v : Value) :
    (Value.record [(key, v)]).get? name = if name = key then some v else none := by
  rw [get?_record, lookupLast_cons]
  rfl

theorem sectioned_nested {key : List String} (hne : key ≠ []) (h : SingleMember key) (v : Value) :
    Sectioned (nested v key) := by
  obtain ⟨head, tail, rfl⟩ := List.exists_cons_of_ne_nil hne
  refine ⟨_, rfl, fun f w hw => ?_⟩
  have hget : (if f.title = head then some (nested v tail) else none) = some w :=
    (get?_single f.title head (nested v tail)).symm.trans hw
  by_cases htitle : f.title = head
  · obtain ⟨name, hkey⟩ := h f (congrArg some htitle.symm)
    obtain ⟨-, rfl⟩ := List.cons.inj hkey
    rw [if_pos htitle] at hget
    exact ⟨_, (Option.some.inj hget).symm⟩
  · rw [if_neg htitle] at hget
    cases hget

theorem mentioned?_nested {key : List String} (hne : key ≠ []) (h : SingleMember key) (v : Value)
    (f : Field) : f.mentioned? (nested v key) = if key = f.path then some v else none := by
  obtain ⟨head, tail, rfl⟩ := List.exists_cons_of_ne_nil hne
  rw [Field.mentioned?, nested, get?_single, Field.path]
  by_cases htitle : f.title = head
  · subst htitle
    obtain ⟨name, hkey⟩ := h f rfl
    obtain ⟨-, rfl⟩ := List.cons.inj hkey
    rw [if_pos rfl, Option.bind_some, nested, get?_single, nested]
    simp only [List.cons.injEq, and_true, true_and, eq_comm]
  · rw [if_neg htitle, if_neg fun h => htitle (List.cons.inj h).1.symm]
    rfl

/-! ## The layer of all variables -/

/-- The variables of an environment that hold settings set single members, and no two of them the
same. -/
structure SingleFields (env : Environment) : Prop where
  single : ∀ v ∈ env, ∀ key, keyOf? v.1 = some key → SingleMember key
  distinct : (env.filterMap fun v => keyOf? v.1).Nodup

/-- What a variable holds, if its key is the way to the field. -/
def variableValue? (f : Field) (v : String × String) : Option Value :=
  if keyOf? v.1 = some f.path then some (valueOf v.2) else none

/-- What an environment holds for a field. -/
def environmentValue? (f : Field) (env : Environment) : Option Value :=
  env.findSome? (variableValue? f)

theorem length_filterMap_variableValue? (f : Field) (env : Environment) :
    (env.filterMap (variableValue? f)).length =
      (env.filterMap fun v => keyOf? v.1).count f.path := by
  induction env with
  | nil => rfl
  | cons v env ih =>
      rw [List.filterMap_cons, List.filterMap_cons, variableValue?]
      cases hkey : keyOf? v.1 with
      | none => exact ih
      | some key =>
          by_cases hpath : key = f.path
          · simp [hpath, ih]
          · simp [hpath, ih]

theorem head?_eq_of_perm {α : Type} {xs ys : List α} (h : xs.Perm ys) (hlength : ys.length ≤ 1) :
    xs.head? = ys.head? := by
  match ys with
  | [] => rw [h.eq_nil]
  | [y] => rw [List.perm_singleton.mp h]
  | _ :: _ :: _ => exact absurd hlength (by simp)

section
variable {env : Environment} (henv : SingleFields env)
include henv

/-- The layers of the variables, in whichever order. -/
theorem exists_environmentLayers :
    ∃ layers, environmentLayer env = overlayAll layers ∧ (∀ l ∈ layers, Sectioned l) ∧
      ∀ f, highest? f layers = environmentValue? f env := by
  let ordered := env.mergeSort fun a b => !(b.1 < a.1)
  let layerOf := fun v : String × String => (keyOf? v.1).map (nested (valueOf v.2))
  have hperm : ordered.Perm env := List.mergeSort_perm _ _
  refine ⟨ordered.filterMap layerOf, rfl, ?_, ?_⟩
  · intro l hl
    obtain ⟨v, hv, hlayer⟩ := List.mem_filterMap.mp hl
    obtain ⟨key, hkey, rfl⟩ := Option.map_eq_some_iff.mp hlayer
    exact sectioned_nested (keyOf?_ne_nil hkey) (henv.single v (hperm.mem_iff.mp hv) key hkey) _
  · intro f
    have hvalue : ∀ v ∈ ordered.reverse, (layerOf v).bind f.mentioned? = variableValue? f v := by
      intro v hv
      have hmem : v ∈ env := hperm.mem_iff.mp (List.mem_reverse.mp hv)
      cases hkey : keyOf? v.1 with
      | none => simp [layerOf, variableValue?, hkey]
      | some key =>
          have hmention := mentioned?_nested (keyOf?_ne_nil hkey) (henv.single v hmem key hkey)
            (valueOf v.2) f
          simpa [layerOf, variableValue?, hkey] using hmention
    have hfilter : (ordered.filterMap layerOf).reverse.filterMap f.mentioned? =
        ordered.reverse.filterMap (variableValue? f) := by
      rw [← List.filterMap_reverse, List.filterMap_filterMap]
      exact List.filterMap_congr hvalue
    have hone : (env.filterMap (variableValue? f)).length ≤ 1 := by
      rw [length_filterMap_variableValue?]
      exact List.nodup_iff_count_le_one.mp henv.distinct f.path
    have hhead := head?_eq_of_perm
      (((List.reverse_perm ordered).trans hperm).filterMap (variableValue? f)) hone
    rw [highest?, environmentValue?, ← List.head?_filterMap, ← List.head?_filterMap, hfilter,
      hhead]

theorem sectioned_environmentLayer : Sectioned (environmentLayer env) := by
  obtain ⟨layers, hlayer, hsectioned, -⟩ := exists_environmentLayers henv
  exact hlayer ▸ sectioned_overlayAll hsectioned

theorem mentioned?_environmentLayer (f : Field) :
    (f.mentioned? (environmentLayer env)).map Value.found =
      (environmentValue? f env).map Value.found := by
  obtain ⟨layers, hlayer, hsectioned, hvalue⟩ := exists_environmentLayers henv
  rw [hlayer, mentioned?_overlayAll hsectioned, hvalue]

end

/-! ## The names of variables -/

theorem isBlank_smallLetter (c : Char) : Text.isBlank (smallLetter c) = Text.isBlank c := by
  have hupTo : ∀ n : Fin 91,
      Text.isBlank (smallLetter (Char.ofNat n)) = Text.isBlank (Char.ofNat n) := by decide +kernel
  by_cases hc : c.toNat < 91
  · have hchar := hupTo ⟨c.toNat, hc⟩
    rwa [Char.ofNat_toNat] at hchar
  · have hlarge : ¬ c ≤ 'Z' := fun h => hc (Nat.lt_succ_of_le (Char.le_def.mp h))
    rw [smallLetter, if_neg]
    rw [decide_eq_false hlarge, Bool.and_false]
    exact Bool.false_ne_true

theorem map_smallLetter_trimBlank (cs : List Char) :
    (trimBlank cs).map smallLetter = trimBlank (cs.map smallLetter) := by
  have hblank : Text.isBlank ∘ smallLetter = Text.isBlank := funext isBlank_smallLetter
  rw [trimBlank, trimBlank, List.dropWhile_map, hblank, ← List.map_reverse, List.dropWhile_map,
    hblank, ← List.map_reverse]

/-- Names that differ in the size of letters only have one key. -/
theorem keyOf?_congr {name name' : String}
    (h : name.toList.map smallLetter = name'.toList.map smallLetter) :
    keyOf? name = keyOf? name' := by
  rw [keyOf?, keyOf?, map_smallLetter_trimBlank, map_smallLetter_trimBlank, h]

/-- The name of the variable for a field, in small letters. -/
def Field.variableName (f : Field) : String := "flakescan_" ++ f.title ++ "__" ++ f.name

theorem keyOf?_variableName (f : Field) : keyOf? f.variableName = some f.path := by
  cases f with
  | server f => cases f <;> decide +kernel
  | logging f => cases f <;> decide +kernel

theorem map_smallLetter_variableName (f : Field) :
    f.variableName.toList.map smallLetter = f.variableName.toList := by
  cases f with
  | server f => cases f <;> decide +kernel
  | logging f => cases f <;> decide +kernel

/-- A variable named for a field, in letters of either size, is the way to it. -/
theorem keyOf?_eq_path {f : Field} {name : String}
    (h : name.toList.map smallLetter = f.variableName.toList) : keyOf? name = some f.path := by
  rw [← keyOf?_variableName f]
  exact keyOf?_congr (h.trans (map_smallLetter_variableName f).symm)

end JobHealth.Settings
