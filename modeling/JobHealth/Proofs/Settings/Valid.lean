import JobHealth.Settings.Load
/-!
# `JobHealth.Proofs.Settings.Valid` — what is asked of settings

Settings are looked through for one fault after the other, and are valid if
there is none.  Settings that were loaded have been looked through.
-/

namespace JobHealth.Settings

/-- What is asked of settings. -/
structure Valid (s : Settings) : Prop where
  team : s.server.team ≠ ""
  eventTimeout : 1 ≤ s.server.eventTimeout
  connectTimeout : 1 ≤ s.server.connectTimeout
  level : s.logging.level ∈ allowedLevels
  format : s.logging.format ∈ allowedFormats
  rotation : s.logging.rotation ∈ allowedRotations

theorem one_le_iff {n : UInt64} : 1 ≤ n ↔ n ≠ 0 := by
  rw [UInt64.le_iff_toNat_le, Ne, ← UInt64.toNat_inj]
  exact Nat.one_le_iff_ne_zero

/-- One thing is looked at after the other. -/
theorem ite_some_eq_none_iff {α : Type} {c : Prop} [Decidable c] {fault : α} {rest : Option α} :
    (if c then some fault else rest) = none ↔ ¬ c ∧ rest = none := by
  by_cases hc : c
  · simp [hc]
  · simp [hc]

/-- There is no fault in settings exactly if they are as is asked. -/
theorem fault?_eq_none_iff {s : Settings} : s.fault? = none ↔ s.Valid := by
  simp only [fault?, ite_some_eq_none_iff, Bool.not_eq_true', Bool.not_eq_false,
    List.contains_iff_mem, and_true]
  constructor
  · rintro ⟨hteam, hevent, hconnect, hlevel, hformat, hrotation⟩
    exact ⟨hteam, one_le_iff.mpr hevent, one_le_iff.mpr hconnect, hlevel, hformat, hrotation⟩
  · rintro ⟨hteam, hevent, hconnect, hlevel, hformat, hrotation⟩
    exact ⟨hteam, one_le_iff.mp hevent, one_le_iff.mp hconnect, hlevel, hformat, hrotation⟩

theorem check_eq_ok_iff {s s' : Settings} : s.check = .ok s' ↔ s' = s ∧ s.Valid := by
  rw [← fault?_eq_none_iff, check]
  cases s.fault? with
  | some f => simp only [reduceCtorEq, and_false]
  | none => simp only [Except.ok.injEq, and_true, eq_comm]

/-- Settings that were loaded are valid. -/
theorem valid_of_load {read : YamlReader} {origin : Origin} {files : Files} {env : Environment}
    {s : Settings} (h : load read origin files env = .ok s) : s.Valid := by
  rw [load] at h
  cases hextract : extract read origin files env with
  | error f => simp only [hextract, reduceCtorEq] at h
  | ok extracted =>
      simp only [hextract] at h
      cases hcheck : extracted.check with
      | error f => rw [hcheck] at h; cases h
      | ok checked =>
          rw [hcheck] at h
          obtain rfl := Except.ok.inj h
          obtain ⟨rfl, hvalid⟩ := check_eq_ok_iff.mp hcheck
          exact hvalid

end JobHealth.Settings
