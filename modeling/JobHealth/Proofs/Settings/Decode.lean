import JobHealth.Proofs.Settings.Fields
/-!
# `JobHealth.Proofs.Settings.Decode` — settings are their nine fields

Settings have five fields on the server and four on logging.  A layer in which
both sections are records mentions a field if its section has a member of the
field's name.  Such a layer is decoded field by field, over the defaults, and is
a misfit exactly if a value that it mentions does not fit.
-/

namespace JobHealth.Settings

open JobHealth.Json

/-! ## The section of the server -/

inductive ServerField where
  | team
  | examineLimit
  | fetchLimit
  | eventTimeout
  | connectTimeout
  deriving DecidableEq, Repr

namespace ServerField

def all : List ServerField := [.team, .examineLimit, .fetchLimit, .eventTimeout, .connectTimeout]

def kind : ServerField → Kind
  | .team => .text
  | .examineLimit => .word 32
  | .fetchLimit => .word 32
  | .eventTimeout => .word 64
  | .connectTimeout => .word 64

def toSlot : ServerField → Slot ServerSettings
  | .team => slot "team" text fun s x => { s with team := x }
  | .examineLimit =>
    slot "examine_limit" (word 32) fun s x => { s with examineLimit := UInt32.ofNat x }
  | .fetchLimit => slot "fetch_limit" (word 32) fun s x => { s with fetchLimit := UInt32.ofNat x }
  | .eventTimeout =>
    slot "event_timeout_secs" (word 64) fun s x => { s with eventTimeout := UInt64.ofNat x }
  | .connectTimeout =>
    slot "connect_timeout_secs" (word 64) fun s x => { s with connectTimeout := UInt64.ofNat x }

/-- The value that a field has. -/
def shown : ServerField → ServerSettings → Value
  | .team, s => .text s.team
  | .examineLimit, s => numberValue s.examineLimit.toNat
  | .fetchLimit, s => numberValue s.fetchLimit.toNat
  | .eventTimeout, s => numberValue s.eventTimeout.toNat
  | .connectTimeout, s => numberValue s.connectTimeout.toNat

end ServerField

theorem numberValue_word32 {n : Nat} (h : n < UInt32.size) :
    numberValue (UInt32.ofNat n).toNat = numberValue n :=
  congrArg numberValue (UInt32.toNat_ofNat_of_lt' h)

theorem numberValue_word64 {n : Nat} (h : n < UInt64.size) :
    numberValue (UInt64.ofNat n).toNat = numberValue n :=
  congrArg numberValue (UInt64.toNat_ofNat_of_lt' h)

def serverTable : FieldTable ServerField ServerSettings where
  all := ServerField.all
  kind := ServerField.kind
  slot := ServerField.toSlot
  shown := ServerField.shown
  nodup_all := by decide
  mem_all := by
    intro f
    cases f <;> decide
  sets := by
    intro f
    cases f with
    | team => exact reader_text.sets (fun _ _ _ => rfl) fun _ => ⟨_, rfl, trivial⟩
    | examineLimit =>
        exact (reader_word 32).sets (fun _ _ h => numberValue_word32 h)
          fun s => ⟨_, rfl, s.examineLimit.toNat_lt⟩
    | fetchLimit =>
        exact (reader_word 32).sets (fun _ _ h => numberValue_word32 h)
          fun s => ⟨_, rfl, s.fetchLimit.toNat_lt⟩
    | eventTimeout =>
        exact (reader_word 64).sets (fun _ _ h => numberValue_word64 h)
          fun s => ⟨_, rfl, s.eventTimeout.toNat_lt⟩
    | connectTimeout =>
        exact (reader_word 64).sets (fun _ _ h => numberValue_word64 h)
          fun s => ⟨_, rfl, s.connectTimeout.toNat_lt⟩
  frame := by
    intro f v s s' h g hg
    cases f <;> obtain ⟨a, -, rfl⟩ := slot_set_eq_ok h <;> cases g <;>
      first
        | rfl
        | exact absurd rfl hg
  ext := by
    intro s s' h
    have hteam := Value.text.inj (h .team)
    have hexamine := Number.natural.inj (Value.number.inj (h .examineLimit))
    have hfetch := Number.natural.inj (Value.number.inj (h .fetchLimit))
    have hevent := Number.natural.inj (Value.number.inj (h .eventTimeout))
    have hconnect := Number.natural.inj (Value.number.inj (h .connectTimeout))
    rw [UInt32.toNat_inj] at hexamine hfetch
    rw [UInt64.toNat_inj] at hevent hconnect
    cases s
    cases s'
    exact ServerSettings.mk.injEq .. ▸ ⟨hteam, hexamine, hfetch, hevent, hconnect⟩

theorem serverSlots_eq : serverSlots = serverTable.all.map serverTable.slot := rfl

/-! ## The section of logging -/

inductive LogField where
  | level
  | format
  | directory
  | rotation
  deriving DecidableEq, Repr

namespace LogField

def all : List LogField := [.level, .format, .directory, .rotation]

def kind : LogField → Kind
  | .level => .text
  | .format => .text
  | .directory => .path
  | .rotation => .text

def toSlot : LogField → Slot LogSettings
  | .level => slot "level" text fun s x => { s with level := x }
  | .format => slot "format" text fun s x => { s with format := x }
  | .directory => slot "log_dir" path? fun s x => { s with directory := x }
  | .rotation => slot "rotation" text fun s x => { s with rotation := x }

/-- The value that a field has. -/
def shown : LogField → LogSettings → Value
  | .level, s => .text s.level
  | .format, s => .text s.format
  | .directory, s => pathValue s.directory
  | .rotation, s => .text s.rotation

end LogField

theorem pathValue_injective : Function.Injective pathValue := by
  intro d d' h
  cases d <;> cases d' <;> cases h <;> rfl

def logTable : FieldTable LogField LogSettings where
  all := LogField.all
  kind := LogField.kind
  slot := LogField.toSlot
  shown := LogField.shown
  nodup_all := by decide
  mem_all := by
    intro f
    cases f <;> decide
  sets := by
    intro f
    cases f with
    | level => exact reader_text.sets (fun _ _ _ => rfl) fun _ => ⟨_, rfl, trivial⟩
    | format => exact reader_text.sets (fun _ _ _ => rfl) fun _ => ⟨_, rfl, trivial⟩
    | directory => exact reader_path.sets (fun _ _ _ => rfl) fun _ => ⟨_, rfl, trivial⟩
    | rotation => exact reader_text.sets (fun _ _ _ => rfl) fun _ => ⟨_, rfl, trivial⟩
  frame := by
    intro f v s s' h g hg
    cases f <;> obtain ⟨a, -, rfl⟩ := slot_set_eq_ok h <;> cases g <;>
      first
        | rfl
        | exact absurd rfl hg
  ext := by
    intro s s' h
    have hlevel := Value.text.inj (h .level)
    have hformat := Value.text.inj (h .format)
    have hdirectory := pathValue_injective (h .directory)
    have hrotation := Value.text.inj (h .rotation)
    cases s
    cases s'
    exact LogSettings.mk.injEq .. ▸ ⟨hlevel, hformat, hdirectory, hrotation⟩

theorem logSlots_eq : logSlots = logTable.all.map logTable.slot := rfl

/-! ## All fields -/

inductive Field where
  | server (f : ServerField)
  | logging (f : LogField)
  deriving DecidableEq, Repr

namespace Field

/-- The name of the field's section. -/
def title : Field → String
  | .server _ => "concourse"
  | .logging _ => "logging"

def name : Field → String
  | .server f => f.toSlot.name
  | .logging f => f.toSlot.name

/-- The way to the field. -/
def path (f : Field) : List String := [f.title, f.name]

def kind : Field → Kind
  | .server f => f.kind
  | .logging f => f.kind

/-- The values that can be what the field has. -/
def Fits (f : Field) (v : Value) : Prop := f.kind.Fits v

/-- The value that the field has. -/
def shown : Field → Settings → Value
  | .server f, s => f.shown s.server
  | .logging f, s => f.shown s.logging

theorem fits_shown (f : Field) (s : Settings) : f.Fits (f.shown s) := by
  cases f with
  | server f => exact (serverTable.sets f).fits_shown s.server
  | logging f => exact (logTable.sets f).fits_shown s.logging

/-- What a layer mentions for the field. -/
def mentioned? (f : Field) (layer : Value) : Option Value :=
  (layer.get? f.title).bind (Value.get? f.name)

end Field

/-! ## Layers -/

/-- A record whose sections are records, if it has them. -/
def Sectioned (layer : Value) : Prop :=
  ∃ ms, layer = .record ms ∧
    ∀ (f : Field) (v : Value), lookupLast f.title ms = some v → ∃ fs, v = .record fs

/-- The members of a section, or none if it is missing. -/
def sectionMembers (title : String) (members : List (String × Value)) : List (String × Value) :=
  match lookupLast title members with
  | some (.record fs) => fs
  | _ => []

theorem get?_record (name : String) (members : List (String × Value)) :
    (Value.record members).get? name = lookupLast name members := rfl

theorem Field.mentioned?_record (f : Field) (ms : List (String × Value)) :
    f.mentioned? (.record ms) = lookupLast f.name (sectionMembers f.title ms) := by
  rw [mentioned?, get?_record, sectionMembers]
  cases lookupLast f.title ms with
  | none => rfl
  | some v => cases v <;> rfl

theorem fillMembers_empty {σ : Type} (slots : List (Slot σ)) (s : σ) :
    fillMembers [] slots s = .ok s := by
  induction slots with
  | nil => rfl
  | cons slot slots ih => exact ih

/-- A section that is a record, or missing, is filled from its members. -/
theorem fillMembers_section {σ τ : Type} {title name : String} {slots : List (Slot σ)} {start : σ}
    {members : List (String × Value)} {rest : List (Slot τ)} {s : τ} (put : τ → σ → τ)
    (hrecord : ∀ v, lookupLast title members = some v → ∃ fs, v = .record fs)
    (hput : put s start = s) :
    fillMembers members
        (⟨title, fun v s => (fillSection .lenient name slots v start).map (put s)⟩ :: rest) s =
      match fillMembers (sectionMembers title members) (byName slots) start with
      | .error m => .error (m.within title)
      | .ok x => fillMembers members rest (put s x) := by
  rw [fillMembers, sectionMembers]
  cases hv : lookupLast title members with
  | none =>
      rw [fillMembers_empty]
      exact congrArg (fillMembers members rest) hput.symm
  | some v =>
      obtain ⟨fs, rfl⟩ := hrecord v hv
      simp only [Slot.fill, fillSection]
      cases fillMembers fs (byName slots) start <;> rfl

theorem byName_sections (strictness : Strictness) :
    byName (sections strictness) = sections strictness := by
  refine List.mergeSort_of_pairwise (List.pairwise_pair.mpr ?_)
  show (!decide ("logging" < "concourse")) = true
  decide

/-- The server's section over its defaults. -/
def fillServer (members : List (String × Value)) : Except Misfit ServerSettings :=
  fillMembers (sectionMembers "concourse" members) (byName serverSlots) Settings.default.server

/-- The section of logging over its defaults. -/
def fillLogging (members : List (String × Value)) : Except Misfit LogSettings :=
  fillMembers (sectionMembers "logging" members) (byName logSlots) Settings.default.logging

/-- Settings are decoded section by section. -/
theorem decode_sectioned {ms : List (String × Value)} (h : Sectioned (.record ms)) :
    decode .lenient (.record ms) =
      match fillServer ms with
      | .error m => .error (m.within "concourse")
      | .ok server =>
        match fillLogging ms with
        | .error m => .error (m.within "logging")
        | .ok logging => .ok ⟨server, logging⟩ := by
  obtain ⟨_, hms, hrecord⟩ := h
  obtain rfl := Value.record.inj hms
  have hserver : ∀ v, lookupLast "concourse" ms = some v → ∃ fs, v = .record fs :=
    hrecord (.server .team)
  have hlogging : ∀ v, lookupLast "logging" ms = some v → ∃ fs, v = .record fs :=
    hrecord (.logging .level)
  rw [decode, fillSection, byName_sections, sections,
    fillMembers_section (fun (s : Settings) x => { s with server := x }) hserver rfl, ← fillServer]
  cases fillServer ms with
  | error m => rfl
  | ok server =>
      simp only
      rw [fillMembers_section (fun (s : Settings) x => { s with logging := x }) hlogging rfl,
        ← fillLogging]
      cases fillLogging ms <;> rfl

section
variable {ms : List (String × Value)}

theorem fillServer_eq_ok_iff {s : ServerSettings} :
    fillServer ms = .ok s ↔ ∀ f : ServerField,
      f.shown s = ((Field.server f).mentioned? (.record ms)).getD
        (f.shown Settings.default.server) := by
  rw [fillServer, serverSlots_eq, serverTable.fill_eq_ok_iff]
  simp only [Field.mentioned?_record]
  rfl

theorem fillLogging_eq_ok_iff {s : LogSettings} :
    fillLogging ms = .ok s ↔ ∀ f : LogField,
      f.shown s = ((Field.logging f).mentioned? (.record ms)).getD
        (f.shown Settings.default.logging) := by
  rw [fillLogging, logSlots_eq, logTable.fill_eq_ok_iff]
  simp only [Field.mentioned?_record]
  rfl

theorem fillServer_eq_error {m : Misfit} (h : fillServer ms = .error m) :
    ∃ (f : Field) (v : Value), f.mentioned? (.record ms) = some v ∧ ¬ f.Fits v ∧
      "concourse" :: m.path = f.path := by
  rw [fillServer, serverSlots_eq] at h
  obtain ⟨f, v, hmention, hfits, hpath⟩ := serverTable.fill_eq_error h
  refine ⟨.server f, v, ?_, hfits, congrArg ("concourse" :: ·) hpath⟩
  rw [Field.mentioned?_record]
  exact hmention

theorem fillLogging_eq_error {m : Misfit} (h : fillLogging ms = .error m) :
    ∃ (f : Field) (v : Value), f.mentioned? (.record ms) = some v ∧ ¬ f.Fits v ∧
      "logging" :: m.path = f.path := by
  rw [fillLogging, logSlots_eq] at h
  obtain ⟨f, v, hmention, hfits, hpath⟩ := logTable.fill_eq_error h
  refine ⟨.logging f, v, ?_, hfits, congrArg ("logging" :: ·) hpath⟩
  rw [Field.mentioned?_record]
  exact hmention

end

/-- Each field takes what the layer mentions for it, or its default. -/
theorem decode_eq_ok_iff {layer : Value} (h : Sectioned layer) {s : Settings} :
    decode .lenient layer = .ok s ↔
      ∀ f : Field, f.shown s = (f.mentioned? layer).getD (f.shown Settings.default) := by
  obtain ⟨ms, rfl, -⟩ := id h
  have hsections : decode .lenient (.record ms) = .ok s ↔
      fillServer ms = .ok s.server ∧ fillLogging ms = .ok s.logging := by
    rw [decode_sectioned h]
    cases s
    cases fillServer ms <;> cases fillLogging ms <;> simp
  rw [hsections, fillServer_eq_ok_iff, fillLogging_eq_ok_iff]
  constructor
  · rintro ⟨hserver, hlogging⟩ f
    cases f with
    | server f => exact hserver f
    | logging f => exact hlogging f
  · intro hfields
    exact ⟨fun f => hfields (.server f), fun f => hfields (.logging f)⟩

/-- A misfit is a value that the layer mentions and that does not fit its field. -/
theorem decode_eq_error {layer : Value} (h : Sectioned layer) {m : Misfit}
    (herror : decode .lenient layer = .error m) :
    ∃ (f : Field) (v : Value), f.mentioned? layer = some v ∧ ¬ f.Fits v ∧ m.path = f.path := by
  obtain ⟨ms, rfl, -⟩ := id h
  rw [decode_sectioned h] at herror
  cases hserver : fillServer ms with
  | error m' =>
      rw [hserver] at herror
      obtain rfl := Except.error.inj herror
      exact fillServer_eq_error hserver
  | ok server =>
      rw [hserver] at herror
      cases hlogging : fillLogging ms with
      | error m' =>
          rw [hlogging] at herror
          obtain rfl := Except.error.inj herror
          exact fillLogging_eq_error hlogging
      | ok logging =>
          rw [hlogging] at herror
          cases herror

end JobHealth.Settings
