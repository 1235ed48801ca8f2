import JobHealth.Settings
/-!
# `JobHealth.Settings.Decode` — settings out of a value without shape

A section is a record whose known members set its fields, or a list of its
fields' values in order; what is not mentioned keeps its value, and unknown
members do not count.  The members of a record are looked at in the order of
their names, and the first one that does not fit is the fault.

Readers differ in one point, and `Strictness` names it: whether a list may hold
more items than there are fields.
-/

namespace JobHealth.Settings

open JobHealth.Json

/-- A fault and the names on the way to where it is. -/
structure Misfit where
  path : List String
  fault : Json.Fault
  deriving DecidableEq, Repr

/-- The same fault, seen from further out. -/
def Misfit.within (name : String) (m : Misfit) : Misfit := ⟨name :: m.path, m.fault⟩

/-- The path of a misfit, its names joined by dots. -/
def Misfit.key (m : Misfit) : String := String.intercalate "." m.path

/-- Whether a list may hold more items than there are fields. -/
inductive Strictness where
  | exact
  | lenient
  deriving DecidableEq, Repr

/-- A field of a section: its name, and how a value sets it. -/
structure Slot (σ : Type) where
  name : String
  set : Value → σ → Except Misfit σ

/-- Sets a slot, and says where if that fails. -/
def Slot.fill (slot : Slot σ) (name : String) (v : Value) (s : σ) : Except Misfit σ :=
  (slot.set v s).mapError (Misfit.within name)

/-- Sets the slots that a record mentions, in the given order. -/
def fillMembers (members : List (String × Value)) : List (Slot σ) → σ → Except Misfit σ
  | [], s => .ok s
  | slot :: slots, s =>
    match lookupLast slot.name members with
    | none => fillMembers members slots s
    | some v =>
      match slot.fill slot.name v s with
      | .error m => .error m
      | .ok s => fillMembers members slots s

/-- Sets slots from the items of a list, one after the other, counting from `i`. -/
def fillItems : (i : Nat) → List (Slot σ) → List Value → σ → Except Misfit σ
  | _, [], _, s => .ok s
  | _, _ :: _, [], s => .ok s
  | i, slot :: slots, v :: vs, s =>
    match slot.fill i.repr v s with
    | .error m => .error m
    | .ok s => fillItems (i + 1) slots vs s

/-- A misfit of this very value. -/
def here (fault : Json.Fault) : Misfit := ⟨[], fault⟩

def byName (slots : List (Slot σ)) : List (Slot σ) :=
  slots.mergeSort fun a b => !(b.name < a.name)

/-- Sets a section, whose name stands in faults, from a value. -/
def fillSection (strictness : Strictness) (title : String) (slots : List (Slot σ)) (v : Value)
    (s : σ) : Except Misfit σ :=
  match v with
  | .record members => fillMembers members (byName slots) s
  | .list items =>
    match fillItems 0 slots items s with
    | .error m => .error m
    | .ok s =>
      if strictness = .exact && slots.length < items.length then
        .error (here (.invalidLength items.length "fewer elements in array"))
      else .ok s
  | v => .error (here (.invalidType v.found ("struct " ++ title)))

/-! ## Fields -/

def text (v : Value) : Except Misfit String :=
  match v with
  | .text s => .ok s
  | v => .error (here (.invalidType v.found "a string"))

def path? (v : Value) : Except Misfit (Option String) :=
  match v with
  | .null => .ok none
  | .text s => .ok (some s)
  | v => .error (here (.invalidType v.found "path string"))

/-- A whole number of so many bits.  Numbers that no 64-bit word holds are of another type. -/
def word (bits : Nat) (v : Value) : Except Misfit Nat :=
  let expected := "u" ++ bits.repr
  match v with
  | .number (.natural n) =>
    if n < Nat.pow 2 bits then .ok n
    else if n < Nat.pow 2 64 then .error (here (.invalidValue v.found expected))
    else .error (here (.invalidType v.found expected))
  | .number (.negative n) =>
    if n ≤ Nat.pow 2 63 then .error (here (.invalidValue v.found expected))
    else .error (here (.invalidType v.found expected))
  | v => .error (here (.invalidType v.found expected))

/-- A slot that holds what `read` makes of a value. -/
def slot (name : String) (read : Value → Except Misfit α) (put : σ → α → σ) : Slot σ :=
  ⟨name, fun v s => (read v).map (put s)⟩

def serverSlots : List (Slot ServerSettings) :=
  [ slot "team" text fun s x => { s with team := x }
  , slot "examine_limit" (word 32) fun s x => { s with examineLimit := UInt32.ofNat x }
  , slot "fetch_limit" (word 32) fun s x => { s with fetchLimit := UInt32.ofNat x }
  , slot "event_timeout_secs" (word 64) fun s x => { s with eventTimeout := UInt64.ofNat x }
  , slot "connect_timeout_secs" (word 64) fun s x => { s with connectTimeout := UInt64.ofNat x } ]

def logSlots : List (Slot LogSettings) :=
  [ slot "level" text fun s x => { s with level := x }
  , slot "format" text fun s x => { s with format := x }
  , slot "log_dir" path? fun s x => { s with directory := x }
  , slot "rotation" text fun s x => { s with rotation := x } ]

def sections (strictness : Strictness) : List (Slot Settings) :=
  [ ⟨"concourse", fun v s =>
      (fillSection strictness "ConcourseConfig" serverSlots v Settings.default.server).map
        fun x => { s with server := x }⟩
  , ⟨"logging", fun v s =>
      (fillSection strictness "LoggingConfig" logSlots v Settings.default.logging).map
        fun x => { s with logging := x }⟩ ]

/-- Settings out of a value; what it does not mention has its default. -/
def decode (strictness : Strictness) (v : Value) : Except Misfit Settings :=
  fillSection strictness "Config" (sections strictness) v Settings.default

end JobHealth.Settings
