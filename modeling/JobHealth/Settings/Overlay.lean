import JobHealth.Json.Value
/-!
# `JobHealth.Settings.Overlay` — one layer of settings over another

Two records are laid over each other member by member, and so on inward.  In
every other case the upper value takes the place of the lower one as a whole.
-/

namespace JobHealth.Settings

open JobHealth.Json

mutual

/-- The upper value laid over the lower one. -/
def overlay : (lower upper : Value) → Value
  | .record lower, .record upper =>
    .record (overlayMembers lower upper ++
      upper.filter fun (name, _) => (lookupLast name lower).isNone)
  | _, upper => upper

/-- The lower members, each with what the upper ones lay over it. -/
def overlayMembers : (lower upper : List (String × Value)) → List (String × Value)
  | [], _ => []
  | (name, v) :: rest, upper =>
    (name,
      match lookupLast name upper with
      | none => v
      | some u => overlay v u) :: overlayMembers rest upper

end

/-- Layers laid over each other, from the lowest to the highest. -/
def overlayAll (layers : List Value) : Value := layers.foldl overlay (.record [])

end JobHealth.Settings
