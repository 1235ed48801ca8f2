/-
# `JobHealth.Feed.Span` — lengths of time

Spans are exact to the nanosecond.  In a message a span is shown by its whole
seconds, so different spans may be shown alike.
-/

namespace JobHealth.Feed

/-- A length of time, in nanoseconds. -/
structure Span where
  nanoseconds : Nat
  deriving DecidableEq, Repr

namespace Span

instance : LE Span := ⟨fun s t => s.nanoseconds ≤ t.nanoseconds⟩

instance : DecidableLE Span := fun s t =>
  inferInstanceAs (Decidable (s.nanoseconds ≤ t.nanoseconds))

def ofSeconds (n : Nat) : Span := ⟨n * 1000000000⟩

/-- The whole seconds of a span. -/
def wholeSeconds (s : Span) : Nat := s.nanoseconds / 1000000000

theorem le_trans {s t u : Span} (h : s ≤ t) (h' : t ≤ u) : s ≤ u := Nat.le_trans h h'

end Span

end JobHealth.Feed
