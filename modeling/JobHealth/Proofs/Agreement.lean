import JobHealth.Proofs.Lockstep
/-!
# `JobHealth.Proofs.Agreement` — sources that give the same are examined alike

What an examination does depends on a source through its address, its pages and
the feeds of the builds on them, and through nothing else.  So two sources that
agree on these give the same result, ask for the same and come as far; what
they note on the way is their own business.
-/

namespace JobHealth

open JobHealth.Feed

/-- The sources give the same pages, of builds in the history only, and the same feeds of these. -/
structure Source.Agrees (s s' : Source) (history : List Build) : Prop where
  base : s.baseUrl = s'.baseUrl
  page : ∀ before limit, (s.page before limit).result = (s'.page before limit).result
  listed : ∀ before limit page, (s'.page before limit).result = .ok page → page ⊆ history
  feed : ∀ before, ∀ b ∈ history, (s.feed before b).result = (s'.feed before b).result

section
variable {s s' : Source} {history : List Build}

theorem result_visit_congr {before : Nat} {b : Build}
    (h : (s.feed before b).result = (s'.feed before b).result) (timeout : Span) :
    (visit s timeout before b).result = (visit s' timeout before b).result := by
  rw [visit, visit, h]
  cases (s'.feed before b).result with
  | error f => rfl
  | ok feed => rfl

/-- Sources that agree resemble each other, with equal outcomes. -/
theorem resembles_of_agrees (h : s.Agrees s' history) (timeout : Span) :
    s.Resembles s' timeout history fun _ => Eq where
  base := h.base
  page := h.page
  listed := h.listed
  read := fun before b hb => alike_eq_iff.mpr (result_visit_congr (h.feed before b hb) timeout)

/-- An examination does not tell apart sources that agree, and opens feeds of the history only. -/
theorem examine_of_agrees (h : s.Agrees s' history) (colours : Bool) (progress : Progress)
    (q : Query) :
    let e := examine s colours progress q
    let e' := examine s' colours progress q
    e.result = e'.result ∧ e.limits = e'.limits ∧ e.opened = e'.opened ∧
      e.progress = e'.progress ∧ e.opened ⊆ history := by
  intro e e'
  obtain ⟨hlimits, hopened, hprogress, hsubset, hresult⟩ :=
    examine_of_resembles (resembles_of_agrees h q.timeout) colours progress
  refine ⟨alike_eq_iff.mp (hresult.mono ?_), hlimits, hopened, hprogress, hsubset⟩
  rintro _ _ ⟨examined, examined', hrelated, -, rfl, rfl⟩
  rw [eq_of_outcomesRelated hrelated]

end

end JobHealth
