import Mathlib.Data.List.Forall2
import JobHealth.Proofs.FirstFailure
/-!
# `JobHealth.Proofs.Lockstep` — two examinations that go side by side

Two sources that list the same builds are asked for the same page, and the same
builds are selected from it.  If reading a feed comes to the same fault on both
sides, or to outcomes on both, then the next feed is asked for on both sides or
on neither.  So the two examinations stop at the same place, and whatever
relates the outcomes build by build relates what is summed up at the end.

| step              | the two sides                                        |
| :---------------- | :--------------------------------------------------- |
| page, selection   | equal                                                |
| one visit         | `Alike`: the same fault, or outcomes that are related |
| all visits        | `visits_alike`, by induction on the selected builds   |
| the examination   | `examine_of_resembles`                               |
-/

namespace JobHealth

open JobHealth.Feed

/-- The same fault, or values that are related. -/
inductive Alike {α β : Type} (R : α → β → Prop) : Except Fault α → Except Fault β → Prop
  | fault (f : Fault) : Alike R (.error f) (.error f)
  | value {a : α} {b : β} : R a b → Alike R (.ok a) (.ok b)

theorem Alike.map {α β γ δ : Type} {R : α → β → Prop} {S : γ → δ → Prop} {f : α → γ} {g : β → δ}
    {x : Except Fault α} {y : Except Fault β} (h : Alike R x y)
    (hfg : ∀ a b, x = .ok a → R a b → S (f a) (g b)) : Alike S (x.map f) (y.map g) := by
  cases h with
  | fault f => exact .fault f
  | value hab => exact .value (hfg _ _ rfl hab)

theorem Alike.mono {α β : Type} {R S : α → β → Prop} {x : Except Fault α} {y : Except Fault β}
    (h : Alike R x y) (hRS : ∀ a b, R a b → S a b) : Alike S x y := by
  cases h with
  | fault f => exact .fault f
  | value hab => exact .value (hRS _ _ hab)

theorem alike_eq_iff {α : Type} {x y : Except Fault α} : Alike Eq x y ↔ x = y := by
  constructor
  · intro h
    cases h with
    | fault f => rfl
    | value hab => rw [hab]
  · rintro rfl
    cases x with
    | error f => exact .fault f
    | ok a => exact .value rfl

/-! ## The visits -/

/-- The same builds in the same order, with outcomes that are related. -/
abbrev OutcomesRelated (R : Build → Outcome → Outcome → Prop) :
    List (Build × Outcome) → List (Build × Outcome) → Prop :=
  List.Forall₂ fun x x' => x.1 = x'.1 ∧ R x.1 x.2 x'.2

/-- Visits side by side end at the same build, and leave the progress at the same place. -/
theorem visits_alike {s s' : Source} {timeout : Span} {R : Build → Outcome → Outcome → Prop}
    {builds : List Build}
    (h : ∀ b ∈ builds, ∀ before,
      Alike (R b) (visit s timeout before b).result (visit s' timeout before b).result)
    (before : Nat) :
    let vs := visits s timeout before builds
    let vs' := visits s' timeout before builds
    Alike (OutcomesRelated R) (outcomes vs) (outcomes vs') ∧
      vs.map Visit.build = vs'.map Visit.build ∧
      ∀ p, vs.foldl Progress.visit p = vs'.foldl Progress.visit p := by
  induction builds generalizing before with
  | nil => exact ⟨.value .nil, rfl, fun _ => rfl⟩
  | cons b builds ih =>
      obtain ⟨houtcomes, hbuilds, hprogress⟩ :=
        ih (fun c hc => h c (List.mem_cons_of_mem b hc)) (before + 1)
      have hbuild := visit_build s timeout before b
      have hbuild' := visit_build s' timeout before b
      have hhead := h b List.mem_cons_self before
      dsimp only
      generalize hresult : (visit s timeout before b).result = result at hhead
      generalize hresult' : (visit s' timeout before b).result = result' at hhead
      cases hhead with
      | fault f =>
          rw [visits_cons_error hresult, visits_cons_error hresult', outcomes_cons_error hresult,
            outcomes_cons_error hresult']
          refine ⟨.fault f, by rw [List.map_singleton, List.map_singleton, hbuild, hbuild'], ?_⟩
          intro p
          rw [List.foldl_cons, List.foldl_cons, Progress.visit_error hresult,
            Progress.visit_error hresult', hbuild, hbuild']
      | value ho =>
          rw [visits_cons_ok hresult, visits_cons_ok hresult', outcomes_cons_ok hresult,
            outcomes_cons_ok hresult']
          refine ⟨houtcomes.map fun os os' _ hos => ?_, ?_, fun p => ?_⟩
          · rw [hbuild, hbuild']
            exact .cons ⟨rfl, ho⟩ hos
          · rw [List.map_cons, List.map_cons, hbuild, hbuild', hbuilds]
          · rw [List.foldl_cons, List.foldl_cons, Progress.visit_ok hresult,
              Progress.visit_ok hresult', hbuild, hbuild', hprogress]

/-- Feeds are asked for of the given builds only. -/
theorem visits_subset (s : Source) (timeout : Span) (before : Nat) (builds : List Build) :
    (visits s timeout before builds).map Visit.build ⊆ builds := by
  induction builds generalizing before with
  | nil => exact fun _ h => h
  | cons b builds ih =>
      have hbuild := visit_build s timeout before b
      cases hvisit : (visit s timeout before b).result with
      | error f =>
          rw [visits_cons_error hvisit, List.map_singleton, hbuild]
          exact List.cons_subset_cons b (List.nil_subset builds)
      | ok o =>
          rw [visits_cons_ok hvisit, List.map_cons, hbuild]
          exact List.cons_subset_cons b (ih (before + 1))

theorem eq_of_outcomesRelated {examined examined' : List (Build × Outcome)}
    (h : OutcomesRelated (fun _ => Eq) examined examined') : examined = examined' := by
  induction h with
  | nil => rfl
  | cons hhead _ ih => rw [Prod.ext hhead.1 hhead.2, ih]

/-! ## The sources -/

/-- The sources give the same pages, of builds in the history only, and reading the feeds of these
comes to the same faults, or to outcomes that are related. -/
structure Source.Resembles (s s' : Source) (timeout : Span) (history : List Build)
    (R : Build → Outcome → Outcome → Prop) : Prop where
  base : s.baseUrl = s'.baseUrl
  page : ∀ before limit, (s.page before limit).result = (s'.page before limit).result
  listed : ∀ before limit page, (s'.page before limit).result = .ok page → page ⊆ history
  read : ∀ before, ∀ b ∈ history,
    Alike (R b) (visit s timeout before b).result (visit s' timeout before b).result

theorem mem_of_ofPage {page : List Build} {count : Nat} {selection : Selection}
    (h : Selection.ofPage page count = .ok selection) : selection.builds ⊆ page := by
  intro b hb
  rw [ofPage_eq_ok h] at hb
  have hcompleted := (List.mergeSort_perm _ _).mem_iff.mp ((front_sublist _ _).subset hb)
  rcases List.mem_append.mp hcompleted with hstatus | hstatus
  · exact (mem_withStatus.mp hstatus).1
  · exact (mem_withStatus.mp hstatus).1

section
variable {s s' : Source} {history : List Build}

theorem fetches_congr
    (h : ∀ before limit, (s.page before limit).result = (s'.page before limit).result)
    {limit : Nat} {limits : List Nat} {result : Except Fault (List Build)}
    (hfetch : Fetches s' limit limits result) : Fetches s limit limits result := by
  cases hfetch with
  | page hlimit => exact h 0 limit ▸ .page hlimit
  | noProbe hprobe => exact .noProbe ((h 0 1).trans hprobe)
  | neverRan hprobe => exact .neverRan ((h 0 1).trans hprobe)
  | notNumber hprobe hname => exact .notNumber ((h 0 1).trans hprobe) hname
  | @history latest older total hprobe hname =>
      exact h 1 total ▸ .history ((h 0 1).trans hprobe) hname

theorem listed_of_fetches
    (h : ∀ before limit page, (s.page before limit).result = .ok page → page ⊆ history)
    {limit : Nat} {limits : List Nat} {page : List Build}
    (hfetch : Fetches s limit limits (.ok page)) : page ⊆ history := by
  generalize hresult : (Except.ok page : Except Fault (List Build)) = result at hfetch
  cases hfetch with
  | page hlimit => exact h _ _ _ hresult.symm
  | history hprobe hname => exact h _ _ _ hresult.symm
  | _ => cases hresult

/-- The summaries are those of outcomes that are related, of the builds that were opened. -/
def SummariesRelated (R : Build → Outcome → Outcome → Prop) (colours : Bool) (base : String)
    (opened : List Build) (summary summary' : Summary) : Prop :=
  ∃ examined examined', OutcomesRelated R examined examined' ∧ examined.map Prod.fst = opened ∧
    summary = summarise colours base examined ∧ summary' = summarise colours base examined'

theorem examined_of_outcomes {timeout : Span} {before : Nat} {builds : List Build}
    {examined : List (Build × Outcome)}
    (h : outcomes (visits s timeout before builds) = .ok examined) :
    examined.map Prod.fst = (visits s timeout before builds).map Visit.build := by
  obtain ⟨hbuilds, hlogs⟩ := visits_ok h
  rw [← logsOf_map_fst, hlogs, feedLogs_map_fst, hbuilds]

/-- Examinations of sources that resemble each other ask for the same, stop at the same place and
end with the same fault, or with summaries of outcomes that are related. -/
theorem examine_of_resembles {q : Query} {R : Build → Outcome → Outcome → Prop}
    (h : s.Resembles s' q.timeout history R) (colours : Bool) (progress : Progress) :
    let e := examine s colours progress q
    let e' := examine s' colours progress q
    e.limits = e'.limits ∧ e.opened = e'.opened ∧ e.progress = e'.progress ∧
      e.opened ⊆ history ∧
      Alike (SummariesRelated R colours s'.baseUrl e.opened) e.result e'.result := by
  intro e e'
  have hfetch' : Fetches s' q.fetch _ _ := fetches_iff.mpr ⟨rfl, rfl⟩
  obtain ⟨hlimits, hresult⟩ := fetches_iff.mp (fetches_congr h.page hfetch')
  have hsame : e.limits = e'.limits :=
    (limits_examine colours progress).trans (hlimits.trans (limits_examine colours progress).symm)
  cases hpage : (fetchPage s' q.fetch).result with
  | error f =>
      rw [hpage] at hresult
      have he := examine_without_page colours progress hresult
      have he' := examine_without_page colours progress hpage
      simp only [e, e', he, he', hlimits, List.nil_subset, true_and]
      exact .fault f
  | ok page =>
      rw [hpage] at hresult hfetch'
      cases hsel : Selection.ofPage page q.examine with
      | error f =>
          have he := examine_without_selection colours progress hresult hsel
          have he' := examine_without_selection colours progress hpage hsel
          simp only [e, e', he, he', hlimits, List.nil_subset, true_and]
          exact .fault f
      | ok selection =>
          have hbuilds : selection.builds ⊆ history := fun b hb =>
            listed_of_fetches h.listed hfetch' (mem_of_ofPage hsel hb)
          obtain ⟨-, hr, ho, hp⟩ := examine_visits colours progress hresult hsel
          obtain ⟨-, hr', ho', hp'⟩ := examine_visits colours progress hpage hsel
          obtain ⟨houtcomes, hopened, hprogress⟩ :=
            visits_alike (fun b hb before => h.read before b (hbuilds hb))
              (fetchPage s q.fetch).limits.length
          rw [← hlimits] at hr' ho' hp'
          refine ⟨hsame, ho.trans (hopened.trans ho'.symm),
            hp.trans ((hprogress _).trans hp'.symm), ?_, ?_⟩
          · rw [ho]
            exact fun b hb => hbuilds (visits_subset s _ _ _ hb)
          · rw [ho, hr, hr', h.base]
            refine houtcomes.map fun examined examined' hexamined hrelated => ?_
            exact ⟨examined, examined', hrelated, examined_of_outcomes hexamined, rfl, rfl⟩

end

end JobHealth
