import JobHealth.Proofs.Json.Sound
/-!
# `JobHealth.Proofs.Json.Forms` — the two forms of a record

A record of a shape stands in a text in one of two forms: as members in braces,
in any order and with others among them, or as a list of the fields' values in
order, of which the last ones may be absent if they have fallbacks.

| form    | one part           | all parts                     | what it says |
| :------ | :----------------- | :---------------------------- | :----------- |
| members | `Takes`            | `members_of_readFields`       | `lookup_of_takesAll` |
| slots   | `readSlots_slot`   | `fills_of_readSlots`, `readSlots_items` | `Fills` |

Both forms are read from one part to the next, with a comma in front of each but
the first one; `lead` stands for it.
-/

namespace JobHealth.Json

/-! ## Members -/

theorem rawText_of_field {kind : Kind} {v : Field} {t : List Char} (h : FieldText kind v t) :
    RawText t t := by
  cases h with
  | text hs => exact rawText_spelled hs
  | word64 hx => exact ⟨rfl, 0, _, loose_of_exact (.number hx)⟩
  | free hv => exact ⟨rfl, _, _, loose_of_exact hv⟩

section
variable {shape : Shape}

theorem takes_of_readNamed {seen seen' : Fields} {name : String} {cs rest : List Char}
    (h : readNamed shape seen name cs = .ok (seen', rest)) :
    ∃ g g' t, Gap g ∧ Gap g' ∧ RawText t t ∧ Takes shape seen (name, t) seen' ∧
      cs = g ++ ':' :: g' ++ t ++ rest := by
  unfold readNamed at h
  split at h
  · next hf =>
    obtain ⟨r, hmark, h⟩ := bind_eq_ok.mp h
    obtain ⟨r', hskip, h⟩ := bind_eq_ok.mp h
    cases h
    obtain ⟨g, hg, rfl⟩ := eq_of_readMark hmark
    obtain ⟨g', t, hg', ht, rfl⟩ := raw_of_skipValue hskip
    exact ⟨g, g', t, hg, hg', ht, .other hf, by simp⟩
  · next f hf =>
    split at h
    · cases h
    · next hnew =>
      have hlookup : seen.lookup name = none := Option.not_isSome_iff_eq_none.mp hnew
      obtain ⟨r, hmark, h⟩ := bind_eq_ok.mp h
      obtain ⟨⟨v, r'⟩, hread, h⟩ := bind_eq_ok.mp h
      cases h
      obtain ⟨g, hg, rfl⟩ := eq_of_readMark hmark
      obtain ⟨g', t, hg', ht, rfl⟩ := sound_kindRead f.kind hread
      exact ⟨g, g', t, hg, hg', rawText_of_field ht, .known hf hlookup ht, by simp⟩

/-- What is read of a record up to its closing brace is members in a row, behind any lead. -/
theorem members_of_readFields {fuel : Nat} {first : Bool} {seen seen' : Fields}
    {cs rest : List Char} (h : readFields shape fuel first seen cs = .ok (seen', rest)) :
    ∃ g, Gap g ∧ (seen' = seen ∧ cs = g ++ '\x7d' :: rest ∨
      ∃ ms g' t, Gap g' ∧ ItemsText (MemberText spelled RawText) ms t ∧
        TakesAll shape seen ms seen' ∧ cs = g ++ lead first ++ g' ++ t ++ '\x7d' :: rest) := by
  induction fuel generalizing first seen cs with
  | zero => cases h
  | succ fuel ih =>
      rw [readFields] at h
      dsimp only at h
      split at h
      · cases h
      · next c r hgap =>
        obtain ⟨g, hg, rfl⟩ := eq_of_skipGap hgap
        refine ⟨g, hg, ?_⟩
        split at h
        · next hc =>
          cases h
          exact Or.inl ⟨rfl, by rw [hc]⟩
        · split at h
          · cases h
          · next hlead =>
            obtain ⟨⟨name, r'⟩, hname, hmore⟩ := bind_eq_ok.mp h
            obtain ⟨⟨seen₁, r''⟩, hnamed, hnext⟩ := bind_eq_ok.mp hmore
            obtain ⟨g', n, hg', hn, hcs⟩ := name_of_readName hname
            obtain ⟨g₁, g₂, t, hg₁, hg₂, ht, htakes, rfl⟩ := takes_of_readNamed hnamed
            have hstart : c :: r =
                lead first ++ g' ++ ('"' :: n ++ '"' :: g₁ ++ ':' :: g₂ ++ t ++ r'') := by
              cases first with
              | true => simpa [lead] using hcs
              | false =>
                  obtain rfl : c = ',' := by simpa using hlead
                  simpa [lead] using hcs
            have hmember : MemberText spelled RawText (name, t) _ := .mk hn hg₁ hg₂ ht
            obtain ⟨g₃, hg₃, ⟨rfl, rfl⟩ | ⟨ms, g₄, ts, hg₄, hts, hall, rfl⟩⟩ := ih hnext
            · exact Or.inr ⟨[(name, t)], g', _, hg', .last hmember hg₃, .cons htakes .nil,
                by rw [hstart]; simp⟩
            · exact Or.inr ⟨(name, t) :: ms, g', _, hg', .more hmember hg₃ hg₄ hts,
                .cons htakes hall, by rw [hstart]; simp [lead]⟩

theorem body_of_readFields {fuel : Nat} {seen : Fields} {cs rest : List Char}
    (h : readFields shape fuel true [] cs = .ok (seen, rest)) :
    ∃ ms t, BodyText (MemberText spelled RawText) ms t ∧ TakesAll shape [] ms seen ∧
      cs = t ++ '\x7d' :: rest := by
  obtain ⟨g, hg, ⟨rfl, rfl⟩ | ⟨ms, g', t, hg', hms, hall, rfl⟩⟩ := members_of_readFields h
  · exact ⟨[], g, .empty hg, .nil, rfl⟩
  · exact ⟨ms, _, .items (gap_append hg hg') hms, hall, by simp [lead]⟩

/-- What is seen of a field behind some members: what was seen before, if none of them has its
name, or what the only one that has says. -/
theorem lookup_of_takesAll {seen seen' : Fields} {ms : Members} (h : TakesAll shape seen ms seen')
    {name : String} {f : FieldShape} (hf : shape.field? name = some f) :
    seen'.lookup name = seen.lookup name ∧ valuesOf name ms = [] ∨
      seen.lookup name = none ∧ ∃ t v, valuesOf name ms = [t] ∧ seen'.lookup name = some v ∧
        FieldText f.kind v t := by
  induction h with
  | nil => exact Or.inl ⟨rfl, rfl⟩
  | @cons seen seen₁ seen₂ m ms hm _ ih =>
      cases hm with
      | @other name' t hother =>
          have hne : name' ≠ name := by
            rintro rfl
            rw [hf] at hother
            cases hother
          rwa [valuesOf_cons_of_ne hne]
      | @known name' t f' v hf' hnew ht =>
          by_cases hname : name' = name
          · subst hname
            obtain rfl := Option.some.inj (hf.symm.trans hf')
            rw [lookup_append_self hnew] at ih
            rcases ih with ⟨hlookup, hnone⟩ | ⟨hnone, -⟩
            · refine Or.inr ⟨hnew, t, v, ?_, hlookup, ht⟩
              rw [valuesOf_cons_self, hnone]
            · cases hnone
          · rw [valuesOf_cons_of_ne hname]
            rwa [lookup_append_of_ne hname] at ih

/-! ## Slots -/

/-- The fields that the texts of a list's items say, with the fallbacks of those behind them. -/
inductive Fills : List FieldShape → List (List Char) → Fields → Prop
  | rest {fs : List FieldShape} {vs : Fields} : complete [] fs = .ok vs → Fills fs [] vs
  | slot {f : FieldShape} {fs : List FieldShape} {t : List Char} {ts : List (List Char)} {v : Field}
      {vs : Fields} : FieldText f.kind v t → Fills fs ts vs →
      Fills (f :: fs) (t :: ts) ((f.name, v) :: vs)

theorem fills_of_readSlots {fs : List FieldShape} {done : Nat} {vs : Fields} {cs rest : List Char}
    (h : readSlots shape done fs cs = .ok (vs, rest)) :
    ∃ g, Gap g ∧ (Fills fs [] vs ∧ cs = g ++ ']' :: rest ∨
      ∃ ts g' t, Gap g' ∧ ItemsText RawText ts t ∧ Fills fs ts vs ∧
        cs = g ++ lead (done == 0) ++ g' ++ t ++ ']' :: rest) := by
  induction fs generalizing done vs cs with
  | nil =>
      obtain ⟨r, hmark, h⟩ := bind_eq_ok.mp h
      cases h
      obtain ⟨g, hg, rfl⟩ := eq_of_readMark hmark
      exact ⟨g, hg, Or.inl ⟨.rest rfl, rfl⟩⟩
  | cons f fs ih =>
      rw [readSlots] at h
      dsimp only at h
      split at h
      · cases h
      · next c r hgap =>
        obtain ⟨g, hg, rfl⟩ := eq_of_skipGap hgap
        refine ⟨g, hg, ?_⟩
        split at h
        · next hc =>
          split at h
          · obtain ⟨vs', hvs, h⟩ := bind_eq_ok.mp h
            cases h
            exact Or.inl ⟨.rest hvs, by rw [hc]⟩
          · cases h
        · split at h
          · cases h
          · next hlead =>
            generalize hitem : (if 0 < done then skipGap r else c :: r) = start at h
            split at h
            · cases h
            · obtain ⟨⟨v, r'⟩, hread, hmore⟩ := bind_eq_ok.mp h
              obtain ⟨⟨vs', r''⟩, hslots, hdone⟩ := bind_eq_ok.mp hmore
              cases hdone
              obtain ⟨g₁, t, hg₁, ht, hcs⟩ := sound_kindRead f.kind hread
              obtain ⟨g', hg', hstart⟩ : ∃ g', Gap g' ∧
                  c :: r = lead (done == 0) ++ g' ++ t ++ r' := by
                cases done with
                | zero => exact ⟨g₁, hg₁, hitem.trans hcs⟩
                | succ done =>
                    obtain ⟨g₂, hg₂, hr⟩ := exists_gap r
                    obtain rfl : c = ',' := by simpa using hlead
                    rw [if_pos (Nat.succ_pos done)] at hitem
                    refine ⟨g₂ ++ g₁, gap_append hg₂ hg₁, ?_⟩
                    rw [hr, hitem, hcs]
                    simp [lead]
              have hraw := rawText_of_field ht
              obtain ⟨g₃, hg₃, ⟨hfills, rfl⟩ | ⟨ts, g₄, ts', hg₄, hts, hfills, rfl⟩⟩ := ih hslots
              · exact Or.inr ⟨[t], g', _, hg', .last hraw hg₃, .slot ht hfills,
                  by rw [hstart]; simp⟩
              · exact Or.inr ⟨t :: ts, g', _, hg', .more hraw hg₃ hg₄ hts, .slot ht hfills,
                  by rw [hstart]; simp [lead]⟩

theorem body_of_readSlots {fs : List FieldShape} {vs : Fields} {cs rest : List Char}
    (h : readSlots shape 0 fs cs = .ok (vs, rest)) :
    ∃ ts t, BodyText RawText ts t ∧ Fills fs ts vs ∧ cs = t ++ ']' :: rest := by
  obtain ⟨g, hg, ⟨hfills, rfl⟩ | ⟨ts, g', t, hg', hts, hfills, rfl⟩⟩ := fills_of_readSlots h
  · exact ⟨[], g, .empty hg, hfills, rfl⟩
  · exact ⟨ts, _, .items (gap_append hg hg') hts, hfills, by simp [lead]⟩

theorem all_fallback_of_complete {fs : List FieldShape} {vs : Fields}
    (h : complete [] fs = .ok vs) : (fs.all fun f => f.fallback.isSome) = true := by
  induction fs generalizing vs with
  | nil => rfl
  | cons f fs ih =>
      cases hfallback : f.fallback with
      | none =>
          simp only [complete, List.lookup_nil, hfallback] at h
          cases h
      | some v =>
          simp only [complete, List.lookup_nil, hfallback] at h
          obtain ⟨_, -, h⟩ := bind_eq_ok.mp h
          obtain ⟨vs', hvs, -⟩ := bind_eq_ok.mp h
          rw [List.all_cons, ih hvs, hfallback]
          rfl

theorem readSlots_close {fs : List FieldShape} {vs : Fields} (h : complete [] fs = .ok vs)
    {g : List Char} (hg : Gap g) (done : Nat) (rest : List Char) :
    readSlots shape done fs (g ++ ']' :: rest) = .ok (vs, rest) := by
  cases fs with
  | nil =>
      obtain rfl := Except.ok.inj h
      exact bind_eq_ok.mpr ⟨rest, readMark_text hg (by decide) rest, rfl⟩
  | cons f fs =>
      rw [readSlots]
      dsimp only
      rw [skipGap_token hg (by decide)]
      dsimp only
      rw [if_pos rfl, if_pos (all_fallback_of_complete h)]
      exact bind_eq_ok.mpr ⟨vs, h, rfl⟩

/-- One slot and then the others, behind any lead. -/
theorem readSlots_slot {f : FieldShape} {v : Field} {t g g' rest : List Char}
    (ht : FieldText f.kind v t) (hg : Gap g) (hg' : Gap g') (hrest : Follows rest) (done : Nat)
    (fs : List FieldShape) :
    readSlots shape done (f :: fs) (g ++ lead (done == 0) ++ g' ++ t ++ rest) =
      (readSlots shape (done + 1) fs rest).map fun (vs, rest) => ((f.name, v) :: vs, rest) := by
  obtain ⟨-, depth, x, hx⟩ := rawText_of_field ht
  obtain ⟨c, cs, rfl, hc, hstop⟩ := begun_valueText loose depth hx
  have hread := reads_kindRead f.kind ht gap_nil hrest
  rw [List.nil_append, List.cons_append] at hread
  have hne : c ≠ ']' := fun h => hstop (h ▸ Or.inr (Or.inl rfl))
  have hskip : ∀ {g}, Gap g → skipGap (g ++ (c :: cs ++ rest)) = c :: (cs ++ rest) := fun hg =>
    skipGap_token hg hc _
  rw [readSlots]
  dsimp only
  cases done with
  | zero =>
      have happ : g ++ lead (0 == 0) ++ g' ++ (c :: cs) ++ rest =
          (g ++ g') ++ (c :: cs ++ rest) := by
        simp [lead]
      rw [happ, hskip (gap_append hg hg')]
      dsimp only
      rw [if_neg hne, if_neg (by simp), if_neg (Nat.lt_irrefl 0), if_neg (by simpa using hne),
        hread]
      show (readSlots shape 1 fs rest >>= _) = _
      cases readSlots shape 1 fs rest <;> rfl
  | succ done =>
      have happ : g ++ lead (done + 1 == 0) ++ g' ++ (c :: cs) ++ rest =
          g ++ ',' :: (g' ++ (c :: cs ++ rest)) := by
        simp [lead]
      rw [happ, skipGap_token hg (by decide)]
      dsimp only
      rw [if_neg (by decide), if_neg (by simp), if_pos (Nat.succ_pos done), hskip hg',
        if_neg (by simpa using hne), hread]
      show (readSlots shape (done + 1 + 1) fs rest >>= _) = _
      cases readSlots shape (done + 1 + 1) fs rest <;> rfl

theorem readSlots_items {ts : List (List Char)} {t : List Char} (h : ItemsText RawText ts t)
    {fs : List FieldShape} {vs : Fields} (hfills : Fills fs ts vs) (done : Nat) {g g' : List Char}
    (hg : Gap g) (hg' : Gap g') (rest : List Char) :
    readSlots shape done fs (g ++ lead (done == 0) ++ g' ++ t ++ ']' :: rest) = .ok (vs, rest) := by
  induction h generalizing fs vs done g g' with
  | @last raw t g'' hraw hg'' =>
      cases hfills with
      | slot ht hfills =>
          cases hfills with
          | rest hvs =>
              obtain rfl := hraw.1
              have hfollows := follows_stop hg'' (Or.inr (Or.inl rfl) : IsStop ']') rest
              have happ : g ++ lead (done == 0) ++ g' ++ (t ++ g'') ++ ']' :: rest =
                  g ++ lead (done == 0) ++ g' ++ t ++ (g'' ++ ']' :: rest) := by simp
              rw [happ, readSlots_slot ht hg hg' hfollows, readSlots_close hvs hg'']
              rfl
  | @more raw ts t g₁ g₂ ts' hraw hg₁ hg₂ _ ih =>
      cases hfills with
      | slot ht hfills =>
          obtain rfl := hraw.1
          have hfollows := follows_stop hg₁ (Or.inl rfl) (g₂ ++ ts' ++ ']' :: rest)
          have happ : g ++ lead (done == 0) ++ g' ++ (t ++ g₁ ++ ',' :: g₂ ++ ts') ++ ']' :: rest =
              g ++ lead (done == 0) ++ g' ++ t ++ (g₁ ++ ',' :: (g₂ ++ ts' ++ ']' :: rest)) := by
            simp
          have hnext := ih hfills (done + 1) hg₁ hg₂
          have hlead : g₁ ++ lead (done + 1 == 0) ++ g₂ ++ ts' ++ ']' :: rest =
              g₁ ++ ',' :: (g₂ ++ ts' ++ ']' :: rest) := by simp [lead]
          rw [happ, readSlots_slot ht hg hg' hfollows, ← hlead, hnext]
          rfl

end

end JobHealth.Json
