import JobHealth.Proofs.Text.Lines
import JobHealth.Url.Parse
/-!
# `JobHealth.Proofs.Url.Appended` — plain paths behind the address of a server

A path of slashes, letters, digits, hyphens and underscores that is written
behind the address of a server stays as it is: the URL of the whole has the
path's segments at its end, with the same in front of them for every such path,
and no query.

| stage                | what the appended text does there             |
| :------------------- | :-------------------------------------------- |
| significant text     | it keeps the blanks that end the address      |
| scheme, query        | nothing                                       |
| authority            | its first slash ends it                       |
| segments             | they are its own, and no dots take them back  |
-/

namespace JobHealth.Url

open JobHealth.Text

variable {toAscii : ToAscii}

/-! ## Plain texts -/

/-- A slash, or a character that no part of a URL gives a meaning to. -/
def isPlain (c : Char) : Bool := c == '/' || isLetter c || c.isDigit || c == '-' || c == '_'

def Plain (cs : List Char) : Prop := ∀ c ∈ cs, isPlain c = true

instance (cs : List Char) : Decidable (Plain cs) := List.decidableBAll _ cs

theorem toNat_lt_of_isPlain {c : Char} (h : isPlain c = true) : c.toNat < 123 := by
  simp only [isPlain, isLetter, Char.isDigit, Bool.or_eq_true, Bool.and_eq_true, beq_iff_eq,
    decide_eq_true_eq, Char.le_def, UInt32.le_iff_toNat_le] at h
  rcases h with ((((rfl | ⟨-, h⟩ | ⟨-, h⟩) | ⟨-, h⟩) | rfl) | rfl)
  all_goals first | decide | exact Nat.lt_of_le_of_lt h (by decide)

/-- What holds of the plain characters among the first of ASCII holds of all of them. -/
theorem forall_isPlain {p : Char → Prop}
    (h : ∀ n : Fin 123, isPlain (Char.ofNat n) = true → p (Char.ofNat n)) {c : Char}
    (hc : isPlain c = true) : p c := by
  have hchar : Char.ofNat c.toNat = c := Char.ofNat_toNat c
  have hplain := h ⟨c.toNat, toNat_lt_of_isPlain hc⟩
  rw [hchar] at hplain
  exact hplain hc

theorem isEdge_of_isPlain {c : Char} (h : isPlain c = true) : isEdge c = false :=
  forall_isPlain (p := fun c => isEdge c = false) (by decide +kernel) h

theorem isSkipped_of_isPlain {c : Char} (h : isPlain c = true) : isSkipped c = false :=
  forall_isPlain (p := fun c => isSkipped c = false) (by decide +kernel) h

theorem inPath_of_isPlain {c : Char} (h : isPlain c = true) : inPath c = false :=
  forall_isPlain (p := fun c => inPath c = false) (by decide +kernel) h

theorem Plain.not_mem {cs : List Char} (h : Plain cs) {c : Char} (hc : isPlain c = false) :
    c ∉ cs := by
  intro hmem
  rw [h c hmem] at hc
  cases hc

theorem Plain.append {cs ds : List Char} (hcs : Plain cs) (hds : Plain ds) : Plain (cs ++ ds) :=
  fun c hc => (List.mem_append.mp hc).elim (hcs c) (hds c)

theorem Plain.percentEncode_eq {cs : List Char} (h : Plain cs) : percentEncode inPath cs = cs := by
  induction cs with
  | nil => rfl
  | cons c cs ih =>
      obtain ⟨hc, hcs⟩ := List.forall_mem_cons.mp h
      have hkept : ¬ inPath c = true := by simp [inPath_of_isPlain hc]
      have hrest := ih hcs
      rw [percentEncode] at hrest ⊢
      rw [List.flatMap_cons, if_neg hkept, hrest]
      rfl

/-- A plain segment is no dots: the empty one is a segment of its own. -/
theorem Plain.dotCount?_eq {cs : List Char} (h : Plain cs) :
    dotCount? cs = if cs = [] then some 0 else none := by
  cases cs with
  | nil => rfl
  | cons c cs =>
      have hdot : c ≠ '.' := fun e => h.not_mem (c := '.') (by decide) (e ▸ List.mem_cons_self)
      have hpercent : c ≠ '%' := fun e => h.not_mem (c := '%') (by decide) (e ▸ List.mem_cons_self)
      rw [if_neg (List.cons_ne_nil c cs), dotCount?]
      all_goals simp [hdot, hpercent]

/-! ## The significant text -/

/-- Nothing is cut off a text that ends with no blank. -/
theorem trimmed_append {cs : List Char} (hne : cs ≠ []) (h : Plain cs) (front : List Char) :
    ((front ++ cs).reverse.dropWhile isEdge).reverse = front ++ cs := by
  have hback : cs.reverse ≠ [] := mt List.reverse_eq_nil_iff.mp hne
  obtain ⟨c, rest, hc⟩ := List.exists_cons_of_ne_nil hback
  have hplain : isPlain c = true := h c (List.mem_reverse.mp (hc ▸ List.mem_cons_self))
  have hedge : ¬ isEdge c = true := by simp [isEdge_of_isPlain hplain]
  rw [List.reverse_append, hc, List.cons_append, List.dropWhile_cons, if_neg hedge,
    ← List.cons_append, ← hc, ← List.reverse_append, List.reverse_reverse]

/-- The blanks that end a text, as far as they count once something stands behind them. -/
def blanksBehind (base : List Char) : List Char :=
  ((base.dropWhile isEdge).reverse.takeWhile isEdge).reverse.filter fun c => !isSkipped c

theorem isEdge_of_mem_blanksBehind (base : List Char) :
    ∀ c ∈ blanksBehind base, isEdge c = true := by
  intro c hc
  have hback := List.mem_reverse.mp (List.mem_filter.mp hc).1
  exact List.all_eq_true.mp List.all_takeWhile c hback

/-- The significant text of an address goes on with what is appended, behind the blanks that ended
the address. -/
theorem significant_append (base : List Char) {cs : List Char} (hcs : Plain cs) :
    significant (base ++ '/' :: cs) = significant base ++ blanksBehind base ++ '/' :: cs := by
  let kept := base.dropWhile isEdge
  let significant? := fun c => !isSkipped c
  have hkept : (kept.reverse.dropWhile isEdge).reverse ++ (kept.reverse.takeWhile isEdge).reverse =
      kept := by
    rw [← List.reverse_append, List.takeWhile_append_dropWhile, List.reverse_reverse]
  have hplain : Plain ('/' :: cs) := List.forall_mem_cons.mpr ⟨by decide, hcs⟩
  have hfront : (base ++ '/' :: cs).dropWhile isEdge = kept ++ '/' :: cs := by
    rw [List.dropWhile_append]
    split
    · next hempty =>
      have hnil : kept = [] := List.isEmpty_iff.mp hempty
      rw [hnil]
      rfl
    · rfl
  have hfilter : ('/' :: cs).filter significant? = '/' :: cs :=
    List.filter_eq_self.mpr fun c hc => by simp [significant?, isSkipped_of_isPlain (hplain c hc)]
  rw [significant, hfront, trimmed_append (List.cons_ne_nil '/' cs) hplain, List.filter_append,
    hfilter, significant, blanksBehind, ← List.filter_append, hkept]

/-! ## The scheme -/

theorem cutScheme?_eq_some {cs scheme rest : List Char} (h : cutScheme? cs = some (scheme, rest)) :
    ∃ c name, cs = c :: (name ++ ':' :: rest) ∧ isLetter c = true ∧
      (∀ d ∈ name, inScheme d = true) ∧ scheme = small c :: name.map small := by
  cases cs with
  | nil => cases h
  | cons c cs =>
      rw [cutScheme?] at h
      split at h
      · next hletter =>
        split at h
        · next behind hbehind =>
          obtain ⟨rfl, rfl⟩ := Prod.mk.inj (Option.some.inj h)
          refine ⟨c, cs.takeWhile inScheme, ?_, hletter, fun d hd => ?_, rfl⟩
          · rw [← hbehind, List.takeWhile_append_dropWhile]
          · exact List.all_eq_true.mp List.all_takeWhile d hd
        · cases h
      · cases h

theorem cutScheme?_append {cs scheme rest : List Char} (h : cutScheme? cs = some (scheme, rest))
    (more : List Char) : cutScheme? (cs ++ more) = some (scheme, rest ++ more) := by
  obtain ⟨c, name, rfl, hletter, hname, rfl⟩ := cutScheme?_eq_some h
  have hcolon : inScheme ':' = false := by decide
  rw [List.cons_append, List.append_assoc, cutScheme?, if_pos hletter,
    List.dropWhile_append_of_pos hname, List.takeWhile_append_of_pos hname]
  simp [hcolon]

/-! ## Query and fragment -/

theorem cutParts_plain {cs : List Char} (hquery : '?' ∉ cs) (hfragment : '#' ∉ cs) :
    cutParts cs = (cs, none, none) := by
  simp only [cutParts, cutAt?_eq_none_iff.mpr hfragment, cutAt?_eq_none_iff.mpr hquery]

theorem not_mem_of_cutParts {cs : List Char} (hquery : (cutParts cs).2.1 = none)
    (hfragment : (cutParts cs).2.2 = none) : '?' ∉ cs ∧ '#' ∉ cs := by
  rw [cutParts] at hquery hfragment
  cases hhash : cutAt? '#' cs with
  | some cut =>
      simp only [hhash] at hfragment
      split at hfragment <;> cases hfragment
  | none =>
      refine ⟨fun hmem => ?_, cutAt?_eq_none_iff.mp hhash⟩
      cases hmark : cutAt? '?' cs with
      | none => exact cutAt?_eq_none_iff.mp hmark hmem
      | some cut =>
          simp only [hhash, hmark] at hquery
          cases hquery

/-! ## Segments -/

theorem splitSlashes_ne_nil (special : Bool) (cs : List Char) : splitSlashes special cs ≠ [] := by
  cases cs with
  | nil => exact nofun
  | cons c cs =>
      rw [splitSlashes]
      split
      · exact nofun
      · split <;> exact nofun

theorem splitSlashes_append {special : Bool} {c : Char} (hc : isSlash special c = true)
    (xs ys : List Char) :
    splitSlashes special (xs ++ c :: ys) = splitSlashes special xs ++ splitSlashes special ys := by
  induction xs with
  | nil => simp only [List.nil_append, List.cons_append, splitSlashes, if_pos hc]
  | cons x xs ih =>
      rw [List.cons_append, splitSlashes, splitSlashes]
      split
      · rw [ih, List.cons_append]
      · rw [ih]
        obtain ⟨p, ps, hps⟩ := List.exists_cons_of_ne_nil (splitSlashes_ne_nil special xs)
        rw [hps]
        rfl

/-- Without a backslash, only slashes split a text. -/
theorem splitSlashes_eq_pieces {cs : List Char} (h : Plain cs) :
    splitSlashes true cs = pieces '/' cs := by
  induction cs with
  | nil => rfl
  | cons c cs ih =>
      obtain ⟨hc, hcs⟩ := List.forall_mem_cons.mp h
      have hback : c ≠ '\\' := by
        rintro rfl
        exact absurd hc (by decide)
      rw [splitSlashes, pieces, ih hcs]
      by_cases hslash : c = '/'
      · rw [if_pos hslash, if_pos (by simp [isSlash, hslash])]
      · have hsplit : ¬ isSlash true c = true := by simp [isSlash, hslash, hback]
        obtain ⟨p, ps, hps⟩ := List.exists_cons_of_ne_nil (pieces_ne_nil '/' cs)
        simp only [if_neg hslash, if_neg hsplit, hps]

theorem plain_of_mem_splitSlashes {cs p : List Char} (h : Plain cs)
    (hp : p ∈ splitSlashes true cs) : Plain p := by
  rw [splitSlashes_eq_pieces h] at hp
  exact fun c hc => h c (mem_pieces hp hc).1

/-- A piece of one dot or two is no segment, and stands for nothing or for taking one back. -/
def IsDots (p : List Char) : Prop := dotCount? p = some 1 ∨ dotCount? p = some 2

theorem Plain.not_isDots {cs : List Char} (h : Plain cs) : ¬ IsDots cs := by
  rw [IsDots, h.dotCount?_eq]
  split <;> simp

theorem walk_cons_segment {p : List Char} (h : ¬ IsDots p) (rules : Rules)
    (done ps : List (List Char)) :
    walk rules done (p :: ps) = walk rules (percentEncode inPath p :: done) ps := by
  obtain ⟨hone, htwo⟩ := not_or.mp h
  rw [walk]
  split
  · next heq => exact absurd heq hone
  · next heq => exact absurd heq htwo
  · rfl

/-- Dots leave an empty segment at the end, and nothing in front of anything else. -/
theorem walk_cons_dots {p : List Char} (h : IsDots p) (rules : Rules) (done : List (List Char)) :
    ∃ left, walk rules done [p] = left.reverse ++ [[]] ∧
      ∀ {ps}, ps ≠ [] → walk rules done (p :: ps) = walk rules left ps := by
  have hmore : ∀ {ps : List (List Char)}, ps ≠ [] → ¬ ps.isEmpty = true :=
    fun hne hempty => hne (List.isEmpty_iff.mp hempty)
  rcases h with h | h
  · refine ⟨done, ?_, fun hne => ?_⟩
    · rw [walk, h]
      exact List.reverse_cons
    · simp only [walk, h, if_neg (hmore hne)]
  · refine ⟨takeBack rules done, ?_, fun hne => ?_⟩
    · rw [walk, h]
      exact List.reverse_cons
    · simp only [walk, h, if_neg (hmore hne)]

/-- Plain pieces become segments as they are. -/
theorem walk_plain {rules : Rules} {ps : List (List Char)} (h : ∀ p ∈ ps, Plain p)
    (done : List (List Char)) : walk rules done ps = done.reverse ++ ps := by
  induction ps generalizing done with
  | nil => rw [walk, List.append_nil]
  | cons p ps ih =>
      obtain ⟨hp, hps⟩ := List.forall_mem_cons.mp h
      rw [walk_cons_segment hp.not_isDots, ih hps, hp.percentEncode_eq, List.reverse_cons,
        List.append_assoc]
      rfl

/-- Whatever the pieces in front come to, the walk goes on behind them from there. -/
theorem walk_reaches (rules : Rules) (ps done : List (List Char)) : ∃ done', ∀ {qs}, qs ≠ [] →
    walk rules done (ps ++ qs) = walk rules done' qs := by
  induction ps generalizing done with
  | nil => exact ⟨done, fun _ => rfl⟩
  | cons p ps ih =>
      by_cases hp : IsDots p
      · obtain ⟨left, -, hleft⟩ := walk_cons_dots hp rules done
        obtain ⟨reached, hreached⟩ := ih left
        refine ⟨reached, fun hne => ?_⟩
        exact (hleft (List.append_ne_nil_of_right_ne_nil ps hne)).trans (hreached hne)
      · obtain ⟨reached, hreached⟩ := ih (percentEncode inPath p :: done)
        exact ⟨reached, fun hne => (walk_cons_segment hp rules done _).trans (hreached hne)⟩

/-- Whatever the pieces in front come to, plain pieces behind them are segments of their own. -/
theorem walk_append (rules : Rules) (ps done : List (List Char)) : ∃ front, ∀ {qs}, qs ≠ [] →
    (∀ q ∈ qs, Plain q) → walk rules done (ps ++ qs) = front ++ qs := by
  obtain ⟨reached, hreached⟩ := walk_reaches rules ps done
  exact ⟨reached.reverse, fun hne hqs => (hreached hne).trans (walk_plain hqs reached)⟩

/-! ## Authority and path -/

theorem readSpecial_eq_ok {own : Nat} {cs : List Char} {authority : Authority} {path : Path}
    (h : readSpecial toAscii own cs = .ok (authority, path)) :
    let behind := cs.dropWhile (isSlash true)
    readSpecialAuthority toAscii own (behind.takeWhile fun c => !isSlash true c) = .ok authority ∧
      path = readPath (.special own) (behind.dropWhile fun c => !isSlash true c) := by
  intro behind
  rw [readSpecial] at h
  cases hread : readSpecialAuthority toAscii own (behind.takeWhile fun c => !isSlash true c) with
  | error f =>
      simp only [behind] at hread
      simp only [hread] at h
      cases h
  | ok found =>
      simp only [behind] at hread
      simp only [hread] at h
      obtain ⟨rfl, rfl⟩ := Prod.mk.inj (Except.ok.inj h)
      exact ⟨rfl, rfl⟩

@[simp]
theorem isSpecial_special (own : Nat) : (Rules.special own).isSpecial = true := rfl

theorem readPath_slash (rules : Rules) {c : Char} (hc : isSlash rules.isSpecial c = true)
    (cs : List Char) : readPath rules (c :: cs) = .segments (readSegments rules cs) := by
  rw [readPath, if_pos hc]

theorem not_isSlash_of_isEdge (special : Bool) {c : Char} (h : isEdge c = true) :
    isSlash special c = false := by
  cases hslash : isSlash special c with
  | false => rfl
  | true =>
      have hc : c = '/' ∨ special = true ∧ c = '\\' := by simpa [isSlash] using hslash
      rcases hc with rfl | ⟨-, rfl⟩ <;> exact absurd h (by decide)

theorem not_mem_of_isEdge {cs : List Char} (h : ∀ c ∈ cs, isEdge c = true) {c : Char}
    (hc : isEdge c = false) : c ∉ cs := by
  intro hmem
  rw [h c hmem] at hc
  cases hc

/-- The path behind an address has the appended segments at its end, and in front of them what the
address has. -/
theorem readSpecial_append {own : Nat} {address blanks : List Char} {front : Authority × Path}
    (h : readSpecial toAscii own address = .ok front) (hblanks : ∀ c ∈ blanks, isEdge c = true) :
    ∃ before, ∀ {cs : List Char} {found : Authority × Path}, Plain cs →
      readSpecial toAscii own (address ++ blanks ++ '/' :: cs) = .ok found →
        found.2 = .segments (before ++ splitSlashes true cs) := by
  let behind := address.dropWhile (isSlash true)
  have hread := (readSpecial_eq_ok h).1
  have hbehind : ¬ behind.isEmpty = true := by
    intro hempty
    -- without a host there is no address
    have hnil : behind = [] := List.isEmpty_iff.mp hempty
    change readSpecialAuthority toAscii own (behind.takeWhile _) = _ at hread
    rw [hnil] at hread
    cases hread
  have hdrop : ∀ cs, (address ++ blanks ++ '/' :: cs).dropWhile (isSlash true) =
      behind ++ (blanks ++ '/' :: cs) := by
    intro cs
    rw [List.append_assoc, List.dropWhile_append, if_neg hbehind]
  have hskip : ∀ cs, (blanks ++ '/' :: cs).dropWhile (fun c => !isSlash true c) = '/' :: cs := by
    intro cs
    have hall : ∀ c ∈ blanks, (!isSlash true c) = true := fun c hc => by
      simp [not_isSlash_of_isEdge true (hblanks c hc)]
    rw [List.dropWhile_append_of_pos hall]
    rfl
  have hslash : isSlash true '/' = true := by decide
  cases htail : behind.dropWhile fun c => !isSlash true c with
  | nil =>
      refine ⟨[], fun {cs found} hcs hfound => ?_⟩
      obtain ⟨-, hpath⟩ := readSpecial_eq_ok hfound
      rw [hdrop, List.dropWhile_append, htail, if_pos List.isEmpty_nil, hskip] at hpath
      rw [hpath, readPath_slash (.special own) hslash, readSegments, isSpecial_special,
        walk_plain fun p hp => plain_of_mem_splitSlashes hcs hp]
      rfl
  | cons s tail =>
      have hs : isSlash true s = true := by
        have hhead := List.head?_dropWhile_not (fun c => !isSlash true c) behind
        rw [htail] at hhead
        simpa using hhead
      obtain ⟨before, hbefore⟩ :=
        walk_append (.special own) (splitSlashes true (tail ++ blanks)) []
      refine ⟨before, fun {cs found} hcs hfound => ?_⟩
      obtain ⟨-, hpath⟩ := readSpecial_eq_ok hfound
      rw [hdrop, List.dropWhile_append, htail, if_neg nofun] at hpath
      have happ : tail ++ (blanks ++ '/' :: cs) = (tail ++ blanks) ++ '/' :: cs := by simp
      rw [hpath, List.cons_append, readPath_slash (.special own) hs, readSegments,
        isSpecial_special, happ, splitSlashes_append hslash,
        hbefore (splitSlashes_ne_nil true cs) fun p hp => plain_of_mem_splitSlashes hcs hp]

/-! ## The whole -/

/-- What the parts of a parsed URL were read from. -/
theorem parts_of_parse {text : List Char} {u : Url} (h : parse toAscii text = .ok u) :
    ∃ rest authority,
      cutScheme? (significant text) = some (u.scheme, rest) ∧
      readFront toAscii (rulesOf u.scheme)
        ((cutParts rest).2.1.isSome || (cutParts rest).2.2.isSome) (cutParts rest).1 =
          .ok (authority, u.path) ∧
      u.query = (cutParts rest).2.1.map
        (percentEncode (if (rulesOf u.scheme).isSpecial then inSpecialQuery else inQuery)) ∧
      u.fragment = (cutParts rest).2.2.map (percentEncode inFragment) := by
  rw [parse] at h
  split at h
  · cases h
  · next scheme rest hscheme =>
    cases hfront : readFront toAscii (rulesOf scheme)
        ((cutParts rest).2.1.isSome || (cutParts rest).2.2.isSome) (cutParts rest).1 with
    | error f =>
        simp only [hfront] at h
        cases h
    | ok front =>
        simp only [hfront] at h
        obtain rfl := Except.ok.inj h
        exact ⟨rest, front.1, hscheme, hfront, rfl, rfl⟩

theorem scheme_append {base cs : List Char} {address u : Url}
    (hbase : parse toAscii base = .ok address) (hcs : Plain cs)
    (hu : parse toAscii (base ++ '/' :: cs) = .ok u) : u.scheme = address.scheme := by
  obtain ⟨rest, -, hscheme, -⟩ := parts_of_parse hbase
  obtain ⟨rest', -, hscheme', -⟩ := parts_of_parse hu
  rw [significant_append base hcs, List.append_assoc, cutScheme?_append hscheme] at hscheme'
  exact (Prod.mk.inj (Option.some.inj hscheme')).1.symm

/-- Behind an address without query and fragment, of a scheme with rules and a port, a plain path
has its segments at the end of the URL's path, and there is no query. -/
theorem parse_append {base : List Char} {address : Url} {own : Nat}
    (hbase : parse toAscii base = .ok address) (hrules : rulesOf address.scheme = .special own)
    (hquery : address.query = none) (hfragment : address.fragment = none) :
    ∃ before, ∀ {cs : List Char} {u : Url}, Plain cs → parse toAscii (base ++ '/' :: cs) = .ok u →
      u.query = none ∧ u.path = .segments (before ++ splitSlashes true cs) := by
  have hblanks := isEdge_of_mem_blanksBehind base
  obtain ⟨rest, authority, hscheme, hfront, hq, hf⟩ := parts_of_parse hbase
  obtain ⟨hmark, hhash⟩ : '?' ∉ rest ∧ '#' ∉ rest :=
    not_mem_of_cutParts (Option.map_eq_none_iff.mp (hq.symm.trans hquery))
      (Option.map_eq_none_iff.mp (hf.symm.trans hfragment))
  rw [cutParts_plain hmark hhash, hrules] at hfront
  obtain ⟨before, hbefore⟩ := readSpecial_append hfront hblanks
  refine ⟨before, fun {cs u} hcs hu => ?_⟩
  obtain ⟨rest', authority', hscheme', hfront', hq', -⟩ := parts_of_parse hu
  rw [significant_append base hcs, List.append_assoc, cutScheme?_append hscheme] at hscheme'
  obtain ⟨hsame, rfl⟩ := Prod.mk.inj (Option.some.inj hscheme')
  have hplain : Plain ('/' :: cs) := List.forall_mem_cons.mpr ⟨by decide, hcs⟩
  have hnone : ∀ {c}, c ∉ rest → isEdge c = false → isPlain c = false →
      c ∉ rest ++ (blanksBehind base ++ '/' :: cs) := by
    intro c hrest hedge hplain'
    simp only [List.mem_append, not_or]
    exact ⟨hrest, not_mem_of_isEdge hblanks hedge, hplain.not_mem hplain'⟩
  rw [cutParts_plain (hnone hmark (by decide) (by decide)) (hnone hhash (by decide) (by decide))]
    at hfront' hq'
  rw [← hsame, hrules, ← List.append_assoc] at hfront'
  exact ⟨hq', hbefore hcs hfront'⟩

/-- Different plain paths behind one address are different paths of URLs. -/
theorem eq_of_path_eq {base cs ds : List Char} {address u v : Url} {own : Nat}
    (hbase : parse toAscii base = .ok address) (hrules : rulesOf address.scheme = .special own)
    (hquery : address.query = none) (hfragment : address.fragment = none)
    (hcs : Plain cs) (hds : Plain ds) (hu : parse toAscii (base ++ '/' :: cs) = .ok u)
    (hv : parse toAscii (base ++ '/' :: ds) = .ok v) (h : u.path = v.path) : cs = ds := by
  obtain ⟨before, hbefore⟩ := parse_append hbase hrules hquery hfragment
  rw [(hbefore hcs hu).2, (hbefore hds hv).2] at h
  have hpieces := List.append_cancel_left (Path.segments.inj h)
  rw [splitSlashes_eq_pieces hcs, splitSlashes_eq_pieces hds] at hpieces
  rw [← join_pieces '/' cs, hpieces, join_pieces]

end JobHealth.Url
