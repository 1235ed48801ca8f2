import JobHealth.Proofs.Url.Beneath
import JobHealth.Proofs.Url.BlankHost
/-!
# `JobHealth.Proofs.Url.Server` — which addresses paths can be written behind

An address names a server if its path is the empty one.  What stands behind its
scheme falls into slashes, the server, and the text of the path, and an appended
path goes on with the last of these that is there.
-/

namespace JobHealth.Url

/-! ## The server and what is behind it -/

theorem exists_host (special : Bool) (cs : List Char) : ∃ host behind, cs = host ++ behind ∧
    (∀ c ∈ host, isSlash special c = false) ∧ ∀ c ∈ behind.head?, isSlash special c = true := by
  refine ⟨cs.takeWhile fun c => !isSlash special c, cs.dropWhile fun c => !isSlash special c,
    List.takeWhile_append_dropWhile.symm, fun c hc => ?_, fun c hc => ?_⟩
  · simpa using List.all_eq_true.mp List.all_takeWhile c hc
  · have hhead := List.head?_dropWhile_not (fun c => !isSlash special c) cs
    rw [Option.mem_def.mp hc] at hhead
    simpa using hhead

section
variable {special : Bool} {host behind : List Char}
  (hhost : ∀ c ∈ host, isSlash special c = false)
  (hbehind : ∀ c ∈ behind.head?, isSlash special c = true)
include hhost hbehind

theorem takeWhile_host : (host ++ behind).takeWhile (fun c => !isSlash special c) = host := by
  rw [List.takeWhile_append_of_pos fun c hc => by simp [hhost c hc]]
  cases behind with
  | nil => simp
  | cons c behind => simp [hbehind c rfl]

theorem dropWhile_host : (host ++ behind).dropWhile (fun c => !isSlash special c) = behind := by
  rw [List.dropWhile_append_of_pos fun c hc => by simp [hhost c hc]]
  cases behind with
  | nil => rfl
  | cons c behind => simp [hbehind c rfl]

end

/-- Blanks go on with a host. -/
theorem not_isSlash_append {special : Bool} {host blanks : List Char}
    (hhost : ∀ c ∈ host, isSlash special c = false) (hblanks : ∀ c ∈ blanks, isEdge c = true) :
    ∀ c ∈ host ++ blanks, isSlash special c = false := by
  intro c hc
  rcases List.mem_append.mp hc with hc | hc
  · exact hhost c hc
  · exact not_isSlash_of_isEdge special (hblanks c hc)

/-- What was read is the server, with a path of names. -/
structure Carries (authority : Authority) (names : List (List Char)) (found : Authority × Path) :
    Prop where
  host : found.1.host = authority.host
  port : found.1.port = authority.port
  path : found.2.render = pathText names

section
variable {toAscii : ToAscii} {names : List (List Char)} (hne : names ≠ [])
  (hnames : ∀ n ∈ names, IsName n)

theorem head?_pathText {special : Bool} :
    ∀ c ∈ (pathText names).head?, isSlash special c = true := by
  cases names with
  | nil => exact nofun
  | cons n names =>
      intro c hc
      rw [pathText_cons] at hc
      obtain rfl := Option.some.inj hc
      exact isSlash_slash special

theorem exists_carries_iff {authority : Authority} {path : Path} :
    (∃ found, (Except.ok (authority, path) : Except Fault _) = .ok found ∧
      Carries authority names found) ↔ path.render = pathText names := by
  constructor
  · rintro ⟨found, hfound, hcarries⟩
    obtain rfl := Except.ok.inj hfound
    exact hcarries.path
  · exact fun h => ⟨_, rfl, rfl, rfl, h⟩

/-! ## Schemes with rules and a port -/

theorem readSpecial_parts (toAscii : ToAscii) (own : Nat) {slashes host behind : List Char}
    (hslashes : ∀ c ∈ slashes, isSlash true c = true) (hhost : ∀ c ∈ host, isSlash true c = false)
    (hbehind : ∀ c ∈ behind.head?, isSlash true c = true) (hsome : host ≠ []) :
    readSpecial toAscii own (slashes ++ (host ++ behind)) =
      (readSpecialAuthority toAscii own host).map fun a => (a, readPath (.special own) behind) := by
  have hdrop : (slashes ++ (host ++ behind)).dropWhile (isSlash true) = host ++ behind := by
    rw [List.dropWhile_append_of_pos hslashes]
    obtain ⟨c, host, rfl⟩ := List.exists_cons_of_ne_nil hsome
    have hc : ¬ isSlash true c = true := by simp [hhost c List.mem_cons_self]
    rw [List.cons_append, List.dropWhile_cons, if_neg hc]
  rw [readSpecial, hdrop, takeWhile_host hhost hbehind, dropWhile_host hhost hbehind]
  cases readSpecialAuthority toAscii own host <;> rfl

theorem exists_special_parts {own : Nat} {cs : List Char} {authority : Authority} {path : Path}
    (h : readSpecial toAscii own cs = .ok (authority, path)) : ∃ slashes host behind,
      cs = slashes ++ (host ++ behind) ∧ (∀ c ∈ slashes, isSlash true c = true) ∧
      (∀ c ∈ host, isSlash true c = false) ∧ (∀ c ∈ behind.head?, isSlash true c = true) ∧
      host ≠ [] ∧ readSpecialAuthority toAscii own host = .ok authority ∧
      path = readPath (.special own) behind := by
  obtain ⟨host, behind, hcs, hhost, hbehind⟩ := exists_host true (cs.dropWhile (isSlash true))
  obtain ⟨hauthority, hpath⟩ := readSpecial_eq_ok h
  rw [hcs, takeWhile_host hhost hbehind] at hauthority
  rw [hcs, dropWhile_host hhost hbehind] at hpath
  refine ⟨cs.takeWhile (isSlash true), host, behind, ?_, ?_, hhost, hbehind, ?_, hauthority, hpath⟩
  · rw [← hcs, List.takeWhile_append_dropWhile]
  · exact fun c hc => List.all_eq_true.mp List.all_takeWhile c hc
  · rintro rfl
    cases hauthority

include hne hnames in
/-- Names are the path of a server just if no blanks stand behind it and it does not end in a
slash.  Blanks go to the authority if there is no path, and to the path otherwise. -/
theorem readSpecial_names_iff (hascii : toAscii.Lawful) {own : Nat} {cs blanks : List Char}
    {authority : Authority} {path : Path} (h : readSpecial toAscii own cs = .ok (authority, path))
    (hroot : path.render = ['/']) (hblanks : ∀ c ∈ blanks, isEdge c = true) :
    (∃ found, readSpecial toAscii own (cs ++ blanks ++ pathText names) = .ok found ∧
      Carries authority names found) ↔
      blanks = [] ∧ ∀ c ∈ cs.getLast?, isSlash true c = false := by
  obtain ⟨slashes, host, behind, rfl, hslashes, hhost, hbehind, hsome, hauthority, rfl⟩ :=
    exists_special_parts h
  cases behind with
  | nil =>
      have hlonger := not_isSlash_append hhost hblanks
      have hread := readSpecial_parts toAscii own hslashes hlonger (@head?_pathText names true)
        (List.append_ne_nil_of_left_ne_nil hsome blanks)
      have hlast : ∀ c ∈ (slashes ++ host).getLast?, isSlash true c = false := by
        intro c hc
        rw [List.getLast?_append_of_ne_nil _ hsome] at hc
        exact hhost c (List.mem_of_getLast? hc)
      have htext : slashes ++ (host ++ []) ++ blanks ++ pathText names =
          slashes ++ ((host ++ blanks) ++ pathText names) := by simp
      rw [htext, hread, List.append_nil]
      by_cases hblank : blanks = []
      · subst hblank
        rw [List.append_nil, hauthority, readPath_pathText hne hnames]
        exact ⟨fun _ => ⟨rfl, hlast⟩, fun _ => exists_carries_iff.mpr rfl⟩
      · -- the blanks would be the end of the authority
        obtain ⟨front, b, rfl⟩ := (List.eq_nil_or_concat' blanks).resolve_left hblank
        refine ⟨fun ⟨found, hfound, _⟩ => ?_, fun ⟨hnil, _⟩ => absurd hnil hblank⟩
        have hedge := hblanks b (List.mem_append_right _ List.mem_cons_self)
        cases hwhole : readSpecialAuthority toAscii own (host ++ (front ++ [b])) with
        | error f =>
            rw [hwhole] at hfound
            cases hfound
        | ok a =>
            rw [← List.append_assoc] at hwhole
            exact absurd hwhole (readSpecialAuthority_blank hascii own _ hedge a)
  | cons s tail =>
      have hs : isSlash true s = true := hbehind s rfl
      have hlonger : ∀ c ∈ (s :: (tail ++ blanks ++ pathText names)).head?, isSlash true c = true :=
        hbehind
      have hread := readSpecial_parts toAscii own hslashes hhost hlonger hsome
      have htext : slashes ++ (host ++ s :: tail) ++ blanks ++ pathText names =
          slashes ++ (host ++ s :: (tail ++ blanks ++ pathText names)) := by simp
      have hlast : (slashes ++ (host ++ s :: tail)).getLast? = (s :: tail).getLast? := by
        rw [← List.append_assoc, List.getLast?_append_of_ne_nil _ (List.cons_ne_nil s tail)]
      rw [htext, hread, hauthority, hlast]
      exact exists_carries_iff.trans (readPath_names_iff hne hnames (.special own) hs hroot hblanks)

/-! ## Schemes without rules -/

theorem bne_slash_eq : (fun c : Char => c != '/') = fun c => !isSlash false c := by
  funext c
  simp [isSlash, bne]

theorem readPlain_parts (more : Bool) {host tail : List Char} {s : Char}
    (hhost : ∀ c ∈ host, isSlash false c = false) (hs : isSlash false s = true) :
    readPlain more ('/' :: '/' :: (host ++ s :: tail)) =
      (readPlainAuthority true host).map fun a => (a, readPath .none (s :: tail)) := by
  have hbehind : ∀ c ∈ (s :: tail).head?, isSlash false c = true := by simpa using hs
  rw [readPlain, bne_slash_eq]
  simp only [takeWhile_host hhost hbehind, dropWhile_host hhost hbehind, List.isEmpty_cons,
    Bool.not_false, Bool.or_true]
  cases readPlainAuthority true host <;> rfl

theorem exists_plain_parts {more : Bool} {cs : List Char} {authority : Authority} {path : Path}
    (h : readPlain more cs = .ok (authority, path)) (hserver : authority.host.isSome)
    (hroot : path.render = ['/']) : ∃ host s tail,
      cs = '/' :: '/' :: (host ++ s :: tail) ∧ (∀ c ∈ host, isSlash false c = false) ∧
      isSlash false s = true ∧ readPlainAuthority true host = .ok authority ∧
      path = readPath .none (s :: tail) := by
  unfold readPlain at h
  split at h
  · next rest =>
    rw [bne_slash_eq] at h
    obtain ⟨host, behind, rfl, hhost, hbehind⟩ := exists_host false rest
    simp only [takeWhile_host hhost hbehind, dropWhile_host hhost hbehind] at h
    cases hauthority : readPlainAuthority (more || !behind.isEmpty) host with
    | error f =>
        rw [hauthority] at h
        cases h
    | ok a =>
        rw [hauthority] at h
        obtain ⟨rfl, rfl⟩ := Prod.mk.inj (Except.ok.inj h)
        cases behind with
        | nil => cases hroot
        | cons s tail =>
            rw [List.isEmpty_cons, Bool.not_false, Bool.or_true] at hauthority
            exact ⟨host, s, tail, rfl, hhost, hbehind s rfl, hauthority, rfl⟩
  · obtain ⟨rfl, -⟩ := Prod.mk.inj (Except.ok.inj h)
    cases hserver
  · obtain ⟨rfl, -⟩ := Prod.mk.inj (Except.ok.inj h)
    cases hserver

include hne hnames in
theorem readPlain_names_iff {more : Bool} {cs blanks : List Char} {authority : Authority}
    {path : Path} (h : readPlain more cs = .ok (authority, path))
    (hserver : authority.host.isSome) (hroot : path.render = ['/'])
    (hblanks : ∀ c ∈ blanks, isEdge c = true) :
    (∃ found, readPlain more (cs ++ blanks ++ pathText names) = .ok found ∧
      Carries authority names found) ↔
      blanks = [] ∧ ∀ c ∈ cs.getLast?, isSlash false c = false := by
  obtain ⟨host, s, tail, rfl, hhost, hs, hauthority, rfl⟩ := exists_plain_parts h hserver hroot
  have htext : '/' :: '/' :: (host ++ s :: tail) ++ blanks ++ pathText names =
      '/' :: '/' :: (host ++ s :: (tail ++ blanks ++ pathText names)) := by simp
  have hlast : ('/' :: '/' :: (host ++ s :: tail)).getLast? = (s :: tail).getLast? :=
    List.getLast?_append_of_ne_nil ('/' :: '/' :: host) (List.cons_ne_nil s tail)
  rw [htext, readPlain_parts more hhost hs, hauthority, hlast]
  exact exists_carries_iff.trans (readPath_names_iff hne hnames .none hs hroot hblanks)

/-! ## Files -/

/-- Whether a path begins with a drive, so that there is no server. -/
def startsWithDrive : List (List Char) → Bool
  | [c, m] :: _ => isDrive [c, m]
  | _ => false

theorem exists_slashes {cs : List Char} (h : ¬ (cs.length < 2 || dropSlashes 2 cs != cs.drop 2)) :
    ∃ s s' rest, cs = s :: s' :: rest ∧ isSlash true s = true ∧ isSlash true s' = true := by
  rw [Bool.or_eq_true, not_or, decide_eq_true_eq, bne_iff_ne, not_not] at h
  obtain ⟨hlong, hdrop⟩ := h
  obtain - | ⟨s, - | ⟨s', rest⟩⟩ := cs
  · exact absurd Nat.two_pos hlong
  · exact absurd Nat.one_lt_two hlong
  -- what is left is shorter by two only if two slashes are dropped
  have hlength := congrArg List.length hdrop
  rw [dropSlashes] at hlength
  split at hlength
  · next hs =>
    rw [dropSlashes] at hlength
    split at hlength
    · next hs' => exact ⟨s, s', rest, rfl, hs, hs'⟩
    · simp only [List.length_cons, List.length_drop] at hlength
      omega
  · simp only [List.length_cons, List.length_drop] at hlength
    omega

theorem readFile_server_iff {s s' : Char} {host behind : List Char} (hs : isSlash true s = true)
    (hs' : isSlash true s' = true) (hhost : ∀ c ∈ host, isSlash true c = false)
    (hbehind : ∀ c ∈ behind.head?, isSlash true c = true) {authority : Authority} {path : Path}
    (hserver : authority.host.isSome) :
    readFile toAscii (s :: s' :: (host ++ behind)) = .ok (authority, path) ↔
      path = .segments (readFilePath (dropSlashes 1 behind)) ∧
      isDrive host = false ∧ host ≠ [] ∧
      startsWithDrive (readFilePath (dropSlashes 1 behind)) = false ∧
      ∃ name, readHost toAscii host = .ok name ∧ name ≠ .domain "localhost".toList ∧
        authority = ⟨[], none, some name, none⟩ := by
  have hlong : ¬ ((s :: s' :: (host ++ behind)).length < 2 ||
      dropSlashes 2 (s :: s' :: (host ++ behind)) !=
        (s :: s' :: (host ++ behind)).drop 2) = true := by
    simp [dropSlashes, hs, hs']
  rw [readFile]
  dsimp only
  rw [if_neg hlong]
  simp only [List.drop_succ_cons, List.drop_zero, takeWhile_host hhost hbehind,
    dropWhile_host hhost hbehind]
  by_cases hdrive : isDrive host = true
  · rw [if_pos hdrive]
    refine ⟨fun h => ?_, fun ⟨_, hno, _⟩ => absurd hdrive (Bool.eq_false_iff.mp hno)⟩
    rw [← (Prod.mk.inj (Except.ok.inj h)).1] at hserver
    cases hserver
  · rw [if_neg hdrive]
    by_cases hsome : host = []
    · rw [if_pos (List.isEmpty_iff.mpr hsome)]
      refine ⟨fun h => ?_, fun ⟨_, _, hno, _⟩ => absurd hsome hno⟩
      rw [← (Prod.mk.inj (Except.ok.inj h)).1] at hserver
      cases hserver
    · rw [if_neg (mt List.isEmpty_iff.mp hsome)]
      let segments := readFilePath (dropSlashes 1 behind)
      change (do
          let h ← readHost toAscii host
          pure ((⟨[], none,
            if startsWithDrive segments || decide (h = Host.domain "localhost".toList) then none
            else some h, none⟩ : Authority), Path.segments segments)) = _ ↔ _
      cases hread : readHost toAscii host with
      | error f => exact ⟨nofun, fun ⟨_, _, _, _, _, hname, _⟩ => nomatch hname⟩
      | ok name =>
          constructor
          · intro h
            obtain ⟨ha, rfl⟩ := Prod.mk.inj (Except.ok.inj h)
            split at ha
            · rw [← ha] at hserver
              cases hserver
            · next hplain =>
              rw [Bool.or_eq_true, not_or, decide_eq_true_eq, Bool.not_eq_true] at hplain
              exact ⟨rfl, Bool.eq_false_iff.mpr hdrive, hsome, hplain.1, name, rfl, hplain.2,
                ha.symm⟩
          · rintro ⟨rfl, -, -, hplain, name', hname, hlocal, rfl⟩
            obtain rfl := Except.ok.inj hname
            have hcond : ¬ (startsWithDrive segments ||
                decide (name = .domain "localhost".toList)) = true := by
              rw [Bool.or_eq_true, not_or, decide_eq_true_eq, Bool.not_eq_true]
              exact ⟨hplain, hlocal⟩
            simp only [bind, Except.bind, if_neg hcond]
            rfl

theorem IsName.startsWithDrive {n : List Char} (h : IsName n) (names : List (List Char)) :
    startsWithDrive (n :: names) = false := by
  unfold Url.startsWithDrive
  split
  · next heq =>
    rw [← (List.cons.inj heq).1]
    exact h.not_isDrive
  · rfl

theorem dropSlashes_pathText : dropSlashes 1 (pathText names) = (pathText names).tail := by
  cases names with
  | nil => rfl
  | cons n names =>
      rw [pathText_cons, dropSlashes, if_pos (isSlash_slash true), dropSlashes]
      rfl

include hne hnames in
/-- A file on a server, with a path that comes to names. -/
theorem exists_readFile_carries {s s' : Char} {host behind : List Char} (hs : isSlash true s = true)
    (hs' : isSlash true s' = true) (hhost : ∀ c ∈ host, isSlash true c = false)
    (hbehind : ∀ c ∈ behind.head?, isSlash true c = true) (hdrive : isDrive host = false)
    (hsome : host ≠ []) {name : Host} (hname : readHost toAscii host = .ok name)
    (hlocal : name ≠ .domain "localhost".toList)
    (hpath : readFilePath (dropSlashes 1 behind) = names) :
    ∃ found, readFile toAscii (s :: s' :: (host ++ behind)) = .ok found ∧
      Carries ⟨[], none, some name, none⟩ names found := by
  have hplain : startsWithDrive names = false := by
    obtain ⟨n, names, rfl⟩ := List.exists_cons_of_ne_nil hne
    exact (hnames n List.mem_cons_self).startsWithDrive names
  refine ⟨(⟨[], none, some name, none⟩, .segments names), ?_, rfl, rfl, rfl⟩
  refine (readFile_server_iff hs hs' hhost hbehind rfl).mpr ?_
  rw [hpath]
  exact ⟨rfl, hdrive, hsome, hplain, name, hname, hlocal, rfl⟩

include hne hnames in
/-- Empty segments do not count in a file's path, so a slash at the end does no harm. -/
theorem readFile_names_iff (hascii : toAscii.Lawful) {cs blanks : List Char}
    {authority : Authority} {path : Path} (h : readFile toAscii cs = .ok (authority, path))
    (hserver : authority.host.isSome) (hroot : path.render = ['/']) (hblanks : ∀ c ∈ blanks, isEdge c = true) :
    (∃ found, readFile toAscii (cs ++ blanks ++ pathText names) = .ok found ∧
      Carries authority names found) ↔ blanks = [] := by
  have hslashes : ¬ (cs.length < 2 || dropSlashes 2 cs != cs.drop 2) := by
    intro hbare
    rw [readFile] at h
    dsimp only at h
    rw [if_pos hbare] at h
    rw [← (Prod.mk.inj (Except.ok.inj h)).1] at hserver
    cases hserver
  obtain ⟨s, s', rest, rfl, hs, hs'⟩ := exists_slashes hslashes
  obtain ⟨host, behind, rfl, hhost, hbehind⟩ := exists_host true rest
  obtain ⟨rfl, hdrive, hsome, -, name, hname, hlocal, rfl⟩ :=
    (readFile_server_iff hs hs' hhost hbehind hserver).mp h
  replace hroot := eq_of_pathText_eq_slash hroot
  cases behind with
  | nil =>
      have hlonger := not_isSlash_append hhost hblanks
      have htext : s :: s' :: (host ++ []) ++ blanks ++ pathText names =
          s :: s' :: ((host ++ blanks) ++ pathText names) := by simp
      rw [htext]
      constructor
      · rintro ⟨⟨a, p⟩, hfound, hcarries⟩
        have hserver' : a.host.isSome := by rw [hcarries.host]; rfl
        obtain ⟨-, -, -, -, name', hname', -⟩ :=
          (readFile_server_iff hs hs' hlonger head?_pathText hserver').mp hfound
        refine (List.eq_nil_or_concat' blanks).resolve_right ?_
        rintro ⟨front, b, rfl⟩
        have hedge := hblanks b (List.mem_append_right _ List.mem_cons_self)
        rw [← List.append_assoc] at hname'
        exact readHost_blank hascii _ hedge name' hname'
      · rintro rfl
        rw [List.append_nil]
        refine exists_readFile_carries hne hnames hs hs' hhost head?_pathText hdrive hsome hname
          hlocal ?_
        rw [dropSlashes_pathText, readFilePath_tail_pathText hne hnames]
  | cons t tail =>
      have ht : isSlash true t = true := hbehind t rfl
      have hdrop : ∀ cs, dropSlashes 1 (t :: cs) = cs := by
        intro cs
        rw [dropSlashes, if_pos ht, dropSlashes]
      have hlonger : ∀ c ∈ (t :: (tail ++ blanks ++ pathText names)).head?, isSlash true c = true :=
        hbehind
      have htext : s :: s' :: (host ++ t :: tail) ++ blanks ++ pathText names =
          s :: s' :: (host ++ t :: (tail ++ blanks ++ pathText names)) := by simp
      rw [hdrop] at hroot
      rw [htext]
      constructor
      · rintro ⟨⟨a, p⟩, hfound, hcarries⟩
        have hserver' : a.host.isSome := by rw [hcarries.host]; rfl
        obtain ⟨rfl, -⟩ := (readFile_server_iff hs hs' hhost hlonger hserver').mp hfound
        by_contra hblank
        obtain ⟨front, x, hpath⟩ := readFilePath_blanks hne hnames tail hblank hblanks
        have hrender := hcarries.path
        rw [hdrop, hpath] at hrender
        exact pathText_ne front x names hrender
      · rintro rfl
        refine exists_readFile_carries hne hnames hs hs' hhost hlonger hdrive hsome hname hlocal ?_
        rw [hdrop, List.append_nil, readFilePath_names hne hnames hroot]

/-! ## Any scheme -/

include hne hnames in
/-- A path of names behind an address and the blanks that ended it. -/
theorem readFront_names_iff (hascii : toAscii.Lawful) {rules : Rules} {cs blanks : List Char}
    {authority : Authority} {path : Path}
    (h : readFront toAscii rules false cs = .ok (authority, path))
    (hserver : authority.host.isSome) (hroot : path.render = ['/']) (hblanks : ∀ c ∈ blanks, isEdge c = true) :
    (∃ found, readFront toAscii rules false (cs ++ blanks ++ pathText names) = .ok found ∧
      Carries authority names found) ↔
      blanks = [] ∧ (rules = .file ∨ ∀ c ∈ cs.getLast?, isSlash rules.isSpecial c = false) := by
  cases rules with
  | special own =>
      refine (readSpecial_names_iff hne hnames hascii h hroot hblanks).trans ?_
      simp
  | file =>
      refine (readFile_names_iff hne hnames hascii h hserver hroot hblanks).trans ?_
      simp
  | none =>
      refine (readPlain_names_iff hne hnames h hserver hroot hblanks).trans ?_
      simp [Rules.isSpecial]

theorem readFront_ne_nil {rules : Rules} {cs : List Char} {authority : Authority} {path : Path}
    (h : readFront toAscii rules false cs = .ok (authority, path))
    (hserver : authority.host.isSome) : cs ≠ [] := by
  rintro rfl
  cases rules with
  | special own => cases h
  | file =>
      obtain ⟨rfl, -⟩ := Prod.mk.inj (Except.ok.inj h)
      cases hserver
  | none =>
      obtain ⟨rfl, -⟩ := Prod.mk.inj (Except.ok.inj h)
      cases hserver

end

end JobHealth.Url
