import JobHealth.Proofs.Endpoint
import JobHealth.Proofs.Url.Server
/-!
# `JobHealth.Proofs.RequestedPaths` — what a path behind an accepted address names

An address is accepted for the URL that it is read as, but it is kept as it was
written, and paths are written behind it.  What does not count at the end of a
text may count within it:

| the address ends in         | with a path behind it                              |
| :-------------------------- | :------------------------------------------------- |
| a blank behind the server   | it is no URL                                       |
| a blank behind dots         | the blank is in a segment in front of the path     |
| a slash or a backslash      | an empty segment is in front, except for files     |
| anything else               | it is just that path on the server                 |

Slashes at the end are left out of an address, but not a backslash, nor a slash
that only a tab or a line end stands behind.
-/

namespace JobHealth

namespace Url

/-! ## The end of an address -/

theorem isEdge_of_isSkipped {c : Char} (h : isSkipped c = true) : isEdge c = true := by
  have hc : (c = '\t' ∨ c = '\n') ∨ c = '\r' := by simpa [isSkipped] using h
  rcases hc with (rfl | rfl) | rfl <;> decide

/-- The last character of a text, of those that count within a text. -/
def lastCounted? (cs : List Char) : Option Char := (cs.filter fun c => !isSkipped c).getLast?

theorem lastCounted?_of_not_isEdge {cs : List Char} {c : Char} (hc : cs.getLast? = some c)
    (hedge : isEdge c = false) : lastCounted? cs = some c := by
  obtain ⟨front, rfl⟩ := List.getLast?_eq_some_iff.mp hc
  have hcounted : (!isSkipped c) = true := by
    simpa using mt isEdge_of_isSkipped (Bool.eq_false_iff.mp hedge)
  rw [lastCounted?, List.filter_append, List.filter_singleton, hcounted, cond_true,
    List.getLast?_concat]

/-- Whether a path can be written behind an address: it does not end in a blank, nor in a slash if
empty segments count. -/
def Joinable (rules : Rules) (base : List Char) : Prop :=
  ∀ c ∈ lastCounted? base, isEdge c = false ∧ (rules = .file ∨ isSlash rules.isSpecial c = false)

instance (rules : Rules) (base : List Char) : Decidable (Joinable rules base) :=
  Option.decidableForallMem (lastCounted? base)

theorem not_isEdge_last_significant (base : List Char) :
    ∀ c ∈ (significant base).getLast?, isEdge c = false := by
  let trimmed := (base.dropWhile isEdge).rdropWhile isEdge
  have hsignificant : (significant base).getLast? = lastCounted? trimmed := rfl
  intro c hc
  rw [hsignificant] at hc
  by_cases htrimmed : trimmed = []
  · rw [htrimmed] at hc
    cases hc
  · have hlast : isEdge (trimmed.getLast htrimmed) = false :=
      Bool.eq_false_iff.mpr (List.rdropWhile_last_not _ _ htrimmed)
    rw [lastCounted?_of_not_isEdge (List.getLast?_eq_getLast_of_ne_nil htrimmed) hlast] at hc
    obtain rfl := Option.some.inj hc
    exact hlast

/-- What counts of an address is its significant text and the blanks behind it. -/
theorem counted_eq (base : List Char) : ∃ front,
    base.filter (fun c => !isSkipped c) = front ++ (significant base ++ blanksBehind base) := by
  refine ⟨(base.takeWhile isEdge).filter fun c => !isSkipped c, ?_⟩
  rw [significant, blanksBehind, ← List.filter_append, ← List.reverse_append,
    List.takeWhile_append_dropWhile, List.reverse_reverse, ← List.filter_append,
    List.takeWhile_append_dropWhile]

theorem joinable_iff {rules : Rules} {base front rest : List Char}
    (hsignificant : significant base = front ++ rest) (hrest : rest ≠ []) :
    Joinable rules base ↔ blanksBehind base = [] ∧
      (rules = .file ∨ ∀ c ∈ rest.getLast?, isSlash rules.isSpecial c = false) := by
  obtain ⟨edge, hcounted⟩ := counted_eq base
  have hedge := not_isEdge_last_significant base
  rw [Joinable, lastCounted?, hcounted]
  by_cases hblank : blanksBehind base = []
  · have hends : (edge ++ (significant base ++ [])).getLast? = rest.getLast? := by
      rw [List.append_nil, hsignificant, ← List.append_assoc,
        List.getLast?_append_of_ne_nil _ hrest]
    rw [hsignificant, List.getLast?_append_of_ne_nil _ hrest] at hedge
    rw [hblank, hends]
    constructor
    · intro h
      refine ⟨rfl, or_iff_not_imp_left.mpr fun hfile c hc => ?_⟩
      exact (h c hc).2.resolve_left hfile
    · rintro ⟨-, h⟩ c hc
      exact ⟨hedge c hc, h.imp_right fun h => h c hc⟩
  · refine ⟨fun h => ?_, fun h => absurd h.1 hblank⟩
    -- the last of the blanks is what the text ends in
    have hlast := List.getLast?_eq_getLast_of_ne_nil hblank
    have hends := h ((blanksBehind base).getLast hblank) (by
      rw [← List.append_assoc, List.getLast?_append_of_ne_nil _ hblank, hlast]
      rfl)
    rw [isEdge_of_mem_blanksBehind base _ (List.getLast_mem hblank)] at hends
    cases hends.1

/-! ## The whole -/

section
variable {toAscii : ToAscii} {names : List (List Char)} (hne : names ≠ [])
  (hnames : ∀ n ∈ names, IsName n)

/-- A URL on the server of an address, of which nothing but the path differs. -/
structure Beneath (address : Url) (names : List (List Char)) (u : Url) : Prop where
  scheme : u.scheme = address.scheme
  host : u.host = address.host
  port : u.port = address.port
  path : u.path.render = pathText names
  query : u.query = none
  fragment : u.fragment = none

/-- The URL of a scheme and what was read behind it, without query and fragment. -/
def ofFront (scheme : List Char) (found : Authority × Path) : Url :=
  ⟨scheme, found.1.username, found.1.password, found.1.host, found.1.port, found.2, none, none⟩

theorem parse_of_scheme {text scheme rest : List Char}
    (hscheme : cutScheme? (significant text) = some (scheme, rest)) (hmark : '?' ∉ rest)
    (hhash : '#' ∉ rest) :
    parse toAscii text = (readFront toAscii (rulesOf scheme) false rest).map (ofFront scheme) := by
  rw [parse, hscheme]
  simp only [cutParts_plain hmark hhash, Option.isSome_none, Bool.or_self]
  cases readFront toAscii (rulesOf scheme) false rest <;> rfl

include hne hnames in
/-- Behind an address a path of names is read with what follows the scheme, and the blanks that
ended the address count. -/
theorem parse_append_names {base scheme rest : List Char}
    (hscheme : cutScheme? (significant base) = some (scheme, rest)) (hmark : '?' ∉ rest)
    (hhash : '#' ∉ rest) : parse toAscii (base ++ pathText names) =
      (readFront toAscii (rulesOf scheme) false (rest ++ blanksBehind base ++ pathText names)).map
        (ofFront scheme) := by
  obtain ⟨cs, hcs⟩ : ∃ cs, pathText names = '/' :: cs := by
    obtain ⟨n, names, rfl⟩ := List.exists_cons_of_ne_nil hne
    exact ⟨_, pathText_cons n names⟩
  have hplain : Plain ('/' :: cs) := hcs ▸ plain_pathText hnames
  have hnone : ∀ {c}, c ∉ rest → isEdge c = false → isPlain c = false →
      c ∉ rest ++ (blanksBehind base ++ '/' :: cs) := by
    intro c hrest hedge hplain'
    simp only [List.mem_append, not_or]
    exact ⟨hrest, not_mem_of_isEdge (isEdge_of_mem_blanksBehind base) hedge, hplain.not_mem hplain'⟩
  have hwhole := cutScheme?_append hscheme (blanksBehind base ++ '/' :: cs)
  rw [← List.append_assoc, ← significant_append base (List.forall_mem_cons.mp hplain).2] at hwhole
  rw [hcs, parse_of_scheme hwhole (hnone hmark (by decide) (by decide))
    (hnone hhash (by decide) (by decide)), List.append_assoc]

include hne hnames in
/-- A path of names behind the address of a server names just that path on it, if and only if a
path can be written behind the address. -/
theorem parse_names_iff (hascii : toAscii.Lawful) {base : List Char} {address : Url}
    (hbase : parse toAscii base = .ok address) (hserver : address.host.isSome)
    (hroot : address.path.render = ['/']) (hquery : address.query = none)
    (hfragment : address.fragment = none) :
    (∃ u, parse toAscii (base ++ pathText names) = .ok u ∧ Beneath address names u) ↔
      Joinable (rulesOf address.scheme) base := by
  obtain ⟨rest, -, hscheme, -, hq, hf⟩ := parts_of_parse hbase
  obtain ⟨hmark, hhash⟩ : '?' ∉ rest ∧ '#' ∉ rest :=
    not_mem_of_cutParts (Option.map_eq_none_iff.mp (hq.symm.trans hquery))
      (Option.map_eq_none_iff.mp (hf.symm.trans hfragment))
  rw [parse_of_scheme hscheme hmark hhash] at hbase
  cases hread : readFront toAscii (rulesOf address.scheme) false rest with
  | error f =>
      rw [hread] at hbase
      cases hbase
  | ok front =>
      obtain ⟨authority, path⟩ := front
      rw [hread] at hbase
      have haddress : ofFront address.scheme (authority, path) = address := Except.ok.inj hbase
      have hserver' : authority.host.isSome := by rw [← haddress] at hserver; exact hserver
      have hroot' : path.render = ['/'] := by rw [← haddress] at hroot; exact hroot
      obtain ⟨c, name, hsignificant, -⟩ := cutScheme?_eq_some hscheme
      have hends : significant base = (c :: name ++ [':']) ++ rest := by simp [hsignificant]
      rw [joinable_iff hends (readFront_ne_nil hread hserver'),
        ← readFront_names_iff hne hnames hascii hread hserver' hroot'
          (isEdge_of_mem_blanksBehind base),
        parse_append_names hne hnames hscheme hmark hhash]
      constructor
      · rintro ⟨u, hu, hbeneath⟩
        cases hfound : readFront toAscii (rulesOf address.scheme) false
            (rest ++ blanksBehind base ++ pathText names) with
        | error f =>
            rw [hfound] at hu
            cases hu
        | ok found =>
            rw [hfound] at hu
            obtain rfl := Except.ok.inj hu
            rw [← haddress] at hbeneath
            exact ⟨found, rfl, hbeneath.host, hbeneath.port, hbeneath.path⟩
      · rintro ⟨found, hfound, hcarries⟩
        rw [hfound]
        refine ⟨ofFront address.scheme found, rfl, rfl, ?_, ?_, hcarries.path, rfl, rfl⟩
        · rw [← haddress]
          exact hcarries.host
        · rw [← haddress]
          exact hcarries.port

end

end Url

/-! ## Accepted addresses -/

namespace Endpoint

open Url

/-- A path of names behind an address that was accepted names just that path on the server of the
address, if and only if the address ends in no blank and in no slash that counts. -/
theorem path_beneath_iff {toAscii : ToAscii} (hascii : toAscii.Lawful) {raw base : String}
    (h : ofText toAscii raw = .ok base) :
    ∃ address, Url.parse toAscii base.toList = .ok address ∧
      ∀ names : List (List Char), names ≠ [] → (∀ n ∈ names, IsName n) →
        ((∃ u, Url.parse toAscii (base.toList ++ pathText names) = .ok u ∧
            Beneath address names u) ↔
          Joinable (rulesOf address.scheme) base.toList) := by
  obtain ⟨-, address, hparse, hroot⟩ := ofText_eq_ok_iff.mp h
  refine ⟨address, hparse, fun names hne hnames => ?_⟩
  exact parse_names_iff hne hnames hascii hparse hroot.host hroot.path hroot.query hroot.fragment

theorem path_beneath_https : ∃ u,
    Url.parse domainToAscii? ("https://ci".toList ++ pathText ["api".toList, "v1".toList]) =
      .ok u ∧
      u.host = some (.domain "ci".toList) ∧ u.path.render = "/api/v1".toList := by
  have haccepted : ofText domainToAscii? "https://ci/" = .ok "https://ci" := by decide +kernel
  obtain ⟨address, hparse, hpaths⟩ := path_beneath_iff lawful_domainToAscii? haccepted
  have haddress : Url.parse domainToAscii? "https://ci".toList = .ok ⟨"https".toList, [], none,
      some (.domain "ci".toList), none, .segments [[]], none, none⟩ := by decide +kernel
  obtain rfl := Except.ok.inj (hparse.symm.trans haddress)
  have hjoinable : Joinable (rulesOf "https".toList) "https://ci".toList := by decide +kernel
  have hnames : ∀ n ∈ ["api".toList, "v1".toList], IsName n := by decide +kernel
  obtain ⟨u, hu, hbeneath⟩ := (hpaths _ (List.cons_ne_nil _ _) hnames).mpr hjoinable
  exact ⟨u, hu, hbeneath.host, hbeneath.path⟩

/-- A blank at the end of an accepted address is kept, and no path behind it is read. -/
theorem path_behind_blank : ofText domainToAscii? "http://ci " = .ok "http://ci " ∧
    Url.parse domainToAscii? ("http://ci ".toList ++ "/api".toList) = .error .invalidDomain := by
  decide +kernel

end Endpoint

end JobHealth
