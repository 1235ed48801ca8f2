import Mathlib.Data.List.DropRight
import JobHealth.Endpoint
/-!
# `JobHealth.Proofs.Endpoint` — what an accepted address is

The address that is kept is the given text without the slashes at its end.  It
is a URL of a server's root: one with a host, and with nothing behind it but the
slash that every such URL has.  Given again, an address that was kept is kept as
it is.
-/

namespace JobHealth.Endpoint

variable {toAscii : Url.ToAscii}

/-- A URL that names a server and nothing on it. -/
structure Root (u : Url) : Prop where
  host : u.host.isSome
  path : u.path.render = ['/']
  query : u.query = none
  fragment : u.fragment = none

theorem faultOf?_eq_none_iff {u : Url} : faultOf? u = none ↔ Root u := by
  rw [faultOf?]
  constructor
  · intro h
    split at h
    · cases h
    · next hhost =>
      split at h
      · cases h
      · next hroot =>
        simp only [Bool.or_eq_true, not_or, Bool.not_eq_true, bne_eq_false_iff_eq,
          Option.isSome_eq_false_iff, Option.isNone_iff_eq_none] at hroot
        exact ⟨by simpa [Option.isSome_iff_ne_none] using hhost, hroot.1.1, hroot.1.2, hroot.2⟩
  · rintro ⟨hhost, hpath, hquery, hfragment⟩
    simp [Option.isSome_iff_ne_none.mp hhost, hpath, hquery, hfragment]

theorem withoutTrailingSlashes_idem (cs : List Char) :
    withoutTrailingSlashes (withoutTrailingSlashes cs) = withoutTrailingSlashes cs :=
  List.rdropWhile_idempotent _ cs

/-- An address is accepted as the text without slashes at its end, if that names a root. -/
theorem ofText_eq_ok_iff {raw base : String} :
    ofText toAscii raw = .ok base ↔
      base = String.ofList (withoutTrailingSlashes raw.toList) ∧
        ∃ u, Url.parse toAscii base.toList = .ok u ∧ Root u := by
  rw [ofText]
  constructor
  · intro h
    cases hparse : Url.parse toAscii (withoutTrailingSlashes raw.toList) with
    | error f => simp only [hparse, reduceCtorEq] at h
    | ok u =>
        simp only [hparse] at h
        cases hfault : faultOf? u with
        | some f => simp only [hfault, reduceCtorEq] at h
        | none =>
            simp only [hfault] at h
            obtain rfl := Except.ok.inj h
            exact ⟨rfl, u, by rw [String.toList_ofList, hparse], faultOf?_eq_none_iff.mp hfault⟩
  · rintro ⟨rfl, u, hparse, hroot⟩
    rw [String.toList_ofList] at hparse
    simp only [hparse, faultOf?_eq_none_iff.mpr hroot]

/-- An address that was accepted is accepted again, and kept as it is. -/
theorem ofText_of_accepted {raw base : String} (h : ofText toAscii raw = .ok base) :
    ofText toAscii base = .ok base := by
  obtain ⟨hbase, hroot⟩ := ofText_eq_ok_iff.mp h
  refine ofText_eq_ok_iff.mpr ⟨?_, hroot⟩
  rw [hbase, String.toList_ofList, withoutTrailingSlashes_idem]

end JobHealth.Endpoint
