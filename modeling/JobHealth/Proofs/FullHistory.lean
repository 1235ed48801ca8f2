import JobHealth.Proofs.Build
import JobHealth.Proofs.FirstFailure
/-!
# `JobHealth.Proofs.FullHistory` — a full history is as long as its latest build's name says

Nobody tells how many builds a job ran.  A fetch of the full history asks for
the most recent build, reads its name as the number of builds, and asks for that
many.  The number is what the decimal digits of the name write, in the usual
sense of `Nat.ofDigitChars`, and it has to fit a 32-bit word.

| the most recent build           | asked for | result                             |
| :------------------------------ | :-------- | :--------------------------------- |
| there is none                   | 1         | the history is empty               |
| its name writes no such number  | 1         | the name is not a number           |
| its name writes `k`             | 1, `k`    | the first `k` builds, or all there are |

So a job whose builds are named by counting from 1 has its whole history
fetched.
-/

namespace JobHealth

/-! ## Numbers in decimal digits -/

/-- The text writes the number in decimal digits, perhaps behind a plus sign and needless zeros. -/
def WritesNumber (text : String) (n : Nat) : Prop :=
  ∃ sign digits, text.toList = sign ++ digits ∧ (sign = [] ∨ sign = ['+']) ∧ Json.Digits digits ∧
    Nat.ofDigitChars 10 digits 0 = n

theorem decimalDigit?_of_isDigit {c : Char} (h : c.isDigit = true) :
    decimalDigit? c = some (c.toNat - '0'.toNat) := by
  obtain ⟨hlo, hhi⟩ : 48 ≤ c.val ∧ c.val ≤ 57 := by simpa [Char.isDigit] using h
  have hrange : ('0' ≤ c && c ≤ '9') = true := by
    rw [Bool.and_eq_true, decide_eq_true_iff, decide_eq_true_iff]
    exact ⟨hlo, hhi⟩
  exact if_pos hrange

theorem isDigit_of_decimalDigit? {c : Char} {d : Nat} (h : decimalDigit? c = some d) :
    c.isDigit = true := by
  rw [decimalDigit?] at h
  split at h
  · next hrange =>
    rw [Bool.and_eq_true, decide_eq_true_iff, decide_eq_true_iff] at hrange
    obtain ⟨hlo, hhi⟩ := hrange
    have hbounds : 48 ≤ c.val ∧ c.val ≤ 57 := ⟨hlo, hhi⟩
    simpa [Char.isDigit] using hbounds
  · cases h

/-- The limit is looked at after each digit.  Numbers only grow by digits, so it is enough that the
last one keeps it. -/
theorem numberBehind?_eq_some_iff {limit n m : Nat} {cs : List Char} (hn : n ≤ limit) :
    numberBehind? limit n cs = some m ↔
      (∀ c ∈ cs, c.isDigit = true) ∧ Nat.ofDigitChars 10 cs n = m ∧ m ≤ limit := by
  induction cs generalizing n with
  | nil =>
      constructor
      · intro h
        obtain rfl := Option.some.inj h
        exact ⟨nofun, rfl, hn⟩
      · rintro ⟨-, rfl, -⟩
        rfl
  | cons c cs ih =>
      rw [numberBehind?]
      constructor
      · intro h
        cases hc : decimalDigit? c with
        | none =>
            rw [hc] at h
            cases h
        | some d =>
            have hdigit := isDigit_of_decimalDigit? hc
            rw [decimalDigit?_of_isDigit hdigit] at h
            dsimp only at h
            split at h
            · cases h
            · next hle =>
              obtain ⟨hcs, hvalue, hm⟩ := (ih (Nat.not_lt.mp hle)).mp h
              exact ⟨List.forall_mem_cons.mpr ⟨hdigit, hcs⟩, hvalue, hm⟩
      · rintro ⟨hall, hvalue, hm⟩
        obtain ⟨hdigit, hcs⟩ := List.forall_mem_cons.mp hall
        rw [Nat.ofDigitChars_cons] at hvalue
        have hle : 10 * n + (c.toNat - '0'.toNat) ≤ limit :=
          Nat.le_trans (Json.le_ofDigitChars cs _) (Nat.le_trans (Nat.le_of_eq hvalue) hm)
        rw [decimalDigit?_of_isDigit hdigit]
        exact (if_neg (Nat.not_lt.mpr hle)).trans ((ih hle).mpr ⟨hcs, hvalue, hm⟩)

/-- A text is read as the number that it writes, and not at all if that exceeds the limit. -/
theorem numberUpTo?_eq_some_iff {limit n : Nat} {text : String} :
    numberUpTo? limit text = some n ↔ WritesNumber text n ∧ n ≤ limit := by
  have hplus : ¬ ('+'.isDigit = true) := by decide
  rw [numberUpTo?, WritesNumber]
  split
  · next hnil =>
    constructor
    · exact nofun
    · rintro ⟨⟨sign, digits, htext, -, ⟨hne, -⟩, -⟩, -⟩
      rw [hnil] at htext
      exact absurd (List.append_eq_nil_iff.mp htext.symm).2 hne
  · next d ds hsigned =>
    rw [numberBehind?_eq_some_iff (Nat.zero_le _), hsigned]
    constructor
    · rintro ⟨hdigits, hvalue, hle⟩
      exact ⟨⟨['+'], d :: ds, rfl, Or.inr rfl, ⟨List.cons_ne_nil _ _, hdigits⟩, hvalue⟩, hle⟩
    · rintro ⟨⟨sign, digits, htext, rfl | rfl, ⟨-, hdigits⟩, hvalue⟩, hle⟩
      · rw [List.nil_append] at htext
        exact absurd (hdigits '+' (htext ▸ List.mem_cons_self)) hplus
      · obtain rfl := (List.cons.inj htext).2
        exact ⟨hdigits, hvalue, hle⟩
  · next cs hne hunsigned =>
    rw [numberBehind?_eq_some_iff (Nat.zero_le _)]
    constructor
    · rintro ⟨hdigits, hvalue, hle⟩
      exact ⟨⟨[], _, rfl, Or.inl rfl, ⟨hne, hdigits⟩, hvalue⟩, hle⟩
    · rintro ⟨⟨sign, digits, htext, rfl | rfl, ⟨hdigits_ne, hdigits⟩, hvalue⟩, hle⟩
      · rw [htext]
        exact ⟨hdigits, hvalue, hle⟩
      · obtain ⟨d, ds, rfl⟩ := List.exists_cons_of_ne_nil hdigits_ne
        exact absurd htext (hunsigned d ds)

theorem writesNumber_repr (n : Nat) : WritesNumber n.repr n := by
  refine ⟨[], Json.writeNat n, ?_, Or.inl rfl, Json.digits_writeNat n,
    Nat.ofDigitChars_ten_toDigits⟩
  rw [Nat.toList_repr]
  rfl

/-! ## The fetch -/

/-- The source answers each request for a page with the front of the history. -/
def Source.Lists (s : Source) (history : List Build) : Prop :=
  ∀ before limit, (s.page before limit).result = .ok (history.take limit)

theorem lists_stored (base : String) (history : List Build) (feeds : Build → StoredFeed) :
    (Source.stored base history feeds).Lists history := fun _ _ => rfl

theorem le_maxLimit_iff {n : Nat} : n ≤ maxLimit ↔ n < UInt32.size :=
  Nat.le_sub_one_iff_lt (by decide)

section
variable {s : Source} {history : List Build} (h : s.Lists history)
include h

theorem fetches_of_never_ran (hnever : history = []) :
    Fetches s 0 [1] (.error .emptyHistory) := by
  refine .neverRan ?_
  rw [h, hnever]
  rfl

variable {latest : Build} {older : List Build} (hlatest : history = latest :: older)
include hlatest

theorem probe_eq : (s.page 0 1).result = .ok (latest :: []) := by
  rw [h, hlatest]
  rfl

theorem fetches_of_not_number (hname : ¬ ∃ k, WritesNumber latest.name k ∧ k < UInt32.size) :
    Fetches s 0 [1] (.error (.nameNotNumber latest.name)) := by
  refine .notNumber (probe_eq h hlatest) ?_
  refine Option.eq_none_iff_forall_ne_some.mpr fun k hk => ?_
  obtain ⟨hwrites, hle⟩ := numberUpTo?_eq_some_iff.mp hk
  exact hname ⟨k, hwrites, le_maxLimit_iff.mp hle⟩

theorem fetches_of_number {k : Nat} (hname : WritesNumber latest.name k) (hk : k < UInt32.size) :
    Fetches s 0 [1, k] (.ok (history.take k)) := by
  rw [← h 1 k]
  exact .history (probe_eq h hlatest)
    (numberUpTo?_eq_some_iff.mpr ⟨hname, le_maxLimit_iff.mpr hk⟩)

end

/-- A fetch of the full history asks for one build.  If there is none, or if no number is written in
its name, that is the fault and nothing else is asked for.  Otherwise it asks for as many builds as
the name says, and gives these.  So a history is fetched whole if its most recent build is named by
its length. -/
theorem full_history_by_name {s : Source} {history : List Build} (h : s.Lists history) :
    let fetch := fetchPage s 0
    (history = [] → fetch.limits = [1] ∧ fetch.result = .error .emptyHistory) ∧
    (∀ latest older, history = latest :: older →
      ((¬ ∃ k, WritesNumber latest.name k ∧ k < UInt32.size) →
        fetch.limits = [1] ∧ fetch.result = .error (.nameNotNumber latest.name)) ∧
      ∀ k, WritesNumber latest.name k → k < UInt32.size →
        fetch.limits = [1, k] ∧ fetch.result = .ok (history.take k) ∧
          (history.take k).length = min k history.length) ∧
    ∀ n, 1 ≤ n → n < UInt32.size → history.length = n →
      (∀ latest older, history = latest :: older → latest.name = n.repr) →
        fetch.limits = [1, n] ∧ fetch.result = .ok history := by
  intro fetch
  refine ⟨fun hnever => fetches_iff.mp (fetches_of_never_ran h hnever),
    fun latest older hlatest => ⟨fun hname => ?_, fun k hname hk => ?_⟩,
    fun n hpos hn hlength hname => ?_⟩
  · exact fetches_iff.mp (fetches_of_not_number h hlatest hname)
  · obtain ⟨hlimits, hresult⟩ := fetches_iff.mp (fetches_of_number h hlatest hname hk)
    exact ⟨hlimits, hresult, List.length_take⟩
  · cases hlatest : history with
    | nil =>
        rw [hlatest] at hlength
        exact absurd hlength (Nat.ne_of_lt hpos)
    | cons latest older =>
        have hwrites : WritesNumber latest.name n := by
          rw [hname latest older hlatest]
          exact writesNumber_repr n
        obtain ⟨hlimits, hresult⟩ := fetches_iff.mp (fetches_of_number h hlatest hwrites hn)
        rw [List.take_of_length_le (Nat.le_of_eq hlength), hlatest] at hresult
        exact ⟨hlimits, hresult⟩

/-- Of three builds that are named by counting from 1 all are fetched.  With a latest one that is
named by a 2 behind a sign and a zero, two of them are. -/
theorem full_history_of_three_builds :
    let build (id : UInt64) (name : String) : Build :=
      ⟨id, name, "succeeded", "/api/v1/builds/" ++ name, "main", "develop", "UnitTest"⟩
    let history := [build 9 "3", build 8 "2", build 7 "1"]
    let renamed := [build 9 "+02", build 8 "2", build 7 "1"]
    let fetch (builds : List Build) :=
      fetchPage (.stored "https://ci" builds fun _ => .refused 404) 0
    ((fetch history).limits = [1, 3] ∧ (fetch history).result = .ok history) ∧
      (fetch renamed).limits = [1, 2] ∧
      (fetch renamed).result = .ok [build 9 "+02", build 8 "2"] := by
  intro build history renamed fetch
  have hdigits : Json.Digits ['0', '2'] := ⟨by decide, List.all_eq_true.mp rfl⟩
  have hname : WritesNumber "+02" 2 := ⟨['+'], ['0', '2'], rfl, Or.inr rfl, hdigits, rfl⟩
  obtain ⟨-, -, hwhole⟩ := full_history_by_name (lists_stored "https://ci" history _)
  obtain ⟨-, hnamed, -⟩ := full_history_by_name (lists_stored "https://ci" renamed _)
  obtain ⟨hlimits, hresult, -⟩ := (hnamed _ _ rfl).2 2 hname (by decide)
  refine ⟨hwhole 3 (by decide) (by decide) rfl ?_, hlimits, hresult⟩
  rintro latest older hlatest
  obtain ⟨rfl, -⟩ := List.cons.inj hlatest
  decide

end JobHealth
