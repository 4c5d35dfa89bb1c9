/-
  MLocust.Lib.IntText

  Texts of integers: white space, a sign, digits that single underscores may
  separate, and white space again.

  `Alphabet` says what is white space and which characters are digits.  `readInt`
  reads a text from left to right and gives up at the first character that does not
  fit; it accepts exactly the texts of the grammar `IntText`, with the integer they
  mean (`readInt_eq_some_iff`).  What is written in decimal is among them
  (`intText_written`).
-/
import Mathlib.Data.List.Basic
import Mathlib.Data.Nat.Digits.Defs

namespace MLocust.Lib

/-- White space and decimal digits, apart from each other and from the other characters of
    integers. -/
structure Alphabet where
  space : Char → Bool
  /-- the value of a digit -/
  digit? : Char → Option Nat
  not_space : ∀ c ∈ ['+', '-', '_'], space c = false
  not_digit : ∀ c ∈ ['+', '-', '_'], digit? c = none
  not_space_digit : ∀ c d, digit? c = some d → space c = false
  digitChar : ∀ d < 10, digit? (Nat.digitChar d) = some d

namespace Alphabet

variable (A : Alphabet)

/-- Read digits and underscores after a digit, or after an underscore that follows one.  `n` is the
    number so far. -/
def scanDigits : Bool → Nat → List Char → Option (Nat × List Char)
  | underscore, n, [] => if underscore then none else some (n, [])
  | underscore, n, c :: s =>
      match A.digit? c with
      | some d => scanDigits false (10 * n + d) s
      | none =>
          if underscore then none
          else if c = '_' then scanDigits true n s
          else some (n, c :: s)

/-- Read a number, which starts with a digit. -/
def readDigits : List Char → Option (Nat × List Char)
  | [] => none
  | c :: s =>
      match A.digit? c with
      | some d => A.scanDigits false d s
      | none => none

/-- Read a sign: the factor, and the rest. -/
def readSign : List Char → Int × List Char
  | '+' :: s => (1, s)
  | '-' :: s => (-1, s)
  | s => (1, s)

/-- Read an integer. -/
def readInt (s : List Char) : Option Int := do
  let (sign, s) := readSign (s.dropWhile A.space)
  let (n, rest) ← A.readDigits s
  if rest.all A.space then some (sign * n) else none

/-- Digits that single underscores may separate, and their number. -/
inductive Digits : List Char → Nat → Prop
  | one {c : Char} {d : Nat} : A.digit? c = some d → Digits [c] d
  | digit {s : List Char} {n : Nat} {c : Char} {d : Nat} : Digits s n → A.digit? c = some d →
      Digits (s ++ [c]) (10 * n + d)
  | underscore {s : List Char} {n : Nat} {c : Char} {d : Nat} : Digits s n → A.digit? c = some d →
      Digits (s ++ ['_', c]) (10 * n + d)

/-- The signs. -/
inductive Sign : List Char → Int → Prop
  | none : Sign [] 1
  | plus : Sign ['+'] 1
  | minus : Sign ['-'] (-1)

/-- The texts of an integer. -/
def IntText (s : List Char) (i : Int) : Prop :=
  ∃ before sign digits behind factor n, s = before ++ sign ++ digits ++ behind ∧
    before.all A.space ∧ Sign sign factor ∧ A.Digits digits n ∧ behind.all A.space ∧
    i = factor * (n : Nat)

variable {A} {s t rest : List Char} {n m : Nat} {c : Char} {underscore : Bool}

-- ============================================================================
-- What is read is a text
-- ============================================================================

/-- What was read before the scan goes on. -/
def Scanned (A : Alphabet) (s : List Char) (n : Nat) (underscore : Bool) : Prop :=
  if underscore then ∃ t, s = t ++ ['_'] ∧ A.Digits t n else A.Digits s n

theorem Scanned.digit {d : Nat} (h : Scanned A s n underscore) (hc : A.digit? c = some d) :
    Scanned A (s ++ [c]) (10 * n + d) false := by
  cases underscore with
  | false => exact .digit h hc
  | true =>
      obtain ⟨t, rfl, ht⟩ := h
      rw [List.append_assoc]
      exact .underscore ht hc

theorem scanDigits_sound (h : Scanned A s n underscore)
    (hscan : A.scanDigits underscore n t = some (m, rest)) :
    ∃ digits, s ++ t = digits ++ rest ∧ A.Digits digits m := by
  induction t generalizing s n underscore with
  | nil =>
      rw [scanDigits] at hscan
      cases underscore with
      | false =>
          cases hscan
          exact ⟨s, rfl, h⟩
      -- an underscore needs a digit behind it
      | true => cases hscan
  | cons c t ih =>
      rw [scanDigits] at hscan
      cases hc : A.digit? c with
      | some d =>
          rw [hc] at hscan
          obtain ⟨digits, hdigits, hm⟩ := ih (h.digit hc) hscan
          rw [List.append_assoc] at hdigits
          exact ⟨digits, hdigits, hm⟩
      | none =>
          rw [hc] at hscan
          cases underscore with
          | true => cases hscan
          | false =>
              by_cases hunder : c = '_'
              · subst hunder
                have hnext : Scanned A (s ++ ['_']) n true := ⟨s, rfl, h⟩
                obtain ⟨digits, hdigits, hm⟩ := ih hnext hscan
                rw [List.append_assoc] at hdigits
                exact ⟨digits, hdigits, hm⟩
              -- any other character ends the number
              · have hstop : some (n, c :: t) = some (m, rest) := by
                  simpa [hunder] using hscan
                cases hstop
                exact ⟨s, rfl, h⟩

theorem readDigits_sound (h : A.readDigits s = some (n, rest)) :
    ∃ digits, s = digits ++ rest ∧ A.Digits digits n := by
  cases s with
  | nil => cases h
  | cons c s =>
      rw [readDigits] at h
      cases hc : A.digit? c with
      | none =>
          rw [hc] at h
          cases h
      | some d =>
          rw [hc] at h
          have hfirst : Scanned A [c] d false := Digits.one hc
          exact scanDigits_sound hfirst h

theorem readSign_sound (s : List Char) :
    ∃ sign, Sign sign (readSign s).1 ∧ s = sign ++ (readSign s).2 := by
  rw [readSign.eq_def]
  split
  · exact ⟨_, .plus, rfl⟩
  · exact ⟨_, .minus, rfl⟩
  · exact ⟨_, .none, rfl⟩

-- ============================================================================
-- Every text is read
-- ============================================================================

/-- Digits that were read leave the scan at the number they mean. -/
theorem readDigits_append (h : A.Digits s n) (rest : List Char) :
    A.readDigits (s ++ rest) = A.scanDigits false n rest := by
  induction h generalizing rest with
  | one hc =>
      rw [List.singleton_append, readDigits, hc]
  | @digit s n c d _ hc ih =>
      rw [List.append_assoc, ih, List.singleton_append, scanDigits, hc]
  | @underscore s n c d _ hc ih =>
      have hnone : A.digit? '_' = none := A.not_digit '_' (by simp)
      rw [List.append_assoc, ih, List.cons_append, scanDigits, hnone]
      simp only [Bool.false_eq_true, if_false, if_true]
      rw [List.singleton_append, scanDigits, hc]

theorem scanDigits_space (h : rest.all A.space) (n : Nat) :
    A.scanDigits false n rest = some (n, rest) := by
  cases rest with
  | nil => rfl
  | cons c rest =>
      have hspace : A.space c := List.all_eq_true.mp h c List.mem_cons_self
      have hdigit : A.digit? c = none := by
        cases hc : A.digit? c with
        | none => rfl
        | some d => rw [A.not_space_digit c d hc] at hspace; cases hspace
      have hunder : c ≠ '_' := by
        rintro rfl
        rw [A.not_space '_' (by simp)] at hspace
        cases hspace
      rw [scanDigits, hdigit]
      simp [hunder]

/-- The first character of a number is a digit. -/
theorem Digits.exists_cons (h : A.Digits s n) : ∃ c d t, s = c :: t ∧ A.digit? c = some d := by
  induction h with
  | one hc => exact ⟨_, _, [], rfl, hc⟩
  | digit _ _ ih =>
      obtain ⟨c, d, t, rfl, hc⟩ := ih
      exact ⟨c, d, _, rfl, hc⟩
  | underscore _ _ ih =>
      obtain ⟨c, d, t, rfl, hc⟩ := ih
      exact ⟨c, d, _, rfl, hc⟩

theorem readSign_append {sign : List Char} {factor : Int} (hsign : Sign sign factor)
    (h : A.Digits s n) (rest : List Char) :
    readSign (sign ++ s ++ rest) = (factor, s ++ rest) := by
  cases hsign with
  | plus => rfl
  | minus => rfl
  -- digits do not look like a sign
  | none =>
      obtain ⟨c, d, t, rfl, hc⟩ := h.exists_cons
      have hplus : c ≠ '+' := by
        rintro rfl
        rw [A.not_digit '+' (by simp)] at hc
        cases hc
      have hminus : c ≠ '-' := by
        rintro rfl
        rw [A.not_digit '-' (by simp)] at hc
        cases hc
      rw [List.nil_append, List.cons_append, readSign.eq_def]
      split
      · rename_i heq
        exact absurd (List.cons.inj heq).1 hplus
      · rename_i heq
        exact absurd (List.cons.inj heq).1 hminus
      · rfl

/-- A sign or a digit ends the white space before it. -/
theorem dropWhile_space {before sign : List Char} {factor : Int} (hbefore : before.all A.space)
    (hsign : Sign sign factor) (h : A.Digits s n) (rest : List Char) :
    (before ++ (sign ++ s ++ rest)).dropWhile A.space = sign ++ s ++ rest := by
  rw [List.dropWhile_append_of_pos fun c hc => List.all_eq_true.mp hbefore c hc]
  obtain ⟨c, d, t, rfl, hc⟩ := h.exists_cons
  cases hsign with
  | plus => exact List.dropWhile_cons_of_neg (by simp [A.not_space '+' (by simp)])
  | minus => exact List.dropWhile_cons_of_neg (by simp [A.not_space '-' (by simp)])
  | none => exact List.dropWhile_cons_of_neg (by simp [A.not_space_digit c d hc])

/-- **Integers.**  The reader accepts exactly the texts of integers, and reads the integer that
    they mean. -/
theorem readInt_eq_some_iff {i : Int} : A.readInt s = some i ↔ A.IntText s i := by
  constructor
  · intro h
    obtain ⟨sign, hsign, hrest⟩ := readSign_sound (s.dropWhile A.space)
    rw [readInt] at h
    generalize readSign (s.dropWhile A.space) = p at h hsign hrest
    obtain ⟨⟨n, behind⟩, hread, h⟩ := Option.bind_eq_some_iff.mp h
    obtain ⟨digits, hdigits, hn⟩ := readDigits_sound hread
    -- behind the digits only white space is allowed
    by_cases hbehind : behind.all A.space
    · have hi : some (p.1 * (n : Int)) = some i := by simpa [hbehind] using h
      cases hi
      refine ⟨s.takeWhile A.space, sign, digits, behind, p.1, n, ?_, List.all_takeWhile, hsign, hn,
        hbehind, rfl⟩
      rw [List.append_assoc, List.append_assoc, ← hdigits, ← hrest, List.takeWhile_append_dropWhile]
    · simp [hbehind] at h
  · rintro ⟨before, sign, digits, behind, factor, n, rfl, hbefore, hsign, hn, hbehind, rfl⟩
    have hassoc : before ++ sign ++ digits ++ behind = before ++ (sign ++ digits ++ behind) := by
      simp only [List.append_assoc]
    rw [hassoc, readInt, dropWhile_space hbefore hsign hn, readSign_append hsign hn]
    show (A.readDigits (digits ++ behind)).bind _ = _
    rw [readDigits_append hn, scanDigits_space hbehind, Option.bind_some]
    exact if_pos hbehind

-- ============================================================================
-- What is written
-- ============================================================================

/-- An integer in decimal. -/
def written (i : Int) : List Char :=
  if i < 0 then '-' :: Nat.toDigits 10 i.natAbs else Nat.toDigits 10 i.natAbs

theorem digits_toDigits (A : Alphabet) (n : Nat) : A.Digits (Nat.toDigits 10 n) n := by
  induction n using Nat.strong_induction_on with
  | h n ih =>
      by_cases hlt : n < 10
      · rw [Nat.toDigits_of_lt_base hlt]
        exact .one (A.digitChar n hlt)
      · have hdigit := A.digitChar (n % 10) (Nat.mod_lt n (by omega))
        have hstep := Digits.digit (ih (n / 10) (by omega)) hdigit
        rw [Nat.toDigits_of_base_le (by omega) (by omega)]
        rwa [show 10 * (n / 10) + n % 10 = n by omega] at hstep

/-- A number is made of digits and underscores. -/
theorem Digits.of_mem (h : A.Digits s n) : ∀ c ∈ s, c = '_' ∨ (A.digit? c).isSome := by
  induction h with
  | one hc =>
      intro c hmem
      rw [List.mem_singleton.mp hmem, hc]
      exact Or.inr rfl
  | digit _ hc ih =>
      intro c hmem
      rcases List.mem_append.mp hmem with hmem | hmem
      · exact ih c hmem
      · rw [List.mem_singleton.mp hmem, hc]
        exact Or.inr rfl
  | underscore _ hc ih =>
      intro c hmem
      rcases List.mem_append.mp hmem with hmem | hmem
      · exact ih c hmem
      · rcases List.mem_cons.mp hmem with rfl | hmem
        · exact Or.inl rfl
        · rw [List.mem_singleton.mp hmem, hc]
          exact Or.inr rfl

/-- Other characters than digits, underscores and the minus sign are not written. -/
theorem not_mem_written (hc : A.digit? c = none) (hne : c ≠ '_' ∧ c ≠ '-') (i : Int) :
    c ∉ written i := by
  have hdigits : c ∉ Nat.toDigits 10 i.natAbs := by
    intro hmem
    rcases (digits_toDigits A i.natAbs).of_mem c hmem with h | h
    · exact hne.1 h
    · rw [hc] at h
      cases h
  rw [written]
  split
  · rw [List.mem_cons, not_or]
    exact ⟨hne.2, hdigits⟩
  · exact hdigits

/-- What is written is read again. -/
theorem intText_written (A : Alphabet) (i : Int) : A.IntText (written i) i := by
  have hdigits := digits_toDigits A i.natAbs
  rw [written]
  split
  · refine ⟨[], ['-'], _, [], -1, i.natAbs, ?_, rfl, .minus, hdigits, rfl, by omega⟩
    rw [List.append_nil]
    rfl
  · refine ⟨[], [], _, [], 1, i.natAbs, ?_, rfl, .none, hdigits, rfl, by omega⟩
    rw [List.append_nil]
    rfl

end Alphabet

end MLocust.Lib
