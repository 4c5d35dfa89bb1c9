/-
  MLocust.Lib.Numeral

  Strings that end in a decimal numeral.

  A name `stem ++ numeral` can be read in more than one way, since nothing marks
  where the numeral starts.  `append_toDigits_eq` says exactly how two such names
  coincide: the stems are equal and so are the numbers, or one stem is the other
  followed by a numeral of its own.
-/
import Mathlib.Data.List.Basic
import Mathlib.Data.List.Infix

namespace MLocust.Lib

/-- `t` is `s` followed by the numeral of a positive number. -/
def NumeralExtension (s t : List Char) : Prop := ∃ n, 0 < n ∧ t = s ++ Nat.toDigits 10 n

theorem toDigits_injective {m n : Nat} (h : Nat.toDigits 10 m = Nat.toDigits 10 n) : m = n := by
  have hval := congrArg (fun ds => Nat.ofDigitChars 10 ds 0) h
  simpa only [Nat.ofDigitChars_ten_toDigits] using hval

/-- One more digit at the end of a numeral. -/
theorem toDigits_append_digit {n d : Nat} (hn : 0 < n) (hd : d < 10) :
    Nat.toDigits 10 n ++ Nat.toDigits 10 d = Nat.toDigits 10 (10 * n + d) :=
  Nat.toDigits_append_toDigits (by omega) hn hd

/-- A numeral cut short is still a numeral. -/
theorem exists_toDigits_of_isPrefix {n : Nat} (hn : 0 < n) {ds : List Char} (hne : ds ≠ [])
    (h : ds <+: Nat.toDigits 10 n) : ∃ m, 0 < m ∧ ds = Nat.toDigits 10 m := by
  induction n using Nat.strong_induction_on with
  | h n ih =>
      by_cases hlt : n < 10
      · rw [Nat.toDigits_of_lt_base hlt, ← List.nil_append [n.digitChar]] at h
        rcases List.prefix_concat_iff.mp h with hds | hnil
        · refine ⟨n, hn, ?_⟩
          rw [hds, Nat.toDigits_of_lt_base hlt, List.nil_append]
        · exact absurd (List.prefix_nil.mp hnil) hne
      · rw [Nat.toDigits_of_base_le (by omega) (by omega)] at h
        rcases List.prefix_concat_iff.mp h with hds | hpre
        · refine ⟨n, hn, ?_⟩
          rw [hds, ← Nat.toDigits_of_base_le (by omega) (by omega)]
        · exact ih (n / 10) (by omega) (by omega) hpre

/-- A stem that is longer than another one with the same name has a numeral on top of it. -/
theorem numeralExtension_of_append_eq {s r ds : List Char} {n : Nat} (hn : 0 < n)
    (hr : r ≠ []) (h : s ++ Nat.toDigits 10 n = (s ++ r) ++ ds) : NumeralExtension s (s ++ r) := by
  rw [List.append_assoc] at h
  have hds := List.append_cancel_left h
  have hpre : r <+: Nat.toDigits 10 n := ⟨ds, hds.symm⟩
  obtain ⟨m, hm, rfl⟩ := exists_toDigits_of_isPrefix hn hr hpre
  exact ⟨m, hm, rfl⟩

/-- Two numbered names coincide only when stems and numbers do, or when one stem extends
    the other by a numeral. -/
theorem append_toDigits_eq {s t : List Char} {m n : Nat} (hm : 0 < m) (hn : 0 < n)
    (h : s ++ Nat.toDigits 10 m = t ++ Nat.toDigits 10 n) :
    (s = t ∧ m = n) ∨ NumeralExtension s t ∨ NumeralExtension t s := by
  rcases List.append_eq_append_iff.mp h with ⟨r, rfl, hr⟩ | ⟨r, rfl, hr⟩
  · by_cases hnil : r = []
    · subst hnil
      exact Or.inl ⟨(List.append_nil s).symm, toDigits_injective (by simpa using hr)⟩
    · exact Or.inr (Or.inl (numeralExtension_of_append_eq hm hnil h))
  · by_cases hnil : r = []
    · subst hnil
      exact Or.inl ⟨List.append_nil t, (toDigits_injective (by simpa using hr)).symm⟩
    · exact Or.inr (Or.inr (numeralExtension_of_append_eq hn hnil h.symm))

/-- A stem that extends another one meets one of its names as soon as it is numbered. -/
theorem NumeralExtension.collides {s t : List Char} (h : NumeralExtension s t) :
    ∃ n, 0 < n ∧ s ++ Nat.toDigits 10 n = t ++ Nat.toDigits 10 1 := by
  obtain ⟨n, hn, rfl⟩ := h
  refine ⟨10 * n + 1, by omega, ?_⟩
  rw [← toDigits_append_digit hn (by omega), List.append_assoc]

theorem NumeralExtension.ne {s t : List Char} (h : NumeralExtension s t) : s ≠ t := by
  obtain ⟨n, _, rfl⟩ := h
  intro hs
  exact Nat.toDigits_ne_nil (List.self_eq_append_right.mp hs)

end MLocust.Lib
