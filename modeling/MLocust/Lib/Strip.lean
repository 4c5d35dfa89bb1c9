/-
  MLocust.Lib.Strip

  Two-sided trimming of a list: drop from both ends the elements satisfying a
  predicate.  This is the list form of Python's `str.strip(chars)`.

  The list form of `str.split(sep)` is Mathlib's `splitOn`; no part of a list that
  was split holds the separator (`not_mem_of_mem_splitOn`).
-/
import Mathlib.Data.List.DropRight

namespace MLocust.Lib

variable {α : Type _} {p : α → Bool}

/-- Drop the elements satisfying `p` from both ends of `l`. -/
def strip (p : α → Bool) (l : List α) : List α :=
  (l.dropWhile p).rdropWhile p

@[simp] theorem strip_nil : strip p ([] : List α) = [] := rfl

theorem rdropWhile_cons_of_neg {a : α} (ha : ¬ p a) (l : List α) :
    (a :: l).rdropWhile p = a :: l.rdropWhile p := by
  induction l using List.reverseRecOn with
  | nil => simp [List.rdropWhile_singleton, ha]
  | append_singleton l x ih =>
      rw [← List.cons_append]
      by_cases hx : p x
      · rw [List.rdropWhile_concat_pos p (a :: l) x hx,
          List.rdropWhile_concat_pos p l x hx, ih]
      · rw [List.rdropWhile_concat_neg p (a :: l) x hx,
          List.rdropWhile_concat_neg p l x hx, List.cons_append]

theorem strip_cons_of_pos {a : α} (ha : p a) (l : List α) :
    strip p (a :: l) = strip p l := by
  rw [strip, List.dropWhile_cons_of_pos ha, strip]

theorem strip_cons_of_neg {a : α} (ha : ¬ p a) (l : List α) :
    strip p (a :: l) = a :: l.rdropWhile p := by
  rw [strip, List.dropWhile_cons_of_neg ha, rdropWhile_cons_of_neg ha]

/-- Trimming the right end first does not change the two-sided trim. -/
theorem strip_rdropWhile (l : List α) : strip p (l.rdropWhile p) = strip p l := by
  induction l with
  | nil => rfl
  | cons a l ih =>
      by_cases ha : p a
      · rw [strip_cons_of_pos ha]
        -- either all is stripped, or the end is stripped of the rest
        by_cases hl : ∀ x ∈ l, p x
        · have hall : (a :: l).rdropWhile p = [] := by
            rw [List.rdropWhile_eq_nil_iff]
            simpa [ha] using hl
          have hnil : strip p l = [] := by
            rw [strip, List.dropWhile_eq_nil_iff.mpr hl, List.rdropWhile_nil]
          rw [hall, hnil, strip_nil]
        · have hcons : (a :: l).rdropWhile p = a :: l.rdropWhile p := by
            have hne : (l.reverse.dropWhile p).isEmpty = false := by
              rw [Bool.eq_false_iff, ne_eq, List.isEmpty_iff, List.dropWhile_eq_nil_iff]
              simpa using hl
            rw [List.rdropWhile, List.reverse_cons, List.dropWhile_append, hne]
            simp [List.rdropWhile]
          rw [hcons, strip_cons_of_pos ha, ih]
      · rw [rdropWhile_cons_of_neg ha, strip_cons_of_neg ha, strip_cons_of_neg ha,
          List.rdropWhile_idempotent]

/-- What is left after trimming does not end in a trimmed element. -/
theorem strip_getLast (l : List α) (h : strip p l ≠ []) : ¬ p ((strip p l).getLast h) :=
  List.rdropWhile_last_not p _ h

theorem strip_sublist (l : List α) : (strip p l).Sublist l :=
  (List.rdropWhile_prefix p _).sublist.trans (List.dropWhile_sublist p)

/-- Trimming is the identity on a list whose ends are kept. -/
theorem strip_eq_self {a : α} {l : List α} (ha : ¬ p a)
    (hlast : ¬ p ((a :: l).getLast (List.cons_ne_nil a l))) : strip p (a :: l) = a :: l := by
  rw [strip, List.dropWhile_cons_of_neg ha, List.rdropWhile_eq_self_iff]
  exact fun _ => hlast

/-- Nothing is trimmed off a list without trimmed elements. -/
theorem strip_of_forall_neg {l : List α} (h : ∀ x ∈ l, ¬ p x) : strip p l = l := by
  cases l with
  | nil => rfl
  | cons a l => exact strip_eq_self (h a List.mem_cons_self) (h _ (List.getLast_mem _))

/-- Trimmed elements at the right end do not matter. -/
theorem strip_append_of_forall {l t : List α} (h : ∀ x ∈ t, p x) :
    strip p (l ++ t) = strip p l := by
  have hright : (l ++ t).rdropWhile p = l.rdropWhile p := by
    have hrev : ∀ x ∈ t.reverse, p x := fun x hx => h x (List.mem_reverse.mp hx)
    rw [List.rdropWhile, List.rdropWhile, List.reverse_append,
      List.dropWhile_append_of_pos hrev]
  rw [← strip_rdropWhile, hright, strip_rdropWhile]

/-- Trimmed elements at the left end do not matter. -/
theorem strip_of_forall_append {l t : List α} (h : ∀ x ∈ t, p x) :
    strip p (t ++ l) = strip p l := by
  rw [strip, List.dropWhile_append_of_pos h, strip]

/-- No part of a text that was split holds the separator. -/
theorem not_mem_of_mem_splitOn [DecidableEq α] {a : α} {s part : List α}
    (h : part ∈ s.splitOn a) : a ∉ part := by
  induction s generalizing part with
  | nil =>
      rw [List.splitOn_nil, List.mem_singleton] at h
      subst h
      exact List.not_mem_nil
  | cons x s ih =>
      rw [List.splitOn_cons_eq_if_modifyHead] at h
      by_cases hx : x = a
      · rw [if_pos (by simpa using hx)] at h
        rcases List.mem_cons.mp h with rfl | h
        · exact List.not_mem_nil
        · exact ih h
      · rw [if_neg (by simpa using hx)] at h
        obtain ⟨first, rest, hsplit⟩ := List.exists_cons_of_ne_nil (List.splitOn_ne_nil a s)
        rw [hsplit] at h ih
        rcases List.mem_cons.mp h with rfl | h
        · rw [List.mem_cons, not_or]
          exact ⟨Ne.symm hx, ih List.mem_cons_self⟩
        · exact ih (List.mem_cons_of_mem _ h)

end MLocust.Lib
