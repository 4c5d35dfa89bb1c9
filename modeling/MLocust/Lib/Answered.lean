/-
  MLocust.Lib.Answered

  Logs of events in which every failure is answered before the next attempt.

  Three kinds of events matter: failures, answers, and attempts.  A log is
  `Answered` when each failure in it is followed by an answer, with no attempt in
  between (`answered_iff`).  If every round of a loop starts with an attempt, then
  the log of a run is answered exactly when the log of each round is
  (`answered_append`): no answer comes from a later round.
-/
import Mathlib.Data.List.Basic

namespace MLocust.Lib

variable {E : Type} {failure answer attempt : E → Prop} {log rest : List E}

/-- There is an answer in the log, and no attempt before it. -/
def AnswerComes (answer attempt : E → Prop) : List E → Prop
  | [] => False
  | x :: log => answer x ∨ (¬ attempt x ∧ AnswerComes answer attempt log)

/-- Every failure in the log is followed by an answer before the next attempt. -/
def Answered (failure answer attempt : E → Prop) : List E → Prop
  | [] => True
  | x :: log => (failure x → AnswerComes answer attempt log) ∧ Answered failure answer attempt log

theorem answerComes_iff :
    AnswerComes answer attempt log ↔
      ∃ before x after, log = before ++ x :: after ∧ answer x ∧ ∀ y ∈ before, ¬ attempt y := by
  induction log with
  | nil => simp [AnswerComes]
  | cons x log ih =>
      rw [AnswerComes, ih]
      constructor
      · rintro (hx | ⟨hx, before, y, after, rfl, hy, hbefore⟩)
        · exact ⟨[], x, log, rfl, hx, fun _ hmem => nomatch hmem⟩
        · exact ⟨x :: before, y, after, rfl, hy, List.forall_mem_cons.mpr ⟨hx, hbefore⟩⟩
      · rintro ⟨before, y, after, hlog, hy, hbefore⟩
        cases before with
        | nil =>
            cases hlog
            exact Or.inl hy
        | cons z before =>
            cases hlog
            obtain ⟨hz, hbefore⟩ := List.forall_mem_cons.mp hbefore
            exact Or.inr ⟨hz, before, y, after, rfl, hy, hbefore⟩

/-- What being answered means: each failure is followed by an answer, with no attempt between the
    two. -/
theorem answered_iff :
    Answered failure answer attempt log ↔
      ∀ before x after, log = before ++ x :: after → failure x →
        ∃ between y later, after = between ++ y :: later ∧ answer y ∧
          ∀ z ∈ between, ¬ attempt z := by
  induction log with
  | nil => simp [Answered]
  | cons x log ih =>
      rw [Answered, ih, answerComes_iff]
      constructor
      · rintro ⟨hx, hlog⟩ before y after heq hy
        cases before with
        | nil =>
            cases heq
            exact hx hy
        | cons z before =>
            cases heq
            exact hlog before y after rfl hy
      · intro h
        refine ⟨h [] x log rfl, fun before y after heq => h (x :: before) y after ?_⟩
        rw [heq, List.cons_append]

section Rounds

variable (hdisjoint : ∀ x, attempt x → ¬ answer x) (hrest : ∀ x ∈ rest.head?, attempt x)

include hdisjoint hrest

/-- No answer comes from a log that starts with an attempt. -/
theorem answerComes_append :
    AnswerComes answer attempt (log ++ rest) ↔ AnswerComes answer attempt log := by
  induction log with
  | nil =>
      cases rest with
      | nil => rfl
      | cons x rest =>
          have hx : attempt x := hrest x rfl
          simp [AnswerComes, hx, hdisjoint x hx]
  | cons x log ih => rw [List.cons_append, AnswerComes, AnswerComes, ih]

/-- The log of two rounds is answered when the log of each is. -/
theorem answered_append :
    Answered failure answer attempt (log ++ rest) ↔
      Answered failure answer attempt log ∧ Answered failure answer attempt rest := by
  induction log with
  | nil => simp [Answered]
  | cons x log ih =>
      rw [List.cons_append, Answered, Answered, ih, answerComes_append hdisjoint hrest, and_assoc]

end Rounds

end MLocust.Lib
