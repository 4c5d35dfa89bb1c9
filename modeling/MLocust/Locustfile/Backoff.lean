/-
  MLocust.Locustfile.Backoff

  When a failing loader backs off.

  An execution of `_bulkinsert` whose generation or insertion raises writes to the
  audit collection before it sleeps.  If that raises as well, the exception escapes
  the task, and Locust starts the next execution without any sleep.  The log of a
  run is that of its executions one after the other (`execute_events`), so a run
  backs off from every failure exactly when the audit collection answered in each
  of its failing executions (`loaders_back_off_iff`).
-/
import MLocust.Lib.Answered
import MLocust.Locustfile.Bulkinsert

namespace MLocust.Locustfile

open Lib Lib.Program Faker

variable {π Doc : Type}

/-- Generation or `insert_many` raised. -/
def Event.Failed : Event Doc → Prop
  | .generation raised => raised.isSome
  | .insertMany _ _ raised => raised.isSome
  | _ => False

/-- The sleep of 5 seconds. -/
def Event.IsBackoff : Event Doc → Prop
  | .sleep seconds => seconds = 5
  | _ => False

/-- An attempt at generation or insertion. -/
def Event.IsAttempt : Event Doc → Prop
  | .generation _ => True
  | .insertMany _ _ _ => True
  | _ => False

/-- Every failure is followed by the sleep before the next attempt. -/
def BacksOff (events : List (Event Doc)) : Prop :=
  Answered Event.Failed Event.IsBackoff Event.IsAttempt events

/-- Generation raises in this state, or `insert_many` does. -/
def Loader.AttemptRaises (l : Loader π Doc) (p : π) (r : Replies) : Prop :=
  match l.generate p with
  | .ok _ _ => r.insertMany.isSome
  | .error _ _ => True

/-- What generation makes of its state. -/
def Loader.after (l : Loader π Doc) (p : π) : π :=
  match l.generate p with
  | .ok _ p' => p'
  | .error _ p' => p'

/-- The audit collection answers in every execution in which generation or `insert_many`
    raises. -/
def Loader.AuditAnswers (l : Loader π Doc) : π → List Replies → Prop
  | _, [] => True
  | p, r :: replies =>
      (l.AttemptRaises p r → r.insertOne = none) ∧ l.AuditAnswers (l.after p) replies

theorem not_isBackoff_of_isAttempt (x : Event Doc) (h : x.IsAttempt) : ¬ x.IsBackoff := by
  cases x with
  | generation raised => exact id
  | insertMany docs ordered raised => exact id
  | requestSuccess request => exact h.elim
  | requestFailure request e => exact h.elim
  | print text msg => exact h.elim
  | insertOne doc raised => exact h.elim
  | sleep seconds => exact h.elim
  | taskError e => exact h.elim

-- ============================================================================
-- One execution
-- ============================================================================

/-- The arguments of the events fired after an attempt. -/
def fired (tic now : Rat) : Request :=
  ⟨"pymongo".toList, "bulkinsert".toList, (now - tic) * 1000, 0⟩

/-- The `try` block of `_bulkinsert`. -/
def attempt (l : Loader π Doc) (r : Replies) (tic : Rat) : Task π Doc Unit := do
  let docs ← l.generation
  perform (.insertMany docs l.ordered) r.insertMany
  let now ← getTime
  emit (.requestSuccess (fired tic now))

/-- The `except` block of `_bulkinsert`. -/
def handler (r : Replies) (tic : Rat) (e : Exc) : Task π Doc Unit := do
  let now ← getTime
  emit (.requestFailure (fired tic now) e)
  auditErr r "exception".toList e
  emit (.sleep 5)

variable {l : Loader π Doc} {r : Replies} {s t : UserState π Doc} {p : π} {e : Exc}

/-- What the handler does before it sleeps. -/
def reported (s : UserState π Doc) (tic : Rat) (e : Exc) (raised : Option Exc) :
    List (Event Doc) :=
  [.requestFailure (fired tic (s.clock 0)) e, .print "Audit: ".toList e,
    .insertOne ⟨"exception".toList, s.clock 1, e⟩ raised]

/-- The state after the handler has done this. -/
def UserState.afterReport (s : UserState π Doc) (tic : Rat) (e : Exc) (raised : Option Exc) :
    UserState π Doc :=
  ⟨s.process, fun n => s.clock (n + 2), s.events ++ reported s tic e raised⟩

theorem handler_apply (r : Replies) (tic : Rat) (e : Exc) (s : UserState π Doc) :
    handler r tic e s = match r.insertOne with
      | none => emit (.sleep 5) (s.afterReport tic e none)
      | some e' => .error e' (s.afterReport tic e (some e')) := by
  have hevents : ∀ x y z : Event Doc, s.events ++ [x] ++ [y] ++ [z] = s.events ++ [x, y, z] := by
    intro x y z
    simp only [List.append_assoc, List.cons_append, List.nil_append]
  rw [handler, auditErr]
  cases h : r.insertOne with
  | none =>
      show _ = emit (.sleep 5) (s.afterReport tic e none)
      rw [UserState.afterReport, reported, ← hevents]
      rfl
  | some e' =>
      show _ = EStateM.Result.error e' (s.afterReport tic e (some e'))
      rw [UserState.afterReport, reported, ← hevents]
      rfl

/-- What an attempt that raises `e` has done. -/
inductive Attempted (l : Loader π Doc) (e : Exc) : List (Event Doc) → Prop
  | generation : Attempted l e [.generation (some e)]
  | insertMany (docs) :
      Attempted l e [.generation none, .insertMany docs l.ordered (some e)]

theorem attempt_raises (h : l.AttemptRaises s.process r) (tic : Rat) :
    ∃ e log t, attempt l r tic s = .error e t ∧ Attempted l e log ∧
      t.process = l.after s.process ∧ t.events = s.events ++ log := by
  rw [Loader.AttemptRaises] at h
  rw [Loader.after, attempt]
  cases hg : l.generate s.process with
  | error e p =>
      have hgen : l.generation s = .error e ⟨p, s.clock, s.events ++ [.generation (some e)]⟩ := by
        rw [Loader.generation, hg]
      exact ⟨e, _, _, bind_of_error hgen, .generation, rfl, rfl⟩
  | ok docs p =>
      have hgen : l.generation s = .ok docs ⟨p, s.clock, s.events ++ [.generation none]⟩ := by
        rw [Loader.generation, hg]
      rw [hg] at h
      obtain ⟨e, he⟩ := Option.isSome_iff_exists.mp h
      rw [bind_of_ok hgen, he]
      refine ⟨e, _, _, bind_of_error rfl, .insertMany docs, rfl, ?_⟩
      show s.events ++ [.generation none] ++ [_] = _
      rw [List.append_assoc]
      rfl

theorem attempt_returns (h : ¬ l.AttemptRaises s.process r) (tic : Rat) :
    ∃ docs q t, attempt l r tic s = .ok () t ∧ t.process = l.after s.process ∧
      t.events = s.events ++
        [.generation none, .insertMany docs l.ordered none, .requestSuccess q] := by
  rw [Loader.AttemptRaises] at h
  rw [Loader.after, attempt]
  cases hg : l.generate s.process with
  | error e p =>
      rw [hg] at h
      exact absurd trivial h
  | ok docs p =>
      have hgen : l.generation s = .ok docs ⟨p, s.clock, s.events ++ [.generation none]⟩ := by
        rw [Loader.generation, hg]
      rw [hg] at h
      have hnone : r.insertMany = none := Option.not_isSome_iff_eq_none.mp h
      rw [bind_of_ok hgen, hnone]
      refine ⟨docs, fired tic (s.clock 0), _, rfl, rfl, ?_⟩
      show s.events ++ [.generation none] ++ [_] ++ [_] = _
      rw [List.append_assoc, List.append_assoc]
      rfl

theorem Attempted.starts {log rest : List (Event Doc)} (h : Attempted l e log) :
    ∀ x ∈ (log ++ rest).head?, x.IsAttempt := by
  cases h with
  | generation =>
      rintro x ⟨⟩
      trivial
  | insertMany docs =>
      rintro x ⟨⟩
      trivial

/-- The report of a failure that is followed by the sleep. -/
theorem Attempted.backsOff {log : List (Event Doc)} (h : Attempted l e log) (tic : Rat)
    (raised : Option Exc) : BacksOff (log ++ (reported s tic e raised ++ [.sleep 5])) := by
  cases h with
  | generation =>
      simp [BacksOff, Answered, AnswerComes, reported, Event.Failed, Event.IsBackoff,
        Event.IsAttempt]
  | insertMany docs =>
      simp [BacksOff, Answered, AnswerComes, reported, Event.Failed, Event.IsBackoff,
        Event.IsAttempt]

/-- The report of a failure from which another exception escapes. -/
theorem Attempted.not_backsOff {log : List (Event Doc)} (h : Attempted l e log) (tic : Rat)
    (raised : Option Exc) (e' : Exc) :
    ¬ BacksOff (log ++ (reported s tic e raised ++ [.taskError e'])) := by
  cases h with
  | generation =>
      simp [BacksOff, Answered, AnswerComes, reported, Event.Failed, Event.IsBackoff,
        Event.IsAttempt]
  | insertMany docs =>
      simp [BacksOff, Answered, AnswerComes, reported, Event.Failed, Event.IsBackoff,
        Event.IsAttempt]

/-- **One execution.**  It starts with an attempt, and backs off unless the audit collection
    raises after a failure. -/
theorem execute_events (l : Loader π Doc) (r : Replies) (s : UserState π Doc) :
    ∃ log, (execute l s r).events = s.events ++ log ∧
      (execute l s r).process = l.after s.process ∧ (∀ x ∈ log.head?, x.IsAttempt) ∧
      (BacksOff log ↔ (l.AttemptRaises s.process r → r.insertOne = none)) := by
  let s₁ : UserState π Doc := { s with clock := fun n => s.clock (n + 1) }
  have hrun : bulkinsert l r s =
      tryCatch (attempt l r (s.clock 0)) (handler r (s.clock 0)) s₁ := rfl
  by_cases hraise : l.AttemptRaises s.process r
  -- the attempt raised, so the handler runs
  · obtain ⟨e, log, t, ht, hlog, hprocess, hevents⟩ := attempt_raises (s := s₁) hraise (s.clock 0)
    rw [execute, hrun, tryCatch_of_error ht, handler_apply]
    cases ho : r.insertOne with
    | none =>
        refine ⟨log ++ (reported t (s.clock 0) e none ++ [.sleep 5]), ?_, hprocess, hlog.starts, ?_⟩
        · show t.events ++ reported t (s.clock 0) e none ++ [.sleep 5] = _
          rw [hevents, List.append_assoc, List.append_assoc]
        · exact iff_of_true (hlog.backsOff _ _) fun _ => rfl
    | some e' =>
        refine ⟨log ++ (reported t (s.clock 0) e (some e') ++ [.taskError e']), ?_, hprocess,
          hlog.starts, ?_⟩
        · show t.events ++ reported t (s.clock 0) e (some e') ++ [.taskError e'] = _
          rw [hevents, List.append_assoc, List.append_assoc]
        · exact iff_of_false (hlog.not_backsOff _ _ _) fun h => nomatch h hraise
  -- the attempt returned, and there is nothing to back off from
  · obtain ⟨docs, q, t, ht, hprocess, hevents⟩ := attempt_returns (s := s₁) hraise (s.clock 0)
    rw [execute, hrun, tryCatch_of_ok ht]
    refine ⟨_, hevents, hprocess, ?_, iff_of_true ?_ fun h => absurd h hraise⟩
    · rintro x ⟨⟩
      trivial
    · simp [BacksOff, Answered, Event.Failed]

-- ============================================================================
-- A run
-- ============================================================================

theorem run_cons (l : Loader π Doc) (s : UserState π Doc) (r : Replies) (replies : List Replies) :
    run l s (r :: replies) = run l (execute l s r) replies := rfl

/-- The log of a run, from any state. -/
theorem run_events (l : Loader π Doc) (replies : List Replies) (s : UserState π Doc) :
    ∃ log, (run l s replies).events = s.events ++ log ∧ (∀ x ∈ log.head?, x.IsAttempt) ∧
      (BacksOff log ↔ l.AuditAnswers s.process replies) := by
  induction replies generalizing s with
  | nil => exact ⟨[], (List.append_nil _).symm, fun x hx => (nomatch hx), Iff.rfl⟩
  | cons r replies ih =>
      obtain ⟨log, hlog, hprocess, hstart, hback⟩ := execute_events l r s
      obtain ⟨rest, hrest, hstart', hback'⟩ := ih (execute l s r)
      refine ⟨log ++ rest, ?_, ?_, ?_⟩
      · rw [run_cons, hrest, hlog, List.append_assoc]
      · cases log with
        | nil => exact hstart'
        | cons x log => exact hstart
      · rw [BacksOff, answered_append not_isBackoff_of_isAttempt hstart', ← BacksOff, ← BacksOff,
          hback, hback', hprocess]
        exact Iff.rfl

/-- A user of any loader backs off from every failure exactly when the audit collection answers
    in each of its failing executions. -/
theorem backsOff_run_iff (l : Loader π Doc) (p : π) (clock : Nat → Rat) (replies : List Replies) :
    BacksOff (run l (.start p clock) replies).events ↔ l.AuditAnswers p replies := by
  obtain ⟨log, hlog, _, hback⟩ := run_events l replies (.start p clock)
  rw [hlog]
  exact hback

/-- **When a failing loader backs off.**  Each of the three loaders, in every run, sleeps after
    every failure before it tries again, if and only if the audit collection answers in every
    execution in which generation or `insert_many` raises. -/
theorem loaders_back_off_iff (M : DocMerger) (env : Env) (model : PyStr) (w : World)
    (create : EStateM Exc π Doc) (schemaMul : Int → EStateM Exc π (List Doc)) (p : π)
    (bulkSize : Int) (clock : Nat → Rat) (replies : List Replies) :
    (BacksOff (run (fakerLoader M env model bulkSize) (.start w clock) replies).events ↔
      (fakerLoader M env model bulkSize).AuditAnswers w replies) ∧
    (BacksOff (run (fakerCustomLoader create bulkSize) (.start p clock) replies).events ↔
      (fakerCustomLoader create bulkSize).AuditAnswers p replies) ∧
    (BacksOff (run (mimesisLoader schemaMul bulkSize) (.start p clock) replies).events ↔
      (mimesisLoader schemaMul bulkSize).AuditAnswers p replies) :=
  ⟨backsOff_run_iff _ w clock replies, backsOff_run_iff _ p clock replies,
    backsOff_run_iff _ p clock replies⟩

/-- A worker that has no model files. -/
def emptyEnv : Env where
  isfile := fun _ => false
  rows := fun _ => []
  expr := fun text => .raise text

/-- A cluster that has gone away. -/
def gone : Replies where
  insertMany := some (.pymongo "connection refused".toList)
  insertOne := some (.pymongo "connection refused".toList)

/-- A loader that finds neither its model file nor its cluster goes on without any sleep. -/
theorem loader_does_not_back_off :
    ¬ BacksOff (run (fakerLoader merger emptyEnv "member.csv".toList 100)
      (.start (World.fresh fun _ => 1) fun _ => 0) [gone, gone]).events := by
  rw [backsOff_run_iff]
  rintro ⟨h, _⟩
  cases h trivial

end MLocust.Locustfile
