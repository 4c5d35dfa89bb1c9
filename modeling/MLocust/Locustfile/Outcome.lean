/-
  MLocust.Locustfile.Outcome

  What an execution of `_bulkinsert` amounts to.

  An execution ends in one of three ways: the batch was inserted, its generation
  raised, or `insert_many` raised; and after a failure the audit collection answers
  or raises.  `Execution` is such an ending with the readings of the clock, and
  `Execution.log` is what it logs.  The log of a run is the logs of its executions,
  one after the other (`run_eq`).

  So a run can be counted: every execution fires exactly one request event, and
  every failure is audited exactly once (`run_accounted`).  And it can be timed: the
  executions do not overlap, so the response times of a run fit between its first
  and its last reading of the clock (`response_times_fit`).
-/
import MLocust.Locustfile.Backoff
import Mathlib.Algebra.Order.Field.Rat
import Mathlib.Algebra.BigOperators.Group.List.Basic
import Mathlib.Order.Monotone.Defs
import Mathlib.Tactic.Linarith

namespace MLocust.Locustfile

open Lib Lib.Program Faker

variable {π Doc : Type}

-- ============================================================================
-- Executions
-- ============================================================================

/-- What an execution failed at, with the exception: generation, or `insert_many` of the
    documents. -/
inductive Failure (Doc : Type) where
  | generation (e : Exc)
  | insertMany (docs : List Doc) (e : Exc)

/-- How an execution ended, with its readings of the clock. -/
inductive Execution (Doc : Type) where
  | inserted (tic now : Rat) (docs : List Doc)
  | failed (tic now ts : Rat) (failure : Failure Doc) (audit : Option Exc)

/-- The exception that is reported. -/
def Failure.exc : Failure Doc → Exc
  | .generation e => e
  | .insertMany _ e => e

/-- The attempt that failed. -/
def Failure.log (ordered : Bool) : Failure Doc → List (Event Doc)
  | .generation e => [.generation (some e)]
  | .insertMany docs e => [.generation none, .insertMany docs ordered (some e)]

/-- The end of a failed execution: the sleep, or the exception that escapes. -/
def afterAudit : Option Exc → Event Doc
  | none => .sleep 5
  | some e => .taskError e

/-- What an execution logs. -/
def Execution.log (ordered : Bool) : Execution Doc → List (Event Doc)
  | .inserted tic now docs =>
      [.generation none, .insertMany docs ordered none, .requestSuccess (fired tic now)]
  | .failed tic now ts failure audit =>
      failure.log ordered ++
        [.requestFailure (fired tic now) failure.exc, .print "Audit: ".toList failure.exc,
          .insertOne ⟨"exception".toList, ts, failure.exc⟩ audit, afterAudit audit]

/-- The number of times an execution reads the clock. -/
def Execution.readings : Execution Doc → Nat
  | .inserted _ _ _ => 2
  | .failed _ _ _ _ _ => 3

/-- The execution of a loader in a given state. -/
def Loader.execution (l : Loader π Doc) (p : π) (clock : Nat → Rat) (r : Replies) :
    Execution Doc :=
  match l.generate p with
  | .ok docs _ =>
      match r.insertMany with
      | none => .inserted (clock 0) (clock 1) docs
      | some e => .failed (clock 0) (clock 1) (clock 2) (.insertMany docs e) r.insertOne
  | .error e _ => .failed (clock 0) (clock 1) (clock 2) (.generation e) r.insertOne

/-- The executions of a run. -/
def Loader.executions (l : Loader π Doc) : π → (Nat → Rat) → List Replies → List (Execution Doc)
  | _, _, [] => []
  | p, clock, r :: replies =>
      let x := l.execution p clock r
      x :: l.executions (l.after p) (fun n => clock (n + x.readings)) replies

/-- The process after a run. -/
def Loader.afterRun (l : Loader π Doc) (p : π) (replies : List Replies) : π :=
  replies.foldl (fun p _ => l.after p) p

variable {l : Loader π Doc} {r : Replies} {s : UserState π Doc}

/-- **One execution** takes the clock and the log on by what it amounts to. -/
theorem execute_eq (l : Loader π Doc) (s : UserState π Doc) (r : Replies) :
    execute l s r = ⟨l.after s.process,
      fun n => s.clock (n + (l.execution s.process s.clock r).readings),
      s.events ++ (l.execution s.process s.clock r).log l.ordered⟩ := by
  let s₁ : UserState π Doc := { s with clock := fun n => s.clock (n + 1) }
  have hrun : bulkinsert l r s =
      tryCatch (attempt l r (s.clock 0)) (handler r (s.clock 0)) s₁ := rfl
  rw [execute, hrun, Loader.after, Loader.execution]
  cases hg : l.generate s.process with
  -- generation raised: the handler audits, and sleeps if the audit was written
  | error e p =>
      have hfail : attempt l r (s.clock 0) s₁ =
          .error e ⟨p, s₁.clock, s.events ++ [.generation (some e)]⟩ := by
        apply bind_of_error
        rw [Loader.generation, hg]
      rw [tryCatch_of_error hfail, handler_apply]
      cases ho : r.insertOne with
      | none =>
          show UserState.mk _ _ (s.events ++ _ ++ _ ++ [_]) = _
          simp only [List.append_assoc]
          rfl
      | some e' =>
          show UserState.mk _ _ (s.events ++ _ ++ _ ++ [_]) = _
          simp only [List.append_assoc]
          rfl
  | ok docs p =>
      have hgen : l.generation s₁ = .ok docs ⟨p, s₁.clock, s.events ++ [.generation none]⟩ := by
        rw [Loader.generation, hg]
      cases hi : r.insertMany with
      -- `insert_many` returned, and the request is reported
      | none =>
          have hok : attempt l r (s.clock 0) s₁ = .ok () ⟨p, fun n => s.clock (n + 2),
              s.events ++ [.generation none] ++ [.insertMany docs l.ordered none] ++
                [.requestSuccess (fired (s.clock 0) (s.clock 1))]⟩ := by
            rw [attempt, bind_of_ok hgen, hi]
            rfl
          rw [tryCatch_of_ok hok]
          simp only [List.append_assoc]
          rfl
      -- `insert_many` raised: the handler again
      | some e =>
          have hfail : attempt l r (s.clock 0) s₁ = .error e ⟨p, s₁.clock,
              s.events ++ [.generation none] ++ [.insertMany docs l.ordered (some e)]⟩ := by
            rw [attempt, bind_of_ok hgen, hi]
            rfl
          rw [tryCatch_of_error hfail, handler_apply]
          cases ho : r.insertOne with
          | none =>
              show UserState.mk _ _ (s.events ++ _ ++ _ ++ _ ++ [_]) = _
              simp only [List.append_assoc]
              rfl
          | some e' =>
              show UserState.mk _ _ (s.events ++ _ ++ _ ++ _ ++ [_]) = _
              simp only [List.append_assoc]
              rfl

/-- The number of readings of some executions. -/
def readings (xs : List (Execution Doc)) : Nat := (xs.map Execution.readings).sum

/-- What some executions log. -/
def logs (ordered : Bool) (xs : List (Execution Doc)) : List (Event Doc) :=
  xs.flatMap (Execution.log ordered)

/-- **A run** is its executions, one after the other. -/
theorem run_eq (l : Loader π Doc) (replies : List Replies) (s : UserState π Doc) :
    run l s replies = ⟨l.afterRun s.process replies,
      fun n => s.clock (n + readings (l.executions s.process s.clock replies)),
      s.events ++ logs l.ordered (l.executions s.process s.clock replies)⟩ := by
  induction replies generalizing s with
  | nil =>
      rw [Loader.executions, logs, List.flatMap_nil, List.append_nil]
      rfl
  | cons r replies ih =>
      have hclock : ∀ a b n : Nat, n + a + b = n + (b + a) := fun a b n => by omega
      rw [run_cons, ih, execute_eq, Loader.executions]
      simp only [readings, logs, List.map_cons, List.sum_cons, List.flatMap_cons,
        List.append_assoc, hclock]
      rfl

-- ============================================================================
-- Every execution is accounted for
-- ============================================================================

namespace Event

/-- What generation or `insert_many` raised. -/
def raised? : Event Doc → Option Exc
  | .generation raised => raised
  | .insertMany _ _ raised => raised
  | _ => none

/-- The exception of a failed request. -/
def reported? : Event Doc → Option Exc
  | .requestFailure _ e => some e
  | _ => none

/-- The exception of a document for the audit collection. -/
def audited? : Event Doc → Option Exc
  | .insertOne doc _ => some doc.msg
  | _ => none

/-- What the audit collection raised. -/
def auditRaised? : Event Doc → Option Exc
  | .insertOne _ raised => raised
  | _ => none

/-- The exception that Locust logged. -/
def escaped? : Event Doc → Option Exc
  | .taskError e => some e
  | _ => none

/-- The documents of a batch that was inserted. -/
def inserted? : Event Doc → Option (List Doc)
  | .insertMany docs _ none => some docs
  | _ => none

/-- The response time of a request. -/
def responseTime? : Event Doc → Option Rat
  | .requestSuccess request => some request.responseTime
  | .requestFailure request _ => some request.responseTime
  | _ => none

/-- A request that was reported as a success. -/
def isSuccess : Event Doc → Bool
  | .requestSuccess _ => true
  | _ => false

/-- The sleep after a failure. -/
def isSleep : Event Doc → Bool
  | .sleep _ => true
  | _ => false

end Event

/-- In a log of `n` executions nothing is lost and nothing is counted twice. -/
structure Accounted (log : List (Event Doc)) (n : Nat) : Prop where
  /-- Every execution has a response time. -/
  requests : (log.filterMap Event.responseTime?).length = n
  /-- The successes are the batches that were inserted. -/
  successes : log.countP Event.isSuccess = (log.filterMap Event.inserted?).length
  /-- The failures report what was raised, -/
  failures : log.filterMap Event.reported? = log.filterMap Event.raised?
  /-- and so does the audit collection. -/
  audits : log.filterMap Event.audited? = log.filterMap Event.raised?
  /-- What escapes is what the audit collection raised, -/
  escapes : log.filterMap Event.escaped? = log.filterMap Event.auditRaised?
  /-- and every other failure is followed by a sleep. -/
  sleeps : log.countP Event.isSleep + (log.filterMap Event.escaped?).length =
    (log.filterMap Event.raised?).length

theorem Accounted.nil : Accounted ([] : List (Event Doc)) 0 := ⟨rfl, rfl, rfl, rfl, rfl, rfl⟩

theorem Accounted.append {log log' : List (Event Doc)} {n m : Nat} (h : Accounted log n)
    (h' : Accounted log' m) : Accounted (log ++ log') (n + m) where
  requests := by rw [List.filterMap_append, List.length_append, h.requests, h'.requests]
  successes := by
    rw [List.countP_append, List.filterMap_append, List.length_append, h.successes, h'.successes]
  failures := by rw [List.filterMap_append, List.filterMap_append, h.failures, h'.failures]
  audits := by rw [List.filterMap_append, List.filterMap_append, h.audits, h'.audits]
  escapes := by rw [List.filterMap_append, List.filterMap_append, h.escapes, h'.escapes]
  sleeps := by
    have hlog := h.sleeps
    have hlog' := h'.sleeps
    rw [List.countP_append, List.filterMap_append, List.filterMap_append, List.length_append,
      List.length_append]
    omega

theorem Execution.accounted (ordered : Bool) (x : Execution Doc) :
    Accounted (x.log ordered) 1 := by
  cases x with
  | inserted tic now docs => exact ⟨rfl, rfl, rfl, rfl, rfl, rfl⟩
  | failed tic now ts failure audit =>
      cases failure with
      | generation e =>
          cases audit with
          | none => exact ⟨rfl, rfl, rfl, rfl, rfl, rfl⟩
          | some e' => exact ⟨rfl, rfl, rfl, rfl, rfl, rfl⟩
      | insertMany docs e =>
          cases audit with
          | none => exact ⟨rfl, rfl, rfl, rfl, rfl, rfl⟩
          | some e' => exact ⟨rfl, rfl, rfl, rfl, rfl, rfl⟩

theorem logs_accounted (ordered : Bool) (xs : List (Execution Doc)) :
    Accounted (logs ordered xs) xs.length := by
  induction xs with
  | nil => exact .nil
  | cons x xs ih =>
      have hall := (x.accounted ordered).append ih
      rwa [Nat.add_comm] at hall

theorem length_executions (l : Loader π Doc) (p : π) (clock : Nat → Rat)
    (replies : List Replies) : (l.executions p clock replies).length = replies.length := by
  induction replies generalizing p clock with
  | nil => rfl
  | cons r replies ih => rw [Loader.executions, List.length_cons, List.length_cons, ih]

theorem executions_accounted (l : Loader π Doc) (p : π) (clock : Nat → Rat)
    (replies : List Replies) :
    Accounted (logs l.ordered (l.executions p clock replies)) replies.length := by
  have hlogs := logs_accounted l.ordered (l.executions p clock replies)
  rwa [length_executions] at hlogs

/-- **Every execution is accounted for.**  In every run, each execution reports one request; the
    successes are the batches that were inserted; and the exceptions that were raised are, one by
    one and in order, those that are reported, audited, and slept on, unless the audit collection
    raised in turn. -/
theorem run_accounted (l : Loader π Doc) (p : π) (clock : Nat → Rat) (replies : List Replies) :
    Accounted (run l (.start p clock) replies).events replies.length := by
  rw [run_eq]
  exact executions_accounted l p clock replies

-- ============================================================================
-- Response times
-- ============================================================================

/-- The response time of an execution. -/
def Execution.responseTime : Execution Doc → Rat
  | .inserted tic now _ => (now - tic) * 1000
  | .failed tic now _ _ _ => (now - tic) * 1000

theorem Execution.responseTime_log (ordered : Bool) (x : Execution Doc) :
    (x.log ordered).filterMap Event.responseTime? = [x.responseTime] := by
  cases x with
  | inserted tic now docs => rfl
  | failed tic now ts failure audit =>
      cases failure with
      | generation e =>
          cases audit with
          | none => rfl
          | some e' => rfl
      | insertMany docs e =>
          cases audit with
          | none => rfl
          | some e' => rfl

theorem responseTime_logs (ordered : Bool) (xs : List (Execution Doc)) :
    (logs ordered xs).filterMap Event.responseTime? = xs.map Execution.responseTime := by
  induction xs with
  | nil => rfl
  | cons x xs ih =>
      rw [logs, List.flatMap_cons, List.filterMap_append, x.responseTime_log, List.map_cons]
      exact congrArg (x.responseTime :: ·) ih

theorem Execution.one_lt_readings (x : Execution Doc) : 1 < x.readings := by
  cases x with
  | inserted tic now docs =>
      show 1 < 2
      omega
  | failed tic now ts failure audit =>
      show 1 < 3
      omega

/-- The response time of an execution lies between its first two readings of the clock. -/
theorem execution_responseTime (l : Loader π Doc) (p : π) (clock : Nat → Rat) (r : Replies) :
    (l.execution p clock r).responseTime = (clock 1 - clock 0) * 1000 := by
  rw [Loader.execution]
  cases l.generate p with
  | error e q => rfl
  | ok docs q =>
      cases r.insertMany with
      | none => rfl
      | some e => rfl

/-- The executions of a run, timed by a clock that does not go back. -/
theorem executions_fit (l : Loader π Doc) (p : π) {clock : Nat → Rat} (hclock : Monotone clock)
    (replies : List Replies) :
    (∀ t ∈ (l.executions p clock replies).map Execution.responseTime, 0 ≤ t) ∧
      ((l.executions p clock replies).map Execution.responseTime).sum ≤
        (clock (readings (l.executions p clock replies) - 1) - clock 0) * 1000 := by
  induction replies generalizing p clock with
  | nil =>
      refine ⟨fun t ht => (nomatch ht), ?_⟩
      show (0 : Rat) ≤ (clock (0 - 1) - clock 0) * 1000
      simp
  -- the clock of the rest is this clock, shifted by the readings of one execution
  | cons r replies ih =>
      have htime := execution_responseTime l p clock r
      have hpos := (l.execution p clock r).one_lt_readings
      rw [Loader.executions]
      generalize l.execution p clock r = x at htime hpos ⊢
      have hshift : Monotone fun n => clock (n + x.readings) :=
        fun m n hmn => hclock (Nat.add_le_add_right hmn _)
      obtain ⟨hnonneg, hsum⟩ := ih (l.after p) hshift
      generalize l.executions (l.after p) (fun n => clock (n + x.readings)) replies = xs
        at hnonneg hsum ⊢
      have hfirst : clock 0 ≤ clock 1 := hclock (Nat.zero_le 1)
      refine ⟨?_, ?_⟩
      · rw [List.map_cons, List.forall_mem_cons, htime]
        exact ⟨by linarith, hnonneg⟩
      · -- the rest of the run starts after the second reading of this execution
        have hnext : clock 1 ≤ clock (0 + x.readings) := hclock (by omega)
        have hlast : clock (readings xs - 1 + x.readings) ≤ clock (readings (x :: xs) - 1) ∨
            (xs.map Execution.responseTime).sum = 0 := by
          cases xs with
          | nil => exact Or.inr rfl
          | cons y ys =>
              have hy := y.one_lt_readings
              left
              apply hclock
              simp only [readings, List.map_cons, List.sum_cons]
              omega
        have hend : clock 1 ≤ clock (readings (x :: xs) - 1) := by
          apply hclock
          simp only [readings, List.map_cons, List.sum_cons]
          omega
        rw [List.map_cons, List.sum_cons, htime]
        rcases hlast with hlast | hzero
        · linarith
        · rw [hzero]
          linarith

/-- **Response times fit into the run.**  With a clock that does not go back, the response times of
    a run are not negative, and their sum is at most the time from the first reading of the clock
    to the last one. -/
theorem response_times_fit (l : Loader π Doc) (p : π) (clock : Nat → Rat)
    (hclock : Monotone clock) (replies : List Replies) :
    ∃ n, (run l (.start p clock) replies).clock = (fun k => clock (k + n)) ∧
      (∀ t ∈ (run l (.start p clock) replies).events.filterMap Event.responseTime?, 0 ≤ t) ∧
      ((run l (.start p clock) replies).events.filterMap Event.responseTime?).sum ≤
        (clock (n - 1) - clock 0) * 1000 := by
  have hfit := executions_fit l p hclock replies
  rw [← responseTime_logs l.ordered] at hfit
  rw [run_eq]
  exact ⟨_, rfl, hfit⟩

/-- A loader that numbers its documents, two in a batch. -/
def countingLoader : Loader Nat Nat := fakerCustomLoader (fun n => .ok n (n + 1)) 2

/-- A batch that is inserted, and one that is not, by a clock that counts. -/
theorem countingLoader_response_times_fit :
    ∃ n, (run countingLoader (.start 0 Nat.cast) [⟨none, none⟩, gone]).clock =
        (fun k => ((k + n : Nat) : Rat)) ∧
      (∀ t ∈ (run countingLoader (.start 0 Nat.cast) [⟨none, none⟩, gone]).events.filterMap
        Event.responseTime?, 0 ≤ t) ∧
      ((run countingLoader (.start 0 Nat.cast) [⟨none, none⟩, gone]).events.filterMap
        Event.responseTime?).sum ≤ (((n - 1 : Nat) : Rat) - ((0 : Nat) : Rat)) * 1000 :=
  response_times_fit countingLoader 0 Nat.cast Nat.mono_cast [⟨none, none⟩, gone]

end MLocust.Locustfile
