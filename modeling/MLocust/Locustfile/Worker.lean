/-
  MLocust.Locustfile.Worker

  The users of one worker process.

  The users of a worker are greenlets in one process, and the state of `fakerutil`
  belongs to the process.  A greenlet gives way where it blocks: in `insert_many`, in
  the `insert_one` of the audit and in `sleep`.  In between it runs alone, so a
  batch is generated in one piece.  `Phase` says where a user blocks, and
  `Loader.client` is the loader as a client of the shared process; the users may be
  interleaved in any way (`Shared.Steps`), with any answers of the cluster and any
  readings of the clock.

  Each user's log is the log of a run of that user alone (`worker_log_is_run`), so
  what holds of every run of a loader holds of every user of a worker.  And the
  batches are those of the generations one after the other, each handed over once
  (`worker_hands_over_once`).
-/
import MLocust.Lib.Shared
import MLocust.Locustfile.Outcome
import Mathlib.Data.Stream.Init

namespace MLocust.Locustfile

open Lib Lib.Program Lib.Shared Faker

variable {ι π Doc : Type}

-- ============================================================================
-- A user between two blocking calls
-- ============================================================================

/-- Where a user blocks. -/
inductive Phase (Doc : Type) where
  /-- between two executions -/
  | idle
  /-- in `insert_many`, with the time the execution started at -/
  | inserting (tic : Rat) (docs : List Doc)
  /-- in the `insert_one` of the audit -/
  | auditing (doc : AuditDoc)
  /-- in `time.sleep(5)` -/
  | sleeping

/-- What generation returned or raised. -/
abbrev Generated (Doc : Type) := Except Exc (List Doc)

/-- The generation of a batch on the shared process. -/
def Loader.generateOn (l : Loader π Doc) (p : π) : Generated Doc × π :=
  match l.generate p with
  | .ok docs q => (.ok docs, q)
  | .error e q => (.error e, q)

/-- A batch that `fakerutil` returns. -/
theorem generateOn_of_ok {l : Loader World Value} {x : Py World (List Value)} {w w' : World}
    {docs : List Value} (hl : l.generate = liftPy x) (h : x w = .ok docs w') :
    l.generateOn w = (.ok docs, w') := by
  simp only [Loader.generateOn, hl, liftPy, h]

/-- An exception that `fakerutil` raises. -/
theorem generateOn_of_error {l : Loader World Value} {x : Py World (List Value)} {w w' : World}
    {e : PyErr} (hl : l.generate = liftPy x) (h : x w = .error e w') :
    l.generateOn w = (.error (.fakerutil e), w') := by
  simp only [Loader.generateOn, hl, liftPy, h]

/-- The report of an exception, up to the call that blocks. -/
def report (tic now : Rat) (e : Exc) : List (Event Doc) :=
  [.requestFailure (fired tic now) e, .print "Audit: ".toList e]

/-- An execution starts, and runs until it blocks. -/
inductive Begins : Phase Doc → Generated Doc → List (Event Doc) → Phase Doc → Prop
  | generated (tic : Rat) (docs : List Doc) :
      Begins .idle (.ok docs) [.generation none] (.inserting tic docs)
  | raised (tic now ts : Rat) (e : Exc) :
      Begins .idle (.error e) (.generation (some e) :: report tic now e)
        (.auditing ⟨"exception".toList, ts, e⟩)

/-- A blocking call ends, and the user runs until it blocks again. -/
inductive Resumes (ordered : Bool) : Phase Doc → List (Event Doc) → Phase Doc → Prop
  | inserted (tic now : Rat) (docs : List Doc) :
      Resumes ordered (.inserting tic docs)
        [.insertMany docs ordered none, .requestSuccess (fired tic now)] .idle
  | insertRaised (tic now ts : Rat) (docs : List Doc) (e : Exc) :
      Resumes ordered (.inserting tic docs)
        (.insertMany docs ordered (some e) :: report tic now e)
        (.auditing ⟨"exception".toList, ts, e⟩)
  | audited (doc : AuditDoc) :
      Resumes ordered (.auditing doc) [.insertOne doc none, .sleep 5] .sleeping
  | auditRaised (doc : AuditDoc) (e : Exc) :
      Resumes ordered (.auditing doc) [.insertOne doc (some e), .taskError e] .idle
  | woke : Resumes ordered .sleeping [] .idle

/-- A loader as a client of the process. -/
def Loader.client (l : Loader π Doc) : Client π (Generated Doc) (Phase Doc) (Event Doc) where
  op := l.generateOn
  enter := Begins
  own := Resumes l.ordered

/-- A state of a worker whose users run the given loaders, after any interleaving. -/
def WorkerReaches [DecidableEq ι] (loaders : ι → Loader π Doc) (p : π)
    (s : System ι π (Generated Doc) (Phase Doc) (Event Doc)) : Prop :=
  Steps (fun i => (loaders i).client) (.start p fun _ => .idle) s

-- ============================================================================
-- A user alone
-- ============================================================================

/-- The loader whose generations have the given results, one after the other. -/
def replay (Doc : Type) (ordered : Bool) : Loader (Stream' (Generated Doc)) Doc where
  generate := fun results =>
    match results.head with
    | .ok docs => .ok docs results.tail
    | .error e => .error e results.tail
  ordered := ordered

variable {ordered : Bool} {rs : List (Generated Doc)} {es log : List (Event Doc)}
  {t : Phase Doc} {l : Loader π Doc}

/-- The log of some executions of `_bulkinsert` that were completed, on the given results of
    generation. -/
def Completed (ordered : Bool) (rs : List (Generated Doc)) (es : List (Event Doc)) : Prop :=
  ∃ (times : List Rat) (replies : List Replies), replies.length = rs.length ∧ ∀ more clock,
    run (replay Doc ordered) (.start (rs ++ₛ more) (times ++ₛ clock)) replies = ⟨more, clock, es⟩

theorem Completed.nil : Completed ordered ([] : List (Generated Doc)) [] :=
  ⟨[], [], rfl, fun _ _ => rfl⟩

/-- One more execution. -/
theorem Completed.snoc {r : Generated Doc} (h : Completed ordered rs es) (times : List Rat)
    (reply : Replies)
    (hstep : ∀ more clock, execute (replay Doc ordered) ⟨Stream'.cons r more, times ++ₛ clock, es⟩
      reply = ⟨more, clock, es ++ log⟩) : Completed ordered (rs ++ [r]) (es ++ log) := by
  obtain ⟨before, replies, hlen, hrun⟩ := h
  refine ⟨before ++ times, replies ++ [reply], ?_, fun more clock => ?_⟩
  · rw [List.length_append, List.length_append, hlen]
    rfl
  · have hfirst := hrun (Stream'.cons r more) (times ++ₛ clock)
    rw [Stream'.append_append_stream, Stream'.append_append_stream, run, List.foldl_append,
      ← run]
    show execute _ (run _ (.start (rs ++ₛ Stream'.cons r more) _) replies) reply = _
    rw [hfirst, hstep]

/-- A batch that is inserted. -/
theorem execute_inserted (tic now : Rat) (docs : List Doc) (more : Stream' (Generated Doc))
    (clock : Stream' Rat) (es : List (Event Doc)) :
    execute (replay Doc ordered) ⟨Stream'.cons (.ok docs) more, [tic, now] ++ₛ clock, es⟩
      ⟨none, none⟩ =
      ⟨more, clock, es ++ (Execution.inserted tic now docs).log ordered⟩ := by
  rw [execute_eq]
  rfl

/-- The result of generation in an execution that failed. -/
def Failure.result : Failure Doc → Generated Doc
  | .generation e => .error e
  | .insertMany docs _ => .ok docs

/-- A failure, with whatever the audit collection answers. -/
theorem execute_failed (tic now ts : Rat) (failure : Failure Doc) (audit : Option Exc)
    (more : Stream' (Generated Doc)) (clock : Stream' Rat) (es : List (Event Doc)) :
    execute (replay Doc ordered) ⟨Stream'.cons failure.result more, [tic, now, ts] ++ₛ clock, es⟩
      ⟨some failure.exc, audit⟩ =
      ⟨more, clock, es ++ (Execution.failed tic now ts failure audit).log ordered⟩ := by
  rw [execute_eq]
  cases failure with
  | generation e => rfl
  | insertMany docs e => rfl

theorem Completed.inserted (h : Completed ordered rs es) (tic now : Rat) (docs : List Doc) :
    Completed ordered (rs ++ [.ok docs])
      (es ++ (Execution.inserted tic now docs).log ordered) :=
  h.snoc [tic, now] ⟨none, none⟩ fun more clock => execute_inserted tic now docs more clock es

theorem Completed.failed (h : Completed ordered rs es) (tic now ts : Rat) (failure : Failure Doc)
    (audit : Option Exc) :
    Completed ordered (rs ++ [failure.result])
      (es ++ (Execution.failed tic now ts failure audit).log ordered) :=
  h.snoc [tic, now, ts] ⟨some failure.exc, audit⟩ fun more clock =>
    execute_failed tic now ts failure audit more clock es

/-- The log of a user is that of its completed executions, and of the part of the next one that
    it has come through. -/
def Consistent (ordered : Bool) (rs : List (Generated Doc)) (es : List (Event Doc)) :
    Phase Doc → Prop
  | .idle => Completed ordered rs es
  | .sleeping => Completed ordered rs es
  | .inserting _ docs => ∃ rs' es', Completed ordered rs' es' ∧ rs = rs' ++ [.ok docs] ∧
      es = es' ++ [.generation none]
  | .auditing doc => ∃ rs' es' tic now, ∃ failure : Failure Doc, Completed ordered rs' es' ∧
      rs = rs' ++ [failure.result] ∧
      es = es' ++ (failure.log ordered ++ report tic now failure.exc) ∧
      doc = ⟨"exception".toList, doc.ts, failure.exc⟩

theorem Consistent.begins {r : Generated Doc} {t' : Phase Doc} (h : Consistent ordered rs es t)
    (hstep : Begins t r log t') : Consistent ordered (rs ++ [r]) (es ++ log) t' := by
  cases hstep with
  | generated tic docs => exact ⟨rs, es, h, rfl, rfl⟩
  | raised tic now ts e => exact ⟨rs, es, tic, now, .generation e, h, rfl, rfl, rfl⟩

theorem Consistent.resumes {t' : Phase Doc} (h : Consistent ordered rs es t)
    (hstep : Resumes ordered t log t') : Consistent ordered rs (es ++ log) t' := by
  cases hstep with
  -- the execution ends with `insert_many`
  | inserted tic now docs =>
      obtain ⟨rs', es', hdone, rfl, rfl⟩ := h
      rw [List.append_assoc]
      exact hdone.inserted tic now docs
  -- it goes on with the audit
  | insertRaised tic now ts docs e =>
      obtain ⟨rs', es', hdone, rfl, rfl⟩ := h
      rw [List.append_assoc]
      exact ⟨rs', es', tic, now, .insertMany docs e, hdone, rfl, rfl, rfl⟩
  -- it ends with the audit, which was written or raised
  | audited doc =>
      obtain ⟨rs', es', tic, now, failure, hdone, rfl, rfl, hdoc⟩ := h
      have hend := hdone.failed tic now doc.ts failure none
      rw [List.append_assoc, List.append_assoc, hdoc]
      exact hend
  | auditRaised doc e =>
      obtain ⟨rs', es', tic, now, failure, hdone, rfl, rfl, hdoc⟩ := h
      have hend := hdone.failed tic now doc.ts failure (some e)
      rw [List.append_assoc, List.append_assoc, hdoc]
      exact hend
  | woke =>
      rw [List.append_nil]
      exact h

/-- **A user alone.**  Between two blocking calls it has logged what `_bulkinsert` logs. -/
theorem solo_consistent (h : Solo l.client .idle rs es t) : Consistent l.ordered rs es t := by
  induction h with
  | start => exact Completed.nil
  | enter _ hstep ih => exact ih.begins hstep
  | own _ hstep ih => exact ih.resumes hstep

/-- A user who is not in the middle of an execution. -/
def Phase.Between (t : Phase Doc) : Prop := t = .idle ∨ t = .sleeping

theorem Consistent.completed (h : Consistent ordered rs es t) (ht : t.Between) :
    Completed ordered rs es := by
  rcases ht with rfl | rfl
  · exact h
  · exact h

/-- Whatever a user is doing, its executions can be completed. -/
theorem Consistent.exists_completed (h : Consistent ordered rs es t) :
    ∃ log, Completed ordered rs (es ++ log) := by
  cases t with
  | idle => exact ⟨[], (List.append_nil es).symm ▸ h⟩
  | sleeping => exact ⟨[], (List.append_nil es).symm ▸ h⟩
  | inserting tic docs =>
      obtain ⟨rs', es', hdone, rfl, rfl⟩ := h
      have hend := hdone.inserted tic tic docs
      refine ⟨[.insertMany docs ordered none, .requestSuccess (fired tic tic)], ?_⟩
      rw [List.append_assoc]
      exact hend
  | auditing doc =>
      obtain ⟨rs', es', tic, now, failure, hdone, rfl, rfl, hdoc⟩ := h
      have hend := hdone.failed tic now doc.ts failure none
      refine ⟨[.insertOne doc none, .sleep 5], ?_⟩
      rw [List.append_assoc, List.append_assoc, hdoc]
      exact hend

-- ============================================================================
-- Batches
-- ============================================================================

/-- The documents passed to `insert_many`. -/
def Event.handed? : Event Doc → Option (List Doc)
  | .insertMany docs _ _ => some docs
  | _ => none

/-- The batches that a log has passed to `insert_many`, with whatever answer. -/
def handed (log : List (Event Doc)) : List (List Doc) := log.filterMap Event.handed?

/-- The batch that is being inserted. -/
def Phase.flying : Phase Doc → List (List Doc)
  | .inserting _ docs => [docs]
  | _ => []

/-- The batches that generation returned. -/
def batches (rs : List (Generated Doc)) : List (List Doc) := rs.filterMap Except.toOption

theorem handed_append (log log' : List (Event Doc)) :
    handed (log ++ log') = handed log ++ handed log' := List.filterMap_append

theorem batches_append (rs rs' : List (Generated Doc)) :
    batches (rs ++ rs') = batches rs ++ batches rs' := List.filterMap_append

/-- A user hands over each batch that it generated exactly once, in order. -/
theorem solo_handed (h : Solo l.client .idle rs es t) :
    handed es ++ t.flying = batches rs := by
  induction h with
  | start => rfl
  | @enter rs es log r t t' _ hstep ih =>
      rw [handed_append, batches_append, ← ih, List.append_assoc, List.append_assoc]
      apply congrArg
      cases hstep with
      | generated tic docs => rfl
      | raised tic now ts e => rfl
  | @own rs es log t t' _ hstep ih =>
      rw [handed_append, ← ih, List.append_assoc]
      apply congrArg
      cases hstep with
      | inserted tic now docs => rfl
      | insertRaised tic now ts docs e => rfl
      | audited doc => rfl
      | auditRaised doc e => rfl
      | woke => rfl

-- ============================================================================
-- All users of a worker
-- ============================================================================

/-- Two users start before either of them is done; the first one's batch is inserted, the second
    one's is not, and its audit is written. -/
theorem exists_interleaved : ∃ s, WorkerReaches (fun _ : Bool => countingLoader) 0 s ∧
    s.calls = [(true, .ok [0, 1]), (false, .ok [2, 3])] ∧ s.state true = .idle ∧
    s.state false = .sleeping := by
  let e : Exc := .pymongo "connection refused".toList
  exact ⟨_, .head (.enter (i := true) (.generated 0 [0, 1])) <|
    .head (.enter (i := false) (.generated 1 [2, 3])) <|
    .head (.own (i := false) (.insertRaised 1 2 3 [2, 3] e)) <|
    .head (.own (i := true) (.inserted 0 4 [0, 1])) <|
    .single (.own (i := false) (.audited ⟨"exception".toList, 3, e⟩)), rfl, rfl, rfl⟩

section Worker

variable [DecidableEq ι] {loaders : ι → Loader π Doc} {p : π}
  {s : System ι π (Generated Doc) (Phase Doc) (Event Doc)}

theorem consistent_of_reaches (h : WorkerReaches loaders p s) (i : ι) :
    Consistent (loaders i).ordered (of i s.calls) (of i s.events) (s.state i) :=
  solo_consistent (solo_of_steps h i)

/-- **Users do not notice each other.**  Whatever the interleaving, the log of each user is the
    front of the log of a run of `_bulkinsert` by that user alone, with the same results of
    generation; between two executions it is the log of the whole run. -/
theorem worker_log_is_run (loaders : ι → Loader π Doc) (p : π)
    (s : System ι π (Generated Doc) (Phase Doc) (Event Doc)) (h : WorkerReaches loaders p s)
    (i : ι) :
    ∃ (times : List Rat) (replies : List Replies) (log : List (Event Doc)),
      replies.length = (of i s.calls).length ∧ ((s.state i).Between → log = []) ∧
      ∀ more clock, run (replay Doc (loaders i).ordered)
        (.start (of i s.calls ++ₛ more) (times ++ₛ clock)) replies =
          ⟨more, clock, of i s.events ++ log⟩ := by
  have hcons := consistent_of_reaches h i
  by_cases hbetween : (s.state i).Between
  · obtain ⟨times, replies, hlen, hrun⟩ := hcons.completed hbetween
    refine ⟨times, replies, [], hlen, fun _ => rfl, ?_⟩
    rw [List.append_nil]
    exact hrun
  · obtain ⟨log, times, replies, hlen, hrun⟩ := hcons.exists_completed
    exact ⟨times, replies, log, hlen, fun hb => absurd hb hbetween, hrun⟩

/-- The log of either user is that of a run. -/
theorem interleaved_log_is_run : ∃ s, WorkerReaches (fun _ : Bool => countingLoader) 0 s ∧
    ∃ (times : List Rat) (replies : List Replies) (log : List (Event Nat)),
      replies.length = (of false s.calls).length ∧ ((s.state false).Between → log = []) ∧
      ∀ more clock, run (replay Nat countingLoader.ordered)
        (.start (of false s.calls ++ₛ more) (times ++ₛ clock)) replies =
          ⟨more, clock, of false s.events ++ log⟩ := by
  obtain ⟨s, h, _⟩ := exists_interleaved
  exact ⟨s, h, worker_log_is_run _ 0 s h false⟩

/-- **Batches are handed over once.**  Whatever the interleaving, the process is in the state that
    the generations of all users lead to one after the other, and each user has passed the
    batches of its own generations to `insert_many`, each of them once and in order, but for the
    one that is being inserted. -/
theorem worker_hands_over_once (loaders : ι → Loader π Doc) (p : π)
    (s : System ι π (Generated Doc) (Phase Doc) (Event Doc)) (h : WorkerReaches loaders p s) :
    Serial (fun i => (loaders i).client) p s.calls s.shared ∧
      ∀ i, handed (of i s.events) ++ (s.state i).flying = batches (of i s.calls) :=
  ⟨serial_of_steps h, fun i => solo_handed (solo_of_steps h i)⟩

/-- Each batch of the two users is handed over once. -/
theorem interleaved_hands_over_once : ∃ s, WorkerReaches (fun _ : Bool => countingLoader) 0 s ∧
    Serial (fun _ => countingLoader.client) 0 s.calls s.shared ∧
    ∀ i, handed (of i s.events) ++ (s.state i).flying = batches (of i s.calls) := by
  obtain ⟨s, h, _⟩ := exists_interleaved
  exact ⟨s, h, worker_hands_over_once _ 0 s h⟩

/-- A batch that was handed over was generated. -/
theorem mem_calls_of_handed (h : WorkerReaches loaders p s) {i : ι} {docs : List Doc}
    (hdocs : docs ∈ handed (of i s.events)) : (i, .ok docs) ∈ s.calls := by
  have hmem : docs ∈ batches (of i s.calls) := by
    rw [← solo_handed (solo_of_steps h i)]
    exact List.mem_append_left _ hdocs
  obtain ⟨r, hr, hok⟩ := List.mem_filterMap.mp hmem
  cases r with
  | error e => cases hok
  | ok docs' =>
      cases hok
      exact mem_of hr

/-- What every generation returns, under what every generation keeps, holds of every batch that
    is handed over. -/
theorem handed_invariant {I : π → Prop} {Q : ι → Generated Doc → Prop}
    (hop : ∀ i p, I p → Q i ((loaders i).generateOn p).1 ∧ I ((loaders i).generateOn p).2)
    (hp : I p) (h : WorkerReaches loaders p s) (i : ι) :
    ∀ docs ∈ handed (of i s.events), Q i (.ok docs) := by
  obtain ⟨_, hcalls⟩ := (serial_of_steps h).invariant hop hp
  exact fun docs hdocs => hcalls (i, .ok docs) (mem_calls_of_handed h hdocs)

-- ============================================================================
-- What holds of every run holds of every user
-- ============================================================================

/-- Between two executions the log of a user is that of a run. -/
theorem log_of_between (h : WorkerReaches loaders p s) {i : ι} (ht : (s.state i).Between) :
    ∃ (results : Stream' (Generated Doc)) (clock : Stream' Rat) (replies : List Replies),
      replies.length = (of i s.calls).length ∧
      (run (replay Doc (loaders i).ordered) (.start results clock) replies).events =
        of i s.events := by
  obtain ⟨times, replies, hlen, hrun⟩ := (consistent_of_reaches h i).completed ht
  have hend := hrun (Stream'.const (.ok [])) (Stream'.const 0)
  exact ⟨_, _, replies, hlen, congrArg UserState.events hend⟩

theorem Execution.backsOff_iff (ordered : Bool) (x : Execution Doc) :
    BacksOff (x.log ordered) ↔ (x.log ordered).filterMap Event.auditRaised? = [] := by
  cases x with
  | inserted tic now docs =>
      refine iff_of_true ?_ rfl
      simp [Execution.log, BacksOff, Answered, Event.Failed]
  -- the sleep comes behind the audit, and is left out if that raises
  | failed tic now ts failure audit =>
      cases failure with
      | generation e =>
          cases audit with
          | none =>
              refine iff_of_true ?_ rfl
              simp [Execution.log, Failure.log, afterAudit, BacksOff, Answered, AnswerComes,
                Event.Failed, Event.IsBackoff, Event.IsAttempt]
          | some e' =>
              refine iff_of_false ?_ (List.cons_ne_nil _ _)
              simp [Execution.log, Failure.log, afterAudit, BacksOff, Answered, AnswerComes,
                Event.Failed, Event.IsBackoff, Event.IsAttempt]
      | insertMany docs e =>
          cases audit with
          | none =>
              refine iff_of_true ?_ rfl
              simp [Execution.log, Failure.log, afterAudit, BacksOff, Answered, AnswerComes,
                Event.Failed, Event.IsBackoff, Event.IsAttempt]
          | some e' =>
              refine iff_of_false ?_ (List.cons_ne_nil _ _)
              simp [Execution.log, Failure.log, afterAudit, BacksOff, Answered, AnswerComes,
                Event.Failed, Event.IsBackoff, Event.IsAttempt]

theorem logs_start (ordered : Bool) (xs : List (Execution Doc)) :
    ∀ x ∈ (logs ordered xs).head?, x.IsAttempt := by
  cases xs with
  | nil => exact fun x hx => nomatch hx
  | cons x xs =>
      cases x with
      | inserted tic now docs =>
          rintro e ⟨⟩
          trivial
      | failed tic now ts failure audit =>
          cases failure with
          | generation e =>
              rintro e ⟨⟩
              trivial
          | insertMany docs e =>
              rintro e ⟨⟩
              trivial

theorem backsOff_logs_iff (ordered : Bool) (xs : List (Execution Doc)) :
    BacksOff (logs ordered xs) ↔ (logs ordered xs).filterMap Event.auditRaised? = [] := by
  induction xs with
  | nil => exact iff_of_true trivial rfl
  | cons x xs ih =>
      have hsplit : logs ordered (x :: xs) = x.log ordered ++ logs ordered xs := rfl
      rw [hsplit, BacksOff, answered_append not_isBackoff_of_isAttempt (logs_start ordered xs),
        ← BacksOff, ← BacksOff, x.backsOff_iff, ih, List.filterMap_append, List.append_eq_nil_iff]

/-- **Users of a worker.**  Whatever the interleaving, the log of each user between two executions
    accounts for every one of its generations, and the user has backed off from every failure
    exactly if none of its audits raised. -/
theorem worker_accounts_and_backs_off (loaders : ι → Loader π Doc) (p : π)
    (s : System ι π (Generated Doc) (Phase Doc) (Event Doc)) (h : WorkerReaches loaders p s)
    (i : ι) (ht : (s.state i).Between) :
    Accounted (of i s.events) (of i s.calls).length ∧
      (BacksOff (of i s.events) ↔ (of i s.events).filterMap Event.auditRaised? = []) := by
  obtain ⟨results, clock, replies, hlen, hrun⟩ := log_of_between h ht
  rw [← hlen, ← hrun, run_eq]
  exact ⟨executions_accounted _ results clock replies, backsOff_logs_iff _ _⟩

/-- The user whose batch was not inserted has backed off. -/
theorem interleaved_accounts_and_backs_off : ∃ s,
    WorkerReaches (fun _ : Bool => countingLoader) 0 s ∧
    Accounted (of false s.events) (of false s.calls).length ∧
      (BacksOff (of false s.events) ↔ (of false s.events).filterMap Event.auditRaised? = []) := by
  obtain ⟨s, h, _, _, hsleep⟩ := exists_interleaved
  exact ⟨s, h, worker_accounts_and_backs_off _ 0 s h false (.inr hsleep)⟩

end Worker

end MLocust.Locustfile
