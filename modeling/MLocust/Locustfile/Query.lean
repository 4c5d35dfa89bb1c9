/-
  MLocust.Locustfile.Query

  `_async_find` of `locustfile.py`, and the Locust user that executes it.

  The fourth Locust file does not load: its users ask for one document, again and
  again.  `_async_find` is written after `_bulkinsert`, with `find_one` in the place
  of generation and `insert_many`, and without the sleep.  So a run of a query user is
  what remains of a run of a loader that generates nothing (`runQueries_asQuery`), and its
  queries are accounted for as the executions of a loader are (`queries_accounted`).
-/
import MLocust.Locustfile.Outcome

namespace MLocust.Locustfile

open Lib Lib.Program Faker

-- ============================================================================
-- _async_find
-- ============================================================================

/-- What a query user does, with what the outside raised at it. -/
inductive QueryEvent where
  | findOne (filter projection : Value) (raised : Option Exc)
  | requestSuccess (request : Request)
  | requestFailure (request : Request) (exception : Exc)
  | print (text : PyStr) (msg : Exc)
  | insertOne (doc : AuditDoc) (raised : Option Exc)
  /-- an exception that escaped the task, logged by Locust -/
  | taskError (e : Exc)

/-- What the cluster raises, if anything, when it is called in one execution. -/
structure QueryReplies where
  findOne : Option Exc
  insertOne : Option Exc

/-- The readings of `time.time()` to come, and what the user has done so far. -/
structure QueryState where
  clock : Nat → Rat
  events : List QueryEvent

/-- A piece of the task of a query user. -/
abbrev QueryTask (α : Type) := EStateM Exc QueryState α

/-- Do something that raises what the outside answers. -/
def performQuery (event : Option Exc → QueryEvent) (raised : Option Exc) : QueryTask Unit :=
  fun s =>
    let t := { s with events := s.events ++ [event raised] }
    match raised with
    | none => .ok () t
    | some e => .error e t

/-- Do something that does not raise. -/
def emitQuery (event : QueryEvent) : QueryTask Unit := performQuery (fun _ => event) none

/-- `get_time`: `time.time()` -/
def queryTime : QueryTask Rat := fun s =>
  .ok (s.clock 0) { s with clock := fun n => s.clock (n + 1) }

/-- `audit_err`: print the message and insert it into the audit collection. -/
def queryAuditErr (r : QueryReplies) (type : PyStr) (msg : Exc) : QueryTask Unit := do
  emitQuery (.print "Audit: ".toList msg)
  let ts ← queryTime
  performQuery (.insertOne ⟨type, ts, msg⟩) r.insertOne

/-- `_async_find` -/
def asyncFind (r : QueryReplies) : QueryTask Unit := do
  let tic ← queryTime
  let name := "singleFetch".toList
  try
    performQuery (.findOne (.dict []) (.dict [("_id".toList, .atom (.int 1))])) r.findOne
    let now ← queryTime
    emitQuery (.requestSuccess ⟨"pymongo".toList, name, (now - tic) * 1000, 0⟩)
  catch e =>
    let now ← queryTime
    emitQuery (.requestFailure ⟨"pymongo".toList, name, (now - tic) * 1000, 0⟩ e)
    queryAuditErr r "exception".toList e

/-- Locust executes the task once; it logs an exception that escapes. -/
def executeQuery (s : QueryState) (r : QueryReplies) : QueryState :=
  match asyncFind r s with
  | .ok _ t => t
  | .error e t => { t with events := t.events ++ [.taskError e] }

/-- A user executes the task again and again. -/
def runQueries (s : QueryState) (replies : List QueryReplies) : QueryState :=
  replies.foldl executeQuery s

-- ============================================================================
-- The loader without a load
-- ============================================================================

/-- A loader that generates nothing. -/
def bareLoader : Loader Unit Value where
  generate := pure []
  ordered := true

/-- The request of a query. -/
def Request.single (request : Request) : Request := { request with name := "singleFetch".toList }

/-- What remains of a loader's events. -/
def Event.asQuery? : Event Value → Option QueryEvent
  | .generation _ => none
  | .insertMany _ _ raised =>
      some (.findOne (.dict []) (.dict [("_id".toList, .atom (.int 1))]) raised)
  | .requestSuccess request => some (.requestSuccess request.single)
  | .requestFailure request e => some (.requestFailure request.single e)
  | .print text msg => some (.print text msg)
  | .insertOne doc raised => some (.insertOne doc raised)
  | .sleep _ => none
  | .taskError e => some (.taskError e)

/-- What remains of a loader's state. -/
def UserState.asQuery (s : UserState Unit Value) : QueryState :=
  ⟨s.clock, s.events.filterMap Event.asQuery?⟩

/-- The answers for the loader. -/
def QueryReplies.toReplies (r : QueryReplies) : Replies := ⟨r.findOne, r.insertOne⟩

/-- **One execution** of the query user is what remains of one of the loader. -/
theorem executeQuery_asQuery (s : UserState Unit Value) (r : QueryReplies) :
    executeQuery s.asQuery r = (execute bareLoader s r.toReplies).asQuery := by
  obtain ⟨findOne, insertOne⟩ := r
  rw [execute_eq, UserState.asQuery, UserState.asQuery, List.filterMap_append]
  cases findOne with
  | none =>
      show QueryState.mk _ (_ ++ [_] ++ [_]) = _
      rw [List.append_assoc]
      rfl
  | some e =>
      cases insertOne with
      | none =>
          show QueryState.mk _ (_ ++ [_] ++ [_] ++ [_] ++ [_]) = _
          simp only [List.append_assoc]
          rfl
      | some e' =>
          show QueryState.mk _ (_ ++ [_] ++ [_] ++ [_] ++ [_] ++ [_]) = _
          simp only [List.append_assoc]
          rfl

/-- **A run** of the query user is what remains of a run of the loader. -/
theorem runQueries_asQuery (s : UserState Unit Value) (replies : List QueryReplies) :
    runQueries s.asQuery replies =
      (run bareLoader s (replies.map QueryReplies.toReplies)).asQuery := by
  induction replies generalizing s with
  | nil => rfl
  | cons r replies ih =>
      rw [runQueries, List.foldl_cons, executeQuery_asQuery, List.map_cons, run_cons]
      exact ih _

-- ============================================================================
-- Every query is accounted for
-- ============================================================================

namespace QueryEvent

/-- What `find_one` raised. -/
def raised? : QueryEvent → Option Exc
  | .findOne _ _ raised => raised
  | _ => none

/-- The response time of a request. -/
def responseTime? : QueryEvent → Option Rat
  | .requestSuccess request => some request.responseTime
  | .requestFailure request _ => some request.responseTime
  | _ => none

/-- The exception of a failed request. -/
def reported? : QueryEvent → Option Exc
  | .requestFailure _ e => some e
  | _ => none

/-- The exception of a document for the audit collection. -/
def audited? : QueryEvent → Option Exc
  | .insertOne doc _ => some doc.msg
  | _ => none

/-- What the audit collection raised. -/
def auditRaised? : QueryEvent → Option Exc
  | .insertOne _ raised => raised
  | _ => none

/-- The exception that Locust logged. -/
def escaped? : QueryEvent → Option Exc
  | .taskError e => some e
  | _ => none

end QueryEvent

/-- In a log of `n` queries nothing is lost and nothing is counted twice. -/
structure QueriesAccounted (log : List QueryEvent) (n : Nat) : Prop where
  /-- Every query has a response time. -/
  requests : (log.filterMap QueryEvent.responseTime?).length = n
  /-- The failures report what was raised, -/
  failures : log.filterMap QueryEvent.reported? = log.filterMap QueryEvent.raised?
  /-- and so does the audit collection. -/
  audits : log.filterMap QueryEvent.audited? = log.filterMap QueryEvent.raised?
  /-- What escapes is what the audit collection raised. -/
  escapes : log.filterMap QueryEvent.escaped? = log.filterMap QueryEvent.auditRaised?

/-- What is read off the remaining events can be read off the loader's. -/
theorem filterMap_asQuery {β : Type} {f : QueryEvent → Option β} {g : Event Value → Option β}
    {log : List (Event Value)} (h : ∀ e ∈ log, e.asQuery?.bind f = g e) :
    (log.filterMap Event.asQuery?).filterMap f = log.filterMap g := by
  rw [List.filterMap_filterMap]
  exact List.filterMap_congr h

/-- A loader that generates nothing raises nothing at it. -/
theorem bareLoader_generation (clock : Nat → Rat) (replies : List Replies) (e : Exc) :
    .generation (some e) ∉ logs true (bareLoader.executions () clock replies) := by
  induction replies generalizing clock with
  | nil => exact List.not_mem_nil
  | cons r replies ih =>
      obtain ⟨insertMany, insertOne⟩ := r
      rw [Loader.executions, logs, List.flatMap_cons, List.mem_append, not_or]
      refine ⟨?_, ih _⟩
      cases insertMany with
      | none => simp [Loader.execution, bareLoader, Execution.log, pure, EStateM.pure]
      | some e' =>
          cases insertOne with
          | none =>
              simp [Loader.execution, bareLoader, Execution.log, Failure.log, afterAudit, pure,
                EStateM.pure]
          | some e'' =>
              simp [Loader.execution, bareLoader, Execution.log, Failure.log, afterAudit, pure,
                EStateM.pure]

/-- The queries of a log are accounted for as its executions are. -/
theorem Accounted.asQuery {log : List (Event Value)} {n : Nat} (h : Accounted log n)
    (hgen : ∀ e, .generation (some e) ∉ log) :
    QueriesAccounted (log.filterMap Event.asQuery?) n := by
  have hraised : (log.filterMap Event.asQuery?).filterMap QueryEvent.raised? =
      log.filterMap Event.raised? := by
    refine filterMap_asQuery fun event hevent => ?_
    cases event with
    | generation raised =>
        cases raised with
        | none => rfl
        | some e => exact absurd hevent (hgen e)
    | _ => rfl
  constructor
  · rw [filterMap_asQuery (g := Event.responseTime?) fun event _ => by cases event <;> rfl]
    exact h.requests
  · rw [hraised, filterMap_asQuery (g := Event.reported?) fun event _ => by cases event <;> rfl]
    exact h.failures
  · rw [hraised, filterMap_asQuery (g := Event.audited?) fun event _ => by cases event <;> rfl]
    exact h.audits
  · rw [filterMap_asQuery (g := Event.escaped?) fun event _ => by cases event <;> rfl,
      filterMap_asQuery (g := Event.auditRaised?) fun event _ => by cases event <;> rfl]
    exact h.escapes

/-- **Queries are accounted for, as loads are.**  A run of the query user does what remains of a
    run of a loader that generates nothing, with the same readings of the clock: `find_one` stands
    for `insert_many`, and there are no sleeps.  So each query reports one request, and the
    exceptions of `find_one` are, one by one and in order, those that are reported and audited;
    what escapes is what the audit collection raised. -/
theorem queries_accounted (clock : Nat → Rat) (replies : List QueryReplies) :
    runQueries ⟨clock, []⟩ replies =
        (run bareLoader (.start () clock) (replies.map QueryReplies.toReplies)).asQuery ∧
      QueriesAccounted (runQueries ⟨clock, []⟩ replies).events replies.length := by
  have hrun := runQueries_asQuery (.start () clock) replies
  refine ⟨hrun, ?_⟩
  have hall := executions_accounted bareLoader () clock (replies.map QueryReplies.toReplies)
  rw [List.length_map] at hall
  have hquery := hall.asQuery (bareLoader_generation clock _)
  rw [show (⟨clock, []⟩ : QueryState) = (UserState.start () clock).asQuery from rfl, hrun, run_eq]
  exact hquery

end MLocust.Locustfile
