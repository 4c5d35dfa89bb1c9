/-
  MLocust.Locustfile.Bulkinsert

  `_bulkinsert` of the three loader files, and the Locust user that executes it.

  The three files share `audit_err` and the body of `_bulkinsert`; they differ in
  how the documents of a batch are made and in whether they are inserted in order.
  `bulkinsert` is the shared body, and each file has its own definition in terms of
  it.  What the cluster answers is an input (`Replies`).  What a user does is
  recorded as a list of events.
-/
import MLocust.Faker.BulkFetch

namespace MLocust.Locustfile

open Lib Lib.Program Faker

/-- The exceptions that reach a loader. -/
inductive Exc where
  | fakerutil (e : PyErr)
  | generator (msg : PyStr)
  | pymongo (msg : PyStr)
deriving DecidableEq

/-- The arguments that both `events.request_success.fire` and `events.request_failure.fire`
    get. -/
structure Request where
  requestType : PyStr
  name : PyStr
  /-- in milliseconds -/
  responseTime : Rat
  responseLength : Nat
deriving DecidableEq

/-- The document that `audit_err` inserts.  It holds `str(msg)`. -/
structure AuditDoc where
  type : PyStr
  ts : Rat
  msg : Exc
deriving DecidableEq

/-- What a user does, with what the outside raised at it. -/
inductive Event (Doc : Type) where
  | generation (raised : Option Exc)
  | insertMany (docs : List Doc) (ordered : Bool) (raised : Option Exc)
  | requestSuccess (request : Request)
  | requestFailure (request : Request) (exception : Exc)
  | print (text : PyStr) (msg : Exc)
  | insertOne (doc : AuditDoc) (raised : Option Exc)
  | sleep (seconds : Nat)
  /-- an exception that escaped the task, logged by Locust -/
  | taskError (e : Exc)
deriving DecidableEq

/-- What the cluster raises, if anything, when it is called in one execution. -/
structure Replies where
  insertMany : Option Exc
  insertOne : Option Exc

/-- How a loader file makes the documents of one batch, and the `ordered` argument it passes
    to `insert_many`. -/
structure Loader (π Doc : Type) where
  generate : EStateM Exc π (List Doc)
  ordered : Bool

/-- The state of a user: what its generation works on, the readings of `time.time()` to come,
    and what it has done so far. -/
structure UserState (π Doc : Type) where
  process : π
  clock : Nat → Rat
  events : List (Event Doc)

variable {π Doc : Type}

/-- A piece of a task. -/
abbrev Task (π Doc α : Type) := EStateM Exc (UserState π Doc) α

/-- Do something that raises what the outside answers. -/
def perform (event : Option Exc → Event Doc) (raised : Option Exc) : Task π Doc Unit := fun s =>
  let t := { s with events := s.events ++ [event raised] }
  match raised with
  | none => .ok () t
  | some e => .error e t

/-- Do something that does not raise. -/
def emit (event : Event Doc) : Task π Doc Unit := perform (fun _ => event) none

/-- `get_time`: `time.time()` -/
def getTime : Task π Doc Rat := fun s =>
  .ok (s.clock 0) { s with clock := fun n => s.clock (n + 1) }

/-- Make the documents of one batch. -/
def Loader.generation (l : Loader π Doc) : Task π Doc (List Doc) := fun s =>
  match l.generate s.process with
  | .ok docs p => .ok docs { s with process := p, events := s.events ++ [.generation none] }
  | .error e p => .error e { s with process := p, events := s.events ++ [.generation (some e)] }

/-- `audit_err`: print the message and insert it into the audit collection. -/
def auditErr (r : Replies) (type : PyStr) (msg : Exc) : Task π Doc Unit := do
  emit (.print "Audit: ".toList msg)
  let ts ← getTime
  perform (.insertOne ⟨type, ts, msg⟩) r.insertOne

/-- `_bulkinsert` -/
def bulkinsert (l : Loader π Doc) (r : Replies) : Task π Doc Unit := do
  let tic ← getTime
  let name := "bulkinsert".toList
  try
    let docs ← l.generation
    perform (.insertMany docs l.ordered) r.insertMany
    let now ← getTime
    emit (.requestSuccess ⟨"pymongo".toList, name, (now - tic) * 1000, 0⟩)
  catch e =>
    let now ← getTime
    emit (.requestFailure ⟨"pymongo".toList, name, (now - tic) * 1000, 0⟩ e)
    auditErr r "exception".toList e
    -- so we don't hammer the system with file not found ex
    emit (.sleep 5)

/-- An exception raised by `fakerutil.py`, as the loader sees it. -/
def liftPy {α : Type} (x : Py World α) : EStateM Exc World α := fun w =>
  match x w with
  | .ok a w' => .ok a w'
  | .error e w' => .error (.fakerutil e) w'

/-- `locustfile-faker.py`: `l = fakerutil.bulkFetch(self.model, self.bulk_size)`,
    `self.coll.insert_many(l)` -/
def fakerLoader (M : DocMerger) (env : Env) (model : PyStr) (bulkSize : Int) :
    Loader World Value where
  generate := liftPy (bulkFetch M env model bulkSize)
  ordered := true

/-- `locustfile-faker-custom.py`:
    `self.coll.insert_many([self.gen.create() for _ in range(self.bulk_size)], ordered=False)` -/
def fakerCustomLoader (create : EStateM Exc π Doc) (bulkSize : Int) : Loader π Doc where
  generate := (List.range bulkSize.toNat).mapM fun _ => create
  ordered := false

/-- `locustfile-mimesis.py`: `self.coll.insert_many(schema*self.bulk_size, ordered=False)` -/
def mimesisLoader (schemaMul : Int → EStateM Exc π (List Doc)) (bulkSize : Int) :
    Loader π Doc where
  generate := schemaMul bulkSize
  ordered := false

-- ============================================================================
-- The Locust user
-- ============================================================================

/-- Locust executes the task once; it logs an exception that escapes. -/
def execute (l : Loader π Doc) (s : UserState π Doc) (r : Replies) : UserState π Doc :=
  match bulkinsert l r s with
  | .ok _ t => t
  | .error e t => { t with events := t.events ++ [.taskError e] }

/-- A user executes the task again and again, with no wait time. -/
def run (l : Loader π Doc) (s : UserState π Doc) (replies : List Replies) : UserState π Doc :=
  replies.foldl (execute l) s

/-- A user that has done nothing yet. -/
def UserState.start (p : π) (clock : Nat → Rat) : UserState π Doc := ⟨p, clock, []⟩

end MLocust.Locustfile
