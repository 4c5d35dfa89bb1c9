/-
  MLocust.Locustfile.BrokenModel

  A broken model file, among the users of a worker.

  Every user loads from a model file of its own, and the files share the process:
  they draw from one random source, call `ID` on the same counters and set the same
  array size.  What a file has in store (`fetchError`) is nevertheless what all
  attempts of its user end with, whatever the others do and however the attempts are
  interleaved: the user of a broken file fails each time with the same exception and
  hands nothing over, and every other user hands over full batches
  (`broken_model_stays_alone`).
-/
import MLocust.Locustfile.Identifiers

namespace MLocust.Locustfile

open Lib Lib.Program Lib.Shared Faker

variable {ι : Type} {M : DocMerger} {files : Files} {w p q : World}

/-- `locustfile-faker.py`, on the contents of the files -/
def fakerFileLoader (M : DocMerger) (files : Files) (model : PyStr) (bulkSize : Int) :
    Loader World Value where
  generate := liftPy (bulkFetchFrom M files model bulkSize)
  ordered := true

/-- The users of a worker, each with its model file and its batch size. -/
def fileUsers (M : DocMerger) (files : Files) (model : ι → PyStr) (size : ι → Int) :
    ι → Loader World Value := fun i => fakerFileLoader M files (model i) (size i)

/-- The file foretells how generation ends: with its exception, or else with a full batch. -/
def Foretold (files : Files) (model : PyStr) (n : Int) : Generated Value → Prop
  | .ok docs => fetchError files model n = none ∧ docs.length = n.toNat
  | .error e => some e = (fetchError files model n).map .fakerutil

/-- **One generation** ends as its file foretells, and leaves room for elements. -/
theorem generateOn_foretold {model : PyStr} (hfile : files.Tame (templatePath files.env model))
    (n : Int) (hw : w.Roomy) :
    Foretold files model n ((fakerFileLoader M files model n).generateOn w).1 ∧
      ((fakerFileLoader M files model n).generateOn w).2.Roomy := by
  have hends := bulkFetch_ends M files model n hfile w hw
  cases herr : fetchError files model n with
  | none =>
      rw [herr] at hends
      obtain ⟨docs, w', hrun, hlen, hw'⟩ := hends
      rw [generateOn_of_ok rfl hrun]
      exact ⟨⟨herr, hlen⟩, hw'⟩
  | some e =>
      rw [herr] at hends
      obtain ⟨w', hrun, hw'⟩ := hends
      rw [generateOn_of_error rfl hrun]
      refine ⟨?_, hw'⟩
      rw [Foretold, herr]
      rfl

/-- Generation after generation, each ends as its own file foretells. -/
theorem serial_foretold {model : ι → PyStr} {size : ι → Int} {calls : List (ι × Generated Value)}
    (hfiles : ∀ i, files.Tame (templatePath files.env (model i))) (hp : p.Roomy)
    (h : Serial (fun i => (fileUsers M files model size i).client) p calls q) :
    q.Roomy ∧ ∀ call ∈ calls, Foretold files (model call.1) (size call.1) call.2 :=
  h.invariant (I := World.Roomy) (Q := fun i r => Foretold files (model i) (size i) r)
    (fun i _ hq => generateOn_foretold (hfiles i) (size i) hq) hp

-- ============================================================================
-- The log of a user
-- ============================================================================

/-- How an attempt at generation ended. -/
def Event.generated? {Doc : Type} : Event Doc → Option (Option Exc)
  | .generation raised => some raised
  | _ => none

/-- What generation raised, if anything. -/
def Generated.raised {Doc : Type} : Generated Doc → Option Exc
  | .ok _ => none
  | .error e => some e

/-- The log tells how each generation of the user ended. -/
theorem solo_generated {Doc π : Type} {l : Loader π Doc} {rs : List (Generated Doc)}
    {es : List (Event Doc)} {t : Phase Doc} (h : Solo l.client .idle rs es t) :
    es.filterMap Event.generated? = rs.map Generated.raised := by
  induction h with
  | start => rfl
  | enter _ hstep ih =>
      rw [List.filterMap_append, List.map_append, ih]
      cases hstep with
      | generated tic docs => rfl
      | raised tic now ts e => rfl
  | own _ hstep ih =>
      rw [List.filterMap_append, ih]
      cases hstep with
      | inserted tic now docs => exact List.append_nil _
      | insertRaised tic now ts docs e => exact List.append_nil _
      | audited doc => exact List.append_nil _
      | auditRaised doc e => exact List.append_nil _
      | woke => exact List.append_nil _

theorem Foretold.raised {model : PyStr} {n : Int} {r : Generated Value}
    (h : Foretold files model n r) : r.raised = (fetchError files model n).map .fakerutil := by
  cases r with
  | ok docs =>
      rw [h.1]
      rfl
  | error e => exact h

/-- **A broken model stays alone.**  Whatever the interleaving, every attempt of a user ends with
    the exception that its own model file has in store, or with none; the user of a file with an
    exception hands nothing over, and the others hand over full batches. -/
theorem broken_model_stays_alone [DecidableEq ι] (M : DocMerger) (files : Files)
    (model : ι → PyStr) (size : ι → Int)
    (hfiles : ∀ i, files.Tame (templatePath files.env (model i))) (p : World) (hp : p.Roomy)
    (s : System ι World (Generated Value) (Phase Value) (Event Value))
    (h : WorkerReaches (fileUsers M files model size) p s) (i : ι) :
    (of i s.events).filterMap Event.generated? =
        List.replicate (of i s.calls).length
          ((fetchError files (model i) (size i)).map .fakerutil) ∧
      (fetchError files (model i) (size i) ≠ none → handed (of i s.events) = []) ∧
      ∀ docs ∈ handed (of i s.events), docs.length = (size i).toNat := by
  obtain ⟨_, hcalls⟩ := serial_foretold hfiles hp (serial_of_steps h)
  have hsolo := solo_of_steps h i
  have hmine : ∀ r ∈ of i s.calls, Foretold files (model i) (size i) r :=
    fun r hr => hcalls (i, r) (mem_of hr)
  have hhanded : ∀ docs ∈ handed (of i s.events), Foretold files (model i) (size i) (.ok docs) :=
    fun docs hdocs => hcalls (i, .ok docs) (mem_calls_of_handed h hdocs)
  refine ⟨?_, fun herr => ?_, fun docs hdocs => (hhanded docs hdocs).2⟩
  · rw [solo_generated hsolo]
    exact List.map_eq_replicate_iff.mpr fun r hr => (hmine r hr).raised
  · rw [List.eq_nil_iff_forall_not_mem]
    exact fun docs hdocs => herr (hhanded docs hdocs).1

/-- A file whose second record names an array that starts with a parenthesis, and a file that is
    in order. -/
def strayFiles : Files where
  isfile := fun _ => true
  text := fun path =>
    if path = "models/stray.csv".toList then
      "Property,Type,,Generator\nsize,Number,,3\n(a)().b,String,,M\n".toList
    else "Property,Type,,Generator\nname,String,,M\n".toList
  expr := fun text => if text = ['3'] then .setArraySize 3 else .id text

theorem strayFiles_tame (template : PyStr) : strayFiles.Tame template := by
  intro cells _ text _
  show (if text = ['3'] then _ else _ : Gen).Tame
  split
  · exact tame_setArraySize (by decide)
  · exact tame_id text

/-- One user of the stray file, and one of the file that is in order. -/
def strayModel (stray : Bool) : PyStr :=
  if stray then "stray.csv".toList else "name.csv".toList

/-- The user of the stray file fails in the middle of the other one's insertion. -/
theorem strayFiles_stay_alone : ∃ s, WorkerReaches
    (fileUsers merger strayFiles strayModel fun _ => 7) (World.fresh fun _ => 1) s ∧
    of true s.calls = [.error (.fakerutil .keyError)] ∧ (of false s.calls).length = 1 ∧
    ((of true s.events).filterMap Event.generated? =
        List.replicate (of true s.calls).length
          ((fetchError strayFiles (strayModel true) 7).map .fakerutil) ∧
      (fetchError strayFiles (strayModel true) 7 ≠ none → handed (of true s.events) = []) ∧
      ∀ docs ∈ handed (of true s.events), docs.length = (7 : Int).toNat) := by
  have hstray : fetchError strayFiles (strayModel true) 7 = some .keyError := by decide
  have hname : fetchError strayFiles (strayModel false) 7 = none := by decide
  have hends := bulkFetch_ends merger strayFiles (strayModel false) 7 (strayFiles_tame _)
  rw [hname] at hends
  obtain ⟨docs, w, hrun, _, hw⟩ := hends.returns (roomy_fresh fun _ => 1)
  have hends' := bulkFetch_ends merger strayFiles (strayModel true) 7 (strayFiles_tame _)
  rw [hstray] at hends'
  obtain ⟨w', hrun', _⟩ := hends'.raises hw
  have h : WorkerReaches (fileUsers merger strayFiles strayModel fun _ => 7)
      (World.fresh fun _ => 1) _ :=
    .head (.of_op (i := false) (generateOn_of_ok rfl hrun) (.generated 0 docs)) <|
    .head (.of_op (i := true) (generateOn_of_error rfl hrun') (.raised 1 2 3 _)) <|
    .single (.own (i := false) (.inserted 0 4 docs))
  exact ⟨_, h, rfl, rfl, broken_model_stays_alone merger strayFiles strayModel _
    (fun _ => strayFiles_tame _) _ (roomy_fresh _) _ h true⟩

end MLocust.Locustfile
