/-
  MLocust.Faker.BulkFetch

  `zipmerge`, the document merger and `bulkFetch` of `fakerutil.py`.

  The merger comes from the `deepmerge` package: `Merger zipmerge` states the
  documented behaviour of an instance built with the strategies of
  `fakerutil.py` (dictionaries merge, two lists go to `zipmerge`, everything else
  is overridden).  `merger` is the one instance that can be run.

  The merger changes the dictionaries of its base in place, those in a list
  included.  A function of trees describes this where base and partial tree share no
  objects and neither holds one twice.  Generators provide for that (`Gen`), and a
  merge keeps it: every object of either side has at most one place in the result.
-/
import MLocust.Faker.Procpath
import MLocust.Lib.DeepMergeExec

namespace MLocust.Faker

open Lib Lib.Program PyStr

/-- `xs[i]` for an index in `range(0, n)` -/
def item (xs : List Value) (i : Nat) : Except PyErr Value :=
  match xs[i]? with
  | some x => .ok x
  | none => .error .indexError

/-- `zipmerge`: strategy for deepmerge that will zip merge two lists.  Assumes lists of
    equal length. -/
def zipmerge (theMerger : Value → Value → Except PyErr Value) (base nxt : List Value) :
    Except PyErr (List Value) :=
  (List.range base.length).mapM fun i => do
    let b ← item base i
    let n ← item nxt i
    theMerger b n

/-- `merger = Merger([(dict, "merge"), (list, zipmerge)], ["override"], ["override"])`, as a
    function of trees that share no objects -/
abbrev DocMerger := Merger PyStr Atom PyErr zipmerge

/-- A row of a model file: the cells that `bulkFetch` reads. -/
structure Row where
  /-- `row[0]`, the property path -/
  property : PyStr
  /-- what `eval(row[3])` does -/
  generator : Gen

/-- `path = row[0].split('.')` -/
def Row.path (row : Row) : List PyStr := splitDot row.property

section RowLoop

variable (M : DocMerger)

/-- The body of the row loop: build the row's partial tree and merge it into `data`. -/
def mergeRow (data : Value) (row : Row) : Py DocState Value := do
  let partialTree ← procpath row.path row.generator
  fromExcept (M.merge data partialTree)

/-- The row loop, from the document `data`. -/
def rowLoop (data : Value) (rows : List Row) : Py DocState Value :=
  rows.foldlM (mergeRow M) data

/-- The files a worker sees and the meaning of the expressions in them. -/
structure Env where
  /-- `os.path.isfile` -/
  isfile : PyStr → Bool
  /-- the rows `csv.reader` yields for a file after its first line -/
  rows : PyStr → List (List PyStr)
  /-- what evaluating an expression does -/
  expr : PyStr → Gen

/-- `row[0]` and `row[3]` of a row of the file -/
def readRow (env : Env) (cells : List PyStr) : Except PyErr Row :=
  match cells[0]?, cells[3]? with
  | some property, some generator => .ok ⟨property, env.expr generator⟩
  | _, _ => .error .indexError

/-- The row loop over the rows of a file. -/
def templateLoop (env : Env) (data : Value) (template : List (List PyStr)) :
    Py DocState Value :=
  template.foldlM (fun data cells => do
    let row ← fromExcept (readRow env cells)
    mergeRow M data row) data

/-- One document: `counts` and `data` start empty and `counts` is dropped at the end. -/
def fetchDoc (env : Env) (template : List (List PyStr)) : Py World Value :=
  zoom DocState.start (fun s _ => s.world) (templateLoop M env (.dict []) template)

/-- `template = "models/" + model`, or the same under `locust-tasks/` -/
def templatePath (env : Env) (model : PyStr) : PyStr :=
  let template := "models/".toList ++ model
  if env.isfile template then template else "locust-tasks/".toList ++ template

/-- `bulkFetch`: `bulkSize` documents of the model, one after the other. -/
def bulkFetch (env : Env) (model : PyStr) (bulkSize : Int) : Py World (List Value) :=
  let template := templatePath env model
  if env.isfile template then
    (List.range bulkSize.toNat).mapM fun _ => fetchDoc M env (env.rows template)
  else
    throw (.exception ("Model file not found. ".toList ++ template))

end RowLoop

-- ============================================================================
-- zipmerge is a zip strategy
-- ============================================================================

theorem mapM_range_succ {ε α : Type} (n : Nat) (f : Nat → Except ε α) :
    (List.range (n + 1)).mapM f = (do
      let a ← f 0
      let as ← (List.range n).mapM fun i => f (i + 1)
      pure (a :: as)) := by
  rw [List.range_succ_eq_map, List.mapM_cons, List.mapM_map]
  rfl

theorem zipmerge_eq_zipList (merge : Value → Value → Except PyErr Value)
    (base nxt : List Value) : zipmerge merge base nxt = zipList .indexError merge base nxt := by
  induction base generalizing nxt with
  | nil => rfl
  | cons b base ih =>
      rw [zipmerge, List.length_cons, mapM_range_succ]
      cases nxt with
      | nil => rfl
      | cons n nxt =>
          rw [zipList, ← ih nxt]
          rfl

theorem zipmerge_isZip : IsZip zipmerge := by
  intro merge xs ys zs
  rw [zipmerge_eq_zipList]
  exact zipList_isZip _ merge xs ys zs

/-- The merger that can be run. -/
def merger : DocMerger where
  merge := (deepMerger PyStr Atom PyErr.indexError).merge
  merge_dict := (deepMerger PyStr Atom PyErr.indexError).merge_dict
  merge_list := by
    intro base nxt
    rw [zipmerge_eq_zipList]
    exact (deepMerger PyStr Atom PyErr.indexError).merge_list base nxt
  merge_override := (deepMerger PyStr Atom PyErr.indexError).merge_override

-- ============================================================================
-- Everything runs in process steps
-- ============================================================================

/-- Building a document takes process steps and forgets no drawn length. -/
structure DocSteps (s t : DocState) : Prop where
  world : WorldSteps s.world t.world
  counts : ∀ name n, s.counts name = some n → t.counts name = some n

theorem DocSteps.refl (s : DocState) : DocSteps s s := ⟨.refl, fun _ _ h => h⟩

theorem DocSteps.trans {s t u : DocState} (h : DocSteps s t) (h' : DocSteps t u) :
    DocSteps s u :=
  ⟨h.world.trans h'.world, fun name n hn => h'.counts name n (h.counts name n hn)⟩

theorem onWorld_steps {α : Type} {x : Py World α} (h : Guarantees WorldSteps x) :
    Guarantees DocSteps (onWorld x) :=
  h.zoom fun _ _ hst => ⟨hst, fun _ _ hn => hn⟩

theorem lookupCount_steps (name : PyStr) : Guarantees DocSteps (lookupCount name) := by
  intro s
  cases hc : s.counts name with
  | some n =>
      rw [lookupCount_of_some hc]
      exact .refl s
  | none =>
      rw [lookupCount_of_none hc]
      have hrand := randintFromOne_steps s.world.maxArraySize
      cases hr : randintFromOne s.world.maxArraySize s.world with
      | error e w => exact ⟨hrand.of_error hr, fun _ _ hn => hn⟩
      | ok n w =>
          refine ⟨hrand.of_ok hr, fun name' m hm => ?_⟩
          show Function.update s.counts name (some n) name' = some m
          have hne : name' ≠ name := by
            rintro rfl
            rw [hc] at hm
            cases hm
          rw [Function.update_of_ne hne, hm]

theorem procpath_steps (path : List PyStr) (g : Gen) : Guarantees DocSteps (procpath path g) := by
  induction path using procpath.induct with
  | case1 =>
      rw [procpath_nil]
      exact Guarantees.throw .refl _
  | case2 component rest ihArray ihObject =>
      rw [procpath]
      refine Guarantees.bind .trans (Guarantees.fromExcept .refl _) fun stripped => ?_
      split
      · exact Guarantees.bind .trans (onWorld_steps g.eval_steps) fun v =>
          Guarantees.pure .refl _
      · split
        · rename_i hmark
          refine Guarantees.bind .trans (lookupCount_steps stripped) fun n => ?_
          refine Guarantees.bind .trans (Guarantees.mapM .refl .trans (fun _ => ?_) _) fun xs =>
            Guarantees.pure .refl _
          exact Guarantees.bind .trans (ihArray hmark) fun _ =>
            Guarantees.fromExcept .refl _
        · exact Guarantees.bind .trans ihObject fun _ => Guarantees.pure .refl _

variable (M : DocMerger)

theorem mergeRow_steps (data : Value) (row : Row) : Guarantees DocSteps (mergeRow M data row) :=
  Guarantees.bind .trans (procpath_steps _ _) fun _ => Guarantees.fromExcept .refl _

theorem rowLoop_steps (data : Value) (rows : List Row) :
    Guarantees DocSteps (rowLoop M data rows) :=
  Guarantees.foldlM .refl .trans (fun _ _ => mergeRow_steps M _ _) rows data

theorem fetchDoc_steps (env : Env) (template : List (List PyStr)) :
    Guarantees WorldSteps (fetchDoc M env template) := by
  refine Guarantees.zoom (P := DocSteps) (fun s t h => h.world) ?_
  exact Guarantees.foldlM .refl .trans (fun data cells =>
    Guarantees.bind .trans (Guarantees.fromExcept .refl _) fun row =>
      mergeRow_steps M data row) template _

/-- A call of `bulkFetch`, returning or raising, takes process steps only. -/
theorem bulkFetch_steps (env : Env) (model : PyStr) (bulkSize : Int) :
    Guarantees WorldSteps (bulkFetch M env model bulkSize) := by
  rw [bulkFetch]
  split
  · exact Guarantees.mapM (fun _ => .refl) Relation.ReflTransGen.trans
      (fun _ => fetchDoc_steps M env _) _
  · exact Guarantees.throw (fun _ => .refl) _

-- ============================================================================
-- Histories of a process
-- ============================================================================

/-- The process after one call of `bulkFetch`, whether it returned or raised. -/
def afterCall (env : Env) (w : World) (call : PyStr × Int) : World :=
  match bulkFetch M env call.1 call.2 w with
  | .ok _ w' => w'
  | .error _ w' => w'

/-- The process after a sequence of calls of `bulkFetch`. -/
def afterCalls (env : Env) (w : World) (history : List (PyStr × Int)) : World :=
  history.foldl (afterCall M env) w

theorem afterCall_steps (env : Env) (w : World) (call : PyStr × Int) :
    WorldSteps w (afterCall M env w call) := by
  rw [afterCall]
  have h := bulkFetch_steps M env call.1 call.2
  split
  · exact h.of_ok ‹_›
  · exact h.of_error ‹_›

theorem afterCalls_steps (env : Env) (w : World) (history : List (PyStr × Int)) :
    WorldSteps w (afterCalls M env w history) := by
  induction history generalizing w with
  | nil => exact .refl
  | cons call history ih => exact (afterCall_steps M env w call).trans (ih _)

end MLocust.Faker
