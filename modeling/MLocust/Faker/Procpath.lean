/-
  MLocust.Faker.Procpath

  `procpath` of `fakerutil.py`: walk a path of components and build the partial
  tree that holds just this path's generated values.

  While one document is built, the lengths of its arrays are kept in `counts`, a
  `defaultdict(lambda: random.randint(1, maxArraySize))` keyed by the stripped
  component name.  A length is drawn when it is first looked up, against the
  `maxArraySize` of that moment.

  The array branch of `procpath` calls itself on a path of the same length; the
  recursion ends because the component has lost its marker (`termination_by`).
-/
import MLocust.Faker.World

namespace MLocust.Faker

open Lib Lib.Program PyStr

/-- The array lengths drawn so far for the current document. -/
abbrev Counts := PyStr → Option ℕ+

/-- The state threaded through the building of one document. -/
structure DocState where
  counts : Counts
  world : World

/-- No length drawn yet. -/
def Counts.empty : Counts := fun _ => none

/-- The state in which the building of a document starts. -/
def DocState.start (w : World) : DocState := ⟨.empty, w⟩

/-- Run a program of the process while building a document. -/
def onWorld {α : Type} (x : Py World α) : Py DocState α :=
  zoom DocState.world (fun w s => { s with world := w }) x

/-- `counts[name]`: the length drawn earlier, or a new one that is kept. -/
def lookupCount (name : PyStr) : Py DocState ℕ+ := do
  let s ← get
  match s.counts name with
  | some n => pure n
  | none => do
      let n ← onWorld (randintFromOne s.world.maxArraySize)
      modify fun s => { s with counts := Function.update s.counts name (some n) }
      pure n

/-- A length drawn earlier is looked up without any effect. -/
theorem lookupCount_of_some {name : PyStr} {s : DocState} {n : ℕ+}
    (h : s.counts name = some n) : lookupCount name s = .ok n s := by
  rw [lookupCount, bind_of_ok (get_apply s), h]
  rfl

/-- A missing length is drawn against the current `maxArraySize` and kept. -/
theorem lookupCount_of_none {name : PyStr} {s : DocState} (h : s.counts name = none) :
    lookupCount name s = match randintFromOne s.world.maxArraySize s.world with
      | .ok n w => .ok n ⟨Function.update s.counts name (some n), w⟩
      | .error e w => .error e ⟨s.counts, w⟩ := by
  rw [lookupCount, bind_of_ok (get_apply s), h]
  show (onWorld (randintFromOne s.world.maxArraySize) >>= _) s = _
  rw [bind_apply, onWorld, zoom]
  cases randintFromOne s.world.maxArraySize s.world with
  | ok n w => rfl
  | error e w => rfl

/-- `tree[key]` -/
def getItem (tree : Value) (key : PyStr) : Except PyErr Value :=
  match tree with
  | .dict items =>
      match items.lookup key with
      | some v => .ok v
      | none => .error .keyError
  | _ => .error .keyError

/-- The second component of the termination measure of `procpath`. -/
def markerWeight : List PyStr → Nat
  | [] => 0
  | component :: _ => if endsWithMarker component then 1 else 0

/-- `procpath`: recursively walk a path, generating a partial tree with just this path's
    random contents. -/
def procpath (path : List PyStr) (generator : Gen) : Py DocState Value :=
  match path with
  | [] => throw .indexError
  | component :: rest => do
      let stripped ← fromExcept (stripProp component)
      if rest.isEmpty then
        let value ← onWorld generator.eval
        pure (.dict [(stripped, value.val)])
      else if endsWithMarker component then
        let length ← lookupCount stripped
        -- every element walks the same path again, with the marker stripped off
        let elements ← (List.range length).mapM fun _ => do
          let element ← procpath (stripMarker component :: rest) generator
          fromExcept (getItem element stripped)
        pure (.dict [(stripped, .list elements)])
      else
        let value ← procpath rest generator
        pure (.dict [(stripped, value)])
termination_by (path.length, markerWeight path)
decreasing_by
  · rename_i hmark
    have hstrip : ¬ endsWithMarker (stripMarker component) :=
      not_endsWithMarker_stripMarker component
    simp only [markerWeight, List.length_cons, hmark, if_true]
    rw [if_neg hstrip]
    exact Prod.Lex.right _ Nat.zero_lt_one
  · exact Prod.Lex.left _ _ (Nat.lt_succ_self _)

-- ============================================================================
-- The branches of procpath
-- ============================================================================

theorem procpath_nil (g : Gen) : procpath [] g = throw .indexError := by
  rw [procpath]

theorem procpath_last {component : PyStr} (hne : component ≠ []) (g : Gen) :
    procpath [component] g = (do
      let value ← onWorld g.eval
      pure (.dict [(stripName component, value.val)])) := by
  rw [procpath, stripProp_of_ne_nil hne]
  rfl

theorem procpath_array {component : PyStr} {rest : List PyStr} (hne : component ≠ [])
    (hrest : rest ≠ []) (hmark : endsWithMarker component) (g : Gen) :
    procpath (component :: rest) g = (do
      let length ← lookupCount (stripName component)
      let elements ← (List.range length).mapM fun _ => do
        let element ← procpath (stripMarker component :: rest) g
        fromExcept (getItem element (stripName component))
      pure (.dict [(stripName component, .list elements)])) := by
  rw [procpath, stripProp_of_ne_nil hne, fromExcept_ok, pure_bind, if_neg (by simpa using hrest),
    if_pos hmark]

theorem procpath_object {component : PyStr} {rest : List PyStr} (hne : component ≠ [])
    (hrest : rest ≠ []) (hmark : ¬ endsWithMarker component) (g : Gen) :
    procpath (component :: rest) g = (do
      let value ← procpath rest g
      pure (.dict [(stripName component, value)])) := by
  rw [procpath, stripProp_of_ne_nil hne, fromExcept_ok, pure_bind, if_neg (by simpa using hrest),
    if_neg hmark]

/-- An empty component raises as soon as it is reached. -/
theorem procpath_empty (rest : List PyStr) (g : Gen) :
    procpath ([] :: rest) g = throw .indexError := by
  rw [procpath]
  rfl

end MLocust.Faker
