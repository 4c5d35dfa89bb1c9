/-
  MLocust.Faker.World

  The state that `fakerutil.py` keeps for the life of a worker process, and the
  generator expressions that are evaluated against it.

  A process holds the random source, the counters behind `ID` and the current
  `maxArraySize`.  A generator is the text of a Python expression; `Gen` is what
  evaluating that text does: it draws random numbers, calls `ID` and
  `setArraySize`, reads `maxArraySize`, and returns a value or raises.  It has no
  other access to the process.

  Values are trees, without the identity of the list and dictionary objects of Python.
  This is faithful for generators that share no objects: every evaluation returns list
  and dictionary objects of its own, none of which occurs twice in the value or is kept
  for another evaluation.  Other generators are not modelled: of `[{}]*2` the document
  holds one dictionary in two places, and the merger, which changes dictionaries in
  place, would change both at once.

  `WorldStep` is the transition relation of the process; every program of the
  model only ever takes such steps (`Gen.eval_steps` and the lemmas after it in
  the modules that follow).
-/
import MLocust.Faker.PyStr
import MLocust.Lib.Program
import MLocust.Lib.DataTree
import Mathlib.Data.PNat.Basic
import Mathlib.Logic.Function.Basic
import Mathlib.Logic.Relation

namespace MLocust.Faker

open Lib Lib.Program

/-- A Python value that is neither a list nor a dictionary. -/
inductive Atom where
  | str (s : PyStr)
  | int (n : Int)
  | other (repr : PyStr)
deriving Repr, DecidableEq

/-- Documents, partial trees and generated values, as trees: keys are strings, and no two places
    of a value are the same list or dictionary object. -/
abbrev Value := DataTree PyStr Atom

/-- A value a generator returns: its dictionaries repeat no key, and its lists and
    dictionaries are objects of its own. -/
abbrev PyValue := { v : Value // v.WF }

/-- A string value. -/
def PyValue.str (s : PyStr) : PyValue := ⟨.atom (.str s), .atom _⟩

/-- An integer value. -/
def PyValue.int (n : Int) : PyValue := ⟨.atom (.int n), .atom _⟩

/-- A list value. -/
def PyValue.list (vs : List PyValue) : PyValue :=
  ⟨.list (vs.map Subtype.val), .list fun x hx => by
    obtain ⟨v, _, rfl⟩ := List.mem_map.mp hx
    exact v.property⟩

-- ============================================================================
-- The process
-- ============================================================================

/-- A call that changes the process. -/
inductive Call where
  | id (key result : PyStr)
  | setArraySize (size : Int)
deriving Repr, DecidableEq

/-- The state of a worker process. -/
structure World where
  /-- The numbers the random source is going to produce. -/
  draws : Nat → Nat
  /-- `id_map`, a `defaultdict(int)` -/
  idMap : PyStr → Nat
  /-- `maxArraySize` -/
  maxArraySize : Int
  /-- Every call of `ID` and `setArraySize` so far.  This is a history variable: the
      program keeps no such list and nothing below reads it. -/
  calls : List Call

/-- A program of the process. -/
abbrev Py (σ α : Type) := EStateM PyErr σ α

/-- `starting_id_minus_1 = 0` -/
def startingIdMinus1 : Nat := 0

/-- `maxArraySize = 5`, as set when the module is loaded -/
def defaultMaxArraySize : Int := 5

/-- A process that has just loaded `fakerutil`. -/
def World.fresh (draws : Nat → Nat) : World where
  draws := draws
  idMap := fun _ => 0
  maxArraySize := defaultMaxArraySize
  calls := []

/-- `str(n)` for a natural number -/
def str (n : Nat) : PyStr := Nat.toDigits 10 n

/-- The next number of the random source. -/
def draw : Py World Nat := fun w =>
  .ok (w.draws 0) { w with draws := fun n => w.draws (n + 1) }

/-- `random.randint(1, hi)`: a number from `1` to `hi`, or `ValueError` on an empty
    range. -/
def randintFromOne (hi : Int) : Py World ℕ+ :=
  if hi < 1 then throw .valueError
  else do
    let d ← draw
    pure ⟨1 + d % hi.toNat, by omega⟩

/-- The process after `ID(key)`. -/
def World.afterID (w : World) (key : PyStr) : World :=
  { w with
    idMap := Function.update w.idMap key (w.idMap key + 1)
    calls := w.calls ++ [.id key (key ++ str (w.idMap key + 1 + startingIdMinus1))] }

/-- `ID`: `id_map[key] += 1; return key + str(id_map[key]+starting_id_minus_1)` -/
def ID (key : PyStr) : Py World PyStr := fun w =>
  .ok (key ++ str (w.idMap key + 1 + startingIdMinus1)) (w.afterID key)

/-- The process after `setArraySize(size)`. -/
def World.afterSetArraySize (w : World) (size : Int) : World :=
  { w with
    maxArraySize := size
    calls := w.calls ++ [.setArraySize size] }

/-- `setArraySize`: `maxArraySize = size; return size` -/
def setArraySize (size : Int) : Py World Int := fun w =>
  .ok size (w.afterSetArraySize size)

/-- One step of the process: a random draw, or a call of `ID` or `setArraySize`. -/
inductive WorldStep : World → World → Prop
  | draw (w) : WorldStep w { w with draws := fun n => w.draws (n + 1) }
  | id (w key) : WorldStep w (w.afterID key)
  | setArraySize (w size) : WorldStep w (w.afterSetArraySize size)

/-- Any number of process steps. -/
abbrev WorldSteps : World → World → Prop := Relation.ReflTransGen WorldStep

/-- A state some process reaches. -/
def World.Reachable (w : World) : Prop := ∃ draws, WorldSteps (World.fresh draws) w

theorem draw_steps : Guarantees WorldSteps draw := fun w => .single (.draw w)

theorem randintFromOne_steps (hi : Int) : Guarantees WorldSteps (randintFromOne hi) := by
  rw [randintFromOne]
  split
  · exact Guarantees.throw (fun _ => .refl) _
  · exact Guarantees.bind Relation.ReflTransGen.trans draw_steps fun _ =>
      Guarantees.pure (fun _ => .refl) _

theorem ID_steps (key : PyStr) : Guarantees WorldSteps (ID key) := fun w => .single (.id w key)

theorem setArraySize_steps (size : Int) : Guarantees WorldSteps (setArraySize size) :=
  fun w => .single (.setArraySize w size)

/-- A number drawn by `randint(1, hi)` is at most `hi`; its draw changes nothing but the
    random source. -/
theorem randintFromOne_eq_ok {hi : Int} {w w' : World} {n : ℕ+}
    (h : randintFromOne hi w = .ok n w') :
    (n : Int) ≤ hi ∧ w' = { w with draws := fun n => w.draws (n + 1) } := by
  rw [randintFromOne] at h
  split at h
  · cases h
  · rename_i hhi
    obtain ⟨d, w₁, hd, hn⟩ := bind_eq_ok.mp h
    cases hd
    cases hn
    refine ⟨?_, rfl⟩
    have hmod : w.draws 0 % hi.toNat < hi.toNat := Nat.mod_lt _ (by omega)
    show ((1 + w.draws 0 % hi.toNat : Nat) : Int) ≤ hi
    omega

/-- `randint(1, hi)` raises only on an empty range. -/
theorem randintFromOne_exists {hi : Int} (hhi : 1 ≤ hi) (w : World) :
    ∃ n w', randintFromOne hi w = .ok n w' := by
  rw [randintFromOne, if_neg (by omega)]
  exact ⟨_, _, rfl⟩

-- ============================================================================
-- Generators
-- ============================================================================

/-- What evaluating a generator expression does.  A value is returned in objects that occur
    once in it and that no other evaluation returns. -/
inductive Gen where
  | ret (v : PyValue)
  | raise (msg : PyStr)
  | random (k : Nat → Gen)
  | callID (key : PyStr) (k : PyStr → Gen)
  | callSetArraySize (size : Int) (k : Int → Gen)
  | readMaxArraySize (k : Int → Gen)

namespace Gen

/-- `eval(generator)` -/
def eval : Gen → Py World PyValue
  | .ret v => pure v
  | .raise msg => throw (.generator msg)
  | .random k => do
      let n ← draw
      (k n).eval
  | .callID key k => do
      let s ← ID key
      (k s).eval
  | .callSetArraySize size k => do
      let n ← setArraySize size
      (k n).eval
  | .readMaxArraySize k => do
      let w ← get
      (k w.maxArraySize).eval

/-- The expression `ID(key)`. -/
def id (key : PyStr) : Gen := .callID key fun s => .ret (.str s)

/-- The expression `setArraySize(size)`. -/
def setArraySize (size : Int) : Gen := .callSetArraySize size fun n => .ret (.int n)

theorem eval_steps (g : Gen) : Guarantees WorldSteps g.eval := by
  induction g with
  | ret v => exact Guarantees.pure (fun _ => .refl) v
  | raise msg => exact Guarantees.throw (fun _ => .refl) _
  | random k ih => exact Guarantees.bind Relation.ReflTransGen.trans draw_steps ih
  | callID key k ih => exact Guarantees.bind Relation.ReflTransGen.trans (ID_steps key) ih
  | callSetArraySize size k ih =>
      exact Guarantees.bind Relation.ReflTransGen.trans (setArraySize_steps size) ih
  | readMaxArraySize k ih =>
      exact Guarantees.bind Relation.ReflTransGen.trans
        (fun _ => .refl) fun w => ih w.maxArraySize

theorem eval_id (key : PyStr) (w : World) :
    (Gen.id key).eval w =
      .ok (.str (key ++ str (w.idMap key + 1 + startingIdMinus1))) (w.afterID key) := rfl

theorem eval_setArraySize (size : Int) (w : World) :
    (Gen.setArraySize size).eval w = .ok (.int size) (w.afterSetArraySize size) := rfl

end Gen

end MLocust.Faker
