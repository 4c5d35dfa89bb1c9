/-
  MLocust.Faker.PyStr

  Python strings as lists of code points, with the string operations that
  `fakerutil.py` applies to the components of a property path, and its
  `stripProp`.

  A path component names a property; a trailing `()` marks it as an array.  Two
  different strippings are used on it: `stripProp` gives the property name, and
  `component.strip('()')` gives the component the array branch recurses on.
  `stripName_stripMarker` says when the two agree.
-/
import MLocust.Lib.Strip

namespace MLocust.Faker

open Lib

/-- A Python `str`. -/
abbrev PyStr := List Char

/-- The exceptions the modelled code can raise.  `generator` stands for whatever an
    evaluated expression raises. -/
inductive PyErr where
  | indexError
  | keyError
  | valueError
  | exception (msg : PyStr)
  | generator (msg : PyStr)
deriving Repr, DecidableEq

namespace PyStr

/-- The characters that `\s` matches in a `str` pattern. -/
def isSpace (c : Char) : Bool :=
  let n := c.toNat
  (0x09 ≤ n && n ≤ 0x0d) || (0x1c ≤ n && n ≤ 0x20) || n == 0x85 || n == 0xa0 ||
    n == 0x1680 || (0x2000 ≤ n && n ≤ 0x200a) || n == 0x2028 || n == 0x2029 ||
    n == 0x202f || n == 0x205f || n == 0x3000

/-- `re.sub(r'\s+', '', s)` -/
def removeSpace (s : PyStr) : PyStr := s.filter fun c => !isSpace c

/-- The array marker `'()'`; also the set of characters that `strip('()')` removes. -/
def marker : PyStr := ['(', ')']

/-- `c in '()'` -/
def isParen (c : Char) : Bool := marker.contains c

/-- `s.strip('()')` -/
def stripMarker (s : PyStr) : PyStr := strip isParen s

/-- `s.endswith('()')` -/
def endsWithMarker (s : PyStr) : Bool := marker.isSuffixOf s

/-- `s.split('.')` -/
def splitDot (s : PyStr) : List PyStr := s.splitOn '.'

end PyStr

open PyStr

/-- The property name that `stripProp` computes on a non-empty string: keep the first
    character, strip parentheses from the rest, delete white space. -/
def stripName : PyStr → PyStr
  | [] => []
  | c :: s => removeSpace (c :: stripMarker s)

/-- `stripProp = lambda str: re.sub(r'\s+', '', (str[0] + str[1:].strip('()')))` -/
def stripProp (s : PyStr) : Except PyErr PyStr :=
  match s with
  | [] => .error .indexError
  | _ :: _ => .ok (stripName s)

theorem stripProp_of_ne_nil {s : PyStr} (h : s ≠ []) : stripProp s = .ok (stripName s) := by
  cases s with
  | nil => exact absurd rfl h
  | cons c s => rfl

-- ============================================================================
-- White space and parentheses
-- ============================================================================

theorem isParen_iff {c : Char} : isParen c ↔ c = '(' ∨ c = ')' := by
  simp [isParen, marker]

theorem isSpace_of_isParen {c : Char} (h : isParen c) : isSpace c = false := by
  rcases isParen_iff.mp h with rfl | rfl <;> decide

theorem removeSpace_cons_of_isParen {c : Char} (h : isParen c) (s : PyStr) :
    removeSpace (c :: s) = c :: removeSpace s := by
  simp [removeSpace, isSpace_of_isParen h]

theorem endsWithMarker_iff {s : PyStr} : endsWithMarker s ↔ ∃ r, s = r ++ marker := by
  rw [endsWithMarker, List.isSuffixOf_iff_suffix]
  constructor
  · rintro ⟨r, hr⟩
    exact ⟨r, hr.symm⟩
  · rintro ⟨r, rfl⟩
    exact ⟨r, rfl⟩

/-- A string without a trailing parenthesis carries no marker. -/
theorem not_endsWithMarker_of_getLast {s : PyStr} (hne : s ≠ [])
    (h : ¬ isParen (s.getLast hne)) : ¬ endsWithMarker s := by
  intro hm
  obtain ⟨r, rfl⟩ := endsWithMarker_iff.mp hm
  apply h
  rw [List.getLast_append_of_right_ne_nil _ _ (by decide : marker ≠ [])]
  decide

theorem not_endsWithMarker_nil : ¬ endsWithMarker [] := by decide

/-- Stripping the marker off leaves a component without one, so the array branch of
    `procpath` hits the object branch on its recursive call. -/
theorem not_endsWithMarker_stripMarker (s : PyStr) : ¬ endsWithMarker (stripMarker s) := by
  by_cases h : stripMarker s = []
  · rw [h]
    exact not_endsWithMarker_nil
  · exact not_endsWithMarker_of_getLast h (strip_getLast s h)

-- ============================================================================
-- The two strippings of a component
-- ============================================================================

/-- On a component that does not start with a parenthesis the two strippings agree. -/
theorem stripName_stripMarker {c : Char} (hc : ¬ isParen c) (s : PyStr) :
    stripName (stripMarker (c :: s)) = stripName (c :: s) := by
  rw [stripMarker, strip_cons_of_neg hc, stripName, stripName, stripMarker, stripMarker,
    strip_rdropWhile]

theorem stripMarker_ne_nil {c : Char} (hc : ¬ isParen c) (s : PyStr) :
    stripMarker (c :: s) ≠ [] := by
  rw [stripMarker, strip_cons_of_neg hc]
  exact List.cons_ne_nil _ _

theorem length_stripName_le (s : PyStr) : (stripName s).length ≤ (removeSpace s).length := by
  cases s with
  | nil => exact Nat.le_refl 0
  | cons c s =>
      have hsub := ((strip_sublist (p := isParen) s).cons_cons c).filter fun c => !isSpace c
      exact hsub.length_le

/-- On a component that starts with a parenthesis the stripped component has a shorter
    property name, so the lookup of the array branch misses it. -/
theorem stripName_stripMarker_ne {c : Char} (hc : isParen c) (s : PyStr) :
    stripName (stripMarker (c :: s)) ≠ stripName (c :: s) := by
  intro h
  have hle := length_stripName_le (stripMarker (c :: s))
  rw [h, stripMarker, strip_cons_of_pos hc, stripName, stripMarker,
    removeSpace_cons_of_isParen hc, List.length_cons] at hle
  omega

end MLocust.Faker
