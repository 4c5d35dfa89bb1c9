/-
  MLocust.Faker.Path

  Property paths after stripping, and the trees they describe.

  `comps` reads a path of components as names with array marks; a mark on the last
  component is dropped, as `procpath` drops it.  For given array lengths and given
  leaf values, `tree` is the partial tree of a path: `indices` are the index tuples
  of its leaves in row-major order and `place` the concrete path of each.

  Two paths are `Compat` when their trees can lie side by side in one document.
  `not_compat_iff` spells out the opposite: one path is a prefix of the other, or
  the two disagree on an array mark.
-/
import MLocust.Faker.Procpath

namespace MLocust.Faker

open Lib PyStr

/-- A stripped component: the property name, and whether it is walked as an array. -/
structure Comp where
  name : PyStr
  array : Bool
deriving Repr, DecidableEq

/-- The stripped components of a path.  The mark of the last component is dropped. -/
def comps : List PyStr → List Comp
  | [] => []
  | [component] => [⟨stripName component, false⟩]
  | component :: rest => ⟨stripName component, endsWithMarker component⟩ :: comps rest

/-- The stripped names of a path. -/
def names (cs : List Comp) : List PyStr := cs.map Comp.name

/-- The component starts with a parenthesis. -/
def startsWithParen (component : PyStr) : Bool := component.head?.any isParen

/-- The paths that `procpath` walks to the end: no component is empty, and no component
    that is walked as an array starts with a parenthesis. -/
def Walkable : List PyStr → Prop
  | [] => False
  | [component] => component ≠ []
  | component :: rest =>
      component ≠ [] ∧ ¬ (endsWithMarker component ∧ startsWithParen component) ∧ Walkable rest

instance instDecidableWalkable : (path : List PyStr) → Decidable (Walkable path)
  | [] => inferInstanceAs (Decidable False)
  | [component] => inferInstanceAs (Decidable (component ≠ []))
  | component :: c :: rest =>
      have := instDecidableWalkable (c :: rest)
      inferInstanceAs (Decidable (component ≠ [] ∧
        ¬ (endsWithMarker component ∧ startsWithParen component) ∧ Walkable (c :: rest)))

theorem comps_cons {component : PyStr} {rest : List PyStr} (h : rest ≠ []) :
    comps (component :: rest) =
      ⟨stripName component, endsWithMarker component⟩ :: comps rest := by
  cases rest with
  | nil => exact absurd rfl h
  | cons c rest => rfl

theorem walkable_cons {component : PyStr} {rest : List PyStr} (h : rest ≠ []) :
    Walkable (component :: rest) ↔ component ≠ [] ∧
      ¬ (endsWithMarker component ∧ startsWithParen component) ∧ Walkable rest := by
  cases rest with
  | nil => exact absurd rfl h
  | cons c rest => exact Iff.rfl

/-- A component that is not the last one of its path. -/
def readComp (component : PyStr) : Comp := ⟨stripName component, endsWithMarker component⟩

theorem comps_append (above : List PyStr) {below : List PyStr} (h : below ≠ []) :
    comps (above ++ below) = above.map readComp ++ comps below := by
  induction above with
  | nil => rfl
  | cons c above ih =>
      have hne : above ++ below ≠ [] := List.append_ne_nil_of_right_ne_nil _ h
      rw [List.cons_append, comps_cons hne, ih]
      rfl

theorem comps_length (path : List PyStr) : (comps path).length = path.length := by
  induction path with
  | nil => rfl
  | cons component rest ih =>
      by_cases h : rest = []
      · subst h
        rfl
      · rw [comps_cons h, List.length_cons, List.length_cons, ih]

theorem comps_ne_nil {path : List PyStr} (h : path ≠ []) : comps path ≠ [] := by
  intro hc
  apply h
  rw [← List.length_eq_zero_iff, ← comps_length, hc, List.length_nil]

/-- The last component of a path is not walked as an array. -/
theorem comps_eq_append {path : List PyStr} (h : path ≠ []) :
    ∃ cs c, comps path = cs ++ [c] ∧ ¬ c.array := by
  induction path with
  | nil => exact absurd rfl h
  | cons component rest ih =>
      by_cases hrest : rest = []
      · subst hrest
        exact ⟨[], _, rfl, Bool.false_ne_true⟩
      · obtain ⟨cs, c, hcs, hc⟩ := ih hrest
        exact ⟨_ :: cs, c, by rw [comps_cons hrest, hcs, List.cons_append], hc⟩

theorem Walkable.ne_nil {path : List PyStr} (h : Walkable path) : path ≠ [] := by
  rintro rfl
  exact h

/-- A path is walkable unless it has an empty component, or an array component that
    starts with a parenthesis. -/
theorem not_walkable_iff {path : List PyStr} (hne : path ≠ []) :
    ¬ Walkable path ↔ (∃ component ∈ path, component = []) ∨
      ∃ component ∈ path.dropLast,
        endsWithMarker component ∧ startsWithParen component := by
  induction path with
  | nil => exact absurd rfl hne
  | cons component rest ih =>
      by_cases h : rest = []
      · subst h
        simp [Walkable]
      · rw [walkable_cons h, List.dropLast_cons_of_ne_nil h]
        simp only [List.mem_cons, or_and_right, exists_or, exists_eq_left]
        rw [not_and_or, not_and_or, not_not, not_not, ih h]
        simp only [or_assoc, or_left_comm]

-- ============================================================================
-- Compatible paths
-- ============================================================================

/-- The two paths part ways at some name, with the same marks up to there. -/
def Compat : List Comp → List Comp → Prop
  | [], _ => False
  | _, [] => False
  | c :: p, d :: q => c.name ≠ d.name ∨ (c.array = d.array ∧ Compat p q)

instance : (p q : List Comp) → Decidable (Compat p q)
  | [], _ => .isFalse (by simp [Compat])
  | _ :: _, [] => .isFalse (by simp [Compat])
  | c :: p, d :: q =>
      have := instDecidableCompat p q
      inferInstanceAs (Decidable (c.name ≠ d.name ∨ (c.array = d.array ∧ Compat p q)))

theorem Compat.symm {p q : List Comp} (h : Compat p q) : Compat q p := by
  induction p generalizing q with
  | nil => exact h.elim
  | cons c p ih =>
      cases q with
      | nil => exact h.elim
      | cons d q =>
          rcases h with hne | ⟨harr, hpq⟩
          · exact Or.inl (Ne.symm hne)
          · exact Or.inr ⟨harr.symm, ih hpq⟩

/-- Two paths conflict: one is a prefix of the other, or they carry different marks at a
    position that is not the last of either, with the same names up to it. -/
def Conflict (p q : List Comp) : Prop :=
  names p <+: names q ∨ names q <+: names p ∨
    ∃ i, i + 1 < p.length ∧ i + 1 < q.length ∧
      (names p).take (i + 1) = (names q).take (i + 1) ∧
      (p.map Comp.array)[i]? ≠ (q.map Comp.array)[i]?

/-- `Compat` is the opposite of `Conflict`. -/
theorem not_compat_iff {p q : List Comp} : ¬ Compat p q ↔ Conflict p q := by
  induction p generalizing q with
  | nil => simp [Compat, Conflict, names]
  | cons c p ih =>
      cases q with
      | nil => simp [Compat, Conflict, names]
      | cons d q =>
          by_cases hname : c.name = d.name
          · by_cases harr : c.array = d.array
            -- equal components: both relations go on with the rests
            · have hstep : Conflict (c :: p) (d :: q) ↔ Conflict p q := by
                simp only [Conflict, names, List.map_cons, List.length_cons, hname,
                  List.cons_prefix_cons, true_and]
                refine or_congr Iff.rfl (or_congr Iff.rfl ⟨?_, ?_⟩)
                · rintro ⟨i, hip, hiq, htake, hmark⟩
                  cases i with
                  | zero => simp [harr] at hmark
                  | succ i =>
                      refine ⟨i, by omega, by omega, ?_, by simpa using hmark⟩
                      simpa using htake
                · rintro ⟨i, hip, hiq, htake, hmark⟩
                  refine ⟨i + 1, by omega, by omega, ?_, by simpa using hmark⟩
                  simpa using htake
              rw [hstep, ← ih]
              simp [Compat, hname, harr]
            -- one name with two marks
            · refine iff_of_true ?_ ?_
              · simp [Compat, hname, harr]
              · by_cases hpn : p = []
                · -- a differing mark on a last component is a prefix conflict
                  subst hpn
                  exact Or.inl (by simp [names, hname])
                · by_cases hqn : q = []
                  -- the other way round
                  · subst hqn
                    exact Or.inr (Or.inl (by simp [names, hname]))
                  -- both go on, so the marks differ in the middle
                  · refine Or.inr (Or.inr ⟨0, ?_, ?_, by simp [names, hname], by simpa using harr⟩)
                    · have := List.length_pos_of_ne_nil hpn
                      simpa using this
                    · have := List.length_pos_of_ne_nil hqn
                      simpa using this
          -- two names
          · refine iff_of_false ?_ ?_
            · exact fun h => h (Or.inl hname)
            · rintro (h | h | ⟨i, _, _, htake, _⟩)
              · simp [names, hname] at h
              · simp [names, Ne.symm hname] at h
              · simp [names, hname] at htake

/-- No path compatible with `p` ends on the way to `p`. -/
theorem not_prefix_of_compat {p q : List Comp} {ks : List PyStr} (h : Compat p q)
    (hks : ks <+: names p) : ¬ names q <+: ks := by
  intro hq
  exact not_compat_iff.mpr (Or.inr (Or.inl (hq.trans hks))) h

-- ============================================================================
-- Partial trees
-- ============================================================================

/-- The names whose lengths a path looks up, in path order. -/
def arrayNames (cs : List Comp) : List PyStr := (cs.filter Comp.array).map Comp.name

theorem arrayNames_array {c : Comp} (hc : c.array) (cs : List Comp) :
    arrayNames (c :: cs) = c.name :: arrayNames cs := by
  rw [arrayNames, List.filter_cons_of_pos hc]
  rfl

theorem arrayNames_object {c : Comp} (hc : ¬ c.array) (cs : List Comp) :
    arrayNames (c :: cs) = arrayNames cs := by
  rw [arrayNames, List.filter_cons_of_neg hc]
  rfl

/-- The index tuples of a path's leaves, in row-major order. -/
def indices (len : PyStr → Nat) : List Comp → List (List Nat)
  | [] => [[]]
  | c :: cs =>
      if c.array then
        (List.range (len c.name)).flatMap fun i => (indices len cs).map (i :: ·)
      else indices len cs

/-- The concrete path of the leaf with the given index tuple. -/
def place : List Comp → List Nat → List (Step PyStr)
  | [], _ => []
  | c :: cs, is =>
      .key c.name ::
        if c.array then is.head?.toList.map .idx ++ place cs is.tail else place cs is

/-- The partial tree of a path, for given array lengths and leaf values. -/
def tree (len : PyStr → Nat) : List Comp → (List Nat → Value) → Value
  | [], f => f []
  | c :: cs, f =>
      .dict [(c.name,
        if c.array then
          .list ((List.range (len c.name)).map fun i => tree len cs fun is => f (i :: is))
        else tree len cs f)]

/-- What the partial tree holds under its one key. -/
def branch (len : PyStr → Nat) (c : Comp) (cs : List Comp) (f : List Nat → Value) : Value :=
  if c.array then .list ((List.range (len c.name)).map fun i => tree len cs fun is => f (i :: is))
  else tree len cs f

theorem tree_cons (len : PyStr → Nat) (c : Comp) (cs : List Comp) (f : List Nat → Value) :
    tree len (c :: cs) f = .dict [(c.name, branch len c cs f)] := rfl

theorem branch_array {len : PyStr → Nat} {c : Comp} (hc : c.array) (cs : List Comp)
    (f : List Nat → Value) :
    branch len c cs f =
      .list ((List.range (len c.name)).map fun i => tree len cs fun is => f (i :: is)) := by
  rw [branch, if_pos hc]

theorem branch_object {len : PyStr → Nat} {c : Comp} (hc : ¬ c.array) (cs : List Comp)
    (f : List Nat → Value) : branch len c cs f = tree len cs f := by
  rw [branch, if_neg hc]

theorem indices_array {len : PyStr → Nat} {c : Comp} (hc : c.array) (cs : List Comp) :
    indices len (c :: cs) =
      (List.range (len c.name)).flatMap fun i => (indices len cs).map (i :: ·) := by
  rw [indices, if_pos hc]

theorem indices_object {len : PyStr → Nat} {c : Comp} (hc : ¬ c.array) (cs : List Comp) :
    indices len (c :: cs) = indices len cs := by
  rw [indices, if_neg hc]

theorem place_array {c : Comp} (hc : c.array) (cs : List Comp) (i : Nat) (is : List Nat) :
    place (c :: cs) (i :: is) = .key c.name :: .idx i :: place cs is := by
  rw [place, if_pos hc]
  rfl

theorem place_object {c : Comp} (hc : ¬ c.array) (cs : List Comp) (is : List Nat) :
    place (c :: cs) is = .key c.name :: place cs is := by
  rw [place, if_neg hc]

theorem mem_indices_array {len : PyStr → Nat} {c : Comp} (hc : c.array) {cs : List Comp}
    {is : List Nat} : is ∈ indices len (c :: cs) ↔
      ∃ i js, i < len c.name ∧ js ∈ indices len cs ∧ is = i :: js := by
  rw [indices_array hc]
  simp only [List.mem_flatMap, List.mem_range, List.mem_map]
  exact ⟨fun ⟨i, hi, js, hjs, h⟩ => ⟨i, js, hi, hjs, h.symm⟩,
    fun ⟨i, js, hi, hjs, h⟩ => ⟨i, hi, js, hjs, h.symm⟩⟩

end MLocust.Faker
