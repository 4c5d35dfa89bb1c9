/-
  MLocust.Lib.DeepMergeExec

  A deep merge that can be run: the function determined by the laws of `Merger`
  for the list strategy `zipList`, which merges position by position and raises
  `short` when the second list is too short.
-/
import MLocust.Lib.DeepMerge

namespace MLocust.Lib

open DataTree

variable {κ α ε : Type} [DecidableEq κ]

/-- Merge position by position over the first list. -/
def zipList (short : ε) (merge : DataTree κ α → DataTree κ α → Except ε (DataTree κ α)) :
    List (DataTree κ α) → List (DataTree κ α) → Except ε (List (DataTree κ α))
  | [], _ => .ok []
  | _ :: _, [] => .error short
  | x :: xs, y :: ys => do
      let z ← merge x y
      let zs ← zipList short merge xs ys
      pure (z :: zs)

omit [DecidableEq κ] in
theorem zipList_isZip (short : ε) : IsZip (zipList (κ := κ) (α := α) short) := by
  intro merge xs ys zs
  induction xs generalizing ys zs with
  | nil =>
      rw [zipList]
      refine ⟨?_, ?_⟩
      · intro h
        cases h
        exact .nil ys
      · intro h
        cases h
        rfl
  | cons x xs ih =>
      cases ys with
      | nil =>
          refine ⟨?_, ?_⟩
          · intro h
            cases h
          · intro h
            cases h
      | cons y ys =>
          rw [zipList, Except.bind_eq_ok]
          refine ⟨?_, ?_⟩
          · rintro ⟨z, hz, h⟩
            obtain ⟨zs', hzs, hcons⟩ := Except.bind_eq_ok.mp h
            cases hcons
            exact .cons hz ((ih ys zs').mp hzs)
          · intro h
            cases h with
            | cons hz hzs =>
                exact ⟨_, hz, Except.bind_eq_ok.mpr ⟨_, (ih ys _).mpr hzs, rfl⟩⟩

mutual

/-- Merge the second tree into the first. -/
def deepMerge (short : ε) : DataTree κ α → DataTree κ α → Except ε (DataTree κ α)
  | _, .atom a => .ok (.atom a)
  | .list xs, .list ys => .list <$> deepMergeList short xs ys
  | .atom _, .list ys => .ok (.list ys)
  | .dict _, .list ys => .ok (.list ys)
  | .dict b, .dict n => .dict <$> deepMergeItems short b n
  | .atom _, .dict n => .ok (.dict n)
  | .list _, .dict n => .ok (.dict n)
termination_by structural _ nxt => nxt

/-- Merge two lists position by position. -/
def deepMergeList (short : ε) :
    List (DataTree κ α) → List (DataTree κ α) → Except ε (List (DataTree κ α))
  | [], _ => .ok []
  | _ :: _, [] => .error short
  | x :: xs, y :: ys => do
      let z ← deepMerge short x y
      let zs ← deepMergeList short xs ys
      pure (z :: zs)
termination_by structural _ nxt => nxt

/-- Merge the items of the second dictionary into the first, one after the other. -/
def deepMergeItems (short : ε) :
    List (κ × DataTree κ α) → List (κ × DataTree κ α) → Except ε (List (κ × DataTree κ α))
  | b, [] => .ok b
  | b, item :: n => do
      let b' ← deepMergeItem short b item
      deepMergeItems short b' n
termination_by structural _ nxt => nxt

/-- Merge one item into a dictionary. -/
def deepMergeItem (short : ε) (b : List (κ × DataTree κ α)) :
    (κ × DataTree κ α) → Except ε (List (κ × DataTree κ α))
  | (k, v) =>
      match b.lookup k with
      | none => .ok (Dict.set k v b)
      | some x => do
          let y ← deepMerge short x v
          .ok (Dict.set k y b)
termination_by structural item => item

end

theorem deepMergeItem_eq (short : ε) (b : List (κ × DataTree κ α)) (item : κ × DataTree κ α) :
    deepMergeItem short b item = mergeItem (deepMerge short) b item := by
  obtain ⟨k, v⟩ := item
  rw [deepMergeItem]
  rfl

theorem deepMergeItems_eq (short : ε) (b n : List (κ × DataTree κ α)) :
    deepMergeItems short b n = n.foldlM (mergeItem (deepMerge short)) b := by
  induction n generalizing b with
  | nil =>
      rw [deepMergeItems]
      rfl
  | cons item n ih =>
      rw [deepMergeItems, List.foldlM_cons, deepMergeItem_eq]
      simp only [ih]

theorem deepMergeList_eq (short : ε) (xs ys : List (DataTree κ α)) :
    deepMergeList short xs ys = zipList short (deepMerge short) xs ys := by
  induction xs generalizing ys with
  | nil => rw [deepMergeList, zipList]
  | cons x xs ih =>
      cases ys with
      | nil => rw [deepMergeList, zipList]
      | cons y ys => rw [deepMergeList, zipList, ih]

/-- The laws of a deep merge hold of `deepMerge`. -/
def deepMerger (κ α : Type) [DecidableEq κ] (short : ε) :
    Merger κ α ε (zipList short) where
  merge := deepMerge short
  merge_dict := by
    intro base nxt
    rw [deepMerge, deepMergeItems_eq]
  merge_list := by
    intro base nxt
    rw [deepMerge, deepMergeList_eq]
  merge_override := by
    intro base nxt h
    cases nxt with
    | atom a => rw [deepMerge]
    | list ys =>
        cases base with
        | list xs => exact absurd trivial h
        | atom a => rw [deepMerge]
        | dict d => rw [deepMerge]
    | dict n =>
        cases base with
        | dict d => exact absurd trivial h
        | atom a => rw [deepMerge]
        | list xs => rw [deepMerge]

end MLocust.Lib
