/-
  MLocust.Lib.KeyOrder

  The order of the keys in a dictionary that items are set in, one after the other.

  A key that is new comes last, and a key that is there stays where it is
  (`keys_set`).  So the keys of a dictionary are in the order they were first set
  in (`foldl_addKey`).
-/
import MLocust.Lib.Overlay
import Mathlib.Data.List.Induction

namespace MLocust.Lib

namespace DataTree

variable {κ α : Type} [DecidableEq κ]

/-- A key after the others, if it is new. -/
def addKey (ks : List κ) (k : κ) : List κ := if k ∈ ks then ks else ks ++ [k]

/-- The keys of a dictionary that may be there, in order. -/
def keysOf (o : Option (DataTree κ α)) : List κ := (itemsOf o).map Prod.fst

theorem keys_set (k : κ) (v : DataTree κ α) (d : List (κ × DataTree κ α)) :
    (Dict.set k v d).map Prod.fst = addKey (d.map Prod.fst) k := by
  induction d with
  | nil => rfl
  | cons item d ih =>
      obtain ⟨j, u⟩ := item
      rw [Dict.set]
      by_cases hj : j = k
      · subst hj
        rw [if_pos rfl, List.map_cons, List.map_cons, addKey, if_pos List.mem_cons_self]
      · have hmem : k ∈ (j :: d.map Prod.fst) ↔ k ∈ d.map Prod.fst := by
          simp [Ne.symm hj]
        rw [if_neg hj, List.map_cons, ih, List.map_cons, addKey, addKey]
        by_cases hk : k ∈ d.map Prod.fst
        · rw [if_pos hk, if_pos (hmem.mpr hk)]
        · rw [if_neg hk, if_neg fun h => hk (hmem.mp h)]
          rfl

theorem eraseDups_concat [BEq κ] [LawfulBEq κ] (ks : List κ) (k : κ) :
    (ks ++ [k]).eraseDups = addKey ks.eraseDups k := by
  rw [List.eraseDups_append, addKey]
  by_cases hk : k ∈ ks
  · rw [if_pos (List.mem_eraseDups.mpr hk)]
    simp [List.removeAll, hk]
  · have hnew : [k].removeAll ks = [k] := by simp [List.removeAll, hk]
    rw [if_neg fun h => hk (List.mem_eraseDups.mp h), hnew]
    rfl

/-- Keys that are added one after the other stand in the order of their first occurrences. -/
theorem foldl_addKey [BEq κ] [LawfulBEq κ] (ks : List κ) : ks.foldl addKey [] = ks.eraseDups := by
  induction ks using List.reverseRecOn with
  | nil => rfl
  | append_singleton ks k ih =>
      rw [List.foldl_append, ih, eraseDups_concat]
      rfl

end DataTree

end MLocust.Lib
