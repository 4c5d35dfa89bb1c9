/-
  MLocust.Lib.ListsAlong

  A property of the lists that a tree has along a sequence of dictionary keys, in
  every element of the lists above them.  It speaks about the lengths of the lists
  only, and is kept by a deep merge whose lists are merged by position: a merged
  list is as long as the list it is merged into.

  `instancesAt` collects what a tree holds under a sequence of keys.
-/
import MLocust.Lib.Overlay

namespace MLocust.Lib

namespace DataTree

variable {κ α : Type} [DecidableEq κ] {R : κ → Nat → Prop} {ks : List κ}

/-- Every list that the tree has under the keys `ks` satisfies `R` with its key and length. -/
def ListsAlong (R : κ → Nat → Prop) : List κ → DataTree κ α → Prop
  | [], _ => True
  | k :: ks, t => ∀ v, t.get? [.key k] = some v → ListsAlong R ks v ∧
      ∀ xs, v = .list xs → R k xs.length ∧ ∀ x ∈ xs, ListsAlong R ks x

theorem listsAlong_of_no_key {t : DataTree κ α} (h : ∀ k, t.get? [.key k] = none) :
    ListsAlong R ks t := by
  cases ks with
  | nil => trivial
  | cons k ks =>
      intro v hv
      rw [h k] at hv
      cases hv

theorem listsAlong_atom {t : DataTree κ α} (h : t.IsAtom) : ListsAlong R ks t := by
  cases t with
  | atom a => exact listsAlong_of_no_key fun k => by simp
  | list xs => exact h.elim
  | dict d => exact h.elim

theorem listsAlong_list (xs : List (DataTree κ α)) : ListsAlong R ks (.list xs) :=
  listsAlong_of_no_key fun k => by simp

theorem listsAlong_empty : ListsAlong R ks (.dict [] : DataTree κ α) :=
  listsAlong_of_no_key fun k => by simp

theorem ListsAlong.mono {S : κ → Nat → Prop} {t : DataTree κ α} (hRS : ∀ k n, R k n → S k n)
    (h : ListsAlong R ks t) : ListsAlong S ks t := by
  induction ks generalizing t with
  | nil => trivial
  | cons k ks ih =>
      intro v hv
      obtain ⟨hv, hlist⟩ := h v hv
      refine ⟨ih hv, fun xs hxs => ?_⟩
      obtain ⟨hR, hels⟩ := hlist xs hxs
      exact ⟨hRS k _ hR, fun x hx => ih (hels x hx)⟩

/-- The elements of a list, or the value itself. -/
def elements : DataTree κ α → List (DataTree κ α)
  | .list xs => xs
  | .atom a => [.atom a]
  | .dict kvs => [.dict kvs]

/-- A tree that a path enters by an index is a list. -/
theorem exists_list_of_get?_idx {t u : DataTree κ α} {i : Nat} {p : List (Step κ)}
    (h : t.get? (.idx i :: p) = some u) : ∃ xs, t = .list xs := by
  cases t with
  | list xs => exact ⟨xs, rfl⟩
  | atom a => simp at h
  | dict d => simp at h

/-- A tree that a path enters by a key is its only element. -/
theorem elements_of_get?_key {t u : DataTree κ α} {k : κ} {p : List (Step κ)}
    (h : t.get? (.key k :: p) = some u) : t.elements = [t] := by
  cases t with
  | list xs => simp at h
  | atom a => rfl
  | dict d => rfl

/-- Everything that the tree holds under the keys `ks`, in every element of the lists on the
    way, in order. -/
def instancesAt : List κ → DataTree κ α → List (DataTree κ α)
  | [], t => [t]
  | [k], t => (t.get? [.key k]).toList
  | k :: ks, t => (t.get? [.key k]).toList.flatMap fun v => v.elements.flatMap (instancesAt ks)

theorem instancesAt_cons {k : κ} (hks : ks ≠ []) (t : DataTree κ α) :
    instancesAt (k :: ks) t =
      (t.get? [.key k]).toList.flatMap fun v => v.elements.flatMap (instancesAt ks) := by
  cases ks with
  | nil => exact absurd rfl hks
  | cons j ks => rfl

/-- The lists found under the keys satisfy what the lists along them do. -/
theorem listsAlong_instancesAt {k : κ} {t v : DataTree κ α} (h : ListsAlong R (ks ++ [k]) t)
    (hv : v ∈ instancesAt (ks ++ [k]) t) {xs : List (DataTree κ α)} (hxs : v = .list xs) :
    R k xs.length := by
  induction ks generalizing t with
  | nil => exact ((h v (Option.mem_toList.mp hv)).2 xs hxs).1
  | cons j ks ih =>
      rw [List.cons_append] at h hv
      rw [instancesAt_cons (by simp)] at hv
      obtain ⟨w, hw, hvw⟩ := List.mem_flatMap.mp hv
      obtain ⟨x, hx, hvx⟩ := List.mem_flatMap.mp hvw
      obtain ⟨halong, hels⟩ := h w (Option.mem_toList.mp hw)
      cases w with
      | list ys => exact ih ((hels ys rfl).2 x hx) hvx
      | atom a =>
          rw [List.mem_singleton.mp hx] at hvx
          exact ih halong hvx
      | dict kvs =>
          rw [List.mem_singleton.mp hx] at hvx
          exact ih halong hvx

end DataTree

open DataTree

namespace Merger

variable {κ α ε : Type} [DecidableEq κ]
  {strategy : (DataTree κ α → DataTree κ α → Except ε (DataTree κ α)) →
    List (DataTree κ α) → List (DataTree κ α) → Except ε (List (DataTree κ α))}
  {M : Merger κ α ε strategy} {b n r : DataTree κ α} {R : κ → Nat → Prop} {ks : List κ}

/-- What a merge that returned a list went through. -/
theorem merge_eq_ok_list (hzip : IsZip strategy) {zs : List (DataTree κ α)}
    (h : M.merge b n = .ok (.list zs)) :
    n = .list zs ∨ ∃ xs ys, b = .list xs ∧ n = .list ys ∧ Zips M.merge xs ys zs := by
  by_cases hc : SameContainer b n
  · cases n with
    | atom a => exact absurd hc (not_sameContainer_of_isAtom_right trivial)
    | dict e =>
        obtain ⟨d, rfl⟩ := hc.exists_dict
        obtain ⟨_, _, heq⟩ := M.merge_dict_eq_ok.mp h
        cases heq
    | list ys =>
        obtain ⟨xs, rfl⟩ := hc.exists_list
        obtain ⟨zs', hzs, heq⟩ := (merge_list_eq_ok hzip).mp h
        cases heq
        exact Or.inr ⟨xs, ys, rfl, rfl, hzs⟩
  · rw [M.merge_override hc] at h
    cases h
    exact Or.inl rfl

/-- Merging keeps what the lists along some keys satisfy. -/
theorem listsAlong_merge (hzip : IsZip strategy) (hn : n.WF) (hb : ListsAlong R ks b)
    (hl : ListsAlong R ks n) (hm : M.merge b n = .ok r) : ListsAlong R ks r := by
  induction ks generalizing b n r with
  | nil => trivial
  | cons k ks ih =>
      by_cases hc : SameContainer b n
      · cases n with
        | atom a => exact absurd hc (not_sameContainer_of_isAtom_right trivial)
        -- no name leads on from a list, so nothing is asked of it
        | list ys =>
            obtain ⟨xs, rfl⟩ := hc.exists_list
            obtain ⟨zs, _, rfl⟩ := (merge_list_eq_ok hzip).mp hm
            exact listsAlong_list zs
        | dict e =>
            obtain ⟨d, rfl⟩ := hc.exists_dict
            obtain ⟨hsome, hnone⟩ := merge_dict_child hn hm k
            intro v hv
            cases hy : (DataTree.dict e).get? [.key k] with
            -- a key that is not merged into
            | none =>
                rw [hnone hy] at hv
                exact hb v hv
            | some y =>
                obtain ⟨z, hz, hzk⟩ := hsome y hy
                rw [hv, Option.some.injEq] at hzk
                subst hzk
                cases hx : (DataTree.dict d).get? [.key k] with
                -- a new key
                | none =>
                    rw [hx, M.mergeInto_none] at hz
                    cases hz
                    exact hl _ hy
                -- a key of both
                | some x =>
                    rw [hx, M.mergeInto_some] at hz
                    have hyw : y.WF := wf_get? hn hy
                    refine ⟨ih hyw (hb x hx).1 (hl y hy).1 hz, ?_⟩
                    rintro zs rfl
                    rcases merge_eq_ok_list hzip hz with rfl | ⟨xs, ys, rfl, rfl, hzs⟩
                    · exact (hl _ hy).2 zs rfl
                    · -- the merged list is as long as the one that was there
                      obtain ⟨hR, hels⟩ := (hb _ hx).2 xs rfl
                      refine ⟨hzs.length_eq ▸ hR, fun z hz => ?_⟩
                      obtain ⟨i, hi⟩ := List.mem_iff_getElem?.mp hz
                      obtain ⟨x, y, hxi, hyi, hm⟩ := hzs.of_getElem? hi
                      have hy' : (DataTree.list ys).get? [.idx i] = some y := by
                        rw [get?_idx_singleton, hyi]
                      exact ih (wf_get? hyw hy') (hels x (List.mem_of_getElem? hxi))
                        (((hl _ hy).2 ys rfl).2 y (List.mem_of_getElem? hyi)) hm
      -- the second tree replaces the first
      · rw [M.merge_override hc] at hm
        cases hm
        exact hl

end Merger

end MLocust.Lib
