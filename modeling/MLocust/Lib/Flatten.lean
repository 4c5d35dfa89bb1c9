/-
  MLocust.Lib.Flatten

  Trees of dictionaries, one leaf at a time.

  `flatten` lists what a tree holds that is not a dictionary with items, each with
  the keys that lead to it.  `chain` is the tree that holds one of them alone.
  Merging these chains one after the other builds the tree again, with the keys of
  every dictionary in their order (`mergeChains_flattenItems`).
-/
import MLocust.Lib.Keys

namespace MLocust.Lib

-- ============================================================================
-- Setting the items of a dictionary
-- ============================================================================

namespace Dict

variable {κ β : Type} [DecidableEq κ] {k : κ} {v w : β} {d : List (κ × β)}

theorem set_set : set k w (set k v d) = set k w d := by
  induction d with
  | nil => simp [set]
  | cons item d ih =>
      obtain ⟨j, u⟩ := item
      by_cases hj : j = k
      · simp [set, hj]
      · rw [set, if_neg hj, set, if_neg hj, ih, set, if_neg hj]

/-- Setting what is there already changes nothing. -/
theorem set_of_lookup (h : d.lookup k = some v) : set k v d = d := by
  induction d with
  | nil => cases h
  | cons item d ih =>
      obtain ⟨j, u⟩ := item
      rw [lookup_cons] at h
      rw [set]
      by_cases hk : k = j
      · rw [if_pos hk] at h
        rw [if_pos hk.symm, Option.some.inj h]
      · rw [if_neg hk] at h
        rw [if_neg (Ne.symm hk), ih h]

/-- A new item comes last. -/
theorem set_of_not_mem (h : k ∉ d.map Prod.fst) : set k v d = d ++ [(k, v)] := by
  induction d with
  | nil => rfl
  | cons item d ih =>
      obtain ⟨j, u⟩ := item
      rw [List.map_cons, List.mem_cons, not_or] at h
      rw [set, if_neg (Ne.symm h.1), ih h.2, List.cons_append]

end Dict

-- ============================================================================
-- Flattening
-- ============================================================================

namespace DataTree

variable {κ α : Type}

/-- The keys that lead to a leaf, and the leaf. -/
abbrev Leaf (κ α : Type) := List κ × DataTree κ α

/-- A leaf, one key further down. -/
def Leaf.below (k : κ) (leaf : Leaf κ α) : Leaf κ α := (k :: leaf.1, leaf.2)

mutual

/-- What a tree holds that is not a dictionary with items. -/
def flatten : DataTree κ α → List (Leaf κ α)
  | .atom a => [([], .atom a)]
  | .list xs => [([], .list xs)]
  | .dict [] => [([], .dict [])]
  | .dict (kv :: d) => flattenItem kv ++ flattenItems d
termination_by structural t => t

/-- The leaves of the items of a dictionary. -/
def flattenItems : List (κ × DataTree κ α) → List (Leaf κ α)
  | [] => []
  | kv :: d => flattenItem kv ++ flattenItems d
termination_by structural d => d

/-- The leaves of an item. -/
def flattenItem : κ × DataTree κ α → List (Leaf κ α)
  | (k, v) => (flatten v).map (Leaf.below k)
termination_by structural kv => kv

end

theorem flattenItem_eq (kv : κ × DataTree κ α) :
    flattenItem kv = (flatten kv.2).map (Leaf.below kv.1) := by
  obtain ⟨k, v⟩ := kv
  rw [flattenItem]

theorem flatten_dict {d : List (κ × DataTree κ α)} (h : d ≠ []) :
    flatten (.dict d) = flattenItems d := by
  cases d with
  | nil => exact absurd rfl h
  | cons kv d => rw [flatten, flattenItems]

theorem flatten_ne_nil (t : DataTree κ α) : flatten t ≠ [] := by
  induction t with
  | atom a => exact List.cons_ne_nil _ _
  | list xs ih => exact List.cons_ne_nil _ _
  | dict d ih =>
      cases d with
      | nil => exact List.cons_ne_nil _ _
      | cons kv d =>
          rw [flatten, flattenItem_eq]
          apply List.append_ne_nil_of_left_ne_nil
          simpa using ih kv List.mem_cons_self

theorem flattenItems_ne_nil {d : List (κ × DataTree κ α)} (h : d ≠ []) : flattenItems d ≠ [] := by
  rw [← flatten_dict h]
  exact flatten_ne_nil _

theorem mem_flattenItems {leaf : Leaf κ α} {d : List (κ × DataTree κ α)} :
    leaf ∈ flattenItems d ↔ ∃ kv ∈ d, leaf ∈ flattenItem kv := by
  induction d with
  | nil => simp [flattenItems]
  | cons kv d ih => rw [flattenItems, List.mem_append, ih, List.exists_mem_cons_iff]

/-- A leaf is found below some key. -/
theorem exists_below {leaf : Leaf κ α} {d : List (κ × DataTree κ α)}
    (h : leaf ∈ flattenItems d) : ∃ kv ∈ d, ∃ leaf' ∈ flatten kv.2, leaf = leaf'.below kv.1 := by
  obtain ⟨kv, hkv, hleaf⟩ := mem_flattenItems.mp h
  rw [flattenItem_eq] at hleaf
  obtain ⟨leaf', hleaf', rfl⟩ := List.mem_map.mp hleaf
  exact ⟨kv, hkv, leaf', hleaf', rfl⟩

theorem path_ne_nil {leaf : Leaf κ α} {d : List (κ × DataTree κ α)}
    (h : leaf ∈ flattenItems d) : leaf.1 ≠ [] := by
  obtain ⟨kv, _, leaf', _, rfl⟩ := exists_below h
  exact List.cons_ne_nil _ _

/-- The keys of a tree are those on the way to its leaves, and those of the leaves. -/
theorem keyIn_iff_flatten {k : κ} {t : DataTree κ α} :
    KeyIn k t ↔ ∃ leaf ∈ flatten t, k ∈ leaf.1 ∨ KeyIn k leaf.2 := by
  induction t with
  | atom a => simp [flatten]
  | list xs ih => simp [flatten]
  | dict d ih =>
      by_cases hd : d = []
      · subst hd
        simp [flatten]
      · rw [keyIn_dict, flatten_dict hd]
        constructor
        · rintro ⟨kv, hkv, hk⟩
          -- a key is on the path of some leaf, or in its value
          obtain ⟨leaf, hleaf, hbelow⟩ : ∃ leaf ∈ flatten kv.2,
              k = kv.1 ∨ k ∈ leaf.1 ∨ KeyIn k leaf.2 := by
            rcases hk with rfl | hk
            · obtain ⟨leaf, hleaf⟩ := List.exists_mem_of_ne_nil _ (flatten_ne_nil kv.2)
              exact ⟨leaf, hleaf, Or.inl rfl⟩
            · obtain ⟨leaf, hleaf, hkeys⟩ := (ih kv hkv).mp hk
              exact ⟨leaf, hleaf, Or.inr hkeys⟩
          refine ⟨leaf.below kv.1, mem_flattenItems.mpr ⟨kv, hkv, ?_⟩, ?_⟩
          · rw [flattenItem_eq]
            exact List.mem_map_of_mem hleaf
          · rw [← or_assoc] at hbelow
            exact hbelow.imp_left List.mem_cons.mpr
        · rintro ⟨leaf, hleaf, hk⟩
          obtain ⟨kv, hkv, leaf', hleaf', rfl⟩ := exists_below hleaf
          refine ⟨kv, hkv, ?_⟩
          rcases hk with hpath | hvalue
          · rcases List.mem_cons.mp hpath with rfl | hpath
            · exact Or.inl rfl
            · exact Or.inr ((ih kv hkv).mpr ⟨leaf', hleaf', Or.inl hpath⟩)
          · exact Or.inr ((ih kv hkv).mpr ⟨leaf', hleaf', Or.inr hvalue⟩)

/-- The leaves of a well-formed tree are well-formed. -/
theorem WF.flatten {t : DataTree κ α} (h : t.WF) : ∀ leaf ∈ flatten t, leaf.2.WF := by
  induction t with
  | atom a => simpa [DataTree.flatten] using h
  | list xs ih => simpa [DataTree.flatten] using h
  | dict d ih =>
      by_cases hd : d = []
      · subst hd
        simpa [DataTree.flatten] using h
      · rw [flatten_dict hd]
        intro leaf hleaf
        obtain ⟨kv, hkv, leaf', hleaf', rfl⟩ := exists_below hleaf
        cases h with
        | dict _ hitems => exact ih kv hkv (hitems kv hkv) leaf' hleaf'

/-- The keys of a dictionary, leaf by leaf. -/
theorem keyIn_flattenItems {k : κ} {d : List (κ × DataTree κ α)} :
    KeyIn k (.dict d) ↔ ∃ leaf ∈ flattenItems d, k ∈ leaf.1 ∨ KeyIn k leaf.2 := by
  by_cases hd : d = []
  · subst hd
    simp [flattenItems, keyIn_dict]
  · rw [← flatten_dict hd]
    exact keyIn_iff_flatten

theorem wf_flattenItems {d : List (κ × DataTree κ α)} (h : (DataTree.dict d).WF) :
    ∀ leaf ∈ flattenItems d, leaf.2.WF := by
  by_cases hd : d = []
  · subst hd
    simp [flattenItems]
  · rw [← flatten_dict hd]
    exact h.flatten

/-- The tree that holds one leaf. -/
def chain : List κ → DataTree κ α → DataTree κ α
  | [], t => t
  | k :: ks, t => .dict [(k, chain ks t)]

end DataTree

open DataTree

-- ============================================================================
-- Merging chains
-- ============================================================================

namespace Merger

variable {κ α ε : Type} [DecidableEq κ]
  {strategy : (DataTree κ α → DataTree κ α → Except ε (DataTree κ α)) →
    List (DataTree κ α) → List (DataTree κ α) → Except ε (List (DataTree κ α))}
  (M : Merger κ α ε strategy) {k : κ} {x y : DataTree κ α} {b d : List (κ × DataTree κ α)}
  {leaves : List (Leaf κ α)}

/-- Merge the chains of some leaves into a tree, one after the other. -/
def mergeChains (t : DataTree κ α) (leaves : List (Leaf κ α)) : Except ε (DataTree κ α) :=
  leaves.foldlM (fun t leaf => M.merge t (chain leaf.1 leaf.2)) t

theorem mergeChains_append (t : DataTree κ α) (leaves leaves' : List (Leaf κ α)) :
    M.mergeChains t (leaves ++ leaves') =
      M.mergeChains t leaves >>= fun t => M.mergeChains t leaves' := by
  rw [mergeChains, List.foldlM_append]
  rfl

theorem merge_new (h : b.lookup k = none) :
    M.merge (.dict b) (.dict [(k, y)]) = .ok (.dict (Dict.set k y b)) :=
  M.merge_singleton_eq_ok.mpr ⟨y, by rw [h, mergeInto_none], rfl⟩

theorem merge_old (h : b.lookup k = some x) :
    M.merge (.dict b) (.dict [(k, y)]) = (fun z => .dict (Dict.set k z b)) <$> M.merge x y := by
  rw [M.merge_dict, List.foldlM_cons, mergeItem, h]
  show dict <$> ((M.merge x y >>= fun z => .ok (Dict.set k z b)) >>= _) = _
  cases M.merge x y with
  | error e => rfl
  | ok z => rfl

/-- Merging below a key that is there merges into what it holds. -/
theorem mergeChains_below (h : b.lookup k = some x) :
    M.mergeChains (.dict b) (leaves.map (Leaf.below k)) =
      (fun z => .dict (Dict.set k z b)) <$> M.mergeChains x leaves := by
  induction leaves generalizing b x with
  | nil =>
      show Except.ok (dict b) = Except.ok (dict (Dict.set k x b))
      rw [Dict.set_of_lookup h]
  | cons leaf leaves ih =>
      rw [List.map_cons, mergeChains, List.foldlM_cons, mergeChains, List.foldlM_cons]
      show M.merge (.dict b) (.dict [(k, chain leaf.1 leaf.2)]) >>= _ = _
      rw [M.merge_old h]
      cases M.merge x (chain leaf.1 leaf.2) with
      | error e => rfl
      | ok z =>
          show M.mergeChains (.dict (Dict.set k z b)) (leaves.map (Leaf.below k)) =
            (fun z => .dict (Dict.set k z b)) <$> M.mergeChains z leaves
          rw [ih (Dict.lookup_set_self k z b)]
          simp only [Dict.set_set]

/-- Merging below a new key builds what it holds from nothing. -/
theorem mergeChains_new (hk : k ∉ b.map Prod.fst) (hne : leaves ≠ [])
    (hpaths : ∀ leaf ∈ leaves, leaf.1 ≠ []) :
    M.mergeChains (.dict b) (leaves.map (Leaf.below k)) =
      (fun z => .dict (b ++ [(k, z)])) <$> M.mergeChains (.dict []) leaves := by
  obtain ⟨⟨path, v⟩, rest, rfl⟩ := List.exists_cons_of_ne_nil hne
  obtain ⟨j, below, rfl⟩ := List.exists_cons_of_ne_nil (hpaths _ List.mem_cons_self)
  have hfirst : M.merge (.dict []) (chain (j :: below) v) = .ok (chain (j :: below) v) :=
    M.merge_new rfl
  have hset : ∀ u z : DataTree κ α, Dict.set k z (Dict.set k u b) = b ++ [(k, z)] := by
    intro u z
    rw [Dict.set_set, Dict.set_of_not_mem hk]
  rw [List.map_cons, mergeChains, List.foldlM_cons, mergeChains, List.foldlM_cons, hfirst]
  show M.merge (.dict b) (.dict [(k, chain (j :: below) v)]) >>= _ = _
  rw [M.merge_new (Dict.lookup_eq_none hk)]
  show M.mergeChains (.dict (Dict.set k _ b)) (rest.map (Leaf.below k)) = _
  rw [M.mergeChains_below (Dict.lookup_set_self k _ b)]
  simp only [hset]
  rfl

/-- The leaves of some items, merged into a dictionary without their keys. -/
theorem mergeChains_items
    (hitems : ∀ kv ∈ d, ∀ b : List (κ × DataTree κ α), kv.1 ∉ b.map Prod.fst →
      M.mergeChains (.dict b) (flattenItem kv) = .ok (.dict (b ++ [kv])))
    (hnd : ((b ++ d).map Prod.fst).Nodup) :
    M.mergeChains (.dict b) (flattenItems d) = .ok (.dict (b ++ d)) := by
  induction d generalizing b with
  | nil =>
      rw [List.append_nil, flattenItems]
      rfl
  | cons kv d ih =>
      obtain ⟨hhead, htail⟩ := List.forall_mem_cons.mp hitems
      have hnew : kv.1 ∉ b.map Prod.fst := by
        rw [List.map_append, List.nodup_append] at hnd
        exact fun hmem => hnd.2.2 _ hmem _ (by simp) rfl
      rw [List.append_cons] at hnd ⊢
      rw [flattenItems, mergeChains_append, hhead b hnew]
      exact ih htail hnd

/-- A leaf is set as it is. -/
theorem mergeChains_leaf {t : DataTree κ α} (ht : flatten t = [([], t)])
    (hk : k ∉ b.map Prod.fst) :
    M.mergeChains (.dict b) (flattenItem (k, t)) = .ok (.dict (b ++ [(k, t)])) := by
  rw [flattenItem, ht, ← Dict.set_of_not_mem hk]
  show M.merge (.dict b) (.dict [(k, t)]) >>= _ = _
  rw [M.merge_new (Dict.lookup_eq_none hk)]
  rfl

/-- One item is built from its leaves. -/
theorem mergeChains_item (t : DataTree κ α) (ht : t.WF) (k : κ) (hk : k ∉ b.map Prod.fst) :
    M.mergeChains (.dict b) (flattenItem (k, t)) = .ok (.dict (b ++ [(k, t)])) := by
  induction t generalizing b k with
  | atom a => exact M.mergeChains_leaf (by rw [flatten]) hk
  | list xs ih => exact M.mergeChains_leaf (by rw [flatten]) hk
  | dict d ih =>
      by_cases hd : d = []
      · subst hd
        exact M.mergeChains_leaf (by rw [flatten]) hk
      · cases ht with
        | dict hnd hwf =>
            have hitems := M.mergeChains_items (b := [])
              (fun kv hkv b hb => ih kv hkv (hwf kv hkv) kv.1 hb) hnd
            rw [flattenItem, flatten_dict hd, M.mergeChains_new hk (flattenItems_ne_nil hd)
              fun leaf hleaf => path_ne_nil hleaf, hitems]
            rfl

/-- **A tree is built from its leaves**, merged one after the other. -/
theorem mergeChains_flattenItems (h : (DataTree.dict d).WF) :
    M.mergeChains (.dict []) (flattenItems d) = .ok (.dict d) := by
  cases h with
  | dict hnd hwf =>
      exact M.mergeChains_items (b := [])
        (fun kv hkv b hb => M.mergeChains_item kv.2 (hwf kv hkv) kv.1 hb) hnd

end Merger

end MLocust.Lib
