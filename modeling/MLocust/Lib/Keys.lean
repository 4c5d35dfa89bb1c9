/-
  MLocust.Lib.Keys

  The keys of a tree, at any depth.

  Merging makes up no key: every key of the result is a key of one of the two trees
  (`keyIn_merge`).
-/
import MLocust.Lib.SizedLists

namespace MLocust.Lib

namespace DataTree

variable {κ α : Type} {k j : κ} {t v : DataTree κ α} {d e d' : List (κ × DataTree κ α)}

/-- Some dictionary of the tree has the key. -/
inductive KeyIn (k : κ) : DataTree κ α → Prop
  | here {v : DataTree κ α} {d : List (κ × DataTree κ α)} : (k, v) ∈ d → KeyIn k (.dict d)
  | item {kv : κ × DataTree κ α} {d : List (κ × DataTree κ α)} : kv ∈ d → KeyIn k kv.2 →
      KeyIn k (.dict d)
  | element {x : DataTree κ α} {xs : List (DataTree κ α)} : x ∈ xs → KeyIn k x → KeyIn k (.list xs)

theorem not_keyIn_of_isAtom (h : t.IsAtom) : ¬ KeyIn k t := by
  intro hk
  cases hk with
  | here hkv => exact h
  | item hkv hv => exact h
  | element hx hel => exact h

theorem keyIn_dict : KeyIn k (.dict d) ↔ ∃ kv ∈ d, kv.1 = k ∨ KeyIn k kv.2 := by
  constructor
  · intro h
    cases h with
    | here hkv => exact ⟨_, hkv, Or.inl rfl⟩
    | item hkv hv => exact ⟨_, hkv, Or.inr hv⟩
  · rintro ⟨⟨j, v⟩, hkv, rfl | hv⟩
    · exact .here hkv
    · exact .item hkv hv

theorem keyIn_list {xs : List (DataTree κ α)} : KeyIn k (.list xs) ↔ ∃ x ∈ xs, KeyIn k x := by
  constructor
  · intro h
    cases h with
    | element hx hel => exact ⟨_, hx, hel⟩
  · rintro ⟨x, hx, hel⟩
    exact .element hx hel

theorem keyIn_singleton : KeyIn k (.dict [(j, v)]) ↔ k = j ∨ KeyIn k v := by
  rw [keyIn_dict]
  simp [eq_comm]

theorem keyIn_cons {kv : κ × DataTree κ α} :
    KeyIn k (.dict (kv :: d)) ↔ kv.1 = k ∨ KeyIn k kv.2 ∨ KeyIn k (.dict d) := by
  rw [keyIn_dict, keyIn_dict]
  simp [or_assoc]

/-- Setting an item adds its key and the keys of its value. -/
theorem keyIn_set [DecidableEq κ] (h : KeyIn k (.dict (Dict.set j v d))) :
    k = j ∨ KeyIn k v ∨ KeyIn k (.dict d) := by
  obtain ⟨kv, hkv, hk⟩ := keyIn_dict.mp h
  rcases Dict.mem_set hkv with rfl | hkv
  · exact hk.imp Eq.symm Or.inl
  · exact Or.inr (Or.inr (keyIn_dict.mpr ⟨kv, hkv, hk⟩))

end DataTree

open DataTree

namespace Merger

variable {κ α ε : Type} [DecidableEq κ]
  {strategy : (DataTree κ α → DataTree κ α → Except ε (DataTree κ α)) →
    List (DataTree κ α) → List (DataTree κ α) → Except ε (List (DataTree κ α))}
  {M : Merger κ α ε strategy} {k : κ} {b n r : DataTree κ α} {d e d' : List (κ × DataTree κ α)}

/-- Merging items makes up no key, if merging none of them does. -/
theorem keyIn_foldlM
    (hstep : ∀ kv ∈ e, ∀ x z, M.merge x kv.2 = .ok z → KeyIn k z → KeyIn k x ∨ KeyIn k kv.2)
    (h : e.foldlM (mergeItem M.merge) d = .ok d') (hk : KeyIn k (.dict d')) :
    KeyIn k (.dict d) ∨ KeyIn k (.dict e) := by
  induction e generalizing d with
  | nil =>
      cases h
      exact Or.inl hk
  | cons item e ih =>
      obtain ⟨hhead, htail⟩ := List.forall_mem_cons.mp hstep
      rw [List.foldlM_cons] at h
      obtain ⟨d₁, hd₁, h⟩ := Except.bind_eq_ok.mp h
      obtain ⟨z, hz, rfl⟩ := M.mergeItem_eq_ok.mp hd₁
      rw [keyIn_cons]
      rcases ih htail h with hset | hrest
      · rcases keyIn_set hset with rfl | hvalue | hd
        · exact Or.inr (Or.inl rfl)
        -- inside the value that was set: its own, or a merge of two
        · cases hx : d.lookup item.1 with
          | none =>
              rw [hx, M.mergeInto_none] at hz
              cases hz
              exact Or.inr (Or.inr (Or.inl hvalue))
          | some x =>
              rw [hx, M.mergeInto_some] at hz
              rcases hhead x z hz hvalue with hold | hnew
              · exact Or.inl (.item (Dict.mem_of_lookup hx) hold)
              · exact Or.inr (Or.inr (Or.inl hnew))
        · exact Or.inl hd
      · exact Or.inr (Or.inr (Or.inr hrest))

/-- **Merging makes up no key.** -/
theorem keyIn_merge (hzip : IsZip strategy) (h : M.merge b n = .ok r) (hk : KeyIn k r) :
    KeyIn k b ∨ KeyIn k n := by
  induction h using merge_induction hzip with
  | override hc => exact Or.inr hk
  | list hzs ih =>
      obtain ⟨z, hz, hkz⟩ := keyIn_list.mp hk
      obtain ⟨i, hi⟩ := List.mem_iff_getElem?.mp hz
      obtain ⟨x, y, hx, hy, hm⟩ := hzs.of_getElem? hi
      have hmem := List.mem_of_getElem? hy
      rcases ih y hmem x z hm hkz with hold | hnew
      · exact Or.inl (.element (List.mem_of_getElem? hx) hold)
      · exact Or.inr (.element hmem hnew)
  | dict hd ih => exact keyIn_foldlM ih hd hk

end Merger

end MLocust.Lib
