/-
  MLocust.Lib.Relabel

  Trees that differ in their atoms only, in a way that some function on atoms does
  not see.  Deep merging looks at lists and dictionaries but never into an atom, so
  it takes such trees to such trees (`Merger.merge_mapEq`).
-/
import MLocust.Lib.DeepMerge

namespace MLocust.Lib

namespace DataTree

variable {κ α β : Type} {f : α → β} {s t u : DataTree κ α}

/-- The trees are the same once `f` is applied to their atoms. -/
def MapEq (f : α → β) (s t : DataTree κ α) : Prop := s.map f = t.map f

theorem MapEq.refl (t : DataTree κ α) : MapEq f t t := rfl

theorem MapEq.symm (h : MapEq f s t) : MapEq f t s := Eq.symm h

/-- The dictionaries have the same keys, in the same order, with values that are the same once
    `f` is applied to their atoms. -/
def ItemsEq (f : α → β) (d e : List (κ × DataTree κ α)) : Prop :=
  List.Forall₂ (fun kv kv' => kv.1 = kv'.1 ∧ MapEq f kv.2 kv'.2) d e

theorem map_eq_map_iff {γ δ : Type} {g : γ → δ} {xs ys : List γ} :
    xs.map g = ys.map g ↔ List.Forall₂ (fun x y => g x = g y) xs ys := by
  rw [← List.forall₂_eq_eq_eq, List.forall₂_map_left_iff, List.forall₂_map_right_iff]

theorem mapEq_list_iff {xs ys : List (DataTree κ α)} :
    MapEq f (.list xs) (.list ys) ↔ List.Forall₂ (MapEq f) xs ys := by
  rw [MapEq, map_list, map_list, list.injEq, map_eq_map_iff]
  exact Iff.rfl

theorem mapEq_dict_iff {d e : List (κ × DataTree κ α)} :
    MapEq f (.dict d) (.dict e) ↔ ItemsEq f d e := by
  rw [MapEq, map_dict, map_dict, dict.injEq, map_eq_map_iff]
  simp only [Prod.mk.injEq]
  exact Iff.rfl

theorem MapEq.sameContainer {v : DataTree κ α} (hst : MapEq f s t) (huv : MapEq f u v)
    (h : SameContainer s u) : SameContainer t v := by
  rw [← sameContainer_map f] at h ⊢
  rwa [← show s.map f = t.map f from hst, ← show u.map f = v.map f from huv]

theorem MapEq.exists_list {xs : List (DataTree κ α)} (h : MapEq f (.list xs) t) :
    ∃ ys, t = .list ys :=
  (h.sameContainer (MapEq.refl (.list xs)) (show SameContainer (.list xs) (.list xs) from
    trivial)).exists_list

theorem MapEq.exists_dict {d : List (κ × DataTree κ α)} (h : MapEq f (.dict d) t) :
    ∃ e, t = .dict e :=
  (h.sameContainer (MapEq.refl (.dict d)) (show SameContainer (.dict d) (.dict d) from
    trivial)).exists_dict

variable [DecidableEq κ]

theorem ItemsEq.lookup {d e : List (κ × DataTree κ α)} (h : ItemsEq f d e) (k : κ) :
    Option.Rel (MapEq f) (d.lookup k) (e.lookup k) := by
  induction h with
  | nil => exact .none
  | @cons kv kv' d e hkv _ ih =>
      obtain ⟨j, x⟩ := kv
      obtain ⟨j', x'⟩ := kv'
      obtain ⟨rfl, hx⟩ := hkv
      rw [Dict.lookup_cons, Dict.lookup_cons]
      split
      · exact .some hx
      · exact ih

theorem ItemsEq.set {d e : List (κ × DataTree κ α)} (h : ItemsEq f d e) (hst : MapEq f s t)
    (k : κ) :
    ItemsEq f (Dict.set k s d) (Dict.set k t e) := by
  induction h with
  | nil => exact .cons ⟨rfl, hst⟩ .nil
  | @cons kv kv' d e hkv hde ih =>
      obtain ⟨j, x⟩ := kv
      obtain ⟨j', x'⟩ := kv'
      obtain ⟨rfl, hx⟩ := hkv
      rw [Dict.set, Dict.set]
      split
      · exact .cons ⟨rfl, hst⟩ hde
      · exact .cons ⟨rfl, hx⟩ ih

end DataTree

open DataTree

namespace Merger

variable {κ α β ε : Type} [DecidableEq κ]
  {strategy : (DataTree κ α → DataTree κ α → Except ε (DataTree κ α)) →
    List (DataTree κ α) → List (DataTree κ α) → Except ε (List (DataTree κ α))}
  {M : Merger κ α ε strategy} {f : α → β}

/-- Merging trees that `f` does not tell apart gives trees that `f` does not tell apart. -/
theorem merge_mapEq (hzip : IsZip strategy) {b b' n n' r : DataTree κ α} (hb : MapEq f b b')
    (hn : MapEq f n n') (h : M.merge b n = .ok r) :
    ∃ r', M.merge b' n' = .ok r' ∧ MapEq f r r' := by
  induction h using merge_induction hzip generalizing b' n' with
  | override hc =>
      have hc' : ¬ SameContainer b' n' := fun hx => hc (hb.symm.sameContainer hn.symm hx)
      exact ⟨n', M.merge_override hc', hn⟩
  | list hzs ih =>
      obtain ⟨xs', rfl⟩ := hb.exists_list
      obtain ⟨ys', rfl⟩ := hn.exists_list
      obtain ⟨zs', hzs', hzz⟩ := hzs.congr
        (fun y hy y' s s' r hyy hss hm => ih y hy s r hm hss hyy)
        (mapEq_list_iff.mp hb) (mapEq_list_iff.mp hn)
      exact ⟨.list zs', (merge_list_eq_ok hzip).mpr ⟨zs', hzs', rfl⟩, mapEq_list_iff.mpr hzz⟩
  | dict hd ih =>
      obtain ⟨d', rfl⟩ := hb.exists_dict
      obtain ⟨e', rfl⟩ := hn.exists_dict
      obtain ⟨c', hc', hcc⟩ := M.foldlM_mergeItem_congr (S := MapEq f) (P := ItemsEq f)
        (fun h k => h.lookup k) (fun h hz k => h.set hz k) (fun h => h)
        (fun kv hkv y' s s' r hyy hss hm => ih kv hkv s r hm hss hyy) (mapEq_dict_iff.mp hn)
        (mapEq_dict_iff.mp hb) hd
      exact ⟨.dict c', M.merge_dict_eq_ok.mpr ⟨c', hc', rfl⟩, mapEq_dict_iff.mpr hcc⟩

end Merger

end MLocust.Lib
