/-
  MLocust.Lib.SizedLists

  Trees whose lists are sized by the key they are held under, and the calls that a
  deep merge makes of its list strategy.

  `ListCall` follows a merge through both trees.  A merge by position returns exactly
  when no call of it gets a second list that is too short (`exists_merge_iff`).

  In a `Sized` tree every list sits under a dictionary key, and a relation `R` ties
  its length to that key.  Merging keeps this, whatever is overridden on the way
  (`sized_merge`), and calls the list strategy on two lists held under the same key
  (`ListCall.sized`): on lists of equal length, where `R` allows one length for each
  key, so that two sized trees always merge (`exists_merge_sized`).
-/
import MLocust.Lib.DeepMerge

namespace MLocust.Lib

-- ============================================================================
-- Trees with sized lists
-- ============================================================================

namespace DataTree

variable {κ α : Type}

/-- Every list of the tree is held under a key, and `R` holds of that key and the list's
    length.  `under` is the key that the tree itself is held under, if any. -/
inductive Sized (R : κ → Nat → Prop) : Option κ → DataTree κ α → Prop
  | atom {under} (a) : Sized R under (.atom a)
  | list {k xs} : R k xs.length → (∀ x ∈ xs, Sized R none x) → Sized R (some k) (.list xs)
  | dict {under} {kvs : List (κ × DataTree κ α)} :
      (∀ kv ∈ kvs, Sized R (some kv.1) kv.2) → Sized R under (.dict kvs)

variable {R S : κ → Nat → Prop} {under : Option κ} {t : DataTree κ α}

theorem sized_of_isAtom (h : t.IsAtom) : Sized R under t := by
  cases t with
  | atom a => exact .atom a
  | list xs => exact h.elim
  | dict kvs => exact h.elim

theorem sized_empty : Sized R under (.dict [] : DataTree κ α) := .dict fun _ h => nomatch h

theorem Sized.mono (hRS : ∀ k n, R k n → S k n) (h : Sized R under t) : Sized S under t := by
  induction h with
  | atom a => exact .atom a
  | list hR _ ih => exact .list (hRS _ _ hR) ih
  | dict _ ih => exact .dict ih

theorem Sized.exists_key {xs : List (DataTree κ α)} (h : Sized R under (.list xs)) :
    ∃ k, under = some k ∧ R k xs.length ∧ ∀ x ∈ xs, Sized R none x := by
  cases h with
  | list hR hels => exact ⟨_, rfl, hR, hels⟩

theorem Sized.items {kvs : List (κ × DataTree κ α)} (h : Sized R under (.dict kvs)) :
    ∀ kv ∈ kvs, Sized R (some kv.1) kv.2 := by
  cases h with
  | dict hitems => exact hitems

/-- Two lists of sized trees held under one key have the same length. -/
theorem Sized.length_eq (hR : ∀ k m n, R k m → R k n → m = n) {xs ys : List (DataTree κ α)}
    (hx : Sized R under (.list xs)) (hy : Sized R under (.list ys)) :
    xs.length = ys.length := by
  obtain ⟨k, rfl, hxs, _⟩ := hx.exists_key
  obtain ⟨j, hj, hys, _⟩ := hy.exists_key
  cases hj
  exact hR k _ _ hxs hys

end DataTree

/-- Setting a key adds one item at most. -/
theorem Dict.mem_set {κ β : Type} [DecidableEq κ] {k : κ} {v : β} {d : List (κ × β)}
    {kv : κ × β} (h : kv ∈ Dict.set k v d) : kv = (k, v) ∨ kv ∈ d := by
  induction d with
  | nil => exact Or.inl (List.mem_singleton.mp h)
  | cons item d ih =>
      obtain ⟨j, u⟩ := item
      rw [Dict.set] at h
      split at h
      · rename_i hj
        subst hj
        exact (List.mem_cons.mp h).imp_right (List.mem_cons_of_mem _)
      · rcases List.mem_cons.mp h with rfl | h
        · exact Or.inr List.mem_cons_self
        · exact (ih h).imp_right (List.mem_cons_of_mem _)

open DataTree

-- ============================================================================
-- The calls of the list strategy
-- ============================================================================

namespace Merger

variable {κ α ε : Type} [DecidableEq κ]
  {strategy : (DataTree κ α → DataTree κ α → Except ε (DataTree κ α)) →
    List (DataTree κ α) → List (DataTree κ α) → Except ε (List (DataTree κ α))}

/-- Merging the second tree into the first calls the list strategy on `us` and `vs`: the two
    trees are these lists, or the call is made on the way, from two elements at the same
    position, or from an item of the second dictionary and what the first one holds under its
    key by the time the item's turn comes. -/
inductive ListCall (M : Merger κ α ε strategy) :
    DataTree κ α → DataTree κ α → List (DataTree κ α) → List (DataTree κ α) → Prop
  | here (xs ys) : ListCall M (.list xs) (.list ys) xs ys
  | element {xs ys us vs : List (DataTree κ α)} {i : Nat} {x y : DataTree κ α} :
      xs[i]? = some x → ys[i]? = some y → ListCall M x y us vs →
      ListCall M (.list xs) (.list ys) us vs
  | item {b b' before after : List (κ × DataTree κ α)} {k : κ} {x y : DataTree κ α}
      {us vs : List (DataTree κ α)} : before.foldlM (mergeItem M.merge) b = .ok b' →
      b'.lookup k = some x → ListCall M x y us vs →
      ListCall M (.dict b) (.dict (before ++ (k, y) :: after)) us vs

variable {M : Merger κ α ε strategy} {R : κ → Nat → Prop} {under : Option κ}
  {b n r : DataTree κ α} {xs ys : List (DataTree κ α)}

section Zip

variable (hzip : IsZip strategy)
include hzip

/-- A merge by position returns if no call of it gets a second list that is too short. -/
theorem exists_merge_of_calls
    (h : ∀ xs ys, M.ListCall b n xs ys → xs.length ≤ ys.length) : ∃ r, M.merge b n = .ok r := by
  refine exists_merge_of_relation hzip
    (Q := fun b n => ∀ xs ys, M.ListCall b n xs ys → xs.length ≤ ys.length) ?_ ?_ h
  · intro xs ys h
    -- the call on the two lists themselves, and those inside their elements
    exact ⟨h xs ys (.here xs ys), fun i x y hx hy us vs hcall => h us vs (.element hx hy hcall)⟩
  · intro d before item after d' x h hbefore hx us vs hcall
    exact h us vs (.item hbefore hx hcall)

/-- A merge that returned made no call with a second list that is too short. -/
theorem ListCall.length_le (hcall : M.ListCall b n xs ys) (h : M.merge b n = .ok r) :
    xs.length ≤ ys.length := by
  induction hcall generalizing r with
  | here xs ys =>
      obtain ⟨zs, hzs, _⟩ := (merge_list_eq_ok hzip).mp h
      exact hzs.length_le
  | element hx hy _ ih =>
      obtain ⟨zs, hzs, _⟩ := (merge_list_eq_ok hzip).mp h
      obtain ⟨z, hz, _⟩ := hzs.getElem?_eq hx hy
      exact ih hz
  | item hfold hx _ ih =>
      obtain ⟨d, hd, _⟩ := M.merge_dict_eq_ok.mp h
      rw [List.foldlM_append] at hd
      obtain ⟨d', hd', hd⟩ := Except.bind_eq_ok.mp hd
      rw [hfold] at hd'
      cases hd'
      rw [List.foldlM_cons] at hd
      obtain ⟨d'', hitem, _⟩ := Except.bind_eq_ok.mp hd
      obtain ⟨z, hz, _⟩ := M.mergeItem_eq_ok.mp hitem
      rw [hx, M.mergeInto_some] at hz
      exact ih hz

/-- **When a merge by position returns**: exactly when none of its calls gets a second list that
    is too short. -/
theorem exists_merge_iff : (∃ r, M.merge b n = .ok r) ↔
    ∀ xs ys, M.ListCall b n xs ys → xs.length ≤ ys.length := by
  constructor
  · rintro ⟨r, hr⟩ xs ys hcall
    exact hcall.length_le hzip hr
  · exact exists_merge_of_calls hzip

end Zip

-- ============================================================================
-- Merging sized trees
-- ============================================================================

/-- Sized items merge into sized items, if each of them keeps what is there sized. -/
theorem sized_foldlM {d e d' : List (κ × DataTree κ α)}
    (hstep : ∀ kv ∈ e, ∀ x z, Sized R (some kv.1) x → M.merge x kv.2 = .ok z →
      Sized R (some kv.1) z)
    (he : ∀ kv ∈ e, Sized R (some kv.1) kv.2) (hd : ∀ kv ∈ d, Sized R (some kv.1) kv.2)
    (h : e.foldlM (mergeItem M.merge) d = .ok d') : ∀ kv ∈ d', Sized R (some kv.1) kv.2 := by
  induction e generalizing d with
  | nil =>
      cases h
      exact hd
  | cons item e ih =>
      obtain ⟨hhead, htail⟩ := List.forall_mem_cons.mp he
      rw [List.foldlM_cons] at h
      obtain ⟨d₁, hd₁, h⟩ := Except.bind_eq_ok.mp h
      obtain ⟨z, hz, rfl⟩ := M.mergeItem_eq_ok.mp hd₁
      -- the value set for this key is its own or a merge of two
      have hsized : Sized R (some item.1) z := by
        cases hx : d.lookup item.1 with
        | none =>
            rw [hx, M.mergeInto_none] at hz
            cases hz
            exact hhead
        | some x =>
            rw [hx, M.mergeInto_some] at hz
            exact hstep item List.mem_cons_self x z (hd _ (Dict.mem_of_lookup hx)) hz
      refine ih (fun kv hkv => hstep kv (List.mem_cons_of_mem _ hkv)) htail ?_ h
      intro kv hkv
      rcases Dict.mem_set hkv with rfl | hkv
      · exact hsized
      · exact hd kv hkv

section Zip

variable (hzip : IsZip strategy)
include hzip

/-- Merging a sized tree into a sized tree gives a sized tree. -/
theorem sized_merge (hb : Sized R under b) (hn : Sized R under n) (h : M.merge b n = .ok r) :
    Sized R under r := by
  induction h using merge_induction hzip generalizing under with
  | override hc => exact hn
  | list hzs ih =>
      obtain ⟨k, rfl, hk, hxs⟩ := hb.exists_key
      obtain ⟨_, _, _, hys⟩ := hn.exists_key
      refine .list (hzs.length_eq ▸ hk) fun z hz => ?_
      obtain ⟨i, hi⟩ := List.mem_iff_getElem?.mp hz
      obtain ⟨x, y, hx, hy, hm⟩ := hzs.of_getElem? hi
      have hmem := List.mem_of_getElem? hy
      exact ih y hmem x z hm (hxs x (List.mem_of_getElem? hx)) (hys y hmem)
  | dict hd ih =>
      refine .dict (sized_foldlM (fun kv hkv x z hx hm => ?_) hn.items hb.items hd)
      exact ih kv hkv x z hm hx (hn.items kv hkv)

/-- The list strategy is called on two lists held under the same key. -/
theorem ListCall.sized (hcall : M.ListCall b n xs ys) (hb : Sized R under b)
    (hn : Sized R under n) : ∃ k, Sized R (some k) (.list xs) ∧ Sized R (some k) (.list ys) := by
  induction hcall generalizing under with
  | here xs ys =>
      obtain ⟨k, rfl, _⟩ := hb.exists_key
      exact ⟨k, hb, hn⟩
  | element hx hy _ ih =>
      obtain ⟨_, _, _, hxs⟩ := hb.exists_key
      obtain ⟨_, _, _, hys⟩ := hn.exists_key
      exact ih (hxs _ (List.mem_of_getElem? hx)) (hys _ (List.mem_of_getElem? hy))
  | item hfold hx _ ih =>
      -- what was merged before this item's turn is sized as well
      obtain ⟨hbefore, hrest⟩ := List.forall_mem_append.mp hn.items
      have hall := sized_foldlM (fun kv hkv x z hx hm => sized_merge hzip hx (hbefore kv hkv) hm)
        hbefore hb.items hfold
      exact ih (hall _ (Dict.mem_of_lookup hx)) (hrest _ List.mem_cons_self)

variable (hR : ∀ k m n, R k m → R k n → m = n)
include hR

theorem ListCall.length_eq (hcall : M.ListCall b n xs ys) (hb : Sized R under b)
    (hn : Sized R under n) : xs.length = ys.length := by
  obtain ⟨k, hxs, hys⟩ := hcall.sized hzip hb hn
  exact hxs.length_eq hR hys

/-- **Sized trees merge.**  Merging a sized tree into a sized tree returns a sized tree. -/
theorem exists_merge_sized (hb : Sized R under b) (hn : Sized R under n) :
    ∃ r, M.merge b n = .ok r ∧ Sized R under r := by
  have hcalls : ∀ xs ys, M.ListCall b n xs ys → xs.length ≤ ys.length :=
    fun xs ys hcall => Nat.le_of_eq (hcall.length_eq hzip hR hb hn)
  obtain ⟨r, hr⟩ := (exists_merge_iff hzip).mpr hcalls
  exact ⟨r, hr, sized_merge hzip hb hn hr⟩

/-- Merging sized trees calls the list strategy on lists of equal length only, and each of
    these calls returns a list of this length. -/
theorem ListCall.even (hcall : M.ListCall b n xs ys) (hb : Sized R under b)
    (hn : Sized R under n) :
    xs.length = ys.length ∧ ∃ zs, strategy M.merge xs ys = .ok zs ∧ zs.length = xs.length := by
  obtain ⟨k, hxs, hys⟩ := hcall.sized hzip hb hn
  obtain ⟨r, hr, _⟩ := exists_merge_sized hzip hR hxs hys
  obtain ⟨zs, hzs, _⟩ := (merge_list_eq_ok hzip).mp hr
  exact ⟨hxs.length_eq hR hys, zs, (hzip M.merge xs ys zs).mpr hzs, hzs.length_eq⟩

end Zip

end Merger

end MLocust.Lib
