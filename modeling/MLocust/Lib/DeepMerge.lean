/-
  MLocust.Lib.DeepMerge

  Deep merging of trees: dictionaries are merged key by key, two lists go to a
  list strategy, and in every other pair the second tree replaces the first.

  `Merger` states these three laws for a merge function; nothing else about the
  function is used.  `IsZip` is the case of a list strategy that merges position
  by position over the first list and raises when the second one is too short.
  Under it the file gives the inversion rules of `merge`, induction over a merge
  that returned (`merge_induction`), a rule for when it does
  (`exists_merge_of_relation`), and its congruence in the first tree.
-/
import MLocust.Lib.DataTree
import Mathlib.Data.List.Induction

namespace MLocust.Lib

open DataTree

variable {κ α ε : Type} [DecidableEq κ]

/-- Merge one item of the second dictionary into the first. -/
def mergeItem (merge : DataTree κ α → DataTree κ α → Except ε (DataTree κ α))
    (base : List (κ × DataTree κ α)) (item : κ × DataTree κ α) :
    Except ε (List (κ × DataTree κ α)) :=
  match base.lookup item.1 with
  | none => .ok (Dict.set item.1 item.2 base)
  | some x => do
      let y ← merge x item.2
      .ok (Dict.set item.1 y base)

/-- A deep merge with a given strategy for two lists. -/
structure Merger (κ α ε : Type) [DecidableEq κ]
    (listStrategy : (DataTree κ α → DataTree κ α → Except ε (DataTree κ α)) →
      List (DataTree κ α) → List (DataTree κ α) → Except ε (List (DataTree κ α))) where
  /-- Merge the second tree into the first. -/
  merge : DataTree κ α → DataTree κ α → Except ε (DataTree κ α)
  merge_dict : ∀ base nxt,
    merge (.dict base) (.dict nxt) = .dict <$> nxt.foldlM (mergeItem merge) base
  merge_list : ∀ base nxt,
    merge (.list base) (.list nxt) = .list <$> listStrategy merge base nxt
  merge_override : ∀ {base nxt}, ¬ SameContainer base nxt → merge base nxt = .ok nxt

-- ============================================================================
-- Zip strategies
-- ============================================================================

/-- `zs` is the position-by-position merge of `xs` with the front of `ys`. -/
inductive Zips (merge : DataTree κ α → DataTree κ α → Except ε (DataTree κ α)) :
    List (DataTree κ α) → List (DataTree κ α) → List (DataTree κ α) → Prop
  | nil (ys) : Zips merge [] ys []
  | cons {x y z xs ys zs} : merge x y = .ok z → Zips merge xs ys zs →
      Zips merge (x :: xs) (y :: ys) (z :: zs)

namespace Zips

variable {merge : DataTree κ α → DataTree κ α → Except ε (DataTree κ α)}
  {xs ys zs : List (DataTree κ α)}

omit [DecidableEq κ] in
theorem length_eq (h : Zips merge xs ys zs) : zs.length = xs.length := by
  induction h with
  | nil ys => rfl
  | cons hxy _ ih => rw [List.length_cons, List.length_cons, ih]

omit [DecidableEq κ] in
theorem length_le (h : Zips merge xs ys zs) : xs.length ≤ ys.length := by
  induction h with
  | nil ys => exact Nat.zero_le _
  | cons hxy _ ih => exact Nat.succ_le_succ ih

omit [DecidableEq κ] in
theorem getElem?_eq (h : Zips merge xs ys zs) {i : Nat} {x y : DataTree κ α}
    (hx : xs[i]? = some x) (hy : ys[i]? = some y) :
    ∃ z, merge x y = .ok z ∧ zs[i]? = some z := by
  induction h generalizing i with
  | nil ys => simp at hx
  | cons hxy _ ih =>
      cases i with
      | zero =>
          cases hx
          cases hy
          exact ⟨_, hxy, rfl⟩
      | succ i => exact ih hx hy

omit [DecidableEq κ] in
/-- Every element of the result comes from the two elements at its position. -/
theorem of_getElem? (h : Zips merge xs ys zs) {i : Nat} {z : DataTree κ α}
    (hz : zs[i]? = some z) :
    ∃ x y, xs[i]? = some x ∧ ys[i]? = some y ∧ merge x y = .ok z := by
  induction h generalizing i with
  | nil ys => simp at hz
  | cons hxy _ ih =>
      cases i with
      | zero =>
          cases hz
          exact ⟨_, _, rfl, rfl, hxy⟩
      | succ i => exact ih hz

omit [DecidableEq κ] in
/-- The merge exists as soon as it does at every position of the first list. -/
theorem exists_of (hlen : xs.length ≤ ys.length)
    (h : ∀ (i : Nat) x y, xs[i]? = some x → ys[i]? = some y → ∃ z, merge x y = .ok z) :
    ∃ zs, Zips merge xs ys zs := by
  induction xs generalizing ys with
  | nil => exact ⟨[], .nil ys⟩
  | cons x xs ih =>
      cases ys with
      | nil => simp at hlen
      | cons y ys =>
          obtain ⟨z, hz⟩ := h 0 x y rfl rfl
          obtain ⟨zs, hzs⟩ := ih (Nat.le_of_succ_le_succ hlen)
            fun i x' y' hx hy => h (i + 1) x' y' hx hy
          exact ⟨z :: zs, .cons hz hzs⟩

omit [DecidableEq κ] in
/-- Related lists zip to related lists, if related trees merge to related trees. -/
theorem congr {R S : DataTree κ α → DataTree κ α → Prop} {xs' ys' : List (DataTree κ α)}
    (h : Zips merge xs ys zs)
    (hstep : ∀ y ∈ ys, ∀ y' s s' r, S y y' → R s s' → merge s y = .ok r →
      ∃ r', merge s' y' = .ok r' ∧ R r r')
    (hxs : List.Forall₂ R xs xs') (hys : List.Forall₂ S ys ys') :
    ∃ zs', Zips merge xs' ys' zs' ∧ List.Forall₂ R zs zs' := by
  induction h generalizing xs' ys' with
  | nil ys =>
      cases hxs
      exact ⟨[], .nil ys', .nil⟩
  | cons hxy _ ih =>
      cases hxs with
      | cons hx hxs =>
          cases hys with
          | cons hy hys =>
              obtain ⟨z', hz', hzz⟩ := hstep _ List.mem_cons_self _ _ _ _ hy hx hxy
              obtain ⟨zs', hzs', hrel⟩ :=
                ih (fun y hy => hstep y (List.mem_cons_of_mem _ hy)) hxs hys
              exact ⟨z' :: zs', .cons hz' hzs', .cons hzz hrel⟩

end Zips

/-- The list strategy returns exactly the position-by-position merges. -/
def IsZip (listStrategy : (DataTree κ α → DataTree κ α → Except ε (DataTree κ α)) →
    List (DataTree κ α) → List (DataTree κ α) → Except ε (List (DataTree κ α))) : Prop :=
  ∀ merge xs ys zs, listStrategy merge xs ys = .ok zs ↔ Zips merge xs ys zs

theorem Except.map_eq_ok {β γ : Type} {f : β → γ} {x : Except ε β} {c : γ} :
    f <$> x = .ok c ↔ ∃ b, x = .ok b ∧ f b = c := by
  cases x with
  | ok b => simp [Functor.map, Except.map]
  | error e => simp [Functor.map, Except.map]

theorem Except.bind_eq_ok {β γ : Type} {x : Except ε β} {f : β → Except ε γ} {c : γ} :
    x >>= f = .ok c ↔ ∃ b, x = .ok b ∧ f b = .ok c := by
  cases x with
  | ok b => simp [bind, Except.bind]
  | error e => simp [bind, Except.bind]

namespace Merger

variable {strategy : (DataTree κ α → DataTree κ α → Except ε (DataTree κ α)) →
    List (DataTree κ α) → List (DataTree κ α) → Except ε (List (DataTree κ α))}
  (M : Merger κ α ε strategy)

/-- Merge a tree into what a dictionary holds under some key, if anything. -/
def mergeInto : Option (DataTree κ α) → DataTree κ α → Except ε (DataTree κ α)
  | none, y => .ok y
  | some x, y => M.merge x y

@[simp] theorem mergeInto_none (y : DataTree κ α) : M.mergeInto none y = .ok y := rfl

@[simp] theorem mergeInto_some (x y : DataTree κ α) : M.mergeInto (some x) y = M.merge x y := rfl

theorem mergeItem_eq_ok {b r : List (κ × DataTree κ α)} {item : κ × DataTree κ α} :
    mergeItem M.merge b item = .ok r ↔
      ∃ z, M.mergeInto (b.lookup item.1) item.2 = .ok z ∧ r = Dict.set item.1 z b := by
  rw [mergeItem]
  cases b.lookup item.1 with
  | none => simp [eq_comm]
  | some x =>
      rw [Except.bind_eq_ok]
      simp [eq_comm (a := r)]

theorem merge_dict_eq_ok {b n : List (κ × DataTree κ α)} {r : DataTree κ α} :
    M.merge (.dict b) (.dict n) = .ok r ↔
      ∃ d, n.foldlM (mergeItem M.merge) b = .ok d ∧ r = .dict d := by
  rw [M.merge_dict, Except.map_eq_ok]
  simp only [eq_comm]

/-- Merging a one-key dictionary touches only that key. -/
theorem merge_singleton_eq_ok {b : List (κ × DataTree κ α)} {k : κ} {y r : DataTree κ α} :
    M.merge (.dict b) (.dict [(k, y)]) = .ok r ↔
      ∃ z, M.mergeInto (b.lookup k) y = .ok z ∧ r = .dict (Dict.set k z b) := by
  rw [M.merge_dict, List.foldlM_cons, Except.map_eq_ok]
  constructor
  · rintro ⟨d, hd, rfl⟩
    obtain ⟨d', hd', hnil⟩ := Except.bind_eq_ok.mp hd
    obtain ⟨z, hz, rfl⟩ := M.mergeItem_eq_ok.mp hd'
    cases hnil
    exact ⟨z, hz, rfl⟩
  · rintro ⟨z, hz, rfl⟩
    exact ⟨_, Except.bind_eq_ok.mpr ⟨_, M.mergeItem_eq_ok.mpr ⟨z, hz, rfl⟩, rfl⟩, rfl⟩

/-- The merge of two dictionaries, looked up under any key. -/
theorem foldlM_mergeItem_lookup {b n r : List (κ × DataTree κ α)} (hnd : (n.map Prod.fst).Nodup)
    (h : n.foldlM (mergeItem M.merge) b = .ok r) (k : κ) :
    match n.lookup k with
    | none => r.lookup k = b.lookup k
    | some y => ∃ z, M.mergeInto (b.lookup k) y = .ok z ∧ r.lookup k = some z := by
  induction n generalizing b with
  | nil =>
      cases h
      rfl
  | cons item n ih =>
      obtain ⟨j, v⟩ := item
      rw [List.map_cons, List.nodup_cons] at hnd
      rw [List.foldlM_cons] at h
      obtain ⟨b', hb', hr⟩ := Except.bind_eq_ok.mp h
      obtain ⟨z, hz, rfl⟩ := M.mergeItem_eq_ok.mp hb'
      have hrest := ih hnd.2 hr
      rw [Dict.lookup_cons]
      by_cases hk : k = j
      · subst hk
        -- no later item has the key again
        rw [Dict.lookup_eq_none hnd.1] at hrest
        rw [if_pos rfl]
        exact ⟨z, hz, hrest.trans (Dict.lookup_set_self k z b)⟩
      · rw [if_neg hk]
        rwa [Dict.lookup_set_ne (Ne.symm hk)] at hrest

/-- Two dictionaries merge if every item of the second one can be merged when its turn comes. -/
theorem exists_foldlM_of_items {d e : List (κ × DataTree κ α)}
    (h : ∀ before item after d' x, e = before ++ item :: after →
      before.foldlM (mergeItem M.merge) d = .ok d' → d'.lookup item.1 = some x →
      ∃ z, M.merge x item.2 = .ok z) : ∃ r, e.foldlM (mergeItem M.merge) d = .ok r := by
  induction e using List.reverseRecOn with
  | nil => exact ⟨d, rfl⟩
  | append_singleton e item ih =>
      obtain ⟨d', hd'⟩ := ih fun before item' after d' x heq =>
        h before item' (after ++ [item]) d' x (by rw [heq, List.append_assoc, List.cons_append])
      obtain ⟨z, hz⟩ : ∃ z, M.mergeInto (d'.lookup item.1) item.2 = .ok z := by
        cases hx : d'.lookup item.1 with
        | none => exact ⟨item.2, rfl⟩
        | some x => exact h e item [] d' x rfl hd' hx
      have hitem := M.mergeItem_eq_ok.mpr ⟨z, hz, rfl⟩
      refine ⟨Dict.set item.1 z d', ?_⟩
      rw [List.foldlM_append]
      exact Except.bind_eq_ok.mpr ⟨d', hd', Except.bind_eq_ok.mpr ⟨_, hitem, rfl⟩⟩

/-- Merging related items into related dictionaries gives related dictionaries.  `P` is any
    relation of dictionaries that lookups and updates respect. -/
theorem foldlM_mergeItem_congr {R S : DataTree κ α → DataTree κ α → Prop}
    {P : List (κ × DataTree κ α) → List (κ × DataTree κ α) → Prop}
    {b b' n n' d : List (κ × DataTree κ α)}
    (hlookup : ∀ {b b'}, P b b' → ∀ k, Option.Rel R (b.lookup k) (b'.lookup k))
    (hset : ∀ {b b' z z'}, P b b' → R z z' → ∀ k, P (Dict.set k z b) (Dict.set k z' b'))
    (hSR : ∀ {y y'}, S y y' → R y y')
    (hstep : ∀ kv ∈ n, ∀ y' s s' r, S kv.2 y' → R s s' → M.merge s kv.2 = .ok r →
      ∃ r', M.merge s' y' = .ok r' ∧ R r r')
    (hn : List.Forall₂ (fun kv kv' => kv.1 = kv'.1 ∧ S kv.2 kv'.2) n n') (hb : P b b')
    (h : n.foldlM (mergeItem M.merge) b = .ok d) :
    ∃ d', n'.foldlM (mergeItem M.merge) b' = .ok d' ∧ P d d' := by
  induction hn generalizing b b' with
  | nil =>
      cases h
      exact ⟨b', rfl, hb⟩
  | @cons item item' n n' hitem _ ih =>
      obtain ⟨hkey, hval⟩ := hitem
      rw [List.foldlM_cons] at h
      obtain ⟨b₁, hb₁, hd⟩ := Except.bind_eq_ok.mp h
      obtain ⟨z, hz, rfl⟩ := M.mergeItem_eq_ok.mp hb₁
      -- the first item, set or merged on both sides
      obtain ⟨z', hz', hzz⟩ :
          ∃ z', M.mergeInto (b'.lookup item'.1) item'.2 = .ok z' ∧ R z z' := by
        have hk := hlookup hb item'.1
        rw [hkey] at hz
        generalize b.lookup item'.1 = x? at hk hz
        generalize b'.lookup item'.1 = x?' at hk ⊢
        cases hk with
        | none =>
            cases hz
            exact ⟨_, rfl, hSR hval⟩
        | some hxx => exact hstep item List.mem_cons_self _ _ _ _ hval hxx hz
      rw [hkey] at hd
      obtain ⟨d', hd', hP⟩ :=
        ih (fun kv hkv => hstep kv (List.mem_cons_of_mem _ hkv)) (hset hb hzz _) hd
      refine ⟨d', ?_, hP⟩
      rw [List.foldlM_cons]
      exact Except.bind_eq_ok.mpr ⟨_, M.mergeItem_eq_ok.mpr ⟨z', hz', rfl⟩, hd'⟩

section Zip

variable {M} (hzip : IsZip strategy)
include hzip

theorem merge_list_eq_ok {xs ys : List (DataTree κ α)} {r : DataTree κ α} :
    M.merge (.list xs) (.list ys) = .ok r ↔
      ∃ zs, Zips M.merge xs ys zs ∧ r = .list zs := by
  rw [M.merge_list, Except.map_eq_ok]
  simp only [hzip M.merge xs ys, eq_comm]

/-- **Induction over a merge** that returned: either the second tree replaced the first, or two
    lists or two dictionaries were merged, and what holds of merging their parts may be used. -/
@[elab_as_elim]
theorem merge_induction {motive : ∀ b n r, M.merge b n = .ok r → Prop}
    (override : ∀ {b n} (hc : ¬ SameContainer b n), motive b n n (M.merge_override hc))
    (list : ∀ {xs ys zs} (hzs : Zips M.merge xs ys zs),
      (∀ y ∈ ys, ∀ x z (hm : M.merge x y = .ok z), motive x y z hm) →
      motive (.list xs) (.list ys) (.list zs) ((merge_list_eq_ok hzip).mpr ⟨zs, hzs, rfl⟩))
    (dict : ∀ {d e d'} (hd' : e.foldlM (mergeItem M.merge) d = .ok d'),
      (∀ kv ∈ e, ∀ x z (hm : M.merge x kv.2 = .ok z), motive x kv.2 z hm) →
      motive (.dict d) (.dict e) (.dict d') (M.merge_dict_eq_ok.mpr ⟨d', hd', rfl⟩))
    {b n r : DataTree κ α} (h : M.merge b n = .ok r) : motive b n r h := by
  have hreplaced : ∀ {b n r} (h : M.merge b n = .ok r), ¬ SameContainer b n →
      motive b n r h := by
    intro b n r h hc
    cases (M.merge_override hc).symm.trans h
    exact override hc
  induction n generalizing b r with
  -- nothing is merged into an atom, and otherwise the kinds decide
  | atom a => exact hreplaced h (not_sameContainer_of_isAtom_right trivial)
  | list ys ih =>
      by_cases hc : SameContainer b (.list ys)
      · obtain ⟨xs, rfl⟩ := hc.exists_list
        obtain ⟨zs, hzs, rfl⟩ := (merge_list_eq_ok hzip).mp h
        exact list hzs fun y hy x z hm => ih y hy hm
      · exact hreplaced h hc
  | dict e ih =>
      by_cases hc : SameContainer b (.dict e)
      · obtain ⟨d, rfl⟩ := hc.exists_dict
        obtain ⟨d', hd', rfl⟩ := M.merge_dict_eq_ok.mp h
        exact dict hd' fun kv hkv x z hm => ih kv hkv hm
      · exact hreplaced h hc

/-- **A merge returns** if the two trees are related in a way that rules out lists that are too
    short, and that passes on to whatever is merged inside of them. -/
theorem exists_merge_of_relation {Q : DataTree κ α → DataTree κ α → Prop}
    (hlist : ∀ xs ys, Q (.list xs) (.list ys) → xs.length ≤ ys.length ∧
      ∀ (i : Nat) x y, xs[i]? = some x → ys[i]? = some y → Q x y)
    (hdict : ∀ d before item after d' x, Q (.dict d) (.dict (before ++ item :: after)) →
      before.foldlM (mergeItem M.merge) d = .ok d' → d'.lookup item.1 = some x → Q x item.2)
    {b n : DataTree κ α} (h : Q b n) : ∃ r, M.merge b n = .ok r := by
  induction n generalizing b with
  | atom a => exact ⟨_, M.merge_override (not_sameContainer_of_isAtom_right trivial)⟩
  | list ys ih =>
      by_cases hc : SameContainer b (.list ys)
      · obtain ⟨xs, rfl⟩ := hc.exists_list
        obtain ⟨hlen, hels⟩ := hlist xs ys h
        have hmerges : ∀ (i : Nat) x y, xs[i]? = some x → ys[i]? = some y →
            ∃ z, M.merge x y = .ok z := fun i x y hx hy =>
          ih y (List.mem_of_getElem? hy) (hels i x y hx hy)
        obtain ⟨zs, hzs⟩ := Zips.exists_of hlen hmerges
        exact ⟨.list zs, (merge_list_eq_ok hzip).mpr ⟨zs, hzs, rfl⟩⟩
      · exact ⟨_, M.merge_override hc⟩
  | dict e ih =>
      by_cases hc : SameContainer b (.dict e)
      · obtain ⟨d, rfl⟩ := hc.exists_dict
        obtain ⟨r, hr⟩ : ∃ r, e.foldlM (mergeItem M.merge) d = .ok r := by
          apply M.exists_foldlM_of_items
          rintro before item after d' x rfl hbefore hx
          exact ih item (List.mem_append_right _ List.mem_cons_self)
            (hdict d before item after d' x h hbefore hx)
        exact ⟨.dict r, M.merge_dict_eq_ok.mpr ⟨r, hr, rfl⟩⟩
      · exact ⟨_, M.merge_override hc⟩

/-- Merging into two trees that are the same up to key order gives the same. -/
theorem merge_congr_left {s s' t r : DataTree κ α} (hs : Same s s') (h : M.merge s t = .ok r) :
    ∃ r', M.merge s' t = .ok r' ∧ Same r r' := by
  induction h using merge_induction hzip generalizing s' with
  | @override s t hc =>
      have hc' : ¬ SameContainer s' t := fun hx => hc (hs.symm.sameContainer (.refl _) hx)
      exact ⟨t, M.merge_override hc', .refl _⟩
  | @list xs ys zs hzs ih =>
      obtain ⟨xs', rfl⟩ := (hs.sameContainer (.refl (.list xs)) trivial).exists_list
      obtain ⟨zs', hzs', hsame⟩ := hzs.congr (R := Same) (S := Eq)
        (fun y hy _ s s' r hyy hss hm => hyy ▸ ih y hy s r hm hss)
        (same_list_iff.mp hs) (List.forall₂_same.mpr fun _ _ => rfl)
      exact ⟨_, (merge_list_eq_ok hzip).mpr ⟨zs', hzs', rfl⟩, same_list_iff.mpr hsame⟩
  | @dict b n d hd ih =>
      obtain ⟨b', rfl⟩ := (hs.sameContainer (.refl (.dict b)) trivial).exists_dict
      -- setting one key to the same value keeps two dictionaries the same
      have hset : ∀ {b b' : List (κ × DataTree κ α)} {z z' : DataTree κ α},
          (∀ j, Option.Rel Same (b.lookup j) (b'.lookup j)) → Same z z' →
            ∀ k j, Option.Rel Same ((Dict.set k z b).lookup j) ((Dict.set k z' b').lookup j) := by
        intro b b' z z' hb hzz k j
        rw [Dict.lookup_set, Dict.lookup_set]
        split
        · exact .some hzz
        · exact hb j
      obtain ⟨d', hd', hsame⟩ := M.foldlM_mergeItem_congr (R := Same) (S := Eq) (fun h => h) hset
        (fun h => h ▸ .refl _) (fun kv hkv _ s s' r hyy hss hm => hyy ▸ ih kv hkv s r hm hss)
        (List.forall₂_same.mpr fun _ _ => ⟨rfl, rfl⟩) (same_dict_iff.mp hs) hd
      exact ⟨.dict d', M.merge_dict_eq_ok.mpr ⟨d', hd', rfl⟩, same_dict_iff.mpr hsame⟩

end Zip

end Merger

end MLocust.Lib
