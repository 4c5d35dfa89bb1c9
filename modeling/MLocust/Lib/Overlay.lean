/-
  MLocust.Lib.Overlay

  Where the content of a merged tree comes from, position by position.

  When `n` is merged into `b`, the result shows at a concrete path what `n` shows
  there.  Where `n` has nothing, it shows what `b` shows if the path leaves `n`
  at a container that `b` has too (`Kept`), and nothing otherwise.  This holds at
  every path along which the lists of the two trees have the same lengths
  (`probe_merge`); when they have them everywhere (`Aligned`), merging does not
  raise (`exists_merge`).

  `Covers` is the case in which nothing of the first tree is left over: then, and
  only then, merging returns the second tree up to key order
  (`same_of_covers_merge`, `covers_of_same`).
-/
import MLocust.Lib.DeepMerge

namespace MLocust.Lib

namespace DataTree

variable {κ α : Type} [DecidableEq κ] {b n b' n' : DataTree κ α} {s : Step κ}
  {p q : List (Step κ)}

-- ============================================================================
-- Paths, one step at a time
-- ============================================================================

theorem get?_cons (s : Step κ) (p : List (Step κ)) (t : DataTree κ α) :
    t.get? (s :: p) = (t.get? [s]).bind (get? p) := get?_append [s] p t

theorem probe_append (p q : List (Step κ)) (t : DataTree κ α) :
    t.probe (p ++ q) = (t.get? p).bind (probe q) := by
  rw [probe, get?_append]
  cases t.get? p with
  | none => rfl
  | some u => rfl

theorem probe_cons (s : Step κ) (p : List (Step κ)) (t : DataTree κ α) :
    t.probe (s :: p) = (t.get? [s]).bind (probe p) := probe_append [s] p t

theorem probe_eq_none_iff {t : DataTree κ α} : t.probe p = none ↔ t.get? p = none := by
  rw [probe, Option.map_eq_none_iff]

theorem probe_of_get? {t u : DataTree κ α} (h : t.get? p = some u) : t.probe p = some u.node := by
  rw [probe, h]
  rfl

/-- What is absent at a path is absent below it. -/
theorem probe_eq_none_of_isPrefix {t : DataTree κ α} (hpq : p <+: q) (h : t.probe p = none) :
    t.probe q = none := by
  obtain ⟨r, rfl⟩ := hpq
  rw [probe_append, probe_eq_none_iff.mp h]
  rfl

/-- Two trees with a child under the same step are containers of the same kind. -/
theorem sameContainer_of_get? {x y : DataTree κ α} (hb : b.get? [s] = some x)
    (hn : n.get? [s] = some y) : SameContainer b n := by
  cases s with
  | key k =>
      cases b with
      | atom a => simp at hb
      | list xs => simp [get?] at hb
      | dict d =>
          cases n with
          | atom a => simp at hn
          | list ys => simp [get?] at hn
          | dict e => trivial
  | idx i =>
      cases b with
      | atom a => simp at hb
      | dict d => simp [get?] at hb
      | list xs =>
          cases n with
          | atom a => simp at hn
          | dict e => simp [get?] at hn
          | list ys => trivial

@[simp] theorem get?_key_singleton (k : κ) (d : List (κ × DataTree κ α)) :
    (DataTree.dict d).get? [.key k] = d.lookup k := by
  rw [get?_key_dict]
  cases d.lookup k with
  | none => rfl
  | some v => simp

@[simp] theorem get?_idx_singleton (i : Nat) (xs : List (DataTree κ α)) :
    (DataTree.list xs).get? [.idx i] = xs[i]? := by
  rw [get?_idx_list]
  cases xs[i]? with
  | none => rfl
  | some v => simp

theorem Same.child (h : Same b n) (hb : b.get? [s] = some b') (hn : n.get? [s] = some n') :
    Same b' n' := by
  intro p
  have hp := h (s :: p)
  rw [probe_cons, probe_cons, hb, hn] at hp
  exact hp

/-- The items of a dictionary that may be there. -/
def itemsOf : Option (DataTree κ α) → List (κ × DataTree κ α)
  | some (.dict d) => d
  | _ => []

/-- The length of a list that may be there, or else `n`. -/
def lengthOr : Option (DataTree κ α) → Nat → Nat
  | some (.list xs), _ => xs.length
  | _, n => n

omit [DecidableEq κ] in
/-- What holds of `n` and of the length of a list that is there holds of `lengthOr`. -/
theorem lengthOr_of {o : Option (DataTree κ α)} {n : Nat} {P : Nat → Prop} (hn : P n)
    (h : ∀ xs, o = some (.list xs) → P xs.length) : P (lengthOr o n) := by
  cases o with
  | none => exact hn
  | some b =>
      cases b with
      | atom a => exact hn
      | dict d => exact hn
      | list xs => exact h xs rfl

theorem bind_get?_key (o : Option (DataTree κ α)) (k : κ) :
    o.bind (get? [.key k]) = (itemsOf o).lookup k := by
  cases o with
  | none => rfl
  | some b =>
      cases b with
      | dict d => exact get?_key_singleton k d
      | atom a => simp [itemsOf]
      | list xs => simp [itemsOf]

/-- A missing element lies beyond a list that is there. -/
theorem bind_get?_idx_eq_none {o : Option (DataTree κ α)} {i m : Nat}
    (hi : lengthOr o m ≤ i) : o.bind (get? [.idx i]) = none := by
  cases o with
  | none => rfl
  | some b =>
      cases b with
      | atom a => simp
      | dict d => simp
      | list xs =>
          rw [Option.bind_some, get?_idx_singleton]
          exact List.getElem?_eq_none hi

theorem bind_get?_cons (o : Option (DataTree κ α)) (s : Step κ) (p : List (Step κ)) :
    o.bind (get? (s :: p)) = (o.bind (get? [s])).bind (get? p) := by
  cases o with
  | none => rfl
  | some b => exact get?_cons s p b

/-- Setting two different keys commutes, up to key order. -/
theorem same_set_comm {k j : κ} (h : k ≠ j) (v w : DataTree κ α) (d : List (κ × DataTree κ α)) :
    Same (.dict (Dict.set j w (Dict.set k v d))) (.dict (Dict.set k v (Dict.set j w d))) := by
  refine same_dict_iff.mpr fun i => ?_
  rw [Dict.lookup_set, Dict.lookup_set, Dict.lookup_set, Dict.lookup_set]
  by_cases hj : j = i
  · have hk : k ≠ i := fun hk => h (hk.trans hj.symm)
    rw [if_pos hj, if_neg hk, if_pos hj]
    exact .some (.refl w)
  · rw [if_neg hj, if_neg hj]
    by_cases hk : k = i
    · rw [if_pos hk]
      exact .some (.refl v)
    · rw [if_neg hk]
      cases d.lookup i with
      | none => exact .none
      | some x => exact .some (.refl x)

/-- Only the last value set under a key counts. -/
theorem same_set_set {k : κ} {v v' w w' : DataTree κ α} (h : Same w w')
    (d : List (κ × DataTree κ α)) :
    Same (.dict (Dict.set k w (Dict.set k v d))) (.dict (Dict.set k w' (Dict.set k v' d))) := by
  refine same_dict_iff.mpr fun i => ?_
  rw [Dict.lookup_set, Dict.lookup_set, Dict.lookup_set, Dict.lookup_set]
  by_cases hk : k = i
  · rw [if_pos hk, if_pos hk]
    exact .some h
  · rw [if_neg hk, if_neg hk, if_neg hk, if_neg hk]
    cases d.lookup i with
    | none => exact .none
    | some x => exact .some (.refl x)

-- ============================================================================
-- What is kept, and where lists are aligned
-- ============================================================================

/-- The path `q` leaves `n` at a container that `b` has too. -/
def Kept (q : List (Step κ)) (b n : DataTree κ α) : Prop :=
  ∃ p s u v, p ++ [s] <+: q ∧ n.probe (p ++ [s]) = none ∧
    b.get? p = some u ∧ n.get? p = some v ∧ SameContainer u v

/-- Along the path `q`, lists of the two trees have the same lengths. -/
def AlignedTo (q : List (Step κ)) (b n : DataTree κ α) : Prop :=
  ∀ p, p <+: q → ∀ i j, b.probe p = some (.list i) → n.probe p = some (.list j) → i = j

/-- Lists of the two trees at the same path have the same lengths. -/
def Aligned (b n : DataTree κ α) : Prop := ∀ q, AlignedTo q b n

theorem not_kept_nil : ¬ Kept [] b n := by
  rintro ⟨p, s, u, v, hpq, _⟩
  have hlen := hpq.length_le
  simp at hlen

/-- Nothing is kept of a tree that is not a container of the same kind. -/
theorem not_kept_of_not_sameContainer (h : ¬ SameContainer b n) : ¬ Kept q b n := by
  rintro ⟨p, s, u, v, hpq, hnone, hu, hv, huv⟩
  cases p with
  | nil =>
      rw [get?_nil, Option.some.injEq] at hu hv
      subst hu hv
      exact h huv
  | cons s' p =>
      rw [get?_cons] at hu hv
      obtain ⟨x, hx, _⟩ := Option.bind_eq_some_iff.mp hu
      obtain ⟨y, hy, _⟩ := Option.bind_eq_some_iff.mp hv
      exact h (sameContainer_of_get? hx hy)

theorem kept_cons_of_none (hn : n.get? [s] = none) : Kept (s :: q) b n ↔ SameContainer b n := by
  constructor
  · intro h
    by_contra hc
    exact not_kept_of_not_sameContainer hc h
  · intro hc
    exact ⟨[], s, b, n, ⟨q, rfl⟩, probe_eq_none_iff.mpr hn, get?_nil b, get?_nil n, hc⟩

theorem kept_cons_of_some (hb : b.get? [s] = some b') (hn : n.get? [s] = some n') :
    Kept (s :: q) b n ↔ Kept q b' n' := by
  constructor
  · rintro ⟨p, s', u, v, hpq, hnone, hu, hv, huv⟩
    cases p with
    | nil =>
        obtain ⟨rfl, _⟩ := List.cons_prefix_cons.mp hpq
        rw [List.nil_append, probe_eq_none_iff, hn] at hnone
        cases hnone
    | cons s'' p =>
        obtain ⟨rfl, hpq'⟩ := List.cons_prefix_cons.mp hpq
        rw [List.cons_append, probe_cons, hn] at hnone
        rw [get?_cons, hb] at hu
        rw [get?_cons, hn] at hv
        exact ⟨p, s', u, v, hpq', hnone, hu, hv, huv⟩
  · rintro ⟨p, s', u, v, hpq, hnone, hu, hv, huv⟩
    refine ⟨s :: p, s', u, v, List.cons_prefix_cons.mpr ⟨rfl, hpq⟩, ?_, ?_, ?_, huv⟩
    · rw [List.cons_append, probe_cons, hn]
      exact hnone
    · rw [get?_cons, hb]
      exact hu
    · rw [get?_cons, hn]
      exact hv

/-- What is kept of a tree depends only on what the tree shows along the path. -/
theorem Kept.congr_left (h : Kept q b n) (hbb : ∀ p, p <+: q → b.probe p = b'.probe p) :
    Kept q b' n := by
  obtain ⟨p, s, u, v, hpq, hnone, hu, hv, huv⟩ := h
  have hp := hbb p ((List.prefix_append p [s]).trans hpq)
  rw [probe_of_get? hu] at hp
  obtain ⟨u', hu', hnode⟩ := Option.map_eq_some_iff.mp hp.symm
  exact ⟨p, s, u', v, hpq, hnone, hu', hv, sameContainer_of_node_eq hnode.symm rfl huv⟩

theorem AlignedTo.cons (h : AlignedTo (s :: q) b n) (hb : b.get? [s] = some b')
    (hn : n.get? [s] = some n') : AlignedTo q b' n' := by
  intro p hpq i j hi hj
  refine h (s :: p) (List.cons_prefix_cons.mpr ⟨rfl, hpq⟩) i j ?_ ?_
  · rw [probe_cons, hb]
    exact hi
  · rw [probe_cons, hn]
    exact hj

theorem Aligned.child (h : Aligned b n) (hb : b.get? [s] = some b')
    (hn : n.get? [s] = some n') : Aligned b' n' :=
  fun q => (h (s :: q)).cons hb hn

theorem AlignedTo.length_eq {xs ys : List (DataTree κ α)}
    (h : AlignedTo q (.list xs) (.list ys)) : xs.length = ys.length :=
  h [] List.nil_prefix _ _ rfl rfl

theorem kept_append {u v : DataTree κ α} (hb : b.get? p = some u) (hn : n.get? p = some v) :
    Kept (p ++ q) b n ↔ Kept q u v := by
  induction p generalizing b n with
  | nil =>
      rw [get?_nil, Option.some.injEq] at hb hn
      rw [hb, hn, List.nil_append]
  | cons s p ih =>
      rw [get?_cons] at hb hn
      obtain ⟨x, hx, hxu⟩ := Option.bind_eq_some_iff.mp hb
      obtain ⟨y, hy, hyv⟩ := Option.bind_eq_some_iff.mp hn
      rw [List.cons_append, kept_cons_of_some hx hy]
      exact ih hxu hyv

-- ============================================================================
-- Covering
-- ============================================================================

/-- Merging `nxt` into `base` leaves nothing of `base`: the two are not containers of one
    kind, or `nxt` has everything that `base` has, with lists of the same lengths. -/
inductive Covers : DataTree κ α → DataTree κ α → Prop
  | differ {base nxt} : ¬ SameContainer base nxt → Covers base nxt
  | list {xs ys : List (DataTree κ α)} : xs.length = ys.length →
      (∀ (i : Nat) x y, xs[i]? = some x → ys[i]? = some y → Covers x y) →
      Covers (.list xs) (.list ys)
  | dict {d e : List (κ × DataTree κ α)} :
      (∀ k x, d.lookup k = some x → ∃ y, e.lookup k = some y) →
      (∀ k x y, d.lookup k = some x → e.lookup k = some y → Covers x y) →
      Covers (.dict d) (.dict e)

theorem Covers.child (h : Covers b n) (hc : SameContainer b n) {x : DataTree κ α}
    (hx : b.get? [s] = some x) : ∃ y, n.get? [s] = some y ∧ Covers x y := by
  cases h with
  | differ hd => exact absurd hc hd
  | list hlen hels =>
      cases s with
      | key k => simp at hx
      | idx i =>
          rw [get?_idx_singleton] at hx
          have hi := (List.getElem?_eq_some_iff.mp hx).1
          rw [hlen] at hi
          have hy := List.getElem?_eq_getElem hi
          exact ⟨_, by rw [get?_idx_singleton, hy], hels i _ _ hx hy⟩
  | dict hkeys hvals =>
      cases s with
      | idx i => simp at hx
      | key k =>
          rw [get?_key_singleton] at hx
          obtain ⟨y, hy⟩ := hkeys k x hx
          exact ⟨y, by rw [get?_key_singleton, hy], hvals k x y hx hy⟩

/-- Nothing is kept of a tree that is covered. -/
theorem Covers.probe_eq_none (h : Covers b n) (hk : Kept q b n) : b.probe q = none := by
  induction q generalizing b n with
  | nil => exact absurd hk not_kept_nil
  | cons s q ih =>
      have hc : SameContainer b n := by
        by_contra hc
        exact not_kept_of_not_sameContainer hc hk
      rw [probe_cons]
      cases hx : b.get? [s] with
      | none => rfl
      | some x =>
          obtain ⟨y, hy, hxy⟩ := h.child hc hx
          exact ih hxy ((kept_cons_of_some hx hy).mp hk)

/-- A covered tree has its lists in common with the covering one. -/
theorem Covers.aligned (h : Covers b n) : Aligned b n := by
  intro q p hpq i j hi hj
  clear hpq
  induction p generalizing b n with
  | nil =>
      rw [probe_nil, Option.some.injEq] at hi hj
      cases h with
      | differ hd =>
          cases b with
          | list xs =>
              cases n with
              | list ys => exact absurd trivial hd
              | atom a => cases hj
              | dict e => cases hj
          | atom a => cases hi
          | dict d => cases hi
      | list hlen _ =>
          cases hi
          cases hj
          exact hlen
      | dict _ _ => cases hi
  | cons s p ih =>
      rw [probe_cons] at hi hj
      obtain ⟨x, hx, hxi⟩ := Option.bind_eq_some_iff.mp hi
      obtain ⟨y, hy, hyj⟩ := Option.bind_eq_some_iff.mp hj
      obtain ⟨y', hy', hxy⟩ := h.child (sameContainer_of_get? hx hy) hx
      rw [hy, Option.some.injEq] at hy'
      subst hy'
      exact ih hxy hxi hyj

end DataTree

open DataTree

namespace Merger

variable {κ α ε : Type} [DecidableEq κ]
  {strategy : (DataTree κ α → DataTree κ α → Except ε (DataTree κ α)) →
    List (DataTree κ α) → List (DataTree κ α) → Except ε (List (DataTree κ α))}
  {M : Merger κ α ε strategy} (hzip : IsZip strategy)
  {b n r : DataTree κ α} {s : Step κ} {q : List (Step κ)}
include hzip

-- ============================================================================
-- The children of a merged tree
-- ============================================================================

omit hzip in
/-- Merging dictionaries, one key at a time. -/
theorem merge_dict_child {d e : List (κ × DataTree κ α)} (hn : (DataTree.dict e).WF)
    (h : M.merge (.dict d) (.dict e) = .ok r) (k : κ) :
    (∀ y, (DataTree.dict e).get? [.key k] = some y →
      ∃ z, M.mergeInto ((DataTree.dict d).get? [.key k]) y = .ok z ∧ r.get? [.key k] = some z) ∧
    ((DataTree.dict e).get? [.key k] = none →
      r.get? [.key k] = (DataTree.dict d).get? [.key k]) := by
  obtain ⟨d', hd', rfl⟩ := M.merge_dict_eq_ok.mp h
  have hlook := M.foldlM_mergeItem_lookup (wf_dict_nodup hn) hd' k
  rw [get?_key_singleton, get?_key_singleton, get?_key_singleton]
  refine ⟨fun y hy => ?_, fun hy => ?_⟩
  · rw [hy] at hlook
    exact hlook
  · rw [hy] at hlook
    exact hlook

/-- A child of the second tree is merged into the child of the first, if there is one. -/
theorem merge_child_of_some (hn : n.WF) (h : M.merge b n = .ok r) (hc : SameContainer b n)
    (hal : AlignedTo q b n) {y : DataTree κ α} (hy : n.get? [s] = some y) :
    ∃ z, M.mergeInto (b.get? [s]) y = .ok z ∧ r.get? [s] = some z := by
  cases n with
  | atom a => simp at hy
  | list ys =>
      obtain ⟨xs, rfl⟩ := hc.exists_list
      obtain ⟨zs, hzs, rfl⟩ := (merge_list_eq_ok hzip).mp h
      cases s with
      | key k => simp [get?] at hy
      | idx i =>
          rw [get?_idx_singleton] at hy ⊢
          have hi : i < xs.length := by
            rw [hal.length_eq]
            exact (List.getElem?_eq_some_iff.mp hy).1
          rw [get?_idx_singleton, List.getElem?_eq_getElem hi]
          exact hzs.getElem?_eq (List.getElem?_eq_getElem hi) hy
  | dict e =>
      obtain ⟨d, rfl⟩ := hc.exists_dict
      cases s with
      | idx i => simp [get?] at hy
      | key k => exact (merge_dict_child hn h k).1 y hy

/-- Where the second tree has no child, the first tree's stays. -/
theorem merge_child_of_none (hn : n.WF) (h : M.merge b n = .ok r) (hc : SameContainer b n)
    (hal : AlignedTo q b n) (hy : n.get? [s] = none) : r.get? [s] = b.get? [s] := by
  cases n with
  | atom a => exact absurd hc (not_sameContainer_of_isAtom_right trivial)
  | list ys =>
      obtain ⟨xs, rfl⟩ := hc.exists_list
      obtain ⟨zs, hzs, rfl⟩ := (merge_list_eq_ok hzip).mp h
      cases s with
      | key k => rfl
      | idx i =>
          rw [get?_idx_singleton] at hy
          have hlen := hal.length_eq
          have hi := List.getElem?_eq_none_iff.mp hy
          rw [get?_idx_singleton, get?_idx_singleton,
            List.getElem?_eq_none (by rw [hzs.length_eq]; omega),
            List.getElem?_eq_none (by omega)]
  | dict e =>
      obtain ⟨d, rfl⟩ := hc.exists_dict
      cases s with
      | key k => exact (merge_dict_child hn h k).2 hy
      | idx i =>
          obtain ⟨d', _, rfl⟩ := M.merge_dict_eq_ok.mp h
          rfl

theorem merge_node (h : M.merge b n = .ok r) (hal : AlignedTo q b n) : r.node = n.node := by
  induction h using merge_induction hzip with
  | override hc => rfl
  | list hzs _ => rw [node, node, hzs.length_eq, hal.length_eq]
  | dict _ _ => rfl

-- ============================================================================
-- The merged tree at a path
-- ============================================================================

/-- **The overlay law.**  At a path along which the two trees' lists have the same
    lengths, the merged tree shows what the second tree shows, and what the first one
    shows where it is kept. -/
theorem probe_merge (hn : n.WF) (h : M.merge b n = .ok r) (hal : AlignedTo q b n)
    {x : Node α} :
    r.probe q = some x ↔ n.probe q = some x ∨ (Kept q b n ∧ b.probe q = some x) := by
  induction q generalizing b n r with
  | nil =>
      have hk : ¬ Kept [] b n := not_kept_nil
      rw [probe_nil, probe_nil, merge_node hzip h hal]
      simp [hk]
  | cons s q ih =>
      by_cases hc : SameContainer b n
      · cases hy : n.get? [s] with
        -- the second tree has nothing there: what the first has is kept
        | none =>
            have hchild := merge_child_of_none hzip hn h hc hal hy
            rw [kept_cons_of_none hy, probe_cons, probe_cons, probe_cons, hchild, hy]
            simp [hc]
        -- the second tree has a child there: it is set, or merged into the old one
        | some y =>
            obtain ⟨z, hz, hr⟩ := merge_child_of_some hzip hn h hc hal hy
            rw [probe_cons s q r, probe_cons s q n, probe_cons s q b, hr, hy]
            cases hx : b.get? [s] with
            | none =>
                rw [hx, M.mergeInto_none] at hz
                cases hz
                simp
            | some x' =>
                rw [hx, M.mergeInto_some] at hz
                rw [kept_cons_of_some hx hy]
                exact ih (wf_get? hn hy) hz (hal.cons hx hy)
      -- the second tree replaces the first, of which nothing is kept
      · have hk : ¬ Kept (s :: q) b n := not_kept_of_not_sameContainer hc
        rw [M.merge_override hc] at h
        cases h
        simp [hk]

/-- Two trees whose lists have the same lengths everywhere can be merged. -/
theorem exists_merge (hn : n.WF) (hal : Aligned b n) : ∃ r, M.merge b n = .ok r := by
  refine exists_merge_of_relation hzip (Q := fun b n => n.WF ∧ Aligned b n) ?_ ?_ ⟨hn, hal⟩
  · rintro xs ys ⟨hn, hal⟩
    refine ⟨Nat.le_of_eq (hal []).length_eq, fun i x y hx hy => ?_⟩
    have hx' : (DataTree.list xs).get? [.idx i] = some x := by rw [get?_idx_singleton, hx]
    have hy' : (DataTree.list ys).get? [.idx i] = some y := by rw [get?_idx_singleton, hy]
    exact ⟨wf_get? hn hy', hal.child hx' hy'⟩
  · rintro d before item after d' x ⟨hn, hal⟩ hbefore hx
    have hnd := wf_dict_nodup hn
    have hy : (DataTree.dict (before ++ item :: after)).get? [.key item.1] = some item.2 := by
      rw [get?_key_singleton,
        Dict.lookup_of_mem hnd (List.mem_append_right _ List.mem_cons_self)]
    -- no item before it has its key, so what is there now was there at the beginning
    rw [List.map_append, List.map_cons, List.nodup_append] at hnd
    obtain ⟨hnd, -, hdisjoint⟩ := hnd
    have hnone : before.lookup item.1 = none :=
      Dict.lookup_eq_none fun hmem => hdisjoint _ hmem _ List.mem_cons_self rfl
    have hlook := M.foldlM_mergeItem_lookup hnd hbefore item.1
    rw [hnone] at hlook
    have hx' : (DataTree.dict d).get? [.key item.1] = some x := by
      rw [get?_key_singleton, ← hx]
      exact hlook.symm
    exact ⟨wf_get? hn hy, hal.child hx' hy⟩

-- ============================================================================
-- Merging a tree with a single branch
-- ============================================================================

omit hzip in
/-- Merging a one-key dictionary works on the child under that key only. -/
theorem mergeInto_key_eq_ok {o : Option (DataTree κ α)} {k : κ} {y : DataTree κ α} :
    M.mergeInto o (.dict [(k, y)]) = .ok r ↔
      ∃ z, M.mergeInto (o.bind (get? [.key k])) y = .ok z ∧
        r = .dict (Dict.set k z (itemsOf o)) := by
  have hfresh : ∀ {b : Option (DataTree κ α)}, b.bind (get? [.key k]) = none → itemsOf b = [] →
      (.ok (.dict [(k, y)]) = (.ok r : Except ε (DataTree κ α)) ↔
        ∃ z, M.mergeInto (b.bind (get? [.key k])) y = .ok z ∧
          r = .dict (Dict.set k z (itemsOf b))) := by
    intro b hb hitems
    rw [hb, hitems]
    simp [Dict.set, eq_comm]
  cases o with
  | none => exact hfresh rfl rfl
  | some b =>
      cases b with
      | dict d =>
          rw [M.mergeInto_some, M.merge_singleton_eq_ok, Option.bind_some, get?_key_singleton]
          rfl
      | atom a =>
          rw [M.mergeInto_some, M.merge_override id]
          exact hfresh (by simp) rfl
      | list xs =>
          rw [M.mergeInto_some, M.merge_override id]
          exact hfresh (by simp) rfl

/-- Merging a list works element by element, on as many elements as a list that is already
    there has. -/
theorem mergeInto_list {o : Option (DataTree κ α)} {ys : List (DataTree κ α)}
    (h : M.mergeInto o (.list ys) = .ok r) :
    ∃ zs, r = .list zs ∧ zs.length = lengthOr o ys.length ∧ zs.length ≤ ys.length ∧
      ∀ (i : Nat) w, zs[i]? = some w →
        ∃ y, ys[i]? = some y ∧ M.mergeInto (o.bind (get? [.idx i])) y = .ok w := by
  -- where there was no list, the new one is taken as it is
  have hfresh : ∀ {b : Option (DataTree κ α)}, (∀ i, b.bind (get? [.idx i]) = none) →
      lengthOr b ys.length = ys.length → r = .list ys → ∃ zs, r = .list zs ∧
        zs.length = lengthOr b ys.length ∧ zs.length ≤ ys.length ∧
        ∀ (i : Nat) w, zs[i]? = some w →
          ∃ y, ys[i]? = some y ∧ M.mergeInto (b.bind (get? [.idx i])) y = .ok w := by
    rintro b hb hlen rfl
    refine ⟨ys, rfl, hlen.symm, Nat.le_refl _, fun i w hw => ⟨w, hw, ?_⟩⟩
    rw [hb, M.mergeInto_none]
  cases o with
  | none =>
      rw [M.mergeInto_none] at h
      cases h
      exact hfresh (fun j => rfl) rfl rfl
  | some b =>
      rw [M.mergeInto_some] at h
      cases b with
      | list xs =>
          obtain ⟨zs, hzs, rfl⟩ := (merge_list_eq_ok hzip).mp h
          refine ⟨zs, rfl, hzs.length_eq, hzs.length_eq ▸ hzs.length_le, fun i w hw => ?_⟩
          obtain ⟨x, y, hx, hy, hm⟩ := hzs.of_getElem? hw
          refine ⟨y, hy, ?_⟩
          rw [Option.bind_some, get?_idx_singleton, hx, M.mergeInto_some, hm]
      | atom a =>
          rw [M.merge_override id] at h
          cases h
          exact hfresh (fun j => by simp) rfl rfl
      | dict d =>
          rw [M.merge_override id] at h
          cases h
          exact hfresh (fun j => by simp) rfl rfl

theorem exists_mergeInto_list {o : Option (DataTree κ α)} {ys : List (DataTree κ α)}
    (hlen : lengthOr o ys.length ≤ ys.length)
    (h : ∀ (i : Nat) y, ys[i]? = some y → ∃ w, M.mergeInto (o.bind (get? [.idx i])) y = .ok w) :
    ∃ r, M.mergeInto o (.list ys) = .ok r := by
  cases o with
  | none => exact ⟨_, rfl⟩
  | some b =>
      cases b with
      | list xs =>
          have hels : ∀ (i : Nat) x y, xs[i]? = some x → ys[i]? = some y →
              ∃ z, M.merge x y = .ok z := by
            intro i x y hx hy
            obtain ⟨w, hw⟩ := h i y hy
            rw [Option.bind_some, get?_idx_singleton, hx] at hw
            exact ⟨w, hw⟩
          obtain ⟨zs, hzs⟩ := Zips.exists_of hlen hels
          exact ⟨_, (merge_list_eq_ok hzip).mpr ⟨zs, hzs, rfl⟩⟩
      | atom a => exact ⟨_, M.merge_override id⟩
      | dict d => exact ⟨_, M.merge_override id⟩

-- ============================================================================
-- Replacing a tree altogether
-- ============================================================================

theorem same_of_covers_merge (hn : n.WF) (h : Covers b n)
    (hm : M.merge b n = .ok r) : Same r n := by
  intro q
  apply Option.ext
  intro x
  rw [probe_merge hzip hn hm (h.aligned q)]
  constructor
  · rintro (hx | ⟨hk, hx⟩)
    · exact hx
    · rw [h.probe_eq_none hk] at hx
      cases hx
  · exact Or.inl

/-- If the merged tree is the second tree, the second one covers the first. -/
theorem covers_of_same (hn : n.WF) (hm : M.merge b n = .ok r) (hsame : Same r n) :
    Covers b n := by
  induction hm using merge_induction hzip with
  | override hc => exact .differ hc
  | @list xs ys zs hzs ih =>
      have hels := same_list_iff.mp hsame
      refine .list (hzs.length_eq ▸ hels.length_eq) fun i x y hx hy => ?_
      obtain ⟨z, hz, hzi⟩ := hzs.getElem?_eq hx hy
      have hy' : (DataTree.list ys).get? [.idx i] = some y := by rw [get?_idx_singleton, hy]
      have hzi' : (DataTree.list zs).get? [.idx i] = some z := by rw [get?_idx_singleton, hzi]
      exact ih y (List.mem_of_getElem? hy) x z hz (wf_get? hn hy') (hsame.child hzi' hy')
  | @dict d e d' hd' ih =>
      have hkeys := same_dict_iff.mp hsame
      have hlook := M.foldlM_mergeItem_lookup (wf_dict_nodup hn) hd'
      refine .dict (fun k x hx => ?_) fun k x y hx hy => ?_
      · cases hy : e.lookup k with
        | some y => exact ⟨y, rfl⟩
        | none =>
            -- a key of the first dictionary alone would be in the result
            have hk := hlook k
            have hs := hkeys k
            rw [hy] at hk hs
            rw [hk, hx] at hs
            cases hs
      · have hk := hlook k
        have hs := hkeys k
        rw [hy] at hk hs
        obtain ⟨z, hz, hzk⟩ := hk
        rw [hx] at hz
        rw [hzk] at hs
        cases hs with
        | some hzy =>
            have hy' : (DataTree.dict e).get? [.key k] = some y := by
              rw [get?_key_singleton, hy]
            exact ih (k, y) (Dict.mem_of_lookup hy) x z hz (wf_get? hn hy') hzy

end Merger

end MLocust.Lib
