/-
  MLocust.Lib.DataTree

  Trees of atoms, lists and insertion-ordered dictionaries (the shape of a JSON
  document), addressed by concrete paths of dictionary keys and list indices.

  - `Dict.set` is item assignment: it replaces in place or appends.
  - `DataTree.get?` follows a concrete path.
  - `DataTree.Same` is equality up to key order: the two trees show the same kind of
    node (atom, list of a length, dictionary) at every concrete path.
  - `DataTree.WF` says that no dictionary of the tree repeats a key.
-/
import Mathlib.Data.List.Forall2

namespace MLocust.Lib

-- ============================================================================
-- Dictionaries
-- ============================================================================

namespace Dict

variable {κ β γ : Type} [DecidableEq κ]

/-- `d[k] = v`: replace the value of `k` in place, or append a new item. -/
def set (k : κ) (v : β) : List (κ × β) → List (κ × β)
  | [] => [(k, v)]
  | (k', v') :: d => if k' = k then (k', v) :: d else (k', v') :: set k v d

theorem lookup_cons (k j : κ) (v : β) (d : List (κ × β)) :
    ((j, v) :: d).lookup k = if k = j then some v else d.lookup k := by
  by_cases h : k = j
  · subst h
    simp
  · have hb : (k == j) = false := by simpa using h
    rw [List.lookup_cons, hb, if_neg h]

@[simp] theorem lookup_set_self (k : κ) (v : β) (d : List (κ × β)) :
    (set k v d).lookup k = some v := by
  induction d with
  | nil => simp [set]
  | cons kv d ih =>
      obtain ⟨j, u⟩ := kv
      by_cases h : j = k
      · simp [set, h]
      · rw [set, if_neg h, lookup_cons, if_neg (Ne.symm h), ih]

theorem lookup_set_ne {k j : κ} (h : k ≠ j) (v : β) (d : List (κ × β)) :
    (set k v d).lookup j = d.lookup j := by
  induction d with
  | nil => simp [set, lookup_cons, Ne.symm h]
  | cons kv d ih =>
      obtain ⟨i, u⟩ := kv
      by_cases hi : i = k
      · subst hi
        rw [set, if_pos rfl, lookup_cons, lookup_cons, if_neg (Ne.symm h), if_neg (Ne.symm h)]
      · rw [set, if_neg hi, lookup_cons, lookup_cons, ih]

theorem lookup_set (k j : κ) (v : β) (d : List (κ × β)) :
    (set k v d).lookup j = if k = j then some v else d.lookup j := by
  by_cases h : k = j
  · subst h
    simp
  · rw [lookup_set_ne h, if_neg h]

/-- A key with a value is one of the keys. -/
theorem mem_of_lookup {k : κ} {v : β} {d : List (κ × β)} (h : d.lookup k = some v) :
    (k, v) ∈ d := by
  induction d with
  | nil => simp at h
  | cons kv d ih =>
      obtain ⟨j, u⟩ := kv
      rw [lookup_cons] at h
      by_cases hk : k = j
      · subst hk
        rw [if_pos rfl] at h
        cases h
        exact List.mem_cons_self
      · rw [if_neg hk] at h
        exact List.mem_cons_of_mem _ (ih h)

theorem lookup_eq_none {k : κ} {d : List (κ × β)} (h : k ∉ d.map Prod.fst) :
    d.lookup k = none := by
  cases hl : d.lookup k with
  | none => rfl
  | some v => exact absurd (List.mem_map.mpr ⟨_, mem_of_lookup hl, rfl⟩) h

/-- Without repeated keys an item is found under its key. -/
theorem lookup_of_mem {k : κ} {v : β} {d : List (κ × β)} (hnd : (d.map Prod.fst).Nodup)
    (h : (k, v) ∈ d) : d.lookup k = some v := by
  induction d with
  | nil => cases h
  | cons kv d ih =>
      obtain ⟨j, u⟩ := kv
      rw [List.map_cons, List.nodup_cons] at hnd
      rw [lookup_cons]
      rcases List.mem_cons.mp h with heq | hmem
      · cases heq
        rw [if_pos rfl]
      · have hne : k ≠ j := by
          rintro rfl
          exact hnd.1 (List.mem_map.mpr ⟨(k, v), hmem, rfl⟩)
        rw [if_neg hne]
        exact ih hnd.2 hmem

end Dict

-- ============================================================================
-- Trees
-- ============================================================================

/-- A tree with leaves in `α` and dictionary keys in `κ`. -/
inductive DataTree (κ α : Type) where
  | atom (a : α)
  | list (xs : List (DataTree κ α))
  | dict (kvs : List (κ × DataTree κ α))
deriving Repr

/-- One step of a concrete path: a dictionary key or a list index. -/
inductive Step (κ : Type) where
  | key (k : κ)
  | idx (i : Nat)
deriving Repr, DecidableEq

/-- What a tree shows at one position, without the children. -/
inductive Node (α : Type) where
  | atom (a : α)
  | list (length : Nat)
  | dict
deriving Repr, DecidableEq

namespace DataTree

variable {κ α β : Type}

/-- Induction over a tree, with a hypothesis for every element and every item. -/
@[elab_as_elim, induction_eliminator]
theorem ind {motive : DataTree κ α → Prop} (atom : ∀ a, motive (.atom a))
    (list : ∀ xs, (∀ x ∈ xs, motive x) → motive (.list xs))
    (dict : ∀ kvs, (∀ kv ∈ kvs, motive kv.2) → motive (.dict kvs)) (t : DataTree κ α) :
    motive t :=
  DataTree.rec (motive_1 := motive) (motive_2 := fun xs => ∀ x ∈ xs, motive x)
    (motive_3 := fun kvs => ∀ kv ∈ kvs, motive kv.2) (motive_4 := fun kv => motive kv.2)
    atom list dict (fun _ h => nomatch h)
    (fun _ _ hx hxs => List.forall_mem_cons.mpr ⟨hx, hxs⟩) (fun _ h => nomatch h)
    (fun _ _ hkv hkvs => List.forall_mem_cons.mpr ⟨hkv, hkvs⟩) (fun _ _ hv => hv) t

/-- The node at the root of a tree. -/
def node : DataTree κ α → Node α
  | .atom a => .atom a
  | .list xs => .list xs.length
  | .dict _ => .dict

/-- Both trees are lists, or both are dictionaries. -/
def SameContainer : DataTree κ α → DataTree κ α → Prop
  | .list _, .list _ => True
  | .dict _, .dict _ => True
  | _, _ => False

instance : (s t : DataTree κ α) → Decidable (SameContainer s t)
  | .list _, .list _ => .isTrue trivial
  | .dict _, .dict _ => .isTrue trivial
  | .atom _, .atom _ | .atom _, .list _ | .atom _, .dict _ | .list _, .atom _
  | .list _, .dict _ | .dict _, .atom _ | .dict _, .list _ => .isFalse id

theorem SameContainer.exists_list {s : DataTree κ α} {ys : List (DataTree κ α)}
    (h : SameContainer s (.list ys)) : ∃ xs, s = .list xs := by
  cases s with
  | list xs => exact ⟨xs, rfl⟩
  | atom a => exact h.elim
  | dict d => exact h.elim

theorem SameContainer.exists_dict {s : DataTree κ α} {n : List (κ × DataTree κ α)}
    (h : SameContainer s (.dict n)) : ∃ d, s = .dict d := by
  cases s with
  | dict d => exact ⟨d, rfl⟩
  | atom a => exact h.elim
  | list xs => exact h.elim

theorem sameContainer_of_node_list {s t : DataTree κ α} {i j : Nat} (hs : s.node = .list i)
    (ht : t.node = .list j) : SameContainer s t := by
  cases s with
  | atom a => cases hs
  | dict d => cases hs
  | list xs =>
      cases t with
      | list ys => trivial
      | atom a => cases ht
      | dict e => cases ht

/-- Being containers of the same kind is a matter of the two root nodes. -/
theorem sameContainer_of_node_eq {s t u v : DataTree κ α} (hst : s.node = t.node)
    (huv : u.node = v.node) (h : SameContainer s u) : SameContainer t v := by
  cases u with
  | atom a => cases s <;> exact h.elim
  | list ys =>
      obtain ⟨xs, rfl⟩ := h.exists_list
      cases t with
      | list xs' =>
          cases v with
          | list ys' => trivial
          | atom a => cases huv
          | dict e => cases huv
      | atom a => cases hst
      | dict d => cases hst
  | dict e =>
      obtain ⟨d, rfl⟩ := h.exists_dict
      cases t with
      | dict d' =>
          cases v with
          | dict e' => trivial
          | atom a => cases huv
          | list ys => cases huv
      | atom a => cases hst
      | list xs => cases hst

/-- The tree is an atom: neither a list nor a dictionary. -/
def IsAtom : DataTree κ α → Prop
  | .atom _ => True
  | _ => False

theorem not_sameContainer_of_isAtom_right {s t : DataTree κ α} (h : t.IsAtom) :
    ¬ SameContainer s t := by
  cases t with
  | atom a => cases s <;> exact id
  | list xs => exact h.elim
  | dict kvs => exact h.elim

section Paths

variable [DecidableEq κ]

/-- The subtree at a concrete path. -/
def get? : List (Step κ) → DataTree κ α → Option (DataTree κ α)
  | [], t => some t
  | .key k :: p, .dict kvs => (kvs.lookup k).bind (get? p)
  | .idx i :: p, .list xs => xs[i]?.bind (get? p)
  | _ :: _, _ => none

@[simp] theorem get?_nil (t : DataTree κ α) : get? [] t = some t := by cases t <;> rfl

@[simp] theorem get?_key_dict (k : κ) (p : List (Step κ)) (kvs : List (κ × DataTree κ α)) :
    get? (.key k :: p) (.dict kvs) = (kvs.lookup k).bind (get? p) := rfl

@[simp] theorem get?_idx_list (i : Nat) (p : List (Step κ)) (xs : List (DataTree κ α)) :
    get? (.idx i :: p) (.list xs) = xs[i]?.bind (get? p) := rfl

@[simp] theorem get?_key_list (k : κ) (p : List (Step κ)) (xs : List (DataTree κ α)) :
    get? (.key k :: p) (.list xs) = none := rfl

@[simp] theorem get?_idx_dict (i : Nat) (p : List (Step κ)) (kvs : List (κ × DataTree κ α)) :
    get? (.idx i :: p) (.dict kvs) = none := rfl

@[simp] theorem get?_cons_atom (s : Step κ) (p : List (Step κ)) (a : α) :
    get? (s :: p) (.atom a : DataTree κ α) = none := by cases s <;> rfl

theorem get?_append (p q : List (Step κ)) (t : DataTree κ α) :
    get? (p ++ q) t = (get? p t).bind (get? q) := by
  induction p generalizing t with
  | nil => simp
  | cons s p ih =>
      rw [List.cons_append]
      cases t with
      | atom a => simp
      | list xs =>
          cases s with
          | key k => simp
          | idx i =>
              rw [get?_idx_list, get?_idx_list]
              cases xs[i]? with
              | none => rfl
              | some x => exact ih x
      | dict kvs =>
          cases s with
          | key k =>
              rw [get?_key_dict, get?_key_dict]
              cases kvs.lookup k with
              | none => rfl
              | some x => exact ih x
          | idx i => simp

/-- The node shown at a concrete path. -/
def probe (p : List (Step κ)) (t : DataTree κ α) : Option (Node α) := (t.get? p).map node

@[simp] theorem probe_nil (t : DataTree κ α) : t.probe [] = some t.node := by simp [probe]

@[simp] theorem probe_key_dict (k : κ) (p : List (Step κ)) (kvs : List (κ × DataTree κ α)) :
    (DataTree.dict kvs).probe (.key k :: p) = (kvs.lookup k).bind (probe p) := by
  rw [probe, get?_key_dict]
  cases kvs.lookup k <;> rfl

@[simp] theorem probe_idx_list (i : Nat) (p : List (Step κ)) (xs : List (DataTree κ α)) :
    (DataTree.list xs).probe (.idx i :: p) = xs[i]?.bind (probe p) := by
  rw [probe, get?_idx_list]
  cases xs[i]? <;> rfl

@[simp] theorem probe_key_list (k : κ) (p : List (Step κ)) (xs : List (DataTree κ α)) :
    (DataTree.list xs).probe (.key k :: p) = none := rfl

@[simp] theorem probe_idx_dict (i : Nat) (p : List (Step κ)) (kvs : List (κ × DataTree κ α)) :
    (DataTree.dict kvs).probe (.idx i :: p) = none := rfl

@[simp] theorem probe_cons_atom (s : Step κ) (p : List (Step κ)) (a : α) :
    (DataTree.atom a : DataTree κ α).probe (s :: p) = none := by simp [probe]

-- ============================================================================
-- Equality up to key order
-- ============================================================================

/-- Equality up to key order: the same node at every concrete path. -/
def Same (s t : DataTree κ α) : Prop := ∀ p, s.probe p = t.probe p

@[refl] theorem Same.refl (t : DataTree κ α) : Same t t := fun _ => rfl

@[symm] theorem Same.symm {s t : DataTree κ α} (h : Same s t) : Same t s := fun p => (h p).symm

@[trans] theorem Same.trans {s t u : DataTree κ α} (h : Same s t) (h' : Same t u) : Same s u :=
  fun p => (h p).trans (h' p)

theorem Same.node_eq {s t : DataTree κ α} (h : Same s t) : s.node = t.node := by
  simpa using h []

/-- Lists are the same exactly when their elements are, position by position. -/
theorem same_list_iff {xs ys : List (DataTree κ α)} :
    Same (.list xs) (.list ys) ↔ List.Forall₂ Same xs ys := by
  rw [List.forall₂_iff_get]
  constructor
  · intro h
    have hlen : xs.length = ys.length := by
      have hn := h.node_eq
      rwa [node, node, Node.list.injEq] at hn
    refine ⟨hlen, fun i hx hy p => ?_⟩
    have hp := h (.idx i :: p)
    rwa [probe_idx_list, probe_idx_list, List.getElem?_eq_getElem hx,
      List.getElem?_eq_getElem hy] at hp
  · rintro ⟨hlen, hget⟩ p
    cases p with
    | nil => rw [probe_nil, probe_nil, node, node, hlen]
    | cons s p =>
        cases s with
        | key k => rw [probe_key_list, probe_key_list]
        | idx i =>
            rw [probe_idx_list, probe_idx_list]
            by_cases hi : i < xs.length
            · rw [List.getElem?_eq_getElem hi, List.getElem?_eq_getElem (hlen ▸ hi)]
              exact hget i hi (hlen ▸ hi) p
            · rw [List.getElem?_eq_none (by omega), List.getElem?_eq_none (by omega)]

/-- Dictionaries are the same exactly when they hold the same under each key. -/
theorem same_dict_iff {d e : List (κ × DataTree κ α)} :
    Same (.dict d) (.dict e) ↔ ∀ k, Option.Rel Same (d.lookup k) (e.lookup k) := by
  constructor
  · intro h k
    have hroot := h [.key k]
    rw [probe_key_dict, probe_key_dict] at hroot
    cases hd : d.lookup k with
    | none =>
        cases he : e.lookup k with
        | none => exact .none
        | some y => simp [hd, he] at hroot
    | some x =>
        cases he : e.lookup k with
        | none => simp [hd, he] at hroot
        | some y =>
            refine .some fun p => ?_
            have hp := h (.key k :: p)
            rwa [probe_key_dict, probe_key_dict, hd, he] at hp
  · intro h p
    cases p with
    | nil => rfl
    | cons s p =>
        cases s with
        | idx i => rw [probe_idx_dict, probe_idx_dict]
        | key k =>
            rw [probe_key_dict, probe_key_dict]
            have hk := h k
            generalize d.lookup k = x? at hk ⊢
            generalize e.lookup k = y? at hk ⊢
            cases hk with
            | none => rfl
            | some hxy => exact hxy p

theorem Same.sameContainer {s t u v : DataTree κ α} (hst : Same s t) (huv : Same u v)
    (h : SameContainer s u) : SameContainer t v :=
  sameContainer_of_node_eq hst.node_eq huv.node_eq h

end Paths

-- ============================================================================
-- Well-formedness and relabelling
-- ============================================================================

/-- No dictionary of the tree repeats a key. -/
inductive WF : DataTree κ α → Prop
  | atom (a) : WF (.atom a)
  | list {xs} : (∀ x ∈ xs, WF x) → WF (.list xs)
  | dict {kvs : List (κ × DataTree κ α)} : (kvs.map Prod.fst).Nodup →
      (∀ kv ∈ kvs, WF kv.2) → WF (.dict kvs)

theorem wf_dict_nodup {kvs : List (κ × DataTree κ α)} (h : (DataTree.dict kvs).WF) :
    (kvs.map Prod.fst).Nodup := by
  cases h with
  | dict hnd _ => exact hnd

theorem wf_get? [DecidableEq κ] {t u : DataTree κ α} {s : Step κ} (h : t.WF)
    (hu : t.get? [s] = some u) : u.WF := by
  cases h with
  | atom a => simp at hu
  | list hxs =>
      cases s with
      | key k => simp at hu
      | idx i =>
          rw [get?_idx_list] at hu
          obtain ⟨x, hx, hxu⟩ := Option.bind_eq_some_iff.mp hu
          rw [get?_nil, Option.some.injEq] at hxu
          subst hxu
          exact hxs x (List.mem_of_getElem? hx)
  | dict hnd hkvs =>
      cases s with
      | idx i => simp at hu
      | key k =>
          rw [get?_key_dict] at hu
          obtain ⟨x, hx, hxu⟩ := Option.bind_eq_some_iff.mp hu
          rw [get?_nil, Option.some.injEq] at hxu
          subst hxu
          exact hkvs (k, x) (Dict.mem_of_lookup hx)

/-- Apply `f` to every atom. -/
def map (f : α → β) : DataTree κ α → DataTree κ β
  | .atom a => .atom (f a)
  | .list xs => .list (xs.map fun x => map f x)
  | .dict kvs => .dict (kvs.map fun kv => (kv.1, map f kv.2))
decreasing_by
  · rename_i hx
    have := List.sizeOf_lt_of_mem hx
    simp only [list.sizeOf_spec]
    omega
  · rename_i hkv
    have := List.sizeOf_lt_of_mem hkv
    obtain ⟨k, v⟩ := kv
    simp only [Prod.mk.sizeOf_spec, dict.sizeOf_spec] at *
    omega

@[simp] theorem map_atom (f : α → β) (a : α) :
    (DataTree.atom a : DataTree κ α).map f = .atom (f a) := by
  rw [map]

@[simp] theorem map_list (f : α → β) (xs : List (DataTree κ α)) :
    (DataTree.list xs).map f = .list (xs.map fun x => map f x) := by
  rw [map]

@[simp] theorem map_dict (f : α → β) (kvs : List (κ × DataTree κ α)) :
    (DataTree.dict kvs).map f = .dict (kvs.map fun kv => (kv.1, map f kv.2)) := by
  rw [map]

theorem map_id (t : DataTree κ α) : t.map id = t := by
  induction t with
  | atom a => rw [map_atom, id]
  | list xs ih =>
      rw [map_list, List.map_congr_left ih, List.map_id']
  | dict kvs ih =>
      have hitems : ∀ kv ∈ kvs, (kv.1, map id kv.2) = kv := fun kv hkv => by rw [ih kv hkv]
      rw [map_dict, List.map_congr_left hitems, List.map_id']

theorem sameContainer_map (f : α → β) (s t : DataTree κ α) :
    SameContainer (s.map f) (t.map f) ↔ SameContainer s t := by
  cases s <;> cases t <;> simp [SameContainer]

end DataTree

end MLocust.Lib
