/-
  MLocust.Faker.LeafMerge

  What merging the partial tree of a row does to the leaves of that row and of the
  rows compatible with it, for a document that may hold anything else.

  - A leaf that is still there after its row is merged holds the merge of the
    generated value into what was there before (`leaf_of_merge`).
  - Merging a compatible row leaves a leaf as it is (`get?_merge_of_compat`).
  - The lists along a path keep what their lengths satisfy (`ListsAlong`); where
    they have the drawn lengths, no leaf is lost (`leaf_present`).
-/
import MLocust.Faker.TreePaths
import MLocust.Lib.ListsAlong

namespace MLocust.Faker

open Lib DataTree PyStr

variable {len : PyStr → Nat} {M : DocMerger} {o : Option Value} {b n r : Value}
  {c d : Comp} {cs ds : List Comp} {f g : List Nat → Value} {is : List Nat}

/-- Where one step leads to the same, so does every path that starts with it. -/
theorem get?_cons_congr {s : Step PyStr} (h : r.get? [s] = o.bind (get? [s]))
    (p : List (Step PyStr)) : r.get? (s :: p) = o.bind (get? (s :: p)) := by
  rw [get?_cons s p r, h]
  cases o with
  | none => rfl
  | some b => exact (get?_cons s p b).symm

/-- Where the first name of a path leads to the same, so does the path to each of its leaves. -/
theorem get?_place_congr (h : r.get? [.key c.name] = o.bind (get? [.key c.name]))
    (is : List Nat) : r.get? (place (c :: cs) is) = o.bind (get? (place (c :: cs) is)) := by
  rw [place]
  exact get?_cons_congr h _

/-- The empty document has no leaf. -/
theorem get?_place_empty (cs : List Comp) (is : List Nat) :
    (DataTree.dict [] : Value).get? (place (cs ++ [c]) is) = none := by
  cases cs with
  | nil => rw [List.nil_append, place, get?_cons, get?_key_singleton]; rfl
  | cons a cs => rw [List.cons_append, place, get?_cons, get?_key_singleton]; rfl

/-- One step of merging a partial tree: what becomes of its branch. -/
theorem mergeInto_tree (h : M.mergeInto o (tree len (c :: cs) f) = .ok r) :
    ∃ z, M.mergeInto (o.bind (get? [.key c.name])) (branch len c cs f) = .ok z ∧
      r.get? [.key c.name] = some z ∧
      ∀ j, j ≠ c.name → r.get? [.key j] = o.bind (get? [.key j]) := by
  rw [tree_cons] at h
  obtain ⟨z, hz, rfl⟩ := Merger.mergeInto_key_eq_ok.mp h
  refine ⟨z, hz, ?_, fun j hj => ?_⟩
  · rw [get?_key_singleton, Dict.lookup_set_self]
  · rw [get?_key_singleton, Dict.lookup_set_ne (Ne.symm hj), bind_get?_key]

/-- The same for the elements of an array. -/
theorem mergeInto_branch (hc : c.array) (h : M.mergeInto o (branch len c cs f) = .ok r) :
    ∃ zs, r = .list zs ∧ zs.length = lengthOr o (len c.name) ∧ zs.length ≤ len c.name ∧
      ∀ (i : Nat) w, zs[i]? = some w → i < len c.name ∧
        M.mergeInto (o.bind (get? [.idx i])) (tree len cs fun is => f (i :: is)) = .ok w := by
  rw [branch_array hc] at h
  obtain ⟨zs, rfl, hlen, hle, hels⟩ := Merger.mergeInto_list zipmerge_isZip h
  rw [List.length_map, List.length_range] at hle hlen
  refine ⟨zs, rfl, hlen, hle, fun i w hw => ?_⟩
  obtain ⟨y, hy, hm⟩ := hels i w hw
  have hi : i < len c.name := by
    have hlt := (List.getElem?_eq_some_iff.mp hw).1
    omega
  rw [List.getElem?_map, List.getElem?_range hi, Option.map_some, Option.some.injEq] at hy
  rw [← hy] at hm
  exact ⟨hi, hm⟩

/-- An array can be merged where the list that is there is not too long, if its elements can. -/
theorem exists_mergeInto_branch (hc : c.array) (hlen : lengthOr o (len c.name) ≤ len c.name)
    (h : ∀ i < len c.name, ∃ z,
      M.mergeInto (o.bind (get? [.idx i])) (tree len cs fun is => f (i :: is)) = .ok z) :
    ∃ r, M.mergeInto o (branch len c cs f) = .ok r := by
  rw [branch_array hc]
  refine Merger.exists_mergeInto_list zipmerge_isZip ?_ fun i y hy => ?_
  · rw [List.length_map, List.length_range]
    exact hlen
  · have hi : i < len c.name := by
      have hlt := (List.getElem?_eq_some_iff.mp hy).1
      rwa [List.length_map, List.length_range] at hlt
    rw [List.getElem?_map, List.getElem?_range hi, Option.map_some, Option.some.injEq] at hy
    subst hy
    exact h i hi

/-- Merging an atom replaces what is there. -/
theorem mergeInto_of_isAtom (hn : n.IsAtom) : M.mergeInto o n = .ok n := by
  cases o with
  | none => rfl
  | some b => rw [M.mergeInto_some, M.merge_override (not_sameContainer_of_isAtom_right hn)]

theorem mergeInto_atom (hn : n.IsAtom) (h : M.mergeInto o n = .ok r) : r = n := by
  rw [mergeInto_of_isAtom hn] at h
  exact (Except.ok.inj h).symm

-- ============================================================================
-- The leaves of the merged row
-- ============================================================================

/-- A leaf that is there after its row is merged holds the merge of the row's value into
    what was there. -/
theorem leaf_of_merge (hm : M.mergeInto o (tree len cs f) = .ok r)
    (his : is ∈ indices len cs) {z : Value} (hz : r.get? (place cs is) = some z) :
    M.mergeInto (o.bind (get? (place cs is))) (f is) = .ok z := by
  induction cs generalizing o r f is with
  | nil =>
      rw [indices, List.mem_singleton] at his
      subst his
      rw [place, get?_nil, Option.some.injEq] at hz
      subst hz
      rw [place, show o.bind (get? []) = o by cases o <;> simp]
      exact hm
  | cons c cs ih =>
      obtain ⟨w, hw, hr, _⟩ := mergeInto_tree hm
      by_cases hc : c.array
      · obtain ⟨i, js, hi, hjs, rfl⟩ := (mem_indices_array hc).mp his
        obtain ⟨zs, rfl, _, _, hels⟩ := mergeInto_branch hc hw
        rw [place_array hc] at hz ⊢
        rw [get?_cons, hr, Option.bind_some, get?_cons, get?_idx_singleton] at hz
        -- the element is a merge of its own
        obtain ⟨w, hzi, hwz⟩ := Option.bind_eq_some_iff.mp hz
        rw [bind_get?_cons, bind_get?_cons]
        exact ih (hels i w hzi).2 hjs hwz
      · rw [indices_object hc] at his
        rw [branch_object hc] at hw
        rw [place_object hc, get?_cons, hr, Option.bind_some] at hz
        rw [place_object hc, bind_get?_cons]
        exact ih hw his hz

/-- A leaf position that the document already has is not lost when the row is merged. -/
theorem leaf_stays (hm : M.mergeInto o (tree len cs f) = .ok r) (his : is ∈ indices len cs)
    {v : Value} (hv : o.bind (get? (place cs is)) = some v) :
    ∃ z, r.get? (place cs is) = some z := by
  induction cs generalizing o r f is with
  | nil =>
      rw [indices, List.mem_singleton] at his
      subst his
      exact ⟨r, get?_nil r⟩
  | cons c cs ih =>
      obtain ⟨w, hw, hr, _⟩ := mergeInto_tree hm
      by_cases hc : c.array
      · obtain ⟨i, js, hi, hjs, rfl⟩ := (mem_indices_array hc).mp his
        obtain ⟨zs, rfl, hlen, _, hels⟩ := mergeInto_branch hc hw
        rw [place_array hc, bind_get?_cons, bind_get?_cons] at hv
        obtain ⟨x, hx, _⟩ := Option.bind_eq_some_iff.mp hv
        -- a merged list is at least as long as the old one
        have hlong : i < zs.length := by
          by_contra hge
          rw [bind_get?_idx_eq_none (m := len c.name) (by omega)] at hx
          cases hx
        have hzi := List.getElem?_eq_getElem hlong
        rw [place_array hc, get?_cons, hr, Option.bind_some, get?_cons, get?_idx_singleton, hzi,
          Option.bind_some]
        exact ih (hels i _ hzi).2 hjs hv
      · rw [indices_object hc] at his
        rw [branch_object hc] at hw
        rw [place_object hc, bind_get?_cons] at hv
        rw [place_object hc, get?_cons, hr, Option.bind_some]
        exact ih hw his hv

/-- Merging a compatible row leaves a leaf position as it is. -/
theorem get?_merge_of_compat (h : Compat cs ds) (hm : M.mergeInto o (tree len ds g) = .ok r)
    (his : is ∈ indices len cs) : r.get? (place cs is) = o.bind (get? (place cs is)) := by
  induction cs generalizing o r ds g is with
  | nil => exact h.elim
  | cons c cs ih =>
      cases ds with
      | nil => exact h.elim
      | cons d ds =>
          obtain ⟨w, hw, hr, hother⟩ := mergeInto_tree hm
          by_cases hname : c.name = d.name
          · obtain ⟨harr, hcompat⟩ := h.resolve_left (fun hne => hne hname)
            by_cases hc : c.array
            · have hd : d.array := harr ▸ hc
              obtain ⟨i, js, hi, hjs, rfl⟩ := (mem_indices_array hc).mp his
              obtain ⟨zs, rfl, hlen, _, hels⟩ := mergeInto_branch hd hw
              rw [place_array hc, hname, get?_cons, hr, Option.bind_some, get?_cons,
                get?_idx_singleton, bind_get?_cons, bind_get?_cons]
              cases hzi : zs[i]? with
              | some z => exact ih hcompat (hels i z hzi).2 hjs
              -- the merged list does not reach this far, so neither did the old one
              | none =>
                  have hshort : zs.length ≤ i := List.getElem?_eq_none_iff.mp hzi
                  rw [bind_get?_idx_eq_none (m := len d.name) (by omega)]
            · have hd : ¬ d.array := fun hd => hc (harr ▸ hd)
              rw [indices_object hc] at his
              rw [branch_object hd] at hw
              rw [place_object hc, hname, get?_cons, hr, Option.bind_some, bind_get?_cons]
              exact ih hcompat hw his
          -- the merge changes nothing under another name
          · exact get?_place_congr (hother c.name hname) is

/-- Merging compatible rows leaves a leaf position as it is. -/
theorem get?_mergeAll_of_compat {rs : List Filled} {doc doc' : Value}
    (h : ∀ r ∈ rs, Compat cs r.path) (hm : mergeAll M len doc rs = .ok doc')
    (his : is ∈ indices len cs) : doc'.get? (place cs is) = doc.get? (place cs is) := by
  induction rs generalizing doc with
  | nil =>
      cases hm
      rfl
  | cons r rs ih =>
      obtain ⟨hr, hrs⟩ := List.forall_mem_cons.mp h
      obtain ⟨d, hd, hrest⟩ := mergeAll_cons_eq_ok.mp hm
      rw [ih hrs hrest]
      exact get?_merge_of_compat (o := some doc) hr hd his

-- ============================================================================
-- The lists along a path
-- ============================================================================

section ListsAlong

variable {R : PyStr → Nat → Prop} {k : PyStr} {ks : List PyStr}

/-- The lists of a partial tree have the drawn lengths, along any names at which the row has
    no leaf with further structure. -/
theorem listsAlong_tree (hlen : ∀ k ∈ arrayNames cs, R k (len k))
    (hleaf : names cs <+: ks → ∀ is ∈ indices len cs, (f is).IsAtom) :
    ListsAlong R ks (tree len cs f) := by
  induction ks generalizing cs f with
  | nil => trivial
  | cons k ks ih =>
      cases cs with
      | nil => exact listsAlong_atom (hleaf List.nil_prefix [] List.mem_cons_self)
      | cons c cs =>
          intro v hv
          by_cases hk : k = c.name
          · subst hk
            rw [get?_tree_name, Option.some.injEq] at hv
            have hpre : names cs <+: ks → names (c :: cs) <+: c.name :: ks :=
              fun h => List.cons_prefix_cons.mpr ⟨rfl, h⟩
            by_cases hc : c.array
            -- array: the list has the drawn length, and its elements are trees of the rest
            · rw [arrayNames_array hc] at hlen
              rw [branch_array hc] at hv
              subst hv
              refine ⟨listsAlong_list _, ?_⟩
              rintro xs hxs
              cases hxs
              rw [List.length_map, List.length_range]
              refine ⟨hlen c.name List.mem_cons_self, fun x hx => ?_⟩
              obtain ⟨i, hi, rfl⟩ := List.mem_map.mp hx
              refine ih (fun k hk => hlen k (List.mem_cons_of_mem _ hk)) fun h is his => ?_
              refine hleaf (hpre h) (i :: is) ((mem_indices_array hc).mpr ?_)
              exact ⟨i, is, List.mem_range.mp hi, his, rfl⟩
            -- object: no list here, and the tree of the rest below
            · rw [arrayNames_object hc] at hlen
              rw [branch_object hc] at hv
              subst hv
              have hleaf' : names cs <+: ks → ∀ is ∈ indices len cs, (f is).IsAtom := by
                intro h is his
                exact hleaf (hpre h) is (by rwa [indices_object hc])
              refine ⟨ih hlen hleaf', fun xs hxs => ?_⟩
              cases cs with
              | nil =>
                  -- a leaf at the end of the names is an atom
                  have hatom := hleaf' List.nil_prefix [] List.mem_cons_self
                  rw [tree] at hxs
                  rw [hxs] at hatom
                  exact hatom.elim
              | cons c' cs =>
                  rw [tree_cons] at hxs
                  cases hxs
          -- the tree has nothing under another name
          · rw [get?_tree_ne hk] at hv
            cases hv

/-- The document keeps what its lists along a path satisfy as long as the rows do. -/
theorem listsAlong_mergeAll {rs : List Filled} {doc doc' : Value}
    (hdoc : ListsAlong R ks doc) (hrs : ∀ r ∈ rs, ListsAlong R ks (r.tree len))
    (hm : mergeAll M len doc rs = .ok doc') : ListsAlong R ks doc' := by
  induction rs generalizing doc with
  | nil =>
      cases hm
      exact hdoc
  | cons r rs ih =>
      obtain ⟨hr, hrs⟩ := List.forall_mem_cons.mp hrs
      obtain ⟨d, hd, hrest⟩ := mergeAll_cons_eq_ok.mp hm
      exact ih (Merger.listsAlong_merge zipmerge_isZip r.wf_tree hdoc hr hd) hrs hrest

end ListsAlong

/-- What the lists along some names satisfy passes on to what is there under the first one. -/
theorem listsAlong_of_key {R : PyStr → Nat → Prop} {k : PyStr} {ks : List PyStr} {v : Value}
    (ho : ∀ b, o = some b → ListsAlong R (k :: ks) b) (hv : o.bind (get? [.key k]) = some v) :
    ListsAlong R ks v ∧ ∀ xs, v = .list xs → R k xs.length ∧ ∀ x ∈ xs, ListsAlong R ks x := by
  obtain ⟨b, hb, hbv⟩ := Option.bind_eq_some_iff.mp hv
  exact ho b hb v hbv

/-- What the lists along some names satisfy passes on to an element of a list. -/
theorem listsAlong_of_idx {R : PyStr → Nat → Prop} {ks : List PyStr} {x : Value} {i : Nat}
    (ho : ∀ v, o = some v → ∀ xs, v = .list xs → ∀ x ∈ xs, ListsAlong R ks x)
    (hx : o.bind (get? [.idx i]) = some x) : ListsAlong R ks x := by
  obtain ⟨v, hv, hvx⟩ := Option.bind_eq_some_iff.mp hx
  obtain ⟨xs, rfl⟩ := exists_list_of_get?_idx hvx
  rw [get?_idx_singleton] at hvx
  exact ho _ hv xs rfl x (List.mem_of_getElem? hvx)

/-- Where the lists along a path have the drawn lengths, merging the row of that path puts
    all its leaves in place. -/
theorem leaf_present (hc : ¬ c.array)
    (hb : ∀ b, o = some b → ListsAlong (fun k n => n = len k) (names cs) b)
    (hm : M.mergeInto o (tree len (cs ++ [c]) f) = .ok r)
    (his : is ∈ indices len (cs ++ [c])) : ∃ z, r.get? (place (cs ++ [c]) is) = some z := by
  induction cs generalizing o r f is with
  | nil =>
      obtain ⟨z, _, hr, _⟩ := mergeInto_tree hm
      refine ⟨z, ?_⟩
      rw [List.nil_append, place_object hc, place]
      exact hr
  | cons a cs ih =>
      rw [List.cons_append] at hm his ⊢
      obtain ⟨w, hw, hr, _⟩ := mergeInto_tree hm
      have hchild := fun v hv => listsAlong_of_key (v := v) hb hv
      by_cases ha : a.array
      · obtain ⟨i, js, hi, hjs, rfl⟩ := (mem_indices_array ha).mp his
        obtain ⟨zs, rfl, hlen, _, hels⟩ := mergeInto_branch ha hw
        -- the list is as long as drawn, whether it was there or not
        have hlong : i < zs.length := by
          rw [hlen]
          refine lengthOr_of (P := (i < ·)) hi fun xs hx => ?_
          have hdrawn := ((hchild _ hx).2 xs rfl).1
          omega
        have hzi := List.getElem?_eq_getElem hlong
        rw [place_array ha, get?_cons, hr, Option.bind_some, get?_cons, get?_idx_singleton, hzi,
          Option.bind_some]
        exact ih (fun x hx => listsAlong_of_idx (fun v hv xs hxs => ((hchild v hv).2 xs hxs).2) hx)
          (hels i _ hzi).2 hjs
      · rw [indices_object ha] at his
        rw [branch_object ha] at hw
        rw [place_object ha, get?_cons, hr, Option.bind_some]
        exact ih (fun v hv => (hchild v hv).1) hw his

/-- The lists along a path are no longer than drawn once its row is merged. -/
theorem listsAlong_of_merge (hm : M.mergeInto o (tree len (cs ++ [c]) f) = .ok r) :
    ListsAlong (fun k n => n ≤ len k) (names cs) r := by
  induction cs generalizing o r f with
  | nil => trivial
  | cons a cs ih =>
      rw [List.cons_append] at hm
      obtain ⟨z, hz, hr, _⟩ := mergeInto_tree hm
      intro v hv
      rw [hr, Option.some.injEq] at hv
      subst hv
      by_cases ha : a.array
      -- array: the merged list is no longer than the new one
      · obtain ⟨zs, rfl, _, hle, hels⟩ := mergeInto_branch ha hz
        refine ⟨listsAlong_list zs, ?_⟩
        rintro xs hxs
        cases hxs
        refine ⟨hle, fun x hx => ?_⟩
        obtain ⟨i, hi⟩ := List.mem_iff_getElem?.mp hx
        exact ih (hels i x hi).2
      · rw [branch_object ha] at hz
        refine ⟨ih hz, ?_⟩
        rintro xs rfl
        -- below an object component the merged tree is a dictionary
        obtain ⟨a', cs', hcs⟩ := List.exists_cons_of_ne_nil (List.append_ne_nil_of_right_ne_nil cs
          (List.cons_ne_nil c []))
        rw [hcs] at hz
        obtain ⟨_, _, hkey, _⟩ := mergeInto_tree hz
        rw [get?_key_list] at hkey
        cases hkey

/-- A row can be merged where the lists along its path are not too long and its values can be
    merged into what is there. -/
theorem exists_mergeInto_tree (hc : ¬ c.array)
    (hb : ∀ b, o = some b → ListsAlong (fun k n => n ≤ len k) (names cs) b)
    (hleaf : ∀ is ∈ indices len (cs ++ [c]),
      ∃ z, M.mergeInto (o.bind (get? (place (cs ++ [c]) is))) (f is) = .ok z) :
    ∃ r, M.mergeInto o (tree len (cs ++ [c]) f) = .ok r := by
  induction cs generalizing o f with
  | nil =>
      have his : [] ∈ indices len [c] := by
        rw [indices_object hc]
        exact List.mem_cons_self
      have hroot := hleaf [] his
      rw [List.nil_append, place_object hc] at hroot
      obtain ⟨z, hz⟩ := hroot
      rw [List.nil_append, tree_cons, branch_object hc]
      exact ⟨_, Merger.mergeInto_key_eq_ok.mpr ⟨z, hz, rfl⟩⟩
  | cons a cs ih =>
      rw [List.cons_append] at hleaf ⊢
      have hchild := fun v hv => listsAlong_of_key (v := v) hb hv
      -- a tree holds one key, so all depends on what is merged under it
      suffices hbranch : ∃ z, M.mergeInto (o.bind (get? [.key a.name]))
          (branch len a (cs ++ [c]) f) = .ok z by
        obtain ⟨z, hz⟩ := hbranch
        exact ⟨_, Merger.mergeInto_key_eq_ok.mpr ⟨z, hz, rfl⟩⟩
      by_cases ha : a.array
      · refine exists_mergeInto_branch ha ?_ fun i hi => ?_
        -- what is there is no longer than the new list
        · refine lengthOr_of (P := (· ≤ len a.name)) (Nat.le_refl _) fun xs hx => ?_
          exact ((hchild _ hx).2 xs rfl).1
        -- and each of its elements takes the rest of the tree
        · refine ih (fun x hx => ?_) fun js hjs => ?_
          · exact listsAlong_of_idx (fun v hv xs hxs => ((hchild v hv).2 xs hxs).2) hx
          · have hmem := (mem_indices_array ha).mpr ⟨i, js, hi, hjs, rfl⟩
            have hz := hleaf (i :: js) hmem
            rw [place_array ha, bind_get?_cons, bind_get?_cons] at hz
            exact hz
      · rw [branch_object ha]
        refine ih (fun v hv => (hchild v hv).1) fun js hjs => ?_
        have hz := hleaf js (by rwa [indices_object ha])
        rw [place_object ha, bind_get?_cons] at hz
        exact hz

end MLocust.Faker
