/-
  MLocust.Faker.Reference

  The document that the row loop builds, against the reference tree of the model.

  The reference tree holds the entries (concrete path and generated value) of the
  rows that survive: those that no later row conflicts with.  `Shows` is the loop
  invariant: the document so far shows exactly the trees of the rows surviving so
  far.  One merge keeps it (`shows_merge`), hence a whole run ends in the reference
  tree (`document_is_reference_tree`), as long as a value that a row puts where
  another row's tree already lies covers what it meets (`Settled`).  The entries
  determine a document up to key order (`IsTreeOf.same`).
-/
import MLocust.Faker.TreePaths
import Mathlib.Data.List.Nodup
import Mathlib.Data.List.Pairwise

namespace MLocust.Faker

open Lib Lib.Program DataTree PyStr

-- ============================================================================
-- The reference tree
-- ============================================================================

instance (p q : List Comp) : Decidable (Conflict p q) := decidable_of_iff _ not_compat_iff

/-- The rows that no later row conflicts with. -/
def survivors : List Filled → List Filled
  | [] => []
  | r :: rs => if ∃ r' ∈ rs, Conflict r.path r'.path then survivors rs else r :: survivors rs

/-- The entries of the rows: every concrete path with its generated value. -/
def entries (len : PyStr → Nat) (rs : List Filled) : List (List (Step PyStr) × Value) :=
  rs.flatMap fun r => (indices len r.path).map fun is => (place r.path is, (r.value is).val)

/-- The document holds exactly the given entries. -/
structure IsTreeOf (es : List (List (Step PyStr) × Value)) (doc : Value) : Prop where
  root : doc.node = .dict
  entry : ∀ e ∈ es, ∃ v, doc.get? e.1 = some v ∧ Same v e.2
  covered : ∀ q, doc.probe q ≠ none → q = [] ∨ ∃ e ∈ es, q <+: e.1 ∨ e.1 <+: q

/-- No entry lies at or below another. -/
def Apart (es : List (List (Step PyStr) × Value)) : Prop :=
  es.Pairwise fun e e' => ¬ e.1 <+: e'.1 ∧ ¬ e'.1 <+: e.1

/-- Where the later row `r` puts a value on the tree of `s`, or its tree on a value of `s`,
    it covers what it meets. -/
def Settled (len : PyStr → Nat) (s r : Filled) : Prop :=
  ∀ p u v, IsPlace len s.path p ∨ IsPlace len r.path p →
    (s.tree len).get? p = some u → (r.tree len).get? p = some v → Covers u v

/-- Every row is settled with the rows before it that survive up to it. -/
def AllSettled (len : PyStr → Nat) (rs : List Filled) : Prop :=
  ∀ pre r post, rs = pre ++ r :: post → ∀ s ∈ survivors pre, Settled len s r

-- ============================================================================
-- Survivors
-- ============================================================================

theorem mem_of_mem_survivors {r : Filled} {rs : List Filled} (h : r ∈ survivors rs) : r ∈ rs := by
  induction rs with
  | nil => exact h
  | cons a rs ih =>
      rw [survivors] at h
      split at h
      · exact List.mem_cons_of_mem _ (ih h)
      · rcases List.mem_cons.mp h with rfl | h
        · exact List.mem_cons_self
        · exact List.mem_cons_of_mem _ (ih h)

theorem survivors_pairwise (rs : List Filled) :
    (survivors rs).Pairwise fun r r' => Compat r.path r'.path := by
  induction rs with
  | nil => exact .nil
  | cons a rs ih =>
      rw [survivors]
      split
      · exact ih
      · rename_i hnone
        refine .cons (fun r hr => ?_) ih
        by_contra hc
        exact hnone ⟨r, mem_of_mem_survivors hr, not_compat_iff.mp hc⟩

/-- A new last row survives, with those rows before it that it is compatible with. -/
theorem survivors_append (rs : List Filled) (r : Filled) :
    survivors (rs ++ [r]) = (survivors rs).filter (fun s => Compat s.path r.path) ++ [r] := by
  induction rs with
  | nil => simp [survivors]
  | cons a rs ih =>
      rw [List.cons_append, survivors, survivors, ih]
      have hmem : (∃ r' ∈ rs ++ [r], Conflict a.path r'.path) ↔
          (∃ r' ∈ rs, Conflict a.path r'.path) ∨ Conflict a.path r.path := by
        simp [or_and_right, exists_or]
      by_cases hrs : ∃ r' ∈ rs, Conflict a.path r'.path
      · rw [if_pos hrs, if_pos (hmem.mpr (Or.inl hrs))]
      · rw [if_neg hrs]
        by_cases hr : Conflict a.path r.path
        · have hc : ¬ Compat a.path r.path := not_compat_iff.mpr hr
          rw [if_pos (hmem.mpr (Or.inr hr)), List.filter_cons_of_neg (by simpa using hc)]
        · have hc : Compat a.path r.path := by
            by_contra hc
            exact hr (not_compat_iff.mp hc)
          have hno : ¬ ∃ r' ∈ rs ++ [r], Conflict a.path r'.path :=
            fun h => (hmem.mp h).elim hrs hr
          rw [if_neg hno, List.filter_cons_of_pos (by simpa using hc), List.cons_append]

-- ============================================================================
-- The loop invariant
-- ============================================================================

section Loop

variable {len : PyStr → Nat} {M : DocMerger} {doc doc' : Value} {r : Filled} {rs : List Filled}

/-- The document shows the trees of the given rows, and nothing else but its root. -/
def Shows (len : PyStr → Nat) (rs : List Filled) (doc : Value) : Prop :=
  ∀ q x, doc.probe q = some x ↔
    (q = [] ∧ x = .dict) ∨ ∃ r ∈ rs, (r.tree len).probe q = some x

theorem Shows.empty : Shows len [] (.dict []) := by
  intro q x
  cases q with
  | nil => simp [node, eq_comm]
  | cons s q =>
      have hnone : (DataTree.dict [] : Value).probe (s :: q) = none := by
        cases s with
        | key k => simp
        | idx i => simp
      simp [hnone]

/-- A row of the document shows what the document shows, at every path it has. -/
theorem Shows.probe_eq (h : Shows len rs doc) (hr : r ∈ rs) {p q : List (Step PyStr)}
    {x : Node Atom} (hpq : p <+: q) (hx : (r.tree len).probe q = some x) :
    doc.probe p = (r.tree len).probe p := by
  cases hp : (r.tree len).probe p with
  | none =>
      rw [probe_eq_none_of_isPrefix hpq hp] at hx
      cases hx
  | some y => exact (h p y).mpr (Or.inr ⟨r, hr, hp⟩)

theorem tree_node {r : Filled} (h : r.path ≠ []) : (r.tree len).node = .dict := by
  obtain ⟨c, cs, hcs⟩ := List.exists_cons_of_ne_nil h
  rw [Filled.tree, valueTree, hcs]
  rfl

/-- Meeting rows that are settled have their lists in common, and nothing of the earlier one
    is kept that does not belong to a compatible path. -/
theorem Settled.length_eq {s : Filled} (h : Settled len s r) {p : List (Step PyStr)} {i j : Nat}
    (hi : (s.tree len).probe p = some (.list i)) (hj : (r.tree len).probe p = some (.list j)) :
    i = j := by
  rcases length_eq_or_meet hi hj with heq | ⟨p', q', u, v, rfl, hplace, hu, hv⟩
  · exact heq
  · rw [probe_append, Filled.tree, valueTree, hu] at hi
    rw [probe_append, Filled.tree, valueTree, hv] at hj
    exact (h p' u v hplace hu hv).aligned q' q' (List.prefix_refl q') i j hi hj

theorem Settled.compat_of_kept {s : Filled} (h : Settled len s r) {q : List (Step PyStr)}
    {x : Node Atom} (hk : Kept q (s.tree len) (r.tree len))
    (hx : (s.tree len).probe q = some x) : Compat s.path r.path := by
  rcases compat_or_meet_of_kept hk hx with hcompat | ⟨p, q', u, v, rfl, hplace, hu, hv⟩
  · exact hcompat
  · rw [Filled.tree, Filled.tree, valueTree, valueTree, kept_append hu hv] at hk
    rw [probe_append, Filled.tree, valueTree, hu, Option.bind_some,
      (h p u v hplace hu hv).probe_eq_none hk] at hx
    cases hx

/-- **One merge keeps the invariant.** -/
theorem shows_merge (h : Shows len rs doc) (hpath : r.path ≠ [])
    (hset : ∀ s ∈ rs, Settled len s r) :
    ∃ doc', M.merge doc (r.tree len) = .ok doc' ∧
      Shows len (rs.filter (fun s => Compat s.path r.path) ++ [r]) doc' := by
  -- settled rows agree on the lengths of lists, so the merge does not raise
  have hal : Aligned doc (r.tree len) := by
    intro q p _ i j hi hj
    rcases (h p (.list i)).mp hi with ⟨_, hdict⟩ | ⟨s, hs, hi⟩
    · cases hdict
    · exact (hset s hs).length_eq hi hj
  obtain ⟨doc', hm⟩ := Merger.exists_merge (M := M) zipmerge_isZip r.wf_tree hal
  refine ⟨doc', hm, fun q x => ?_⟩
  rw [Merger.probe_merge zipmerge_isZip r.wf_tree hm (hal q)]
  constructor
  -- what the merged document shows is new, or kept from a row that survives
  · rintro (hr | ⟨hk, hx⟩)
    · exact Or.inr ⟨r, by simp, hr⟩
    · rcases (h q x).mp hx with ⟨rfl, _⟩ | ⟨s, hs, hsx⟩
      · exact absurd hk not_kept_nil
      · have hks : Kept q (s.tree len) (r.tree len) :=
          hk.congr_left fun p hpq => h.probe_eq hs hpq hsx
        have hcompat := (hset s hs).compat_of_kept hks hsx
        exact Or.inr ⟨s, by simp [hs, hcompat], hsx⟩
  -- the new row shows all it has, and a row that survives loses nothing
  · rintro (⟨rfl, rfl⟩ | ⟨s, hs, hsx⟩)
    · left
      rw [probe_nil, tree_node hpath]
    · rcases List.mem_append.mp hs with hs | hs
      · obtain ⟨hs, hcompat⟩ := List.mem_filter.mp hs
        have hcompat : Compat s.path r.path := by simpa using hcompat
        rcases probe_or_kept_of_compat hcompat hsx with hrx | hks
        · exact Or.inl hrx
        · refine Or.inr ⟨?_, (h q x).mpr (Or.inr ⟨s, hs, hsx⟩)⟩
          exact hks.congr_left fun p hpq => (h.probe_eq hs hpq hsx).symm
      · rw [List.mem_singleton.mp hs] at hsx
        exact Or.inl hsx

/-- A whole run of merges ends in a document that shows the surviving rows. -/
theorem mergeAll_shows (hpath : ∀ r ∈ rs, r.path ≠ []) (hset : AllSettled len rs) :
    ∃ doc, mergeAll M len (.dict []) rs = .ok doc ∧ Shows len (survivors rs) doc := by
  induction rs using List.reverseRecOn with
  | nil => exact ⟨_, rfl, .empty⟩
  | append_singleton rs r ih =>
      have hset' : AllSettled len rs := by
        intro pre r' post hrs
        exact hset pre r' (post ++ [r]) (by rw [hrs]; simp)
      obtain ⟨doc, hdoc, hshows⟩ := ih (fun s hs => hpath s (by simp [hs])) hset'
      obtain ⟨doc', hm, hshows'⟩ := shows_merge (M := M) hshows (hpath r (by simp))
        (hset rs r [] rfl)
      refine ⟨doc', mergeAll_append_eq_ok.mpr ⟨doc, hdoc, ?_⟩, ?_⟩
      · exact mergeAll_cons_eq_ok.mpr ⟨doc', hm, rfl⟩
      · rw [survivors_append]
        exact hshows'

end Loop

-- ============================================================================
-- From the invariant to the reference tree
-- ============================================================================

section Entries

variable {len : PyStr → Nat} {doc : Value} {rs : List Filled}

theorem mem_entries {e : List (Step PyStr) × Value} :
    e ∈ entries len rs ↔ ∃ r ∈ rs, ∃ is ∈ indices len r.path,
      e = (place r.path is, (r.value is).val) := by
  simp only [entries, List.mem_flatMap, List.mem_map, eq_comm]

/-- Compatible rows share no position from a leaf of one of them on. -/
theorem probe_place_of_compat {r s : Filled} (h : Compat r.path s.path)
    {p q : List (Step PyStr)} (hp : IsPlace len s.path p) :
    (r.tree len).probe (p ++ q) = none := by
  by_contra hx
  obtain ⟨x, hx⟩ := Option.ne_none_iff_exists'.mp hx
  rw [probe_append] at hx
  obtain ⟨u, hu, _⟩ := Option.bind_eq_some_iff.mp hx
  obtain ⟨is, his, rfl⟩ := hp
  exact not_meet_of_compat h ⟨_, [], u, _, (List.append_nil _).symm, Or.inr ⟨is, his, rfl⟩, hu,
    get?_place (f := fun is => (s.value is).val) his⟩

theorem isTreeOf_of_shows (h : Shows len rs doc) (hpath : ∀ r ∈ rs, r.path ≠ [])
    (hcompat : rs.Pairwise fun r r' => Compat r.path r'.path)
    (hlen : ∀ r ∈ rs, ∀ k ∈ arrayNames r.path, 0 < len k) :
    IsTreeOf (entries len rs) doc where
  root := by
    have hroot := (h [] .dict).mpr (Or.inl ⟨rfl, rfl⟩)
    rwa [probe_nil, Option.some.injEq] at hroot
  entry := by
    intro e he
    obtain ⟨r, hr, is, his, rfl⟩ := mem_entries.mp he
    have hleaf : (r.tree len).get? (place r.path is) = some (r.value is).val :=
      get?_place (f := fun is => (r.value is).val) his
    have hnode := (h _ _).mpr (Or.inr ⟨r, hr, probe_of_get? hleaf⟩)
    obtain ⟨v, hv, _⟩ := Option.map_eq_some_iff.mp hnode
    refine ⟨v, hv, fun q => Option.ext fun x => ?_⟩
    have hdoc : v.probe q = doc.probe (place r.path is ++ q) := by
      rw [probe_append, hv, Option.bind_some]
    have htree : (r.value is).val.probe q = (r.tree len).probe (place r.path is ++ q) := by
      rw [probe_append, hleaf, Option.bind_some]
    rw [hdoc, htree]
    constructor
    · intro hx
      rcases (h _ x).mp hx with ⟨hnil, _⟩ | ⟨s, hs, hsx⟩
      · obtain ⟨c, cs, hcs⟩ := List.exists_cons_of_ne_nil (hpath r hr)
        rw [hcs] at hnil
        cases hnil
      -- what is seen at an entry's place comes from its own row: the other rows that
      -- survive are compatible with it and hold nothing there
      · by_cases hrs : s = r
        · rwa [hrs] at hsx
        · have hsymm : Std.Symm fun r r' : Filled => Compat r.path r'.path :=
            ⟨fun _ _ h => h.symm⟩
          have hsr : Compat s.path r.path := hcompat.forall hs hr hrs
          rw [probe_place_of_compat hsr ⟨is, his, rfl⟩] at hsx
          cases hsx
    · exact fun hx => (h _ x).mpr (Or.inr ⟨r, hr, hx⟩)
  covered := by
    intro q hq
    obtain ⟨x, hx⟩ := Option.ne_none_iff_exists'.mp hq
    rcases (h q x).mp hx with ⟨rfl, _⟩ | ⟨r, hr, hrx⟩
    · exact Or.inl rfl
    -- whatever a row holds is on the way to one of its leaves or below one
    · obtain ⟨p, ⟨is, his, rfl⟩, hpq⟩ := place_of_probe (hlen r hr) hrx
      exact Or.inr ⟨_, mem_entries.mpr ⟨r, hr, is, his, rfl⟩, hpq⟩

/-- Distinct leaves of one path are apart. -/
theorem place_inj {cs : List Comp} {is js : List Nat} (his : is ∈ indices len cs)
    (hjs : js ∈ indices len cs) (h : place cs is <+: place cs js) : is = js := by
  by_contra hne
  -- a tree that marks the first leaf shows that the second is not below it
  let f : List Nat → Value := fun ks => .atom (.int (if ks = is then 0 else 1))
  have hi : (tree len cs f).get? (place cs is) = some (f is) := get?_place his
  have hj : (tree len cs f).get? (place cs js) = some (f js) := get?_place hjs
  obtain ⟨q, hq⟩ := h
  rw [← hq, get?_append, hi, Option.bind_some] at hj
  cases q with
  | nil => simp [f, Ne.symm hne] at hj
  | cons s q => simp [f] at hj

theorem indices_nodup (len : PyStr → Nat) (cs : List Comp) : (indices len cs).Nodup := by
  induction cs with
  | nil => exact List.nodup_singleton []
  | cons c cs ih =>
      by_cases hc : c.array
      · rw [indices_array hc, List.nodup_flatMap]
        refine ⟨fun i _ => ih.map (fun a b hab => (List.cons_eq_cons.mp hab).2), ?_⟩
        refine List.nodup_range.imp fun {i j} hij => ?_
        intro is hi hj
        obtain ⟨a, _, rfl⟩ := List.mem_map.mp hi
        obtain ⟨b, _, hb⟩ := List.mem_map.mp hj
        exact hij (List.cons_eq_cons.mp hb).1.symm
      · rw [indices_object hc]
        exact ih

/-- The entries of pairwise compatible rows are apart. -/
theorem entries_apart (hcompat : rs.Pairwise fun r r' => Compat r.path r'.path) :
    Apart (entries len rs) := by
  rw [Apart, entries, List.pairwise_flatMap]
  constructor
  -- entries of one row: different indices
  · intro r _
    rw [List.pairwise_map]
    refine (indices_nodup len r.path).imp_of_mem fun {is js} his hjs hne => ⟨?_, ?_⟩
    · exact fun h => hne (place_inj his hjs h)
    · exact fun h => hne (place_inj hjs his h).symm
  -- entries of two rows: where one has an entry, the other holds nothing
  · refine hcompat.imp fun {r s} hrs => ?_
    intro e he e' he'
    obtain ⟨is, his, rfl⟩ := List.mem_map.mp he
    obtain ⟨js, hjs, rfl⟩ := List.mem_map.mp he'
    constructor
    · rintro ⟨q, hq⟩
      have hnone : (s.tree len).probe (place r.path is ++ q) = none :=
        probe_place_of_compat hrs.symm ⟨is, his, rfl⟩
      rw [hq] at hnone
      have hleaf : (s.tree len).get? (place s.path js) = some (s.value js).val :=
        get?_place (f := fun is => (s.value is).val) hjs
      rw [probe_of_get? hleaf] at hnone
      cases hnone
    · rintro ⟨q, hq⟩
      have hnone : (r.tree len).probe (place s.path js ++ q) = none :=
        probe_place_of_compat hrs ⟨js, hjs, rfl⟩
      rw [hq] at hnone
      have hleaf : (r.tree len).get? (place r.path is) = some (r.value is).val :=
        get?_place (f := fun is => (r.value is).val) his
      rw [probe_of_get? hleaf] at hnone
      cases hnone

end Entries

-- ============================================================================
-- The reference tree is unique
-- ============================================================================

section Unique

variable {es : List (List (Step PyStr) × Value)} {doc doc' : Value}

/-- Every position of one tree of the entries is a position of the other. -/
theorem IsTreeOf.probe_ne_none (h : IsTreeOf es doc) (h' : IsTreeOf es doc')
    {q : List (Step PyStr)} (hq : doc.probe q ≠ none) : doc'.probe q ≠ none := by
  rcases h.covered q hq with rfl | ⟨e, he, hpre | ⟨r, rfl⟩⟩
  · simp
  · obtain ⟨v, hv, _⟩ := h'.entry e he
    intro hnone
    have := probe_eq_none_of_isPrefix hpre hnone
    rw [probe_of_get? hv] at this
    cases this
  · obtain ⟨v, hv, hsame⟩ := h.entry e he
    obtain ⟨v', hv', hsame'⟩ := h'.entry e he
    rw [probe_append, hv, Option.bind_some, hsame] at hq
    rw [probe_append, hv', Option.bind_some, hsame']
    exact hq

theorem node_eq_of_children {t t' : Value} {s : Step PyStr} {u u' : Value}
    (hu : t.get? [s] = some u) (hu' : t'.get? [s] = some u')
    (hidx : ∀ i, t.get? [.idx i] = none ↔ t'.get? [.idx i] = none) : t.node = t'.node := by
  have hc := sameContainer_of_get? hu hu'
  cases t' with
  | atom a => exact absurd hc (not_sameContainer_of_isAtom_right trivial)
  | dict d' =>
      obtain ⟨d, rfl⟩ := hc.exists_dict
      rfl
  | list ys =>
      obtain ⟨xs, rfl⟩ := hc.exists_list
      simp only [get?_idx_singleton, List.getElem?_eq_none_iff] at hidx
      have hle := (hidx ys.length).mpr (Nat.le_refl _)
      have hge := (hidx xs.length).mp (Nat.le_refl _)
      rw [node, node, Nat.le_antisymm hle hge]

/-- Two documents that hold exactly the same entries are the same up to key order. -/
theorem IsTreeOf.same (h : IsTreeOf es doc) (h' : IsTreeOf es doc') : Same doc doc' := by
  -- a concrete path leads nowhere, above an entry, to one, or below one
  intro q
  by_cases hq : doc.probe q = none
  · rw [hq]
    by_contra hne
    exact h'.probe_ne_none h (Ne.symm hne) hq
  · have hq' := h.probe_ne_none h' hq
    rcases h.covered q hq with rfl | ⟨e, he, ⟨r, hr⟩ | ⟨r, rfl⟩⟩
    · rw [probe_nil, probe_nil, h.root, h'.root]
    · obtain ⟨v, hv, hsame⟩ := h.entry e he
      obtain ⟨v', hv', hsame'⟩ := h'.entry e he
      cases r with
      | nil =>
          rw [List.append_nil] at hr
          rw [hr, probe_of_get? hv, probe_of_get? hv', hsame.node_eq, hsame'.node_eq]
      | cons s r =>
          -- strictly above an entry both documents have the same children
          obtain ⟨t, ht⟩ := Option.ne_none_iff_exists'.mp (fun hn => hq (probe_eq_none_iff.mpr hn))
          obtain ⟨t', ht'⟩ :=
            Option.ne_none_iff_exists'.mp (fun hn => hq' (probe_eq_none_iff.mpr hn))
          rw [← hr, get?_append, ht, Option.bind_some, get?_cons] at hv
          rw [← hr, get?_append, ht', Option.bind_some, get?_cons] at hv'
          obtain ⟨u, hu, _⟩ := Option.bind_eq_some_iff.mp hv
          obtain ⟨u', hu', _⟩ := Option.bind_eq_some_iff.mp hv'
          rw [probe_of_get? ht, probe_of_get? ht']
          refine congrArg some (node_eq_of_children hu hu' fun i => ?_)
          have hstep : ∀ {d : Value} {w : Value}, d.get? q = some w →
              (d.probe (q ++ [.idx i]) = none ↔ w.get? [.idx i] = none) := by
            intro d w hw
            rw [probe_append, hw, Option.bind_some, probe_eq_none_iff]
          rw [← hstep ht, ← hstep ht']
          constructor
          · intro hn
            by_contra hne
            exact h'.probe_ne_none h hne hn
          · intro hn
            by_contra hne
            exact h.probe_ne_none h' hne hn
    -- below an entry both hold what the entry does
    · obtain ⟨v, hv, hsame⟩ := h.entry e he
      obtain ⟨v', hv', hsame'⟩ := h'.entry e he
      rw [probe_append, probe_append, hv, hv', Option.bind_some, Option.bind_some, hsame, hsame']

end Unique

-- ============================================================================
-- The document of a model
-- ============================================================================

theorem settled_of_compat {len : PyStr → Nat} {s r : Filled} (h : Compat s.path r.path) :
    Settled len s r :=
  fun p u v hplace hu hv =>
    absurd ⟨p, [], u, v, (List.append_nil p).symm, hplace, hu, hv⟩ (not_meet_of_compat h)

/-- Rows that are all compatible are settled. -/
theorem allSettled_of_pairwise {len : PyStr → Nat} {rs : List Filled}
    (h : rs.Pairwise fun r r' => Compat r.path r'.path) : AllSettled len rs := by
  rintro pre r post rfl s hs
  obtain ⟨_, _, hpre⟩ := List.pairwise_append.mp h
  exact settled_of_compat (hpre s (mem_of_mem_survivors hs) r List.mem_cons_self)

/-- **The document is the reference tree.**  Every run of the row loop draws and generates
    one value for each leaf of each row.  If the rows are settled, then the row loop
    returns as soon as everything is drawn and generated, with a document that holds
    exactly the entries of the surviving rows, which lie apart, and is determined by them up to
    key order.  As everywhere, values share no objects (`Gen`): the merger would change the
    two elements of `[{}]*2` at once. -/
theorem document_is_reference_tree (M : DocMerger) {rows : List Row}
    (hwalk : ∀ row ∈ rows, Walkable row.path) (s : DocState) :
    (∀ doc t, rowLoop M (.dict []) rows s = .ok doc t → ∃ rs, FilledBy rows s t rs) ∧
    ∀ t rs, FilledBy rows s t rs → AllSettled t.counts.len rs →
      ∃ doc, rowLoop M (.dict []) rows s = .ok doc t ∧
        IsTreeOf (entries t.counts.len (survivors rs)) doc ∧
        Apart (entries t.counts.len (survivors rs)) ∧
        ∀ doc', IsTreeOf (entries t.counts.len (survivors rs)) doc' → Same doc doc' := by
  refine ⟨fun doc t h => ?_, fun t rs hfill hset => ?_⟩
  · obtain ⟨_, rs, hfill, _⟩ := rowLoop_eq_ok.mp h
    exact ⟨rs, hfill⟩
  -- each filled path is the path of a row, so it has components and drawn lengths
  · have hrow : ∀ r ∈ rs, ∃ row ∈ rows, comps row.path = r.path := by
      intro r hr
      have hmem : r.path ∈ rs.map Filled.path := List.mem_map_of_mem hr
      rw [hfill.1] at hmem
      exact List.mem_map.mp hmem
    have hpath : ∀ r ∈ rs, r.path ≠ [] := by
      intro r hr
      obtain ⟨row, hmem, heq⟩ := hrow r hr
      rw [← heq]
      exact comps_ne_nil (hwalk row hmem).ne_nil
    have hlen : ∀ r ∈ rs, ∀ k ∈ arrayNames r.path, 0 < t.counts.len k := by
      intro r hr k hk
      obtain ⟨row, hmem, heq⟩ := hrow r hr
      obtain ⟨n, hn⟩ := docValues_present hfill.2 row hmem k (heq ▸ hk)
      rw [Counts.len_of_some hn]
      exact n.pos
    obtain ⟨doc, hdoc, hshows⟩ := mergeAll_shows (M := M) hpath hset
    have htree : IsTreeOf (entries t.counts.len (survivors rs)) doc :=
      isTreeOf_of_shows hshows (fun r hr => hpath r (mem_of_mem_survivors hr))
        (survivors_pairwise rs) fun r hr => hlen r (mem_of_mem_survivors hr)
    exact ⟨doc, rowLoop_eq_ok.mpr ⟨hwalk, rs, hfill, hdoc⟩, htree,
      entries_apart (survivors_pairwise rs), fun doc' h => htree.same h⟩

/-- An array row with an identifier, and a scalar row. -/
def memberRows : List Row :=
  [⟨"members().ID".toList, .id "M".toList⟩, ⟨"count".toList, .ret (.int 2)⟩]

/-- The values of `memberRows` when two members are drawn in a fresh process. -/
def memberValues : List Filled :=
  [⟨[⟨"members".toList, true⟩, ⟨"ID".toList, false⟩], fun is => .str ('M' :: str (is.sum + 1))⟩,
    ⟨[⟨"count".toList, false⟩], fun _ => .int 2⟩]

/-- A fresh process whose random source draws lengths of 2. -/
def twoWorld : World := World.fresh fun _ => 1

/-- The end of the document: one length drawn, two identifiers issued. -/
def memberState : DocState :=
  ⟨Function.update Counts.empty "members".toList (some 2),
    (twoWorld.afterID "M".toList).afterID "M".toList⟩

theorem memberRows_filledBy :
    FilledBy memberRows (DocState.start twoWorld) memberState memberValues :=
  .cons (by decide) rfl (.cons (by decide) rfl (.nil memberState))

/-- The document of `memberRows` is their reference tree. -/
theorem memberRows_reference_tree :
    ∃ doc, rowLoop merger (.dict []) memberRows (DocState.start twoWorld) = .ok doc memberState ∧
      IsTreeOf (entries memberState.counts.len (survivors memberValues)) doc ∧
      Apart (entries memberState.counts.len (survivors memberValues)) ∧
      ∀ doc', IsTreeOf (entries memberState.counts.len (survivors memberValues)) doc' →
        Same doc doc' :=
  (document_is_reference_tree merger (by decide) _).2 _ _ memberRows_filledBy
    (allSettled_of_pairwise (by decide))

/-- Two rows with the same path whose generators return lists of different lengths. -/
def pointRows : List Row :=
  [⟨"point".toList, .ret (.list [.int 1])⟩, ⟨"point".toList, .ret (.list [.int 2, .int 3])⟩]

/-- The values of `pointRows`. -/
def pointValues : List Filled :=
  [⟨[⟨"point".toList, false⟩], fun _ => .list [.int 1]⟩,
    ⟨[⟨"point".toList, false⟩], fun _ => .list [.int 2, .int 3]⟩]

/-- A list value that a later row puts on a shorter list value is cut: the document does not
    hold the later row's entry. -/
theorem pointRows_not_reference_tree :
    (∀ row ∈ pointRows, Walkable row.path) ∧
    FilledBy pointRows (DocState.start twoWorld) (DocState.start twoWorld) pointValues ∧
    ∃ doc, rowLoop merger (.dict []) pointRows (DocState.start twoWorld) =
        .ok doc (DocState.start twoWorld) ∧
      ¬ IsTreeOf (entries (DocState.start twoWorld).counts.len (survivors pointValues)) doc := by
  have hwalk : ∀ row ∈ pointRows, Walkable row.path := by decide
  have hfill : FilledBy pointRows (DocState.start twoWorld) (DocState.start twoWorld)
      pointValues := .cons (by decide) rfl (.cons (by decide) rfl (.nil _))
  refine ⟨hwalk, hfill, .dict [("point".toList, .list [.atom (.int 2)])],
    rowLoop_eq_ok.mpr ⟨hwalk, pointValues, hfill, rfl⟩, fun h => ?_⟩
  obtain ⟨v, hv, hsame⟩ := h.entry
    ([.key "point".toList], .list [.atom (.int 2), .atom (.int 3)]) List.mem_cons_self
  cases hv
  cases hsame.node_eq

end MLocust.Faker
