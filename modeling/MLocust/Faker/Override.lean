/-
  MLocust.Faker.Override

  What a repeated row does to the values of the row before it.

  Two rows have the same path and no row after the first one conflicts with it
  otherwise.  Merging the second row then replaces what the document holds at the
  instances of the path exactly when each new value covers the old one
  (`repeated_row_overrides_iff`): scalars always do, lists and dictionaries only
  under conditions on their sizes and keys.
-/
import MLocust.Faker.LeafMerge

namespace MLocust.Faker

open Lib Lib.Program DataTree PyStr

variable {M : DocMerger}

/-- Merging the row and any of the rows after it leaves exactly the row's values at the
    instances of its path that the document has. -/
def Overrides (M : DocMerger) (d : Value) (row : Row) (post : List Row) (t : DocState)
    (partialTree : Value) (value : List Nat → PyValue) : Prop :=
  (∃ d', M.merge d partialTree = .ok d') ∧
    ∀ later doc w, later <+: post → rowLoop M d (row :: later) t = .ok doc w →
      ∀ is ∈ indices t.counts.len (comps row.path), ∀ v,
        doc.get? (place (comps row.path) is) = some v → Same v (value is).val

/-- One merge of a row replaces what the document holds exactly when its values cover it. -/
theorem merge_replaces_iff {len : PyStr → Nat} {cs : List Comp} {c : Comp} {d : Value}
    {g : List Nat → PyValue} (hc : ¬ c.array)
    (hd : ListsAlong (fun k n => n ≤ len k) (names cs) d) :
    (∃ d', M.merge d (valueTree len (cs ++ [c]) g) = .ok d' ∧
      ∀ is ∈ indices len (cs ++ [c]), ∀ v, d'.get? (place (cs ++ [c]) is) = some v →
        Same v (g is).val) ↔
    ∀ is ∈ indices len (cs ++ [c]), ∀ v, d.get? (place (cs ++ [c]) is) = some v →
      Covers v (g is).val := by
  constructor
  -- what the document holds at an instance is merged there, and the result is the
  -- row's value only if it covers
  · rintro ⟨d', hm, hsame⟩ is his v hv
    obtain ⟨z, hz⟩ := leaf_stays (o := some d) hm his hv
    have hleaf := leaf_of_merge (o := some d) hm his hz
    rw [Option.bind_some, hv, M.mergeInto_some] at hleaf
    exact Merger.covers_of_same zipmerge_isZip (g is).property hleaf (hsame is his z hz)
  · intro h
    -- no instance raises, and neither does the tree above them
    have hex : ∀ is ∈ indices len (cs ++ [c]),
        ∃ z, M.mergeInto ((some d).bind (get? (place (cs ++ [c]) is))) (g is).val = .ok z := by
      intro is his
      rw [Option.bind_some]
      cases hv : d.get? (place (cs ++ [c]) is) with
      | none => exact ⟨_, rfl⟩
      | some v =>
          exact Merger.exists_merge zipmerge_isZip (g is).property (h is his v hv).aligned
    obtain ⟨d', hm⟩ := exists_mergeInto_tree (M := M) (o := some d) hc
      (fun b hb => by cases hb; exact hd) hex
    refine ⟨d', hm, fun is his z hz => ?_⟩
    have hleaf := leaf_of_merge (o := some d) hm his hz
    rw [Option.bind_some] at hleaf
    cases hv : d.get? (place (cs ++ [c]) is) with
    -- an instance that the document did not have is simply set
    | none =>
        rw [hv, M.mergeInto_none] at hleaf
        cases hleaf
        exact .refl _
    | some v =>
        rw [hv, M.mergeInto_some] at hleaf
        exact Merger.same_of_covers_merge zipmerge_isZip (g is).property (h is his v hv) hleaf

/-- Rows that are compatible with a path keep what the lists above its leaf satisfy. -/
theorem listsAlong_mergeAll_of_compat {R : PyStr → Nat → Prop} {len : PyStr → Nat}
    {cs : List Comp} {c : Comp} {rs : List Filled} {d d' : Value} (hR : ∀ k, R k (len k))
    (hrs : ∀ r ∈ rs, Compat (cs ++ [c]) r.path) (hd : ListsAlong R (names cs) d)
    (h : mergeAll M len d rs = .ok d') : ListsAlong R (names cs) d' := by
  refine listsAlong_mergeAll hd (fun r hr => ?_) h
  apply listsAlong_tree fun k _ => hR k
  intro hp
  have hprefix : names cs <+: names (cs ++ [c]) := by
    rw [names, names, List.map_append]
    exact List.prefix_append _ _
  exact absurd hp (not_prefix_of_compat (hrs r hr) hprefix)

/-- Rows after it that are compatible with it do not matter to whether a row overrides. -/
theorem overrides_iff {post : List Row} {row : Row} {t u : DocState} {d partialTree : Value}
    {value : List Nat → PyValue}
    (hcompat : ∀ r ∈ post, Compat (comps row.path) (comps r.path))
    (hrow : procpath row.path row.generator t = .ok partialTree u)
    (hpresent : ∀ k ∈ arrayNames (comps row.path), ∃ n, t.counts k = some n) :
    Overrides M d row post t partialTree value ↔
      ∃ d', M.merge d partialTree = .ok d' ∧ ∀ is ∈ indices t.counts.len (comps row.path), ∀ v,
        d'.get? (place (comps row.path) is) = some v → Same v (value is).val := by
  constructor
  -- right after the row no later row has been merged
  · rintro ⟨⟨d', hm⟩, hall⟩
    have hloop : rowLoop M d [row] t = .ok d' u :=
      rowLoop_cons_eq_ok.mpr ⟨d', u, mergeRow_eq_ok.mpr ⟨partialTree, hrow, hm⟩, rfl⟩
    exact ⟨d', hm, hall [] d' u List.nil_prefix hloop⟩
  -- later rows leave the instances alone
  · rintro ⟨d', hm, hall⟩
    refine ⟨⟨d', hm⟩, fun later doc w hlater hloop is his z hz => hall is his z ?_⟩
    have hlen := len_eq_of_mono (rowLoop_mono hloop) hpresent
    obtain ⟨d'', u', hfirst, hrest⟩ := rowLoop_cons_eq_ok.mp hloop
    obtain ⟨v, hv, hm'⟩ := mergeRow_eq_ok.mp hfirst
    rw [hrow] at hv
    cases hv
    rw [hm] at hm'
    cases hm'
    obtain ⟨_, rs, hfill, hmerge⟩ := rowLoop_eq_ok.mp hrest
    have hrs := compat_of_paths hfill.1 fun r hr => hcompat r (hlater.mem hr)
    rw [indices_congr_len hlen] at his
    rw [← get?_mergeAll_of_compat hrs hmerge his, hz]

/-- A row between rows that are compatible with it leaves its values in the document. -/
theorem get?_of_compat_around {len : PyStr → Nat} {cs : List Comp} {c : Comp}
    {before after : List Filled} {d₀ d₁ d : Value} {f : List Nat → PyValue} (hc : ¬ c.array)
    (hbefore : ∀ r ∈ before, Compat (cs ++ [c]) r.path)
    (hafter : ∀ r ∈ after, Compat (cs ++ [c]) r.path)
    (hm₀ : mergeAll M len (.dict []) before = .ok d₀)
    (hm₁ : M.merge d₀ (valueTree len (cs ++ [c]) f) = .ok d₁)
    (hm : mergeAll M len d₁ after = .ok d) {is : List Nat} (his : is ∈ indices len (cs ++ [c])) :
    d.get? (place (cs ++ [c]) is) = some (f is).val := by
  have hnone : d₀.get? (place (cs ++ [c]) is) = none := by
    rw [get?_mergeAll_of_compat hbefore hm₀ his]
    exact get?_place_empty _ _
  have hlists : ListsAlong (fun k n => n = len k) (names cs) d₀ :=
    listsAlong_mergeAll_of_compat (fun _ => rfl) hbefore listsAlong_empty hm₀
  obtain ⟨z, hz⟩ := leaf_present (o := some d₀) hc (fun b hb => by cases hb; exact hlists) hm₁ his
  have hleaf := leaf_of_merge (o := some d₀) hm₁ his hz
  rw [Option.bind_some, hnone, M.mergeInto_none] at hleaf
  cases hleaf
  rw [get?_mergeAll_of_compat hafter hm his]
  exact hz

/-- **When a repeated row overrides.**  The document before the second of two rows with the
    same path is `d`.  The second row overrides exactly when each of its values covers what
    `d` holds there; and that is the first row's value, if no row before it conflicts.  As
    everywhere, values share no objects (`Gen`). -/
theorem repeated_row_overrides_iff {pre mid post : List Row} {ri rj : Row} {s t u : DocState}
    {d partialTree : Value} (hpath : comps ri.path = comps rj.path)
    (hcompat : ∀ row ∈ mid ++ post, Compat (comps rj.path) (comps row.path))
    (hd : rowLoop M (.dict []) (pre ++ ri :: mid) s = .ok d t)
    (hj : procpath rj.path rj.generator t = .ok partialTree u) :
    ∃ first second : List Nat → PyValue,
      (∃ d₀ s₀ s₁, rowLoop M (.dict []) pre s = .ok d₀ s₀ ∧
        rowValues (comps ri.path) ri.generator s₀ =
          .ok ((indices t.counts.len (comps rj.path)).map first) s₁) ∧
      rowValues (comps rj.path) rj.generator t =
        .ok ((indices t.counts.len (comps rj.path)).map second) u ∧
      partialTree = valueTree t.counts.len (comps rj.path) second ∧
      (Overrides M d rj post t partialTree second ↔
        ∀ is ∈ indices t.counts.len (comps rj.path), ∀ v,
          d.get? (place (comps rj.path) is) = some v → Covers v (second is).val) ∧
      ((∀ row ∈ pre, Compat (comps rj.path) (comps row.path)) →
        ∀ is ∈ indices t.counts.len (comps rj.path),
          d.get? (place (comps rj.path) is) = some (first is).val) := by
  -- the run up to row j: the rows before row i, row i, and those between
  obtain ⟨d₀, s₀, hpre, hrest⟩ := rowLoop_append_eq_ok.mp hd
  obtain ⟨d₁, s₁, hri, hmid⟩ := rowLoop_cons_eq_ok.mp hrest
  obtain ⟨v, hv, hm₁⟩ := mergeRow_eq_ok.mp hri
  obtain ⟨first, rfl, hfirst⟩ := (procpath_eq_ok (walkable_of_procpath_eq_ok hv)).mp hv
  obtain ⟨second, rfl, hsecond⟩ := (procpath_eq_ok (walkable_of_procpath_eq_ok hj)).mp hj
  -- the lengths on the path are drawn for the first row and do not change
  have hmono₀ : ∀ k n, s₀.counts k = some n → t.counts k = some n :=
    fun k n hn => rowLoop_mono hmid k n ((rowValues_counts hfirst).1 k n hn)
  have hpresent := (rowValues_counts hfirst).2
  have hlen₁ := len_eq_of_mono (rowLoop_mono hmid) hpresent
  rw [hpath] at hpresent hlen₁ hfirst hm₁
  have hpresent' : ∀ k ∈ arrayNames (comps rj.path), ∃ n, t.counts k = some n := by
    intro k hk
    obtain ⟨n, hn⟩ := hpresent k hk
    exact ⟨n, rowLoop_mono hmid k n hn⟩
  have hlen₂ := len_eq_of_mono (rowValues_counts hsecond).1 hpresent'
  rw [indices_congr_len hlen₁] at hfirst
  rw [← indices_congr_len hlen₂] at hsecond
  rw [valueTree, tree_congr_len _ hlen₁] at hm₁
  have htree : valueTree u.counts.len (comps rj.path) second =
      valueTree t.counts.len (comps rj.path) second := (tree_congr_len _ hlen₂).symm
  -- the rows between the two, and the path down to its leaf
  obtain ⟨cs, c, hcs, hc⟩ := comps_eq_append (walkable_of_procpath_eq_ok hj).ne_nil
  obtain ⟨_, rs, hfill, hmerge⟩ := rowLoop_eq_ok.mp hmid
  have hrs := compat_of_paths hfill.1 fun row hrow => hcompat row (List.mem_append_left _ hrow)
  refine ⟨first, second, ⟨d₀, s₀, s₁, hpre, hpath ▸ hfirst⟩, hsecond, htree, ?_, ?_⟩
  -- the rows after row j leave its instances alone, and merging it replaces exactly
  -- what its values cover; the lengths along the path are those of row i or less
  · rw [overrides_iff (fun r hr => hcompat r (List.mem_append_right _ hr)) hj hpresent', htree]
    rw [hcs] at hm₁ hrs ⊢
    have hlists : ListsAlong (fun k n => n ≤ t.counts.len k) (names cs) d₁ :=
      listsAlong_of_merge (o := some d₀) hm₁
    apply merge_replaces_iff hc
    exact listsAlong_mergeAll_of_compat (fun _ => Nat.le_refl _) hrs hlists hmerge
  -- no row around row i touches the path, so the document holds row i's own value
  · intro hbefore is his
    obtain ⟨rs₀, hpaths₀, _, hmerge₀⟩ := mergeAll_of_rowLoop hpre hmono₀
    have hrs₀ := compat_of_paths hpaths₀ hbefore
    rw [hcs] at hm₁ hrs hrs₀ his ⊢
    exact get?_of_compat_around hc hrs₀ hrs hmerge₀ hm₁ hmerge his

/-- A row with a list value, and two later rows of the same path: one with a list of the same
    length, one with a shorter list. -/
def pairRow : Row := ⟨"point".toList, .ret (.list [.int 1, .int 2])⟩
def pairRow' : Row := ⟨"point".toList, .ret (.list [.int 3, .int 4])⟩
def singleRow : Row := ⟨"point".toList, .ret (.list [.int 5])⟩

/-- The partial tree of a row with the path `point`. -/
def pointTree (value : PyValue) : Value := .dict [("point".toList, value.val)]

theorem comps_point (value : PyValue) :
    comps (Row.path ⟨"point".toList, .ret value⟩) = [⟨"point".toList, false⟩] :=
  show comps (splitDot "point".toList) = _ by decide

theorem procpath_point (value : PyValue) (s : DocState) :
    procpath (Row.path ⟨"point".toList, .ret value⟩) (.ret value) s = .ok (pointTree value) s := by
  rw [show Row.path ⟨"point".toList, .ret value⟩ = ["point".toList] from
    show splitDot "point".toList = _ by decide, procpath_last (by decide)]
  rfl

theorem rowLoop_pairRow (s : DocState) :
    rowLoop M (.dict []) [pairRow] s = .ok (pointTree (.list [.int 1, .int 2])) s := by
  refine rowLoop_cons_eq_ok.mpr ⟨_, s, mergeRow_eq_ok.mpr ⟨_, procpath_point _ s, ?_⟩, rfl⟩
  exact M.merge_singleton_eq_ok.mpr ⟨_, rfl, rfl⟩

/-- A list of the same length overrides. -/
theorem pairRow'_overrides :
    ∃ value, Overrides merger (pointTree (.list [.int 1, .int 2])) pairRow' []
      (DocState.start (World.fresh fun _ => 0)) (pointTree (.list [.int 3, .int 4])) value := by
  obtain ⟨first, second, _, hsecond, _, hiff, _⟩ :=
    @repeated_row_overrides_iff merger [] [] [] pairRow pairRow' _ _ _ _ _ (by decide) (by simp)
      (rowLoop_pairRow _)
      (procpath_point (.list [.int 3, .int 4]) (DocState.start (World.fresh fun _ => 0)))
  refine ⟨second, hiff.mpr fun is his v hv => ?_⟩
  have hpath : comps pairRow'.path = [⟨"point".toList, false⟩] := comps_point _
  rw [hpath] at hsecond his hv
  obtain rfl : is = [] := List.mem_singleton.mp his
  have hvalue : [PyValue.list [.int 3, .int 4]] = [second []] := by
    injection hsecond
  obtain rfl : DataTree.list [.atom (.int 1), .atom (.int 2)] = v := by
    injection hv
  rw [← (List.cons_eq_cons.mp hvalue).1]
  refine .list rfl fun i x y hx hy => ?_
  match i, hx, hy with
  | 0, hx, hy =>
      cases hx
      exact .differ id
  | 1, hx, hy =>
      cases hx
      exact .differ id

/-- A shorter list does not override: merging it raises. -/
theorem singleRow_not_overrides :
    rowLoop merger (.dict []) [pairRow] (DocState.start (World.fresh fun _ => 0)) =
        .ok (pointTree (.list [.int 1, .int 2])) (DocState.start (World.fresh fun _ => 0)) ∧
      procpath singleRow.path singleRow.generator (DocState.start (World.fresh fun _ => 0)) =
        .ok (pointTree (.list [.int 5])) (DocState.start (World.fresh fun _ => 0)) ∧
      merger.merge (pointTree (.list [.int 1, .int 2])) (pointTree (.list [.int 5])) =
        .error .indexError :=
  ⟨rowLoop_pairRow _, procpath_point _ _, rfl⟩

end MLocust.Faker
