/-
  MLocust.Faker.IdBatch

  The strings of one key in a batch of documents.

  One row: the strings it issues are in the finished document (`idRow_found`).
  The row loop: the `ID(key)` rows of a model hold consecutive strings
  (`rowLoop_consecutive`, by induction over the rows).  A batch: the same over its
  documents, with the counter carried from one to the next (`batch_consecutive`).
  `id_rows_consecutive` puts a batch behind any history of calls.
-/
import MLocust.Faker.IdRows
import MLocust.Faker.Reference

namespace MLocust.Faker

open Lib Lib.Program DataTree PyStr

variable {M : DocMerger} {key : PyStr} {rows : List Row} {row : Row} {d d' doc : Value}
  {s t u : DocState}

-- ============================================================================
-- One row
-- ============================================================================

theorem mem_numberedValues {c n : Nat} {v : Value} (h : v ∈ numberedValues key c n) :
    v.IsAtom := by
  obtain ⟨s, _, rfl⟩ := List.mem_map.mp h
  trivial

theorem id_returnsAtoms (key : PyStr) : (Gen.id key).ReturnsAtoms := by
  intro w v w' h
  cases h
  trivial

/-- The strings that an `ID(key)` row issues are found in the finished document. -/
theorem idRow_found (hid : row.generator = .id key) (hrow : mergeRow M d row s = .ok d' u)
    (hrest : rowLoop M d' rows u = .ok doc t)
    (hlater : ∀ row' ∈ rows, Compat (comps row.path) (comps row'.path))
    (hd : ListsAlong (fun k n => n = t.counts.len k) (names (comps row.path)).dropLast d) :
    instancesAt (names (comps row.path)) doc =
        numberedValues key (s.world.idMap key) (instances t.counts (comps row.path)) ∧
      u.world.idMap key = s.world.idMap key + instances t.counts (comps row.path) := by
  have hmono := rowLoop_mono hrest
  obtain ⟨hwalk, f, hf, hm⟩ := mergeRow_values hrow hmono
  have hpresent := (rowValues_counts hf).2
  rw [hid] at hf
  -- the values the row issues, and how far it moves the counter
  obtain ⟨hvals, hcount⟩ := rowValues_id hf
  rw [List.length_map, length_indices] at hvals hcount
  rw [List.map_map] at hvals
  refine ⟨?_, hcount⟩
  obtain ⟨rs, hpaths, _, hmerge⟩ := mergeAll_of_rowLoop hrest (u := t) fun _ _ hn => hn
  have hrs := compat_of_paths hpaths hlater
  have hpos : ∀ k ∈ arrayNames (comps row.path), 0 < t.counts.len k := by
    intro k hk
    obtain ⟨n, hn⟩ := hpresent k hk
    rw [Counts.len_of_some (hmono k n hn)]
    exact n.pos
  obtain ⟨cs, c, hcs, hc⟩ := comps_eq_append hwalk.ne_nil
  have hdrop : (names (comps row.path)).dropLast = names cs := by
    rw [hcs, names, List.map_append, List.map_singleton, List.dropLast_concat]
    rfl
  -- the lists on the path have the drawn lengths when the row is merged
  have hd' : ListsAlong (fun k n => n = t.counts.len k) (names (comps row.path)).dropLast d' :=
    listsAlong_mergeRow hrow hmono (fun _ _ => rfl) hd fun _ => hid ▸ id_returnsAtoms key
  rw [hdrop] at hd hd'
  rw [← hvals]
  rw [hcs] at hm hrs hpos hvals ⊢
  refine instancesAt_names hc hpos ?_ fun is his => ?_
  -- the later rows do not end on the path, so they keep its lists
  · refine listsAlong_rowLoop hrest (fun _ _ _ _ => rfl) hd' fun row' hmem hpre => ?_
    refine absurd hpre (not_prefix_of_compat (hlater row' hmem) ?_)
    rw [hcs, names, names, List.map_append]
    exact List.prefix_append _ _
  -- and they keep the leaves, which are strings, as the row has set them
  · rw [get?_mergeAll_of_compat hrs hmerge his]
    obtain ⟨z, hz⟩ := leaf_present (o := some d) hc (fun b hb => by cases hb; exact hd) hm his
    have hatom : (f is).val.IsAtom := by
      have hmem := List.mem_map_of_mem (f := Subtype.val ∘ f) his
      rw [hvals] at hmem
      exact mem_numberedValues hmem
    rw [hz, mergeInto_atom hatom (leaf_of_merge (o := some d) hm his hz)]
    rfl

-- ============================================================================
-- The row loop
-- ============================================================================

/-- A row that does not issue the key leaves its counter alone. -/
theorem mergeRow_spares (hg : row.generator.Spares key) (hrow : mergeRow M d row s = .ok d' u) :
    u.world.idMap key = s.world.idMap key := by
  obtain ⟨_, f, hf, _⟩ := mergeRow_values hrow fun _ _ hn => hn
  exact rowValues_spares hg hf

theorem length_names (path : List PyStr) : (names (comps path)).length = path.length := by
  rw [names, List.length_map, comps_length]

/-- A path that is a prefix of another one cut by its last name is a proper prefix. -/
theorem proper_prefix_of_dropLast {p q : List PyStr} (hp : p ≠ [])
    (h : names (comps p) <+: (names (comps q)).dropLast) :
    names (comps p) <+: names (comps q) ∧ p.length < q.length := by
  refine ⟨h.trans (List.dropLast_prefix _), ?_⟩
  have hle := h.length_le
  have hpos := List.length_pos_of_ne_nil hp
  rw [List.length_dropLast, length_names, length_names] at hle
  omega

/-- **The row loop issues in order.**  What the finished document holds at its `ID(key)` rows
    are the next strings of the key, and the counter has moved past them. -/
theorem rowLoop_consecutive (hmodel : IdModel key rows) (hflat : FlatAbove key rows)
    (hd : ∀ row ∈ rows, row.generator = .id key →
      ListsAlong (fun k n => n = t.counts.len k) (names (comps row.path)).dropLast d)
    (h : rowLoop M d rows s = .ok doc t) :
    foundIds key rows doc =
        numberedValues key (s.world.idMap key) (idTotal key rows t.counts) ∧
      t.world.idMap key = s.world.idMap key + idTotal key rows t.counts := by
  induction rows generalizing d s with
  | nil =>
      cases h
      exact ⟨rfl, rfl⟩
  | cons row rows ih =>
      obtain ⟨d', u, hrow, hrest⟩ := rowLoop_cons_eq_ok.mp h
      have hothers := List.forall_mem_cons.mp hmodel.others
      have hlater := List.pairwise_cons.mp hmodel.later
      have hrows : IdModel key rows := ⟨hothers.2, hlater.2⟩
      have hflat := List.pairwise_cons.mp hflat
      have hpath : row.path ≠ [] := (mergeRow_values hrow fun _ _ hn => hn).1.ne_nil
      -- the lists that the rest needs survive this row
      have hd' : ∀ row' ∈ rows, row'.generator = .id key →
          ListsAlong (fun k n => n = t.counts.len k) (names (comps row'.path)).dropLast d' := by
        intro row' hmem hid
        refine listsAlong_mergeRow hrow (rowLoop_mono hrest) (fun _ _ => rfl)
          (hd row' (List.mem_cons_of_mem _ hmem) hid) fun hpre => ?_
        obtain ⟨hproper, hlt⟩ := proper_prefix_of_dropLast hpath hpre
        exact hflat.1 row' hmem hid hproper hlt
      obtain ⟨hfound, hcount⟩ := ih hrows hflat.2 hd' hrest
      by_cases hid : row.generator = .id key
      -- a row of the key: its strings come first, and the rest goes on from there
      · obtain ⟨hhead, hstep⟩ := idRow_found hid hrow hrest
          (fun row' hmem => not_not.mp fun hn => hlater.1 row' hmem hid (not_compat_iff.mp hn))
          (hd row List.mem_cons_self hid)
        rw [hstep] at hfound hcount
        rw [foundIds, idTotal, idRows_cons_of_pos hid, List.flatMap_cons, List.map_cons,
          List.sum_cons, numberedValues_add, hhead]
        refine ⟨congrArg _ hfound, ?_⟩
        rw [hcount]
        exact Nat.add_assoc ..
      -- another row does not call `ID` with the key
      · have hstep := mergeRow_spares (hothers.1 hid) hrow
        rw [hstep] at hfound hcount
        rw [foundIds, idTotal, idRows_cons_of_neg hid]
        exact ⟨hfound, hcount⟩

-- ============================================================================
-- Batches
-- ============================================================================

variable (M) in
/-- One document of `bulkFetch`, together with the array lengths drawn for it. -/
def fetchDocCounts (env : Env) (template : List (List PyStr)) : Py World (Value × Counts) :=
  zoom DocState.start (fun s _ => s.world) (do
    let data ← templateLoop M env (.dict []) template
    let s ← get
    pure (data, s.counts))

theorem fetchDocCounts_eq_ok {env : Env} {template : List (List PyStr)} {w w' : World}
    {p : Value × Counts} :
    fetchDocCounts M env template w = .ok p w' ↔
      ∃ rows t, template.mapM (readRow env) = .ok rows ∧
        rowLoop M (.dict []) rows (DocState.start w) = .ok p.1 t ∧ p.2 = t.counts ∧
          w' = t.world := by
  rw [fetchDocCounts, zoom_eq_ok]
  constructor
  · rintro ⟨t, ht, rfl⟩
    obtain ⟨data, u, hu, hpair⟩ := bind_eq_ok.mp ht
    rw [bind_of_ok (get_apply u)] at hpair
    cases hpair
    obtain ⟨rows, hrows, hloop⟩ := templateLoop_eq_ok.mp hu
    exact ⟨rows, t, hrows, hloop, rfl, rfl⟩
  · rintro ⟨rows, t, hrows, hloop, hcounts, rfl⟩
    refine ⟨t, bind_eq_ok.mpr ⟨p.1, t, templateLoop_eq_ok.mpr ⟨rows, hrows, hloop⟩, ?_⟩, rfl⟩
    rw [bind_of_ok (get_apply t), ← hcounts]
    rfl

/-- A batch of documents that was returned, with the lengths of each. -/
theorem mapM_fetchDocCounts {ι : Type} (l : List ι) {env : Env} {template : List (List PyStr)}
    {w w' : World} {docs : List Value}
    (h : (l.mapM fun _ => fetchDoc M env template) w = .ok docs w') :
    ∃ ps, (l.mapM fun _ => fetchDocCounts M env template) w = .ok ps w' ∧
      docs = ps.map Prod.fst := by
  induction l generalizing w docs with
  | nil =>
      cases h
      exact ⟨[], rfl, rfl⟩
  | cons i l ih =>
      rw [List.mapM_cons] at h
      obtain ⟨doc, u, hdoc, h⟩ := bind_eq_ok.mp h
      obtain ⟨rest, u', hrest, hcons⟩ := bind_eq_ok.mp h
      cases hcons
      obtain ⟨rows, t, hrows, hloop, rfl⟩ := fetchDoc_eq_ok.mp hdoc
      obtain ⟨ps, hps, rfl⟩ := ih hrest
      have hp : fetchDocCounts M env template w = .ok (doc, t.counts) t.world :=
        fetchDocCounts_eq_ok.mpr ⟨rows, t, hrows, hloop, rfl, rfl⟩
      refine ⟨(doc, t.counts) :: ps, ?_, rfl⟩
      rw [List.mapM_cons, bind_of_ok hp, bind_of_ok hps]
      rfl

/-- The documents of a batch hold consecutive strings, one document after the other. -/
theorem batch_consecutive {ι : Type} (l : List ι) {env : Env} {template : List (List PyStr)}
    (hrows : template.mapM (readRow env) = .ok rows) (hmodel : IdModel key rows)
    (hflat : FlatAbove key rows) {w w' : World} {ps : List (Value × Counts)}
    (h : (l.mapM fun _ => fetchDocCounts M env template) w = .ok ps w') :
    ps.flatMap (fun p => foundIds key rows p.1) =
      numberedValues key (w.idMap key) ((ps.map fun p => idTotal key rows p.2).sum) := by
  induction l generalizing w ps with
  | nil =>
      cases h
      rfl
  | cons i l ih =>
      rw [List.mapM_cons] at h
      obtain ⟨p, u, hp, h⟩ := bind_eq_ok.mp h
      obtain ⟨rest, u', hrest, hcons⟩ := bind_eq_ok.mp h
      cases hcons
      obtain ⟨rows', t, hrows', hloop, hcounts, rfl⟩ := fetchDocCounts_eq_ok.mp hp
      rw [hrows] at hrows'
      cases hrows'
      -- the counter moves from one document to the next
      obtain ⟨hfound, hcount⟩ := rowLoop_consecutive hmodel hflat
        (fun _ _ _ => listsAlong_empty) hloop
      rw [← hcounts] at hfound hcount
      rw [List.flatMap_cons, List.map_cons, List.sum_cons, numberedValues_add, ih hrest, hfound,
        hcount]
      rfl

/-- A call of `bulkFetch` that returns has put the next strings of the key, in order, at the
    `ID(key)` rows of the documents it returns, as many as the lengths it drew ask for. -/
def IssuesInOrder (M : DocMerger) (env : Env) (w : World) (model : PyStr) (n : Int)
    (key : PyStr) (rows : List Row) : Prop :=
  ∀ docs w', bulkFetch M env model n w = .ok docs w' →
    ∃ ps, ((List.range n.toNat).mapM fun _ =>
        fetchDocCounts M env (env.rows (templatePath env model))) w = .ok ps w' ∧
      docs = ps.map Prod.fst ∧
      docs.flatMap (foundIds key rows) =
        numberedValues key (w.keys.count key) ((ps.map fun p => idTotal key rows p.2).sum)

/-- After any history of calls, the `ID(key)` rows of a batch hold the next strings of the key,
    without gap or reuse, when no row above one of them returns a list or a dictionary.
    Whatever the models are, no string of a key is ever issued twice, in batches that raised
    either. -/
theorem id_rows_consecutive (M : DocMerger) (env : Env) (draws : Nat → Nat)
    (history : List (PyStr × Int)) (key : PyStr) :
    (∀ model n rows, (env.rows (templatePath env model)).mapM (readRow env) = .ok rows →
      IdModel key rows → FlatAbove key rows →
      IssuesInOrder M env (afterCalls M env (World.fresh draws) history) model n key rows) ∧
      ((afterCalls M env (World.fresh draws) history).issuedFor key).Nodup := by
  constructor
  · intro model n rows hrows hmodel hflat docs w' h
    rw [bulkFetch] at h
    split at h
    · obtain ⟨ps, hps, rfl⟩ := mapM_fetchDocCounts _ h
      refine ⟨ps, hps, rfl, ?_⟩
      rw [List.flatMap_map, count_keys_of_reachable (afterCalls_reachable M env draws history)]
      exact batch_consecutive _ hrows hmodel hflat hps
    · cases h
  · rw [issuedFor_of_reachable (afterCalls_reachable M env draws _)]
    exact numbered_nodup key 0 _

theorem bulkFetch_one {env : Env} {model : PyStr} {w w' : World}
    (hfile : env.isfile (templatePath env model))
    (h : fetchDoc M env (env.rows (templatePath env model)) w = .ok doc w') :
    bulkFetch M env model 1 w = .ok [doc] w' := by
  rw [bulkFetch, if_pos hfile]
  show [0].mapM (fun _ => fetchDoc M env (env.rows (templatePath env model))) w = _
  rw [List.mapM_cons, bind_of_ok h]
  rfl

/-- The file of `memberRows`. -/
def memberEnv : Env where
  isfile := fun _ => true
  rows := fun _ => [["members().ID".toList, [], [], "ID".toList], ["count".toList, [], [], []]]
  expr := fun text => if text = "ID".toList then .id "M".toList else .ret (.int 2)

theorem memberRows_idModel : IdModel "M".toList memberRows where
  others := by
    intro row hrow hne
    rcases List.mem_cons.mp hrow with rfl | hrow
    · exact absurd rfl hne
    · rw [List.mem_singleton.mp hrow]
      exact fun w => rfl
  later := by
    refine .cons (fun row hrow _ => ?_) (List.pairwise_singleton ..)
    rw [List.mem_singleton.mp hrow, ← not_compat_iff, not_not]
    decide

/-- The second of two batches of `memberRows` holds the strings that follow the first one's, and
    no string is issued twice in the two. -/
theorem member_ids_consecutive :
    IssuesInOrder merger memberEnv
        (afterCalls merger memberEnv (World.fresh fun _ => 1) [("member.csv".toList, 1)])
        "member.csv".toList 1 "M".toList memberRows ∧
      ((afterCalls merger memberEnv (World.fresh fun _ => 1)
        ([("member.csv".toList, 1)] ++ [("member.csv".toList, 1)])).issuedFor
          "M".toList).Nodup := by
  constructor
  · apply (id_rows_consecutive merger memberEnv _ [("member.csv".toList, 1)] "M".toList).1
      "member.csv".toList 1 memberRows rfl memberRows_idModel
    refine .cons (fun row hrow hid => ?_) (List.pairwise_singleton ..)
    rw [List.mem_singleton.mp hrow] at hid
    cases hid
  · exact (id_rows_consecutive merger memberEnv _ _ "M".toList).2

/-- A row that returns a list of one element, and below it a row with identifiers. -/
def shortRows : List Row :=
  [⟨"a".toList, .ret (.list [.int 0])⟩, ⟨"a().b".toList, .id "M".toList⟩]

/-- The file of `shortRows`. -/
def shortEnv : Env where
  isfile := fun _ => true
  rows := fun _ => [["a".toList, [], [], []], ["a().b".toList, [], [], "ID".toList]]
  expr := fun text => if text = "ID".toList then .id "M".toList else .ret (.list [.int 0])

/-- The values of `shortRows` when the array gets two elements. -/
def shortValues : List Filled :=
  [⟨[⟨"a".toList, false⟩], fun _ => .list [.int 0]⟩,
    ⟨[⟨"a".toList, true⟩, ⟨"b".toList, false⟩], fun is => .str ('M' :: str (is.sum + 1))⟩]

/-- The end of the document of `shortRows`. -/
def shortState : DocState :=
  ⟨Function.update Counts.empty "a".toList (some ⟨2, Nat.two_pos⟩),
    (twoWorld.afterID "M".toList).afterID "M".toList⟩

/-- The document of `shortRows`: only one element is left. -/
def shortDoc : Value :=
  .dict [("a".toList, .list [.dict [("b".toList, .atom (.str "M1".toList))]])]

theorem shortRows_rowLoop :
    rowLoop merger (.dict []) shortRows (DocState.start twoWorld) = .ok shortDoc shortState :=
  rowLoop_eq_ok.mpr ⟨by decide, shortValues,
    .cons (by decide) rfl (.cons (by decide) rfl (.nil shortState)), rfl⟩

/-- A list value above the row cuts its array: two strings are issued for the document, but
    only the first one is found in it. -/
theorem short_ids_not_consecutive :
    (shortEnv.rows (templatePath shortEnv "short.csv".toList)).mapM (readRow shortEnv) =
        .ok shortRows ∧
      IdModel "M".toList shortRows ∧
      ¬ IssuesInOrder merger shortEnv (afterCalls merger shortEnv (World.fresh fun _ => 1) [])
        "short.csv".toList 1 "M".toList shortRows := by
  have hid : idRows "M".toList shortRows = [⟨"a().b".toList, .id "M".toList⟩] := by
    rw [shortRows, idRows_cons_of_neg (by simp [Gen.id]), idRows_cons_of_pos rfl]
    rfl
  refine ⟨rfl, ⟨?_, ?_⟩, fun h => ?_⟩
  · intro row hrow hne
    rcases List.mem_cons.mp hrow with rfl | hrow
    · exact fun w => rfl
    · rw [List.mem_singleton.mp hrow] at hne
      exact absurd rfl hne
  · exact .cons (fun row hrow hid => nomatch hid) (List.pairwise_singleton ..)
  · have hrun : fetchDoc merger shortEnv (shortEnv.rows []) twoWorld =
        .ok shortDoc shortState.world :=
      fetchDoc_eq_ok.mpr ⟨shortRows, shortState, rfl, shortRows_rowLoop, rfl⟩
    obtain ⟨ps, hps, hdocs, hfound⟩ := h _ _ (bulkFetch_one rfl hrun)
    obtain ⟨p, u, hp, hrest⟩ := bind_eq_ok.mp hps
    -- the document and its lengths are known, so lengths can be compared
    have hknown : fetchDocCounts merger shortEnv (shortEnv.rows []) twoWorld =
        .ok (shortDoc, shortState.counts) shortState.world :=
      fetchDocCounts_eq_ok.mpr ⟨shortRows, shortState, rfl, shortRows_rowLoop, rfl, rfl⟩
    have hsame : p = (shortDoc, shortState.counts) := by
      have heq := hp.symm.trans hknown
      injection heq
    cases hrest
    have hlen := congrArg List.length hfound
    rw [numberedValues, List.length_map, length_numbered, List.flatMap_singleton, foundIds, hid,
      hsame, List.reverse_singleton, List.map_singleton, List.sum_singleton, idTotal, hid] at hlen
    revert hlen
    decide

end MLocust.Faker
