/-
  MLocust.Faker.DocRun

  A run of the row loop taken apart: what was drawn and generated on one side, the
  merging on the other.

  `docValues` draws and evaluates everything the rows of a model ask for, without
  building a tree.  `mergeAll` is the pure fold of merges over rows whose values
  are known (`Filled`).  `rowLoop_eq_ok` says that the row loop returns exactly
  when both do, on the same lengths and values.
-/
import MLocust.Faker.ProcpathErrors

namespace MLocust.Faker

open Lib Lib.Program PyStr

/-- A row of a model together with the values its generator returned. -/
structure Filled where
  path : List Comp
  value : List Nat → PyValue

/-- The partial tree of a row. -/
def Filled.tree (len : PyStr → Nat) (r : Filled) : Value := valueTree len r.path r.value

/-- The values of a row in row-major order. -/
def Filled.values (len : PyStr → Nat) (r : Filled) : List PyValue :=
  (indices len r.path).map r.value

/-- Filled rows of compatible rows are compatible. -/
theorem compat_of_paths {cs : List Comp} {rows : List Row} {rs : List Filled}
    (hpaths : rs.map Filled.path = rows.map fun row => comps row.path)
    (h : ∀ row ∈ rows, Compat cs (comps row.path)) : ∀ r ∈ rs, Compat cs r.path := by
  intro r hr
  have hmem : r.path ∈ rs.map Filled.path := List.mem_map_of_mem hr
  rw [hpaths] at hmem
  obtain ⟨row, hrow, heq⟩ := List.mem_map.mp hmem
  rw [← heq]
  exact h row hrow

/-- What the rows of a model draw and evaluate for one document. -/
def docValues (rows : List Row) : Py DocState (List (List PyValue)) :=
  rows.mapM fun row => rowValues (comps row.path) row.generator

-- ============================================================================
-- Lengths that are drawn do not change
-- ============================================================================

theorem indices_congr_len {len len' : PyStr → Nat} {cs : List Comp}
    (h : ∀ k ∈ arrayNames cs, len k = len' k) : indices len cs = indices len' cs := by
  induction cs with
  | nil => rfl
  | cons c cs ih =>
      by_cases hc : c.array
      · rw [arrayNames_array hc] at h
        rw [indices_array hc, indices_array hc, h c.name List.mem_cons_self,
          ih fun k hk => h k (List.mem_cons_of_mem _ hk)]
      · rw [arrayNames_object hc] at h
        rw [indices_object hc, indices_object hc, ih h]

theorem tree_congr_len {len len' : PyStr → Nat} {cs : List Comp} (f : List Nat → Value)
    (h : ∀ k ∈ arrayNames cs, len k = len' k) : tree len cs f = tree len' cs f := by
  induction cs generalizing f with
  | nil => rfl
  | cons c cs ih =>
      by_cases hc : c.array
      · rw [arrayNames_array hc] at h
        have hels : ∀ g, tree len cs g = tree len' cs g :=
          fun g => ih g fun k hk => h k (List.mem_cons_of_mem _ hk)
        rw [tree_cons, tree_cons, branch_array hc, branch_array hc, h c.name List.mem_cons_self]
        simp only [hels]
      · rw [arrayNames_object hc] at h
        rw [tree_cons, tree_cons, branch_object hc, branch_object hc, ih f h]

/-- Two states of one run agree on every length drawn in the earlier one. -/
theorem len_eq_of_mono {s t : DocState} {ks : List PyStr}
    (hmono : ∀ k n, s.counts k = some n → t.counts k = some n)
    (hpresent : ∀ k ∈ ks, ∃ n, s.counts k = some n) :
    ∀ k ∈ ks, s.counts.len k = t.counts.len k := by
  intro k hk
  obtain ⟨n, hn⟩ := hpresent k hk
  rw [Counts.len_of_some hn, Counts.len_of_some (hmono k n hn)]

/-- What a row's run does to the lengths. -/
theorem rowValues_counts {cs : List Comp} {g : Gen} {s t : DocState} {vs : List PyValue}
    (h : rowValues cs g s = .ok vs t) :
    (∀ k n, s.counts k = some n → t.counts k = some n) ∧
      ∀ k ∈ arrayNames cs, ∃ n, t.counts k = some n := by
  obtain ⟨u, hu, hcounts, _⟩ := rowValues_eq_ok.mp h
  have hd := drawLengths_eq_ok hu
  rw [hcounts]
  exact ⟨hd.mono, hd.present⟩

theorem docValues_cons_eq_ok {row : Row} {rows : List Row} {s t : DocState}
    {vss : List (List PyValue)} :
    docValues (row :: rows) s = .ok vss t ↔ ∃ vs u rest,
      rowValues (comps row.path) row.generator s = .ok vs u ∧
        docValues rows u = .ok rest t ∧ vss = vs :: rest := by
  rw [docValues, List.mapM_cons, bind_eq_ok]
  constructor
  · rintro ⟨vs, u, hvs, h⟩
    obtain ⟨rest, v, hrest, hcons⟩ := bind_eq_ok.mp h
    cases hcons
    exact ⟨vs, u, rest, hvs, hrest, rfl⟩
  · rintro ⟨vs, u, rest, hvs, hrest, rfl⟩
    exact ⟨vs, u, hvs, bind_eq_ok.mpr ⟨rest, t, hrest, rfl⟩⟩

theorem docValues_mono {rows : List Row} {s t : DocState} {vss : List (List PyValue)}
    (h : docValues rows s = .ok vss t) :
    ∀ k n, s.counts k = some n → t.counts k = some n := by
  induction rows generalizing s vss with
  | nil =>
      cases h
      exact fun _ _ hk => hk
  | cons row rows ih =>
      obtain ⟨vs, u, rest, hvs, hrest, _⟩ := docValues_cons_eq_ok.mp h
      exact fun k n hk => ih hrest k n ((rowValues_counts hvs).1 k n hk)

/-- At the end of a document all its array lengths are drawn. -/
theorem docValues_present {rows : List Row} {s t : DocState} {vss : List (List PyValue)}
    (h : docValues rows s = .ok vss t) :
    ∀ row ∈ rows, ∀ k ∈ arrayNames (comps row.path), ∃ n, t.counts k = some n := by
  induction rows generalizing s vss with
  | nil => exact fun _ hrow => (nomatch hrow)
  | cons row rows ih =>
      obtain ⟨vs, u, rest, hvs, hrest, _⟩ := docValues_cons_eq_ok.mp h
      refine List.forall_mem_cons.mpr ⟨fun k hk => ?_, ih hrest⟩
      obtain ⟨n, hn⟩ := (rowValues_counts hvs).2 k hk
      exact ⟨n, docValues_mono hrest k n hn⟩

-- ============================================================================
-- The row loop
-- ============================================================================

section RowLoop

variable {M : DocMerger}

variable (M) in
/-- Merge the partial trees of rows with known values, one after the other. -/
def mergeAll (len : PyStr → Nat) (data : Value) (rs : List Filled) : Except PyErr Value :=
  rs.foldlM (fun data r => M.merge data (r.tree len)) data

theorem mergeAll_cons_eq_ok {len : PyStr → Nat} {d doc : Value} {r : Filled}
    {rs : List Filled} :
    mergeAll M len d (r :: rs) = .ok doc ↔
      ∃ d', M.merge d (r.tree len) = .ok d' ∧ mergeAll M len d' rs = .ok doc :=
  Except.bind_eq_ok

/-- Merging into documents that are the same up to key order gives the same. -/
theorem mergeAll_congr_left {len : PyStr → Nat} {d d' r : Value} {rs : List Filled}
    (hd : DataTree.Same d d') (h : mergeAll M len d rs = .ok r) :
    ∃ r', mergeAll M len d' rs = .ok r' ∧ DataTree.Same r r' := by
  induction rs generalizing d d' with
  | nil =>
      cases h
      exact ⟨d', rfl, hd⟩
  | cons row rs ih =>
      obtain ⟨e, he, hrest⟩ := mergeAll_cons_eq_ok.mp h
      obtain ⟨e', he', hsame⟩ := Merger.merge_congr_left zipmerge_isZip hd he
      obtain ⟨r', hr', hrr⟩ := ih hsame hrest
      exact ⟨r', mergeAll_cons_eq_ok.mpr ⟨e', he', hr'⟩, hrr⟩

theorem mergeAll_congr {len len' : PyStr → Nat} {d : Value} {rs : List Filled}
    (h : ∀ r ∈ rs, r.tree len = r.tree len') : mergeAll M len d rs = mergeAll M len' d rs := by
  induction rs generalizing d with
  | nil => rfl
  | cons r rs ih =>
      obtain ⟨hr, hrs⟩ := List.forall_mem_cons.mp h
      rw [mergeAll, mergeAll, List.foldlM_cons, List.foldlM_cons, hr]
      exact congrArg _ (funext fun d' => ih hrs)

theorem mergeAll_append_eq_ok {len : PyStr → Nat} {d doc : Value} {rs rs' : List Filled} :
    mergeAll M len d (rs ++ rs') = .ok doc ↔
      ∃ d', mergeAll M len d rs = .ok d' ∧ mergeAll M len d' rs' = .ok doc := by
  rw [mergeAll, List.foldlM_append]
  exact Except.bind_eq_ok

theorem mergeRow_eq_ok {d d' : Value} {row : Row} {s t : DocState} :
    mergeRow M d row s = .ok d' t ↔
      ∃ v, procpath row.path row.generator s = .ok v t ∧ M.merge d v = .ok d' := by
  rw [mergeRow, bind_eq_ok]
  constructor
  · rintro ⟨v, u, hv, h⟩
    obtain ⟨hm, rfl⟩ := fromExcept_eq_ok.mp h
    exact ⟨v, hv, hm⟩
  · rintro ⟨v, hv, hm⟩
    exact ⟨v, t, hv, fromExcept_eq_ok.mpr ⟨hm, rfl⟩⟩

theorem rowLoop_cons_eq_ok {d doc : Value} {row : Row} {rows : List Row} {s t : DocState} :
    rowLoop M d (row :: rows) s = .ok doc t ↔
      ∃ d' u, mergeRow M d row s = .ok d' u ∧ rowLoop M d' rows u = .ok doc t :=
  bind_eq_ok

theorem rowLoop_append_eq_ok {d doc : Value} {rows rows' : List Row} {s t : DocState} :
    rowLoop M d (rows ++ rows') s = .ok doc t ↔
      ∃ d' u, rowLoop M d rows s = .ok d' u ∧ rowLoop M d' rows' u = .ok doc t := by
  rw [rowLoop, List.foldlM_append]
  exact bind_eq_ok

theorem rowLoop_mono {d doc : Value} {rows : List Row} {s t : DocState}
    (h : rowLoop M d rows s = .ok doc t) : ∀ k n, s.counts k = some n → t.counts k = some n :=
  ((rowLoop_steps M d rows).of_ok h).counts

/-- A row's tree and values are the same for all lengths drawn later. -/
theorem filled_congr {s t : DocState} {r : Filled}
    (hmono : ∀ k n, s.counts k = some n → t.counts k = some n)
    (hpresent : ∀ k ∈ arrayNames r.path, ∃ n, s.counts k = some n) :
    r.tree s.counts.len = r.tree t.counts.len ∧
      r.values s.counts.len = r.values t.counts.len := by
  have hlen := len_eq_of_mono hmono hpresent
  refine ⟨tree_congr_len _ hlen, ?_⟩
  rw [Filled.values, Filled.values, indices_congr_len hlen]

/-- `rs` are the rows of the model with the values their generators return in the run that
    leads from `s` to `t`. -/
def FilledBy (rows : List Row) (s t : DocState) (rs : List Filled) : Prop :=
  rs.map Filled.path = rows.map (fun row => comps row.path) ∧
    docValues rows s = .ok (rs.map (Filled.values t.counts.len)) t

theorem FilledBy.nil (s : DocState) : FilledBy [] s s [] := ⟨rfl, rfl⟩

theorem FilledBy.cons {row : Row} {rows : List Row} {r : Filled} {rs : List Filled}
    {s t u : DocState} (hpath : r.path = comps row.path)
    (h : rowValues r.path row.generator s = .ok (r.values t.counts.len) u)
    (hrest : FilledBy rows u t rs) : FilledBy (row :: rows) s t (r :: rs) := by
  refine ⟨?_, docValues_cons_eq_ok.mpr ⟨_, u, _, hpath ▸ h, hrest.2, rfl⟩⟩
  rw [List.map_cons, List.map_cons, hpath, hrest.1]

/-- **A run of the row loop taken apart.**  It returns exactly when everything could be
    drawn and evaluated and the resulting trees could be merged. -/
theorem rowLoop_eq_ok {rows : List Row} {d doc : Value} {s t : DocState} :
    rowLoop M d rows s = .ok doc t ↔ (∀ row ∈ rows, Walkable row.path) ∧
      ∃ rs, FilledBy rows s t rs ∧ mergeAll M t.counts.len d rs = .ok doc := by
  induction rows generalizing d s with
  | nil =>
      constructor
      · intro h
        cases h
        exact ⟨fun _ h => (nomatch h), [], .nil _, rfl⟩
      · rintro ⟨_, rs, ⟨hpaths, hvals⟩, hmerge⟩
        obtain rfl := List.map_eq_nil_iff.mp hpaths
        cases hvals
        cases hmerge
        rfl
  | cons row rows ih =>
      rw [rowLoop_cons_eq_ok]
      constructor
      · rintro ⟨d', u, hrow, hrest⟩
        obtain ⟨v, hv, hm⟩ := mergeRow_eq_ok.mp hrow
        -- from a run: its row's values, and those of the rest by induction; the rest
        -- leaves the lengths that the row has used
        have hwalk := walkable_of_procpath_eq_ok hv
        obtain ⟨f, rfl, hf⟩ := (procpath_eq_ok hwalk).mp hv
        obtain ⟨hall, rs, hfill, hmerge⟩ := ih.mp hrest
        let r : Filled := ⟨comps row.path, f⟩
        obtain ⟨htree, hvalues⟩ := filled_congr (r := r)
          (docValues_mono hfill.2) (rowValues_counts hf).2
        refine ⟨List.forall_mem_cons.mpr ⟨hwalk, hall⟩, r :: rs, .cons rfl ?_ hfill, ?_⟩
        · rw [← hvalues]
          exact hf
        · exact mergeAll_cons_eq_ok.mpr ⟨d', by rw [← htree]; exact hm, hmerge⟩
      · rintro ⟨hall, rs, ⟨hpaths, hvals⟩, hmerge⟩
        -- from values: they are the row's, so its tree is the one the run builds
        obtain ⟨hwalk, hall⟩ := List.forall_mem_cons.mp hall
        obtain ⟨vs, u, rest, hvs, hrest, hcons⟩ := docValues_cons_eq_ok.mp hvals
        obtain ⟨r, rs, rfl⟩ : ∃ r rs', rs = r :: rs' := by
          apply List.exists_cons_of_ne_nil
          rintro rfl
          cases hpaths
        obtain ⟨p, f⟩ := r
        rw [List.map_cons, List.map_cons] at hpaths
        obtain ⟨rfl, hpaths'⟩ := List.cons_eq_cons.mp hpaths
        rw [List.map_cons] at hcons
        obtain ⟨rfl, rfl⟩ := List.cons_eq_cons.mp hcons
        obtain ⟨d', hm, hmerge⟩ := mergeAll_cons_eq_ok.mp hmerge
        obtain ⟨htree, hvalues⟩ := filled_congr (r := ⟨comps row.path, f⟩)
          (docValues_mono hrest) (rowValues_counts hvs).2
        refine ⟨d', u, mergeRow_eq_ok.mpr ⟨_, (procpath_eq_ok hwalk).mpr ⟨f, rfl, ?_⟩, ?_⟩,
          ih.mpr ⟨hall, rs, ⟨hpaths', hrest⟩, hmerge⟩⟩
        · rw [hvs]
          exact congrArg (EStateM.Result.ok · u) hvalues.symm
        · rw [← hm]
          exact congrArg (M.merge d) htree

/-- A run of the row loop, with the lengths of any later state of the document. -/
theorem mergeAll_of_rowLoop {rows : List Row} {d doc : Value} {s t u : DocState}
    (h : rowLoop M d rows s = .ok doc t)
    (hmono : ∀ k n, t.counts k = some n → u.counts k = some n) :
    ∃ rs : List Filled, rs.map Filled.path = rows.map (fun row => comps row.path) ∧
      docValues rows s = .ok (rs.map (Filled.values u.counts.len)) t ∧
      mergeAll M u.counts.len d rs = .ok doc := by
  obtain ⟨_, rs, ⟨hpaths, hvals⟩, hmerge⟩ := rowLoop_eq_ok.mp h
  have hcongr : ∀ r ∈ rs, r.tree t.counts.len = r.tree u.counts.len ∧
      r.values t.counts.len = r.values u.counts.len := by
    intro r hr
    refine filled_congr hmono fun k hk => ?_
    have hmem : r.path ∈ rs.map Filled.path := List.mem_map_of_mem hr
    rw [hpaths] at hmem
    obtain ⟨row, hrow, heq⟩ := List.mem_map.mp hmem
    exact docValues_present hvals row hrow k (heq ▸ hk)
  refine ⟨rs, hpaths, ?_, ?_⟩
  · rw [hvals, List.map_congr_left fun r hr => (hcongr r hr).2]
  · rw [← hmerge, mergeAll_congr fun r hr => (hcongr r hr).1]

-- ============================================================================
-- Documents and batches
-- ============================================================================

theorem templateLoop_eq_ok {env : Env} {d doc : Value} {template : List (List PyStr)}
    {s t : DocState} :
    templateLoop M env d template s = .ok doc t ↔
      ∃ rows, template.mapM (readRow env) = .ok rows ∧ rowLoop M d rows s = .ok doc t := by
  induction template generalizing d s with
  | nil =>
      constructor
      · exact fun h => ⟨[], rfl, h⟩
      · rintro ⟨rows, hrows, h⟩
        cases hrows
        exact h
  | cons cells template ih =>
      rw [templateLoop, List.foldlM_cons, List.mapM_cons, bind_eq_ok]
      constructor
      -- cells are read when their turn comes; that changes nothing
      · rintro ⟨d', u, hcells, hrest⟩
        obtain ⟨row, u', hrow, hmerge⟩ := bind_eq_ok.mp hcells
        obtain ⟨hread, rfl⟩ := fromExcept_eq_ok.mp hrow
        obtain ⟨rows, hrows, hloop⟩ := ih.mp hrest
        refine ⟨row :: rows, ?_, rowLoop_cons_eq_ok.mpr ⟨d', u, hmerge, hloop⟩⟩
        rw [hread, hrows]
        rfl
      · rintro ⟨all, hall, hloop⟩
        obtain ⟨row, hread, hall⟩ := Except.bind_eq_ok.mp hall
        obtain ⟨rows, hrows, hcons⟩ := Except.bind_eq_ok.mp hall
        cases hcons
        obtain ⟨d', u, hmerge, hloop⟩ := rowLoop_cons_eq_ok.mp hloop
        refine ⟨d', u, ?_, ih.mpr ⟨rows, hrows, hloop⟩⟩
        exact bind_eq_ok.mpr ⟨row, s, fromExcept_eq_ok.mpr ⟨hread, rfl⟩, hmerge⟩

theorem fetchDoc_eq_ok {env : Env} {template : List (List PyStr)} {w w' : World} {doc : Value} :
    fetchDoc M env template w = .ok doc w' ↔
      ∃ rows t, template.mapM (readRow env) = .ok rows ∧
        rowLoop M (.dict []) rows (DocState.start w) = .ok doc t ∧ w' = t.world := by
  rw [fetchDoc, zoom_eq_ok]
  constructor
  · rintro ⟨t, ht, rfl⟩
    obtain ⟨rows, hrows, hloop⟩ := templateLoop_eq_ok.mp ht
    exact ⟨rows, t, hrows, hloop, rfl⟩
  · rintro ⟨rows, t, hrows, hloop, rfl⟩
    exact ⟨t, templateLoop_eq_ok.mpr ⟨rows, hrows, hloop⟩, rfl⟩

end RowLoop

end MLocust.Faker
