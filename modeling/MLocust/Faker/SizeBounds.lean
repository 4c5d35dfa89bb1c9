/-
  MLocust.Faker.SizeBounds

  How far `maxArraySize` reaches into a batch.

  What draws and the generators of a model do to a process, a call of `bulkFetch` does
  as well, returning or raising (`bulkFetch_guarantees`).  So a call keeps a bound
  on `maxArraySize` if its generators do, and then no array is longer than the bound
  (`fetchDoc_within`); and an array whose name is used for the first time behind the
  model's own directive is bounded by this directive, whatever the process did before
  (`fetchDoc_sized`).  Both are about arrays that the rows make: no row that ends at or
  above the array may return a list or a dictionary (`AtomsAbove`).
-/
import MLocust.Faker.History

namespace MLocust.Faker

open Lib Lib.Program DataTree PyStr

variable {P : World → World → Prop} {M : DocMerger} {env : Env} {template : List (List PyStr)}
  {model : PyStr} {rows : List Row} {row : Row} {d d' doc : Value} {s t u : DocState}
  {w w' : World} {k : PyStr} {ks : List PyStr} {bound n : Int}

-- ============================================================================
-- What a call does to the process
-- ============================================================================

/-- A relation between two states of a process that random draws respect. -/
structure Undrawn (P : World → World → Prop) : Prop where
  refl : ∀ w, P w w
  trans : ∀ {u v w}, P u v → P v w → P u w
  draws : ∀ (w : World) draws, P w { w with draws := draws }

/-- The relation between two states of a document. -/
def OfWorld (P : World → World → Prop) (s t : DocState) : Prop := P s.world t.world

theorem onWorld_guarantees {α : Type} {x : Py World α} (h : Guarantees P x) :
    Guarantees (OfWorld P) (onWorld x) :=
  h.zoom fun _ _ hst => hst

/-- Looking up a length draws at most. -/
theorem lookupCount_guarantees (hP : Undrawn P) (name : PyStr) :
    Guarantees (OfWorld P) (lookupCount name) := by
  intro s
  cases hc : s.counts name with
  | some n =>
      rw [lookupCount_of_some hc]
      exact hP.refl s.world
  | none =>
      rw [lookupCount_of_none hc]
      cases hr : randintFromOne s.world.maxArraySize s.world with
      | ok n w =>
          rw [(randintFromOne_eq_ok hr).2]
          exact hP.draws s.world _
      | error e w =>
          rw [randintFromOne] at hr
          split at hr
          · cases hr
            exact hP.refl s.world
          · cases hr

/-- `procpath` draws lengths and evaluates the generator. -/
theorem procpath_guarantees (hP : Undrawn P) {g : Gen} (hg : Guarantees P g.eval)
    (path : List PyStr) : Guarantees (OfWorld P) (procpath path g) := by
  have hrefl : ∀ s, OfWorld P s s := fun s => hP.refl s.world
  induction path using procpath.induct with
  | case1 =>
      rw [procpath_nil]
      exact Guarantees.throw hrefl _
  | case2 component rest ihArray ihObject =>
      rw [procpath]
      refine Guarantees.bind (P := OfWorld P) hP.trans (Guarantees.fromExcept hrefl _) ?_
      intro stripped
      split
      -- last component: the generator
      · refine Guarantees.bind (P := OfWorld P) hP.trans (onWorld_guarantees hg) ?_
        exact fun v => Guarantees.pure hrefl _
      · split
        · rename_i hmark
          -- array: a draw, and one run of the rest for each element
          have helement : ∀ _ : Nat, Guarantees (OfWorld P) (do
              let element ← procpath (stripMarker component :: rest) g
              fromExcept (getItem element stripped)) := fun _ =>
            Guarantees.bind (P := OfWorld P) hP.trans (ihArray hmark) fun _ =>
              Guarantees.fromExcept hrefl _
          refine Guarantees.bind (P := OfWorld P) hP.trans (lookupCount_guarantees hP _) ?_
          intro length
          refine Guarantees.bind (P := OfWorld P) hP.trans
            (Guarantees.mapM hrefl hP.trans helement _) ?_
          exact fun xs => Guarantees.pure hrefl _
        -- object: the rest of the path
        · refine Guarantees.bind (P := OfWorld P) hP.trans ihObject ?_
          exact fun v => Guarantees.pure hrefl _

/-- **One row** does what draws and its generator do. -/
theorem mergeRow_guarantees (hP : Undrawn P) (hg : Guarantees P row.generator.eval) (d : Value) :
    Guarantees (OfWorld P) (mergeRow M d row) :=
  Guarantees.bind (P := OfWorld P) hP.trans (procpath_guarantees hP hg _) fun _ =>
    Guarantees.fromExcept (fun s => hP.refl s.world) _

/-- The generator of every row of the file that can be read respects the relation. -/
def RowsGuarantee (P : World → World → Prop) (env : Env) (template : List (List PyStr)) : Prop :=
  ∀ cells ∈ template, ∀ row, readRow env cells = .ok row → Guarantees P row.generator.eval

theorem templateLoop_guarantees (hP : Undrawn P) (h : RowsGuarantee P env template) (d : Value) :
    Guarantees (OfWorld P) (templateLoop M env d template) := by
  have hrefl : ∀ s, OfWorld P s s := fun s => hP.refl s.world
  induction template generalizing d with
  | nil => exact Guarantees.pure hrefl d
  | cons cells template ih =>
      obtain ⟨hcells, hrest⟩ := List.forall_mem_cons.mp h
      refine Guarantees.bind (P := OfWorld P) hP.trans ?_ (ih hrest)
      show Guarantees (OfWorld P) (fromExcept (readRow env cells) >>= fun row => mergeRow M d row)
      cases hread : readRow env cells with
      | error e => exact Guarantees.throw hrefl e
      | ok row => exact mergeRow_guarantees hP (hcells row hread) d

theorem fetchDoc_guarantees (hP : Undrawn P) (h : RowsGuarantee P env template) :
    Guarantees P (fetchDoc M env template) :=
  (templateLoop_guarantees hP h _).zoom fun _ _ hst => hst

/-- **A call** of `bulkFetch`, returning or raising, does to the process what draws and the
    generators of its model do. -/
theorem bulkFetch_guarantees (hP : Undrawn P)
    (h : RowsGuarantee P env (env.rows (templatePath env model))) (n : Int) :
    Guarantees P (bulkFetch M env model n) := by
  rw [bulkFetch]
  split
  · exact Guarantees.mapM hP.refl hP.trans (fun _ => fetchDoc_guarantees hP h) _
  · exact Guarantees.throw hP.refl _

/-- `maxArraySize` is as it was. -/
def SameSize (w w' : World) : Prop := w'.maxArraySize = w.maxArraySize

/-- `maxArraySize` stays within the bound. -/
def StaysWithin (bound : Int) (w w' : World) : Prop :=
  w.maxArraySize ≤ bound → w'.maxArraySize ≤ bound

theorem sameSize_undrawn : Undrawn SameSize where
  refl := fun _ => rfl
  trans := fun h h' => h'.trans h
  draws := fun _ _ => rfl

theorem staysWithin_undrawn (bound : Int) : Undrawn (StaysWithin bound) where
  refl := fun _ hw => hw
  trans := fun h h' hw => h' (h hw)
  draws := fun _ _ hw => hw

-- ============================================================================
-- Arrays within a bound
-- ============================================================================

/-- The current size and all lengths drawn for the document are within the bound. -/
structure Within (bound : Int) (s : DocState) : Prop where
  size : s.world.maxArraySize ≤ bound
  drawn : ∀ k (n : ℕ+), s.counts k = some n → (n : Int) ≤ bound

theorem within_start (hw : w.maxArraySize ≤ bound) : Within bound (DocState.start w) :=
  ⟨hw, fun k n hn => by cases hn⟩

theorem Within.mergeRow (h : Within bound s)
    (hg : Guarantees (StaysWithin bound) row.generator.eval)
    (hrow : mergeRow M d row s = .ok d' u) : Within bound u := by
  constructor
  · exact (mergeRow_guarantees (staysWithin_undrawn bound) hg d).of_ok hrow h.size
  · intro k n hn
    rcases mergeRow_new hrow hn with hs | ⟨_, hle⟩
    · exact h.drawn k n hs
    · exact hle.trans h.size

theorem Within.rowLoop (h : Within bound s)
    (hrows : ∀ row ∈ rows, Guarantees (StaysWithin bound) row.generator.eval)
    (hloop : rowLoop M d rows s = .ok doc t) : Within bound t := by
  induction rows generalizing d s with
  | nil =>
      cases hloop
      exact h
  | cons row rows ih =>
      obtain ⟨d', u, hrow, hrest⟩ := rowLoop_cons_eq_ok.mp hloop
      obtain ⟨hg, hrows⟩ := List.forall_mem_cons.mp hrows
      exact ih (h.mergeRow hg hrow) hrows hrest

/-- No row that ends at or above the array returns a list or a dictionary. -/
def AtomsAbove (rows : List Row) (path : List PyStr) : Prop :=
  ∀ row ∈ rows, names (comps row.path) <+: path → row.generator.ReturnsAtoms

/-- What holds of the rows of a file that can be read holds of each row that can be read. -/
theorem forall_readRow {R : Row → Prop} (hrows : template.mapM (readRow env) = .ok rows) :
    (∀ cells ∈ template, ∀ row, readRow env cells = .ok row → R row) ↔ ∀ row ∈ rows, R row := by
  induction template generalizing rows with
  | nil =>
      cases hrows
      exact iff_of_true (List.forall_mem_nil _) (List.forall_mem_nil _)
  | cons cells template ih =>
      rw [List.mapM_cons] at hrows
      obtain ⟨row, hread, hrows⟩ := Except.bind_eq_ok.mp hrows
      obtain ⟨others, hothers, hcons⟩ := Except.bind_eq_ok.mp hrows
      cases hcons
      rw [List.forall_mem_cons, List.forall_mem_cons, ih hothers]
      refine and_congr_left fun _ => ⟨fun h => h row hread, fun hrow row' hread' => ?_⟩
      rw [hread] at hread'
      cases hread'
      exact hrow

/-- **Arrays within a bound.**  If a document is started within the bound and its generators stay
    within it, its arrays do. -/
theorem fetchDoc_within (hrows : template.mapM (readRow env) = .ok rows)
    (hwithin : RowsGuarantee (StaysWithin bound) env template) (hw : w.maxArraySize ≤ bound)
    (hflat : AtomsAbove rows (ks ++ [k])) (hdoc : fetchDoc M env template w = .ok doc w') :
    ArrayWithin bound (ks ++ [k]) doc := by
  obtain ⟨rows', t, hrows', hloop, _⟩ := fetchDoc_eq_ok.mp hdoc
  rw [hrows] at hrows'
  cases hrows'
  have hend : Within bound t :=
    (within_start hw).rowLoop ((forall_readRow hrows).mp hwithin) hloop
  have hpresent : ∀ row ∈ rows, ∀ k ∈ arrayNames (comps row.path), ∃ n, t.counts k = some n := by
    obtain ⟨_, rs, ⟨_, hvals⟩, _⟩ := rowLoop_eq_ok.mp hloop
    exact docValues_present hvals
  have halong : ListsAlong (fun _ len => 1 ≤ len ∧ (len : Int) ≤ bound) (ks ++ [k]) doc := by
    refine listsAlong_rowLoop hloop (fun row hrow j hj => ?_) listsAlong_empty hflat
    obtain ⟨m, hm⟩ := hpresent row hrow j hj
    rw [Counts.len_of_some hm]
    exact ⟨m.pos, hend.drawn j m hm⟩
  intro v hv xs hxs
  exact listsAlong_instancesAt halong hv hxs

/-- **A batch** is within the bound as well, since its documents hand the bound on. -/
theorem bulkFetch_within (hrows : (env.rows (templatePath env model)).mapM (readRow env) = .ok rows)
    (hwithin : RowsGuarantee (StaysWithin bound) env (env.rows (templatePath env model)))
    (hflat : AtomsAbove rows (ks ++ [k])) (hw : w.maxArraySize ≤ bound) {docs : List Value}
    (h : bulkFetch M env model n w = .ok docs w') :
    ∀ doc ∈ docs, ArrayWithin bound (ks ++ [k]) doc := by
  rw [bulkFetch] at h
  split at h
  · refine (mapM_invariant (I := fun w => w.maxArraySize ≤ bound) (fun hu hdoc => ?_) _ hw h).1
    exact ⟨fetchDoc_within hrows hwithin hu hflat hdoc,
      (fetchDoc_guarantees (staysWithin_undrawn bound) hwithin).of_ok hdoc hu⟩
  · cases h

-- ============================================================================
-- Arrays behind a directive
-- ============================================================================

/-- The name `k` is used for an array for the first time after the model's own directive of `n`,
    no row between the two changes the size, and no row that ends at or above the array
    `ks ++ [k]` returns a list or a dictionary. -/
def SizedArray (rows : List Row) (ks : List PyStr) (k : PyStr) (n : Int) : Prop :=
  ∃ pre dir mid first post, rows = pre ++ dir :: (mid ++ first :: post) ∧
    dir.generator = .setArraySize n ∧ LeavesSize mid ∧ k ∈ arrayNames (comps first.path) ∧
    (∀ row ∈ pre ++ dir :: mid, k ∉ arrayNames (comps row.path)) ∧ AtomsAbove rows (ks ++ [k])

/-- The last of several evaluations leaves its size. -/
theorem maxArraySize_of_mapM {ι : Type} {l : List ι} (hl : l ≠ []) {vs : List PyValue}
    (h : (l.mapM fun _ => (Gen.setArraySize n).eval) w = .ok vs w') : w'.maxArraySize = n := by
  induction l generalizing w vs with
  | nil => exact absurd rfl hl
  | cons i l ih =>
      rw [List.mapM_cons] at h
      obtain ⟨v, u, hv, h⟩ := bind_eq_ok.mp h
      obtain ⟨rest, u', hrest, hcons⟩ := bind_eq_ok.mp h
      cases hcons
      cases l with
      | nil =>
          cases hv
          cases hrest
          rfl
      | cons j l => exact ih (List.cons_ne_nil j l) hrest

/-- A directive leaves its size, however often its row evaluates it. -/
theorem mergeRow_setArraySize (hdir : row.generator = .setArraySize n)
    (hrow : mergeRow M d row s = .ok d' u) : u.world.maxArraySize = n := by
  obtain ⟨_, f, hf, _⟩ := mergeRow_values hrow fun _ _ hn => hn
  obtain ⟨_, _, _, hleaves⟩ := rowValues_eq_ok.mp hf
  have hpos : ∀ k ∈ arrayNames (comps row.path), 0 < u.counts.len k := by
    intro k hk
    obtain ⟨m, hm⟩ := (rowValues_counts hf).2 k hk
    rw [Counts.len_of_some hm]
    exact m.pos
  obtain ⟨is, his⟩ := exists_mem_indices hpos
  rw [hdir] at hleaves
  exact maxArraySize_of_mapM (List.ne_nil_of_mem his) hleaves

/-- **Arrays behind a directive** have 1 to `n` elements, whatever size the document is started
    with. -/
theorem fetchDoc_sized (hrows : template.mapM (readRow env) = .ok rows)
    (hsized : SizedArray rows ks k n) (hdoc : fetchDoc M env template w = .ok doc w') :
    ArrayWithin n (ks ++ [k]) doc := by
  obtain ⟨pre, dir, mid, first, post, hsplit, hdir, hmid, hfirst, hnew, hflat⟩ := hsized
  obtain ⟨rows', t, hrows', hloop, _⟩ := fetchDoc_eq_ok.mp hdoc
  rw [hrows] at hrows'
  cases hrows'
  have hrun := hloop
  rw [hsplit] at hrun
  obtain ⟨dA, sA, hpre, hrest⟩ := rowLoop_append_eq_ok.mp hrun
  obtain ⟨dB, sB, hB, hrest⟩ := rowLoop_cons_eq_ok.mp hrest
  obtain ⟨dC, sC, hC, hrest⟩ := rowLoop_append_eq_ok.mp hrest
  obtain ⟨dD, sD, hD, hpost⟩ := rowLoop_cons_eq_ok.mp hrest
  -- the size is that of the directive, and the length of `k` is drawn against it
  have hsize : sC.world.maxArraySize = n := by
    rw [(rowLoop_keepsSize (k := k) hC hmid).1, mergeRow_setArraySize hdir hB]
  have hnone : sC.counts k = none :=
    rowLoop_not_drawn (rowLoop_append_eq_ok.mpr ⟨dA, sA, hpre,
      rowLoop_cons_eq_ok.mpr ⟨dB, sB, hB, hC⟩⟩) hnew rfl
  obtain ⟨m, hm⟩ : ∃ m, sD.counts k = some m := by
    obtain ⟨_, f, hf, _⟩ := mergeRow_values hD fun _ _ hn => hn
    exact (rowValues_counts hf).2 k hfirst
  have hle : (m : Int) ≤ n := by
    rcases mergeRow_new hD hm with hs | ⟨_, hle⟩
    · rw [hnone] at hs
      cases hs
    · rwa [hsize] at hle
  intro v hv xs hxs
  have hlen := length_of_instance hloop (rowLoop_mono hpost k m hm) hflat v hv xs hxs
  have hpos := m.pos
  omega

theorem bulkFetch_sized (hrows : (env.rows (templatePath env model)).mapM (readRow env) = .ok rows)
    (hsized : SizedArray rows ks k bound) {docs : List Value}
    (h : bulkFetch M env model n w = .ok docs w') :
    ∀ doc ∈ docs, ArrayWithin bound (ks ++ [k]) doc := by
  rw [bulkFetch] at h
  split at h
  · exact forall_mem_mapM (fun hdoc => fetchDoc_sized hrows hsized hdoc) _ h
  · cases h

end MLocust.Faker
