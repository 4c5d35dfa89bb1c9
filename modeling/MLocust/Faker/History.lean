/-
  MLocust.Faker.History

  What a batch depends on: of all that happened in the process before, only on the
  value that `maxArraySize` was left with.

  `possible` is the set of document lists a call can return over all random draws.
  A batch is a chain of documents, each started with the `maxArraySize` that the
  one before left (`mem_possible_iff`).  So the history matters through one number
  (`possible_of_size`), and not even through it for a model that sets the size
  before it uses it (`SetsSizeFirst`, as the reference model does).
-/
import MLocust.Faker.ArraySize
import MLocust.Faker.Blind
import MLocust.Faker.IdBatch

namespace MLocust.Faker

open Lib Lib.Program DataTree PyStr

variable {β : Type} {f : Atom → β} {M : DocMerger} {env : Env} {template : List (List PyStr)}
  {model : PyStr} {n : Int} {w w' : World} {rows : List Row} {row : Row} {m m' : Int}

/-- The lists of documents that `bulkFetch(model, n)` can return over all random draws.  The
    function `f` on atoms takes away what is disregarded. -/
def possible (f : Atom → β) (M : DocMerger) (env : Env) (model : PyStr) (n : Int) (w : World) :
    Set (List (DataTree PyStr β)) :=
  { ds | ∃ draws docs w', bulkFetch M env model n (w.withDraws draws) = .ok docs w' ∧
    docs.map (DataTree.map f) = ds }

/-- The documents that are possible at position `j` of a batch. -/
def possibleAt (f : Atom → β) (M : DocMerger) (env : Env) (model : PyStr) (n : Int) (w : World)
    (j : Nat) : Set (DataTree PyStr β) :=
  { d | ∃ ds ∈ possible f M env model n w, ds[j]? = some d }

/-- One document: the `maxArraySize` it starts with, the document, and the `maxArraySize` it
    leaves. -/
def docRun (f : Atom → β) (M : DocMerger) (env : Env) (template : List (List PyStr)) :
    Int → DataTree PyStr β → Int → Prop :=
  OneRun World.maxArraySize (DataTree.map f) (fetchDoc M env template)

-- ============================================================================
-- A batch is a chain of documents
-- ============================================================================

theorem mem_possible_iff (hblind : BlindRows f env (env.rows (templatePath env model)))
    (hfile : env.isfile (templatePath env model)) {ds : List (DataTree PyStr β)} :
    ds ∈ possible f M env model n w ↔
      Chain (docRun f M env (env.rows (templatePath env model))) w.maxArraySize ds ∧
        ds.length = n.toNat := by
  have hdoc : Related SameSource (fun d d' : Value => d.map f = d'.map f)
      (fetchDoc M env (env.rows (templatePath env model)))
      (fetchDoc M env (env.rows (templatePath env model))) := fetchDoc_related M hblind
  have htape : ∀ draws w, World.draws (World.withDraws draws w) = draws := fun _ _ => rfl
  have hsize : ∀ draws w, World.maxArraySize (World.withDraws draws w) = w.maxArraySize :=
    fun _ _ => rfl
  have hchain := chain_iff_repeat htape hsize (fetchDoc_reads M env _) hdoc (List.range n.toNat)
    w ds
  rw [List.length_range, ← docRun] at hchain
  rw [← hchain, possible, Set.mem_ofPred_eq]
  simp only [bulkFetch, if_pos hfile]

/-- Without the file every call raises. -/
theorem possible_of_not_isfile (hfile : ¬ env.isfile (templatePath env model)) :
    possible f M env model n w = ∅ := by
  apply Set.eq_empty_of_forall_notMem
  rintro ds ⟨draws, docs, w', h, _⟩
  rw [bulkFetch, if_neg hfile] at h
  cases h

/-- Two processes with the same `maxArraySize` can return the same. -/
theorem possible_of_size (hblind : BlindRows f env (env.rows (templatePath env model)))
    (hw : w.maxArraySize = w'.maxArraySize) :
    possible f M env model n w = possible f M env model n w' := by
  by_cases hfile : env.isfile (templatePath env model)
  · ext ds
    rw [mem_possible_iff hblind hfile, mem_possible_iff hblind hfile, hw]
  · rw [possible_of_not_isfile hfile, possible_of_not_isfile hfile]

/-- The documents possible at a position are those that chains have there. -/
theorem possibleAt_eq_outputsAt (hblind : BlindRows f env (env.rows (templatePath env model)))
    (hfile : env.isfile (templatePath env model)) (j : Nat) :
    possibleAt f M env model n w j =
      outputsAt (docRun f M env (env.rows (templatePath env model))) w.maxArraySize n.toNat j := by
  ext d
  constructor
  · rintro ⟨ds, hds, hd⟩
    obtain ⟨hchain, hlen⟩ := (mem_possible_iff hblind hfile).mp hds
    exact ⟨ds, hchain, hlen, hd⟩
  · rintro ⟨ds, hchain, hlen, hd⟩
    exact ⟨ds, (mem_possible_iff hblind hfile).mpr ⟨hchain, hlen⟩, hd⟩

/-- If documents come out alike for all sizes that occur, so do all positions of a batch. -/
theorem possibleAt_of_even (hblind : BlindRows f env (env.rows (templatePath env model)))
    {S : Set Int} (heven : Lib.Even (docRun f M env (env.rows (templatePath env model))) S)
    (hw : w.maxArraySize ∈ S) {i j : Nat} (hi : i < n.toNat) (hj : j < n.toNat) :
    possibleAt f M env model n w i = possibleAt f M env model n w j := by
  by_cases hfile : env.isfile (templatePath env model)
  · rw [possibleAt_eq_outputsAt hblind hfile, possibleAt_eq_outputsAt hblind hfile]
    exact heven.outputsAt_eq hw hi hj
  · simp only [possibleAt, possible_of_not_isfile hfile, Set.mem_empty_iff_false, false_and,
      exists_false]

-- ============================================================================
-- Models that leave the size alone
-- ============================================================================

/-- No row changes `maxArraySize`. -/
def LeavesSize (rows : List Row) : Prop := ∀ row ∈ rows, row.generator.KeepsSize

theorem docRun_leavesSize (hrows : template.mapM (readRow env) = .ok rows)
    (hkeeps : LeavesSize rows) {d : DataTree PyStr β} (h : docRun f M env template m d m') :
    m' = m := by
  obtain ⟨w, doc, w', rfl, hdoc, _, rfl⟩ := h
  obtain ⟨rows', t, hrows', hloop, rfl⟩ := fetchDoc_eq_ok.mp hdoc
  rw [hrows] at hrows'
  cases hrows'
  exact (rowLoop_keepsSize (k := []) hloop hkeeps).1

-- ============================================================================
-- Models that set the size first
-- ============================================================================

/-- Up to `f`, what the generator does depends on the random source only. -/
def Gen.SizeBlind (f : Atom → β) (g : Gen) : Prop :=
  Related (fun w w' => w.draws = w'.draws) (fun v w => MapEq f v.val w.val) g.eval g.eval

/-- `ID(key)` does not look at the size. -/
theorem sizeBlind_id {key : PyStr} (h : ∀ m n, f (.str (key ++ str m)) = f (.str (key ++ str n))) :
    (Gen.id key).SizeBlind f := id_related (fun _ _ hw => hw) h

/-- The model calls `setArraySize` before a row of it draws a length or looks at the size. -/
def SetsSizeFirst (f : Atom → β) (rows : List Row) : Prop :=
  ∃ pre dir post size, rows = pre ++ dir :: post ∧
    (∀ row ∈ pre, arrayNames (comps row.path) = [] ∧ row.generator.SizeBlind f) ∧
    arrayNames (comps dir.path) = [] ∧ dir.generator = .setArraySize size

/-- A path without arrays has one leaf. -/
theorem fill_of_no_array (len : PyStr → Nat) (g : Gen) {cs : List Comp}
    (h : arrayNames cs = []) :
    fill len g cs = (do
      let v ← g.eval
      pure (valueTree len cs fun _ => v)) := by
  induction cs with
  | nil => rfl
  | cons c cs ih =>
      have hc : ¬ c.array := by
        intro hc
        rw [arrayNames_array hc] at h
        cases h
      rw [arrayNames_object hc] at h
      rw [fill, if_neg hc, ih h, bind_assoc]
      refine congrArg _ (funext fun v => ?_)
      rw [pure_bind, valueTree, valueTree, tree_cons, branch_object hc]

/-- A row without arrays evaluates its generator once. -/
theorem mergeRow_of_no_array {d d' : Value} {s t : DocState}
    (h : arrayNames (comps row.path) = []) :
    mergeRow M d row s = .ok d' t ↔ Walkable row.path ∧
      ∃ v, row.generator.eval s.world = .ok v t.world ∧ t.counts = s.counts ∧
        M.merge d (valueTree s.counts.len (comps row.path) fun _ => v) = .ok d' := by
  -- without arrays on the path the generator is evaluated once
  have hrun : ∀ {v}, Walkable row.path → (procpath row.path row.generator s = .ok v t ↔
      ∃ a, row.generator.eval s.world = .ok a t.world ∧ t.counts = s.counts ∧
        v = valueTree s.counts.len (comps row.path) fun _ => a) := by
    intro v hwalk
    rw [procpath_eq hwalk, rowRun_of_present _ (by rw [h]; exact fun _ hk => nomatch hk),
      fill_of_no_array _ _ h, onWorld, zoom_eq_ok]
    constructor
    · rintro ⟨u, hu, rfl⟩
      obtain ⟨a, u', ha, hpure⟩ := bind_eq_ok.mp hu
      cases hpure
      exact ⟨a, ha, rfl, rfl⟩
    · rintro ⟨a, ha, hcounts, rfl⟩
      refine ⟨t.world, bind_eq_ok.mpr ⟨a, t.world, ha, rfl⟩, ?_⟩
      rw [← hcounts]
  rw [mergeRow_eq_ok]
  constructor
  · rintro ⟨v, hv, hm⟩
    have hwalk := walkable_of_procpath_eq_ok hv
    obtain ⟨a, ha, hcounts, rfl⟩ := (hrun hwalk).mp hv
    exact ⟨hwalk, a, ha, hcounts, hm⟩
  · rintro ⟨hwalk, a, ha, hcounts, hm⟩
    exact ⟨_, (hrun hwalk).mpr ⟨a, ha, hcounts, rfl⟩, hm⟩

theorem tree_mapEq (len : PyStr → Nat) (cs : List Comp) {g g' : List Nat → Value}
    (h : ∀ is, MapEq f (g is) (g' is)) : MapEq f (tree len cs g) (tree len cs g') := by
  induction cs generalizing g g' with
  | nil => exact h []
  | cons c cs ih =>
      rw [tree_cons, tree_cons]
      apply mapEq_singleton
      by_cases hc : c.array
      · rw [branch_array hc, branch_array hc, mapEq_list_iff, List.forall₂_map_left_iff,
          List.forall₂_map_right_iff]
        exact List.forall₂_same.mpr fun i _ => ih fun is => h (i :: is)
      · rw [branch_object hc, branch_object hc]
        exact ih h

/-- A row without arrays, in two processes with the same random source. -/
theorem mergeRow_of_draws {Φ : World → World → Prop} (h : arrayNames (comps row.path) = [])
    {d d' e : Value} {s s' t : DocState} (hcounts : s.counts = s'.counts) (hd : MapEq f d d')
    (hg : ∀ v u, row.generator.eval s.world = .ok v u →
      ∃ v' u', row.generator.eval s'.world = .ok v' u' ∧ MapEq f v.val v'.val ∧ Φ u u')
    (hrow : mergeRow M d row s = .ok e t) :
    ∃ e' t', mergeRow M d' row s' = .ok e' t' ∧ MapEq f e e' ∧ t.counts = t'.counts ∧
      Φ t.world t'.world := by
  obtain ⟨hwalk, v, hv, hkept, hm⟩ := (mergeRow_of_no_array h).mp hrow
  obtain ⟨v', u', hv', hvv, hworld⟩ := hg v _ hv
  obtain ⟨e', hm', hee⟩ := Merger.merge_mapEq zipmerge_isZip hd
    (tree_mapEq s.counts.len (comps row.path) fun _ => hvv) hm
  rw [hcounts] at hm'
  exact ⟨e', ⟨s'.counts, u'⟩, (mergeRow_of_no_array h).mpr ⟨hwalk, v', hv', rfl, hm'⟩, hee,
    hkept.trans hcounts, hworld⟩

theorem rowLoop_of_draws {pre : List Row}
    (hpre : ∀ row ∈ pre, arrayNames (comps row.path) = [] ∧ row.generator.SizeBlind f)
    {d d' e : Value} {s s' t : DocState} (hcounts : s.counts = s'.counts)
    (hdraws : s.world.draws = s'.world.draws) (hd : MapEq f d d')
    (h : rowLoop M d pre s = .ok e t) :
    ∃ e' t', rowLoop M d' pre s' = .ok e' t' ∧ MapEq f e e' ∧ t.counts = t'.counts ∧
      t.world.draws = t'.world.draws := by
  induction pre generalizing d d' s s' with
  | nil =>
      cases h
      exact ⟨d', s', rfl, hd, hcounts, hdraws⟩
  | cons row pre ih =>
      obtain ⟨hrow, hpre⟩ := List.forall_mem_cons.mp hpre
      obtain ⟨a, u, ha, hrest⟩ := rowLoop_cons_eq_ok.mp h
      obtain ⟨a', u', ha', haa, hcu, hdu⟩ := mergeRow_of_draws hrow.1 hcounts hd
        (fun v x hv => hrow.2.of_ok hdraws hv) ha
      obtain ⟨e', t', he', hee, hct, hdt⟩ := ih hpre hcu hdu haa hrest
      exact ⟨e', t', rowLoop_cons_eq_ok.mpr ⟨a', u', ha', he'⟩, hee, hct, hdt⟩

theorem rowLoop_related (hblind : ∀ row ∈ rows, row.generator.Blind f) {d d' : Value}
    (hd : MapEq f d d') : Related SameDoc (MapEq f) (rowLoop M d rows) (rowLoop M d' rows) := by
  induction rows generalizing d d' with
  | nil => exact Related.pure hd
  | cons row rows ih =>
      obtain ⟨hrow, hrows⟩ := List.forall_mem_cons.mp hblind
      exact (mergeRow_related M hrow hd).bind fun e e' he => ih hrows he

theorem blind_of_readRow (hblind : BlindRows f env template)
    (hrows : template.mapM (readRow env) = .ok rows) :
    ∀ row ∈ rows, row.generator.Blind f := by
  induction template generalizing rows with
  | nil =>
      cases hrows
      exact fun _ hrow => nomatch hrow
  | cons cells template ih =>
      obtain ⟨hcells, hrest⟩ := List.forall_mem_cons.mp hblind
      rw [List.mapM_cons] at hrows
      obtain ⟨row, hread, hrows⟩ := Except.bind_eq_ok.mp hrows
      obtain ⟨others, hothers, hcons⟩ := Except.bind_eq_ok.mp hrows
      cases hcons
      exact List.forall_mem_cons.mpr ⟨hcells row hread, ih hrest hothers⟩

/-- A model that sets the size first takes no notice of the size it is started with. -/
theorem docRun_setsSizeFirst (hblind : BlindRows f env template)
    (hrows : template.mapM (readRow env) = .ok rows) (hset : SetsSizeFirst f rows)
    {d : DataTree PyStr β} {m₁ : Int} (h : docRun f M env template m d m₁) (m' : Int) :
    docRun f M env template m' d m₁ := by
  obtain ⟨w, doc, _, rfl, hdoc, rfl, rfl⟩ := h
  obtain ⟨rows', t, hrows', hloop, rfl⟩ := fetchDoc_eq_ok.mp hdoc
  rw [hrows] at hrows'
  cases hrows'
  have hall := blind_of_readRow hblind hrows
  obtain ⟨pre, dir, post, size, hsplit, hpre, harr, hdir⟩ := hset
  rw [hsplit] at hloop hall
  obtain ⟨dA, sA, hA, hrest⟩ := rowLoop_append_eq_ok.mp hloop
  obtain ⟨dB, sB, hB, hpost⟩ := rowLoop_cons_eq_ok.mp hrest
  -- the rows before the directive see the same random source, the directive makes the sizes
  -- the same, and from there on both processes go alike
  let w' : World := { w with maxArraySize := m' }
  have hstart : (DocState.start w).counts = (DocState.start w').counts := rfl
  have hdraws : (DocState.start w).world.draws = (DocState.start w').world.draws := rfl
  obtain ⟨dA', sA', hA', hAA, hcountsA, hdrawsA⟩ :=
    rowLoop_of_draws hpre hstart hdraws (.refl _) hA
  -- the directive itself draws nothing
  have heval : ∀ v u, dir.generator.eval sA.world = .ok v u →
      ∃ v' u', dir.generator.eval sA'.world = .ok v' u' ∧ MapEq f v.val v'.val ∧
        SameSource u u' := by
    intro v u hv
    rw [hdir, Gen.eval_setArraySize] at hv
    cases hv
    rw [hdir, Gen.eval_setArraySize]
    exact ⟨_, _, rfl, .refl _, hdrawsA, rfl⟩
  obtain ⟨dB', sB', hB', hBB, hcountsB, hsame⟩ := mergeRow_of_draws harr hcountsA hAA heval hB
  have hpostBlind : ∀ row ∈ post, row.generator.Blind f := fun row hrow =>
    hall row (List.mem_append_right _ (List.mem_cons_of_mem _ hrow))
  obtain ⟨doc', t', hdoc', hdd, htt⟩ :=
    (rowLoop_related hpostBlind hBB).of_ok ⟨hcountsB, hsame⟩ hpost
  refine ⟨w', doc', t'.world, rfl, fetchDoc_eq_ok.mpr ⟨rows, t', hrows, ?_, rfl⟩, hdd, htt.world.2⟩
  rw [hsplit]
  exact rowLoop_append_eq_ok.mpr ⟨dA', sA', hA', rowLoop_cons_eq_ok.mpr ⟨dB', sB', hB', hdoc'⟩⟩

/-- Chains of such documents are the same for all sizes. -/
theorem even_of_setsSizeFirst (hblind : BlindRows f env template)
    (hrows : template.mapM (readRow env) = .ok rows) (hset : SetsSizeFirst f rows) :
    Lib.Even (docRun f M env template) Set.univ where
  stays := fun _ _ _ _ _ => trivial
  same := by
    intro m _ m' _
    ext d
    constructor
    · rintro ⟨m₁, h⟩
      exact ⟨m₁, docRun_setsSizeFirst hblind hrows hset h m'⟩
    · rintro ⟨m₁, h⟩
      exact ⟨m₁, docRun_setsSizeFirst hblind hrows hset h m⟩

theorem chain_setsSizeFirst (hblind : BlindRows f env template)
    (hrows : template.mapM (readRow env) = .ok rows) (hset : SetsSizeFirst f rows)
    {ds : List (DataTree PyStr β)} (h : Chain (docRun f M env template) m ds) (m' : Int) :
    Chain (docRun f M env template) m' ds := by
  cases h with
  | nil => exact .nil m'
  | cons hstep hrest => exact .cons (docRun_setsSizeFirst hblind hrows hset hstep m') hrest

/-- Whatever happened in the process before, such a model can return the same. -/
theorem possible_of_setsSizeFirst
    (hblind : BlindRows f env (env.rows (templatePath env model)))
    (hrows : (env.rows (templatePath env model)).mapM (readRow env) = .ok rows)
    (hset : SetsSizeFirst f rows) :
    possible f M env model n w = possible f M env model n w' := by
  by_cases hfile : env.isfile (templatePath env model)
  · ext ds
    rw [mem_possible_iff hblind hfile, mem_possible_iff hblind hfile]
    exact and_congr_left fun _ => ⟨fun h => chain_setsSizeFirst hblind hrows hset h _,
      fun h => chain_setsSizeFirst hblind hrows hset h _⟩
  · rw [possible_of_not_isfile hfile, possible_of_not_isfile hfile]

-- ============================================================================
-- Generation and history
-- ============================================================================

/-- The array `ks ++ [k]` is mentioned before a row changes `maxArraySize`, and no row that
    ends at or above it returns a list or a dictionary. -/
def EarlyArray (rows : List Row) (ks : List PyStr) (k : PyStr) : Prop :=
  ∃ pre first post, rows = pre ++ first :: post ∧ LeavesSize pre ∧
    k ∈ arrayNames (comps first.path) ∧
    ∀ row ∈ rows, names (comps row.path) <+: ks ++ [k] → row.generator.ReturnsAtoms

/-- Every instance of the array at `path` has 1 to `size` elements. -/
def ArrayWithin (size : Int) (path : List PyStr) (doc : Value) : Prop :=
  ∀ v ∈ instancesAt path doc, ∀ xs, v = .list xs → 1 ≤ xs.length ∧ (xs.length : Int) ≤ size

/-- An early array is bounded by the size its document starts with. -/
theorem fetchDoc_earlyArray (hrows : template.mapM (readRow env) = .ok rows) {ks : List PyStr}
    {k : PyStr} (hearly : EarlyArray rows ks k) {doc : Value}
    (hdoc : fetchDoc M env template w = .ok doc w') :
    ArrayWithin w.maxArraySize (ks ++ [k]) doc := by
  obtain ⟨pre, first, post, hsplit, hkeeps, hfirst, hflat⟩ := hearly
  obtain ⟨rows', t, hrows', hloop, _⟩ := fetchDoc_eq_ok.mp hdoc
  rw [hrows] at hrows'
  cases hrows'
  rw [hsplit] at hloop hflat
  exact early_array_bounded hloop hkeeps hfirst hflat

/-- **Generation and history.**  What a call can return depends on the calls before it only
    through the `maxArraySize` they left, and not at all if the model sets the size first.
    If the model leaves the size alone or sets it first, the same documents are possible at
    every position of a batch.  An array that is mentioned before a row changes the size is
    bounded by the size its document was started with. -/
theorem generation_depends_on_size (f : Atom → β) (M : DocMerger) (env : Env) (model : PyStr)
    (n : Int) (hblind : BlindRows f env (env.rows (templatePath env model))) :
    (∀ draws draws' history,
      possible f M env model n (afterCalls M env (World.fresh draws) history) =
        possible f M env model n { World.fresh draws' with
          maxArraySize := (afterCalls M env (World.fresh draws) history).maxArraySize }) ∧
    ∀ rows, (env.rows (templatePath env model)).mapM (readRow env) = .ok rows →
      (SetsSizeFirst f rows → ∀ draws draws' history,
        possible f M env model n (afterCalls M env (World.fresh draws) history) =
          possible f M env model n (World.fresh draws')) ∧
      (LeavesSize rows ∨ SetsSizeFirst f rows → ∀ w i j, i < n.toNat → j < n.toNat →
        possibleAt f M env model n w i = possibleAt f M env model n w j) ∧
      ∀ ks k, EarlyArray rows ks k → ∀ w doc w',
        fetchDoc M env (env.rows (templatePath env model)) w = .ok doc w' →
          ArrayWithin w.maxArraySize (ks ++ [k]) doc := by
  refine ⟨fun draws draws' history => possible_of_size hblind rfl, fun rows hrows => ⟨?_, ?_, ?_⟩⟩
  -- what is set first hides what was there before
  · intro hset draws draws' history
    exact possible_of_setsSizeFirst hblind hrows hset
  -- all documents start alike if none changes the size, or if each sets it first
  · rintro (hkeeps | hset) w i j hi hj
    · exact possibleAt_of_even hblind
        (even_singleton fun d m' h => docRun_leavesSize hrows hkeeps h) rfl hi hj
    · exact possibleAt_of_even hblind (even_of_setsSizeFirst hblind hrows hset) trivial hi hj
  · intro ks k hearly w doc w' hdoc
    exact fetchDoc_earlyArray hrows hearly hdoc

/-- The strings that `ID` makes for the keys in the files below, without their numbers. -/
def withoutNumber : Atom → Atom
  | .str ('M' :: _) => .str ['M']
  | a => a

/-- The first rows of the reference model. -/
def referenceEnv : Env where
  isfile := fun _ => true
  rows := fun _ => [["IncrementalId".toList, [], [], "ID".toList],
    ["currArraySize".toList, [], [], "ten".toList],
    ["arrayUsingCurrArraySize().randomInt".toList, [], [], "digit".toList]]
  expr := fun text =>
    if text = "ID".toList then .id "M-".toList
    else if text = "ten".toList then .setArraySize 10
    else .random fun d => .ret (.int (1 + d % 9))

/-- The rows of the file. -/
def referenceRows : List Row :=
  [⟨"IncrementalId".toList, .id "M-".toList⟩, ⟨"currArraySize".toList, .setArraySize 10⟩,
    ⟨"arrayUsingCurrArraySize().randomInt".toList, .random fun d => .ret (.int (1 + d % 9))⟩]

theorem blind_random {k : Nat → Gen} (h : ∀ d, (k d).Blind f) : (Gen.random k).Blind f :=
  draw_related.bind fun d _ hd => hd ▸ h d

theorem blindRows_of_rows (hrows : template.mapM (readRow env) = .ok rows)
    (h : ∀ row ∈ rows, row.generator.Blind f) : BlindRows f env template := by
  induction template generalizing rows with
  | nil => exact fun _ hcells => nomatch hcells
  | cons cells template ih =>
      rw [List.mapM_cons] at hrows
      obtain ⟨row, hread, hrows⟩ := Except.bind_eq_ok.mp hrows
      obtain ⟨others, hothers, hcons⟩ := Except.bind_eq_ok.mp hrows
      cases hcons
      obtain ⟨hrow, h⟩ := List.forall_mem_cons.mp h
      refine List.forall_mem_cons.mpr ⟨fun row' hread' => ?_, ih hothers h⟩
      rw [hread] at hread'
      cases hread'
      exact hrow

theorem referenceRows_blind : ∀ row ∈ referenceRows, row.generator.Blind withoutNumber := by
  intro row hrow
  simp only [referenceRows, List.mem_cons, List.not_mem_nil, or_false] at hrow
  rcases hrow with rfl | rfl | rfl
  · exact blind_id fun _ _ => rfl
  · exact blind_setArraySize 10
  · exact blind_random fun d => blind_ret _

theorem referenceRows_setSizeFirst : SetsSizeFirst withoutNumber referenceRows := by
  refine ⟨[_], _, [_], 10, rfl, fun row hrow => ?_, by decide, rfl⟩
  rw [List.mem_singleton.mp hrow]
  exact ⟨by decide, sizeBlind_id fun _ _ => rfl⟩

theorem memberRows_blind : ∀ row ∈ memberRows, row.generator.Blind withoutNumber := by
  intro row hrow
  simp only [memberRows, List.mem_cons, List.not_mem_nil, or_false] at hrow
  rcases hrow with rfl | rfl
  · exact blind_id fun _ _ => rfl
  · exact blind_ret _

theorem memberRows_earlyArray : EarlyArray memberRows [] "members".toList := by
  refine ⟨[], _, [_], rfl, fun _ hrow => (nomatch hrow), by decide, fun row hrow _ => ?_⟩
  simp only [memberRows, List.mem_cons, List.not_mem_nil, or_false] at hrow
  rcases hrow with rfl | rfl
  · exact id_returnsAtoms _
  · intro w v w' h
    cases h
    trivial

/-- The reference model generates the same after any history and at every position; the array
    of `memberRows` is bounded by the size its document starts with. -/
theorem reference_generation :
    (∀ draws draws' history,
      possible withoutNumber merger referenceEnv "_reference.csv".toList 2
          (afterCalls merger referenceEnv (World.fresh draws) history) =
        possible withoutNumber merger referenceEnv "_reference.csv".toList 2
          (World.fresh draws')) ∧
    (∀ w, possibleAt withoutNumber merger referenceEnv "_reference.csv".toList 2 w 0 =
      possibleAt withoutNumber merger referenceEnv "_reference.csv".toList 2 w 1) ∧
    ∀ w doc w', fetchDoc merger memberEnv (memberEnv.rows []) w = .ok doc w' →
      ArrayWithin w.maxArraySize ["members".toList] doc := by
  obtain ⟨_, hrows⟩ := generation_depends_on_size withoutNumber merger referenceEnv
    "_reference.csv".toList 2 (blindRows_of_rows rfl referenceRows_blind)
  obtain ⟨hsame, hposition, _⟩ := hrows referenceRows rfl
  obtain ⟨_, hmember⟩ := generation_depends_on_size withoutNumber merger memberEnv
    "member.csv".toList 2 (blindRows_of_rows rfl memberRows_blind)
  refine ⟨hsame referenceRows_setSizeFirst, fun w => ?_, ?_⟩
  · exact hposition (Or.inr referenceRows_setSizeFirst) w 0 1 (by decide) (by decide)
  · exact (hmember memberRows rfl).2.2 [] "members".toList memberRows_earlyArray

/-- A model that uses the size before it sets it. -/
def growEnv : Env where
  isfile := fun _ => true
  rows := fun _ => [["a().x".toList, [], [], []], ["size".toList, [], [], "ten".toList]]
  expr := fun text => if text = "ten".toList then .setArraySize 10 else .ret (.int 0)

/-- Its rows. -/
def growRows : List Row := [listRow, sizeRow 10]

/-- A process whose random source always gives 6. -/
def sixWorld : World := World.fresh fun _ => 6

/-- The document with `m` elements. -/
def grown (m : Nat) : Value := .dict [("a".toList, .list (List.replicate m xDoc)), sizeItem 10]

theorem growRows_blind : ∀ row ∈ growRows, row.generator.Blind (id : Atom → Atom) := by
  intro row hrow
  simp only [growRows, List.mem_cons, List.not_mem_nil, or_false] at hrow
  rcases hrow with rfl | rfl
  · exact blind_ret _
  · exact blind_setArraySize 10

theorem growRows_earlyArray : EarlyArray growRows [] "a".toList := by
  refine ⟨[], _, [_], rfl, fun _ hrow => (nomatch hrow), by decide, fun row hrow _ => ?_⟩
  simp only [growRows, List.mem_cons, List.not_mem_nil, or_false] at hrow
  intro w v w' h
  rcases hrow with rfl | rfl
  · cases h
    trivial
  · cases h
    trivial

theorem fetchDoc_grow {m : ℕ+}
    (hvals : rowValues listValues.path listRow.generator (DocState.start w) =
      .ok (listValues.values (lengthOfA m w').counts.len) (lengthOfA m w'))
    (hm : merger.merge (.dict []) (listValues.tree (lengthOfA m w').counts.len) =
      .ok (.dict [("a".toList, .list (List.replicate m xDoc))])) :
    fetchDoc merger growEnv (growEnv.rows []) w = .ok (grown m) (w'.afterSetArraySize 10) := by
  refine fetchDoc_eq_ok.mpr ⟨growRows, lengthOfA m (w'.afterSetArraySize 10), rfl, ?_, rfl⟩
  have harray := rowLoop_of_values (by decide) (by decide) hvals hm
  have hsize : rowLoop merger (.dict [("a".toList, .list (List.replicate m xDoc))]) [sizeRow 10]
      (lengthOfA m w') = .ok (grown m) (lengthOfA m (w'.afterSetArraySize 10)) :=
    rowLoop_of_values (r := sizeValues 10) (by decide) (by decide) rfl rfl
  show rowLoop merger _ ([listRow] ++ [sizeRow 10]) _ = _
  exact rowLoop_append_eq_ok.mpr ⟨_, _, harray, hsize⟩

theorem fetchDoc_sixWorld :
    fetchDoc merger growEnv (growEnv.rows []) sixWorld =
      .ok (grown 2) (sixWorld.afterSetArraySize 10) := fetchDoc_grow (m := 2) rfl rfl

theorem docRun_grow_two : docRun id merger growEnv (growEnv.rows []) 5 (grown 2) 10 :=
  ⟨sixWorld, _, _, rfl, fetchDoc_sixWorld, (map_id _).symm, rfl⟩

theorem docRun_grow_seven : docRun id merger growEnv (growEnv.rows []) 10 (grown 7) 10 :=
  ⟨sixWorld.afterSetArraySize 10, _, _, rfl, fetchDoc_grow (m := 7) rfl rfl, (map_id _).symm, rfl⟩

theorem not_docRun_grow_seven : ¬ docRun id merger growEnv (growEnv.rows []) 5 (grown 7) m' := by
  rintro ⟨w, doc, w', hw, hdoc, hd, _⟩
  rw [map_id] at hd
  have hwithin := fetchDoc_earlyArray rfl growRows_earlyArray hdoc
  have hle := (hwithin (.list (List.replicate 7 xDoc)) (hd ▸ List.mem_singleton_self _) _ rfl).2
  rw [hw, List.length_replicate] at hle
  omega

/-- After a batch of `growRows` a document of 7 elements is possible, which a fresh process
    cannot return; in a batch of two it is possible at the second position only. -/
theorem generation_depends_on_history :
    possible id merger growEnv "grow.csv".toList 1
        (afterCalls merger growEnv sixWorld [("grow.csv".toList, 1)]) ≠
      possible id merger growEnv "grow.csv".toList 1 sixWorld ∧
    possibleAt id merger growEnv "grow.csv".toList 2 sixWorld 0 ≠
      possibleAt id merger growEnv "grow.csv".toList 2 sixWorld 1 ∧
    grown 7 ∈ possibleAt id merger growEnv "grow.csv".toList 2 sixWorld 1 ∧
    EarlyArray growRows [] "a".toList ∧ ¬ ArrayWithin 5 ["a".toList] (grown 7) := by
  have hblind : BlindRows id growEnv (growEnv.rows []) := blindRows_of_rows rfl growRows_blind
  have hafter :
      (afterCalls merger growEnv sixWorld [("grow.csv".toList, 1)]).maxArraySize = 10 := by
    show (afterCall merger growEnv sixWorld ("grow.csv".toList, 1)).maxArraySize = 10
    rw [afterCall, bulkFetch_one rfl fetchDoc_sixWorld]
    rfl
  have hsecond : grown 7 ∈ possibleAt id merger growEnv "grow.csv".toList 2 sixWorld 1 := by
    refine ⟨[grown 2, grown 7], (mem_possible_iff hblind rfl).mpr ⟨?_, rfl⟩, rfl⟩
    exact .cons docRun_grow_two (.cons docRun_grow_seven (.nil _))
  refine ⟨fun h => ?_, fun h => ?_, hsecond, growRows_earlyArray, fun h => ?_⟩
  -- after one call the size is 10, and 7 elements are possible
  · have hseven : [grown 7] ∈ possible id merger growEnv "grow.csv".toList 1
        (afterCalls merger growEnv sixWorld [("grow.csv".toList, 1)]) := by
      refine (mem_possible_iff hblind rfl).mpr ⟨?_, rfl⟩
      rw [hafter]
      exact .cons docRun_grow_seven (.nil _)
    rw [h] at hseven
    cases ((mem_possible_iff hblind rfl).mp hseven).1 with
    | cons hstep _ => exact not_docRun_grow_seven hstep
  -- the first document of a batch is generated under 5, the second under 10
  · rw [← h] at hsecond
    obtain ⟨ds, hds, hd⟩ := hsecond
    cases ((mem_possible_iff hblind rfl).mp hds).1 with
    | nil => cases hd
    | cons hstep _ =>
        cases hd
        exact not_docRun_grow_seven hstep
  · have hle := (h _ (List.mem_singleton_self _) _ rfl).2
    rw [List.length_replicate] at hle
    omega

end MLocust.Faker
