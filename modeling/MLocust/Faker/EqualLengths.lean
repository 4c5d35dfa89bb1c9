/-
  MLocust.Faker.EqualLengths

  The assumption of `zipmerge`, lists of equal length, is an invariant of document
  generation.

  A call of `procpath` never changes a length drawn before, and every list it builds
  has the length that its bare name has on return (`lengthsDrawn_of_procpath`).  A
  new length is drawn at one of the lookups of the call (`LooksUp` follows the
  recursion), against the `maxArraySize` of that moment.  So the lists of a document
  are sized by their names all along the row loop (`sized_rowLoop`), and merging the
  next partial tree calls `zipmerge` on lists of equal length only.
-/
import MLocust.Lib.SizedLists
import MLocust.Faker.ArraySize

namespace MLocust.Faker

open Lib Lib.Program DataTree PyStr

-- ============================================================================
-- The lookups of a call
-- ============================================================================

/-- One round of the array branch of `procpath`. -/
def arrayElement (component : PyStr) (rest : List PyStr) (g : Gen) : Py DocState Value := do
  let element ← procpath (stripMarker component :: rest) g
  fromExcept (getItem element (stripName component))

/-- While `procpath` walks the path from the first state, it looks up `counts[k]` in the last
    one: for the first component of the path, inside one of the elements that are built for
    it, after the elements before that one, or further down the path. -/
inductive LooksUp (g : Gen) : List PyStr → DocState → PyStr → DocState → Prop
  | here {component rest s} : component ≠ [] → rest ≠ [] → endsWithMarker component →
      LooksUp g (component :: rest) s (stripName component) s
  | element {component rest s s₁ s₂ k u} {n : ℕ+} {i : Nat} {xs : List Value} :
      component ≠ [] → rest ≠ [] → endsWithMarker component →
      lookupCount (stripName component) s = .ok n s₁ → i < n →
      ((List.range i).mapM fun _ => arrayElement component rest g) s₁ = .ok xs s₂ →
      LooksUp g (stripMarker component :: rest) s₂ k u → LooksUp g (component :: rest) s k u
  | object {component rest s k u} : component ≠ [] → rest ≠ [] → ¬ endsWithMarker component →
      LooksUp g rest s k u → LooksUp g (component :: rest) s k u

/-- While `procpath` walks the path from `s`, the length of `k` is looked up in state `u` for the
    first time and drawn as `n`. -/
structure FirstDraw (g : Gen) (path : List PyStr) (s : DocState) (k : PyStr) (n : ℕ+)
    (u : DocState) : Prop where
  looksUp : LooksUp g path s k u
  missing : u.counts k = none
  drawn : ∃ u', lookupCount k u = .ok n u'

variable {M : DocMerger} {path rest : List PyStr} {component k : PyStr} {g : Gen}
  {rows : List Row} {row : Row} {d doc v : Value} {s t u : DocState} {n : ℕ+}

/-- A length is drawn between 1 and the `maxArraySize` of the moment. -/
theorem FirstDraw.bound (h : FirstDraw g path s k n u) :
    1 ≤ (n : Int) ∧ (n : Int) ≤ u.world.maxArraySize := by
  obtain ⟨u', hu⟩ := h.drawn
  obtain ⟨hn, hdrawn⟩ := lookupCount_eq_ok hu
  have hpos := n.pos
  refine ⟨by omega, ?_⟩
  rcases hdrawn.new k n hn with hold | ⟨_, hle⟩
  · rw [h.missing] at hold
    cases hold
  · exact hle

theorem arrayElement_eq_ok (h : arrayElement component rest g s = .ok v t) :
    ∃ element, procpath (stripMarker component :: rest) g s = .ok element t := by
  obtain ⟨element, u, helement, hget⟩ := bind_eq_ok.mp h
  obtain ⟨_, rfl⟩ := fromExcept_eq_ok.mp hget
  exact ⟨element, helement⟩

theorem arrayElement_steps : Guarantees DocSteps (arrayElement component rest g) :=
  Guarantees.bind .trans (procpath_steps _ g) fun _ => Guarantees.fromExcept .refl _

/-- A length there is after an element was missing before it, or was the same. -/
theorem arrayElement_counts (h : arrayElement component rest g s = .ok v t)
    (ht : t.counts k = some n) : s.counts k = none ∨ s.counts k = some n := by
  cases hs : s.counts k with
  | none => exact Or.inl rfl
  | some m =>
      have hm := (arrayElement_steps.of_ok h).counts k m hs
      rw [ht] at hm
      exact Or.inr hm.symm

/-- A lookup draws no length but the one it looks up. -/
theorem eq_of_lookupCount {name : PyStr} {m : ℕ+} (h : lookupCount name s = .ok m t)
    (hs : s.counts k = none) (ht : t.counts k = some n) : k = name ∧ m = n := by
  obtain ⟨hm, hdrawn⟩ := lookupCount_eq_ok h
  rcases hdrawn.new k n ht with hold | ⟨hk, _⟩
  · rw [hs] at hold
    cases hold
  · rw [List.mem_singleton] at hk
    subst hk
    rw [hm] at ht
    exact ⟨rfl, Option.some.inj ht⟩

/-- What a call of `procpath` that returned went through in the array branch. -/
theorem procpath_array_eq_ok (hne : component ≠ []) (hrest : rest ≠ [])
    (hmark : endsWithMarker component) (h : procpath (component :: rest) g s = .ok v t) :
    ∃ (n : ℕ+) (s₁ : DocState) (xs : List Value), lookupCount (stripName component) s = .ok n s₁ ∧
      ((List.range n).mapM fun _ => arrayElement component rest g) s₁ = .ok xs t := by
  rw [procpath_array hne hrest hmark] at h
  obtain ⟨n, s₁, hn, h⟩ := bind_eq_ok.mp h
  obtain ⟨xs, s₂, hxs, h⟩ := bind_eq_ok.mp h
  cases h
  exact ⟨n, s₁, xs, hn, hxs⟩

/-- **First draws.**  A length that is new on return was drawn at a lookup of the call. -/
theorem exists_firstDraw (h : procpath path g s = .ok v t) (hs : s.counts k = none)
    (ht : t.counts k = some n) : ∃ u, FirstDraw g path s k n u := by
  induction path using procpath.induct generalizing s t v with
  | case1 =>
      rw [procpath_nil] at h
      cases h
  | case2 component rest ihArray ihObject =>
      by_cases hne : component = []
      · subst hne
        rw [procpath_empty] at h
        cases h
      by_cases hrest : rest = []
      · subst hrest
        -- the last component looks up no length
        rw [procpath_last hne] at h
        obtain ⟨a, u, ha, h⟩ := bind_eq_ok.mp h
        cases h
        rw [onWorld_counts ha, hs] at ht
        cases ht
      by_cases hmark : endsWithMarker component
      · obtain ⟨m, s₁, xs, hm, hxs⟩ := procpath_array_eq_ok hne hrest hmark h
        have hmono := (Guarantees.mapM .refl .trans (fun _ => arrayElement_steps) _).of_ok hxs
        cases hs₁ : s₁.counts k with
        | some n₁ =>
            -- drawn for this component, before its first element
            obtain ⟨rfl, rfl⟩ := eq_of_lookupCount hm hs hs₁
            have hn₁ := hmono.counts _ _ hs₁
            rw [ht] at hn₁
            cases hn₁
            exact ⟨s, .here hne hrest hmark, hs, s₁, hm⟩
        | none =>
            -- drawn inside one of the elements
            have hnone : ¬ s₁.counts k = some n := by simp [hs₁]
            obtain ⟨i, hi, bs, a, x, b, hbs, ha, hx, hb⟩ :=
              exists_round (q := fun a => a.counts k = some n) arrayElement_counts hxs hnone ht
            obtain ⟨element, helement⟩ := arrayElement_eq_ok hx
            obtain ⟨u, hu⟩ := ihArray hmark helement ha hb
            exact ⟨u, .element hne hrest hmark hm hi hbs hu.looksUp, hu.missing, hu.drawn⟩
      -- object: drawn further down the path
      · obtain ⟨w, hw, _⟩ := procpath_object_eq_ok hne hrest hmark h
        obtain ⟨u, hu⟩ := ihObject hw hs ht
        exact ⟨u, .object hne hrest hmark hu.looksUp, hu.missing, hu.drawn⟩

-- ============================================================================
-- The lists of a call
-- ============================================================================

/-- The tree of a path holds the trees of its lower part at the places of its upper part. -/
theorem tree_append (len : PyStr → Nat) (cs ds : List Comp) (f : List Nat → Value) :
    tree len (cs ++ ds) f = tree len cs fun is => tree len ds fun js => f (is ++ js) := by
  induction cs generalizing f with
  | nil => rfl
  | cons c cs ih =>
      rw [List.cons_append, tree_cons, tree_cons]
      by_cases hc : c.array
      · rw [branch_array hc, branch_array hc]
        simp only [ih]
        rfl
      · rw [branch_object hc, branch_object hc, ih]

/-- What a call of `procpath` from `s` that returned `v` in `t` did with the lengths. -/
structure LengthsDrawn (path : List PyStr) (g : Gen) (s t : DocState) (v : Value) : Prop where
  /-- No entry of `counts` was changed. -/
  kept : ∀ k n, s.counts k = some n → t.counts k = some n
  /-- In every element of the lists above a component that is walked as an array, its list has
      the length of its name. -/
  lists : ∀ above component below, path = above ++ component :: below → below ≠ [] →
    endsWithMarker component → ∃ n : ℕ+, t.counts (stripName component) = some n ∧
      ∀ is ∈ indices t.counts.len (above.map readComp), ∃ xs,
        v.get? (place (above.map readComp) is ++ [.key (stripName component)]) =
          some (.list xs) ∧ xs.length = n
  /-- A new length was drawn at one of the lookups. -/
  drawn : ∀ k n, s.counts k = none → t.counts k = some n → ∃ u, FirstDraw g path s k n u ∧
    1 ≤ (n : Int) ∧ (n : Int) ≤ u.world.maxArraySize

theorem lengthsDrawn_of_procpath (h : procpath path g s = .ok v t) :
    LengthsDrawn path g s t v where
  kept := ((procpath_steps path g).of_ok h).counts
  lists := by
    intro above component below hpath hbelow hmark
    obtain ⟨f, rfl, hvals⟩ := (procpath_eq_ok (walkable_of_procpath_eq_ok h)).mp h
    have hcomps : comps path = above.map readComp ++ readComp component :: comps below := by
      rw [hpath, comps_append above (List.cons_ne_nil _ _), comps_cons hbelow]
      rfl
    have hmem : stripName component ∈ arrayNames (comps path) := by
      rw [hcomps]
      apply List.mem_map_of_mem (f := Comp.name) (a := readComp component)
      exact List.mem_filter.mpr ⟨List.mem_append_right _ List.mem_cons_self, hmark⟩
    obtain ⟨n, hn⟩ := (rowValues_counts hvals).2 _ hmem
    refine ⟨n, hn, fun is his => ?_⟩
    -- at every place above, the tree goes on with a list of the drawn length
    rw [valueTree, hcomps, tree_append, get?_append, get?_place his, Option.bind_some]
    have hname : stripName component = (readComp component).name := rfl
    rw [hname, get?_tree_name, branch_array hmark]
    refine ⟨_, rfl, ?_⟩
    rw [List.length_map, List.length_range]
    exact Counts.len_of_some hn
  drawn := by
    intro k n hs ht
    obtain ⟨u, hu⟩ := exists_firstDraw h hs ht
    exact ⟨u, hu, hu.bound⟩

-- ============================================================================
-- The lists of a document
-- ============================================================================

/-- The lists called `k` have the length drawn for `k`. -/
def Counts.Sizes (counts : Counts) (k : PyStr) (m : Nat) : Prop :=
  ∃ n : ℕ+, counts k = some n ∧ m = n

theorem Counts.sizes_unique {counts : Counts} (k : PyStr) (m m' : Nat) (h : counts.Sizes k m)
    (h' : counts.Sizes k m') : m = m' := by
  obtain ⟨n, hn, rfl⟩ := h
  obtain ⟨n', hn', rfl⟩ := h'
  rw [hn] at hn'
  cases hn'
  rfl

theorem Counts.sizes_mono {counts counts' : Counts}
    (hmono : ∀ k n, counts k = some n → counts' k = some n) (k : PyStr) (m : Nat)
    (h : counts.Sizes k m) : counts'.Sizes k m := by
  obtain ⟨n, hn, rfl⟩ := h
  exact ⟨n, hmono k n hn, rfl⟩

/-- A tree whose leaves are atoms has sized lists only. -/
theorem sized_tree {R : PyStr → Nat → Prop} {len : PyStr → Nat} {cs : List Comp}
    {f : List Nat → Value} {under : Option PyStr} (hlen : ∀ k ∈ arrayNames cs, R k (len k))
    (hf : ∀ is ∈ indices len cs, (f is).IsAtom) : Sized R under (tree len cs f) := by
  induction cs generalizing f under with
  | nil => exact sized_of_isAtom (hf [] List.mem_cons_self)
  | cons c cs ih =>
      -- under the first name there is a list of the drawn length, or the rest
      have hbranch : Sized R (some c.name) (branch len c cs f) := by
        by_cases hc : c.array
        · rw [arrayNames_array hc] at hlen
          obtain ⟨hhead, htail⟩ := List.forall_mem_cons.mp hlen
          rw [branch_array hc]
          refine .list (by simpa using hhead) fun x hx => ?_
          obtain ⟨i, hi, rfl⟩ := List.mem_map.mp hx
          apply ih htail
          intro is his
          exact hf _ ((mem_indices_array hc).mpr ⟨i, is, List.mem_range.mp hi, his, rfl⟩)
        · rw [arrayNames_object hc] at hlen
          rw [indices_object hc] at hf
          rw [branch_object hc]
          exact ih hlen hf
      rw [tree_cons]
      refine .dict fun kv hkv => ?_
      rw [List.mem_singleton.mp hkv]
      exact hbranch

/-- The partial tree of a row has the lengths drawn by then. -/
theorem sized_procpath (hg : g.ReturnsAtoms) (h : procpath path g s = .ok v t) :
    Sized t.counts.Sizes none v := by
  obtain ⟨f, rfl, hvals⟩ := (procpath_eq_ok (walkable_of_procpath_eq_ok h)).mp h
  apply sized_tree
  · intro k hk
    obtain ⟨n, hn⟩ := (rowValues_counts hvals).2 k hk
    exact ⟨n, hn, Counts.len_of_some hn⟩
  · intro is his
    exact rowValues_atoms hg hvals _ (List.mem_map_of_mem his)

/-- A document stays as long as drawn while lengths are added. -/
theorem sized_of_procpath (h : procpath path g s = .ok v t) (hd : Sized s.counts.Sizes none d) :
    Sized t.counts.Sizes none d :=
  hd.mono (Counts.sizes_mono ((procpath_steps path g).of_ok h).counts)

/-- One round of the row loop keeps the lists of the document as long as drawn. -/
theorem sized_mergeRow (hg : row.generator.ReturnsAtoms) (h : mergeRow M d row s = .ok doc t)
    (hd : Sized s.counts.Sizes none d) : Sized t.counts.Sizes none doc := by
  obtain ⟨v, hv, hm⟩ := mergeRow_eq_ok.mp h
  obtain ⟨r, hr, hsized⟩ := Merger.exists_merge_sized zipmerge_isZip Counts.sizes_unique
    (sized_of_procpath hv hd) (sized_procpath hg hv)
  rw [hm] at hr
  cases hr
  exact hsized

/-- The lists of a document are as long as drawn, all along the row loop. -/
theorem sized_rowLoop (hg : ∀ row ∈ rows, row.generator.ReturnsAtoms)
    (h : rowLoop M d rows s = .ok doc t) (hd : Sized s.counts.Sizes none d) :
    Sized t.counts.Sizes none doc := by
  induction rows generalizing d s with
  | nil =>
      cases h
      exact hd
  | cons row rows ih =>
      obtain ⟨d', u, hrow, hrest⟩ := rowLoop_cons_eq_ok.mp h
      obtain ⟨hg, hgs⟩ := List.forall_mem_cons.mp hg
      exact ih hgs hrest (sized_mergeRow hg hrow hd)

/-- Merging `v` into the document `d` calls `zipmerge` on lists of equal length only.  None of
    the calls raises or drops an element, and the merge returns. -/
structure MergesEvenly (M : DocMerger) (d v : Value) : Prop where
  calls : ∀ xs ys, M.ListCall d v xs ys → xs.length = ys.length ∧
    ∃ zs, zipmerge M.merge xs ys = .ok zs ∧ zs.length = xs.length
  returns : ∃ doc, M.merge d v = .ok doc

theorem mergesEvenly_of_procpath (hg : g.ReturnsAtoms) (h : procpath path g s = .ok v t)
    (hd : Sized s.counts.Sizes none d) : MergesEvenly M d v where
  calls := fun _ _ hcall => hcall.even zipmerge_isZip Counts.sizes_unique
    (sized_of_procpath h hd) (sized_procpath hg h)
  returns := by
    obtain ⟨doc, hdoc, _⟩ := Merger.exists_merge_sized (M := M) zipmerge_isZip
      Counts.sizes_unique (sized_of_procpath h hd) (sized_procpath hg h)
    exact ⟨doc, hdoc⟩

/-- Merging never raises: whatever a document raises was raised by `procpath`. -/
theorem procpath_of_rowLoop_error (hg : ∀ row ∈ rows, row.generator.ReturnsAtoms) {e : PyErr}
    (h : rowLoop M d rows s = .error e t) (hd : Sized s.counts.Sizes none d) :
    ∃ pre row post d' u, rows = pre ++ row :: post ∧ rowLoop M d pre s = .ok d' u ∧
      procpath row.path row.generator u = .error e t := by
  induction rows generalizing d s with
  | nil => cases h
  | cons row rows ih =>
      obtain ⟨hg, hgs⟩ := List.forall_mem_cons.mp hg
      rcases bind_eq_error.mp h with hrow | ⟨d', u, hrow, hrest⟩
      · rcases bind_eq_error.mp hrow with hv | ⟨v, u, hv, hm⟩
        · exact ⟨[], row, rows, d, s, rfl, rfl, hv⟩
        · have heven : MergesEvenly M d v := mergesEvenly_of_procpath hg hv hd
          obtain ⟨doc, hdoc⟩ := heven.returns
          rw [hdoc] at hm
          cases hm
      · obtain ⟨pre, first, post, e, x, rfl, hpre, hfirst⟩ :=
          ih hgs hrest (sized_mergeRow hg hrow hd)
        refine ⟨row :: pre, first, post, e, x, rfl, ?_, hfirst⟩
        exact rowLoop_cons_eq_ok.mpr ⟨d', u, hrow, hpre⟩

/-- The length of `k` was drawn as `n` by one of the rows of a document that is started in the
    process `w`. -/
def DrawnByRow (M : DocMerger) (w : World) (rows : List Row) (k : PyStr) (n : ℕ+) : Prop :=
  ∃ pre row post d s u, rows = pre ++ row :: post ∧
    rowLoop M (.dict []) pre (DocState.start w) = .ok d s ∧
    FirstDraw row.generator row.path s k n u ∧
    1 ≤ (n : Int) ∧ (n : Int) ≤ u.world.maxArraySize

/-- Every length of a document was drawn by one of its rows. -/
theorem drawnByRow_of_rowLoop {w : World}
    (h : rowLoop M (.dict []) rows (DocState.start w) = .ok doc t) (ht : t.counts k = some n) :
    DrawnByRow M w rows k n := by
  induction rows using List.reverseRecOn generalizing doc t with
  | nil =>
      cases h
      cases ht
  | append_singleton rows row ih =>
      obtain ⟨d, s, hrows, hrow⟩ := rowLoop_append_eq_ok.mp h
      obtain ⟨v, hv, _⟩ := mergeRow_eq_ok.mp (rowLoop_singleton_eq_ok.mp hrow)
      have hlengths := lengthsDrawn_of_procpath hv
      cases hs : s.counts k with
      | none =>
          obtain ⟨x, hx, hbound⟩ := hlengths.drawn k n hs ht
          exact ⟨rows, row, [], d, s, x, rfl, hrows, hx, hbound⟩
      | some m =>
          have hm := hlengths.kept k m hs
          rw [ht] at hm
          cases hm
          obtain ⟨pre, first, post, e, x, y, rfl, hpre⟩ := ih hrows hs
          exact ⟨pre, first, post ++ [row], e, x, y, by simp, hpre⟩

/-- **Equal lengths are an invariant.**  A call of `procpath` that returns changes no length drawn
    before, the lists it builds are as long as their names say on return, and a new length was
    drawn between 1 and the `maxArraySize` of the moment.  In a model whose generators return
    neither lists nor dictionaries, merging the partial tree of any row into the document built
    by the rows before it calls `zipmerge` on lists of equal length only, and the lengths were
    all drawn by this row or one before it. -/
theorem equal_lengths_invariant (M : DocMerger) :
    (∀ path g s t v, procpath path g s = .ok v t → LengthsDrawn path g s t v) ∧
    ∀ rows : List Row, (∀ row ∈ rows, row.generator.ReturnsAtoms) →
      ∀ pre row post, rows = pre ++ row :: post → ∀ w d s,
        rowLoop M (.dict []) pre (DocState.start w) = .ok d s →
        ∀ v t, procpath row.path row.generator s = .ok v t →
          MergesEvenly M d v ∧ ∀ k n, t.counts k = some n → DrawnByRow M w (pre ++ [row]) k n := by
  refine ⟨fun path g s t v h => lengthsDrawn_of_procpath h, ?_⟩
  rintro rows hg pre row post rfl w d s hpre v t hv
  have hgs : ∀ r ∈ pre, r.generator.ReturnsAtoms :=
    fun r hr => hg r (List.mem_append_left _ hr)
  have hgrow : row.generator.ReturnsAtoms :=
    hg row (List.mem_append_right _ List.mem_cons_self)
  have hd : Sized s.counts.Sizes none d := sized_rowLoop hgs hpre sized_empty
  have heven : MergesEvenly M d v := mergesEvenly_of_procpath hgrow hv hd
  refine ⟨heven, fun k n hk => ?_⟩
  obtain ⟨doc, hdoc⟩ := heven.returns
  have hrow : mergeRow M d row s = .ok doc t := mergeRow_eq_ok.mpr ⟨v, hv, hdoc⟩
  have hrows : rowLoop M (.dict []) (pre ++ [row]) (DocState.start w) = .ok doc t :=
    rowLoop_append_eq_ok.mpr ⟨d, s, hpre, rowLoop_singleton_eq_ok.mpr hrow⟩
  exact drawnByRow_of_rowLoop hrows hk

/-- A row that calls `setArraySize(1)` in every element of `a`, and one with an array inside these
    elements. -/
def shrinkRow : Row := ⟨"a().n".toList, .setArraySize 1⟩
def innerRow : Row := ⟨"a().b().x".toList, .ret (.int 0)⟩

/-- The values of the rows. -/
def shrinkValues : Filled := ⟨[⟨"a".toList, true⟩, ⟨"n".toList, false⟩], fun _ => .int 1⟩
def innerValues : Filled :=
  ⟨[⟨"a".toList, true⟩, ⟨"b".toList, true⟩, ⟨"x".toList, false⟩], fun _ => .int 0⟩

/-- The process after `shrinkRow` was evaluated in two elements. -/
def shrunkWorld : World := (twoWorld.afterSetArraySize 1).afterSetArraySize 1

/-- The state after `n` elements were drawn for arrays called `a` and `m` for those called `b`. -/
def lengthsOfAB (n m : ℕ+) (w : World) : DocState :=
  ⟨Function.update (lengthOfA n w).counts "b".toList (some m), w⟩

/-- An element of the document, and of the partial tree of `innerRow`. -/
def shrunkElement : Value := .dict [("n".toList, .atom (.int 1)), ("b".toList, .list [xDoc])]
def innerElement : Value := .dict [("b".toList, .list [xDoc])]

/-- The document of `shrinkRow`, and the one of both rows. -/
def shrunkDoc : Value :=
  .dict [("a".toList, .list (List.replicate 2 (.dict [("n".toList, .atom (.int 1))])))]
def innerDoc : Value := .dict [("a".toList, .list [shrunkElement, shrunkElement])]

theorem rowLoop_innerRow :
    rowLoop merger (.dict []) [shrinkRow, innerRow] (DocState.start twoWorld) =
      .ok innerDoc (lengthsOfAB 2 1 shrunkWorld) := by
  have hshrink : rowLoop merger (.dict []) [shrinkRow] (DocState.start twoWorld) =
      .ok shrunkDoc (lengthOfA 2 shrunkWorld) :=
    rowLoop_of_values (r := shrinkValues) (by decide) (by decide) rfl rfl
  have hinner : rowLoop merger shrunkDoc [innerRow] (lengthOfA 2 shrunkWorld) =
      .ok innerDoc (lengthsOfAB 2 1 shrunkWorld) :=
    rowLoop_of_values (r := innerValues) (by decide) (by decide) rfl rfl
  exact rowLoop_append_eq_ok.mpr ⟨shrunkDoc, _, hshrink, hinner⟩

/-- `innerRow` again, after the size was changed inside the elements of its outer array. -/
theorem duplicate_row_merges_evenly :
    ∃ d s v t, rowLoop merger (.dict []) [shrinkRow, innerRow] (DocState.start twoWorld) = .ok d s ∧
      procpath innerRow.path innerRow.generator s = .ok v t ∧
      LengthsDrawn innerRow.path innerRow.generator s t v ∧ MergesEvenly merger d v ∧
      merger.ListCall d v [shrunkElement, shrunkElement] [innerElement, innerElement] ∧
      merger.ListCall d v [xDoc] [xDoc] := by
  -- the row once more, with all lengths drawn
  have hwalk : procpath innerRow.path innerRow.generator (lengthsOfAB 2 1 shrunkWorld) =
      .ok (innerValues.tree (lengthsOfAB 2 1 shrunkWorld).counts.len)
        (lengthsOfAB 2 1 shrunkWorld) :=
    (procpath_eq_ok (by decide)).mpr ⟨innerValues.value, rfl, rfl⟩
  have hatoms : ∀ row ∈ [shrinkRow, innerRow, innerRow], row.generator.ReturnsAtoms := by
    intro row hrow w v w' hv
    rcases List.mem_cons.mp hrow with rfl | hrow
    · cases hv
      trivial
    · have hrow : row = innerRow := by simpa using hrow
      subst hrow
      cases hv
      trivial
  have hlengths := (equal_lengths_invariant merger).1 _ _ _ _ _ hwalk
  have heven := (equal_lengths_invariant merger).2 _ hatoms [shrinkRow, innerRow] innerRow [] rfl
    _ _ _ rowLoop_innerRow _ _ hwalk
  -- the arrays called `a` are merged first, and their elements merge the arrays called `b`
  have hfirst : ∀ kvs : List (PyStr × Value),
      ([] : List (PyStr × Value)).foldlM (mergeItem merger.merge) kvs = .ok kvs := fun _ => rfl
  have hinnerCall : merger.ListCall shrunkElement innerElement [xDoc] [xDoc] :=
    .item (hfirst _) rfl (.here _ _)
  refine ⟨_, _, _, _, rowLoop_innerRow, hwalk, hlengths, heven.1, ?_, ?_⟩
  · exact .item (hfirst _) rfl (.here _ _)
  · exact .item (hfirst _) rfl (.element (i := 0) rfl rfl hinnerCall)

end MLocust.Faker
