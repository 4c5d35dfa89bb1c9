/-
  MLocust.Faker.ArraySize

  The directive `setArraySize` and the lengths drawn after it.

  `maxArraySize` is the size of the last call of `setArraySize`
  (`WorldSteps.maxArraySize`).  A length is drawn against it when its name is
  looked up for the first time in a document, and the name is the bare name of the
  component: a directive bounds an array whose bare name is new, not one whose name
  has been drawn for another array before (`array_size_respected`).
-/
import MLocust.Faker.RowLists
import MLocust.Faker.Reference

namespace MLocust.Faker

open Lib Lib.Program DataTree PyStr

variable {M : DocMerger} {rows : List Row} {row : Row} {d d' doc : Value} {s t u : DocState}
  {k : PyStr}

-- ============================================================================
-- The current size
-- ============================================================================

/-- The size of a call of `setArraySize`. -/
def Call.size? : Call → Option Int
  | .id _ _ => none
  | .setArraySize size => some size

/-- The sizes of all calls of `setArraySize` so far, oldest first. -/
def World.sizes (w : World) : List Int := w.calls.filterMap Call.size?

theorem sizes_afterID (w : World) (key : PyStr) : (w.afterID key).sizes = w.sizes := by
  show (w.calls ++ [Call.id key _]).filterMap Call.size? = _
  rw [List.filterMap_append]
  exact List.append_nil _

theorem sizes_afterSetArraySize (w : World) (size : Int) :
    (w.afterSetArraySize size).sizes = w.sizes ++ [size] := by
  show (w.calls ++ [Call.setArraySize size]).filterMap Call.size? = _
  rw [List.filterMap_append]
  rfl

/-- `maxArraySize` is the size of the last call, if there was one. -/
theorem WorldSteps.maxArraySize {w w' : World} (h : WorldSteps w w') :
    ∃ called, w'.sizes = w.sizes ++ called ∧
      w'.maxArraySize = called.getLast?.getD w.maxArraySize := by
  induction h with
  | refl => exact ⟨[], (List.append_nil _).symm, rfl⟩
  | tail _ hstep ih =>
      obtain ⟨called, hsizes, hmax⟩ := ih
      cases hstep with
      | draw => exact ⟨called, hsizes, hmax⟩
      | id key => exact ⟨called, by rw [sizes_afterID, hsizes], hmax⟩
      | setArraySize size =>
          refine ⟨called ++ [size], ?_, ?_⟩
          · rw [sizes_afterSetArraySize, hsizes, List.append_assoc]
          · rw [List.getLast?_concat]
            rfl

theorem maxArraySize_of_called {w w' : World} (h : WorldSteps w w') {before : List Int}
    {n : Int} (hcall : w'.sizes = w.sizes ++ before ++ [n]) : w'.maxArraySize = n := by
  obtain ⟨called, hsizes, hmax⟩ := h.maxArraySize
  rw [hsizes, List.append_assoc] at hcall
  rw [hmax, List.append_cancel_left hcall, List.getLast?_concat]
  rfl

theorem maxArraySize_of_quiet {w w' : World} (h : WorldSteps w w')
    (hquiet : w'.sizes = w.sizes) : w'.maxArraySize = w.maxArraySize := by
  obtain ⟨called, hsizes, hmax⟩ := h.maxArraySize
  rw [hsizes] at hquiet
  rw [hmax, List.self_eq_append_right.mp hquiet.symm]
  rfl

-- ============================================================================
-- The length of a name
-- ============================================================================

/-- A row draws new lengths against the `maxArraySize` it starts with. -/
theorem mergeRow_new (hrow : mergeRow M d row s = .ok d' u) {n : ℕ+}
    (hn : u.counts k = some n) :
    s.counts k = some n ∨
      (k ∈ arrayNames (comps row.path) ∧ (n : Int) ≤ s.world.maxArraySize) := by
  obtain ⟨_, f, hf, _⟩ := mergeRow_values hrow fun _ _ hn => hn
  obtain ⟨v, hv, hcounts, _⟩ := rowValues_eq_ok.mp hf
  exact (drawLengths_eq_ok hv).new k n (by rw [← hcounts, hn])

/-- A name that no row mentions as an array is not drawn. -/
theorem rowLoop_not_drawn (h : rowLoop M d rows s = .ok doc t)
    (hk : ∀ row ∈ rows, k ∉ arrayNames (comps row.path)) (hs : s.counts k = none) :
    t.counts k = none := by
  induction rows generalizing d s with
  | nil =>
      cases h
      exact hs
  | cons row rows ih =>
      obtain ⟨d', u, hrow, hrest⟩ := rowLoop_cons_eq_ok.mp h
      obtain ⟨hk, hks⟩ := List.forall_mem_cons.mp hk
      apply ih hrest hks
      by_contra hne
      obtain ⟨n, hn⟩ := Option.ne_none_iff_exists'.mp hne
      rcases mergeRow_new hrow hn with hs' | ⟨hmem, _⟩
      · rw [hs] at hs'
        cases hs'
      · exact hk hmem

theorem rowLoop_singleton_eq_ok :
    rowLoop M d [row] s = .ok d' t ↔ mergeRow M d row s = .ok d' t := by
  rw [rowLoop_cons_eq_ok]
  constructor
  · rintro ⟨e, u, hrow, hnil⟩
    cases hnil
    exact hrow
  · exact fun h => ⟨d', t, h, rfl⟩

/-- The arrays with the bare name `k` have the length drawn for `k`, if no row that ends at or
    above the array `ks ++ [k]` returns a list or a dictionary. -/
theorem length_of_instance {w : World} {m : ℕ+} {ks : List PyStr}
    (h : rowLoop M (.dict []) rows (DocState.start w) = .ok doc t) (hm : t.counts k = some m)
    (hflat : ∀ row ∈ rows, names (comps row.path) <+: ks ++ [k] → row.generator.ReturnsAtoms) :
    ∀ v ∈ instancesAt (ks ++ [k]) doc, ∀ xs, v = .list xs → xs.length = m := by
  have hlen : t.counts.len k = m := Counts.len_of_some hm
  have halong : ListsAlong (fun j len => j = k → len = (m : Nat)) (ks ++ [k]) doc := by
    refine listsAlong_rowLoop h (fun _ _ j _ hj => ?_) listsAlong_empty hflat
    rw [hj, hlen]
  intro v hv xs hxs
  exact listsAlong_instancesAt halong hv hxs rfl

/-- **The directive is respected.**  A document is built by the rows `pre`, then `dir`, whose
    evaluation ends with a call of `setArraySize(n)`, then `mid`, which make no such call,
    then `first` and `post`.  If `first` is the first row that mentions an array with the bare
    name `k`, and no row that ends at or above the array `ks ++ [k]` returns a list or a
    dictionary, then every instance of this array in the document has 1 to `n` elements. -/
theorem array_size_respected {pre mid post : List Row} {dir first : Row} {w : World}
    {dA dB dC : Value} {sA sB sC : DocState} {n : Int} {ks : List PyStr}
    (hpre : rowLoop M (.dict []) pre (DocState.start w) = .ok dA sA)
    (hdir : mergeRow M dA dir sA = .ok dB sB)
    (hmid : rowLoop M dB mid sB = .ok dC sC)
    (hrest : rowLoop M dC (first :: post) sC = .ok doc t)
    (hcall : ∃ before, sB.world.sizes = sA.world.sizes ++ before ++ [n])
    (hquiet : sC.world.sizes = sB.world.sizes)
    (hfirst : k ∈ arrayNames (comps first.path))
    (hnew : ∀ row ∈ pre ++ dir :: mid, k ∉ arrayNames (comps row.path))
    (hflat : ∀ row ∈ pre ++ dir :: mid ++ first :: post,
      names (comps row.path) <+: ks ++ [k] → row.generator.ReturnsAtoms) :
    ∀ v ∈ instancesAt (ks ++ [k]) doc, ∀ xs, v = .list xs →
      1 ≤ xs.length ∧ (xs.length : Int) ≤ n := by
  have hbefore : rowLoop M (.dict []) (pre ++ dir :: mid) (DocState.start w) = .ok dC sC :=
    rowLoop_append_eq_ok.mpr ⟨dA, sA, hpre, rowLoop_cons_eq_ok.mpr ⟨dB, sB, hdir, hmid⟩⟩
  have hdoc : rowLoop M (.dict []) (pre ++ dir :: mid ++ first :: post) (DocState.start w) =
      .ok doc t := rowLoop_append_eq_ok.mpr ⟨dC, sC, hbefore, hrest⟩
  -- the bound in force when `first` starts is `n`
  have hsize : sC.world.maxArraySize = n := by
    obtain ⟨before, hcall⟩ := hcall
    have hcalled := maxArraySize_of_called ((mergeRow_steps M dA dir).of_ok hdir).world hcall
    rw [maxArraySize_of_quiet ((rowLoop_steps M dB mid).of_ok hmid).world hquiet, hcalled]
  -- so it is what the length of `k` is drawn against
  obtain ⟨dD, sD, hrow, hpost⟩ := rowLoop_cons_eq_ok.mp hrest
  have hnone : sC.counts k = none := rowLoop_not_drawn hbefore hnew rfl
  obtain ⟨m, hm⟩ : ∃ m, sD.counts k = some m := by
    obtain ⟨_, f, hf, _⟩ := mergeRow_values hrow fun _ _ hn => hn
    exact (rowValues_counts hf).2 k hfirst
  have hle : (m : Int) ≤ n := by
    rcases mergeRow_new hrow hm with hs | ⟨_, hle⟩
    · rw [hnone] at hs
      cases hs
    · rwa [hsize] at hle
  intro v hv xs hxs
  have hlen := length_of_instance hdoc (rowLoop_mono hpost k m hm) hflat v hv xs hxs
  have hpos := m.pos
  omega

/-- Evaluating the generator leaves `maxArraySize` as it is. -/
def Gen.KeepsSize (g : Gen) : Prop :=
  Guarantees (fun w w' => w'.maxArraySize = w.maxArraySize) g.eval

theorem mergeRow_keepsSize (hg : row.generator.KeepsSize) (hrow : mergeRow M d row s = .ok d' u) :
    u.world.maxArraySize = s.world.maxArraySize := by
  obtain ⟨_, f, hf, _⟩ := mergeRow_values hrow fun _ _ hn => hn
  apply rowValues_guarantees (P := fun w w' => w'.maxArraySize = w.maxArraySize) _ _ _ hg hf
  · exact fun _ => rfl
  · exact fun h h' => h'.trans h
  · exact fun _ _ => rfl

/-- Rows that keep the size draw every new length against the size at their start. -/
theorem rowLoop_keepsSize (h : rowLoop M d rows s = .ok doc t)
    (hkeeps : ∀ row ∈ rows, row.generator.KeepsSize) :
    t.world.maxArraySize = s.world.maxArraySize ∧
      ∀ n, t.counts k = some n → s.counts k = some n ∨ (n : Int) ≤ s.world.maxArraySize := by
  induction rows generalizing d s with
  | nil =>
      cases h
      exact ⟨rfl, fun n hn => Or.inl hn⟩
  | cons row rows ih =>
      obtain ⟨d', u, hrow, hrest⟩ := rowLoop_cons_eq_ok.mp h
      obtain ⟨hkeep, hkeeps⟩ := List.forall_mem_cons.mp hkeeps
      obtain ⟨hsize, hnew⟩ := ih hrest hkeeps
      have hstep := mergeRow_keepsSize hkeep hrow
      rw [hstep] at hsize hnew
      refine ⟨hsize, fun n hn => ?_⟩
      rcases hnew n hn with hu | hle
      · exact (mergeRow_new hrow hu).imp_right And.right
      · exact Or.inr hle

/-- An array that is mentioned before any row changes `maxArraySize` is bounded by its value at
    the start of the document. -/
theorem early_array_bounded {pre post : List Row} {first : Row} {w : World} {ks : List PyStr}
    (h : rowLoop M (.dict []) (pre ++ first :: post) (DocState.start w) = .ok doc t)
    (hkeeps : ∀ row ∈ pre, row.generator.KeepsSize) (hfirst : k ∈ arrayNames (comps first.path))
    (hflat : ∀ row ∈ pre ++ first :: post,
      names (comps row.path) <+: ks ++ [k] → row.generator.ReturnsAtoms) :
    ∀ v ∈ instancesAt (ks ++ [k]) doc, ∀ xs, v = .list xs →
      1 ≤ xs.length ∧ (xs.length : Int) ≤ w.maxArraySize := by
  obtain ⟨dC, sC, hpre, hrest⟩ := rowLoop_append_eq_ok.mp h
  obtain ⟨dD, sD, hrow, hpost⟩ := rowLoop_cons_eq_ok.mp hrest
  obtain ⟨hsize, hnew⟩ := rowLoop_keepsSize (k := k) hpre hkeeps
  obtain ⟨m, hm⟩ : ∃ m, sD.counts k = some m := by
    obtain ⟨_, f, hf, _⟩ := mergeRow_values hrow fun _ _ hn => hn
    exact (rowValues_counts hf).2 k hfirst
  -- drawn by an earlier row or by this one, under the size of the start
  have hle : (m : Int) ≤ w.maxArraySize := by
    rcases mergeRow_new hrow hm with hs | ⟨_, hle⟩
    · rcases hnew m hs with hstart | hle
      · cases hstart
      · exact hle
    · rwa [hsize] at hle
  intro v hv xs hxs
  have hlen := length_of_instance h (rowLoop_mono hpost k m hm) hflat v hv xs hxs
  have hpos := m.pos
  omega

/-- The row of a directive. -/
def sizeRow (n : Int) : Row := ⟨"size".toList, .setArraySize n⟩

/-- A row with the array `a`, one with an array of the same bare name below `p`, and one that
    returns an empty list at `a`. -/
def listRow : Row := ⟨"a().x".toList, .ret (.int 0)⟩
def parentRow : Row := ⟨"p.a().x".toList, .ret (.int 0)⟩
def emptyRow : Row := ⟨"a".toList, .ret (.list [])⟩

/-- The values of the rows. -/
def sizeValues (n : Int) : Filled := ⟨[⟨"size".toList, false⟩], fun _ => .int n⟩
def listValues : Filled := ⟨[⟨"a".toList, true⟩, ⟨"x".toList, false⟩], fun _ => .int 0⟩
def parentValues : Filled :=
  ⟨[⟨"p".toList, false⟩, ⟨"a".toList, true⟩, ⟨"x".toList, false⟩], fun _ => .int 0⟩
def emptyValues : Filled := ⟨[⟨"a".toList, false⟩], fun _ => .list []⟩

/-- The state after `n` elements were drawn for arrays called `a`. -/
def lengthOfA (n : ℕ+) (w : World) : DocState :=
  ⟨Function.update Counts.empty "a".toList (some n), w⟩

/-- An element of an array. -/
def xDoc : Value := .dict [("x".toList, .atom (.int 0))]

/-- What the rows put into a document. -/
def sizeItem (n : Int) : PyStr × Value := ("size".toList, .atom (.int n))
def parentItem : PyStr × Value := ("p".toList, .dict [("a".toList, .list [xDoc, xDoc])])

/-- One round of the row loop, from the values of its row. -/
theorem rowLoop_of_values {r : Filled} (hwalk : Walkable row.path) (hpath : r.path = comps row.path)
    (hvals : rowValues r.path row.generator s = .ok (r.values t.counts.len) t)
    (hm : M.merge d (r.tree t.counts.len) = .ok d') : rowLoop M d [row] s = .ok d' t := by
  refine rowLoop_eq_ok.mpr ⟨?_, [r], .cons hpath hvals (.nil t), ?_⟩
  · intro row' hrow
    rwa [List.mem_singleton.mp hrow]
  · exact mergeAll_cons_eq_ok.mpr ⟨d', hm, rfl⟩

theorem mergeRow_sizeRow :
    mergeRow merger (.dict []) (sizeRow 10) (DocState.start twoWorld) =
      .ok (.dict [sizeItem 10]) (DocState.start (twoWorld.afterSetArraySize 10)) :=
  rowLoop_singleton_eq_ok.mp
    (rowLoop_of_values (r := sizeValues 10) (by decide) (by decide) rfl rfl)

/-- The array after a directive of 10, as in the reference model. -/
theorem sized_array_respected :
    ∃ doc t, rowLoop merger (.dict [sizeItem 10]) [listRow]
        (DocState.start (twoWorld.afterSetArraySize 10)) = .ok doc t ∧
      ∀ v ∈ instancesAt ([] ++ ["a".toList]) doc, ∀ xs, v = .list xs →
        1 ≤ xs.length ∧ (xs.length : Int) ≤ 10 := by
  have hlist : rowLoop merger (.dict [sizeItem 10]) [listRow]
      (DocState.start (twoWorld.afterSetArraySize 10)) =
        .ok (.dict [sizeItem 10, ("a".toList, .list [xDoc, xDoc])])
          (lengthOfA 2 (twoWorld.afterSetArraySize 10)) :=
    rowLoop_of_values (r := listValues) (by decide) (by decide) rfl rfl
  refine ⟨_, _, hlist, ?_⟩
  refine @array_size_respected merger _ _ _ [] [] [] (sizeRow 10) listRow _ _ _ _ _ _ _ _ _ rfl
    mergeRow_sizeRow rfl hlist ⟨[], rfl⟩ rfl (by decide) (by decide) ?_
  intro row hrow _ w v w' hv
  rcases List.mem_cons.mp hrow with rfl | hrow
  · cases hv
    trivial
  · rw [List.mem_singleton.mp hrow] at hv
    cases hv
    trivial

/-- A run of the rows `pre`, a directive of 1, `mid` and the array row, and its document. -/
def RunsAround (pre mid : List Row) (doc : Value) : Prop :=
  ∃ dA sA dB sB dC sC t,
    rowLoop merger (.dict []) pre (DocState.start twoWorld) = .ok dA sA ∧
    mergeRow merger dA (sizeRow 1) sA = .ok dB sB ∧
    sB.world.sizes = sA.world.sizes ++ [] ++ [1] ∧
    rowLoop merger dB mid sB = .ok dC sC ∧
    sC.world.sizes = sB.world.sizes ∧
    rowLoop merger dC [listRow] sC = .ok doc t

/-- Two documents that do not respect a directive of 1.  In the first one the length of `a`
    was drawn for the array below `p`, before the directive; in the second one a row puts an
    empty list where the array is. -/
theorem sized_array_not_respected :
    (∃ doc, RunsAround [parentRow] [] doc ∧ ¬ ["a".toList] <+: names (comps parentRow.path) ∧
      ∃ xs, .list xs ∈ instancesAt ["a".toList] doc ∧ 1 < xs.length) ∧
    ∃ doc, RunsAround [] [emptyRow] doc ∧
      ∃ xs, .list xs ∈ instancesAt ["a".toList] doc ∧ xs.length < 1 := by
  refine ⟨⟨.dict [parentItem, sizeItem 1, ("a".toList, .list [xDoc, xDoc])],
    ⟨.dict [parentItem], lengthOfA 2 twoWorld, .dict [parentItem, sizeItem 1],
      lengthOfA 2 (twoWorld.afterSetArraySize 1), .dict [parentItem, sizeItem 1],
      lengthOfA 2 (twoWorld.afterSetArraySize 1), lengthOfA 2 (twoWorld.afterSetArraySize 1),
      ?_, ?_, rfl, rfl, rfl, ?_⟩, by decide, [xDoc, xDoc], List.mem_singleton_self _, by decide⟩,
    .dict [sizeItem 1, ("a".toList, .list [])],
    ⟨.dict [], DocState.start twoWorld,
      .dict [sizeItem 1], DocState.start (twoWorld.afterSetArraySize 1),
      .dict [sizeItem 1, ("a".toList, .list [])], DocState.start (twoWorld.afterSetArraySize 1),
      lengthOfA 1 (twoWorld.afterSetArraySize 1), rfl, ?_, rfl, ?_, rfl, ?_⟩,
    [], List.mem_singleton_self _, by decide⟩
  -- an earlier row has drawn the length under its own size
  · exact rowLoop_of_values (r := parentValues) (by decide) (by decide) rfl rfl
  · exact rowLoop_singleton_eq_ok.mp
      (rowLoop_of_values (r := sizeValues 1) (by decide) (by decide) rfl rfl)
  · exact rowLoop_of_values (r := listValues) (by decide) (by decide) rfl rfl
  · exact rowLoop_singleton_eq_ok.mp
      (rowLoop_of_values (r := sizeValues 1) (by decide) (by decide) rfl rfl)
  -- an empty list where the array belongs, which the zip does not fill
  · exact rowLoop_of_values (r := emptyValues) (by decide) (by decide) rfl rfl
  · exact rowLoop_of_values (r := listValues) (by decide) (by decide) rfl rfl

end MLocust.Faker
