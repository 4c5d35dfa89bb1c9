/-
  MLocust.Faker.ModelCheck

  The exception of a call of `bulkFetch` can be read off its model file.

  `recordError` looks at one record of the file: at its number of cells, and at the
  components of its path.  `fileError` is the first exception that the records and
  the reader have in store.  For generators that return scalars and leave room for
  array elements (`Gen.Tame`), every call for at least one document raises exactly
  this exception, and returns when there is none (`bulkFetch_ends`): no draw, no
  earlier call and no merge makes a difference.
-/
import MLocust.Lib.Ending
import MLocust.Faker.EqualLengths
import MLocust.Faker.IdBatch
import MLocust.Faker.ModelFile

namespace MLocust.Faker

open Lib Lib.Program DataTree PyStr

-- ============================================================================
-- What a file has in store
-- ============================================================================

/-- The exception that a record of the file leads to. -/
def recordError (cells : List PyStr) : Option PyErr :=
  match cells[0]?, cells[3]? with
  | some property, some _ => pathError (splitDot property)
  | _, _ => some .indexError

/-- The first exception that the records of a file, or reading it, lead to. -/
def fileError (files : Files) (template : PyStr) : Option PyErr :=
  ((propreader files template).rows.findSome? recordError).or
    ((propreader files template).error.map csvError)

/-- The exception of `bulkFetch`.  A batch without documents does not open the file. -/
def fetchError (files : Files) (model : PyStr) (bulkSize : Int) : Option PyErr :=
  let template := templatePath files.env model
  if files.isfile template then
    if bulkSize.toNat = 0 then none else fileError files template
  else
    some (.exception ("Model file not found. ".toList ++ template))

/-- A generator that returns a scalar and leaves room for array elements. -/
structure Gen.Tame (g : Gen) : Prop where
  atoms : g.ReturnsAtoms
  ends : Ends World.Roomy g.eval none (fun _ => World.Roomy) World.Roomy

variable {M : DocMerger} {files : Files} {template : PyStr}

-- ============================================================================
-- The row loop
-- ============================================================================

/-- A document under construction: its lists are as long as drawn, and there is room. -/
def Growing (d : Value) (s : DocState) : Prop :=
  Sized s.counts.Sizes none d ∧ s.Roomy

theorem growing_start (w : World) (hw : w.Roomy) : Growing (.dict []) (DocState.start w) :=
  ⟨sized_empty, hw⟩

/-- A row raises what its path raises: merging adds no exception. -/
theorem mergeRow_ends {row : Row} (hg : row.generator.Tame) (d : Value) :
    Ends (Growing d) (mergeRow M d row) (pathError row.path) Growing DocState.Roomy := by
  intro s hs
  have hpath := procpath_ends hg.ends row.path s hs.2
  cases herr : pathError row.path with
  | some e =>
      rw [herr] at hpath
      obtain ⟨t, ht, hroomy⟩ := hpath
      exact ⟨t, bind_of_error ht, hroomy⟩
  | none =>
      rw [herr] at hpath
      obtain ⟨v, t, hv, ht⟩ := hpath
      obtain ⟨doc, hdoc⟩ := (mergesEvenly_of_procpath (M := M) hg.atoms hv hs.1).returns
      have hrow : mergeRow M d row s = .ok doc t := mergeRow_eq_ok.mpr ⟨v, hv, hdoc⟩
      exact ⟨doc, t, hrow, sized_mergeRow hg.atoms hrow hs.1, ht⟩

/-- What reading a record gives, and what it has in store. -/
theorem readRow_cases (env : Env) (cells : List PyStr) :
    (∃ row text, readRow env cells = .ok row ∧ recordError cells = pathError row.path ∧
      cells[3]? = some text ∧ row.generator = env.expr text) ∨
    ∃ e, readRow env cells = .error e ∧ recordError cells = some e := by
  rw [readRow, recordError]
  cases cells[0]? with
  | none => exact Or.inr ⟨_, rfl, rfl⟩
  | some property =>
      cases cells[3]? with
      | none => exact Or.inr ⟨_, rfl, rfl⟩
      | some text => exact Or.inl ⟨_, text, rfl, rfl, rfl, rfl⟩

/-- The generators of a file are tame. -/
def Files.Tame (files : Files) (template : PyStr) : Prop :=
  ∀ cells ∈ (propreader files template).rows, ∀ text, cells[3]? = some text →
    (files.expr text).Tame

theorem record_ends (hfile : files.Tame template) {cells : List PyStr}
    (hcells : cells ∈ (propreader files template).rows) (d : Value) :
    Ends (Growing d) (do
      let row ← fromExcept (readRow files.env cells)
      mergeRow M d row) (recordError cells) Growing DocState.Roomy := by
  rcases readRow_cases files.env cells with ⟨row, text, hread, herr, htext, hgen⟩ | ⟨e, hread, herr⟩
  · have hg : row.generator.Tame := hgen ▸ hfile cells hcells text htext
    rw [hread, herr, fromExcept_ok, pure_bind]
    exact mergeRow_ends hg d
  · rw [hread, herr]
    exact Ends.throw_bind (fun s hs => hs.2) _ _

/-- The row loop ends with the first exception in store. -/
theorem readerLoop_ends (hfile : files.Tame template) :
    Ends (Growing (.dict [])) (readerLoop M files (.dict []) (propreader files template))
      (fileError files template) Growing DocState.Roomy := by
  refine (Ends.foldlM (fun d cells hcells => record_ends hfile hcells d) _).seq fun d => ?_
  cases (propreader files template).error with
  | none => exact Ends.pure fun s hs => hs
  | some e => exact Ends.throw (fun s hs => hs.2) _

theorem fetchDocFrom_ends (hfile : files.Tame template) :
    Ends World.Roomy (fetchDocFrom M files template) (fileError files template)
      (fun _ => World.Roomy) World.Roomy :=
  (readerLoop_ends hfile).zoom growing_start (fun _ _ _ _ ht => ht.2) fun _ _ _ ht => ht

/-- **The exception of `bulkFetch` can be read off the file.**  With generators that return
    scalars and leave room for elements, every call raises the exception that the file has in
    store, if there is one and documents are asked for; otherwise it returns the documents. -/
theorem bulkFetch_ends (M : DocMerger) (files : Files) (model : PyStr) (n : Int)
    (hfile : files.Tame (templatePath files.env model)) :
    Ends World.Roomy (bulkFetchFrom M files model n) (fetchError files model n)
      (fun docs w => docs.length = n.toNat ∧ w.Roomy) World.Roomy := by
  rw [bulkFetchFrom, fetchError]
  by_cases hexists : files.isfile (templatePath files.env model)
  · rw [if_pos hexists, if_pos hexists]
    exact (fetchDocFrom_ends hfile).rounds n.toNat
  · rw [if_neg hexists, if_neg hexists]
    exact Ends.throw (fun s hs => hs) _

theorem rowLoop_ends {rows : List Row} (hrows : ∀ row ∈ rows, row.generator.Tame) (d : Value) :
    Ends (Growing d) (rowLoop M d rows) (rows.findSome? fun row => pathError row.path) Growing
      DocState.Roomy :=
  Ends.foldlM (fun d row hrow => mergeRow_ends (hrows row hrow) d) d

/-- A model whose rows can all be read and walked returns its documents, in every process that has
    room for elements. -/
theorem bulkFetch_returns (M : DocMerger) (env : Env) (model : PyStr) (n : Int) {rows : List Row}
    (hfile : env.isfile (templatePath env model))
    (hread : (env.rows (templatePath env model)).mapM (readRow env) = .ok rows)
    (hrows : ∀ row ∈ rows, row.generator.Tame ∧ pathError row.path = none) :
    Ends World.Roomy (bulkFetch M env model n) none
      (fun docs w => docs.length = n.toNat ∧ w.Roomy) World.Roomy := by
  have hnone : (rows.findSome? fun row => pathError row.path) = none :=
    List.findSome?_eq_none_iff.mpr fun row hrow => (hrows row hrow).2
  have hdoc : Ends World.Roomy (fetchDoc M env (env.rows (templatePath env model))) none
      (fun _ => World.Roomy) World.Roomy := by
    have hloop : Ends World.Roomy (fetchRows M rows)
        (rows.findSome? fun row => pathError row.path) (fun _ => World.Roomy) World.Roomy :=
      (rowLoop_ends (fun row hrow => (hrows row hrow).1) (.dict [])).zoom growing_start
        (fun _ _ _ _ ht => ht.2) fun _ _ _ ht => ht
    rw [hnone] at hloop
    rw [fetchDoc, templateLoop_eq_rowLoop hread]
    exact hloop
  have hall := hdoc.rounds n.toNat
  rw [ite_self] at hall
  rw [bulkFetch, if_pos hfile]
  exact hall

theorem tame_id (key : PyStr) : (Gen.id key).Tame where
  atoms := id_returnsAtoms key
  ends := fun _ hw => ⟨_, _, rfl, hw⟩

theorem tame_setArraySize {size : Int} (hsize : 1 ≤ size) : (Gen.setArraySize size).Tame where
  atoms := fun _ v w' h => by
    cases h
    trivial
  ends := fun w _ => ⟨_, _, rfl, hsize⟩

theorem tame_ret {v : PyValue} (hv : v.val.IsAtom) : (Gen.ret v).Tame where
  atoms := fun _ v' _ h => by
    cases h
    exact hv
  ends := fun w hw => ⟨v, w, rfl, hw⟩

/-- A draw does not look at the size. -/
theorem tame_random {g : Nat → Gen} (h : ∀ n, (g n).Tame) : (Gen.random g).Tame where
  atoms := fun w v w' hv => (h (w.draws 0)).atoms _ v w' hv
  ends := fun w hw => (h (w.draws 0)).ends _ hw

/-- The model of the members can be read and walked. -/
theorem memberRows_tame (row : Row) (hrow : row ∈ memberRows) :
    row.generator.Tame ∧ pathError row.path = none := by
  rcases List.mem_cons.mp hrow with rfl | hrow
  · exact ⟨tame_id _, by decide⟩
  · rw [List.mem_singleton.mp hrow]
    exact ⟨tame_ret trivial, by decide⟩

end MLocust.Faker
