/-
  MLocust.Faker.Description

  A document, described by a model, and generated again.

  The leaves of a document are what it holds that is not an object with fields.  A row
  describes a leaf if its components are read as the field names that lead there, and
  its generator is the leaf as a literal.  A model file with one row for each leaf, in
  order, generates copies of exactly this document, with its fields in their order,
  and leaves the process as it is (`bulkFetchFrom_description`).

  A component can be written for every field name without dots and white space, since
  white space is deleted after the parentheses are (`component`).  So these names are
  all that stands between a document and its model (`generated_iff_plain`).
-/
import MLocust.Lib.Flatten
import MLocust.Faker.FieldNames

namespace MLocust.Faker

open Lib Lib.Program DataTree PyStr

variable {M : DocMerger} {rows : List Row} {row : Row} {path : List PyStr} {k : PyStr}
  {leaf : Leaf PyStr Atom} {items : List (PyStr × Value)} {s : DocState}

-- ============================================================================
-- From the model to the document
-- ============================================================================

/-- A row whose path has no array marks and leads to the leaf, and whose generator is the leaf. -/
structure Describes (row : Row) (leaf : Leaf PyStr Atom) : Prop where
  names : row.path.map stripName = leaf.1
  components : ∀ component ∈ row.path, component ≠ [] ∧ ¬ endsWithMarker component
  value : ∃ h, row.generator = .ret ⟨leaf.2, h⟩

/-- A path without array marks leads to a chain of objects. -/
theorem procpath_chain (hne : path ≠ [])
    (hpath : ∀ component ∈ path, component ≠ [] ∧ ¬ endsWithMarker component) (v : PyValue) :
    procpath path (.ret v) = pure (chain (path.map stripName) v.val) := by
  induction path with
  | nil => exact absurd rfl hne
  | cons component rest ih =>
      obtain ⟨⟨hcomponent, hmark⟩, hrest⟩ := List.forall_mem_cons.mp hpath
      by_cases hlast : rest = []
      · subst hlast
        rw [procpath_last hcomponent]
        rfl
      · rw [procpath_object hcomponent hlast hmark, ih hlast hrest, pure_bind]
        rfl

/-- **One row** puts its leaf in place. -/
theorem mergeRow_describes (h : Describes row leaf) (d : Value) :
    mergeRow M d row = fromExcept (M.merge d (chain leaf.1 leaf.2)) := by
  obtain ⟨hwf, hvalue⟩ := h.value
  have hpath : row.path ≠ [] := List.splitOn_ne_nil _ _
  rw [mergeRow, hvalue, procpath_chain hpath h.components, h.names, pure_bind]

/-- The rows put their leaves in place, one after the other. -/
theorem rowLoop_describes {leaves : List (Leaf PyStr Atom)}
    (h : List.Forall₂ Describes rows leaves) (d : Value) :
    rowLoop M d rows = fromExcept (M.mergeChains d leaves) := by
  induction h generalizing d with
  | nil => rfl
  | cons hrow _ ih =>
      rw [rowLoop, List.foldlM_cons, mergeRow_describes hrow, Merger.mergeChains,
        List.foldlM_cons]
      cases M.merge d (chain _ _) with
      | error e => rfl
      | ok d' => exact ih d'

/-- The rows of a document build the document. -/
theorem rowLoop_document (hwf : (DataTree.dict items).WF)
    (h : List.Forall₂ Describes rows (flattenItems items)) :
    rowLoop M (.dict []) rows = pure (.dict items) := by
  rw [rowLoop_describes h, M.mergeChains_flattenItems hwf, fromExcept_ok]

theorem fetchRows_document (hwf : (DataTree.dict items).WF)
    (h : List.Forall₂ Describes rows (flattenItems items)) :
    fetchRows M rows = pure (.dict items) := by
  rw [fetchRows, rowLoop_document hwf h]
  rfl

theorem mapM_pure {σ α ι : Type} (a : α) (l : List ι) :
    (l.mapM fun _ => (pure a : Py σ α)) = pure (List.replicate l.length a) := by
  induction l with
  | nil => rfl
  | cons i l ih =>
      rw [List.mapM_cons, ih]
      rfl

/-- **A document comes back from its description.**  However the file is quoted and whatever its
    first line is, if its cells are within the reader's limits (131072 characters, no null
    character) and its rows describe the leaves of a document one by one, then every call on it
    returns copies of exactly this document, and leaves the process as it is. -/
theorem bulkFetchFrom_description (M : DocMerger) (files : Files) (model : PyStr) (n : Int)
    (header body : PyStr) (entries : List Entry) (items : List (PyStr × Value))
    (hwf : (DataTree.dict items).WF)
    (hfile : files.isfile (templatePath files.env model))
    (htext : files.text (templatePath files.env model) = header ++ '\n' :: body)
    (hheader : '\n' ∉ header) (hbody : Csv.Encodes excel (entries.map Entry.cells) body)
    (hfits : ∀ entry ∈ entries, ∀ cell ∈ entry.cells, excel.Fits cell)
    (h : List.Forall₂ Describes (entries.map (Entry.row files.expr)) (flattenItems items)) :
    bulkFetchFrom M files model n = pure (List.replicate n.toNat (.dict items)) := by
  rw [bulkFetchFrom_entries hfile htext hheader hbody hfits, fetchRows_document hwf h, mapM_pure,
    List.length_range]

/-- A document with an object in an object. -/
def orderDocument : List (PyStr × Value) :=
  [("order".toList, .dict [("id".toList, .atom (.int 7)), ("lines".toList, .list [])]),
    ("open".toList, .atom (.other "True".toList))]

/-- The entries of its model, one of them with a blank in its path. -/
def orderEntries : List Entry :=
  let entry (path : List PyStr) (generator : String) (h : path ≠ [])
      (hdot : ∀ component ∈ path, '.' ∉ component) : Entry :=
    ⟨path, "Type".toList, [], generator.toList, [], h, hdot⟩
  [entry ["order".toList, "id".toList] "7" (by simp) (by simp),
    entry ["order".toList, "li nes".toList] "[]" (by simp) (by simp),
    entry ["open".toList] "True" (by simp) (by simp)]

/-- A file with these entries. -/
def orderFiles : Files where
  isfile := fun _ => true
  text := fun _ => "Property".toList ++ '\n' :: Csv.quoteAll excel (orderEntries.map Entry.cells)
  expr := fun text =>
    if text = "7".toList then .ret (.int 7)
    else if text = "[]".toList then .ret (.list [])
    else .ret ⟨.atom (.other text), .atom _⟩

theorem orderDocument_wf : (DataTree.dict orderDocument).WF := by
  refine .dict (by decide) fun kv hkv => ?_
  simp only [orderDocument, List.mem_cons, List.not_mem_nil, or_false] at hkv
  rcases hkv with rfl | rfl
  · refine .dict (by decide) fun kv hkv => ?_
    simp only [List.mem_cons, List.not_mem_nil, or_false] at hkv
    rcases hkv with rfl | rfl
    · exact .atom _
    · exact .list fun x hx => nomatch hx
  · exact .atom _

theorem orderEntries_describe : List.Forall₂ Describes
    (orderEntries.map (Entry.row orderFiles.expr)) (flattenItems orderDocument) :=
  .cons ⟨by decide, by decide, _, rfl⟩ <| .cons ⟨by decide, by decide, _, rfl⟩ <|
    .cons ⟨by decide, by decide, _, rfl⟩ .nil

/-- Two copies of the document. -/
theorem orderFiles_description : bulkFetchFrom merger orderFiles "order.csv".toList 2 =
    pure (List.replicate 2 (.dict orderDocument)) := by
  refine bulkFetchFrom_description merger orderFiles "order.csv".toList 2 "Property".toList _
    orderEntries orderDocument orderDocument_wf rfl rfl (by decide) (Csv.encodes_quoteAll _) ?_
    orderEntries_describe
  decide

-- ============================================================================
-- From the document to the model
-- ============================================================================

/-- A component for a field name.  The blanks keep `stripProp` from taking parentheses off. -/
def component : PyStr → PyStr
  | [] => [' ']
  | c :: s => c :: ' ' :: (s ++ [' '])

theorem component_ne_nil (k : PyStr) : component k ≠ [] := by
  cases k with
  | nil => exact List.cons_ne_nil _ _
  | cons c s => exact List.cons_ne_nil _ _

/-- The last character of a component is a blank. -/
theorem not_endsWithMarker_component (k : PyStr) : ¬ endsWithMarker (component k) := by
  apply not_endsWithMarker_of_getLast (component_ne_nil k)
  cases k with
  | nil => decide
  | cons c s =>
      have hlast : (component (c :: s)).getLast (component_ne_nil _) = ' ' := by
        simp [component]
      rw [hlast]
      decide

theorem not_mem_component (h : '.' ∉ k) : '.' ∉ component k := by
  cases k with
  | nil => decide
  | cons c s =>
      rw [List.mem_cons, not_or] at h
      simp [component, h.1, h.2]

/-- The component is read as the field name. -/
theorem stripName_component (h : ∀ c ∈ k, isSpace c = false) : stripName (component k) = k := by
  cases k with
  | nil => rfl
  | cons c s =>
      obtain ⟨hc, hs⟩ := List.forall_mem_cons.mp h
      have hstrip : stripMarker (' ' :: (s ++ [' '])) = ' ' :: (s ++ [' ']) := by
        apply strip_eq_self (by decide)
        simp [isParen, marker]
      have hkept : s.filter (fun c => !isSpace c) = s :=
        List.filter_eq_self.mpr fun c hc => by rw [hs c hc]; rfl
      have hblank : isSpace ' ' = true := by decide
      show removeSpace (c :: stripMarker (' ' :: (s ++ [' ']))) = c :: s
      rw [hstrip, removeSpace]
      simp [hc, hkept, hblank]

/-- A row for a leaf. -/
def describe (leaf : Leaf PyStr Atom) (h : leaf.2.WF) : Row :=
  ⟨['.'].intercalate (leaf.1.map component), .ret ⟨leaf.2, h⟩⟩

theorem describes_describe (hne : leaf.1 ≠ []) (hplain : ∀ k ∈ leaf.1, Plain k)
    (h : leaf.2.WF) : Describes (describe leaf h) leaf := by
  have hpath : (describe leaf h).path = leaf.1.map component := by
    apply List.splitOn_intercalate
    · intro component hcomponent
      obtain ⟨k, hk, rfl⟩ := List.mem_map.mp hcomponent
      exact not_mem_component (hplain k hk).no_dot
    · simpa using hne
  refine ⟨?_, ?_, h, rfl⟩
  · have hnames : ∀ k ∈ leaf.1, (stripName ∘ component) k = id k :=
      fun k hk => stripName_component (hplain k hk).no_space
    rw [hpath, List.map_map, List.map_congr_left hnames, List.map_id]
  · intro component hcomponent
    rw [hpath] at hcomponent
    obtain ⟨k, _, rfl⟩ := List.mem_map.mp hcomponent
    exact ⟨component_ne_nil k, not_endsWithMarker_component k⟩

/-- Some rows describe the leaves, if each leaf is described by a row. -/
theorem exists_rows {P : Row → Prop} (leaves : List (Leaf PyStr Atom))
    (h : ∀ leaf ∈ leaves, ∃ row, Describes row leaf ∧ P row) :
    ∃ rows, List.Forall₂ Describes rows leaves ∧ ∀ row ∈ rows, P row := by
  induction leaves with
  | nil => exact ⟨[], .nil, List.forall_mem_nil _⟩
  | cons leaf leaves ih =>
      obtain ⟨⟨row, hrow, hP⟩, hleaves⟩ := List.forall_mem_cons.mp h
      obtain ⟨rows, hrows, hPs⟩ := ih hleaves
      exact ⟨row :: rows, .cons hrow hrows, List.forall_mem_cons.mpr ⟨hP, hPs⟩⟩

/-- A literal returns the keys that it holds. -/
theorem returnsKey_ret {v : PyValue} : (Gen.ret v).ReturnsKey k ↔ KeyIn k v.val := by
  constructor
  · rintro ⟨w, v', w', hv, hk⟩
    cases hv
    exact hk
  · intro hk
    exact ⟨World.fresh fun _ => 0, v, _, rfl, hk⟩

/-- **Which documents have a model.**  A document without objects in lists can be generated by
    rows whose generators return no objects with fields, if and only if its field names have
    neither dots nor white space. -/
theorem generated_iff_plain (M : DocMerger) (items : List (PyStr × Value))
    (hwf : (DataTree.dict items).WF)
    (hleaves : ∀ leaf ∈ flattenItems items, ∀ k, ¬ KeyIn k leaf.2) :
    (∃ rows s t, (∀ row ∈ rows, ∀ k, ¬ row.generator.ReturnsKey k) ∧
      rowLoop M (.dict []) rows s = .ok (.dict items) t) ↔
    ∀ k, KeyIn k (.dict items) → Plain k := by
  constructor
  · rintro ⟨rows, s, t, hrows, hloop⟩ k hk
    -- a field comes from a path, and names on paths are plain
    rcases keyIn_rowLoop hloop hk with hempty | ⟨row, hrow, hpath | hvalue⟩
    · exact absurd hempty not_keyIn_empty
    · exact plain_of_mem_path hpath
    · exact absurd hvalue (hrows row hrow k)
  · intro hplain
    -- a row for each leaf, with the leaf itself as generator
    have hrow : ∀ leaf ∈ flattenItems items, ∃ row, Describes row leaf ∧
        ∀ k, ¬ row.generator.ReturnsKey k := by
      intro leaf hleaf
      have hvalue : leaf.2.WF := wf_flattenItems hwf leaf hleaf
      refine ⟨describe leaf hvalue, describes_describe (path_ne_nil hleaf) ?_ hvalue, ?_⟩
      · exact fun k hk => hplain k (keyIn_flattenItems.mpr ⟨leaf, hleaf, Or.inl hk⟩)
      · exact fun k hk => hleaves leaf hleaf k (returnsKey_ret.mp hk)
    obtain ⟨rows, hdescribe, hkeys⟩ := exists_rows _ hrow
    let s := DocState.start (World.fresh fun _ => 0)
    refine ⟨rows, s, s, hkeys, ?_⟩
    rw [rowLoop_document hwf hdescribe]
    rfl

/-- A field name that ends with a parenthesis. -/
def netDocument : List (PyStr × Value) := [("net)".toList, .atom (.int 1))]

/-- Parentheses in a field name are no obstacle. -/
theorem netDocument_generated : ∃ rows s t,
    (∀ row ∈ rows, ∀ k, ¬ row.generator.ReturnsKey k) ∧
      rowLoop merger (.dict []) rows s = .ok (.dict netDocument) t := by
  refine (generated_iff_plain merger netDocument ?_ ?_).mpr ?_
  · refine .dict (by decide) fun kv hkv => ?_
    rw [List.mem_singleton.mp hkv]
    exact .atom _
  · intro leaf hleaf k
    rw [List.mem_singleton.mp hleaf]
    exact not_keyIn_of_isAtom trivial
  · intro k hk
    rcases keyIn_singleton.mp hk with rfl | hvalue
    · refine ⟨by decide, ?_⟩
      have hall : ("net)".toList.all fun c => !isSpace c) = true := rfl
      simpa using hall
    · exact absurd hvalue (not_keyIn_of_isAtom trivial)

end MLocust.Faker
