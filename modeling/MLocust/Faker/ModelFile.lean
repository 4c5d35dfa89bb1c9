/-
  MLocust.Faker.ModelFile

  Model files as text.

  `bulkFetch` opens the template, drops its first line with `itertools.islice` and
  reads the rest with `csv.reader`.  `bulkFetchFrom` is `bulkFetch` on the contents
  of the files; as long as the reader raises nothing, it is `bulkFetch` on the rows
  of the file (`bulkFetchFrom_eq`).

  What a model file means does not depend on how it is written: for every quoting
  of its cells and every first line, a file yields the entries that it encodes, with
  the path components that their author joined by dots (`bulkFetchFrom_of_encodes`).
  Only the limits of the reader remain: a cell has at most 131072 characters and no
  null character.
-/
import MLocust.Lib.Csv
import MLocust.Faker.DocRun
import MLocust.Faker.Ids

namespace MLocust.Faker

open Lib Lib.Program PyStr

/-- The dialect of `csv.reader` without further arguments. -/
def excel : Csv.Dialect where
  delimiter := ','
  quote := '"'
  limit := 131072
  delimiter_ne_quote := by decide
  delimiter_ne_newline := by decide
  quote_ne_newline := by decide
  ne_nul := by decide

/-- The files a worker has, and the meaning of the expressions in them. -/
structure Files where
  /-- `os.path.isfile` -/
  isfile : PyStr → Bool
  /-- the contents of a file as read by `open`, with line feeds for its line breaks -/
  text : PyStr → PyStr
  /-- what evaluating an expression does -/
  expr : PyStr → Gen

/-- `csv.reader(itertools.islice(csvfile, 1, None))`: the first line is not read. -/
def propreader (files : Files) (template : PyStr) : Csv.Reading :=
  Csv.readLines excel .init ((Csv.textLines (files.text template)).drop 1)

/-- What a worker sees of its files as long as they can be read. -/
def Files.env (files : Files) : Env where
  isfile := files.isfile
  rows := fun template => (propreader files template).rows
  expr := files.expr

/-- The exception of the `csv` module. -/
def csvError : Csv.CsvErr → PyErr
  | .fieldTooLarge => .exception "field larger than field limit (131072)".toList
  | .newlineInUnquoted => .exception ("new-line character seen in unquoted field - " ++
      "do you need to open the file in universal-newline mode?").toList
  | .nul => .exception "line contains NUL".toList

section BulkFetch

variable (M : DocMerger) (files : Files)

/-- `for row in propreader`: the row loop, and then what the reader raises. -/
def readerLoop (data : Value) (reading : Csv.Reading) : Py DocState Value := do
  let data ← templateLoop M files.env data reading.rows
  match reading.error with
  | none => pure data
  | some e => throw (csvError e)

/-- One document: the file is opened and read again. -/
def fetchDocFrom (template : PyStr) : Py World Value :=
  zoom DocState.start (fun s _ => s.world)
    (readerLoop M files (.dict []) (propreader files template))

/-- `bulkFetch`, on the contents of the files -/
def bulkFetchFrom (model : PyStr) (bulkSize : Int) : Py World (List Value) :=
  let template := templatePath files.env model
  if files.isfile template then
    (List.range bulkSize.toNat).mapM fun _ => fetchDocFrom M files template
  else
    throw (.exception ("Model file not found. ".toList ++ template))

end BulkFetch

variable {M : DocMerger} {files : Files} {template : PyStr}

theorem fetchDocFrom_eq (h : (propreader files template).error = none) :
    fetchDocFrom M files template = fetchDoc M files.env (files.env.rows template) := by
  have hloop : readerLoop M files (.dict []) (propreader files template) =
      templateLoop M files.env (.dict []) (propreader files template).rows := by
    rw [readerLoop, h]
    exact bind_pure _
  rw [fetchDocFrom, hloop]
  rfl

/-- As long as the file can be read, its contents matter through its rows only. -/
theorem bulkFetchFrom_eq {model : PyStr}
    (h : (propreader files (templatePath files.env model)).error = none) (n : Int) :
    bulkFetchFrom M files model n = bulkFetch M files.env model n := by
  rw [bulkFetchFrom, bulkFetch, fetchDocFrom_eq h]
  rfl

-- ============================================================================
-- What the author of a model writes
-- ============================================================================

/-- An entry of a model: a path of components without dots, and the other cells. -/
structure Entry where
  path : List PyStr
  propertyType : PyStr
  required : PyStr
  generator : PyStr
  notes : List PyStr
  path_ne_nil : path ≠ []
  no_dot : ∀ component ∈ path, '.' ∉ component

namespace Entry

/-- The cell of the path. -/
def property (entry : Entry) : PyStr := ['.'].intercalate entry.path

/-- The cells of the entry. -/
def cells (entry : Entry) : List PyStr :=
  entry.property :: entry.propertyType :: entry.required :: entry.generator :: entry.notes

/-- The row that `bulkFetch` reads. -/
def row (expr : PyStr → Gen) (entry : Entry) : Row := ⟨entry.property, expr entry.generator⟩

/-- Splitting at the dots gives the components back. -/
theorem row_path (expr : PyStr → Gen) (entry : Entry) : (entry.row expr).path = entry.path :=
  List.splitOn_intercalate _ entry.no_dot entry.path_ne_nil

theorem readRow_cells (env : Env) (entry : Entry) :
    readRow env entry.cells = .ok (entry.row env.expr) := rfl

theorem mapM_readRow (env : Env) (entries : List Entry) :
    (entries.map cells).mapM (readRow env) = .ok (entries.map (row env.expr)) := by
  induction entries with
  | nil => rfl
  | cons entry entries ih =>
      rw [List.map_cons, List.mapM_cons, ih, readRow_cells]
      rfl

end Entry

variable {entries : List Entry} {header body : PyStr}

/-- The reader yields the entries of the file. -/
theorem propreader_of_encodes (htext : files.text template = header ++ '\n' :: body)
    (hheader : '\n' ∉ header) (hbody : Csv.Encodes excel (entries.map Entry.cells) body)
    (hfits : ∀ entry ∈ entries, ∀ cell ∈ entry.cells, excel.Fits cell) :
    propreader files template = ⟨entries.map Entry.cells, none⟩ := by
  rw [propreader, htext, Csv.textLines_append hheader]
  apply Csv.readAll_of_encodes hbody
  intro cells hcells
  obtain ⟨entry, hentry, rfl⟩ := List.mem_map.mp hcells
  exact hfits entry hentry

/-- The loop over the cells of a template is the row loop over its rows. -/
theorem templateLoop_eq_rowLoop {env : Env} {cells : List (List PyStr)} {rows : List Row}
    (h : cells.mapM (readRow env) = .ok rows) (d : Value) :
    templateLoop M env d cells = rowLoop M d rows := by
  induction cells generalizing d rows with
  | nil =>
      cases h
      rfl
  | cons row cells ih =>
      rw [List.mapM_cons] at h
      obtain ⟨first, hfirst, h⟩ := Except.bind_eq_ok.mp h
      obtain ⟨rest, hrest, h⟩ := Except.bind_eq_ok.mp h
      cases h
      have hloop : (fun d' => templateLoop M env d' cells) = fun d' => rowLoop M d' rest :=
        funext fun d' => ih hrest d'
      rw [templateLoop, List.foldlM_cons, hfirst, rowLoop, List.foldlM_cons]
      exact congrArg (mergeRow M d first >>= ·) hloop

/-- One document of the given rows. -/
def fetchRows (M : DocMerger) (rows : List Row) : Py World Value :=
  zoom DocState.start (fun s _ => s.world) (rowLoop M (.dict []) rows)

theorem bulkFetchFrom_entries {model : PyStr} {n : Int}
    (hfile : files.isfile (templatePath files.env model))
    (htext : files.text (templatePath files.env model) = header ++ '\n' :: body)
    (hheader : '\n' ∉ header) (hbody : Csv.Encodes excel (entries.map Entry.cells) body)
    (hfits : ∀ entry ∈ entries, ∀ cell ∈ entry.cells, excel.Fits cell) :
    bulkFetchFrom M files model n =
      (List.range n.toNat).mapM fun _ => fetchRows M (entries.map (Entry.row files.expr)) := by
  have hreading := propreader_of_encodes htext hheader hbody hfits
  have hrows : files.env.rows (templatePath files.env model) = entries.map Entry.cells :=
    congrArg Csv.Reading.rows hreading
  have hdoc : fetchDoc M files.env (entries.map Entry.cells) =
      fetchRows M (entries.map (Entry.row files.expr)) :=
    congrArg _ (templateLoop_eq_rowLoop (Entry.mapM_readRow files.env entries) (.dict []))
  rw [bulkFetchFrom_eq (congrArg Csv.Reading.error hreading), bulkFetch]
  show (if files.isfile _ then _ else _) = _
  rw [if_pos hfile, hrows, hdoc]

/-- **A model file means its entries.**  However its cells are quoted and whatever its first line
    is, as long as no cell is beyond the reader's limits (131072 characters, no null character),
    `bulkFetch` on the file builds its documents from the entries it encodes, and splitting the
    path cells gives the components that were joined. -/
theorem bulkFetchFrom_of_encodes (M : DocMerger) (files : Files) (model : PyStr) (n : Int)
    (header body : PyStr) (entries : List Entry)
    (hfile : files.isfile (templatePath files.env model))
    (htext : files.text (templatePath files.env model) = header ++ '\n' :: body)
    (hheader : '\n' ∉ header) (hbody : Csv.Encodes excel (entries.map Entry.cells) body)
    (hfits : ∀ entry ∈ entries, ∀ cell ∈ entry.cells, excel.Fits cell) :
    (bulkFetchFrom M files model n =
      (List.range n.toNat).mapM fun _ => fetchRows M (entries.map (Entry.row files.expr))) ∧
    ∀ entry ∈ entries, (entry.row files.expr).path = entry.path :=
  ⟨bulkFetchFrom_entries hfile htext hheader hbody hfits,
    fun entry _ => entry.row_path files.expr⟩

/-- An entry with an array path and a generator that holds commas and quotes. -/
def memberEntry : Entry where
  path := ["members()".toList, "ID".toList]
  propertyType := "String".toList
  required := "Required".toList
  generator := "ID(\"M-\")".toList
  notes := ["one, two".toList]
  path_ne_nil := List.cons_ne_nil _ _
  no_dot := by simp

/-- A file with that entry alone. -/
def memberFiles : Files where
  isfile := fun _ => true
  text := fun _ => "\"Property,Type".toList ++ '\n' :: Csv.quoteAll excel [memberEntry.cells]
  expr := fun _ => .id "M-".toList

/-- A file with quotes and commas in its cells, under a first line that is not a record. -/
theorem memberFiles_bulkFetchFrom :
    (bulkFetchFrom merger memberFiles "member.csv".toList 2 =
      (List.range 2).mapM fun _ => fetchRows merger [memberEntry.row memberFiles.expr]) ∧
    ∀ entry ∈ [memberEntry], (entry.row memberFiles.expr).path = entry.path := by
  refine bulkFetchFrom_of_encodes merger memberFiles "member.csv".toList 2
    "\"Property,Type".toList _ [memberEntry] rfl rfl (by decide) (Csv.encodes_quoteAll _) ?_
  intro entry hentry cell hcell
  rw [List.mem_singleton.mp hentry] at hcell
  simp only [Entry.cells, memberEntry, List.mem_cons, List.not_mem_nil, or_false] at hcell
  rcases hcell with rfl | rfl | rfl | rfl | rfl
  · exact ⟨by decide, by decide⟩
  · exact ⟨by decide, by decide⟩
  · exact ⟨by decide, by decide⟩
  · exact ⟨by decide, by decide⟩
  · exact ⟨by decide, by decide⟩

end MLocust.Faker
