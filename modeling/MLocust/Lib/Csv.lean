/-
  MLocust.Lib.Csv

  Reading comma-separated text, line by line.

  The reader is the one of Python's `csv` module, for a dialect without an escape
  character that doubles quotes and is not strict: a state machine over the
  characters of a line, with one more event at the end of every line.  A record
  ends with the line at whose end the machine is back at the start of a record; a
  line break inside quotes is part of the cell.  Records are read one at a time, so
  a reading is a list of rows, followed by an error if there was one.

  `Encodes` is what a text says: each cell bare or in quotes, as its author likes.
  Whatever the quoting, a text is read as the rows it encodes, and reading goes on
  behind it (`readAll_append`).
-/
import Mathlib.Data.List.Basic

namespace MLocust.Lib.Csv

/-- A cell, or any other text. -/
abbrev Cell := List Char

/-- The characters of a dialect and the limit on the length of a cell. -/
structure Dialect where
  delimiter : Char
  quote : Char
  limit : Nat
  delimiter_ne_quote : delimiter ≠ quote
  delimiter_ne_newline : delimiter ≠ '\n' ∧ delimiter ≠ '\r'
  quote_ne_newline : quote ≠ '\n' ∧ quote ≠ '\r'
  ne_nul : delimiter ≠ '\x00' ∧ quote ≠ '\x00'

/-- What a reader raises. -/
inductive CsvErr where
  | fieldTooLarge
  | newlineInUnquoted
  | nul
deriving Repr, DecidableEq

/-- Where in a record the reader is. -/
inductive Mode where
  | startRecord
  | startField
  | inField
  | inQuotedField
  | quoteInQuotedField
  | eatCrnl
deriving Repr, DecidableEq

/-- The state of a reader: its mode, the saved cells of the record and the current one. -/
structure Reader where
  mode : Mode
  fields : List Cell
  field : Cell
deriving Repr, DecidableEq

/-- The rows that were read, and what the reader raised after them, if anything. -/
structure Reading where
  rows : List (List Cell)
  error : Option CsvErr
deriving Repr, DecidableEq

namespace Reader

/-- `parse_reset` -/
def init : Reader := ⟨.startRecord, [], []⟩

/-- `parse_save_field`, and on in another mode -/
def save (r : Reader) (mode : Mode) : Reader := ⟨mode, r.fields ++ [r.field], []⟩

/-- `parse_add_char`, and on in another mode -/
def addChar (d : Dialect) (r : Reader) (c : Char) (mode : Mode) : Except CsvErr Reader :=
  if d.limit ≤ r.field.length then .error .fieldTooLarge
  else .ok ⟨mode, r.fields, r.field ++ [c]⟩

end Reader

/-- A carriage return or a line feed. -/
def isNewline (c : Char) : Bool := c = '\n' || c = '\r'

/-- The first character of a cell. -/
def startCell (d : Dialect) (r : Reader) (c : Char) : Except CsvErr Reader :=
  if isNewline c then .ok (r.save .eatCrnl)
  else if c = d.quote then .ok { r with mode := .inQuotedField }
  else if c = d.delimiter then .ok (r.save .startField)
  else r.addChar d c .inField

/-- `parse_process_char` for a character of the line -/
def processChar (d : Dialect) (r : Reader) (c : Char) : Except CsvErr Reader :=
  match r.mode with
  | .startRecord => if isNewline c then .ok { r with mode := .eatCrnl } else startCell d r c
  | .startField => startCell d r c
  | .inField =>
      if isNewline c then .ok (r.save .eatCrnl)
      else if c = d.delimiter then .ok (r.save .startField)
      else r.addChar d c .inField
  | .inQuotedField =>
      if c = d.quote then .ok { r with mode := .quoteInQuotedField }
      else r.addChar d c .inQuotedField
  | .quoteInQuotedField =>
      if c = d.quote then r.addChar d c .inQuotedField
      else if c = d.delimiter then .ok (r.save .startField)
      else if isNewline c then .ok (r.save .eatCrnl)
      else r.addChar d c .inField
  | .eatCrnl => if isNewline c then .ok r else .error .newlineInUnquoted

/-- `parse_process_char` at the end of the line -/
def endLine (r : Reader) : Reader :=
  match r.mode with
  | .startRecord => r
  | .startField => r.save .startRecord
  | .inField => r.save .startRecord
  | .inQuotedField => r
  | .quoteInQuotedField => r.save .startRecord
  | .eatCrnl => { r with mode := .startRecord }

/-- A character that `Reader_iternext` passes on. -/
def readChar (d : Dialect) (r : Reader) (c : Char) : Except CsvErr Reader :=
  if c = '\x00' then .error .nul else processChar d r c

/-- The loop of `Reader_iternext` over one line. -/
def readLine (d : Dialect) (r : Reader) (line : Cell) : Except CsvErr Reader :=
  endLine <$> line.foldlM (readChar d) r

/-- What the reader yields when the lines run out. -/
def atEnd (r : Reader) : List (List Cell) :=
  if r.field ≠ [] ∨ r.mode = .inQuotedField then [r.fields ++ [r.field]] else []

/-- One more row in front of a reading. -/
def Reading.cons (row : List Cell) (reading : Reading) : Reading :=
  ⟨row :: reading.rows, reading.error⟩

/-- Some more rows in front of a reading. -/
def Reading.append (rows : List (List Cell)) (reading : Reading) : Reading :=
  ⟨rows ++ reading.rows, reading.error⟩

/-- Go on from the state that was reached, if one was. -/
def Reading.from (reached : Except CsvErr Reader) (rest : Reader → Reading) : Reading :=
  match reached with
  | .error e => ⟨[], some e⟩
  | .ok r => rest r

/-- Go on after the end of a line: back at the start of a record, the row is complete. -/
def afterLine (rest : Reader → Reading) (r : Reader) : Reading :=
  if r.mode = .startRecord then .cons r.fields (rest .init) else rest r

/-- Everything `csv.reader` yields for an iterable of lines, from any state of it. -/
def readLines (d : Dialect) : Reader → List Cell → Reading
  | r, [] => ⟨atEnd r, none⟩
  | r, line :: lines => .from (readLine d r line) (afterLine fun r => readLines d r lines)

/-- The lines of a text, with their line feeds. -/
def textLines : Cell → List Cell
  | [] => []
  | c :: text =>
      if c = '\n' then [c] :: textLines text
      else match textLines text with
        | [] => [[c]]
        | line :: lines => (c :: line) :: lines

/-- A line, and what follows it. -/
theorem textLines_append {line : Cell} (h : '\n' ∉ line) (text : Cell) :
    textLines (line ++ '\n' :: text) = (line ++ ['\n']) :: textLines text := by
  induction line with
  | nil => exact if_pos rfl
  | cons c line ih =>
      rw [List.mem_cons, not_or] at h
      rw [List.cons_append, textLines, if_neg (Ne.symm h.1), ih h.2]
      rfl

/-- Everything `csv.reader` yields for the lines of a text. -/
def readAll (d : Dialect) (text : Cell) : Reading := readLines d .init (textLines text)

-- ============================================================================
-- Reading character by character
-- ============================================================================

variable {d : Dialect}

/-- The reading of the rest of a text, at the start of a line or inside of one. -/
def scan (d : Dialect) : Bool → Reader → Cell → Reading
  | true, r, [] => ⟨atEnd r, none⟩
  | false, r, [] => afterLine (fun r => ⟨atEnd r, none⟩) (endLine r)
  | _, r, c :: text => .from (readChar d r c) fun r' =>
      if c = '\n' then afterLine (fun r => scan d true r text) (endLine r')
      else scan d false r' text

/-- Reading on from inside the first of some lines. -/
def readOn (d : Dialect) (r : Reader) : List Cell → Reading
  | [] => afterLine (fun r => ⟨atEnd r, none⟩) (endLine r)
  | line :: lines => .from (readLine d r line) (afterLine fun r => readLines d r lines)

theorem readLine_cons (r : Reader) (c : Char) (line : Cell) :
    readLine d r (c :: line) = readChar d r c >>= fun r' => readLine d r' line := by
  rw [readLine, List.foldlM_cons]
  cases readChar d r c with
  | error e => rfl
  | ok r' => rfl

theorem from_bind (x : Except CsvErr Reader) (f : Reader → Except CsvErr Reader)
    (rest : Reader → Reading) :
    Reading.from (x >>= f) rest = .from x fun r => .from (f r) rest := by
  cases x with
  | error e => rfl
  | ok r => rfl

/-- Reading line by line is reading character by character. -/
theorem scan_eq (text : Cell) (r : Reader) :
    scan d true r text = readLines d r (textLines text) ∧
      scan d false r text = readOn d r (textLines text) := by
  induction text generalizing r with
  | nil => exact ⟨rfl, rfl⟩
  | cons c text ih =>
      -- at a character the two scans do the same; they differ at the end of the text
      have hsame : scan d false r (c :: text) = scan d true r (c :: text) := rfl
      have hfirst : scan d true r (c :: text) = readLines d r (textLines (c :: text)) := by
        by_cases hc : c = '\n'
        · have hrest : (fun r => scan d true r text) = fun r => readLines d r (textLines text) :=
            funext fun r => (ih r).1
          rw [scan, textLines, if_pos hc, readLines, readLine_cons, from_bind]
          simp only [if_pos hc, hrest]
          rfl
        · have hrest : (fun r => scan d false r text) = fun r => readOn d r (textLines text) :=
            funext fun r => (ih r).2
          rw [scan, textLines, if_neg hc]
          simp only [if_neg hc, hrest]
          cases textLines text with
          | nil =>
              rw [readLines, readLine_cons, from_bind]
              rfl
          | cons line lines =>
              rw [readLines, readLine_cons, from_bind]
              rfl
      refine ⟨hfirst, hsame.trans (hfirst.trans ?_)⟩
      by_cases hc : c = '\n'
      · rw [textLines, if_pos hc]
        rfl
      · rw [textLines, if_neg hc]
        cases textLines text with
        | nil => rfl
        | cons line lines => rfl

theorem readAll_eq (text : Cell) : readAll d text = scan d true .init text :=
  (scan_eq text _).1.symm

-- ============================================================================
-- What a text says
-- ============================================================================

/-- A cell with its quotes doubled. -/
def double (d : Dialect) (cell : Cell) : Cell :=
  cell.flatMap fun c => if c = d.quote then [c, c] else [c]

/-- A cell is written bare, or in quotes. -/
inductive EncodesCell (d : Dialect) : Cell → Cell → Prop
  | bare {cell} : (∀ c ∈ cell, c ≠ d.delimiter ∧ ¬ isNewline c) → cell.head? ≠ some d.quote →
      EncodesCell d cell cell
  | quoted (cell) : EncodesCell d cell (d.quote :: (double d cell ++ [d.quote]))

/-- One or more cells, with delimiters between them. -/
inductive EncodesCells (d : Dialect) : List Cell → Cell → Prop
  | last {cell text} : EncodesCell d cell text → EncodesCells d [cell] text
  | cons {cell text cells rest} : EncodesCell d cell text → EncodesCells d cells rest →
      EncodesCells d (cell :: cells) (text ++ d.delimiter :: rest)

/-- The text of a record.  Only the record without cells is written as nothing at all. -/
inductive EncodesRow (d : Dialect) : List Cell → Cell → Prop
  | blank : EncodesRow d [] []
  | cells {row text} : EncodesCells d row text → text ≠ [] → EncodesRow d row text

/-- Records with a line feed after each. -/
inductive EncodesLines (d : Dialect) : List (List Cell) → Cell → Prop
  | nil : EncodesLines d [] []
  | cons {row text rows rest} : EncodesRow d row text → EncodesLines d rows rest →
      EncodesLines d (row :: rows) (text ++ '\n' :: rest)

/-- Records with a line feed after each, or after each but the last. -/
inductive Encodes (d : Dialect) : List (List Cell) → Cell → Prop
  | closed {rows text} : EncodesLines d rows text → Encodes d rows text
  | open {rows text row rest} : EncodesLines d rows text → EncodesCells d row rest → rest ≠ [] →
      Encodes d (rows ++ [row]) (text ++ rest)

/-- A record with every cell in quotes. -/
def quoteRow (d : Dialect) : List Cell → Cell
  | [] => []
  | [cell] => d.quote :: (double d cell ++ [d.quote])
  | cell :: cells => d.quote :: (double d cell ++ [d.quote]) ++ d.delimiter :: quoteRow d cells

/-- Records with every cell in quotes, and a line feed after each. -/
def quoteAll (d : Dialect) (rows : List (List Cell)) : Cell :=
  rows.flatMap fun row => quoteRow d row ++ ['\n']

/-- A cell that can be read: within the limit, and without a null character. -/
def Dialect.Fits (d : Dialect) (cell : Cell) : Prop := cell.length ≤ d.limit ∧ '\x00' ∉ cell

instance (d : Dialect) (cell : Cell) : Decidable (d.Fits cell) :=
  inferInstanceAs (Decidable (cell.length ≤ d.limit ∧ '\x00' ∉ cell))

-- ============================================================================
-- Reading a cell
-- ============================================================================

variable {r : Reader} {c : Char} {cell text rest : Cell} {fields row : List Cell} {mode : Mode}
  {rows : List (List Cell)}

theorem readChar_of_ne (hc : c ≠ '\x00') : readChar d r c = processChar d r c := by
  rw [readChar, if_neg hc]

theorem addChar_of_lt (h : r.field.length < d.limit) :
    r.addChar d c mode = .ok ⟨mode, r.fields, r.field ++ [c]⟩ := by
  rw [Reader.addChar, if_neg (by omega)]

theorem scan_cons (b : Bool) (r : Reader) (c : Char) (text : Cell) :
    scan d b r (c :: text) = .from (readChar d r c) fun r' =>
      if c = '\n' then afterLine (fun r => scan d true r text) (endLine r')
      else scan d false r' text := by
  rw [scan]

theorem scan_of_step {r' : Reader} (b : Bool) (hc : c ≠ '\n') (h : readChar d r c = .ok r') :
    scan d b r (c :: text) = scan d false r' text := by
  rw [scan_cons, h]
  exact if_neg hc

/-- A line feed in a cell does not end the record. -/
theorem scan_of_step_quoted {r' : Reader} (b : Bool) (text : Cell) (h : readChar d r c = .ok r')
    (hmode : r'.mode = .inQuotedField) :
    ∃ b', scan d b r (c :: text) = scan d b' r' text := by
  have hend : endLine r' = r' := by rw [endLine, hmode]
  have hafter : afterLine (fun r => scan d true r text) (endLine r') = scan d true r' text := by
    rw [hend, afterLine, hmode]
    exact if_neg (by decide)
  rw [scan_cons, h]
  show ∃ b', (if c = '\n' then _ else _) = _
  rw [hafter]
  by_cases hc : c = '\n'
  · exact ⟨true, if_pos hc⟩
  · exact ⟨false, if_neg hc⟩

/-- The rest of a bare cell. -/
theorem scan_inField (b : Bool) (field : Cell)
    (hcell : ∀ c ∈ cell, c ≠ d.delimiter ∧ ¬ isNewline c) (hnul : '\x00' ∉ cell)
    (hlen : field.length + cell.length ≤ d.limit) :
    scan d b ⟨.inField, fields, field⟩ (cell ++ rest) =
      scan d (b && cell.isEmpty) ⟨.inField, fields, field ++ cell⟩ rest := by
  induction cell generalizing b field with
  | nil => simp
  | cons c cell ih =>
      obtain ⟨⟨hdelim, hline⟩, hcell⟩ := List.forall_mem_cons.mp hcell
      have hc : c ≠ '\x00' := fun h => hnul (h ▸ List.mem_cons_self)
      have hlf : c ≠ '\n' := fun h => hline (by simp [isNewline, h])
      have hlen' : (field ++ [c]).length + cell.length ≤ d.limit := by
        rw [List.length_append, List.length_singleton]
        rw [List.length_cons] at hlen
        omega
      -- the character is neither a delimiter nor a line break, so it is added
      have hstep : readChar d ⟨.inField, fields, field⟩ c =
          .ok ⟨.inField, fields, field ++ [c]⟩ := by
        rw [readChar_of_ne hc, processChar]
        show (if isNewline c then _ else if c = d.delimiter then _ else _) = _
        rw [if_neg hline, if_neg hdelim]
        apply addChar_of_lt
        rw [List.length_cons] at hlen
        show field.length < d.limit
        omega
      rw [List.cons_append, scan_of_step b hlf hstep,
        ih false (field ++ [c]) hcell (fun h => hnul (List.mem_cons_of_mem _ h)) hlen']
      simp

/-- The rest of a cell in quotes. -/
theorem scan_inQuotedField (b : Bool) (field : Cell) (hnul : '\x00' ∉ cell)
    (hlen : field.length + cell.length ≤ d.limit) :
    scan d b ⟨.inQuotedField, fields, field⟩ (double d cell ++ d.quote :: rest) =
      scan d false ⟨.quoteInQuotedField, fields, field ++ cell⟩ rest := by
  have hquote : ∀ f, readChar d ⟨.inQuotedField, fields, f⟩ d.quote =
      .ok ⟨.quoteInQuotedField, fields, f⟩ := by
    intro f
    rw [readChar_of_ne d.ne_nul.2, processChar]
    exact if_pos rfl
  induction cell generalizing b field with
  | nil =>
      rw [List.append_nil]
      exact scan_of_step b d.quote_ne_newline.1 (hquote field)
  | cons c cell ih =>
      have hc : c ≠ '\x00' := fun h => hnul (h ▸ List.mem_cons_self)
      have hrest : '\x00' ∉ cell := fun h => hnul (List.mem_cons_of_mem _ h)
      rw [List.length_cons] at hlen
      have hlt : field.length < d.limit := by omega
      have hlen' : (field ++ [c]).length + cell.length ≤ d.limit := by
        rw [List.length_append, List.length_singleton]
        omega
      have hassoc : field ++ c :: cell = field ++ [c] ++ cell := by simp
      have hdouble : double d (c :: cell) =
          (if c = d.quote then [c, c] else [c]) ++ double d cell := List.flatMap_cons ..
      rw [hassoc, hdouble]
      by_cases hq : c = d.quote
      · -- a doubled quote stands for one
        subst hq
        have hadd : readChar d ⟨.quoteInQuotedField, fields, field⟩ d.quote =
            .ok ⟨.inQuotedField, fields, field ++ [d.quote]⟩ := by
          rw [readChar_of_ne hc, processChar]
          show (if d.quote = d.quote then _ else _) = _
          rw [if_pos rfl]
          exact addChar_of_lt hlt
        rw [if_pos rfl, List.append_assoc, List.cons_append, List.cons_append,
          scan_of_step b d.quote_ne_newline.1 (hquote field),
          scan_of_step false d.quote_ne_newline.1 hadd]
        exact ih false (field ++ [d.quote]) hrest hlen'
      -- any other character stands for itself, a line break included
      · have hadd : readChar d ⟨.inQuotedField, fields, field⟩ c =
            .ok ⟨.inQuotedField, fields, field ++ [c]⟩ := by
          rw [readChar_of_ne hc, processChar]
          show (if c = d.quote then _ else _) = _
          rw [if_neg hq]
          exact addChar_of_lt hlt
        rw [if_neg hq, List.append_assoc, List.cons_append]
        obtain ⟨b', hb'⟩ := scan_of_step_quoted b (double d cell ++ d.quote :: rest) hadd rfl
        rw [List.nil_append, hb']
        exact ih b' (field ++ [c]) hrest hlen'

/-- At the start of a cell. -/
def Mode.AtCell (m : Mode) : Prop := m = .startRecord ∨ m = .startField

/-- The mode after the text of a cell that was read from mode `m`. -/
def Mode.AfterCell (m : Mode) (text : Cell) (mode : Mode) : Prop :=
  (text = [] ∧ mode = m) ∨ (text ≠ [] ∧ (mode = .inField ∨ mode = .quoteInQuotedField))

theorem processChar_atCell {m : Mode} (hm : m.AtCell) (hline : ¬ isNewline c) :
    processChar d ⟨m, fields, []⟩ c = startCell d ⟨m, fields, []⟩ c := by
  rcases hm with rfl | rfl
  · exact if_neg hline
  · rfl

/-- **One cell.**  Its text is read up to its end, and the cell is what was collected. -/
theorem scan_cell {m : Mode} (hm : m.AtCell) (b : Bool) (fields : List Cell)
    (h : EncodesCell d cell text) (hfits : d.Fits cell) : ∃ mode, m.AfterCell text mode ∧
      ∀ rest, scan d b ⟨m, fields, []⟩ (text ++ rest) =
        scan d (b && text.isEmpty) ⟨mode, fields, cell⟩ rest := by
  obtain ⟨hlen, hnul⟩ := hfits
  cases h with
  -- a bare cell has no delimiter, no line break, and no quote in front
  | bare hcell hhead =>
      cases cell with
      | nil => exact ⟨m, Or.inl ⟨rfl, rfl⟩, fun rest => by simp⟩
      | cons c cell =>
          obtain ⟨⟨hdelim, hline⟩, hrest⟩ := List.forall_mem_cons.mp hcell
          have hquote : c ≠ d.quote := fun h => hhead (congrArg some h)
          have hc : c ≠ '\x00' := fun h => hnul (h ▸ List.mem_cons_self)
          have hlf : c ≠ '\n' := fun h => hline (by simp [isNewline, h])
          rw [List.length_cons] at hlen
          have hstep : readChar d ⟨m, fields, []⟩ c = .ok ⟨.inField, fields, [c]⟩ := by
            rw [readChar_of_ne hc, processChar_atCell hm hline, startCell, if_neg hline,
              if_neg hquote, if_neg hdelim]
            apply addChar_of_lt
            show 0 < d.limit
            omega
          refine ⟨.inField, Or.inr ⟨List.cons_ne_nil _ _, Or.inl rfl⟩, fun rest => ?_⟩
          rw [List.cons_append, scan_of_step b hlf hstep,
            scan_inField false [c] hrest (fun h => hnul (List.mem_cons_of_mem _ h))
              (by rw [List.length_singleton]; omega)]
          simp
  -- a quoted cell ends in the quote that closes it
  | quoted =>
      have hline : ¬ isNewline d.quote := by
        simp [isNewline, d.quote_ne_newline.1, d.quote_ne_newline.2]
      have hstep : readChar d ⟨m, fields, []⟩ d.quote = .ok ⟨.inQuotedField, fields, []⟩ := by
        rw [readChar_of_ne d.ne_nul.2, processChar_atCell hm hline, startCell, if_neg hline,
          if_pos rfl]
      refine ⟨.quoteInQuotedField, Or.inr ⟨List.cons_ne_nil _ _, Or.inr rfl⟩, fun rest => ?_⟩
      rw [List.cons_append, scan_of_step b d.quote_ne_newline.1 hstep, List.append_assoc,
        List.singleton_append, scan_inQuotedField false [] hnul (by simpa using hlen)]
      simp

-- ============================================================================
-- Reading a record
-- ============================================================================

/-- The mode after the text of a record that was read from mode `m`. -/
def Mode.AfterCells (m : Mode) (text : Cell) (mode : Mode) : Prop :=
  m.AfterCell text mode ∨ (text ≠ [] ∧ mode = .startField)

theorem readChar_delimiter {m : Mode} (hm : m.AtCell) (h : m.AfterCell text mode) :
    readChar d ⟨mode, fields, cell⟩ d.delimiter = .ok ⟨.startField, fields ++ [cell], []⟩ := by
  have hline : ¬ isNewline d.delimiter := by
    simp [isNewline, d.delimiter_ne_newline.1, d.delimiter_ne_newline.2]
  have hne := d.delimiter_ne_quote
  rw [readChar_of_ne d.ne_nul.1]
  rcases h with ⟨_, rfl⟩ | ⟨_, rfl | rfl⟩
  · rcases hm with rfl | rfl
    · simp [processChar, startCell, hline, hne, Reader.save]
    · simp [processChar, startCell, hline, hne, Reader.save]
  · simp [processChar, hline, Reader.save]
  · simp [processChar, hne, Reader.save]

/-- **One record.**  Its text is read up to its end; all cells but the last are saved. -/
theorem scan_cells {m : Mode} (hm : m.AtCell) (b : Bool) (fields : List Cell)
    (h : EncodesCells d row text) (hfits : ∀ cell ∈ row, d.Fits cell) :
    ∃ mode front last, m.AfterCells text mode ∧
      row = front ++ [last] ∧ ∀ rest, scan d b ⟨m, fields, []⟩ (text ++ rest) =
        scan d (b && text.isEmpty) ⟨mode, fields ++ front, last⟩ rest := by
  induction h generalizing m b fields with
  | @last cell text h =>
      obtain ⟨mode, hmode, hscan⟩ := scan_cell hm b fields h (hfits cell List.mem_cons_self)
      refine ⟨mode, [], cell, Or.inl hmode, rfl, ?_⟩
      rw [List.append_nil]
      exact hscan
  | @cons cell text cells tail h _ ih =>
      obtain ⟨hcell, hcells⟩ := List.forall_mem_cons.mp hfits
      obtain ⟨mode, hmode, hscan⟩ := scan_cell hm b fields h hcell
      obtain ⟨mode', front, last, hmode', rfl, hscan'⟩ :=
        ih (Or.inr rfl) false (fields ++ [cell]) hcells
      -- the delimiter takes the machine from one cell to the next
      have hne : text ++ d.delimiter :: tail ≠ [] :=
        List.append_ne_nil_of_right_ne_nil _ (List.cons_ne_nil _ _)
      refine ⟨mode', cell :: front, last, ?_, rfl, fun rest => ?_⟩
      · rcases hmode' with (⟨_, rfl⟩ | ⟨_, hmode'⟩) | ⟨_, rfl⟩
        · exact Or.inr ⟨hne, rfl⟩
        · exact Or.inl (Or.inr ⟨hne, hmode'⟩)
        · exact Or.inr ⟨hne, rfl⟩
      · rw [List.append_assoc, List.cons_append, hscan,
          scan_of_step _ d.delimiter_ne_newline.1 (readChar_delimiter hm hmode), hscan',
          List.isEmpty_eq_false_iff.mpr hne]
        simp

/-- The mode after a record that is not blank. -/
theorem Mode.AfterCells.modes {m : Mode} (h : m.AfterCells text mode) (htext : text ≠ []) :
    mode = .startField ∨ mode = .inField ∨ mode = .quoteInQuotedField := by
  rcases h with (⟨hnil, _⟩ | ⟨_, h⟩) | ⟨_, h⟩
  · exact absurd hnil htext
  · exact Or.inr h
  · exact Or.inl h

/-- A line feed after a record saves its last cell and ends the record. -/
theorem scan_lineFeed (b : Bool)
    (h : mode = .startField ∨ mode = .inField ∨ mode = .quoteInQuotedField) :
    scan d b ⟨mode, fields, cell⟩ ('\n' :: rest) =
      .cons (fields ++ [cell]) (scan d true .init rest) := by
  have hdelim := d.delimiter_ne_newline.1
  have hquote := d.quote_ne_newline.1
  have hread : readChar d ⟨mode, fields, cell⟩ '\n' = .ok ⟨.eatCrnl, fields ++ [cell], []⟩ := by
    rw [readChar_of_ne (by decide)]
    rcases h with rfl | rfl | rfl
    · simp [processChar, startCell, isNewline, Reader.save]
    · simp [processChar, isNewline, Reader.save]
    · simp [processChar, isNewline, Reader.save, Ne.symm hdelim, Ne.symm hquote]
  rw [scan_cons, hread]
  rfl

/-- The end of the text after a record saves its last cell. -/
theorem scan_end (h : mode = .startField ∨ mode = .inField ∨ mode = .quoteInQuotedField) :
    scan d false ⟨mode, fields, cell⟩ [] = ⟨[fields ++ [cell]], none⟩ := by
  rcases h with rfl | rfl | rfl
  · rfl
  · rfl
  · rfl

/-- A record and its line feed are read as its row. -/
theorem scan_row (h : EncodesRow d row text) (hfits : ∀ cell ∈ row, d.Fits cell) :
    scan d true .init (text ++ '\n' :: rest) = .cons row (scan d true .init rest) := by
  cases h with
  | blank => rfl
  | cells h htext =>
      obtain ⟨mode, front, last, hmode, rfl, hscan⟩ :=
        scan_cells (Or.inl rfl) true [] h hfits
      have hrow := hscan ('\n' :: rest)
      rw [scan_lineFeed _ (hmode.modes htext)] at hrow
      exact hrow

-- ============================================================================
-- Reading a text
-- ============================================================================

theorem scan_lines (h : EncodesLines d rows text) (hfits : ∀ row ∈ rows, ∀ cell ∈ row, d.Fits cell)
    (rest : Cell) :
    scan d true .init (text ++ rest) = .append rows (scan d true .init rest) := by
  induction h with
  | nil => rfl
  | @cons row text rows tail hrow _ ih =>
      obtain ⟨hfirst, hothers⟩ := List.forall_mem_cons.mp hfits
      rw [List.append_assoc, List.cons_append, scan_row hrow hfirst, ih hothers]
      rfl

/-- **Reading goes on behind what was read**: a text whose records end with line feeds is read as
    the rows it encodes, whatever follows it. -/
theorem readAll_append (h : EncodesLines d rows text)
    (hfits : ∀ row ∈ rows, ∀ cell ∈ row, d.Fits cell) (rest : Cell) :
    readAll d (text ++ rest) = .append rows (readAll d rest) := by
  rw [readAll_eq, readAll_eq, scan_lines h hfits]

/-- **Round trip.**  A text is read as the rows it encodes, whichever cells are in quotes. -/
theorem readAll_of_encodes (h : Encodes d rows text)
    (hfits : ∀ row ∈ rows, ∀ cell ∈ row, d.Fits cell) : readAll d text = ⟨rows, none⟩ := by
  cases h with
  | closed h =>
      have hread := readAll_append h hfits []
      rw [List.append_nil] at hread
      rw [hread]
      show Reading.mk (rows ++ []) none = _
      rw [List.append_nil]
  | @«open» rows text row rest h hrow hrest =>
      obtain ⟨hrows, hlast⟩ := List.forall_mem_append.mp hfits
      obtain ⟨mode, front, last, hmode, rfl, hscan⟩ := scan_cells (Or.inl rfl) true []
        hrow (hlast row (List.mem_singleton_self row))
      have hend := hscan []
      have hempty : rest.isEmpty = false := by simpa using hrest
      rw [List.append_nil, hempty, Bool.and_false, scan_end (hmode.modes hrest)] at hend
      rw [readAll_append h hrows, readAll_eq, Reader.init, hend]
      rfl

theorem encodes_quoteRow (row : List Cell) : EncodesRow d row (quoteRow d row) := by
  cases row with
  | nil => exact .blank
  | cons cell row =>
      refine .cells ?_ ?_
      · induction row generalizing cell with
        | nil => exact .last (.quoted cell)
        | cons cell' row ih => exact .cons (.quoted cell) (ih cell')
      · cases row with
        | nil => exact List.cons_ne_nil _ _
        | cons cell' row => exact List.cons_ne_nil _ _

/-- Every table has a text that says it. -/
theorem encodes_quoteAll (rows : List (List Cell)) : Encodes d rows (quoteAll d rows) := by
  apply Encodes.closed
  induction rows with
  | nil => exact .nil
  | cons row rows ih =>
      have hcons : quoteAll d (row :: rows) = quoteRow d row ++ '\n' :: quoteAll d rows := by
        rw [quoteAll, List.flatMap_cons, List.append_assoc]
        rfl
      rw [hcons]
      exact .cons (encodes_quoteRow row) ih

end MLocust.Lib.Csv
