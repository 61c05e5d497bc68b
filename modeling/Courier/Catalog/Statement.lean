import Courier.Catalog.Store

/-!
Direct edits of the catalog's table, past the types of jobs.

A `Cell` is a value for a column; a column takes the cells that it can hold without loss.
`Statement.parse?` reads the statements that edit the table as a whole: insertions, updates,
deletions and dropping it.
-/

namespace Courier.Catalog

/-! ### Cells and columns -/

/-- A value for a column. -/
inductive Cell
  | null
  | whole (n : Int)
  | real (x : Binary64)
  | text (s : String)
deriving DecidableEq

/-- The columns of the table. -/
inductive Column
  | id
  | name
  | cron
  | payload
  | options
  | enabled
  | updatedAt
deriving DecidableEq

/-- The column of a name. -/
def Column.ofName? (n : String) : Option Column :=
  [("id", Column.id), ("name", .name), ("cron_expr", .cron), ("payload", .payload),
    ("options", .options), ("enabled", .enabled), ("updated_at", .updatedAt)].lookup n

/-- The cell that a JSON value spells; truth values are zero and one. -/
def Cell.ofValue : Json.Value → Cell
  | .number (.whole n) => whole n
  | .number (.real x) => real x
  | .string s => text s
  | .bool b => whole (if b then 1 else 0)
  | _ => null

/-- The cells that the members of an object spell, under the names of their columns. -/
def cellsOfValue : Json.Value → List (Column × Cell)
  | .object ms => ms.filterMap fun (k, v) => (Column.ofName? k).map fun c => (c, Cell.ofValue v)
  | _ => []

/-- The text that a cell is in a column of texts. -/
def Cell.text? : Cell → Option String
  | null => none
  | whole n => some (toString n)
  | real x => some x.text
  | text s => some s

/-- The whole number that a text spells, perhaps with a sign. -/
def wholeOfText? (s : String) : Option Int :=
  match s.toList with
  | '-' :: cs => (TaskOption.decimal? cs).map fun n => -(n : Int)
  | '+' :: cs => (TaskOption.decimal? cs).map fun n => (n : Int)
  | cs => (TaskOption.decimal? cs).map fun n => (n : Int)

/-- The whole number that a double is, if it is one. -/
def wholeOfReal? (x : Binary64) : Option Int :=
  let (num, den) := x.ratio
  if num % den = 0 then some (if x.negative then -(num / den : Nat) else (num / den : Nat))
  else none

/-- The number that a cell is in a column of numbers. -/
def Cell.whole? : Cell → Option Int
  | null => none
  | whole n => some n
  | real x => wholeOfReal? x
  | text s => wholeOfText? (Text.trim s)

/-- A row with a cell in one of its columns, if the column can hold it. -/
def Row.set? (r : Row) (column : Column) (cell : Cell) : Option Row :=
  match column with
  | .id => cell.text?.map fun s => { r with id := s }
  | .name => cell.text?.map fun s => { r with name := s }
  | .cron => cell.text?.map fun s => { r with cron := s }
  | .payload =>
    match cell with
    | .null => some { r with payload := none }
    | cell => cell.text?.map fun s => { r with payload := some s }
  | .options => cell.text?.map fun s => { r with options := s }
  | .enabled => cell.whole?.map fun n => { r with enabled := n }
  | .updatedAt => cell.text?.map fun s => { r with updatedAt := s }

/-- The row with the defaults of its columns. -/
def Row.blank : Row := ⟨"", "", "", none, "[]", 1, ""⟩

/-- The columns that have no default. -/
def requiredColumns : List Column := [.id, .name, .updatedAt]

/-- Adds a row with these cells; its id must be new. -/
def insertCells (c : Catalog) (cells : List (Column × Cell)) : Result Catalog :=
  let filled := requiredColumns.all fun k => cells.any fun p => p.1 = k
  match c.table, cells.foldlM (fun r p => Row.set? r p.1 p.2) Row.blank with
  | some rows, some r =>
    if filled ∧ (Table.find? r.id rows).isNone then .ok ⟨some (rows ++ [r])⟩
    else .error .database
  | _, _ => .error .database

/-! ### Statements -/

/-- A statement on the table. -/
inductive Statement
  | insert (cells : List (Column × Cell))
  | update (changes : List (Column × Cell)) (condition : Option (Column × Cell))
  | delete (condition : Option (Column × Cell))
  | drop

/-- A piece of a statement. -/
inductive Word
  | name (s : String)
  | quoted (s : String)
  | number (n : Int)
  | sign (c : Char)
deriving DecidableEq

/-- The text up to the closing quote, which two quotes do not close, and the rest. -/
def quotedText : List Char → List Char × List Char
  | '\'' :: '\'' :: cs => let (b, r) := quotedText cs; ('\'' :: b, r)
  | '\'' :: cs => ([], cs)
  | c :: cs => let (b, r) := quotedText cs; (c :: b, r)
  | [] => ([], [])

/-- The words of a statement, names in lower case. -/
def wordsOf : Nat → List Char → List Word
  | 0, _ => []
  | _, [] => []
  | n + 1, c :: cs =>
    if Text.isBlank c then wordsOf n cs
    else if c = '\'' then
      let (b, r) := quotedText cs
      .quoted (String.ofList b) :: wordsOf n r
    else if c.isDigit then
      let ds := (c :: cs).takeWhile Char.isDigit
      .number ((TaskOption.decimal? ds).getD 0) :: wordsOf n ((c :: cs).dropWhile Char.isDigit)
    else if c.isAlpha ∨ c = '_' then
      let isPart (c : Char) : Bool := c.isAlphanum || c = '_'
      .name (String.ofList (((c :: cs).takeWhile isPart).map Char.toLower)) ::
        wordsOf n ((c :: cs).dropWhile isPart)
    else .sign c :: wordsOf n cs

/-- A cell as written. -/
def readCell : List Word → Option (Cell × List Word)
  | .quoted s :: ws => some (.text s, ws)
  | .number n :: ws => some (.whole n, ws)
  | .sign '-' :: .number n :: ws => some (.whole (-n), ws)
  | .name "null" :: ws => some (.null, ws)
  | _ => none

/-- A column, an equals sign and a cell. -/
def readPair : List Word → Option ((Column × Cell) × List Word)
  | .name n :: .sign '=' :: ws => do
    let column ← Column.ofName? n
    let (cell, ws) ← readCell ws
    return ((column, cell), ws)
  | _ => none

/-- Pairs with commas between them. -/
def readPairs : Nat → List Word → Option (List (Column × Cell) × List Word)
  | 0, _ => none
  | n + 1, ws => do
    let (p, ws) ← readPair ws
    match ws with
    | .sign ',' :: ws => do
      let (ps, ws) ← readPairs n ws
      return (p :: ps, ws)
    | ws => return ([p], ws)

/-- The names of columns with commas between them, up to a closing parenthesis. -/
def readColumns : List Word → Option (List Column × List Word)
  | .name n :: .sign ',' :: ws => do
    let (columns, ws) ← readColumns ws
    return ((← Column.ofName? n) :: columns, ws)
  | .name n :: .sign ')' :: ws => do return ([← Column.ofName? n], ws)
  | _ => none

/-- Cells with commas between them, up to a closing parenthesis. -/
def readCells : Nat → List Word → Option (List Cell × List Word)
  | 0, _ => none
  | n + 1, ws => do
    let (cell, ws) ← readCell ws
    match ws with
    | .sign ',' :: ws => do
      let (cells, ws) ← readCells n ws
      return (cell :: cells, ws)
    | .sign ')' :: ws => return ([cell], ws)
    | _ => none

/-- A condition, or none, up to the end of the statement. -/
def readCondition : List Word → Option (Option (Column × Cell))
  | [] | [.sign ';'] => some none
  | .name "where" :: ws => do
    let (p, ws) ← readPair ws
    match ws with
    | [] | [.sign ';'] => return some p
    | _ => none
  | _ => none

/-- Reads a statement. -/
def Statement.parse? (s : String) : Option Statement :=
  let ws := wordsOf (s.length + 1) s.toList
  match ws with
  | .name "insert" :: .name "into" :: .name "jobs" :: .sign '(' :: ws => do
    let (columns, ws) ← readColumns ws
    match ws with
    | .name "values" :: .sign '(' :: ws => do
      let (cells, ws) ← readCells ws.length ws
      if columns.length = cells.length ∧ (ws = [] ∨ ws = [.sign ';']) then
        return .insert (columns.zip cells)
      else none
    | _ => none
  | .name "update" :: .name "jobs" :: .name "set" :: ws => do
    let (ps, ws) ← readPairs ws.length ws
    return .update ps (← readCondition ws)
  | .name "delete" :: .name "from" :: .name "jobs" :: ws => do return .delete (← readCondition ws)
  | [.name "drop", .name "table", .name "jobs"]
  | [.name "drop", .name "table", .name "jobs", .sign ';'] => some .drop
  | _ => none

/-- Whether a row has a cell in a column. -/
def Row.satisfies (r : Row) : Option (Column × Cell) → Bool
  | none => true
  | some (_, .null) => false
  | some (column, cell) => r.set? column cell = some r

/-- Carries a statement out. -/
def Statement.run (c : Catalog) (s : Statement) : Result Catalog :=
  match c.table with
  | none => .error .database
  | some rows =>
    match s with
    | .insert cells => c.insertCells cells
    | .drop => .ok c.dropped
    | .delete condition => .ok ⟨some (rows.filter fun r => !r.satisfies condition)⟩
    | .update changes condition =>
      let changed := rows.mapM fun r =>
        if r.satisfies condition then changes.foldlM (fun r p => Row.set? r p.1 p.2) r else some r
      match changed with
      | some rows =>
        if (rows.map Row.id).Nodup then .ok ⟨some rows⟩ else .error .database
      | none => .error .database

end Courier.Catalog
