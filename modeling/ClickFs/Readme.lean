import ClickFs.Fs
import ClickFs.Lib.Parse

/-!
# `readme.rs` — the README of a table

The file is put together from the answers to five queries, each of which may have failed.
`render` appends to one text; here a function that appends to it is the text it appends,
so the sections can be spoken of by themselves.

`serde_json` and the formats that need floating-point numbers are outside (`Formats`).
Nothing is assumed of them in general: a result that needs to know what a line of JSON is
read as says so of that line.
-/

set_option autoImplicit false

namespace ClickFs
namespace Readme

open Rust Driver

structure Formats where
  /-- `serde_json::from_str`, then `get` -/
  fromStr : String → Option (String → Option Json)
  /-- `{:.2} {}` of a byte count from 1024 on, with its unit -/
  scaled : UInt64 → String
  /-- `{:.1}` of a quotient -/
  quotient : UInt64 → UInt64 → String

/-- Numbers can come back as integers or as quoted strings. Accept both. -/
def jsonToU64 : Json → Option UInt64
  | .number n => some n
  | .string s => parseU64 s
  | .other => none

/-- Pretty-print a byte count. -/
def humanBytes (f : Formats) (n : UInt64) : String :=
  if n < 1024 then toString n ++ " B" else f.scaled n

def rowsLine (countStr : String) : String := "- **rows**: " ++ countStr ++ "\n"

/-- `if let Some(x) = o` around the text that is appended -/
def ifSome {α : Type} (o : Option α) (text : α → String) : String := (o.map text).getD ""

/-- The numbers that are there, each on its line. -/
def numberLines (f : Formats) (v : String → Option Json) : String :=
  let rows := (v "rows").bind jsonToU64
  let bytes := (v "bytes_on_disk").bind jsonToU64
  let parts := (v "parts").bind jsonToU64
  let partsCount := (v "partitions").bind jsonToU64
  ifSome bytes (fun b => "- **size on disk**: " ++ humanBytes f b ++ " (" ++ toString b ++ ")\n")
    ++ ifSome parts (fun p => "- **active parts**: " ++ toString p ++ "\n")
    ++ ifSome partsCount (fun p => "- **partitions**: " ++ toString p ++ "\n")
    ++ ifSome rows (fun rows => ifSome bytes fun bytes =>
      if 0 < rows then "- **avg bytes/row**: " ++ f.quotient bytes rows ++ "\n" else "")

/-- Render the Stats section. `statsJson` is a single JSONEachRow line, `countStr` is the trimmed
    COUNT() value. If empty (no parts) or malformed, fall back to count-only. -/
def renderStats (f : Formats) (statsJson countStr : String) : String :=
  let trimmed := trim statsJson
  if trimmed.isEmpty then
    rowsLine countStr ++ "- **size on disk**: 0 (no active parts)\n"
  else
    match f.fromStr trimmed with
    | none => rowsLine countStr
    | some v => rowsLine countStr ++ numberLines f v

/-- `v.get(key).and_then(|x| x.as_str()).unwrap_or("")` -/
def field (v : String → Option Json) (key : String) : String := ((v key).bind Json.asStr).getD ""

/-- Escape pipes so they don't break the table. Only the pipe: a backslash that is there already
    stays as it is. -/
def escapePipes (s : String) : String := replaceChar '|' "\\|" s

/-- The line of a column. -/
def columnRow (name ty comment : String) : String :=
  "| `" ++ escapePipes name ++ "` | `" ++ escapePipes ty ++ "` | "
    ++ replaceChar '\n' " " (escapePipes comment) ++ " |"

/-- What one line of the answer comes to: a row of the table, or nothing where it is empty or no
    JSON. -/
def columnLine (f : Formats) (line : String) : Option String :=
  let line := trim line
  if line.isEmpty then none
  else
    (f.fromStr line).map fun v => columnRow (field v "name") (field v "type") (field v "comment")

def renderColumns (f : Formats) (jsonl : String) : String :=
  let rows := (lines jsonl).filterMap (columnLine f)
  "| Name | Type | Comment |\n" ++ "|---|---|---|\n" ++ body rows
    ++ if rows.isEmpty then "_(no columns)_\n" else ""

/-! ## The document -/

def sqlCount (db tbl : String) : String :=
  "SELECT count() FROM " ++ quoteIdent db ++ "." ++ quoteIdent tbl ++ " FORMAT TabSeparated"

def sqlSample (db tbl : String) : String :=
  "SELECT * FROM " ++ quoteIdent db ++ "." ++ quoteIdent tbl ++ " LIMIT 5 FORMAT JSONEachRow"

/-- The five answers. -/
structure Results where
  schema : Except QueryError String
  stats : Except QueryError String
  columns : Except QueryError String
  count : Except QueryError String
  sample : Except QueryError String

/-- `tokio::join!`: all five are asked at once, and none waits for what another brings. -/
def fetch (query : String → Except QueryError String) (db tbl : String) : Results :=
  { schema := query (sqlDescribe db tbl)
    stats := query (sqlStats db tbl)
    columns := query (sqlColumns db tbl)
    count := query (sqlCount db tbl)
    sample := query (sqlSample db tbl) }

def unavailable : String := "_(unavailable)_\n"

/-- The lines of the Stats section that are not the row count, when they are unavailable. -/
def unavailableStats : String :=
  "- **size on disk**: _(unavailable)_\n" ++ "- **parts**: _(unavailable)_\n"
    ++ "- **partitions**: _(unavailable)_\n"

def statsSection (f : Formats) (stats count : Except QueryError String) : String :=
  match stats, count with
  | .ok s, .ok c => renderStats f s (trim c)
  | _, .ok c =>
    -- Stats from system.parts unavailable but we still have row count.
    rowsLine (trim c) ++ unavailableStats
  | _, _ => unavailable

def schemaSection (schema : Except QueryError String) : String :=
  match schema with
  | .ok s => "```sql\n" ++ trimEnd s ++ "\n```\n"
  | .error _ => unavailable

def columnsSection (f : Formats) (columns : Except QueryError String) : String :=
  match columns with
  | .ok c => renderColumns f c
  | .error _ => unavailable

def sampleSection (sample : Except QueryError String) : String :=
  match sample with
  | .ok s => if (trim s).isEmpty then "_(empty)_\n" else "```jsonl\n" ++ trimEnd s ++ "\n```\n"
  | .error _ => unavailable

def exampleQueries (db tbl : String) : String :=
  "Sequential scan over the whole table:\n```bash\ncat /<mountpoint>/db/" ++ db ++ "/" ++ tbl
    ++ "/all.tsv | head -n 100\n```\n\nInspect a single partition:\n```bash\ncat /<mountpoint>/db/"
    ++ db ++ "/" ++ tbl ++ "/<partition_id>.tsv\n```\n\n"

def files : String :=
  "| File | Description |\n" ++ "|---|---|\n" ++ "| `.schema` | `SHOW CREATE TABLE` output |\n"
    ++ "| `README.md` | This file (regenerated on open) |\n"
    ++ "| `all.tsv` | Full table stream, TSV with header |\n"
    ++ "| `<partition>.tsv` | Single partition stream |\n"

/-- `render`, from the answers on -/
def render (f : Formats) (db tbl : String) (r : Results) : String :=
  "# `" ++ db ++ "`.`" ++ tbl ++ "`\n" ++ "\n"
    ++ "## Stats\n\n" ++ statsSection f r.stats r.count ++ "\n"
    ++ "## Schema\n\n" ++ schemaSection r.schema ++ "\n"
    ++ "## Columns\n\n" ++ columnsSection f r.columns ++ "\n"
    ++ "## Sample (5 rows)\n\n" ++ sampleSection r.sample ++ "\n"
    ++ "## Example queries\n\n" ++ exampleQueries db tbl ++ "\n"
    ++ "## Files\n\n" ++ files

end Readme
end ClickFs
