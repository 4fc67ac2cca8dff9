import ClickFs.Lib.Str

/-!
# `driver.rs` — the SQL texts

The queries the file system sends, as texts, put together the way `format!` puts them
together: no piece is parsed, and a value gets into a query through `quote_string` or
`quote_ident` and in no other way, but for two. The `ORDER BY` of the tail query is the
table's key as the server reported it, and the limit is a number.

What a server makes of a text is not part of the program: where a result needs it, it is a
hypothesis about the answers. What any lexer of SQL makes of it can be said, and is, in
`Driver/Templates.lean`.
-/

set_option autoImplicit false

namespace ClickFs
namespace Driver

open Rust

/-- Tail-mode config: how `tail -n N all.tsv` is synthesized. The number of rows is the mount's
    choice; the kernel does not say how many lines `tail` wants. -/
structure TailConfig where
  enabled : Bool
  rows : UInt32
deriving DecidableEq, Repr

def TailConfig.default : TailConfig := { enabled := true, rows := 10000 }

/-- `s.replace(c, by)` for one character -/
def replaceChar (c : Char) (new : String) (s : String) : String :=
  String.ofList (s.toList.flatMap fun x => if x = c then new.toList else [x])

/-- Quote a ClickHouse identifier with backticks. -/
def quoteIdent (s : String) : String := "`" ++ replaceChar (Char.ofNat 96) "``" s ++ "`"

/-- Quote a string literal (single quotes, escape backslash and quote). -/
def quoteString (s : String) : String :=
  "'" ++ replaceChar '\'' "\\'" (replaceChar '\\' "\\\\" s) ++ "'"

/-! ## SQL builders -/

def sqlListDatabases : String :=
  "SELECT name FROM system.databases "
    ++ "WHERE name NOT IN ('system','INFORMATION_SCHEMA','information_schema') "
    ++ "ORDER BY name FORMAT TabSeparated"

def sqlListTables (db : String) : String :=
  "SELECT name FROM system.tables WHERE database = " ++ quoteString db
    ++ " ORDER BY name FORMAT TabSeparated"

def sqlListPartitions (db tbl : String) : String :=
  "SELECT DISTINCT partition_id FROM system.parts WHERE database = " ++ quoteString db
    ++ " AND table = " ++ quoteString tbl
    ++ " AND active ORDER BY partition_id FORMAT TabSeparated"

def sqlDescribe (db tbl : String) : String :=
  "SHOW CREATE TABLE " ++ quoteIdent db ++ "." ++ quoteIdent tbl ++ " FORMAT TSVRaw"

def sqlStreamAll (db tbl : String) : String :=
  "SELECT * FROM " ++ quoteIdent db ++ "." ++ quoteIdent tbl ++ " FORMAT TabSeparatedWithNames"

def sqlStreamPartition (db tbl part : String) : String :=
  "SELECT * FROM " ++ quoteIdent db ++ "." ++ quoteIdent tbl ++ " WHERE _partition_id = "
    ++ quoteString part ++ " FORMAT TabSeparatedWithNames"

/-- Aggregate stats from system.parts (active parts only). -/
def sqlStats (db tbl : String) : String :=
  "SELECT sum(rows) AS rows, sum(bytes_on_disk) AS bytes_on_disk, "
    ++ "count() AS parts, uniqExact(partition) AS partitions, min(min_time) AS min_time, "
    ++ "max(max_time) AS max_time FROM system.parts WHERE database = " ++ quoteString db
    ++ " AND table = " ++ quoteString tbl
    ++ " AND active FORMAT JSONEachRow"

/-- primary_key + sorting_key for a table. Either may be empty, and a table with neither is read
    in the order of `tuple()`. -/
def sqlTablePk (db tbl : String) : String :=
  "SELECT primary_key, sorting_key FROM system.tables WHERE database = " ++ quoteString db
    ++ " AND name = " ++ quoteString tbl ++ " FORMAT JSONEachRow"

/-- `s.split(',')` -/
def splitCommas (s : String) : List String := (s.toList.splitOn ',').map String.ofList

/-- The `ORDER BY` of the tail query, from a comma-separated column list or the literal `tuple()`.
    For multi-column keys DESC goes to every column, not just the trailing one, since one DESC
    alone would reverse the last column only. -/
def orderClause (orderExpr : String) : String :=
  let trimmed := trim orderExpr
  if trimmed.isEmpty || trimmed == "tuple()" then trimmed ++ " DESC"
  else ", ".intercalate ((splitCommas trimmed).map fun c => trim c ++ " DESC")

/-- `SELECT *` ordered DESC by `orderExpr`, limited to N rows, of one partition if there is
    one. -/
def sqlSelectTail (db tbl orderExpr : String) (part : Option String) (limit : UInt32) : String :=
  let whereClause :=
    match part with
    | some part => " WHERE _partition_id = " ++ quoteString part
    | none => ""
  "SELECT * FROM " ++ quoteIdent db ++ "." ++ quoteIdent tbl ++ whereClause ++ " ORDER BY "
    ++ orderClause orderExpr ++ " LIMIT " ++ toString limit ++ " FORMAT TabSeparatedWithNames"

/-- Column metadata: name + type + comment. -/
def sqlColumns (db tbl : String) : String :=
  "SELECT name, type, comment FROM system.columns WHERE database = " ++ quoteString db
    ++ " AND table = " ++ quoteString tbl ++ " ORDER BY position FORMAT JSONEachRow"

end Driver
end ClickFs
