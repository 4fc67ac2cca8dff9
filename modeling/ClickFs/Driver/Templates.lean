import ClickFs.Driver.Quote
import ClickFs.Resolver

/-!
# The queries as templates

Each SQL builder is a fixed text with holes for a database, a table or a partition. A
`Builder` says so and carries the proof, so what is known of templates is known of the
builders: the query that is built from a path lexes to the template's own tokens and to one
token for each component, and says which path it was built from. A new builder needs a
template and two evaluations, and no new proof about quoting.

What makes it so is split between two places. `quote_string` is safe for every value;
`quote_ident` is safe for what the resolver lets through, which has no backslash. The two
modules never mention each other, and neither could be changed alone: a resolver that let
backslashes through would open the identifiers, and nothing in the driver would notice.
-/

set_option autoImplicit false

namespace ClickFs
namespace Driver

open Sql

/-- What a path can put into a query. -/
inductive Field
  | database | table | partition
deriving DecidableEq, Repr

def quoteAs : Quote → String → String
  | .str => quoteString
  | .ident => quoteIdent

structure Builder where
  build : (Field → String) → String
  template : Template Field
  render : ∀ value, build value = template.render quoteAs value
  wellFormed : template.wellFormed = true

namespace Builder

def listTables : Builder where
  build value := sqlListTables (value .database)
  template := [.text "SELECT name FROM system.tables WHERE database = ", .hole .str .database,
    .text " ORDER BY name FORMAT TabSeparated"]
  render value := by
    dsimp only [sqlListTables, Template.render, quoteAs]
    simp only [String.append_assoc, String.append_empty]
  wellFormed := by decide +kernel

def listPartitions : Builder where
  build value := sqlListPartitions (value .database) (value .table)
  template := [.text "SELECT DISTINCT partition_id FROM system.parts WHERE database = ",
    .hole .str .database, .text " AND table = ", .hole .str .table,
    .text " AND active ORDER BY partition_id FORMAT TabSeparated"]
  render value := by
    dsimp only [sqlListPartitions, Template.render, quoteAs]
    simp only [String.append_assoc, String.append_empty]
  wellFormed := by decide +kernel

def describe : Builder where
  build value := sqlDescribe (value .database) (value .table)
  template := [.text "SHOW CREATE TABLE ", .hole .ident .database, .text ".", .hole .ident .table,
    .text " FORMAT TSVRaw"]
  render value := by
    dsimp only [sqlDescribe, Template.render, quoteAs]
    simp only [String.append_assoc, String.append_empty]
  wellFormed := by decide +kernel

def streamAll : Builder where
  build value := sqlStreamAll (value .database) (value .table)
  template := [.text "SELECT * FROM ", .hole .ident .database, .text ".", .hole .ident .table,
    .text " FORMAT TabSeparatedWithNames"]
  render value := by
    dsimp only [sqlStreamAll, Template.render, quoteAs]
    simp only [String.append_assoc, String.append_empty]
  wellFormed := by decide +kernel

def streamPartition : Builder where
  build value := sqlStreamPartition (value .database) (value .table) (value .partition)
  template := [.text "SELECT * FROM ", .hole .ident .database, .text ".", .hole .ident .table,
    .text " WHERE _partition_id = ", .hole .str .partition, .text " FORMAT TabSeparatedWithNames"]
  render value := by
    dsimp only [sqlStreamPartition, Template.render, quoteAs]
    simp only [String.append_assoc, String.append_empty]
  wellFormed := by decide +kernel

def stats : Builder where
  build value := sqlStats (value .database) (value .table)
  template := [.text ("SELECT sum(rows) AS rows, sum(bytes_on_disk) AS bytes_on_disk, "
      ++ ("count() AS parts, uniqExact(partition) AS partitions, min(min_time) AS min_time, "
      ++ "max(max_time) AS max_time FROM system.parts WHERE database = ")),
    .hole .str .database, .text " AND table = ", .hole .str .table,
    .text " AND active FORMAT JSONEachRow"]
  render value := by
    dsimp only [sqlStats, Template.render, quoteAs]
    simp only [String.append_assoc, String.append_empty]
  wellFormed := by decide +kernel

def tablePk : Builder where
  build value := sqlTablePk (value .database) (value .table)
  template := [.text "SELECT primary_key, sorting_key FROM system.tables WHERE database = ",
    .hole .str .database, .text " AND name = ", .hole .str .table, .text " FORMAT JSONEachRow"]
  render value := by
    dsimp only [sqlTablePk, Template.render, quoteAs]
    simp only [String.append_assoc, String.append_empty]
  wellFormed := by decide +kernel

def columns : Builder where
  build value := sqlColumns (value .database) (value .table)
  template := [.text "SELECT name, type, comment FROM system.columns WHERE database = ",
    .hole .str .database, .text " AND table = ", .hole .str .table,
    .text " ORDER BY position FORMAT JSONEachRow"]
  render value := by
    dsimp only [sqlColumns, Template.render, quoteAs]
    simp only [String.append_assoc, String.append_empty]
  wellFormed := by decide +kernel

/-- A query lexes to its template's tokens when no identifier in it has a backslash. A builder
    that quotes all its values as strings has nothing to check. -/
theorem lex_build (b : Builder) {value : Field → String}
    (h : ∀ name, .hole .ident name ∈ b.template → '\\' ∉ (value name).toList) :
    lex (b.build value) = some (b.template.slots.map (Slot.fill value)) := by
  rw [b.render]
  refine Template.lex_render b.template b.wellFormed fun q name hmem => ?_
  cases q with
  | str => exact quotes_quoteString (value name)
  | ident => exact quotes_quoteIdent (h name hmem)

end Builder

/-- The builders that take their values from a path. The tail query is not one of them, for its
    key is no component; see `Driver/Http.lean`. -/
def builders : List Builder :=
  [.listTables, .listPartitions, .describe, .streamAll, .streamPartition, .stats, .tablePk, .columns]

/-! ## From the path to the query -/

/-- What the plan gives the builders, field by field. A plan without a table gives none. -/
def fieldOf (plan : QueryPlan) : Field → Option String
  | .database => plan.db
  | .table => plan.table
  | .partition =>
    match plan.kind with
    | .streamPartition part => some part
    | _ => none

/-- Where a field stands in the path, and as what: the partition is the last component without its
    ending. -/
def Field.At (comps : List Component) (value : String) : Field → Prop
  | .database => comps[1]? = some (.normal value)
  | .table => comps[2]? = some (.normal value)
  | .partition => comps[3]? = some (.normal (value ++ ".tsv"))

/-- The query of a data file: of a whole table, or of one partition. The other files are rendered
    from several queries or from another kind of query. -/
def dataQuery : QueryPlan → Option String
  | ⟨.streamAll, some db, some tbl⟩ => some (sqlStreamAll db tbl)
  | ⟨.streamPartition part, some db, some tbl⟩ => some (sqlStreamPartition db tbl part)
  | _ => none

theorem fieldOf_at {comps : List Component} {plan : QueryPlan} (h : Resolved comps plan)
    {name : Field} {value : String} (hfield : fieldOf plan name = some value) :
    name.At comps value ∧ validIdentifier value = true := by
  cases h with
  | root => cases name <;> cases hfield
  | dbNamespace => cases name <;> cases hfield
  | listTables hdb =>
    cases name <;> cases hfield
    exact ⟨rfl, validIdentifier_of_validDbOrTable hdb⟩
  | listPartitions hdb htbl =>
    cases name <;> cases hfield
    · exact ⟨rfl, validIdentifier_of_validDbOrTable hdb⟩
    · exact ⟨rfl, validIdentifier_of_validDbOrTable htbl⟩
  | leaf hdb htbl hleaf =>
    cases name with
    | database =>
      cases hfield
      exact ⟨rfl, validIdentifier_of_validDbOrTable hdb⟩
    | table =>
      cases hfield
      exact ⟨rfl, validIdentifier_of_validDbOrTable htbl⟩
    | partition =>
      cases hleaf with
      | schema => cases hfield
      | readme => cases hfield
      | all => cases hfield
      | partition hvalid _ =>
        cases hfield
        exact ⟨rfl, hvalid⟩

theorem noBackslash_of_validIdentifier {s : String} (h : validIdentifier s = true) :
    '\\' ∉ s.toList := by
  simp only [validIdentifier, Bool.and_eq_true, List.all_eq_true] at h
  intro hslash
  have hchar := h.2 _ hslash
  revert hchar
  decide

/-- The query of an accepted path lexes to the template's tokens, its own values in the holes. The
    resolver's part is that no component has a backslash. -/
theorem lex_of_resolved {comps : List Component} {plan : QueryPlan} (h : Resolved comps plan)
    (b : Builder) {value : Field → String}
    (hvalue : ∀ q name, .hole q name ∈ b.template → fieldOf plan name = some (value name)) :
    lex (b.build value) = some (b.template.slots.map (Slot.fill value)) := by
  refine b.lex_build fun name hmem => ?_
  exact noBackslash_of_validIdentifier (fieldOf_at h (hvalue _ name hmem)).2

/-! ## The query says which path it is for -/

/-- The tokens of a data file's query. -/
def dataTokens (plan : QueryPlan) (db tbl : String) : List Token :=
  [.word "SELECT", .sym '*', .word "FROM", .quoted .ident db, .sym '.', .quoted .ident tbl]
    ++ (match plan.kind with
      | .streamPartition part => [.word "WHERE", .word "_partition_id", .sym '=', .quoted .str part]
      | _ => [])
    ++ [.word "FORMAT", .word "TabSeparatedWithNames"]

theorem streamAll_slots : Builder.streamAll.template.slots =
    [.token (.word "SELECT"), .token (.sym '*'), .token (.word "FROM"), .hole .ident .database,
      .token (.sym '.'), .hole .ident .table, .token (.word "FORMAT"),
      .token (.word "TabSeparatedWithNames")] := by
  decide +kernel

theorem streamPartition_slots : Builder.streamPartition.template.slots =
    [.token (.word "SELECT"), .token (.sym '*'), .token (.word "FROM"), .hole .ident .database,
      .token (.sym '.'), .hole .ident .table, .token (.word "WHERE"), .token (.word "_partition_id"),
      .token (.sym '='), .hole .str .partition, .token (.word "FORMAT"),
      .token (.word "TabSeparatedWithNames")] := by
  decide +kernel

theorem lex_dataQuery {comps : List Component} {plan : QueryPlan} (h : Resolved comps plan)
    {sql : String} (hsql : dataQuery plan = some sql) :
    ∃ db tbl, plan.db = some db ∧ plan.table = some tbl ∧
      (plan.kind = .streamAll ∨ ∃ part, plan.kind = .streamPartition part) ∧
      lex sql = some (dataTokens plan db tbl) := by
  unfold dataQuery at hsql
  split at hsql
  · rename_i db tbl
    cases hsql
    let value : Field → String := fun | .database => db | .table => tbl | .partition => ""
    have hvalue : ∀ q name, .hole q name ∈ Builder.streamAll.template →
        fieldOf ⟨.streamAll, some db, some tbl⟩ name = some (value name) := by
      intro q name hmem
      simp [Builder.streamAll] at hmem
      rcases hmem with ⟨-, rfl⟩ | ⟨-, rfl⟩ <;> rfl
    have hlex := lex_of_resolved h .streamAll hvalue
    rw [streamAll_slots] at hlex
    exact ⟨db, tbl, rfl, rfl, .inl rfl, hlex⟩
  · rename_i part db tbl
    cases hsql
    let value : Field → String := fun | .database => db | .table => tbl | .partition => part
    have hvalue : ∀ q name, .hole q name ∈ Builder.streamPartition.template →
        fieldOf ⟨.streamPartition part, some db, some tbl⟩ name = some (value name) := by
      intro q name hmem
      simp [Builder.streamPartition] at hmem
      rcases hmem with ⟨-, rfl⟩ | ⟨-, rfl⟩ | ⟨-, rfl⟩ <;> rfl
    have hlex := lex_of_resolved h .streamPartition hvalue
    rw [streamPartition_slots] at hlex
    exact ⟨db, tbl, rfl, rfl, .inr ⟨part, rfl⟩, hlex⟩
  · cases hsql

/-- Two data files with the same query have the same plan. Equal texts have equal tokens, and the
    tokens hold the components. -/
theorem dataQuery_inj {comps comps' : List Component} {plan plan' : QueryPlan}
    (h : Resolved comps plan) (h' : Resolved comps' plan') {sql : String}
    (hsql : dataQuery plan = some sql) (hsql' : dataQuery plan' = some sql) : plan = plan' := by
  obtain ⟨db, tbl, hdb, htbl, hkind, hlex⟩ := lex_dataQuery h hsql
  obtain ⟨db', tbl', hdb', htbl', hkind', hlex'⟩ := lex_dataQuery h' hsql'
  -- one query, one list of tokens, and the values are in it
  have heq : dataTokens plan db tbl = dataTokens plan' db' tbl' :=
    Option.some.inj (hlex.symm.trans hlex')
  obtain ⟨kind, _, _⟩ := plan
  obtain ⟨kind', _, _⟩ := plan'
  obtain rfl : _ = some db := hdb
  obtain rfl : _ = some tbl := htbl
  obtain rfl : _ = some db' := hdb'
  obtain rfl : _ = some tbl' := htbl'
  rcases hkind with rfl | ⟨part, rfl⟩ <;> rcases hkind' with rfl | ⟨part', rfl⟩ <;>
    simp [dataTokens] at heq
  · obtain ⟨rfl, rfl⟩ := heq
    rfl
  · obtain ⟨rfl, rfl, rfl⟩ := heq
    rfl

/-- **From the path to the query.** For every accepted path: each builder, given the
    plan's values, writes a query that lexes to the template's own tokens with one quoted
    token for each hole, which decodes to the value; the value is the path's component; and
    the query of a data file is that of no other plan. -/
theorem path_to_query {path : PathBuf} {plan : QueryPlan} (h : resolve path = .ok plan) :
    (∀ b ∈ builders, ∀ value : Field → String,
      (∀ q name, .hole q name ∈ b.template → fieldOf plan name = some (value name)) →
      lex (b.build value) = some (b.template.slots.map (Slot.fill value))) ∧
    (∀ name value, fieldOf plan name = some value → name.At path.comps value) ∧
    ∀ path' plan' sql, resolve path' = .ok plan' → dataQuery plan = some sql →
      dataQuery plan' = some sql → plan = plan' := by
  have hres := resolve_ok.mp h
  refine ⟨?_, ?_, ?_⟩
  · intro b _ value hvalue
    exact lex_of_resolved hres b hvalue
  · intro name value hfield
    exact (fieldOf_at hres hfield).1
  · intro path' plan' sql h' hsql hsql'
    exact dataQuery_inj hres (resolve_ok.mp h') hsql hsql'

/-- A partition's file, with a builder of each kind of hole. -/
theorem path_to_query_partition :
    lex (sqlStreamPartition "logs" "events" "2026-01")
      = some (dataTokens ⟨.streamPartition "2026-01", some "logs", some "events"⟩ "logs" "events") ∧
    Field.At [.normal "db", .normal "logs", .normal "events", .normal "2026-01.tsv"] "2026-01"
      .partition ∧
    dataQuery ⟨.streamPartition "2026-01", some "logs", some "events"⟩
      ≠ dataQuery ⟨.streamAll, some "logs", some "events"⟩ := by
  let path : PathBuf := ⟨[.normal "db", .normal "logs", .normal "events", .normal "2026-01.tsv"]⟩
  let plan : QueryPlan := ⟨.streamPartition "2026-01", some "logs", some "events"⟩
  have hresolve : resolve path = .ok plan := by decide +kernel
  obtain ⟨hbuild, hat, hinj⟩ := path_to_query hresolve
  let value : Field → String := fun | .database => "logs" | .table => "events" | .partition => "2026-01"
  have hvalue : ∀ q name, .hole q name ∈ Builder.streamPartition.template →
      fieldOf plan name = some (value name) := by
    intro q name hmem
    cases name <;> rfl
  have hlex := hbuild .streamPartition (by simp [builders]) value hvalue
  rw [streamPartition_slots] at hlex
  refine ⟨hlex, hat .partition "2026-01" rfl, fun hsame => ?_⟩
  have hall : resolve ⟨[.normal "db", .normal "logs", .normal "events", .normal "all.tsv"]⟩
      = .ok ⟨.streamAll, some "logs", some "events"⟩ := by decide +kernel
  have hkind := congrArg QueryPlan.kind (hinj _ _ _ hall rfl hsame.symm)
  cases hkind

end Driver
end ClickFs
