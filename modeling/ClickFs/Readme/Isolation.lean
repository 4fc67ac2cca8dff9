import ClickFs.Readme

/-!
# Failed sub-queries

The README is best-effort: an answer that failed is to cost the lines made from it and no
others. `Parts` is a document by what its texts are made from, one text for each of the
five answers under six headings, and `render` writes such a document (`render_eq_text`).
To lose a part is then to have another text in its place (`Parts.set`), and "no others" is
that all the other texts are the same.

Four of the five texts are made from their own answer alone. The lines of the Stats section
that come from `system.parts` are made only when the row count is there too, so a row count
that failed hides them. `subqueries_isolated_iff` says that this is the only case, and when
it shows: when the answer had a number to show, or failed itself.
-/

set_option autoImplicit false

namespace ClickFs
namespace Readme

open Rust

inductive SubQuery
  | schema | stats | columns | count | sample
deriving DecidableEq, Repr

def Results.get (r : Results) : SubQuery → Except QueryError String
  | .schema => r.schema
  | .stats => r.stats
  | .columns => r.columns
  | .count => r.count
  | .sample => r.sample

/-- The same answers, but one failed. -/
def Results.fail (r : Results) (q : SubQuery) (e : QueryError) : Results :=
  match q with
  | .schema => { r with schema := .error e }
  | .stats => { r with stats := .error e }
  | .columns => { r with columns := .error e }
  | .count => { r with count := .error e }
  | .sample => { r with sample := .error e }

/-- A document, by the answers its texts are made from. -/
structure Parts where
  schema : String
  stats : String
  columns : String
  count : String
  sample : String

def Parts.part (p : Parts) : SubQuery → String
  | .schema => p.schema
  | .stats => p.stats
  | .columns => p.columns
  | .count => p.count
  | .sample => p.sample

/-- The document with another text made from one answer. -/
def Parts.set (p : Parts) (q : SubQuery) (new : String) : Parts :=
  match q with
  | .schema => { p with schema := new }
  | .stats => { p with stats := new }
  | .columns => { p with columns := new }
  | .count => { p with count := new }
  | .sample => { p with sample := new }

def headings : List String :=
  ["## Stats\n\n", "## Schema\n\n", "## Columns\n\n", "## Sample (5 rows)\n\n",
    "## Example queries\n\n", "## Files\n\n"]

/-- What stands under each of the headings. -/
def Parts.bodies (p : Parts) (db tbl : String) : List String :=
  [p.count ++ p.stats ++ "\n", p.schema ++ "\n", p.columns ++ "\n", p.sample ++ "\n",
    exampleQueries db tbl ++ "\n", files]

def title (db tbl : String) : String := "# `" ++ db ++ "`.`" ++ tbl ++ "`\n" ++ "\n"

def Parts.text (p : Parts) (db tbl : String) : String :=
  title db tbl ++ String.join (List.zipWith (· ++ ·) headings (p.bodies db tbl))

/-! ## The texts and what they are made from -/

/-- The lines made from the answer of `system.parts`. -/
def statsLines (f : Formats) (stats : Except QueryError String) : String :=
  match stats with
  | .error _ => unavailableStats
  | .ok s =>
    if (trim s).isEmpty then "- **size on disk**: 0 (no active parts)\n"
    else ((f.fromStr (trim s)).map (numberLines f)).getD ""

/-- An answer of `system.parts` that nothing is made from: it is no object, or none of its fields
    is a number. For such an answer the missing row count does not show. -/
def Numberless (f : Formats) (stats : Except QueryError String) : Prop :=
  ∃ s, stats = .ok s ∧ (trim s).isEmpty = false ∧ ∀ v, f.fromStr (trim s) = some v →
    ∀ key ∈ ["bytes_on_disk", "parts", "partitions"], (v key).bind jsonToU64 = none

/-- The line made from the row count. -/
def countLine (count : Except QueryError String) : String :=
  match count with
  | .ok c => rowsLine (trim c)
  | .error _ => unavailable

/-- The texts of the file, each under the answer it is made from. -/
def partsOf (f : Formats) (r : Results) : Parts :=
  { schema := schemaSection r.schema
    -- without a row count nothing is made from this answer
    stats := if r.count.isOk then statsLines f r.stats else ""
    columns := columnsSection f r.columns
    count := countLine r.count
    sample := sampleSection r.sample }

/-- What stands for a failed answer where its text was. -/
def mark : SubQuery → String
  | .stats => unavailableStats
  | .schema | .columns | .count | .sample => unavailable

variable {f : Formats} {db tbl : String} {r r' : Results}

theorem renderStats_eq (s c : String) :
    renderStats f s c = rowsLine c ++ statsLines f (.ok s) := by
  rw [renderStats, statsLines]
  by_cases hempty : (trim s).isEmpty
  · rw [if_pos hempty, if_pos hempty]
  · rw [if_neg hempty, if_neg hempty]
    cases f.fromStr (trim s) with
    | none => rw [Option.map_none, Option.getD_none, String.append_empty]
    | some v => rfl

theorem statsSection_eq (stats count : Except QueryError String) :
    statsSection f stats count
      = countLine count ++ if count.isOk then statsLines f stats else "" := by
  cases count with
  | error e => cases stats <;> rfl
  | ok c =>
    cases stats with
    | error e => rfl
    | ok s =>
      have hok : (Except.ok c : Except QueryError String).isOk = true := rfl
      rw [statsSection, renderStats_eq, countLine, if_pos hok]

/-- **The layout**: six headings in order, and under them the texts of the answers. -/
theorem render_eq_text : render f db tbl r = (partsOf f r).text db tbl := by
  unfold render Parts.text Parts.bodies headings partsOf title String.join
  simp only [statsSection_eq, List.zipWith_cons_cons, List.zipWith_nil_right, List.foldl_cons,
    List.foldl_nil, String.append_assoc, String.empty_append]

/-- What follows the Stats section in a document. -/
def Parts.afterStats (p : Parts) (db tbl : String) : String :=
  "\n" ++ String.join (List.zipWith (· ++ ·) headings.tail (p.bodies db tbl).tail)

theorem Parts.text_eq (p : Parts) :
    p.text db tbl
      = title db tbl ++ ("## Stats\n\n" ++ (p.count ++ p.stats ++ p.afterStats db tbl)) := by
  unfold Parts.text Parts.afterStats Parts.bodies headings String.join
  simp only [List.tail_cons, List.zipWith_cons_cons, List.zipWith_nil_right, List.foldl_cons,
    List.foldl_nil, String.append_assoc, String.empty_append]

/-- What stands under `Stats` can be read off the document, since all that follows it is the same
    in both. Without this, two documents could be equal with their parts cut differently. -/
theorem Parts.text_inj {p p' : Parts} (hrest : p'.afterStats db tbl = p.afterStats db tbl)
    (h : p'.text db tbl = p.text db tbl) : p'.count ++ p'.stats = p.count ++ p.stats := by
  rwa [Parts.text_eq, Parts.text_eq, String.append_right_inj, String.append_right_inj, hrest,
    String.append_left_inj] at h

/-! ## Lines that can be told from a mark -/

/-- A text that is empty or has the dash of a list item in it. The lines of the numbers are such a
    text, and the mark of a failed answer is not. -/
def Dashed (s : String) : Prop := s = "" ∨ '-' ∈ s.toList

theorem Dashed.append {s t : String} (hs : Dashed s) (ht : Dashed t) : Dashed (s ++ t) := by
  rcases hs with rfl | hs
  · rwa [String.empty_append]
  · exact .inr (by rw [String.toList_append]; exact List.mem_append_left _ hs)

theorem Dashed.of_item {item s : String} (h : '-' ∈ item.toList) : Dashed (item ++ s) :=
  .inr (by rw [String.toList_append]; exact List.mem_append_left _ h)

theorem Dashed.ifSome {α : Type} {o : Option α} {text : α → String} (h : ∀ x, Dashed (text x)) :
    Dashed (ifSome o text) := by
  cases o with
  | none => exact .inl rfl
  | some x => exact h x

theorem numberLines_dashed (v : String → Option Json) : Dashed (numberLines f v) := by
  unfold numberLines
  simp only [String.append_assoc]
  refine .append (.ifSome fun b => .of_item (by decide)) (.append (.ifSome fun p => .of_item (by decide))
    (.append (.ifSome fun p => .of_item (by decide)) (.ifSome fun rows => .ifSome fun bytes => ?_)))
  split
  · exact .of_item (by decide)
  · exact .inl rfl

theorem statsLines_dashed (stats : Except QueryError String) : Dashed (statsLines f stats) := by
  unfold statsLines
  split
  · exact .inr (by decide)
  · split
    · exact .inr (by decide)
    · rename_i s _
      cases f.fromStr (trim s) with
      | none => exact .inl rfl
      | some v => exact numberLines_dashed v

theorem item_ne_empty {item s : String} (h : item ≠ "") : item ++ s ≠ "" := fun hempty =>
  h (String.append_eq_empty_iff.mp hempty).1

theorem ifSome_eq_empty {α : Type} {o : Option α} {text : α → String} (h : ∀ x, text x ≠ "") :
    ifSome o text = "" ↔ o = none := by
  cases o with
  | none => exact ⟨fun _ => rfl, fun _ => rfl⟩
  | some x => exact ⟨fun hempty => absurd hempty (h x), fun hnone => absurd hnone (Option.some_ne_none x)⟩

/-- The quotient needs the size, so it is never the only line. -/
theorem numberLines_eq_empty {v : String → Option Json} :
    numberLines f v = "" ↔
      ∀ key ∈ ["bytes_on_disk", "parts", "partitions"], (v key).bind jsonToU64 = none := by
  unfold numberLines
  simp only [String.append_assoc, List.forall_mem_cons, String.append_eq_empty_iff]
  rw [ifSome_eq_empty fun b => item_ne_empty (by decide),
    ifSome_eq_empty fun p => item_ne_empty (by decide),
    ifSome_eq_empty fun p => item_ne_empty (by decide)]
  constructor
  · rintro ⟨hbytes, hparts, hpartitions, -⟩
    exact ⟨hbytes, hparts, hpartitions, fun key hkey => absurd hkey List.not_mem_nil⟩
  · rintro ⟨hbytes, hparts, hpartitions, -⟩
    refine ⟨hbytes, hparts, hpartitions, ?_⟩
    rw [hbytes]
    cases (v "rows").bind jsonToU64 <;> rfl

theorem statsLines_eq_empty {stats : Except QueryError String} :
    statsLines f stats = "" ↔ Numberless f stats := by
  cases stats with
  | error e =>
    constructor
    · exact fun h => absurd h (item_ne_empty (item_ne_empty (by decide)))
    · rintro ⟨s, hs, -⟩
      cases hs
  | ok s =>
    have hiff : Numberless f (.ok s) ↔ (trim s).isEmpty = false ∧ ∀ v,
        f.fromStr (trim s) = some v → numberLines f v = "" := by
      simp only [numberLines_eq_empty]
      constructor
      · rintro ⟨s', hs, h⟩
        cases hs
        exact h
      · exact fun h => ⟨s, rfl, h⟩
    rw [hiff, statsLines]
    by_cases hempty : (trim s).isEmpty
    · rw [if_pos hempty, hempty]
      exact ⟨fun h => absurd h (by decide), fun h => Bool.noConfusion h.1⟩
    · rw [if_neg hempty]
      rw [Bool.not_eq_true] at hempty
      cases f.fromStr (trim s) with
      | none => exact ⟨fun _ => ⟨hempty, fun v hv => absurd hv.symm (Option.some_ne_none v)⟩, fun _ => rfl⟩
      | some v =>
        constructor
        · rintro h
          exact ⟨hempty, fun _ hv => Option.some.inj hv ▸ h⟩
        · exact fun h => h.2 v rfl

/-- The mark of a failed answer does not end in such lines. -/
theorem unavailable_ne {new s : String} (hs : Dashed s) (h : unavailable = new ++ s) : s = "" := by
  rcases hs with rfl | hs
  · rfl
  · have hmem : '-' ∈ unavailable.toList := by
      rw [h, String.toList_append]
      exact List.mem_append_right _ hs
    exact absurd hmem (by decide)

/-! ## One answer at a time -/

theorem ite_eq_ite_iff (b b' : Bool) (s : String) :
    ((if b then s else "") = if b' then s else "") ↔ b = b' ∨ s = "" := by
  cases b <;> cases b' <;> simp [@eq_comm _ ""]

/-- A text is made from its own answer, and the lines of `system.parts` from whether there is a
    row count too. -/
theorem part_eq_iff {q : SubQuery} (h : r'.get q = r.get q) :
    (partsOf f r').part q = (partsOf f r).part q ↔
      (q = .stats → r'.count.isOk = r.count.isOk ∨ Numberless f r.stats) := by
  cases q with
  | stats =>
    have hstats : r'.stats = r.stats := h
    have hpart (r : Results) : (partsOf f r).part .stats
        = if r.count.isOk then statsLines f r.stats else "" := rfl
    rw [hpart, hpart, hstats, ite_eq_ite_iff, statsLines_eq_empty]
    exact ⟨fun h _ => h, fun h => h rfl⟩
  | schema =>
    have hschema : r'.schema = r.schema := h
    simp [partsOf, Parts.part, hschema]
  | columns =>
    have hcolumns : r'.columns = r.columns := h
    simp [partsOf, Parts.part, hcolumns]
  | count =>
    have hcount : r'.count = r.count := h
    simp [partsOf, Parts.part, hcount]
  | sample =>
    have hsample : r'.sample = r.sample := h
    simp [partsOf, Parts.part, hsample]

/-- What is left of the text of a failed answer: nothing, or the mark that says so. -/
theorem part_fail {q : SubQuery} (e : QueryError) :
    (partsOf f (r.fail q e)).part q = "" ∨ (partsOf f (r.fail q e)).part q = mark q := by
  cases q with
  | stats =>
    have hpart : (partsOf f (r.fail .stats e)).part .stats
        = if r.count.isOk then unavailableStats else "" := rfl
    rw [hpart]
    by_cases hok : r.count.isOk
    · exact .inr (if_pos hok)
    · exact .inl (if_neg hok)
  | schema | columns | count | sample => exact .inr rfl

theorem partsOf_fail {q : SubQuery} (hq : q ≠ .count) (e : QueryError) :
    partsOf f (r.fail q e) = (partsOf f r).set q ((partsOf f (r.fail q e)).part q) := by
  cases q with
  | count => exact absurd rfl hq
  | schema | stats | columns | sample => rfl

/-- Without the row count the lines of `system.parts` are gone, and the document shows it. -/
theorem fail_count_iff (hok : r.count.isOk = true) (e : QueryError) :
    (∃ new, (new = "" ∨ new = unavailable) ∧
        render f db tbl (r.fail .count e) = ((partsOf f r).set .count new).text db tbl) ↔
      statsLines f r.stats = "" := by
  have hstats (new : String) : ((partsOf f r).set .count new).stats = statsLines f r.stats :=
    if_pos hok
  constructor
  · rintro ⟨new, -, hnew⟩
    rw [render_eq_text] at hnew
    have hrest : (partsOf f (r.fail .count e)).afterStats db tbl
        = ((partsOf f r).set .count new).afterStats db tbl := rfl
    have hcancel := Parts.text_inj hrest hnew
    rw [hstats] at hcancel
    exact unavailable_ne (statsLines_dashed _) hcancel
  · intro hempty
    refine ⟨unavailable, .inr rfl, ?_⟩
    rw [render_eq_text, Parts.text_eq, Parts.text_eq, hstats, hempty]
    rfl

/-- A failed answer takes its own text with it. Only the row count takes another one. -/
theorem fail_eq_iff {q : SubQuery} {s : String} (h : r.get q = .ok s) (e : QueryError) :
    (∃ new, (new = "" ∨ new = mark q) ∧
        render f db tbl (r.fail q e) = ((partsOf f r).set q new).text db tbl) ↔
      (q = .count → Numberless f r.stats) := by
  by_cases hq : q = .count
  · subst hq
    have hcount : r.count = .ok s := h
    have hok : r.count.isOk = true := by rw [hcount]; rfl
    rw [← statsLines_eq_empty, mark, fail_count_iff hok]
    exact ⟨fun hempty _ => hempty, fun hempty => hempty rfl⟩
  · refine ⟨fun _ hcount => absurd hcount hq, fun _ => ?_⟩
    refine ⟨(partsOf f (r.fail q e)).part q, part_fail e, ?_⟩
    rw [render_eq_text, ← partsOf_fail hq e]

/-- **Failed sub-queries are isolated**, but for the row count: it hides the lines of
    `system.parts` when it fails and there are any. -/
theorem subqueries_isolated_iff (f : Formats) (db tbl : String) (r : Results) :
    render f db tbl r = (partsOf f r).text db tbl ∧
    (∀ q r', r'.get q = r.get q →
      ((partsOf f r').part q = (partsOf f r).part q ↔
        (q = .stats → r'.count.isOk = r.count.isOk ∨ Numberless f r.stats))) ∧
    ∀ q s e, r.get q = .ok s →
      ((∃ new, (new = "" ∨ new = mark q) ∧
          render f db tbl (r.fail q e) = ((partsOf f r).set q new).text db tbl) ↔
        (q = .count → Numberless f r.stats)) :=
  ⟨render_eq_text, fun _ _ => part_eq_iff, fun _ _ e h => fail_eq_iff h e⟩

/-- What `system.parts` says about a small table. -/
def smallParts : String :=
  "\x7b\"rows\":\"3\",\"bytes_on_disk\":\"10\",\"parts\":\"1\",\"partitions\":\"1\"\x7d"

def smallFormats : Formats :=
  { fromStr := fun line =>
      if line = smallParts then
        some fun key =>
          if key = "rows" then some (.string "3")
          else if key = "bytes_on_disk" then some (.string "10")
          else if key = "parts" ∨ key = "partitions" then some (.string "1")
          else none
      else none
    scaled := fun _ => ""
    quotient := fun _ _ => "3.3" }

def smallTable : Results :=
  { schema := .ok "CREATE TABLE d.t (id UInt64) ENGINE = MergeTree ORDER BY id\n"
    stats := .ok (smallParts ++ "\n")
    columns := .ok ""
    count := .ok "3\n"
    sample := .ok "" }

/-- The row count times out, and the size and the parts are gone with it. -/
theorem count_hides_stats :
    ¬ ∃ new, (new = "" ∨ new = mark .count) ∧
      render smallFormats "d" "t" (smallTable.fail .count (.transport "timed out"))
        = ((partsOf smallFormats smallTable).set .count new).text "d" "t" := by
  have hlines : statsLines smallFormats smallTable.stats ≠ "" := by decide +kernel
  have hcount : smallTable.get .count = .ok "3\n" := rfl
  exact fun h => hlines (statsLines_eq_empty.mpr ((fail_eq_iff hcount _).mp h rfl))

/-! ## The file -/

/-- The file system with this renderer. -/
def deps (hasher : PathBuf → UInt64) (f : Formats) : Deps :=
  { hasher, fromStr := f.fromStr
    render := fun query db tbl => render f db tbl (fetch query db tbl) }

/-- A README opens whatever the server answers, and what is read from it is that document. A
    failed answer is no reason for an errno here. -/
theorem openHandle_readme (hasher : PathBuf → UInt64) (fs : Fs) (env : Env) {plan : QueryPlan}
    (h : plan.kind = .readme) :
    fs.openHandle (deps hasher f) env plan = .ok (.special
      ((partsOf f (fetch env.query plan.db.get! plan.table.get!)).text plan.db.get!
        plan.table.get!).toUTF8.data.toList) := by
  unfold Fs.openHandle
  simp only [h, deps, render_eq_text]

end Readme
end ClickFs
