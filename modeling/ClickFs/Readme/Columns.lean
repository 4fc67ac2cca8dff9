import ClickFs.Lib.Escape
import ClickFs.Readme

/-!
# The table of columns

`renderColumns` writes a Markdown table. A line of it is cut into cells at each `|` that has
not an odd number of backslashes before it.

A name, a type and a comment are any text. `replace` puts one backslash before each pipe.
That hides a pipe that could be seen, and uncovers one that was hidden already, so a text
keeps to its cell when none of its pipes was (`Plain`). A newline is replaced in a comment
only, so a name or a type keeps to its line when it has none. The table is one with a line
for each column exactly when every column is like that (`renderColumns_isTable_iff`).

Such texts do occur: an `Enum` type has its values in its own text, and a comment is
whatever somebody wrote.
-/

set_option autoImplicit false

namespace ClickFs
namespace Readme

open Rust Driver Escape

/-! ## Columns and tables -/

structure Column where
  name : String
  type : String
  comment : String
deriving DecidableEq, Repr

/-- A line of JSONEachRow, and what `serde_json` makes of it. The three fields are read back as
    they are; how they are written on the line does not matter. -/
structure Encodes (f : Formats) (line : String) (c : Column) : Prop where
  oneLine : OneLine line
  nonempty : line ≠ ""
  trimmed : trim line = line
  decoded : ∃ v, f.fromStr line = some v ∧ v "name" = some (.string c.name) ∧
    v "type" = some (.string c.type) ∧ v "comment" = some (.string c.comment)

def Column.row (c : Column) : String := columnRow c.name c.type c.comment

/-- Three cells between the outer pipes. -/
def ThreeCells (line : String) : Prop :=
  ∃ name ty comment, pieces '|' '\\' false line.toList = [[], name, ty, comment, []]

/-- Two header lines, and a line with three cells for each column, in order. -/
structure IsTable (columns : List Column) (text : String) : Prop where
  lines : lines text = "| Name | Type | Comment |" :: "|---|---|---|" :: columns.map Column.row
  cells : ∀ line ∈ (Rust.lines text).drop 2, ThreeCells line

/-- No pipe has an odd number of backslashes before it. -/
def Plain (s : String) : Prop :=
  ∀ pre post, s.toList = pre ++ '|' :: post → ¬ Odd (run '\\' pre)

/-- A column whose texts keep to their line and their cells. -/
structure Column.Tame (c : Column) : Prop where
  name_line : '\n' ∉ c.name.toList
  type_line : '\n' ∉ c.type.toList
  name : Plain c.name
  type : Plain c.type
  comment : Plain c.comment

/-! ## Cells -/

theorem bar_ne : '|' ≠ '\\' := by decide

/-- How many of the pipes of a text can be seen in its cell. A number and not a yes or no, since
    the cells of a line are counted. -/
def showing (s : String) : Nat := seps '|' '\\' true false s.toList

theorem showing_eq_zero {s : String} : showing s = 0 ↔ Plain s := by
  rw [showing, seps_eq_zero bar_ne]
  refine forall_congr' fun pre => forall_congr' fun post => imp_congr_right fun _ => ?_
  rw [← hidden_iff_odd_run, Bool.not_true, Bool.not_eq_true]

theorem seps_escapePipes (s : String) :
    seps '|' '\\' false false (escapePipes s).toList = showing s := by
  rw [escapePipes, replaceChar, String.toList_ofList, showing]
  exact seps_escapeSep bar_ne s.toList

theorem seps_comment (s : String) :
    seps '|' '\\' false false (replaceChar '\n' " " (escapePipes s)).toList = showing s := by
  have hmap : (replaceChar '\n' " " (escapePipes s)).toList
      = (escapePipes s).toList.map fun x => if x = '\n' then ' ' else x := by
    rw [replaceChar, String.toList_ofList, List.map_eq_flatMap]
    apply List.flatMap_congr
    intro x _
    split <;> rfl
  rw [hmap, seps_map, seps_escapePipes]
  · intro x
    split <;> simp_all
  · intro x
    split <;> simp_all

/-- What stands around a text in its cell. It hides no pipe of the text and shows none of its own.
    -/
structure Frame (l r : String) : Prop where
  left : seps '|' '\\' false false l.toList = 0
  left_open : hidden '\\' false l.toList = false
  right : ∀ b, seps '|' '\\' false b r.toList = 0
  right_open : ∀ b, hidden '\\' b r.toList = false

theorem frame_quotes : Frame " `" "` " := ⟨by decide, by decide, by decide, by decide⟩

theorem frame_blanks : Frame " " " " := ⟨by decide, by decide, by decide, by decide⟩

theorem Frame.seps_cell {l r : String} (h : Frame l r) (s : String) :
    seps '|' '\\' false false (l ++ s ++ r).toList = seps '|' '\\' false false s.toList := by
  rw [String.toList_append, String.toList_append, seps_append bar_ne, seps_append bar_ne, h.left,
    h.left_open, h.right, Nat.zero_add, Nat.add_zero]

theorem Frame.hidden_cell {l r : String} (h : Frame l r) (s : String) :
    hidden '\\' false (l ++ s ++ r).toList = false := by
  rw [String.toList_append, hidden_append, h.right_open]

/-- The line of a column as its cells, with the quotes and blanks in them and a pipe around each. -/
theorem toList_columnRow (name ty comment : String) :
    (columnRow name ty comment).toList = [] ++ '|' :: ((" `" ++ escapePipes name ++ "` ").toList
      ++ '|' :: ((" `" ++ escapePipes ty ++ "` ").toList
      ++ '|' :: ((" " ++ replaceChar '\n' " " (escapePipes comment) ++ " ").toList ++ '|' :: []))) := by
  simp [columnRow]

theorem threeCells_row (c : Column) :
    ThreeCells c.row ↔ Plain c.name ∧ Plain c.type ∧ Plain c.comment := by
  have hrow := toList_columnRow c.name c.type c.comment
  have hname := frame_quotes.hidden_cell (escapePipes c.name)
  have htype := frame_quotes.hidden_cell (escapePipes c.type)
  have hcomment := frame_blanks.hidden_cell (replaceChar '\n' " " (escapePipes c.comment))
  rw [← showing_eq_zero, ← showing_eq_zero, ← showing_eq_zero]
  constructor
  · rintro ⟨_, _, _, hcells⟩
    have hlen : (pieces '|' '\\' false c.row.toList).length
        = seps '|' '\\' false false c.row.toList + 1 := length_pieces _
    rw [hcells, Column.row, hrow, seps_append_cons bar_ne rfl, seps_append_cons bar_ne hname,
      seps_append_cons bar_ne htype, seps_append_cons bar_ne hcomment, frame_quotes.seps_cell,
      frame_quotes.seps_cell, frame_blanks.seps_cell, seps_escapePipes, seps_escapePipes,
      seps_comment] at hlen
    simp only [List.length_cons, List.length_nil, seps] at hlen
    omega
  · rintro ⟨h₁, h₂, h₃⟩
    rw [← seps_escapePipes, ← frame_quotes.seps_cell] at h₁ h₂
    rw [← seps_comment, ← frame_blanks.seps_cell] at h₃
    refine ⟨(" `" ++ escapePipes c.name ++ "` ").toList, (" `" ++ escapePipes c.type ++ "` ").toList,
      (" " ++ replaceChar '\n' " " (escapePipes c.comment) ++ " ").toList, ?_⟩
    rw [Column.row, hrow, pieces_append_cons bar_ne rfl rfl, pieces_append_cons bar_ne h₁ hname,
      pieces_append_cons bar_ne h₂ htype, pieces_append_cons bar_ne h₃ hcomment]
    rfl

/-! ## Lines -/

theorem mem_replaceChar {c x : Char} {new s : String} :
    x ∈ (replaceChar c new s).toList ↔
      (c ∈ s.toList ∧ x ∈ new.toList) ∨ (x ≠ c ∧ x ∈ s.toList) := by
  rw [replaceChar, String.toList_ofList, List.mem_flatMap]
  constructor
  · rintro ⟨y, hy, hx⟩
    split at hx
    · rename_i hyc
      exact .inl ⟨hyc ▸ hy, hx⟩
    · rename_i hyc
      rw [List.mem_singleton] at hx
      exact .inr ⟨hx ▸ hyc, hx ▸ hy⟩
  · rintro (⟨hc, hx⟩ | ⟨hne, hx⟩)
    · exact ⟨c, hc, by rwa [if_pos rfl]⟩
    · exact ⟨x, hx, by rw [if_neg hne]; exact List.mem_singleton_self x⟩

theorem newline_mem_escapePipes {s : String} : '\n' ∈ (escapePipes s).toList ↔ '\n' ∈ s.toList := by
  rw [escapePipes, mem_replaceChar]
  simp

/-- A column breaks its line with a newline in its name or its type. -/
theorem newline_mem_row {c : Column} :
    '\n' ∈ c.row.toList ↔ '\n' ∈ c.name.toList ∨ '\n' ∈ c.type.toList := by
  have hcomment : '\n' ∉ (replaceChar '\n' " " (escapePipes c.comment)).toList := by
    rw [mem_replaceChar]
    simp
  rw [Column.row, columnRow]
  simp [newline_mem_escapePipes, hcomment]

theorem getLast?_row (c : Column) : c.row.toList.getLast? = some '|' := by
  rw [Column.row, columnRow, String.toList_append]
  exact List.getLast?_append_of_ne_nil _ (by decide)

theorem body_cons₂ (v w : String) (vs : List String) :
    body (v :: w :: vs) = (v ++ "\n") ++ (w ++ "\n") ++ body vs := by
  apply String.toList_inj.mp
  simp [body]

variable {f : Formats} {columns : List Column} {encode : Column → String}

theorem columnLine_encode {line : String} {c : Column} (h : Encodes f line c) :
    columnLine f line = some c.row := by
  obtain ⟨v, hv, hname, htype, hcomment⟩ := h.decoded
  have hne : line.isEmpty = false := by
    rw [String.isEmpty_eq_false_iff]
    exact h.nonempty
  rw [columnLine, h.trimmed]
  simp only [hne, Bool.false_eq_true, if_false, hv, Option.map_some, field, hname, htype, hcomment]
  rfl

theorem lines_encoded (h : ∀ c ∈ columns, Encodes f (encode c) c) :
    lines (body (columns.map encode)) = columns.map encode := by
  apply lines_body
  intro line hline
  obtain ⟨c, hc, rfl⟩ := List.mem_map.mp hline
  exact (h c hc).oneLine

theorem rows_encoded (h : ∀ c ∈ columns, Encodes f (encode c) c) :
    (columns.map encode).filterMap (columnLine f) = columns.map Column.row := by
  induction columns with
  | nil => rfl
  | cons c columns ih =>
    have hc := columnLine_encode (h c List.mem_cons_self)
    rw [List.map_cons, List.filterMap_cons_some hc, List.map_cons,
      ih fun c' hc' => h c' (List.mem_cons_of_mem _ hc')]

theorem renderColumns_encoded (hne : columns ≠ [])
    (h : ∀ c ∈ columns, Encodes f (encode c) c) :
    renderColumns f (body (columns.map encode))
      = body ("| Name | Type | Comment |" :: "|---|---|---|" :: columns.map Column.row) := by
  have hsome : (columns.map Column.row).isEmpty = false := by simpa using hne
  have hhead : "| Name | Type | Comment |\n" = "| Name | Type | Comment |" ++ "\n" := by decide
  have hrule : "|---|---|---|\n" = "|---|---|---|" ++ "\n" := by decide
  unfold renderColumns
  simp only [lines_encoded h, rows_encoded h, hsome, Bool.false_eq_true, if_false, String.append_empty, body_cons₂]
  exact congrArg₂ (fun head rule => head ++ rule ++ body (columns.map Column.row)) hhead hrule

/-- Columns that are tame do not break the lines, so the lines of the text are the rows that were
    written. -/
theorem lines_rows (h : ∀ c ∈ columns, c.Tame) :
    lines (body ("| Name | Type | Comment |" :: "|---|---|---|" :: columns.map Column.row))
      = "| Name | Type | Comment |" :: "|---|---|---|" :: columns.map Column.row := by
  apply lines_body_of
  intro line hline
  rcases List.mem_cons.mp hline with rfl | hline
  · decide
  rcases List.mem_cons.mp hline with rfl | hline
  · decide
  obtain ⟨c, hc, rfl⟩ := List.mem_map.mp hline
  rw [newline_mem_row, not_or, getLast?_row]
  exact ⟨⟨(h c hc).name_line, (h c hc).type_line⟩, by decide⟩

theorem isTable_rows :
    IsTable columns (body ("| Name | Type | Comment |" :: "|---|---|---|" ::
      columns.map Column.row)) ↔ ∀ c ∈ columns, c.Tame := by
  constructor
  · intro htable c hc
    have hrow : c.row ∈ columns.map Column.row := List.mem_map_of_mem hc
    have hline : '\n' ∉ c.row.toList := by
      refine length_lines_body.mp (congrArg List.length htable.lines) c.row ?_
      exact List.mem_cons_of_mem _ (List.mem_cons_of_mem _ hrow)
    have hcells := htable.cells c.row (by rw [htable.lines]; exact hrow)
    rw [newline_mem_row, not_or] at hline
    obtain ⟨hname, htype, hcomment⟩ := (threeCells_row c).mp hcells
    exact ⟨hline.1, hline.2, hname, htype, hcomment⟩
  · intro htame
    refine ⟨lines_rows htame, fun line hline => ?_⟩
    rw [lines_rows htame] at hline
    obtain ⟨c, hc, rfl⟩ := List.mem_map.mp hline
    have hc := htame c hc
    exact (threeCells_row c).mpr ⟨hc.name, hc.type, hc.comment⟩

/-- **The table of columns is a table** exactly when no name and no type has a newline and
    no pipe of a text has an odd number of backslashes before it. -/
theorem renderColumns_isTable_iff (hne : columns ≠ [])
    (h : ∀ c ∈ columns, Encodes f (encode c) c) :
    IsTable columns (renderColumns f (body (columns.map encode))) ↔ ∀ c ∈ columns, c.Tame := by
  rw [renderColumns_encoded hne h]
  exact isTable_rows

/-! ## One column -/

/-- The object of a column, for `serde_json` to read. -/
def Column.object (c : Column) : String → Option Json
  | "name" => some (.string c.name)
  | "type" => some (.string c.type)
  | "comment" => some (.string c.comment)
  | _ => none

/-- `serde_json` on the line of one column. -/
def oneObject (line : String) (c : Column) : Formats where
  fromStr s := if s = line then some c.object else none
  scaled _ := ""
  quotient _ _ := ""

theorem encodes_oneObject {line : String} (c : Column) (hone : OneLine line) (hne : line ≠ "")
    (htrim : trim line = line) : Encodes (oneObject line c) line c :=
  ⟨hone, hne, htrim, c.object, if_pos rfl, rfl, rfl, rfl⟩

theorem tame_of_isTable {line : String} {c : Column} (h : Encodes (oneObject line c) line c)
    (htable : IsTable [c] (renderColumns (oneObject line c) (body [line]))) : c.Tame := by
  have hencodes : ∀ c' ∈ [c], Encodes (oneObject line c) ((fun _ => line) c') c' := fun c' hc' =>
    List.mem_singleton.mp hc' ▸ h
  have htext := renderColumns_encoded (List.cons_ne_nil c []) hencodes
  rw [List.map_singleton] at htext
  rw [htext, isTable_rows] at htable
  exact htable c List.mem_cons_self

def pipedLine : String := "\x7b\"name\":\"a|b\",\"type\":\"Int8\",\"comment\":\"x\\ny\"\x7d"

def piped : Column := ⟨"a|b", "Int8", "x\ny"⟩

/-- A pipe in a name and a newline in a comment. -/
theorem renderColumns_isTable_iff_piped :
    IsTable [piped] (renderColumns (oneObject pipedLine piped) (body [pipedLine])) := by
  have henc : Encodes (oneObject pipedLine piped) pipedLine piped :=
    encodes_oneObject piped ⟨by decide, by decide⟩ (by decide) (by decide)
  have htame : piped.Tame :=
    ⟨by decide, by decide, showing_eq_zero.mp (by decide), showing_eq_zero.mp (by decide),
      showing_eq_zero.mp (by decide)⟩
  have hencodes : ∀ c ∈ [piped], Encodes (oneObject pipedLine piped) ((fun _ => pipedLine) c) c :=
    fun c hc => List.mem_singleton.mp hc ▸ henc
  apply (renderColumns_isTable_iff (List.cons_ne_nil piped []) hencodes).mpr
  intro c hc
  rw [List.mem_singleton.mp hc]
  exact htame

def slashedLine : String :=
  "\x7b\"name\":\"a\",\"type\":\"Int8\",\"comment\":\"x\\\\|y\"\x7d"

def slashed : Column := ⟨"a", "Int8", "x\\|y"⟩

def brokenLine : String := "\x7b\"name\":\"a\\nb\",\"type\":\"Int8\",\"comment\":\"\"\x7d"

def broken : Column := ⟨"a\nb", "Int8", ""⟩

/-- `\|` becomes `\\|`, where the pipe can be seen. A newline in a name stays. -/
theorem pipe_uncovered :
    ¬ IsTable [slashed] (renderColumns (oneObject slashedLine slashed) (body [slashedLine])) ∧
      ¬ IsTable [broken] (renderColumns (oneObject brokenLine broken) (body [brokenLine])) := by
  have hslashed : Encodes (oneObject slashedLine slashed) slashedLine slashed :=
    encodes_oneObject slashed ⟨by decide, by decide⟩ (by decide) (by decide)
  have hbroken : Encodes (oneObject brokenLine broken) brokenLine broken :=
    encodes_oneObject broken ⟨by decide, by decide⟩ (by decide) (by decide)
  constructor
  · intro htable
    have hplain := (tame_of_isTable hslashed htable).comment
    exact absurd (showing_eq_zero.mpr hplain) (by decide)
  · intro htable
    exact absurd (tame_of_isTable hbroken htable).name_line (by decide)

end Readme
end ClickFs
