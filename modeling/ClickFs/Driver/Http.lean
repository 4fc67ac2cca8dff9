import ClickFs.Driver.Tail
import ClickFs.Driver.Templates
import ClickFs.Lib.Parse

/-!
# `driver.rs` — what is posted

A statement goes out with the settings of the mount behind it: how long it may run, how much
it may return, and `readonly=2`. They only hold if they are read as settings, so a value in
the statement must not reach them: nothing in it may open a quote or a comment that is still
open at its end. `lex_appendSettings` says so of every builder and every path.

The tail query needs more care than the others. Its key comes from the server and goes in
as it is, so whatever the key is, only what stands before it can be promised
(`tail_begins`); a key that closes what it opens gives the rest (`lex_tail_posted`).

The kill is the one text that goes out without the settings, which are not to interfere
with it. User, password and URL are the same in every request and are left out, like the
TLS setup of the client.
-/

set_option autoImplicit false

namespace ClickFs
namespace Driver

open Sql Rust

/-- The driver, as far as it is in what is posted. -/
structure HttpDriver where
  queryTimeoutSecs : UInt64
  maxResultBytes : UInt64
  /-- `compression.enabled` -/
  compression : Bool
deriving DecidableEq, Repr

/-- A request: its body, its `query_id` parameter, its timeout in seconds. The id is what a kill
    names later. -/
structure Post where
  body : String
  queryId : Option String
  timeout : Option UInt64
deriving DecidableEq, Repr

namespace HttpDriver

def compressionSetting (h : HttpDriver) : String :=
  if h.compression then ", enable_http_compression=1" else ""

def appendSettings (h : HttpDriver) (sql : String) (streaming : Bool) : String :=
  if streaming then
    sql ++ " SETTINGS max_execution_time=" ++ toString h.queryTimeoutSecs ++ ", max_result_bytes="
      ++ toString h.maxResultBytes ++ ", readonly=2" ++ h.compressionSetting
  else
    sql ++ " SETTINGS max_execution_time=" ++ toString h.queryTimeoutSecs ++ ", readonly=2"
      ++ h.compressionSetting

/-- `query_text`, as far as the request goes -/
def queryText (h : HttpDriver) (sql : String) : Post :=
  ⟨h.appendSettings sql false, none, some (h.queryTimeoutSecs + 5)⟩

/-- `query_stream_with_id`. No timeout: the server's own is relied on, since a response that is
    read slowly may take as long as its reader. -/
def queryStreamWithId (h : HttpDriver) (sql : String) (queryId : Option String) : Post :=
  ⟨h.appendSettings sql true, queryId, none⟩

/-- `kill_query` -/
def killQuery (queryId : String) : Post :=
  ⟨"KILL QUERY WHERE query_id = " ++ quoteString queryId ++ " ASYNC", none, some 5⟩

/-! ## The settings are read as settings -/

/-- `name=value` -/
def setting (name value : String) : List Token := [.word name, .sym '=', .word value]

/-- The tokens of the settings, to which the theorems below compare what is read. -/
def settings (h : HttpDriver) (streaming : Bool) : List Token :=
  .word "SETTINGS" :: setting "max_execution_time" (toString h.queryTimeoutSecs)
    ++ (if streaming then .sym ',' :: setting "max_result_bytes" (toString h.maxResultBytes) else [])
    ++ .sym ',' :: setting "readonly" "2"
    ++ if h.compression then .sym ',' :: setting "enable_http_compression" "1" else []

end HttpDriver

/-- A number, written out. -/
def Numeral (s : String) : Prop := ∃ n : Nat, s.toList = Nat.toDigits 10 n

theorem numeral_toString (n : Nat) : Numeral (toString n) := by
  refine ⟨n, ?_⟩
  show (String.ofList (Nat.toDigits 10 n)).toList = _
  rw [String.toList_ofList]

theorem numeral_u64 (n : UInt64) : Numeral (toString n) := numeral_toString n.toNat

theorem numeral_u32 (n : UInt32) : Numeral (toString n) := numeral_toString n.toNat

theorem Numeral.isWord {s : String} (h : Numeral s) {c : Char} (hc : c ∈ s.toList) :
    isWord c = true := by
  obtain ⟨n, hn⟩ := h
  rw [hn] at hc
  have hdigit := Nat.isDigit_of_mem_toDigits (by decide) (by decide) hc
  simp [Sql.isWord, Char.isAlphanum, hdigit]

theorem Numeral.ne_nil {s : String} (h : Numeral s) : s ≠ "" := by
  obtain ⟨n, hn⟩ := h
  rintro rfl
  exact Nat.toDigits_ne_nil hn.symm

/-- A text that leaves room for a number, the number, and what comes behind it. -/
theorem lex_numeral {s number rest : String} {ts us : List Token} (hnumber : Numeral number)
    (hlex : lex s = some ts)
    (hends : (run .start s.toList).2 = .start ∨ (run .start s.toList).2 = .sym '=')
    (hrest : lex rest = some us) (hhead : ∀ c, rest.toList.head? = some c → Sql.isWord c = false) :
    lex (s ++ number ++ rest) = some (ts ++ .word number :: us) := by
  have hword := lex_word hnumber.ne_nil (fun c hc => hnumber.isWord hc) hhead
  rw [hrest, Option.map_some] at hword
  obtain ⟨c, hc⟩ : ∃ c, (number ++ rest).toList.head? = some c := by
    cases hcs : number.toList with
    | nil => exact absurd (String.toList_eq_nil_iff.mp hcs) hnumber.ne_nil
    | cons c cs => exact ⟨c, by rw [String.toList_append, hcs]; rfl⟩
  have hends : (run .start s.toList).2.endsAt c = true := by
    rcases hends with hmode | hmode <;> rw [hmode] <;> simp [Mode.endsAt, Mode.step]
  rw [String.append_assoc, lex_concat hlex hends hc, hword, Option.map_some]

theorem lex_readonly (h : HttpDriver) :
    lex (", readonly=2" ++ h.compressionSetting)
      = some (.sym ',' :: HttpDriver.setting "readonly" "2"
        ++ if h.compression then .sym ',' :: HttpDriver.setting "enable_http_compression" "1"
          else []) := by
  have hon : lex (", readonly=2" ++ ", enable_http_compression=1")
      = some [.sym ',', .word "readonly", .sym '=', .word "2", .sym ',',
        .word "enable_http_compression", .sym '=', .word "1"] := by decide +kernel
  have hoff : lex (", readonly=2" ++ "")
      = some [.sym ',', .word "readonly", .sym '=', .word "2"] := by decide +kernel
  rw [HttpDriver.compressionSetting]
  cases h.compression with
  | true => exact hon
  | false => exact hoff

theorem isWord_comma {s : String} (c : Char) (h : (", " ++ s).toList.head? = some c) :
    isWord c = false := by
  rw [String.toList_append] at h
  cases h
  decide

/-- The settings are behind the statement, whatever it is, unless it leaves something open. -/
theorem lex_appendSettings (h : HttpDriver) {sql : String} {ts : List Token}
    (hlex : lex sql = some ts) (hends : (run .start sql.toList).2.endsAt ' ' = true)
    (streaming : Bool) :
    lex (h.appendSettings sql streaming) = some (ts ++ h.settings streaming) := by
  have htime : lex " SETTINGS max_execution_time="
      = some [.word "SETTINGS", .word "max_execution_time", .sym '='] := by decide +kernel
  have hmost : lex ", max_result_bytes=" = some [.sym ',', .word "max_result_bytes", .sym '='] := by
    decide +kernel
  have hlast := lex_readonly h
  -- what stands behind a number begins with a comma
  have hlastComma : ∀ c, (", readonly=2" ++ h.compressionSetting).toList.head? = some c →
      isWord c = false := by
    intro c hc
    exact isWord_comma (s := "readonly=2" ++ h.compressionSetting) c
      (by rw [← String.append_assoc]; exact hc)
  cases streaming with
  | false =>
    have hrest := lex_numeral (numeral_u64 h.queryTimeoutSecs) htime (by decide +kernel) hlast
      hlastComma
    have htext : h.appendSettings sql false = sql ++ (" SETTINGS max_execution_time="
        ++ toString h.queryTimeoutSecs ++ (", readonly=2" ++ h.compressionSetting)) := by
      simp only [HttpDriver.appendSettings, String.append_assoc, Bool.false_eq_true, if_false]
    rw [htext, lex_concat (c := ' ') hlex hends (by simp), hrest]
    simp [HttpDriver.settings, HttpDriver.setting]
  | true =>
    have hsize := lex_numeral (numeral_u64 h.maxResultBytes) hmost (by decide +kernel) hlast
      hlastComma
    have hsizeComma : ∀ c, (", max_result_bytes=" ++ toString h.maxResultBytes
        ++ (", readonly=2" ++ h.compressionSetting)).toList.head? = some c → isWord c = false := by
      intro c hc
      rw [String.append_assoc, String.toList_append] at hc
      cases hc
      decide
    have hrest := lex_numeral (numeral_u64 h.queryTimeoutSecs) htime (by decide +kernel) hsize
      hsizeComma
    have htext : h.appendSettings sql true = sql ++ (" SETTINGS max_execution_time="
        ++ toString h.queryTimeoutSecs ++ (", max_result_bytes=" ++ toString h.maxResultBytes
        ++ (", readonly=2" ++ h.compressionSetting))) := by
      simp only [HttpDriver.appendSettings, String.append_assoc, if_true]
    rw [htext, lex_concat (c := ' ') hlex hends (by simp), hrest]
    simp [HttpDriver.settings, HttpDriver.setting]

/-! ## The statements that are built from a path -/

/-- A builder's text leaves nothing open: how it ends is decided by its template's last piece. -/
theorem Builder.endsAt_build (b : Builder) {value : Field → String}
    (hlast : b.template.lastMode.endsAt ' ' = true)
    (h : ∀ name, .hole .ident name ∈ b.template → '\\' ∉ (value name).toList) :
    (run .start (b.build value).toList).2.endsAt ' ' = true := by
  rw [b.render, Template.run_render b.template b.wellFormed]
  · exact hlast
  · intro q name hmem
    cases q with
    | str => exact quotes_quoteString (value name)
    | ident => exact quotes_quoteIdent (h name hmem)

/-- A builder's text is posted as its own tokens with the settings behind them. -/
theorem Builder.lex_posted (b : Builder) (h : HttpDriver) {value : Field → String}
    (hlast : b.template.lastMode.endsAt ' ' = true)
    (hvalue : ∀ name, .hole .ident name ∈ b.template → '\\' ∉ (value name).toList)
    (streaming : Bool) :
    lex (h.appendSettings (b.build value) streaming)
      = some (b.template.slots.map (Slot.fill value) ++ h.settings streaming) :=
  lex_appendSettings h (b.lex_build hvalue) (b.endsAt_build hlast hvalue) streaming

/-! ## The tail query -/

/-- The tail query up to its key. -/
def tailHead (part : Option String) : Template Field :=
  [.text "SELECT * FROM ", .hole .ident .database, .text ".", .hole .ident .table]
    ++ match part with
      | some _ => [.text " WHERE _partition_id = ", .hole .str .partition, .text " ORDER BY "]
      | none => [.text " ORDER BY "]

/-- What comes behind the key: the limit and the format. -/
def tailEnd (limit : UInt32) : String :=
  " LIMIT " ++ toString limit ++ " FORMAT TabSeparatedWithNames"

def tailValue (db tbl : String) (part : Option String) : Field → String
  | .database => db
  | .table => tbl
  | .partition => part.getD ""

theorem sqlSelectTail_eq (db tbl orderExpr : String) (part : Option String) (limit : UInt32) :
    sqlSelectTail db tbl orderExpr part limit
      = (tailHead part).render quoteAs (tailValue db tbl part)
        ++ (orderClause orderExpr ++ tailEnd limit) := by
  cases part with
  | none | some part =>
    dsimp only [sqlSelectTail, tailHead, tailEnd, tailValue, List.cons_append, List.nil_append,
      Template.render, quoteAs, Option.getD_some]
    simp only [String.append_assoc, String.append_empty]

/-- Up to its key the tail query is read as written, and nothing is left open. -/
theorem run_tailHead {db tbl : String} (hdb : '\\' ∉ db.toList) (htbl : '\\' ∉ tbl.toList)
    (part : Option String) :
    run .start ((tailHead part).render quoteAs (tailValue db tbl part)).toList
      = ((tailHead part).slots.map (Slot.fill (tailValue db tbl part)), .start) := by
  -- which partition makes no difference to the template
  have hnone : (tailHead none).wellFormed = true ∧ (tailHead none).lastMode = .start := by
    decide +kernel
  have hsome : (tailHead (some "")).wellFormed = true ∧ (tailHead (some "")).lastMode = .start := by
    decide +kernel
  obtain ⟨hwf, hlast⟩ : (tailHead part).wellFormed = true ∧ (tailHead part).lastMode = .start := by
    cases part with
    | none => exact hnone
    | some part => exact hsome
  have hquotes : ∀ q name, .hole q name ∈ tailHead part →
      Quotes q (quoteAs q (tailValue db tbl part name)) (tailValue db tbl part name) := by
    intro q name hmem
    cases q with
    | str => exact quotes_quoteString _
    | ident =>
      refine quotes_quoteIdent ?_
      cases name with
      | database => exact hdb
      | table => exact htbl
      | partition => cases part <;> simp [tailHead] at hmem
  refine run_of_lex (Template.lex_render _ hwf hquotes) ?_
  rw [Template.run_render _ hwf hquotes, hlast]

theorem lex_tailEnd (limit : UInt32) :
    lex (tailEnd limit) = some [.word "LIMIT", .word (toString limit), .word "FORMAT",
      .word "TabSeparatedWithNames"] := by
  have hlimit : lex " LIMIT " = some [.word "LIMIT"] := by decide +kernel
  have hformat : lex " FORMAT TabSeparatedWithNames"
      = some [.word "FORMAT", .word "TabSeparatedWithNames"] := by decide +kernel
  refine lex_numeral (numeral_u32 limit) hlimit (by decide +kernel) hformat ?_
  intro c hc
  have hspace : " FORMAT TabSeparatedWithNames".toList.head? = some ' ' := by decide +kernel
  rw [hspace] at hc
  cases hc
  decide

/-- The end of the tail query, behind the key, leaves nothing open either. -/
theorem endsAt_tailEnd (limit : UInt32) :
    (run .start (tailEnd limit).toList).2.endsAt ' ' = true := by
  have hlimit : run .start " LIMIT ".toList = ([.word "LIMIT"], .start) := by decide +kernel
  have hnumber := run_start_word (numeral_u32 limit).ne_nil fun c hc => (numeral_u32 limit).isWord hc
  have hword : (run .start (" LIMIT " ++ toString limit).toList).2 = .word (toString limit).toList := by
    rw [run_append_start hlimit, hnumber]
  have hends : (run .start (" LIMIT " ++ toString limit).toList).2.endsAt ' ' = true := by
    rw [hword]
    rfl
  rw [tailEnd, mode_append hends (by decide +kernel)]
  decide +kernel

/-- **Whatever the key is**, what is posted begins with the query of the file's own table, as far
    as the key. A key can spoil what stands behind it, the
    settings included, but not what stands in front of it. -/
theorem tail_begins {db tbl : String} (hdb : '\\' ∉ db.toList) (htbl : '\\' ∉ tbl.toList)
    (h : HttpDriver) (orderExpr : String) (part : Option String) (limit : UInt32) :
    (tailHead part).slots.map (Slot.fill (tailValue db tbl part))
      <+: (run .start (h.appendSettings (sqlSelectTail db tbl orderExpr part limit) false).toList).1 := by
  obtain ⟨rest, hrest⟩ : ∃ rest, h.appendSettings (sqlSelectTail db tbl orderExpr part limit) false
      = (tailHead part).render quoteAs (tailValue db tbl part) ++ rest := by
    rw [sqlSelectTail_eq]
    simp only [HttpDriver.appendSettings, String.append_assoc, Bool.false_eq_true, if_false]
    exact ⟨_, rfl⟩
  rw [hrest, run_append_start (run_tailHead hdb htbl part)]
  exact List.prefix_append _ _

/-- A key that leaves nothing open is where the key belongs, and the settings are settings. -/
theorem lex_tail_posted {db tbl orderExpr : String} (hdb : '\\' ∉ db.toList)
    (htbl : '\\' ∉ tbl.toList) (h : HttpDriver) {key : List Token}
    (hkey : lex (orderClause orderExpr) = some key)
    (hends : (run .start (orderClause orderExpr).toList).2.endsAt ' ' = true)
    (part : Option String) (limit : UInt32) :
    lex (h.appendSettings (sqlSelectTail db tbl orderExpr part limit) false)
      = some ((tailHead part).slots.map (Slot.fill (tailValue db tbl part)) ++ key
        ++ [.word "LIMIT", .word (toString limit), .word "FORMAT", .word "TabSeparatedWithNames"]
        ++ h.settings false) := by
  have hspace : (tailEnd limit).toList.head? = some ' ' := by
    rw [tailEnd, String.append_assoc, String.toList_append]
    rfl
  have hhead := run_tailHead hdb htbl part
  have hlex : lex (sqlSelectTail db tbl orderExpr part limit)
      = some ((tailHead part).slots.map (Slot.fill (tailValue db tbl part)) ++ (key
        ++ [.word "LIMIT", .word (toString limit), .word "FORMAT", .word "TabSeparatedWithNames"])) := by
    rw [sqlSelectTail_eq, lex_append_start hhead, lex_concat hkey hends hspace, lex_tailEnd]
    rfl
  have hopen : (run .start (sqlSelectTail db tbl orderExpr part limit).toList).2.endsAt ' ' = true := by
    rw [sqlSelectTail_eq, run_append_start hhead, mode_append hends hspace]
    exact endsAt_tailEnd limit
  rw [lex_appendSettings h hlex hopen]
  simp only [List.append_assoc]

/-! ## The kill -/

theorem lex_killQuery (queryId : String) :
    lex (HttpDriver.killQuery queryId).body = some [.word "KILL", .word "QUERY", .word "WHERE",
      .word "query_id", .sym '=', .quoted .str queryId, .word "ASYNC"] := by
  have hhead : run .start "KILL QUERY WHERE query_id = ".toList
      = ([.word "KILL", .word "QUERY", .word "WHERE", .word "query_id", .sym '='], .start) := by
    decide +kernel
  have hasync : lex " ASYNC" = some [.word "ASYNC"] := by decide +kernel
  have hvalue : lex (quoteString queryId ++ " ASYNC") = (lex " ASYNC").map (.quoted .str queryId :: ·) :=
    (quotes_quoteString queryId).lex (by decide +kernel)
  have hbody : (HttpDriver.killQuery queryId).body
      = "KILL QUERY WHERE query_id = " ++ (quoteString queryId ++ " ASYNC") := String.append_assoc
  rw [hbody, lex_append_start hhead, hvalue, hasync]
  simp

end Driver
end ClickFs
