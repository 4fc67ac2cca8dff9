import ClickFs.Driver
import ClickFs.Lib.Sql

/-!
# Quoting, read back

`quote_string` and `quote_ident` against the lexer: what they write is read as one quoted
token, up to its closing quote, and decodes to what went in. For strings there is nothing to
ask of the value. `quote_ident` leaves backslashes alone, so an identifier must not have one.

`quote_string` replaces in the whole text twice, first the backslashes and then the quotes.
The order matters: the other way round the backslash in front of a quote would be doubled
in its turn and the quote would end the literal. Taken together the two replacements work
on each character by itself (`escapeChar`), and that is what the induction is over.
-/

set_option autoImplicit false

namespace ClickFs
namespace Driver

open Sql

/-! ## `quote_string` -/

/-- What the two replacements make of one character. -/
def escapeChar (c : Char) : List Char :=
  if c = '\\' then ['\\', '\\'] else if c = '\'' then ['\\', '\''] else [c]

theorem flatMap_escapeChar (cs : List Char) :
    (cs.flatMap fun c => if c = '\\' then ['\\', '\\'] else [c]).flatMap
      (fun c => if c = '\'' then ['\\', '\''] else [c]) = cs.flatMap escapeChar := by
  induction cs with
  | nil => rfl
  | cons c cs ih =>
    rw [List.flatMap_cons, List.flatMap_append, ih, List.flatMap_cons]
    by_cases hslash : c = '\\'
    · subst hslash
      rfl
    · simp [escapeChar, hslash]

theorem quoteString_toList (s : String) :
    (quoteString s).toList = '\'' :: (s.toList.flatMap escapeChar ++ ['\'']) := by
  rw [← flatMap_escapeChar]
  simp [quoteString, replaceChar]

/-- A character comes back from its escaped form: the lexer is inside the literal before and
    after, one character further on. -/
theorem run_escapeChar (value : List Char) (c : Char) :
    run (.quoted .str value) (escapeChar c) = ([], .quoted .str (value ++ [c])) := by
  unfold escapeChar
  split
  · rename_i hslash
    subst hslash
    rfl
  · split
    · rename_i hquote
      subst hquote
      rfl
    · rename_i hslash hquote
      have hquote : c ≠ Quote.str.char := hquote
      simp [run, Mode.step, hslash, hquote]

theorem run_escaped (value cs : List Char) :
    run (.quoted .str value) (cs.flatMap escapeChar) = ([], .quoted .str (value ++ cs)) := by
  induction cs generalizing value with
  | nil => simp [run]
  | cons c cs ih =>
    rw [List.flatMap_cons, run_append, run_escapeChar, ih]
    simp

/-- A quoted string is read up to its closing quote, as the string. -/
theorem quotes_quoteString (s : String) : Quotes .str (quoteString s) s := by
  refine ⟨by rw [quoteString_toList]; rfl, ?_⟩
  rw [quoteString_toList]
  have hopen (cs : List Char) : run .start ('\'' :: cs) = run (.quoted .str []) cs := rfl
  rw [hopen, run_append, run_escaped]
  rfl

/-! ## `quote_ident` -/

theorem run_ident {cs : List Char} (h : '\\' ∉ cs) (value : List Char) :
    run (.quoted .ident value)
      (cs.flatMap fun c => if c = Quote.ident.char then [Quote.ident.char, Quote.ident.char] else [c])
      = ([], .quoted .ident (value ++ cs)) := by
  induction cs generalizing value with
  | nil => simp [run]
  | cons c cs ih =>
    simp only [List.mem_cons, not_or] at h
    obtain ⟨hc, hcs⟩ := h
    rw [List.flatMap_cons, run_append]
    have hchar : run (.quoted .ident value)
        (if c = Quote.ident.char then [Quote.ident.char, Quote.ident.char] else [c])
        = ([], .quoted .ident (value ++ [c])) := by
      split
      · rename_i hquote
        subst hquote
        rfl
      · rename_i hquote
        simp [run, Mode.step, Ne.symm hc, hquote]
    rw [hchar, ih hcs]
    simp

/-- A quoted identifier is read up to its closing quote, as the identifier, when there is no
    backslash in it. A server would read one as the beginning of an escape. -/
theorem quotes_quoteIdent {s : String} (h : '\\' ∉ s.toList) : Quotes .ident (quoteIdent s) s := by
  have htext : (quoteIdent s).toList = Quote.ident.char :: ((s.toList.flatMap fun c =>
      if c = Quote.ident.char then [Quote.ident.char, Quote.ident.char] else [c])
        ++ [Quote.ident.char]) := by
    simp only [quoteIdent, replaceChar, String.toList_append, String.toList_ofList]
    rfl
  refine ⟨by rw [htext]; rfl, ?_⟩
  rw [htext]
  have hopen (cs : List Char) :
      run .start (Quote.ident.char :: cs) = run (.quoted .ident []) cs := rfl
  rw [hopen, run_append, run_ident h]
  rfl

/-! ## Any string, in any query -/

/-- **Quoting round-trips.** Whatever the string, and whatever follows it but a single
    quote, the first token is the string, all of what `quote_string` wrote and nothing else
    is consumed, and the rest is lexed as it stands. -/
theorem quoteString_roundtrip (s rest : String) (h : rest.toList.head? ≠ some '\'') :
    next .start (quoteString s ++ rest).toList = some (.quoted .str s, rest.toList) ∧
      lex (quoteString s ++ rest) = (lex rest).map (.quoted .str s :: ·) := by
  have hquotes := quotes_quoteString s
  constructor
  · rw [String.toList_append]
    exact hquotes.next h
  · exact hquotes.lex h

/-- A backslash at the end, in front of the rest of a query. -/
theorem quoteString_roundtrip_backslash :
    next .start (quoteString "it's\\" ++ " OR 1").toList = some (.quoted .str "it's\\", " OR 1".toList) ∧
      lex (quoteString "it's\\" ++ " OR 1")
        = (lex " OR 1").map (.quoted .str "it's\\" :: ·) :=
  quoteString_roundtrip "it's\\" " OR 1" (by decide)

end Driver
end ClickFs
