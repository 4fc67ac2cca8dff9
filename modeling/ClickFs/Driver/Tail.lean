import ClickFs.Driver

/-!
# The `ORDER BY` of the tail query

`sql_select_tail` gets the table's key as `system.tables` writes it, expressions joined by
", ", and has to put DESC after each. It cuts the text at every comma. That finds the
expressions when none of them has a comma of its own, and only then: a function of two
arguments is cut in the middle (`clause_eq_iff`).

The statements are about the text of the clause, which they compare with the one that has
a DESC behind every expression of the key. What a server makes of an expression that was
cut in two is not part of the program.
-/

set_option autoImplicit false

namespace ClickFs
namespace Driver

open Rust

/-! ## White space -/

/-- No white space at either end, which is how `system.tables` reports an expression. -/
structure Trimmed (s : String) : Prop where
  head : s.toList.head?.any isWhitespace = false
  last : s.toList.getLast?.any isWhitespace = false

theorem Trimmed.trim_eq {s : String} (h : Trimmed s) : trim s = s := by
  obtain ⟨hhead, hlast⟩ := h
  rw [← String.toList_inj, trim, String.toList_ofList]
  have hdrop : s.toList.dropWhile isWhitespace = s.toList := by
    cases hs : s.toList with
    | nil => rfl
    | cons c cs =>
      rw [hs] at hhead
      exact List.dropWhile_cons_of_neg (by simpa using hhead)
  rw [hdrop]
  refine List.rdropWhile_eq_self_iff.mpr fun hne => ?_
  rw [List.getLast?_eq_some_getLast hne] at hlast
  simpa using hlast

theorem Trimmed.append {s t : String} (hs : Trimmed s) (ht : Trimmed t) (hsne : s ≠ "")
    (htne : t ≠ "") (sep : String) : Trimmed (s ++ sep ++ t) := by
  have hsne : s.toList ≠ [] := by simpa using hsne
  have htne : t.toList ≠ [] := by simpa using htne
  constructor
  · rw [String.append_assoc, String.toList_append, List.head?_append_of_ne_nil _ hsne]
    exact hs.head
  · rw [String.toList_append, List.getLast?_append_of_ne_nil _ htne]
    exact ht.last

theorem trim_space (s : String) : trim (" " ++ s) = trim s := by
  have hspace : isWhitespace ' ' = true := by decide
  simp [trim, List.dropWhile_cons_of_pos hspace]

theorem mem_of_mem_trim {s : String} {c : Char} (h : c ∈ (trim s).toList) : c ∈ s.toList := by
  rw [trim, String.toList_ofList] at h
  exact (List.dropWhile_suffix _).subset ((List.rdropWhile_prefix _ _).subset h)

/-- Trimming does not leave room for what is put after it. So a text with DESC behind it is never
    the text itself. -/
theorem trim_append_desc_ne (s : String) : trim s ++ " DESC" ≠ s := by
  intro h
  have hlist := congrArg String.toList h
  rw [String.toList_append, trim, String.toList_ofList] at hlist
  generalize s.toList = cs at hlist
  -- the text ends in "C", so nothing is trimmed there
  have hlast : cs.getLast? = some 'C' := by
    rw [← hlist]
    simp
  have hright : (cs.dropWhile isWhitespace).rdropWhile isWhitespace = cs.dropWhile isWhitespace := by
    refine List.rdropWhile_eq_self_iff.mpr fun hne => ?_
    obtain ⟨pre, hpre⟩ := List.dropWhile_suffix (l := cs) isWhitespace
    rw [← hpre, List.getLast?_append_of_ne_nil _ hne, List.getLast?_eq_some_getLast hne,
      Option.some.injEq] at hlast
    rw [hlast]
    decide
  rw [hright] at hlist
  -- nor at the front, where the text is longer than what is left of it
  cases hdrop : cs.dropWhile isWhitespace with
  | nil =>
    rw [hdrop] at hlist
    subst hlist
    revert hdrop
    decide
  | cons c rest =>
    have hc : isWhitespace c = false := by
      have hhead : cs.dropWhile isWhitespace ≠ [] := by simp [hdrop]
      simpa [hdrop] using List.head_dropWhile_not isWhitespace hhead
    rw [hdrop] at hlist
    rw [← hlist, List.cons_append, List.dropWhile_cons_of_neg (by simp [hc])] at hdrop
    have hlen := congrArg List.length hdrop
    simp at hlen

/-! ## The key -/

/-- An expression of a key: a text without white space around it. -/
structure KeyExpr where
  text : String
  ne_nil : text ≠ ""
  trimmed : Trimmed text

/-- The key as `system.tables` reports it: the expressions with ", " between them. -/
def reported (es : List KeyExpr) : String := ", ".intercalate (es.map KeyExpr.text)

/-- What the tail query is to order by: each expression with one DESC. -/
def descending (es : List KeyExpr) : String := ", ".intercalate (es.map fun e => e.text ++ " DESC")

theorem reported_singleton (e : KeyExpr) : reported [e] = e.text := by
  simp [reported]

theorem descending_singleton (e : KeyExpr) : descending [e] = e.text ++ " DESC" := by
  simp [descending]

theorem reported_cons {e : KeyExpr} {es : List KeyExpr} (h : es ≠ []) :
    reported (e :: es) = e.text ++ ", " ++ reported es := by
  rw [reported, List.map_cons, String.intercalate_cons_of_ne_nil (by simpa using h)]
  rfl

theorem descending_cons {e : KeyExpr} {es : List KeyExpr} (h : es ≠ []) :
    descending (e :: es) = e.text ++ " DESC" ++ ", " ++ descending es := by
  rw [descending, List.map_cons, String.intercalate_cons_of_ne_nil (by simpa using h)]
  rfl

theorem reported_trimmed {es : List KeyExpr} (h : es ≠ []) :
    Trimmed (reported es) ∧ reported es ≠ "" := by
  induction es with
  | nil => exact absurd rfl h
  | cons e es ih =>
    by_cases hes : es = []
    · subst hes
      rw [reported_singleton]
      exact ⟨e.trimmed, e.ne_nil⟩
    · obtain ⟨htrimmed, hne⟩ := ih hes
      rw [reported_cons hes]
      refine ⟨e.trimmed.append htrimmed e.ne_nil hne ", ", ?_⟩
      simp [String.append_eq_empty_iff, hne]

/-! ## The clause -/

/-- The text cut at its commas, DESC after each piece. -/
def clause (s : String) : String :=
  ", ".intercalate ((splitCommas s).map fun c => trim c ++ " DESC")

/-- A piece up to a comma is trimmed and gets its DESC, and the rest is treated in the same way. -/
theorem clause_comma {a : String} (h : ',' ∉ a.toList) (b : String) :
    clause (a ++ "," ++ b) = trim a ++ " DESC" ++ ", " ++ clause b := by
  have hsplit : splitCommas (a ++ "," ++ b) = a :: splitCommas b := by
    have hlist : (a ++ "," ++ b).toList = a.toList ++ ',' :: b.toList := by simp
    rw [splitCommas, hlist, List.splitOn_append_cons_self_of_not_mem h, List.map_cons,
      String.ofList_toList]
    rfl
  have hne : ((splitCommas b).map fun c => trim c ++ " DESC") ≠ [] := by
    simp [splitCommas, List.splitOn_ne_nil]
  rw [clause, hsplit, List.map_cons, String.intercalate_cons_of_ne_nil hne]
  rfl

theorem clause_space (s : String) : clause (" " ++ s) = clause s := by
  rw [clause, clause]
  refine congrArg _ ?_
  have hlist : (" " ++ s).toList = ' ' :: s.toList := by simp
  rw [splitCommas, hlist, List.splitOn_cons_eq_if_modifyHead, splitCommas]
  have hcomma : (' ' == ',') = false := by decide
  rw [hcomma]
  cases hsplit : s.toList.splitOn ',' with
  | nil => exact absurd hsplit (List.splitOn_ne_nil _ _)
  | cons piece pieces =>
    have hpiece : String.ofList (' ' :: piece) = " " ++ String.ofList piece := by
      rw [← String.toList_inj]
      simp
    simp [List.modifyHead, hpiece, trim_space]

theorem orderClause_eq {s : String} (h : Trimmed s) : orderClause s = clause s := by
  unfold orderClause
  rw [h.trim_eq]
  dsimp only
  split
  · rename_i hone
    have hcomma : ',' ∉ s.toList := by
      rcases Bool.or_eq_true_iff.mp hone with hnil | htuple
      · simp [String.isEmpty_iff.mp hnil]
      · rw [eq_of_beq htuple]
        decide
    rw [clause, splitCommas, List.splitOn_eq_singleton hcomma]
    simp [h.trim_eq]
  · rfl

/-- Cutting an expression at a comma of its own is seen right there, and nothing that comes later
    can make up for it. -/
theorem clause_ne {a : String} (h : ',' ∉ a.toList) (b c : String) :
    clause (a ++ "," ++ b) ≠ a ++ "," ++ c := by
  rw [clause_comma h]
  intro heq
  have hlist := congrArg String.toList heq
  -- the two differ in what stands before the first comma
  have hcut (xs ys : List Char) (hxs : ',' ∉ xs) : (xs ++ ',' :: ys).takeWhile (· != ',') = xs := by
    rw [List.takeWhile_append_of_pos]
    · simp
    · intro x hx
      exact bne_iff_ne.mpr fun hcomma => hxs (hcomma ▸ hx)
  have htrim : ',' ∉ (trim a ++ " DESC").toList := by
    rw [String.toList_append, List.mem_append, not_or]
    exact ⟨fun hmem => h (mem_of_mem_trim hmem), by decide⟩
  have hleft : (trim a ++ " DESC" ++ ", " ++ clause b).toList
      = (trim a ++ " DESC").toList ++ ',' :: ' ' :: (clause b).toList := by simp
  have hright : (a ++ "," ++ c).toList = a.toList ++ ',' :: c.toList := by simp
  rw [hleft, hright] at hlist
  have hpiece := congrArg (List.takeWhile (· != ',')) hlist
  rw [hcut _ _ htrim, hcut _ _ h] at hpiece
  exact trim_append_desc_ne a (String.toList_inj.mp hpiece)

theorem clause_of_no_comma {s : String} (h : ',' ∉ s.toList) : clause s = trim s ++ " DESC" := by
  rw [clause, splitCommas, List.splitOn_eq_singleton h]
  simp

/-- The clause is the one asked for exactly when no expression has a comma. The induction is on
    the expressions; the first one that has a comma decides. -/
theorem clause_eq_iff {es : List KeyExpr} (h : es ≠ []) :
    clause (reported es) = descending es ↔ ∀ e ∈ es, ',' ∉ e.text.toList := by
  induction es with
  | nil => exact absurd rfl h
  | cons e es ih =>
    by_cases hcomma : ',' ∈ e.text.toList
    · -- the first expression is cut at its first comma
      obtain ⟨as, bs, htext, hfirst⟩ := List.eq_append_cons_of_mem hcomma
      obtain ⟨a, b, htext, hfirst⟩ : ∃ a b : String, e.text = a ++ "," ++ b ∧ ',' ∉ a.toList := by
        refine ⟨String.ofList as, String.ofList bs, ?_, by simpa using hfirst⟩
        rw [← String.toList_inj, htext]
        simp
      refine iff_of_false ?_ fun hall => hall e List.mem_cons_self hcomma
      by_cases hes : es = []
      · subst hes
        have hone : a ++ "," ++ b ++ " DESC" = a ++ "," ++ (b ++ " DESC") := String.append_assoc
        rw [reported_singleton, descending_singleton, htext, hone]
        exact clause_ne hfirst _ _
      · have hkey (x y : String) : a ++ "," ++ b ++ x ++ y = a ++ "," ++ (b ++ x ++ y) := by
          simp only [String.append_assoc]
        have hdesc (x y z : String) : a ++ "," ++ b ++ x ++ y ++ z = a ++ "," ++ (b ++ x ++ y ++ z) := by
          simp only [String.append_assoc]
        rw [reported_cons hes, descending_cons hes, htext, hkey, hdesc]
        exact clause_ne hfirst _ _
    · have hfirst : ∀ P : Prop, (P ↔ ∀ e ∈ es, ',' ∉ e.text.toList) →
          (P ↔ ∀ e' ∈ e :: es, ',' ∉ e'.text.toList) := by
        intro P hP
        rw [hP, List.forall_mem_cons]
        exact (and_iff_right hcomma).symm
      by_cases hes : es = []
      · subst hes
        refine hfirst _ (iff_of_true ?_ (by simp))
        rw [reported_singleton, descending_singleton, clause_of_no_comma hcomma, e.trimmed.trim_eq]
      · refine hfirst _ ?_
        have hsep : e.text ++ ", " ++ reported es = e.text ++ "," ++ (" " ++ reported es) := by
          rw [← String.toList_inj]
          simp
        rw [← ih hes, reported_cons hes, hsep, clause_comma hcomma, clause_space,
          descending_cons hes, e.trimmed.trim_eq]
        exact String.append_right_inj _

/-! ## The query -/

/-- The tail query with the clause to order by. -/
def tailQuery (db tbl clause : String) (part : Option String) (limit : UInt32) : String :=
  "SELECT * FROM " ++ quoteIdent db ++ "." ++ quoteIdent tbl
    ++ (match part with
      | some part => " WHERE _partition_id = " ++ quoteString part
      | none => "")
    ++ " ORDER BY " ++ clause ++ " LIMIT " ++ toString limit ++ " FORMAT TabSeparatedWithNames"

theorem tailQuery_inj {db tbl c c' : String} {part : Option String} {limit : UInt32} :
    tailQuery db tbl c part limit = tailQuery db tbl c' part limit ↔ c = c' := by
  constructor
  · intro h
    unfold tailQuery at h
    exact (String.append_right_inj _).mp ((String.append_left_inj _).mp
      ((String.append_left_inj _).mp ((String.append_left_inj _).mp h)))
  · intro h
    rw [h]

/-- **One DESC for each expression of the key.** The tail query orders by every expression
    of the key, descending, if and only if no expression has a comma in it. -/
theorem tail_orders_iff (db tbl : String) (e : KeyExpr) (es : List KeyExpr) (part : Option String)
    (limit : UInt32) :
    sqlSelectTail db tbl (reported (e :: es)) part limit
        = tailQuery db tbl (descending (e :: es)) part limit ↔
      ∀ e' ∈ e :: es, ',' ∉ e'.text.toList := by
  have hne : e :: es ≠ [] := List.cons_ne_nil e es
  have hquery : sqlSelectTail db tbl (reported (e :: es)) part limit
      = tailQuery db tbl (orderClause (reported (e :: es))) part limit := rfl
  rw [hquery, tailQuery_inj, orderClause_eq (reported_trimmed hne).1]
  exact clause_eq_iff hne

/-- The key `intDiv(x, 10)` is cut between its arguments. -/
theorem intDiv_is_cut : ∃ e : KeyExpr, e.text = "intDiv(x, 10)" ∧
    sqlSelectTail "logs" "events" (reported [e]) none 10
      = tailQuery "logs" "events" "intDiv(x DESC, 10) DESC" none 10 ∧
    sqlSelectTail "logs" "events" (reported [e]) none 10
      ≠ tailQuery "logs" "events" (descending [e]) none 10 := by
  let e : KeyExpr := ⟨"intDiv(x, 10)", by decide, ⟨by decide, by decide⟩⟩
  have horder : orderClause (reported [e]) = "intDiv(x DESC, 10) DESC" := by decide +kernel
  have hquery : sqlSelectTail "logs" "events" (reported [e]) none 10
      = tailQuery "logs" "events" (orderClause (reported [e])) none 10 := rfl
  rw [horder] at hquery
  refine ⟨e, rfl, hquery, ?_⟩
  rw [hquery, Ne, tailQuery_inj]
  decide +kernel

end Driver
end ClickFs
