import Mathlib.Data.List.Perm.Basic
import Mathlib.Data.String.Basic
import ClickFs.Driver
import ClickFs.Stream.Handle

/-!
# `stream.rs` — the rows of the tail

The tail query asks for the last rows in descending order, since SQL has no other way of
asking for the last rows. `reverseTsvRows` turns its answer around, so that the buffer
reads "oldest first" under the same header, as the rest of the file does.

A body is its lines with a newline between any two. One that ends in a newline has an
empty piece behind it, and only that piece is not a row: rows may be empty too, in a table
of one column of strings. The source tells the two apart by popping one empty piece, and
`BodyCase` follows it.

That nothing is lost matters beyond the rows themselves. The buffer is pinned by its
length, so a byte more or less would shift every row in the window.
-/

set_option autoImplicit false

namespace ClickFs
namespace Stream

open Rust

/-- `body.split('\n')` -/
def splitLf (body : String) : List (List Char) := body.toList.splitOn '\n'

/-- `lines.join("\n")` -/
def joinLf (lines : List (List Char)) : List Char := ['\n'].intercalate lines

/-- The header stays in place. Just a header (or nothing): nothing to reverse. -/
def joinReversed : List (List Char) → List Char
  | header :: row :: rows => header ++ '\n' :: joinLf (row :: rows).reverse
  | lines => joinLf lines

/-- Reverse the data lines of a TabSeparatedWithNames body. The header line stays in place,
    and the result has exactly one trailing newline if the input did. -/
def reverseTsvRows (body : String) : String :=
  if body.isEmpty then ""
  else
    let lines := splitLf body
    -- the piece behind the last newline
    let trailingEmpty := lines.getLast? == some []
    let lines := if trailingEmpty then lines.dropLast else lines
    let out := joinReversed lines
    String.ofList (if trailingEmpty then out ++ ['\n'] else out)

/-! ## Lines -/

section

variable {h : List Char} {rows rows' : List (List Char)}

theorem joinLf_cons (h : List Char) (rows : List (List Char)) :
    joinLf (h :: rows) = h ++ rows.flatMap fun row => '\n' :: row := by
  induction rows generalizing h with
  | nil => simp [joinLf]
  | cons row rows ih =>
    have ih := ih row
    rw [joinLf] at ih
    rw [joinLf, List.intercalate_cons_cons, ih, List.flatMap_cons]
    simp

/-- A newline at the end is an empty piece more. -/
theorem joinLf_terminated (h : List Char) (rows : List (List Char)) :
    joinLf (h :: rows) ++ ['\n'] = joinLf (h :: (rows ++ [[]])) := by
  rw [joinLf_cons, joinLf_cons, List.flatMap_append]
  simp

theorem splitLf_joinLf (hlines : ∀ line ∈ h :: rows, '\n' ∉ line) :
    splitLf (String.ofList (joinLf (h :: rows))) = h :: rows := by
  rw [splitLf, String.toList_ofList, joinLf, List.splitOn_intercalate _ hlines (List.cons_ne_nil _ _)]

theorem splitLf_terminated (hlines : ∀ line ∈ h :: rows, '\n' ∉ line) :
    splitLf (String.ofList (joinLf (h :: rows) ++ ['\n'])) = h :: (rows ++ [[]]) := by
  rw [joinLf_terminated]
  apply splitLf_joinLf
  intro line hline
  rw [← List.cons_append, List.mem_append, List.mem_singleton] at hline
  rcases hline with hline | rfl
  · exact hlines line hline
  · exact List.not_mem_nil

/-- The rows may come in any order: the text has the same characters, and so the same length in
    bytes. -/
theorem joinLf_perm (hperm : rows'.Perm rows) : (joinLf (h :: rows')).Perm (joinLf (h :: rows)) := by
  rw [joinLf_cons, joinLf_cons]
  exact (hperm.flatMap_right _).append_left h

end

theorem ofList_joinLf_splitLf (body : String) : String.ofList (joinLf (splitLf body)) = body := by
  rw [joinLf, splitLf, List.intercalate_splitOn, String.ofList_toList]

/-! ## The rows turned around -/

/-- What there is to a body: nothing, lines that are all ended, or lines of which the last one is
    not. -/
inductive BodyCase : String → Prop
  | empty : BodyCase ""
  | terminated (h : List Char) (rows : List (List Char)) (hlines : ∀ line ∈ h :: rows, '\n' ∉ line) :
      BodyCase (String.ofList (joinLf (h :: rows) ++ ['\n']))
  | cut (h : List Char) (rows : List (List Char)) (hlines : ∀ line ∈ h :: rows, '\n' ∉ line)
      (hlast : (h :: rows).getLast? ≠ some []) : BodyCase (String.ofList (joinLf (h :: rows)))

theorem body_cases (body : String) : BodyCase body := by
  have hlines : ∀ line ∈ splitLf body, '\n' ∉ line := not_mem_of_mem_splitOn
  rw [← ofList_joinLf_splitLf body]
  cases hsplit : splitLf body with
  | nil => exact absurd hsplit (List.splitOn_ne_nil _ _)
  | cons h rows =>
    rw [hsplit] at hlines
    by_cases hlast : (h :: rows).getLast? = some []
    · rcases List.eq_nil_or_concat rows with rfl | ⟨init, last, rfl⟩
      · rw [List.getLast?_singleton, Option.some.injEq] at hlast
        subst hlast
        exact .empty
      · have hempty : last = [] := by
          rwa [List.concat_eq_append, ← List.cons_append, List.getLast?_concat,
            Option.some.injEq] at hlast
        subst hempty
        rw [List.concat_eq_append, ← joinLf_terminated]
        refine .terminated h init fun line hline => hlines line ?_
        rw [List.concat_eq_append, ← List.cons_append]
        exact List.mem_append_left _ hline
    · exact .cut h rows hlines hlast

section

variable {h : List Char} {rows : List (List Char)}

theorem joinReversed_cons (h : List Char) (rows : List (List Char)) :
    joinReversed (h :: rows) = joinLf (h :: rows.reverse) := by
  cases rows with
  | nil => rfl
  | cons row rows =>
    rw [joinReversed]
    cases hrev : (row :: rows).reverse with
    | nil => exact absurd (List.reverse_eq_nil_iff.mp hrev) (List.cons_ne_nil _ _)
    | cons row' rows' =>
      rw [joinLf, joinLf, List.intercalate_cons_cons, List.append_assoc]
      rfl

theorem reverseTsvRows_terminated (hlines : ∀ line ∈ h :: rows, '\n' ∉ line) :
    reverseTsvRows (String.ofList (joinLf (h :: rows) ++ ['\n']))
      = String.ofList (joinLf (h :: rows.reverse) ++ ['\n']) := by
  have hne : (String.ofList (joinLf (h :: rows) ++ ['\n'])).isEmpty = false := by
    simp [String.isEmpty_eq_false_iff]
  have hlast : (h :: (rows ++ [[]])).getLast? = some [] := by
    rw [← List.cons_append, List.getLast?_concat]
  have hinit : (h :: (rows ++ [[]])).dropLast = h :: rows := by
    rw [← List.cons_append, List.dropLast_concat]
  rw [reverseTsvRows, hne, splitLf_terminated hlines]
  simp only [hlast, hinit, beq_self_eq_true, if_true, Bool.false_eq_true, if_false,
    joinReversed_cons]

theorem reverseTsvRows_cut (hlines : ∀ line ∈ h :: rows, '\n' ∉ line)
    (hlast : (h :: rows).getLast? ≠ some []) :
    reverseTsvRows (String.ofList (joinLf (h :: rows)))
      = String.ofList (joinLf (h :: rows.reverse)) := by
  have hne : (String.ofList (joinLf (h :: rows))).isEmpty = false := by
    rw [String.isEmpty_eq_false_iff]
    intro hempty
    have hnil : joinLf (h :: rows) = [] := by simpa using congrArg String.toList hempty
    rw [joinLf_cons, List.append_eq_nil_iff] at hnil
    cases rows with
    | nil => exact hlast (by rw [hnil.1]; rfl)
    | cons row rows => simp at hnil
  have htrailing : ((h :: rows).getLast? == some []) = false := by
    rwa [beq_eq_false_iff_ne]
  rw [reverseTsvRows, hne, splitLf_joinLf hlines]
  simp only [htrailing, Bool.false_eq_true, if_false, joinReversed_cons]

end

/-! ## What stays -/

/-- As long, and with the same lines under the same header. The lines are compared as a multiset,
    for rows may repeat. -/
structure SameLines (body out : String) : Prop where
  size : out.utf8ByteSize = body.utf8ByteSize
  lines : (splitLf out).Perm (splitLf body)
  header : (splitLf out).head? = (splitLf body).head?

theorem utf8ByteSize_of_perm {cs cs' : List Char} (h : cs.Perm cs') :
    (String.ofList cs).utf8ByteSize = (String.ofList cs').utf8ByteSize := by
  rw [String.utf8ByteSize_ofList, String.utf8ByteSize_ofList]
  induction h with
  | nil => rfl
  | cons c _ ih => rw [String.utf8Len_cons, String.utf8Len_cons, ih]
  | swap c c' cs =>
    simp only [String.utf8Len_cons]
    omega
  | trans _ _ ih ih' => exact ih.trans ih'

theorem mem_reverse_lines {h : List Char} {rows : List (List Char)}
    (hlines : ∀ line ∈ h :: rows, '\n' ∉ line) : ∀ line ∈ h :: rows.reverse, '\n' ∉ line := by
  intro line hline
  apply hlines
  rwa [List.mem_cons, List.mem_reverse, ← List.mem_cons] at hline

/-- `reverse_tsv_rows` keeps length, header and lines whatever the body is, well formed or cut
    off. -/
theorem sameLines_reverseTsvRows (body : String) : SameLines body (reverseTsvRows body) := by
  cases body_cases body with
  | empty => exact ⟨rfl, .refl _, rfl⟩
  | terminated h rows hlines =>
    rw [reverseTsvRows_terminated hlines]
    have hperm := List.reverse_perm rows
    refine ⟨?_, ?_, ?_⟩
    · exact utf8ByteSize_of_perm ((joinLf_perm hperm).append_right _)
    · rw [splitLf_terminated hlines, splitLf_terminated (mem_reverse_lines hlines)]
      exact (hperm.append_right _).cons h
    · rw [splitLf_terminated hlines, splitLf_terminated (mem_reverse_lines hlines)]
      rfl
  | cut h rows hlines hlast =>
    rw [reverseTsvRows_cut hlines hlast]
    have hperm := List.reverse_perm rows
    refine ⟨?_, ?_, ?_⟩
    · exact utf8ByteSize_of_perm (joinLf_perm hperm)
    · rw [splitLf_joinLf hlines, splitLf_joinLf (mem_reverse_lines hlines)]
      exact hperm.cons h
    · rw [splitLf_joinLf hlines, splitLf_joinLf (mem_reverse_lines hlines)]
      rfl

/-- A body that is cut off within a line does not end in a newline. -/
theorem getLast?_cut {h : List Char} {rows : List (List Char)}
    (hlines : ∀ line ∈ h :: rows, '\n' ∉ line) (hlast : (h :: rows).getLast? ≠ some []) :
    (String.ofList (joinLf (h :: rows))).toList.getLast? ≠ some '\n' := by
  rw [String.toList_ofList, joinLf_cons]
  intro hend
  rcases List.eq_nil_or_concat rows with rfl | ⟨init, last, rfl⟩
  · rw [List.flatMap_nil, List.append_nil] at hend
    exact hlines h List.mem_cons_self (List.mem_of_getLast? hend)
  · rw [List.concat_eq_append, ← List.cons_append, List.getLast?_concat] at hlast
    have hne : last ≠ [] := fun hnil => hlast (congrArg some hnil)
    rw [List.concat_eq_append, List.flatMap_append, List.flatMap_singleton, ← List.append_assoc,
      List.getLast?_append_of_ne_nil _ (List.cons_ne_nil _ _),
      List.getLast?_cons_of_ne_nil hne] at hend
    exact hlines last (by simp) (List.mem_of_getLast? hend)

theorem body_cons (h : String) (rows : List String) :
    body (h :: rows) = String.ofList (joinLf (h.toList :: rows.map String.toList) ++ ['\n']) := by
  apply String.toList_inj.mp
  rw [body, String.toList_ofList, String.toList_ofList, joinLf_cons]
  induction rows generalizing h with
  | nil => simp
  | cons row rows ih =>
    rw [List.flatMap_cons, ih row]
    simp

/-- **The body of the tail is turned around.** A newline-terminated body comes back with the
    same header over its rows in the other order, empty rows and equal rows among them, so
    it keeps its length and its lines, and turned around again it is itself. -/
theorem reverseTsvRows_spec :
    (∀ h rows, (∀ line ∈ h :: rows, '\n' ∉ line.toList) →
      reverseTsvRows (body (h :: rows)) = body (h :: rows.reverse)) ∧
    ∀ s, s.toList.getLast? = some '\n' →
      SameLines s (reverseTsvRows s) ∧ reverseTsvRows (reverseTsvRows s) = s := by
  constructor
  · intro h rows hlines
    rw [body_cons, body_cons, List.map_reverse]
    apply reverseTsvRows_terminated
    intro line hline
    rw [← List.map_cons, List.mem_map] at hline
    obtain ⟨l, hl, rfl⟩ := hline
    exact hlines l hl
  · intro s hs
    refine ⟨sameLines_reverseTsvRows s, ?_⟩
    cases body_cases s with
    | empty => cases hs
    | terminated h rows hlines =>
      rw [reverseTsvRows_terminated hlines, reverseTsvRows_terminated (mem_reverse_lines hlines),
        List.reverse_reverse]
    | cut h rows hlines hlast =>
      exact absurd hs (getLast?_cut hlines hlast)

/-! ## The buffer -/

/-- A Rust `String` is one allocation, which bounds its length in bytes. -/
abbrev Text := { s : String // s.utf8ByteSize ≤ isizeMax }

theorem length_utf8 (s : String) : s.toUTF8.data.toList.length = s.utf8ByteSize := rfl

theorem length_utf8_reverseTsvRows (body : Text) :
    (reverseTsvRows body.1).toUTF8.data.toList.length ≤ isizeMax := by
  rw [length_utf8, (sameLines_reverseTsvRows body.1).size]
  exact body.2

/-- `materialize_tail`: what an `answer` brings. The query is a parameter, as it goes to the
    server. -/
def materializeTail (query : String → Except QueryError Text) (tail : TailContext) :
    Except QueryError Bytes :=
  match query (Driver.sqlSelectTail tail.db tail.tbl tail.orderExpr tail.partition tail.rows) with
  | .error e => .error e
  | .ok body => .ok ⟨(reverseTsvRows body.1).toUTF8.data.toList, length_utf8_reverseTsvRows body⟩

/-- The buffer is as long as the answer, so where it is pinned to the end of the file is
    decided by the answer's length alone. -/
theorem materializeTail_len {query : String → Except QueryError Text} {tail : TailContext}
    {buf : Bytes} (h : materializeTail query tail = .ok buf) :
    ∃ body, query (Driver.sqlSelectTail tail.db tail.tbl tail.orderExpr tail.partition tail.rows)
      = .ok body ∧ buf.len = body.1.utf8ByteSize := by
  rw [materializeTail] at h
  split at h
  · cases h
  · rename_i body hquery
    cases h
    refine ⟨body, hquery, ?_⟩
    rw [Bytes.len, length_utf8, (sameLines_reverseTsvRows body.1).size]

end Stream
end ClickFs
