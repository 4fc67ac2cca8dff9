import Mathlib.Algebra.Group.Nat.Even
import Mathlib.Algebra.Order.Ring.Int
import Mathlib.Data.List.Induction

/-!
# Separators and escapes

A text that is cut at a separator, where a separator does not count that has an odd number
of escape characters before it. This is how cells are cut in Markdown, fields in a good many
line formats, and options in a configuration line. A reader needs one bit for it: whether what
comes next is hidden. That bit is what every recursion below carries, so that a text may be
taken up in the middle.

`escapeSep` puts an escape before every separator, which is what a writer does who forgets that
the escapes themselves would have to be escaped too. It hides every separator that was not
hidden, and it uncovers every one that was: `seps_escapeSep` says that what can be seen after it
is what could not be seen before it. So the output is cut where the input was not, exactly when
the input has a separator behind an odd run of escapes (`hidden_iff_odd_run`).

Nothing here is about a program: elements, separator and escape are of any type that can be
compared.
-/

set_option autoImplicit false

namespace Escape

variable {α : Type*} [DecidableEq α] {sep esc : α} {want b : Bool} {xs ys : List α}

/-- Whether what comes behind `xs` is hidden, if what comes before it is (`b`). Two escapes in a
    row hide nothing: the first one hides the second one. -/
def hidden (esc : α) (b : Bool) : List α → Bool
  | [] => b
  | x :: xs => hidden esc (x == esc && !b) xs

/-- How many separators are hidden, or are not, by what `want` asks for. Both counts are one
    definition because escaping turns the one into the other. -/
def seps (sep esc : α) (want b : Bool) : List α → Nat
  | [] => 0
  | x :: xs =>
    if x = sep then (if b = want then 1 else 0) + seps sep esc want false xs
    else seps sep esc want (x == esc && !b) xs

/-- The text cut at every separator that is not hidden. There is always one piece more than there
    are such separators (`length_pieces`). -/
def pieces (sep esc : α) (b : Bool) : List α → List (List α)
  | [] => [[]]
  | x :: xs =>
    if x = sep ∧ b = false then [] :: pieces sep esc false xs
    else (pieces sep esc (x == esc && !b) xs).modifyHead (x :: ·)

/-- How many escapes there are at the end. This is what a reader of the format counts by eye. -/
def run (esc : α) (xs : List α) : Nat := (xs.reverse.takeWhile (· == esc)).length

/-! ## What is hidden -/

theorem hidden_append (xs ys : List α) :
    hidden esc b (xs ++ ys) = hidden esc (hidden esc b xs) ys := by
  induction xs generalizing b with
  | nil => rfl
  | cons x xs ih => exact ih

/-- An odd number of escapes hides what comes behind them, and an even number does not: they hide
    each other in pairs. -/
theorem hidden_iff_odd_run (xs : List α) : hidden esc false xs = true ↔ Odd (run esc xs) := by
  induction xs using List.reverseRecOn with
  | nil => simp [hidden, run]
  | append_singleton xs x ih =>
    rw [hidden_append, run, List.reverse_append, List.reverse_singleton, List.singleton_append]
    by_cases hx : x = esc
    · subst hx
      rw [List.takeWhile_cons_of_pos (by simp), List.length_cons, Nat.odd_add_one, ← run, ← ih]
      simp [hidden]
    · rw [List.takeWhile_cons_of_neg (by simp [hx])]
      simp [hidden, hx]

/-! ## Separators -/

section

variable (hne : sep ≠ esc)

include hne

theorem seps_append (xs ys : List α) :
    seps sep esc want b (xs ++ ys)
      = seps sep esc want b xs + seps sep esc want (hidden esc b xs) ys := by
  induction xs generalizing b with
  | nil => simp [seps, hidden]
  | cons x xs ih =>
    rw [List.cons_append, seps, seps, hidden]
    by_cases hx : x = sep
    · subst hx
      simp only [if_true, ih, beq_eq_false_iff_ne.mpr hne, Bool.false_and, Nat.add_assoc]
    · simp only [if_neg hx, ih]

/-- No separator is seen just when every one of them is on the other side. The statement is about
    every cut of the text at a separator, which is how its users find one. -/
theorem seps_eq_zero :
    seps sep esc want b xs = 0 ↔ ∀ pre post, xs = pre ++ sep :: post → hidden esc b pre = !want := by
  constructor
  · rintro h pre post rfl
    rw [seps_append hne, seps, if_pos rfl] at h
    cases hh : hidden esc b pre <;> cases want <;> simp [hh] at h ⊢
  · intro h
    induction xs generalizing b with
    | nil => rfl
    | cons x xs ih =>
      have ih (b' : Bool) (hb : (x == esc && !b) = b') : seps sep esc want b' xs = 0 :=
        ih fun pre post hxs => by
          have := h (x :: pre) post (by rw [hxs, List.cons_append])
          rwa [hidden, hb] at this
      rw [seps]
      by_cases hx : x = sep
      · subst hx
        have hb := h [] xs rfl
        rw [hidden] at hb
        have hzero := ih false (by rw [beq_eq_false_iff_ne.mpr hne, Bool.false_and])
        rw [if_pos rfl, hzero, hb]
        cases want <;> rfl
      · rw [if_neg hx]
        exact ih _ rfl

/-- A separator that is seen ends what is before it, so the counts on its two sides add up and the
    right side starts afresh. -/
theorem seps_append_cons (hend : hidden esc b xs = false) (ys : List α) :
    seps sep esc false b (xs ++ sep :: ys)
      = seps sep esc false b xs + 1 + seps sep esc false false ys := by
  rw [seps_append hne, seps, if_pos rfl, hend, if_pos rfl, Nat.add_assoc]

/-- **Escaping turns the two kinds of separators around**: one that was seen gets an escape and is
    hidden, and one that was hidden gets a second escape, which hides the first one and not the
    separator. -/
theorem seps_escapeSep (xs : List α) :
    seps sep esc want b (xs.flatMap fun x => if x = sep then [esc, sep] else [x])
      = seps sep esc (!want) b xs := by
  induction xs generalizing b with
  | nil => rfl
  | cons x xs ih =>
    rw [List.flatMap_cons]
    by_cases hx : x = sep
    · subst hx
      rw [if_pos rfl, List.cons_append, seps, if_neg (Ne.symm hne), List.singleton_append, seps,
        if_pos rfl, seps, if_pos rfl, ih]
      cases b <;> cases want <;> simp
    · rw [if_neg hx, List.singleton_append, seps, seps, if_neg hx, if_neg hx, ih]

end

/-- Nothing changes with characters that are neither: the reader looks at separators and escapes
    only. -/
theorem seps_map {g : α → α} (hsep : ∀ x, g x = sep ↔ x = sep) (hesc : ∀ x, g x = esc ↔ x = esc)
    (xs : List α) : seps sep esc want b (xs.map g) = seps sep esc want b xs := by
  induction xs generalizing b with
  | nil => rfl
  | cons x xs ih =>
    have hbeq : (g x == esc) = (x == esc) := by
      rw [Bool.eq_iff_iff, beq_iff_eq, beq_iff_eq]
      exact hesc x
    rw [List.map_cons, seps, seps, hbeq, ih, ih]
    simp only [hsep]

/-! ## Pieces -/

theorem length_pieces (xs : List α) :
    (pieces sep esc b xs).length = seps sep esc false b xs + 1 := by
  induction xs generalizing b with
  | nil => rfl
  | cons x xs ih =>
    rw [pieces, seps]
    by_cases hx : x = sep
    · cases b with
      | false => simp [hx, ih, Nat.add_comm]
      | true =>
        have hstate : (x == esc && !true) = false := by simp
        rw [if_neg (by simp), List.length_modifyHead, ih, hstate, if_pos hx, if_neg (by decide),
          Nat.zero_add]
    · rw [if_neg (fun h => hx h.1), if_neg hx, List.length_modifyHead, ih]

/-- A piece is all of the text up to the separator behind it. With `seps_append_cons` this takes a
    text apart that was put together from pieces. -/
theorem pieces_append_cons (hne : sep ≠ esc) (hxs : seps sep esc false b xs = 0)
    (hend : hidden esc b xs = false) (ys : List α) :
    pieces sep esc b (xs ++ sep :: ys) = xs :: pieces sep esc false ys := by
  induction xs generalizing b with
  | nil =>
    rw [hidden] at hend
    rw [List.nil_append, pieces, if_pos ⟨rfl, hend⟩]
  | cons x xs ih =>
    rw [seps] at hxs
    rw [hidden] at hend
    rw [List.cons_append, pieces]
    by_cases hx : x = sep
    · subst hx
      have hstate : (x == esc && !b) = false := by
        rw [beq_eq_false_iff_ne.mpr hne, Bool.false_and]
      rw [if_pos rfl, Nat.add_eq_zero_iff] at hxs
      rw [hstate] at hend ⊢
      have hb : b ≠ false := fun h => by simp [h] at hxs
      rw [if_neg (fun h => hb h.2), ih hxs.2 hend]
      rfl
    · rw [if_neg hx] at hxs
      rw [if_neg (fun h => hx h.1), ih hxs hend]
      rfl

end Escape
