import Mathlib.Algebra.Order.Ring.Int
import Mathlib.Data.List.Basic
import Mathlib.Data.List.Count

/-!
# Paging through a list that changes

A reader gets a list in pages and remembers no more than a position in it. Each page is
cut from the list as it is at the time, so the lists of two pages need not be the same.
What decides is where an item is with respect to the position: ahead of it or left behind.
As long as no change carries the item across (`Steady`), the pages return it as often as
the first list has it (`Walk.count_returned`), whatever else moves.
-/

set_option autoImplicit false

namespace Paging

/-- A list, a position in it, and how many items are returned from there. The list is the one the
    reader was served from; the next page has a list of its own. -/
structure Page (α : Type*) where
  items : List α
  cursor : Nat
  size : Nat

variable {α : Type*}

namespace Page

def ahead (p : Page α) : List α := p.items.drop p.cursor

def returned (p : Page α) : List α := p.ahead.take p.size

/-- Where the next page begins. The reader keeps this number and forgets the list. -/
def next (p : Page α) : Nat := p.cursor + p.size

/-- What is ahead of the next page, in the list of this one. It is what the reader would get if
    nothing changed. -/
def left (p : Page α) : List α := p.items.drop p.next

theorem returned_append_left (p : Page α) : p.returned ++ p.left = p.ahead := by
  rw [returned, left, next, ahead, ← List.drop_drop, List.take_append_drop]

end Page

/-- Every page begins where the one before it ended, and the last finds nothing ahead. The lists
    of two pages need not have anything in common. -/
inductive Walk : List (Page α) → Prop
  | last {p : Page α} (hend : p.ahead = []) : Walk [p]
  | more {p q : Page α} {ps : List (Page α)} (hnext : q.cursor = p.next) (hrest : Walk (q :: ps)) :
      Walk (p :: q :: ps)

variable [DecidableEq α]

/-- Between two pages the item is not carried across the position the later one begins at, in
    either direction. It may move on its own side, and everything else may move anywhere. -/
inductive Steady (a : α) : List (Page α) → Prop
  | last (p : Page α) : Steady a [p]
  | more {p q : Page α} {ps : List (Page α)}
      (hsame : (q.items.drop q.cursor).count a = (p.items.drop q.cursor).count a)
      (hrest : Steady a (q :: ps)) : Steady a (p :: q :: ps)

/-- **The item is returned as often as the first list has it ahead.** Each page returns what is in
    its range, and by `Steady` what is behind the range is the same in the next list as in this
    one. The induction is on the walk, from its end. -/
theorem Walk.count_returned {a : α} {p : Page α} {ps : List (Page α)} (h : Walk (p :: ps))
    (hsteady : Steady a (p :: ps)) :
    ((p :: ps).flatMap Page.returned).count a = p.ahead.count a := by
  induction ps generalizing p with
  | nil =>
    cases h with
    | last hend => simp [Page.returned, hend]
  | cons q ps ih =>
    cases h with
    | more hnext hrest =>
      cases hsteady with
      | more hsame hrest' =>
        -- the next page has ahead what this one leaves, as far as the item goes
        have hleft : q.ahead.count a = p.left.count a := by
          rw [Page.left, ← hnext]
          exact hsame
        rw [List.flatMap_cons, List.count_append, ih hrest hrest', hleft, ← List.count_append,
          Page.returned_append_left]

/-- Nothing is carried anywhere in a list that does not change, so every walk through it is steady
    for every item. -/
theorem Walk.steady_of_same {a : α} {items : List α} {ps : List (Page α)} (h : Walk ps)
    (hsame : ∀ p ∈ ps, p.items = items) : Steady a ps := by
  induction h with
  | last hend => exact .last _
  | @more p q ps hnext hrest ih =>
    refine .more ?_ (ih fun p hp => hsame p (List.mem_cons_of_mem _ hp))
    have hp := hsame p List.mem_cons_self
    have hq := hsame q (List.mem_cons_of_mem _ List.mem_cons_self)
    rw [hp, hq]

end Paging
