import Mathlib.Algebra.Order.Ring.Int
import Mathlib.Data.List.Basic

/-!
# Positional reads of a byte string

`pread content off size` is what POSIX `pread` returns on a file with these
contents: the bytes from `off` on, at most `size` of them, none past the end. The
two facts a reader of a file relies on are that consecutive reads glue together
(`pread_append`, and `preads_flatten` for any number of them) and that a byte's
value does not depend on the read that returned it (`pread_getElem?`).

A component that serves reads from somewhere else than a file is faithful when what it
returns is a `pread` of some fixed content. These lemmas are then what its reader gets.
-/

set_option autoImplicit false

variable {α : Type*}

def pread (content : List α) (off size : Nat) : List α :=
  (content.drop off).take size

theorem pread_length (content : List α) (off size : Nat) :
    (pread content off size).length = min size (content.length - off) := by
  simp [pread]

theorem pread_of_length_le {content : List α} {off : Nat} (h : content.length ≤ off)
    (size : Nat) : pread content off size = [] := by
  simp [pread, List.drop_eq_nil_of_le h]

theorem pread_zero_size (content : List α) (off : Nat) : pread content off 0 = [] := by
  simp [pread]

theorem take_append_pread {content : List α} {off : Nat} (size : Nat)
    (h : off ≤ content.length) :
    content.take off ++ pread content off size
      = content.take (off + (pread content off size).length) := by
  have hlen : (content.take off).length = off := by simp [h]
  rw [pread_length, List.take_add]
  congr 1
  rcases Nat.le_total size (content.length - off) with hs | hs
  · rw [Nat.min_eq_left hs]; rfl
  · rw [Nat.min_eq_right hs, pread, List.take_of_length_le (by simpa using hs),
      List.take_of_length_le (by simp)]

theorem pread_append (content : List α) (off m n : Nat) :
    pread content off m ++ pread content (off + m) n = pread content off (m + n) := by
  simp only [pread, List.take_add, List.drop_drop]

/-- Reads of the given sizes, each starting where the one before was asked to end. At the end of
    the file that is further than where it did end, and the reads from there on are empty. -/
def preads (content : List α) : Nat → List Nat → List (List α)
  | _, [] => []
  | off, n :: ns => pread content off n :: preads content (off + n) ns

theorem preads_flatten (content : List α) : ∀ (ns : List Nat) (off : Nat),
    (preads content off ns).flatten = pread content off ns.sum := by
  intro ns
  induction ns with
  | nil => intro off; simp [preads, pread_zero_size]
  | cons n ns ih => intro off; rw [preads, List.flatten_cons, ih, pread_append, List.sum_cons]

/-- Cutting a whole file into consecutive reads gives the file back, whatever the sizes are, as
    long as they add up to its length. -/
theorem preads_flatten_all {content : List α} {ns : List Nat}
    (h : content.length ≤ ns.sum) : (preads content 0 ns).flatten = content := by
  rw [preads_flatten, pread, List.drop_zero, List.take_of_length_le h]

theorem pread_getElem? {content : List α} {off size k : Nat} (h : k < size) :
    (pread content off size)[k]? = content[off + k]? := by
  rw [pread, List.getElem?_take_of_lt h, List.getElem?_drop]

/-- Two reads agree on every position both of them cover. So a program that reads a part again
    sees what it saw. -/
theorem pread_overlap {content : List α} {off₁ size₁ off₂ size₂ x : Nat}
    (h₁ : off₁ ≤ x ∧ x < off₁ + size₁) (h₂ : off₂ ≤ x ∧ x < off₂ + size₂) :
    (pread content off₁ size₁)[x - off₁]? = (pread content off₂ size₂)[x - off₂]? := by
  rw [pread_getElem? (by omega), pread_getElem? (by omega),
    Nat.add_sub_cancel' h₁.1, Nat.add_sub_cancel' h₂.1]
