import ClickFs.Lib.Pread
import ClickFs.Stream.Handle

/-!
# What an open stream file is for

The task, the channel, the lock and the chunks forgotten, an open stream file is a
byte string that ends well or in an error, and a position in it that reads at that
position move. `Cursor` is that object. Its invariants are fields, so a cursor past
its content, or one that holds an error it has not met, cannot be written down.

The error is part of the object and not only of the ending. `read(2)` has no way of
saying "these bytes, and then an error", so a handle that meets the error with bytes in
hand returns the bytes and keeps the error for the next call; and having handed it out it
has nothing left but an empty reply. A cursor does both, because the code does. Whether
that is a good contract is a question about cursors (`read_empty_iff`), and can be
answered without the task and the channel.

`Fidelity` shows that the handle is one, under every schedule.
-/

set_option autoImplicit false

namespace ClickFs
namespace Stream

structure Cursor where
  content : List UInt8
  ending : Ending
  /-- how many bytes have been returned -/
  off : Nat
  /-- some read has run into the ending -/
  drained : Bool
  /-- the ending's error, met and not yet reported -/
  err : Option QueryError
  off_le : off ≤ content.length
  off_drained : drained = true → off = content.length
  err_met : ∀ e, err = some e → drained = true ∧ ending = .failed e

namespace Cursor

/-- A cursor at the start of a byte string. -/
def start (content : List UInt8) (ending : Ending) : Cursor :=
  { content, ending, off := 0, drained := false, err := none, off_le := Nat.zero_le _,
    off_drained := by simp, err_met := by simp }

/-- Hand the error out. It is taken: the next read does not find it. -/
def report (c : Cursor) : Cursor := { c with err := none, err_met := by simp }

/-- Run into the ending, returning what is left. An error met here is either handed out at once,
    with nothing left to return, or kept for the next read. -/
def meet (c : Cursor) (err : Option QueryError)
    (herr : ∀ e, err = some e → c.ending = .failed e) : Cursor :=
  { c with off := c.content.length, drained := true, err, off_le := Nat.le_refl _,
           off_drained := fun _ => rfl, err_met := fun e h => ⟨rfl, herr e h⟩ }

/-- Return bytes and stop short of the ending. A read that gets all it asked for does not look
    further, even where nothing follows. -/
def advance (c : Cursor) (size : Nat) : Cursor :=
  { c with off := c.off + (pread c.content c.off size).length,
           off_le := by have := c.off_le; rw [pread_length]; omega,
           off_drained := fun h => by
             rw [pread_length, c.off_drained h, Nat.sub_self, Nat.min_zero, Nat.add_zero] }

/-- A read at the cursor. It meets the ending when it asks for more than is left, not when it asks
    for exactly as much. -/
def read (c : Cursor) (size : Nat) : ReadReply × Cursor :=
  match c.err with
  | some e => (.err (.query e), c.report)
  | none =>
    if c.content.length - c.off < size ∧ c.drained = false then
      match h : c.ending with
      | .eof => (.ok (pread c.content c.off size), c.meet none (by simp))
      | .failed e =>
        if c.off = c.content.length then (.err (.query e), c.meet none (by simp))
        else (.ok (pread c.content c.off size), c.meet (some e) (by simp [h]))
    else (.ok (pread c.content c.off size), c.advance size)

/-- Every way a read at the cursor can go. The proofs about handles compare what happened with
    these cases. -/
inductive ReadCase (c : Cursor) (size : Nat) : ReadReply → Cursor → Prop
  | reports {e : QueryError} (h : c.err = some e) :
      ReadCase c size (.err (.query e)) c.report
  | meetsEof (herr : c.err = none) (hlt : c.content.length - c.off < size)
      (hd : c.drained = false) (h : c.ending = .eof) :
      ReadCase c size (.ok (pread c.content c.off size)) (c.meet none (by simp))
  | fails {e : QueryError} (herr : c.err = none) (hlt : c.content.length - c.off < size)
      (hd : c.drained = false) (h : c.ending = .failed e) (hoff : c.off = c.content.length) :
      ReadCase c size (.err (.query e)) (c.meet none (by simp))
  | meetsErr {e : QueryError} (herr : c.err = none) (hlt : c.content.length - c.off < size)
      (hd : c.drained = false) (h : c.ending = .failed e) (hoff : c.off ≠ c.content.length) :
      ReadCase c size (.ok (pread c.content c.off size)) (c.meet (some e) (by simp [h]))
  | advances (herr : c.err = none)
      (hge : size ≤ c.content.length - c.off ∨ c.drained = true) :
      ReadCase c size (.ok (pread c.content c.off size)) (c.advance size)

/-- Each way determines the reply and the new position, so to know how a read went is to know what
    it gave. -/
theorem ReadCase.reply_eq {c c' : Cursor} {size : Nat} {r : ReadReply}
    (h : ReadCase c size r c') : c.read size = (r, c') := by
  cases h with
  | reports h => simp only [read, h]
  | meetsEof herr hlt hd h =>
    simp only [read, herr, hlt, hd, and_self, if_true]
    split
    · rfl
    · rename_i he
      rw [h] at he
      cases he
  | fails herr hlt hd h hoff =>
    simp only [read, herr, hlt, hd, and_self, if_true]
    split
    · rename_i he
      rw [h] at he
      cases he
    · rename_i he
      rw [h] at he
      cases he
      rw [if_pos hoff]
  | meetsErr herr hlt hd h hoff =>
    simp only [read, herr, hlt, hd, and_self, if_true]
    split
    · rename_i he
      rw [h] at he
      cases he
    · rename_i he
      rw [h] at he
      cases he
      rw [if_neg hoff]
  | advances herr hge =>
    have hno : ¬ (c.content.length - c.off < size ∧ c.drained = false) := by
      rintro ⟨hlt, hd⟩
      rcases hge with hge | hge
      · omega
      · rw [hd] at hge; cases hge
    simp only [read, herr, if_neg hno]

theorem read_case (c : Cursor) (size : Nat) :
    ∃ r c', c.read size = (r, c') ∧ ReadCase c size r c' := by
  suffices h : ∃ r c', ReadCase c size r c' by
    obtain ⟨r, c', h⟩ := h
    exact ⟨r, c', h.reply_eq, h⟩
  cases herr : c.err with
  | some e => exact ⟨_, _, .reports herr⟩
  | none =>
    by_cases hge : size ≤ c.content.length - c.off ∨ c.drained = true
    · exact ⟨_, _, .advances herr hge⟩
    · have hlt : c.content.length - c.off < size := by omega
      have hd : c.drained = false := by simpa using fun hd => hge (.inr hd)
      cases hend : c.ending with
      | eof => exact ⟨_, _, .meetsEof herr hlt hd hend⟩
      | failed e =>
        by_cases hoff : c.off = c.content.length
        · exact ⟨_, _, .fails herr hlt hd hend hoff⟩
        · exact ⟨_, _, .meetsErr herr hlt hd hend hoff⟩

@[simp] theorem read_content (c : Cursor) (size : Nat) :
    (c.read size).2.content = c.content := by
  obtain ⟨r, c', hr, hcase⟩ := read_case c size
  rw [hr]
  cases hcase <;> rfl

@[simp] theorem read_ending (c : Cursor) (size : Nat) :
    (c.read size).2.ending = c.ending := by
  obtain ⟨r, c', hr, hcase⟩ := read_case c size
  rw [hr]
  cases hcase <;> rfl

/-- A successful read returns the next bytes, as many as asked for if there are that
    many, and the cursor moves by exactly those. -/
theorem read_ok {c : Cursor} {size : Nat} {out : List UInt8}
    (h : (c.read size).1 = .ok out) :
    out = pread c.content c.off size ∧ (c.read size).2.off = c.off + out.length := by
  have hlen (hlt : c.content.length - c.off < size) :
      c.content.length = c.off + (pread c.content c.off size).length := by
    have := c.off_le
    rw [pread_length]
    omega
  obtain ⟨r, c', hr, hcase⟩ := read_case c size
  rw [hr] at h ⊢
  cases hcase with
  | reports | fails => cases h
  | meetsEof herr hlt hd hend | meetsErr herr hlt hd hend hoff =>
    cases h
    exact ⟨rfl, hlen hlt⟩
  | advances herr hge =>
    cases h
    exact ⟨rfl, rfl⟩

/-- A failed read reports the ending's error, at the end of the content, and does not move. So no
    byte is lost to an error. -/
theorem read_err {c : Cursor} {size : Nat} {e : ClickFsError}
    (h : (c.read size).1 = .err e) :
    (∃ qe, e = .query qe ∧ c.ending = .failed qe) ∧ c.off = c.content.length ∧
      (c.read size).2.off = c.off := by
  obtain ⟨r, c', hr, hcase⟩ := read_case c size
  rw [hr] at h ⊢
  cases hcase with
  | reports herr =>
    cases h
    exact ⟨⟨_, rfl, (c.err_met _ herr).2⟩, c.off_drained (c.err_met _ herr).1, rfl⟩
  | fails herr hlt hd hend hoff =>
    cases h
    exact ⟨⟨_, rfl, hend⟩, hoff, hoff.symm⟩
  | meetsEof | meetsErr | advances => cases h

/-- **When a failing cursor says "end of file".** Exactly when its error has been met and handed
    out already. A program that stops at the first error never sees this; one that retries takes
    the file for complete. -/
theorem read_empty_iff {c : Cursor} {size : Nat} {e : QueryError}
    (hend : c.ending = .failed e) (hsize : 0 < size) :
    (c.read size).1 = .ok [] ↔ c.drained = true ∧ c.err = none := by
  have hempty (hd : c.drained = true) : pread c.content c.off size = [] :=
    pread_of_length_le (Nat.le_of_eq (c.off_drained hd).symm) size
  have hnonempty (hlt : c.off < c.content.length) : pread c.content c.off size ≠ [] := by
    intro h0
    have := congrArg List.length h0
    rw [pread_length, List.length_nil] at this
    omega
  have hle := c.off_le
  obtain ⟨r, c', hr, hcase⟩ := read_case c size
  rw [hr]
  cases hcase with
  | reports herr => simp [herr]
  | meetsEof herr hlt hd h =>
    rw [hend] at h
    cases h
  | fails herr hlt hd h hoff => simp [hd]
  | meetsErr herr hlt hd h hoff => simp [hd, hnonempty (by omega)]
  | advances herr hge =>
    constructor
    · intro h
      refine ⟨?_, herr⟩
      rcases hge with hge | hge
      · exact absurd (ReadReply.ok.inj h) (hnonempty (by omega))
      · exact hge
    · rintro ⟨hd, _⟩
      rw [hempty hd]

/-- The replies of a sequence of reads at the cursor. -/
def replies (c : Cursor) : List Nat → List ReadReply
  | [] => []
  | n :: ns => (c.read n).1 :: (c.read n).2.replies ns

end Cursor
end Stream
end ClickFs
