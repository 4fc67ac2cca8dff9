import ClickFs.Lib.Pread
import ClickFs.Stream.Steps

/-!
# The tail window

A materialized buffer is pinned so that it ends at the pseudo-EOF, and a read inside
the window it covers is a positional read of it. The arithmetic that says so is on 64-bit
numbers, with one saturating subtraction and two plain ones; `tailHit_eq` is where all
three are shown to be exact, and after it the window is a statement about natural numbers.

`front_cases` is the serving section read backwards over that fact: an error at the
cursor, the window, a rejected offset, or the live stream — in this order. The order
matters: an error that is waiting to be reported comes before the window, and a window
that reaches down to the position comes before the stream.
-/

set_option autoImplicit false

namespace ClickFs
namespace Stream

open Rust

theorem pseudoEof_toNat : pseudoEof.toNat = isizeMax := by decide

theorem Bytes.len_lt (buf : Bytes) : buf.len < 2 ^ 64 :=
  Nat.lt_of_le_of_lt buf.len_le (by decide)

theorem Bytes.toNat_ofNat_len (buf : Bytes) : (UInt64.ofNat buf.len).toNat = buf.len :=
  UInt64.toNat_ofNat_of_lt' buf.len_lt

theorem bufOrigin_toNat (buf : Bytes) : (bufOrigin buf).toNat = pseudoEof.toNat - buf.len := by
  rw [bufOrigin, saturatingSub_toNat, buf.toNat_ofNat_len]

/-- The subtraction never saturates: no buffer is longer than the pseudo-file, since a buffer is
    one allocation. -/
theorem bufOrigin_add_len (buf : Bytes) : (bufOrigin buf).toNat + buf.len = pseudoEof.toNat := by
  have hlen : buf.len ≤ pseudoEof.toNat := by rw [pseudoEof_toNat]; exact buf.len_le
  rw [bufOrigin_toNat, Nat.sub_add_cancel hlen]

theorem bufOrigin_le_pseudoEof (buf : Bytes) : bufOrigin buf ≤ pseudoEof := by
  rw [UInt64.le_iff_toNat_le]
  have := bufOrigin_add_len buf
  omega

/-- **From the window's origin on, a read is a positional read of the buffer**: no
    subtraction underflows, no slice is out of range, and past the pseudo-EOF there is
    nothing. -/
theorem tailHit_eq {buf : Bytes} {offset : UInt64} (h : bufOrigin buf ≤ offset) (size : Nat) :
    tailHit buf offset size
      = some (.ok (pread buf.data (offset.toNat - (bufOrigin buf).toNat) size)) := by
  have hpin := bufOrigin_add_len buf
  have hle := UInt64.le_iff_toNat_le.mp h
  have hrel : (offset - bufOrigin buf).toNat = offset.toNat - (bufOrigin buf).toNat :=
    UInt64.toNat_sub_of_le _ _ h
  unfold tailHit
  rcases Nat.lt_or_ge offset.toNat pseudoEof.toNat with hlt | hge
  · have hlt' : offset < pseudoEof := UInt64.lt_iff_toNat_lt.mpr hlt
    have hloc : ¬ buf.len ≤ offset.toNat - (bufOrigin buf).toNat := by omega
    rw [if_pos ⟨h, hlt'⟩, sub?_of_le h]
    simp only [hrel, if_neg hloc]
    rw [slice?_of_le (Nat.le_add_right _ _) (by rw [← Bytes.len]; omega),
      Nat.add_sub_cancel_left]
    simp only [Option.some.injEq, ReadReply.ok.injEq, pread]
    rw [List.take_eq_take_iff, List.length_drop, ← Bytes.len]
    omega
  · have hge' : pseudoEof ≤ offset := UInt64.le_iff_toNat_le.mpr hge
    have hno : ¬ (bufOrigin buf ≤ offset ∧ offset < pseudoEof) := fun hin =>
      absurd (UInt64.lt_iff_toNat_lt.mp hin.2) (Nat.not_lt.mpr hge)
    rw [if_neg hno, if_pos hge', pread_of_length_le (by rw [← Bytes.len]; omega)]

theorem tailHit_below {buf : Bytes} {offset : UInt64} (h : ¬ bufOrigin buf ≤ offset)
    (size : Nat) : tailHit buf offset size = none := by
  have hpast : ¬ pseudoEof ≤ offset := fun hle => h (UInt64.le_trans (bufOrigin_le_pseudoEof buf) hle)
  rw [tailHit, if_neg (fun hin => h hin.1), if_neg hpast]

/-- The window of the materialized buffer, if there is one, reaches down to `offset`. Where it
    ends need not be asked: beyond the pseudo-EOF a read is empty either way. -/
def Inner.covers (g : Inner) (offset : UInt64) : Bool :=
  g.tailBuf.any fun buf => decide (bufOrigin buf ≤ offset)

theorem Inner.covers_eq {g : Inner} {buf : Bytes} (h : g.tailBuf = some buf) (offset : UInt64) :
    g.covers offset = decide (bufOrigin buf ≤ offset) := by
  rw [covers, h, Option.any_some]

/-- How the serving section can start, in the order in which the source decides it. -/
inductive FrontCase (g : Inner) (offset : UInt64) (size : Nat) : Front → Prop
  | reports {e : QueryError} (hoff : offset = g.pos) (herr : g.lastErr = some e) :
      FrontCase g offset size (.reply (.err (.query e)) { g with lastErr := none })
  | window {buf : Bytes} (herr : offset = g.pos → g.lastErr = none)
      (hbuf : g.tailBuf = some buf) (hin : bufOrigin buf ≤ offset) :
      FrontCase g offset size
        (.reply (.ok (pread buf.data (offset.toNat - (bufOrigin buf).toNat) size)) g)
  | order (hoff : offset ≠ g.pos) (hout : g.covers offset = false) :
      FrontCase g offset size (.reply (.err (.readOrder g.pos offset)) g)
  | pull (hoff : offset = g.pos) (herr : g.lastErr = none) (hout : g.covers offset = false) :
      FrontCase g offset size .pull

/-- Past the error check only the buffer and the cursor matter, in that order. -/
theorem front_rest {g : Inner} {offset : UInt64} (size : Nat)
    (herr : offset = g.pos → g.lastErr = none) : FrontCase g offset size
      (match g.tailBuf.bind fun buf => tailHit buf offset size with
        | some r => .reply r g
        | none =>
          if offset ≠ g.pos then .reply (.err (.readOrder g.pos offset)) g else .pull) := by
  have hmiss (hout : g.covers offset = false) : FrontCase g offset size
      (if offset ≠ g.pos then .reply (.err (.readOrder g.pos offset)) g else .pull) := by
    by_cases hoff : offset = g.pos
    · rw [if_neg (fun hne => hne hoff)]
      exact .pull hoff (herr hoff) hout
    · rw [if_pos hoff]
      exact .order hoff hout
  cases hbuf : g.tailBuf with
  | none => exact hmiss (by rw [Inner.covers, hbuf, Option.any_none])
  | some buf =>
    rw [Option.bind_some]
    by_cases hin : bufOrigin buf ≤ offset
    · rw [tailHit_eq hin]
      exact .window herr hbuf hin
    · rw [tailHit_below hin]
      exact hmiss (by rw [Inner.covers_eq hbuf, decide_eq_false hin])

theorem front_cases (g : Inner) (offset : UInt64) (size : Nat) :
    FrontCase g offset size (front g offset size) := by
  unfold front
  by_cases hoff : offset = g.pos
  · rw [if_pos hoff]
    cases herr : g.lastErr with
    | some e => exact .reports hoff herr
    | none => exact front_rest size fun _ => herr
  · rw [if_neg hoff]
    exact front_rest size fun h => absurd h hoff

/-! ## Where buffers come from -/

@[simp] theorem finish_tailBuf (g : Inner) (size : Nat) :
    (finish g size).2.tailBuf = g.tailBuf := by
  unfold finish
  split <;> rfl

@[simp] theorem Inner.onRecv_tailBuf (g : Inner) (m : Option Msg) :
    (g.onRecv m).tailBuf = g.tailBuf := by
  rcases m with _ | (_ | _) <;> rfl

theorem FrontCase.tailBuf {g g' : Inner} {offset : UInt64} {size : Nat} {r : ReadReply}
    (h : FrontCase g offset size (.reply r g')) : g'.tailBuf = g.tailBuf := by
  cases h <;> rfl

/-- Every buffer the reader has in hand is one of `A`. For statements about where a buffer can
    have come from. -/
def Reader.Holds (A : Bytes → Prop) : Reader → Prop
  | .installing _ _ (.ok buf) => A buf
  | .pulling _ before => ∀ buf, before.tailBuf = some buf → A buf
  | _ => True

structure Held (A : Bytes → Prop) (s : Handle) : Prop where
  pinned : ∀ buf, s.inner.tailBuf = some buf → A buf
  readers : ∀ t, (s.readers t).Holds A

def Event.Holds (A : Bytes → Prop) : Event → Prop
  | .read ev => ∀ buf, ev.before.tailBuf = some buf → A buf
  | .materialize _ _ => True

theorem Held.step {A : Bytes → Prop} {s s₁ : Handle} {a : Action} {evs : List Event}
    (h : Held A s) (hanswer : ∀ t buf, a = .answer t (.ok buf) → A buf)
    (hstep : step s a = some (s₁, evs)) : Held A s₁ ∧ ∀ e ∈ evs, e.Holds A := by
  rcases step_cases hstep with ⟨_, _, _, rfl, rfl⟩ | hr | ⟨_, _, _, rfl, rfl⟩
  case inl | inr.inr => exact ⟨⟨h.pinned, h.readers⟩, by simp⟩
  cases hr with
  | call hr _ | checkSkip hr _ _ =>
    exact ⟨⟨h.pinned, Handle.forall_setReader h.readers trivial⟩, by simp⟩
  | checkMat hr _ _ _ =>
    exact ⟨⟨h.pinned, Handle.forall_setReader h.readers trivial⟩, by simp [Event.Holds]⟩
  | @answer t offset size mat hr =>
    refine ⟨⟨h.pinned, Handle.forall_setReader h.readers ?_⟩, by simp⟩
    cases mat with
    | error e => trivial
    | ok buf => exact hanswer t buf rfl
  | @install t offset size mat hr hlock =>
    refine ⟨⟨fun buf hbuf => ?_, Handle.forall_setReader h.readers trivial⟩, by simp⟩
    cases mat with
    | error e => exact h.pinned buf hbuf
    | ok buf' =>
      have := h.readers t
      rw [hr] at this
      cases hbuf
      exact this
  | @serveReply t offset size r g hr hlock hfront =>
    have hcase := front_cases s.inner offset size
    rw [hfront] at hcase
    have hpinned : ∀ buf, g.tailBuf = some buf → A buf := hcase.tailBuf ▸ h.pinned
    exact ⟨⟨hpinned, Handle.forall_setReader h.readers trivial⟩, by simpa [Event.Holds] using h.pinned⟩
  | servePull hr hlock hfront =>
    exact ⟨⟨h.pinned, Handle.forall_setReader h.readers h.pinned⟩, by simp⟩
  | recvMsg hr hmore hchan =>
    exact ⟨⟨by rw [Inner.onRecv_tailBuf]; exact h.pinned, h.readers⟩, by simp⟩
  | recvEnd hr hmore hchan hdone =>
    exact ⟨⟨by rw [Inner.onRecv_tailBuf]; exact h.pinned, h.readers⟩, by simp⟩
  | @finish t size before hr hmore =>
    have hbefore := h.readers t
    rw [hr] at hbefore
    refine ⟨⟨?_, Handle.forall_setReader h.readers trivial⟩, fun e he => ?_⟩
    · rw [Handle.returns, finish_tailBuf]
      exact h.pinned
    · rw [List.mem_singleton] at he
      exact he ▸ hbefore

/-- Every buffer a read meets is an answer of the server to this run. -/
theorem buffers_answered {up : Upstream} {tail : Option TailContext} {as : List Action}
    {tr : List Event} {s : Handle} (h : sys.Exec (.spawn up tail) as tr s) {ev : ReadEvent}
    (hev : .read ev ∈ tr) {buf : Bytes} (hbuf : ev.before.tailBuf = some buf) :
    ∃ t, .answer t (.ok buf) ∈ as := by
  let A : Bytes → Prop := fun buf => ∃ t, .answer t (.ok buf) ∈ as
  have hC : sys.Along (fun _ a => a ∈ as) (.spawn up tail) as :=
    Lts.along_of_forall (fun a ha _ => ha) _
  have hstart : Held A (.spawn up tail) := ⟨fun _ h => (nomatch h), fun _ => trivial⟩
  have hall : ∀ e ∈ tr, e.Holds A := Lts.Exec.eventsAlong (I := Held A)
    (fun _ _ _ _ hI ha hs => hI.step (fun t _ he => ⟨t, he ▸ ha⟩) hs) h hC hstart
  exact hall _ hev buf hbuf

end Stream
end ClickFs
