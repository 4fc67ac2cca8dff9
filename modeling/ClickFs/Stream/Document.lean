import ClickFs.Stream.Fidelity
import ClickFs.Stream.Tail

/-!
# A stream file with seeking

`Cursor` is the stream front to back. A program may also seek: far ahead of the
position, it gets the table's tail, pinned to the end of the pseudo-file. `Document` is
the file with both. It is a cursor over the response and, once some read has gone far
ahead, what the tail query has answered; a read asks for an offset, and what it gets is
a function of these and of nothing else.

The answer of the tail query is not known before it is asked for, so a read takes it as an
argument (`seek`). That makes a document with a different answer at each read conceivable,
and `replies_of_gives` says that there is none: whatever could have been answered, one
answer accounts for all that was read.

What it means to read one is `Stands`: bytes returned at an offset stand at that offset,
in the response or in the tail. That the handle is one is in `Fs.Documents`.
-/

set_option autoImplicit false

namespace ClickFs
namespace Stream

structure Document where
  cursor : Cursor
  /-- the table's tail may be fetched -/
  seekable : Bool
  /-- what fetching it has brought, once that was tried -/
  tail : Option (Except QueryError Bytes)

namespace Document

/-- A document nobody has read. -/
def unread (up : Upstream) (seekable : Bool) : Document :=
  { cursor := .start up.bytes up.ending, seekable, tail := none }

def pos (D : Document) : UInt64 := UInt64.ofNat D.cursor.off

/-- A read at this offset is the one that fetches the tail: far ahead, for the first time, of a
    table file. -/
def wants (D : Document) (offset : UInt64) : Bool :=
  D.seekable && D.tail.isNone && decide (D.pos.toNat + tailTriggerGap.toNat < offset.toNat)

/-- The tail query's answer being `mat`. A failed answer is kept as well, since it is not asked
    for again. -/
def seek (D : Document) (mat : Except QueryError Bytes) (offset : UInt64) : Document :=
  if D.wants offset then { D with tail := some mat } else D

/-- The tail, if it reaches down to the offset. -/
def window (D : Document) (offset : UInt64) : Option Bytes :=
  match D.tail with
  | some (.ok buf) => if pseudoEof.toNat - buf.len ≤ offset.toNat then some buf else none
  | _ => none

/-- The read is one of the response. Should the tail reach down to the position, it goes first,
    but for an error. -/
def sequential (D : Document) (offset : UInt64) : Bool :=
  offset == D.pos && (D.cursor.err.isSome || (D.window offset).isNone)

def serve (D : Document) (offset : UInt64) (size : Nat) : ReadReply × Document :=
  if D.sequential offset then
    ((D.cursor.read size).1, { D with cursor := (D.cursor.read size).2 })
  else
    match D.window offset with
    | some buf => (.ok (windowBytes buf offset size), D)
    | none => (.err (.readOrder D.pos offset), D)

def read (D : Document) (mat : Except QueryError Bytes) (offset : UInt64) (size : Nat) :
    ReadReply × Document := (D.seek mat offset).serve offset size

/-- What a read asks for: an offset and a size. -/
abbrev Ask := UInt64 × Nat

/-- The replies of a sequence of reads. -/
def replies (mat : Except QueryError Bytes) : Document → List Ask → List ReadReply
  | _, [] => []
  | D, ask :: asks => (D.read mat ask.1 ask.2).1 :: replies mat (D.read mat ask.1 ask.2).2 asks

/-- The document some reads leave behind. -/
def after (mat : Except QueryError Bytes) : Document → List Ask → Document
  | D, [] => D
  | D, ask :: asks => after mat (D.read mat ask.1 ask.2).2 asks

variable {D : Document} {mat : Except QueryError Bytes}

theorem replies_append (D : Document) (xs ys : List Ask) :
    D.replies mat (xs ++ ys) = D.replies mat xs ++ (D.after mat xs).replies mat ys := by
  induction xs generalizing D with
  | nil => rfl
  | cons x xs ih => simp only [List.cons_append, replies, after, ih]

@[simp] theorem length_replies (D : Document) (asks : List Ask) :
    (D.replies mat asks).length = asks.length := by
  induction asks generalizing D with
  | nil => rfl
  | cons ask asks ih => simp only [replies, List.length_cons, ih]

/-! ## One answer accounts for all of them -/

/-- What a read does before it is served, if the tail query's answer is one of `A`. -/
inductive Seeks (A : Except QueryError Bytes → Prop) (D : Document) (offset : UInt64) :
    Document → Prop
  | stays (h : D.wants offset = false) : Seeks A D offset D
  | fetches {mat : Except QueryError Bytes} (h : D.wants offset = true) (hmat : A mat) :
      Seeks A D offset { D with tail := some mat }

/-- One read with its reply, the tail query being answered with something in `A` if the read asks
    for it. -/
def Gives (A : Except QueryError Bytes → Prop) (D : Document) (x : Ask × ReadReply)
    (D' : Document) : Prop :=
  ∃ D₁, D.Seeks A x.1.1 D₁ ∧ D₁.serve x.1.1 x.1.2 = (x.2, D')

@[simp] theorem serve_tail (D : Document) (offset : UInt64) (size : Nat) :
    (D.serve offset size).2.tail = D.tail := by
  unfold serve
  split
  · rfl
  · split <;> rfl

theorem wants_of_tail (h : D.tail = some mat) (offset : UInt64) : D.wants offset = false := by
  simp [wants, h]

theorem seek_of_not_wants {offset : UInt64} (h : D.wants offset = false)
    (mat : Except QueryError Bytes) : D.seek mat offset = D := by
  rw [seek, h, if_neg Bool.false_ne_true]

theorem seek_of_wants {offset : UInt64} (h : D.wants offset = true)
    (mat : Except QueryError Bytes) : D.seek mat offset = { D with tail := some mat } := by
  rw [seek, if_pos h]

theorem tail_after {mat' : Except QueryError Bytes} (h : D.tail = some mat') (asks : List Ask) :
    (D.after mat asks).tail = some mat' := by
  induction asks generalizing D with
  | nil => exact h
  | cons ask asks ih =>
    refine ih ?_
    rw [read, serve_tail, seek_of_not_wants (wants_of_tail h ask.1), h]

/-- Once the tail query has been answered, no other answer to it matters. -/
theorem reads_of_tail {mat' : Except QueryError Bytes} (h : D.tail = some mat')
    (mat : Except QueryError Bytes) (asks : List Ask) :
    D.replies mat asks = D.replies mat' asks ∧ D.after mat asks = D.after mat' asks := by
  induction asks generalizing D with
  | nil => exact ⟨rfl, rfl⟩
  | cons ask asks ih =>
    have hread (m : Except QueryError Bytes) : D.read m ask.1 ask.2 = D.serve ask.1 ask.2 := by
      rw [read, seek_of_not_wants (wants_of_tail h ask.1)]
    obtain ⟨hreplies, hafter⟩ := ih (D := (D.serve ask.1 ask.2).2) ((serve_tail _ _ _).trans h)
    exact ⟨by rw [replies, replies, hread, hread, hreplies],
      by rw [after, after, hread, hread, hafter]⟩

/-- **Whatever each tail query may be answered with, one answer accounts for all the
    replies**, and it was given if it was needed. -/
theorem replies_of_gives {A : Except QueryError Bytes → Prop} {xs : List (Ask × ReadReply)}
    {D' : Document} (h : Lts.Reads (Gives A) D xs D') :
    ∃ mat, xs.map Prod.snd = D.replies mat (xs.map Prod.fst) ∧
      D' = D.after mat (xs.map Prod.fst) ∧ (D.tail = none → ∀ m, D'.tail = some m → A m) := by
  induction h with
  | nil D =>
    refine ⟨.ok ⟨[], Nat.zero_le _⟩, rfl, rfl, fun hnone m hm => ?_⟩
    rw [hnone] at hm
    cases hm
  | @cons D D₂ D' x xs head tail ih =>
    obtain ⟨D₁, hseeks, hserve⟩ := head
    obtain ⟨mat, hreplies, hafter, hanswered⟩ := ih
    have hkept : D₂.tail = D₁.tail := by
      rw [← serve_tail D₁ x.1.1 x.1.2, hserve]
    cases hseeks with
    | stays hno =>
      have hread : D.read mat x.1.1 x.1.2 = (x.2, D₂) := by
        rw [read, seek_of_not_wants hno, hserve]
      refine ⟨mat, ?_, ?_, fun hnone => hanswered (hkept.trans hnone)⟩
      · rw [List.map_cons, List.map_cons, replies, hread, hreplies]
      · rw [List.map_cons, after, hread, hafter]
    | @fetches m hwants hm =>
      have hread : D.read m x.1.1 x.1.2 = (x.2, D₂) := by
        rw [read, seek_of_wants hwants, hserve]
      obtain ⟨hsame, hsame'⟩ := reads_of_tail hkept mat (xs.map Prod.fst)
      have htail : D'.tail = some m := by
        rw [hafter, hsame']
        exact tail_after hkept _
      refine ⟨m, ?_, ?_, fun _ m' hm' => ?_⟩
      · rw [List.map_cons, List.map_cons, replies, hread, hreplies, hsame]
      · rw [List.map_cons, after, hread, hafter, hsame']
      · rw [htail] at hm'
        cases hm'
        exact hm

/-! ## What stands where -/

/-- The bytes stand at that offset: in the response, or in the tail as the server has answered it.
    The two are answers to different queries, so a file read at both ends need not be consistent
    in the middle; each part is. -/
inductive Stands (up : Upstream) (seekable : Bool) (mat : Except QueryError Bytes)
    (offset : UInt64) (size : Nat) : List UInt8 → Prop
  | response {n : Nat} (hn : UInt64.ofNat n = offset) (hle : n ≤ up.bytes.length) :
      Stands up seekable mat offset size (pread up.bytes n size)
  | tail {buf : Bytes} (hseek : seekable = true) (hmat : mat = .ok buf)
      (hin : pseudoEof.toNat - buf.len ≤ offset.toNat) :
      Stands up seekable mat offset size (windowBytes buf offset size)

/-- It is a document of that response, with no other tail than that. -/
structure Of (up : Upstream) (seekable : Bool) (mat : Except QueryError Bytes) (D : Document) :
    Prop where
  content : D.cursor.content = up.bytes
  seeks : D.seekable = seekable
  tail : ∀ m, D.tail = some m → m = mat ∧ seekable = true

variable {up : Upstream} {seekable : Bool} {offset : UInt64} {size : Nat}

theorem Of.unread : Of up seekable mat (unread up seekable) :=
  ⟨rfl, rfl, fun m h => by cases h⟩

theorem Of.seek (h : D.Of up seekable mat) (offset : UInt64) :
    (D.seek mat offset).Of up seekable mat := by
  unfold Document.seek
  split
  · rename_i hwants
    refine ⟨h.content, h.seeks, fun m hm => ?_⟩
    cases hm
    rw [wants, Bool.and_eq_true, Bool.and_eq_true] at hwants
    exact ⟨rfl, h.seeks ▸ hwants.1.1⟩
  · exact h

theorem window_eq_some {buf : Bytes} (h : D.window offset = some buf) :
    D.tail = some (.ok buf) ∧ pseudoEof.toNat - buf.len ≤ offset.toNat := by
  unfold window at h
  split at h
  · rename_i htail
    split at h
    · rename_i hin
      cases h
      exact ⟨htail, hin⟩
    · cases h
  · cases h

theorem Of.serve (h : D.Of up seekable mat) :
    (D.serve offset size).2.Of up seekable mat ∧
      ∀ out, (D.serve offset size).1 = .ok out → Stands up seekable mat offset size out := by
  unfold Document.serve
  split
  · rename_i hseq
    have hpos : offset = D.pos := by
      rw [sequential, Bool.and_eq_true] at hseq
      exact beq_iff_eq.mp hseq.1
    refine ⟨⟨(Cursor.read_content _ _).trans h.content, h.seeks, h.tail⟩, fun out hout => ?_⟩
    obtain ⟨rfl, -⟩ := Cursor.read_ok hout
    rw [h.content]
    exact .response hpos.symm (h.content ▸ D.cursor.off_le)
  · split
    · rename_i buf hwindow
      obtain ⟨htail, hin⟩ := window_eq_some hwindow
      obtain ⟨hmat, hseek⟩ := h.tail _ htail
      refine ⟨h, fun out hout => ?_⟩
      cases hout
      exact .tail hseek hmat.symm hin
    · exact ⟨h, fun out hout => by cases hout⟩

theorem Of.after (h : D.Of up seekable mat) (asks : List Ask) :
    (D.after mat asks).Of up seekable mat := by
  induction asks generalizing D with
  | nil => exact h
  | cons ask asks ih => exact ih ((h.seek ask.1).serve).1

/-- Whatever is read from a document stands where it was asked for. -/
theorem Of.stands (h : D.Of up seekable mat) {asks : List Ask} {ask : Ask}
    {out : List UInt8} (hout : ((D.after mat asks).read mat ask.1 ask.2).1 = .ok out) :
    Stands up seekable mat ask.1 ask.2 out :=
  (((h.after asks).seek ask.1).serve).2 out hout

/-! ## The handle's fields -/

/-- The tail fields of a handle that is this document. A failed answer leaves the flag behind and
    no buffer. -/
def kept (D : Document) : Bool × Option Bytes := (D.tail.isSome, D.tail.bind Except.toOption)

/-- The handle shows the document. The flag, the buffer and the cursor agree; readers on their way
    in are not part of it. -/
structure Shown (up : Upstream) (s : Handle) (D : Document) : Prop where
  cursor : Matches up s D.cursor
  seekable : s.tail.isSome = D.seekable
  tail : s.inner.tail = D.kept

theorem Shown.spawn (up : Upstream) (tail : Option TailContext) :
    Shown up (.spawn up tail) (.unread up tail.isSome) := ⟨.spawn up tail, rfl, rfl⟩

theorem covers_eq {g : Inner} (htail : g.tail = D.kept) (offset : UInt64) :
    g.covers offset = (D.window offset).isSome := by
  have hbuf : g.tailBuf = D.tail.bind Except.toOption := congrArg Prod.snd htail
  unfold Inner.covers window
  rw [hbuf]
  rcases D.tail with _ | _ | buf
  · rfl
  · rfl
  · show decide (bufOrigin buf ≤ offset) = _
    show _ = (if pseudoEof.toNat - buf.len ≤ offset.toNat then some buf else none).isSome
    rw [decide_eq_decide.mpr bufOrigin_le_iff]
    by_cases hin : pseudoEof.toNat - buf.len ≤ offset.toNat
    · rw [if_pos hin, decide_eq_true hin, Option.isSome_some]
    · rw [if_neg hin, decide_eq_false hin, Option.isSome_none]

theorem installTail_tail {g : Inner} (htail : g.tail = D.kept) (hnone : D.tail = none)
    (mat : Except QueryError Bytes) :
    (g.installTail mat).tail = ({ D with tail := some mat } : Document).kept := by
  have hbuf : g.tailBuf = none := by
    have := congrArg Prod.snd htail
    rwa [kept, hnone] at this
  cases mat with
  | ok buf => rfl
  | error e =>
    show (true, g.tailBuf) = _
    rw [hbuf]
    rfl

theorem saturatingAdd_lt {a b c : UInt64} :
    Rust.saturatingAdd a b < c ↔ a.toNat + b.toNat < c.toNat := by
  rw [UInt64.lt_iff_toNat_lt]
  unfold Rust.saturatingAdd
  have hc := c.toNat_lt
  split
  · rename_i hsum
    rw [UInt64.toNat_add, Nat.mod_eq_of_lt hsum]
  · rw [UInt64.toNat_ofNat_of_lt' (by decide)]
    omega

/-- The first critical section decides what the document does: `materialize_tail` is called
    exactly for the reads that `wants` singles out. -/
theorem needMaterialize_eq {s : Handle} (hseek : s.tail.isSome = D.seekable)
    (htail : s.inner.tail = D.kept) (hpos : s.inner.pos = D.pos) (offset : UInt64) :
    needMaterialize s.tail s.inner offset = D.wants offset := by
  obtain ⟨hattempted, hbuf⟩ := Prod.mk.inj htail
  have hgap : decide (Rust.saturatingAdd D.pos tailTriggerGap < offset)
      = decide (D.pos.toNat + tailTriggerGap.toNat < offset.toNat) :=
    decide_eq_decide.mpr saturatingAdd_lt
  unfold needMaterialize wants
  rw [hattempted, hbuf, hseek, hpos, hgap]
  by_cases hfar : D.pos.toNat + tailTriggerGap.toNat < offset.toNat
  · have hne : (offset != D.pos) = true := by
      rw [bne_iff_ne]
      rintro rfl
      omega
    cases htried : D.tail <;> simp [hne, hfar]
  · simp [hfar]

/-- **A served read is the document's**, if it was answered by the cursor or at once. -/
theorem serve_of_explains {ev : ReadEvent} (hexp : D.cursor.Explains ev)
    (htail : ev.before.tail = D.kept)
    (hother : ev.forward = false →
      front ev.before ev.offset ev.size = .reply ev.reply ev.after) :
    D.serve ev.offset ev.size = (ev.reply, { D with cursor := D.cursor.next ev }) := by
  have hseq : D.sequential ev.offset = ev.forward := by
    rw [sequential, ReadEvent.forward, covers_eq htail, hexp.err, hexp.before, pos]
    simp
  unfold serve
  rw [hseq, Cursor.next]
  cases hforward : ev.forward with
  | true =>
    rw [if_pos rfl, if_pos rfl, hexp.reply hforward]
  | false =>
    rw [if_neg Bool.false_ne_true, if_neg Bool.false_ne_true]
    have hcase := front_cases ev.before ev.offset ev.size
    have hfront := hother hforward
    generalize front ev.before ev.offset ev.size = f at hcase hfront
    cases hcase with
    | reports hoff herr => simp [ReadEvent.forward, hoff, herr] at hforward
    | pull => cases hfront
    | @window buf herr hbuf hin =>
      obtain ⟨hreply, -⟩ := Front.reply.inj hfront
      have hwindow : D.window ev.offset = some buf := by
        have hcov := covers_eq htail ev.offset
        rw [Inner.covers_eq hbuf, decide_eq_true hin] at hcov
        obtain ⟨buf', hbuf'⟩ := Option.isSome_iff_exists.mp hcov.symm
        have hkept : ev.before.tailBuf = D.tail.bind Except.toOption := congrArg Prod.snd htail
        rw [(window_eq_some hbuf').1, hbuf] at hkept
        cases hkept
        exact hbuf'
      rw [hwindow, ← hreply]
      simp only [windowBytes, bufOrigin_toNat]
    | order hoff hout =>
      obtain ⟨hreply, -⟩ := Front.reply.inj hfront
      have hwindow : D.window ev.offset = none := by
        have hcov := covers_eq htail ev.offset
        rw [hout] at hcov
        exact Option.isNone_iff_eq_none.mp (by simpa using hcov.symm)
      rw [hwindow, ← hreply]
      simp only [hexp.before, pos]

end Document
end Stream
end ClickFs
