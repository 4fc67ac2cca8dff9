import ClickFs.Stream.Cursor
import ClickFs.Stream.Window

/-!
# A stream handle is a cursor

Under every schedule that leaves the handle open, the events of the run can be read
one by one by a `Cursor` over the upstream's bytes: a read at the position gets the
reply the cursor gives, any other read leaves the cursor where it was. The chunks,
the channel and the interleaving are not in the cursor, so the replies do not depend
on them.

The relation that carries it is `Matches`. Its clause `left` is the conservation law:
what the cursor has left is what is pending, followed by what is in the channel,
followed by what the task will still send. Its clause `stage` says where the ending
is. Between two critical sections it is `Settled`: still on its way, or met and
accounted for. Inside the receive loop there is a third place, `Met`, where the loop
has run into it and the read has not returned yet.
-/

set_option autoImplicit false

namespace ClickFs
namespace Stream

/-! ## What the upstream says -/

def Upstream.body : Upstream → Body
  | .ok body => body
  | .error e => ⟨[], .failed e⟩

/-- The bytes before the EOF or the error. -/
def Upstream.bytes (up : Upstream) : List UInt8 := up.body.chunks.flatMap Bytes.data

def Upstream.ending (up : Upstream) : Ending := up.body.ending

/-- The bytes of a list of messages. -/
def payload : List Msg → List UInt8
  | [] => []
  | .ok bytes :: ms => bytes.data ++ payload ms
  | .error _ :: ms => payload ms

theorem payload_msgs (b : Body) : payload b.msgs = b.chunks.flatMap Bytes.data := by
  obtain ⟨chunks, ending⟩ := b
  unfold Body.msgs
  induction chunks with
  | nil => cases ending <;> rfl
  | cons c cs ih =>
    rw [List.map_cons, List.cons_append, payload, ih, List.flatMap_cons]

theorem script_requesting (up : Upstream) : (Task.requesting up).script = up.body.msgs := by
  cases up <;> rfl

def Ending.error : Ending → Option QueryError
  | .eof => none
  | .failed e => some e

/-! ## Reading the events -/

/-- The read is answered by the forward stream: it is at the position, and no window covers it (a
    stored error comes before the window). Any other read leaves the stream alone. -/
def ReadEvent.forward (ev : ReadEvent) : Bool :=
  ev.offset == ev.before.pos && (ev.before.lastErr.isSome || !ev.before.covers ev.offset)

/-- Where the cursor is after a read. Only a forward read moves it. -/
def Cursor.next (c : Cursor) (ev : ReadEvent) : Cursor :=
  if ev.forward then (c.read ev.size).2 else c

/-- The cursor accounts for a read of the handle: the position before and after, and the reply
    where the read is the stream's. -/
structure Cursor.Explains (c : Cursor) (ev : ReadEvent) : Prop where
  before : ev.before.pos = UInt64.ofNat c.off
  after : ev.after.pos = UInt64.ofNat (c.next ev).off
  drained : ev.before.upstreamDone = c.drained
  err : ev.before.lastErr = c.err
  reply : ev.forward = true → ev.reply = (c.read ev.size).1

/-- The cursor reads one event: a materialization is none of its concern, and a read has to be
    explained. -/
inductive Cursor.Accepts (c : Cursor) : Event → Cursor → Prop
  | materialize (t : Tid) (tail : TailContext) : Accepts c (.materialize t tail) c
  | read {ev : ReadEvent} (h : c.Explains ev) : Accepts c (.read ev) (c.next ev)

/-! ## The relation -/

/-- The ending is on its way, or met and accounted for. This is how things stand whenever nobody
    holds the lock. -/
structure Settled (g : Inner) (incoming : List Msg) (c : Cursor) : Prop where
  done : g.upstreamDone = c.drained
  err : g.lastErr = c.err
  met : c.drained = true → incoming = []
  ahead : c.drained = false → ∃ chunks, incoming = Body.msgs ⟨chunks, c.ending⟩

/-- The receive loop of a read of `size` bytes has run into the ending. The handle knows it and
    the cursor does not yet: for the cursor the read is one step, which ends when the loop does. -/
structure Met (g : Inner) (incoming : List Msg) (c : Cursor) (size : Nat) : Prop where
  fresh : c.drained = false
  done : g.upstreamDone = true
  err : g.lastErr = c.ending.error
  dry : incoming = []
  short : g.pending.length < size

/-- What the read in the receive loop found when it took the lock. The event shows the mutex's
    content from that time, so it has to be remembered until the read returns. -/
structure Entered (before : Inner) (c : Cursor) : Prop where
  pos : before.pos = UInt64.ofNat c.off
  done : before.upstreamDone = c.drained
  err : before.lastErr = none
  noErr : c.err = none
  out : before.covers before.pos = false

def Stage (s : Handle) (c : Cursor) : Prop :=
  match s.lock with
  | none => Settled s.inner s.incoming c
  | some t => ∃ size before, s.readers t = .pulling size before ∧ Entered before c ∧
      (Settled s.inner s.incoming c ∨ Met s.inner s.incoming c size)

structure Matches (up : Upstream) (s : Handle) (c : Cursor) : Prop where
  content : c.content = up.bytes
  ending : c.ending = up.ending
  left : c.content.drop c.off = s.inner.pending ++ payload s.incoming
  pos : s.inner.pos = UInt64.ofNat c.off
  unnotified : s.task.Unnotified
  locked : ∀ t size before, s.readers t = .pulling size before → s.lock = some t
  stage : Stage s c

theorem Matches.spawn (up : Upstream) (tail : Option TailContext) :
    Matches up (.spawn up tail) (.start up.bytes up.ending) where
  content := rfl
  ending := rfl
  left := by
    rw [Handle.incoming, Handle.spawn, script_requesting]
    exact (payload_msgs up.body).symm
  pos := rfl
  unnotified := trivial
  locked := fun _ _ _ h => by cases h
  stage :=
    { done := rfl
      err := rfl
      met := fun h => by cases h
      ahead := fun _ => ⟨up.body.chunks, script_requesting up⟩ }

/-! ## Steps that do not move the cursor -/

/-- The fields of the mutex's content that the forward stream lives in. The tail fields are left
    out: installing a buffer does not disturb the stream. -/
def Inner.stream (g : Inner) : List UInt8 × UInt64 × Bool × Option QueryError :=
  (g.pending, g.pos, g.upstreamDone, g.lastErr)

theorem Inner.stream_eq_iff {g g' : Inner} : g.stream = g'.stream ↔
    g.pending = g'.pending ∧ g.pos = g'.pos ∧ g.upstreamDone = g'.upstreamDone ∧
      g.lastErr = g'.lastErr := by
  simp only [Inner.stream, Prod.mk.injEq]

@[simp] theorem Inner.installTail_stream (g : Inner) (mat : Except QueryError Bytes) :
    (g.installTail mat).stream = g.stream := by
  cases mat <;> rfl

/-- A step that leaves the stream, the pipe and the lock alone leaves the cursor where it is. Most
    steps of most threads are of this kind. -/
theorem Matches.frame {up : Upstream} {s s₁ : Handle} {c : Cursor} (h : Matches up s c)
    (hinner : s₁.inner.stream = s.inner.stream) (hpipe : s₁.incoming = s.incoming)
    (hun : s₁.task.Unnotified) (hlock : s₁.lock = s.lock)
    (hpull : ∀ t size before,
      s₁.readers t = .pulling size before ↔ s.readers t = .pulling size before) :
    Matches up s₁ c := by
  obtain ⟨hpending, hpos, hdone, herr⟩ := Inner.stream_eq_iff.mp hinner
  have hsettled (hs : Settled s.inner s.incoming c) : Settled s₁.inner s₁.incoming c :=
    ⟨hdone.trans hs.done, herr.trans hs.err, fun hd => hpipe.trans (hs.met hd),
      fun hd => hpipe ▸ hs.ahead hd⟩
  refine ⟨h.content, h.ending, ?_, hpos.trans h.pos, hun, ?_, ?_⟩
  · rw [hpending, hpipe, h.left]
  · intro t size before hr
    rw [hlock]
    exact h.locked t size before ((hpull t size before).mp hr)
  · have hstage := h.stage
    unfold Stage at hstage ⊢
    rw [hlock]
    split at hstage
    · exact hsettled hstage
    · obtain ⟨size, before, hr, hent, hs⟩ := hstage
      refine ⟨size, before, (hpull _ _ _).mpr hr, hent, ?_⟩
      rcases hs with hs | hm
      · exact .inl (hsettled hs)
      · exact .inr ⟨hm.fresh, hdone.trans hm.done, herr.trans hm.err, hpipe.trans hm.dry,
          hpending ▸ hm.short⟩

theorem setReader_pulling_iff {s : Handle} {t : Tid} {r : Reader}
    (hold : ∀ size before, s.readers t ≠ .pulling size before)
    (hnew : ∀ size before, r ≠ .pulling size before) (t' : Tid) (size : Nat) (before : Inner) :
    (s.setReader t r).readers t' = .pulling size before ↔
      s.readers t' = .pulling size before := by
  by_cases ht : t' = t
  · subst ht
    rw [Handle.setReader_self]
    exact ⟨fun h => absurd h (hnew _ _), fun h => absurd h (hold _ _)⟩
  · rw [Handle.setReader_of_ne s ht]

theorem Matches.settled {up : Upstream} {s : Handle} {c : Cursor} (h : Matches up s c)
    (hlock : s.lock = none) : Settled s.inner s.incoming c := by
  have := h.stage
  rwa [Stage, hlock] at this

/-- What is known while a read is in the receive loop: the lock is its own, and the ending is
    settled or just met. -/
theorem Matches.pulling {up : Upstream} {s : Handle} {c : Cursor} (h : Matches up s c)
    {t : Tid} {size : Nat} {before : Inner} (hr : s.readers t = .pulling size before) :
    s.lock = some t ∧ Entered before c ∧
      (Settled s.inner s.incoming c ∨ Met s.inner s.incoming c size) := by
  have hlock := h.locked t size before hr
  have hstage := h.stage
  rw [Stage, hlock] at hstage
  obtain ⟨size', before', hr', hent, hs⟩ := hstage
  rw [hr] at hr'
  cases hr'
  exact ⟨hlock, hent, hs⟩

/-- No reader is in the receive loop while the lock is free. -/
theorem Matches.not_pulling {up : Upstream} {s : Handle} {c : Cursor} (h : Matches up s c)
    (hlock : s.lock = none) (t : Tid) (size : Nat) (before : Inner) :
    s.readers t ≠ .pulling size before := by
  intro hr
  have := h.locked t size before hr
  rw [hlock] at this
  cases this

/-! ## The receive loop -/

theorem finish_err {g : Inner} {e : QueryError} (hp : g.pending = []) (he : g.lastErr = some e)
    (size : Nat) : finish g size = (.err (.query e), { g with lastErr := none }) := by
  simp [finish, hp, he]

theorem finish_ok {g : Inner} (h : g.pending = [] → g.lastErr = none) (size : Nat) :
    finish g size = (.ok (g.pending.take size),
      { g with pending := g.pending.drop size,
               pos := g.pos + UInt64.ofNat (min size g.pending.length) }) := by
  have hnone : (if g.pending.isEmpty then g.lastErr else none) = none := by
    split
    · rename_i hp
      exact h (List.isEmpty_iff.mp hp)
    · rfl
  have htake : g.pending.take (min size g.pending.length) = g.pending.take size := by
    rw [List.take_eq_take_iff, Nat.min_assoc, Nat.min_self]
  have hdrop : g.pending.drop (min size g.pending.length) = g.pending.drop size := by
    rw [List.drop_eq_drop_iff, Nat.min_assoc, Nat.min_self]
  simp only [finish, hnone, htake, hdrop]

/-- What is left of the cursor's content, counted over the three places where it can be. -/
theorem Matches.remaining {up : Upstream} {s : Handle} {c : Cursor} (h : Matches up s c) :
    c.content.length - c.off = s.inner.pending.length + (payload s.incoming).length := by
  rw [← List.length_drop, h.left, List.length_append]

/-- A read that the pending bytes satisfy, or that has nothing left to wait for, is answered from
    them. This is where the conservation law is used. -/
theorem Matches.pread_eq {up : Upstream} {s : Handle} {c : Cursor} (h : Matches up s c)
    {size : Nat} (hsize : size ≤ s.inner.pending.length ∨ s.incoming = []) :
    pread c.content c.off size = s.inner.pending.take size := by
  rw [pread, h.left]
  rcases hsize with hsize | hdry
  · exact List.take_append_of_le_length hsize
  · rw [hdry, payload, List.append_nil]

/-- One message enters the pending bytes, or ends the stream. The cursor does not move: it is the
    read that moves it, when it returns. -/
theorem Matches.recvMsg {up : Upstream} {s : Handle} {c : Cursor} (h : Matches up s c)
    {t : Tid} {size : Nat} {before : Inner} {m : Msg} {rest : List Msg}
    (hr : s.readers t = .pulling size before) (hmore : wantsMore s.inner size = true)
    (hchan : s.chan = m :: rest) :
    Matches up { s with inner := s.inner.onRecv (some m), chan := rest } c := by
  obtain ⟨hshort, hdone⟩ : s.inner.pending.length < size ∧ s.inner.upstreamDone = false := by
    simpa [wantsMore] using hmore
  obtain ⟨hlock, hent, hs | hm⟩ := h.pulling hr
  case inr => rw [hm.done] at hdone; cases hdone
  have hfresh : c.drained = false := hs.done ▸ hdone
  obtain ⟨chunks, hahead⟩ := hs.ahead hfresh
  have hinc : s.incoming = m :: (rest ++ s.task.script) := by
    rw [Handle.incoming, hchan, List.cons_append]
  have hleft := h.left
  rw [hinc] at hleft hahead
  -- the next message is the next chunk, or the error with nothing after it
  cases chunks with
  | nil =>
    cases hend : c.ending with
    | eof => rw [hend] at hahead; cases hahead
    | failed e =>
      rw [hend] at hahead
      obtain ⟨rfl, hnil⟩ := List.cons.inj hahead
      refine ⟨h.content, h.ending, hleft, h.pos, h.unnotified, h.locked, ?_⟩
      rw [Stage, hlock]
      exact ⟨size, before, hr, hent, .inr ⟨hfresh, rfl, hend ▸ rfl, hnil, hshort⟩⟩
  | cons chunk chunks =>
    obtain ⟨rfl, htail⟩ := List.cons.inj hahead
    refine ⟨h.content, h.ending, ?_, h.pos, h.unnotified, h.locked, ?_⟩
    · rw [hleft, payload, ← List.append_assoc]
      rfl
    · rw [Stage, hlock]
      refine ⟨size, before, hr, hent, .inl ⟨hs.done, hs.err, fun hd => ?_, fun _ => ⟨chunks, htail⟩⟩⟩
      rw [hfresh] at hd
      cases hd

/-- The channel is closed and drained: the stream has ended well. -/
theorem Matches.recvEnd {up : Upstream} {s : Handle} {c : Cursor} (h : Matches up s c)
    {t : Tid} {size : Nat} {before : Inner} (hr : s.readers t = .pulling size before)
    (hmore : wantsMore s.inner size = true) (hchan : s.chan = []) (htask : s.task = .done) :
    Matches up { s with inner := s.inner.onRecv none } c := by
  obtain ⟨hshort, hdone⟩ : s.inner.pending.length < size ∧ s.inner.upstreamDone = false := by
    simpa [wantsMore] using hmore
  obtain ⟨hlock, hent, hs | hm⟩ := h.pulling hr
  case inr => rw [hm.done] at hdone; cases hdone
  have hfresh : c.drained = false := hs.done ▸ hdone
  have hdry : s.incoming = [] := by rw [Handle.incoming, hchan, htask]; rfl
  obtain ⟨chunks, hahead⟩ := hs.ahead hfresh
  have hend : c.ending = .eof := by
    rw [hdry, Body.msgs] at hahead
    have hmsgs := (List.append_eq_nil_iff.mp hahead.symm).2
    cases hend : c.ending with
    | eof => rfl
    | failed e => rw [hend] at hmsgs; cases hmsgs
  have herr : s.inner.lastErr = c.ending.error := by rw [hs.err, hent.noErr, hend]; rfl
  refine ⟨h.content, h.ending, h.left, h.pos, h.unnotified, h.locked, ?_⟩
  rw [Stage, hlock]
  exact ⟨size, before, hr, hent, .inr ⟨hfresh, rfl, herr, hdry, hshort⟩⟩

/-! ## The read returns -/

/-- The forward read of `finish`, with the event's state before taken from the time the lock was. -/
theorem forward_of_entered {before : Inner} {c : Cursor} (h : Entered before c) {t : Tid}
    {size : Nat} {r : ReadReply} {g : Inner} :
    ReadEvent.forward ⟨t, before.pos, size, before, r, g⟩ = true := by
  simp [ReadEvent.forward, h.out]

theorem explains_of_entered {before g : Inner} {c c' : Cursor} {t : Tid} {size : Nat}
    {r : ReadReply} (h : Entered before c) (hread : c.read size = (r, c'))
    (hpos : g.pos = UInt64.ofNat c'.off) :
    c.Explains ⟨t, before.pos, size, before, r, g⟩ ∧
      c.next ⟨t, before.pos, size, before, r, g⟩ = c' := by
  have hnext : c.next ⟨t, before.pos, size, before, r, g⟩ = c' := by
    rw [Cursor.next, if_pos (forward_of_entered h), hread]
  exact ⟨⟨h.pos, by rw [hnext]; exact hpos, h.done, h.err.trans h.noErr.symm,
    fun _ => by rw [hread]⟩, hnext⟩

/-- The mutex's content and the pipe agree with the cursor, no read being in the loop. `Matches`
    without the readers, for the moment in which one of them leaves. -/
structure Rests (g : Inner) (incoming : List Msg) (c : Cursor) : Prop where
  left : c.content.drop c.off = g.pending ++ payload incoming
  pos : g.pos = UInt64.ofNat c.off
  settled : Settled g incoming c

/-- A read returns: the lock is free again and the cursor is `c'`. -/
theorem Matches.returned {up : Upstream} {s : Handle} {c c' : Cursor} (h : Matches up s c)
    {t : Tid} {g : Inner}
    (hfree : ∀ t', t' ≠ t → ∀ size before, s.readers t' ≠ .pulling size before)
    (hcontent : c'.content = c.content) (hending : c'.ending = c.ending)
    (hrest : Rests g s.incoming c') : Matches up (s.returns t g) c' where
  content := hcontent.trans h.content
  ending := hending.trans h.ending
  left := hrest.left
  pos := hrest.pos
  unnotified := h.unnotified
  locked := by
    intro t' size before hr
    by_cases ht : t' = t
    · subst ht
      rw [Handle.returns, Handle.setReader_self] at hr
      cases hr
    · exact absurd (Handle.setReader_of_ne s ht _ ▸ hr) (hfree t' ht size before)
  stage := hrest.settled

/-- A read answered without entering the loop: an error, the window, or a rejected offset. -/
theorem Matches.serveReply {up : Upstream} {s : Handle} {c : Cursor} (h : Matches up s c)
    {t : Tid} {offset : UInt64} {size : Nat} {r : ReadReply} {g : Inner} (hlock : s.lock = none)
    (hfront : front s.inner offset size = .reply r g) :
    ∃ c', c.Accepts (.read ⟨t, offset, size, s.inner, r, g⟩) c' ∧
      Matches up (s.returns t g) c' := by
  have hset := h.settled hlock
  have hfree (t' : Tid) (_ : t' ≠ t) := h.not_pulling hlock t'
  -- a read the cursor does not serve leaves it alone
  have hstays (hfwd : ReadEvent.forward ⟨t, offset, size, s.inner, r, s.inner⟩ = false)
      (hg : g = s.inner) : ∃ c', c.Accepts (.read ⟨t, offset, size, s.inner, r, g⟩) c' ∧
        Matches up (s.returns t g) c' := by
    subst hg
    have hnext : c.next ⟨t, offset, size, s.inner, r, s.inner⟩ = c := by
      rw [Cursor.next, hfwd, if_neg Bool.false_ne_true]
    refine ⟨_, .read ⟨h.pos, by rw [hnext]; exact h.pos, hset.done, hset.err, fun hf => ?_⟩, ?_⟩
    · rw [hfwd] at hf
      cases hf
    · rw [hnext]
      exact h.returned hfree rfl rfl ⟨h.left, h.pos, hset⟩
  have hcase := front_cases s.inner offset size
  rw [hfront] at hcase
  cases hcase with
  | @reports e hoff herr =>
    have hcase : Cursor.ReadCase c size (.err (.query e)) c.report := .reports (hset.err ▸ herr)
    have hread := hcase.reply_eq
    have hfwd : ReadEvent.forward ⟨t, offset, size, s.inner, .err (.query e),
        { s.inner with lastErr := none }⟩ = true := by simp [ReadEvent.forward, hoff, herr]
    have hnext : c.next ⟨t, offset, size, s.inner, .err (.query e),
        { s.inner with lastErr := none }⟩ = c.report := by rw [Cursor.next, if_pos hfwd, hread]
    refine ⟨_, .read ⟨h.pos, by rw [hnext]; exact h.pos, hset.done, hset.err,
      fun _ => by rw [hread]⟩, ?_⟩
    rw [hnext]
    exact h.returned hfree rfl rfl ⟨h.left, h.pos, hset.done, rfl, hset.met, hset.ahead⟩
  | window herr hbuf hin =>
    refine hstays ?_ rfl
    have hcov : s.inner.covers offset = true := by rw [Inner.covers_eq hbuf, decide_eq_true hin]
    rw [ReadEvent.forward, Bool.and_eq_false_iff]
    by_cases hoff : offset = s.inner.pos
    · exact .inr (by simp [herr hoff, hcov])
    · exact .inl (by simpa using hoff)
  | order hoff hout => exact hstays (by simp [ReadEvent.forward, hoff]) rfl

/-- The loop was left with enough bytes, or never entered after the ending. -/
theorem Matches.finishSettled {up : Upstream} {s : Handle} {c : Cursor} (h : Matches up s c)
    {size : Nat} (hset : Settled s.inner s.incoming c) (hnone : c.err = none)
    (hstop : size ≤ s.inner.pending.length ∨ s.inner.upstreamDone = true) :
    ∃ c', c.read size = ((finish s.inner size).1, c') ∧
      Rests (finish s.inner size).2 s.incoming c' := by
  have hrem := h.remaining
  have hgoal : size ≤ c.content.length - c.off ∨ c.drained = true := by
    rcases hstop with hsize | hdone
    · left; omega
    · exact .inr (hset.done ▸ hdone)
  have hpread : pread c.content c.off size = s.inner.pending.take size :=
    h.pread_eq (hstop.imp_right fun hdone => hset.met (hset.done ▸ hdone))
  have hlen : (pread c.content c.off size).length = min size s.inner.pending.length := by
    rw [hpread, List.length_take]
  rw [finish_ok fun _ => hset.err.trans hnone, (Cursor.ReadCase.advances hnone hgoal).reply_eq,
    hpread]
  refine ⟨_, rfl, ?_, ?_, ⟨hset.done, hset.err, hset.met, hset.ahead⟩⟩
  · show c.content.drop (c.off + (pread c.content c.off size).length) = _
    have hdrop : s.inner.pending.drop (min size s.inner.pending.length)
        = s.inner.pending.drop size := by
      rw [List.drop_eq_drop_iff, Nat.min_assoc, Nat.min_self]
    rw [hlen, ← List.drop_drop, h.left, List.drop_append_of_le_length (Nat.min_le_right _ _),
      hdrop]
  · show s.inner.pos + _ = UInt64.ofNat (c.off + (pread c.content c.off size).length)
    rw [hlen, h.pos, UInt64.ofNat_add]

theorem Matches.finishMet {up : Upstream} {s : Handle} {c : Cursor} (h : Matches up s c)
    {size : Nat} (hm : Met s.inner s.incoming c size) (hnone : c.err = none) :
    ∃ c', c.read size = ((finish s.inner size).1, c') ∧
      Rests (finish s.inner size).2 s.incoming c' := by
  have hshort := hm.short
  have hrem : c.content.length - c.off = s.inner.pending.length := by
    rw [h.remaining, hm.dry]; rfl
  have hlt : c.content.length - c.off < size := by omega
  have hpread : pread c.content c.off size = s.inner.pending := by
    rw [h.pread_eq (.inr hm.dry), List.take_of_length_le (by omega)]
  -- after a successful read at the ending nothing is left
  have hrest (err : Option QueryError) (herr) (hlast : s.inner.lastErr = err) :
      Rests { s.inner with
          pending := s.inner.pending.drop size,
          pos := s.inner.pos + UInt64.ofNat (min size s.inner.pending.length) }
        s.incoming (c.meet err herr) := by
    refine ⟨?_, ?_, hm.done, hlast, fun _ => hm.dry, fun hd => by cases hd⟩
    · show c.content.drop c.content.length = _
      rw [List.drop_length, List.drop_eq_nil_of_le (by omega), hm.dry]
      rfl
    · show s.inner.pos + _ = UInt64.ofNat c.content.length
      rw [h.pos, Nat.min_eq_right (by omega), ← hrem, ← UInt64.ofNat_add,
        Nat.add_sub_cancel' c.off_le]
  have herr := hm.err
  cases hend : c.ending with
  | eof =>
    rw [hend] at herr
    rw [finish_ok fun _ => herr, (Cursor.ReadCase.meetsEof hnone hlt hm.fresh hend).reply_eq,
      hpread, List.take_of_length_le (by omega)]
    exact ⟨_, rfl, hrest none _ herr⟩
  | failed e =>
    rw [hend] at herr
    by_cases hoff : c.off = c.content.length
    · have hp : s.inner.pending = [] := List.length_eq_zero_iff.mp (by omega)
      rw [finish_err hp herr, (Cursor.ReadCase.fails hnone hlt hm.fresh hend hoff).reply_eq]
      refine ⟨_, rfl, ?_, ?_, hm.done, rfl, fun _ => hm.dry, fun hd => by cases hd⟩
      · show c.content.drop c.content.length = _
        rw [List.drop_length, hp, hm.dry]
        rfl
      · show s.inner.pos = UInt64.ofNat c.content.length
        rw [h.pos, hoff]
    · have hp : s.inner.pending ≠ [] := by
        have := c.off_le
        exact List.ne_nil_of_length_pos (by omega)
      rw [finish_ok fun h0 => absurd h0 hp,
        (Cursor.ReadCase.meetsErr hnone hlt hm.fresh hend hoff).reply_eq, hpread,
        List.take_of_length_le (by omega)]
      exact ⟨_, rfl, hrest (some e) _ herr⟩

/-- The read leaves the receive loop, for whichever of the two reasons. -/
theorem Matches.finish {up : Upstream} {s : Handle} {c : Cursor} (h : Matches up s c)
    {t : Tid} {size : Nat} {before : Inner} (hr : s.readers t = .pulling size before)
    (hmore : wantsMore s.inner size = false) :
    ∃ c', c.Accepts (.read ⟨t, before.pos, size, before, (finish s.inner size).1,
        (finish s.inner size).2⟩) c' ∧ Matches up (s.returns t (finish s.inner size).2) c' := by
  obtain ⟨hlock, hent, hstage⟩ := h.pulling hr
  have hfree (t' : Tid) (ht : t' ≠ t) (size' : Nat) (before' : Inner) :
      s.readers t' ≠ .pulling size' before' := by
    intro hr'
    have := h.locked t' size' before' hr'
    rw [hlock] at this
    exact ht (Option.some.inj this).symm
  obtain ⟨c', hread, hrest⟩ : ∃ c', c.read size = ((Stream.finish s.inner size).1, c') ∧
      Rests (Stream.finish s.inner size).2 s.incoming c' := by
    rcases hstage with hset | hm
    · rw [wantsMore, Bool.and_eq_false_iff] at hmore
      exact h.finishSettled hset hent.noErr (by simpa using hmore)
    · exact h.finishMet hm hent.noErr
  obtain ⟨hexp, hnext⟩ := explains_of_entered (t := t) hent hread hrest.pos
  have hc' : c' = (c.read size).2 := by rw [hread]
  refine ⟨c', hnext ▸ .read hexp, h.returned hfree ?_ ?_ hrest⟩
  · rw [hc', Cursor.read_content]
  · rw [hc', Cursor.read_ending]

/-! ## The run -/

theorem Matches.reader {up : Upstream} {s s₁ : Handle} {c : Cursor} {a : Action}
    {evs : List Event} (h : Matches up s c) (hstep : ReadStep s a s₁ evs) :
    ∃ c', Lts.Reads Cursor.Accepts c evs c' ∧ Matches up s₁ c' := by
  cases hstep with
  | call hr hopen =>
    exact ⟨c, .nil c, h.frame rfl rfl h.unnotified rfl
      (setReader_pulling_iff (by simp [hr]) (by simp))⟩
  | checkMat hr hlock hneed htail =>
    exact ⟨c, .one (.materialize _ _), h.frame rfl rfl h.unnotified rfl
      (setReader_pulling_iff (by simp [hr]) (by simp))⟩
  | checkSkip hr hlock hneed =>
    exact ⟨c, .nil c, h.frame rfl rfl h.unnotified rfl
      (setReader_pulling_iff (by simp [hr]) (by simp))⟩
  | answer hr =>
    exact ⟨c, .nil c, h.frame rfl rfl h.unnotified rfl
      (setReader_pulling_iff (by simp [hr]) (by simp))⟩
  | install hr hlock =>
    exact ⟨c, .nil c, h.frame (Inner.installTail_stream _ _) rfl h.unnotified rfl
      (setReader_pulling_iff (by simp [hr]) (by simp))⟩
  | serveReply hr hlock hfront =>
    obtain ⟨c', hacc, hm⟩ := h.serveReply hlock hfront
    exact ⟨c', .one hacc, hm⟩
  | @servePull t offset size hr hlock hfront =>
    have hset := h.settled hlock
    have hcase := front_cases s.inner offset size
    rw [hfront] at hcase
    obtain ⟨hoff, herr, hout⟩ : offset = s.inner.pos ∧ s.inner.lastErr = none ∧
        s.inner.covers offset = false := by
      cases hcase with
      | pull hoff herr hout => exact ⟨hoff, herr, hout⟩
    refine ⟨c, .nil c, h.content, h.ending, h.left, h.pos, h.unnotified, ?_, ?_⟩
    · intro t' size' before' hr'
      by_cases ht : t' = t
      · rw [ht]
      · exact absurd (Handle.setReader_of_ne s ht _ ▸ hr') (h.not_pulling hlock t' _ _)
    · exact ⟨size, s.inner, Handle.setReader_self .., ⟨h.pos, hset.done, herr,
        hset.err.symm.trans herr, hoff ▸ hout⟩, .inl hset⟩
  | recvMsg hr hmore hchan => exact ⟨c, .nil c, h.recvMsg hr hmore hchan⟩
  | recvEnd hr hmore hchan hdone => exact ⟨c, .nil c, h.recvEnd hr hmore hchan hdone⟩
  | finish hr hmore =>
    obtain ⟨c', hacc, hm⟩ := h.finish hr hmore
    exact ⟨c', .one hacc, hm⟩

theorem Matches.step {up : Upstream} {s s₁ : Handle} {c : Cursor} {a : Action}
    {evs : List Event} (hopen : s₁.life = .opened) (h : Matches up s c)
    (hstep : step s a = some (s₁, evs)) :
    ∃ c', Lts.Reads Cursor.Accepts c evs c' ∧ Matches up s₁ c' := by
  rcases step_cases hstep with ⟨task, chan, ht, rfl, rfl⟩ | hr | ⟨life, task, hl, rfl, rfl⟩
  · obtain ⟨hpipe, hun⟩ := ht.pipe hopen h.unnotified
    exact ⟨c, .nil c, h.frame rfl hpipe hun rfl (fun _ _ _ => Iff.rfl)⟩
  · exact h.reader hr
  · cases hl <;> cases hopen

/-- A run of a fresh handle that nobody has released. After `release` the task may drop chunks, so
    a read that is still under way then may get less. -/
structure OpenRun (up : Upstream) (tail : Option TailContext) (as : List Action)
    (tr : List Event) (s : Handle) : Prop where
  exec : sys.Exec (.spawn up tail) as tr s
  opened : s.life = .opened

/-- **The handle is a cursor.** A cursor over the upstream's bytes reads the events of every open
    run. The schedule does not occur in the conclusion: it can decide when a read is answered,
    never with what. -/
theorem OpenRun.reads {up : Upstream} {tail : Option TailContext} {as : List Action}
    {tr : List Event} {s : Handle} (h : OpenRun up tail as tr s) :
    ∃ c, Lts.Reads Cursor.Accepts (.start up.bytes up.ending) tr c ∧ Matches up s c :=
  Lts.Exec.simulates (Q := fun s => s.life = .opened) (R := Matches up)
    (fun _ _ _ _ => opened_of_step) (fun _ _ _ _ _ hopen hm hstep => hm.step hopen hstep)
    h.exec h.opened (Matches.spawn up tail)

end Stream
end ClickFs
