import ClickFs.Error
import ClickFs.Lib.Lts
import ClickFs.Lib.Rust

/-!
# `stream.rs` — one open stream file

A `StreamHandle` is three parties around one channel: the producer task that
`spawn` starts on the runtime, the 8-slot `mpsc` channel, and the threads inside
`read_blocking`. All of them interleave, and so does `release`, which cancels the
task and finally drops the receiver. The state below holds the three parties and
`step` is one atomic step of one of them; the schedule decides who moves.

## What is atomic

`read_blocking` is three critical sections of the `inner` mutex, and they are the
steps here: *check* (`need_materialize`), *install* (the result of
`materialize_tail`, which runs between the two without the lock), and *serve*. The
serving section is one step when it returns early. Otherwise it keeps the lock
across `rx.recv().await`, so the receive loop is a step for each message and the
lock is held in between (`lock`).

The task's steps are its await points: the request, the `select!`, the `send`.
`notified()` creates its future at the top of each loop iteration, which is why
`looping` and `waiting` are two states and not one.

`reverse_warned` and the log lines choose no branch and are left out.
-/

set_option autoImplicit false

namespace ClickFs
namespace Stream

open Rust

/-- The pseudo-size reported for stream files: `u64::MAX / 2`. A stream has no size before it is
    read, and this one is large enough that no program stops reading before the real end. -/
def pseudoEof : UInt64 := 0xFFFF_FFFF_FFFF_FFFF / 2

/-- Reverse-pread distance that flips a read into "this is tail" mode. Smaller jumps ahead are
    still taken for a mistake of the reader. -/
def tailTriggerGap : UInt64 := 32 * 1024 * 1024

/-- A `bytes::Bytes`. It is one allocation, so its length is bounded. -/
structure Bytes where
  data : List UInt8
  len_le : data.length ≤ isizeMax
deriving DecidableEq

def Bytes.len (b : Bytes) : Nat := b.data.length

/-- Per-table info needed to materialize a tail buffer on demand. -/
structure TailContext where
  db : String
  tbl : String
  orderExpr : String
  partition : Option String
  rows : UInt32
deriving DecidableEq, Repr

/-! ## The upstream, as the task will see it -/

/-- How a response body ends. -/
inductive Ending
  | eof
  | failed (e : QueryError)
deriving DecidableEq

/-- What `stream.next()` yields, one item at a time. Nothing follows an error: the task leaves its
    loop there. The body is fixed with the run, and how fast it comes is a matter of the schedule.
    -/
structure Body where
  chunks : List Bytes
  ending : Ending
deriving DecidableEq

/-- What `query_stream_with_id` resolves to. -/
abbrev Upstream := Except QueryError Body

/-- One item of the channel. An error travels in the channel behind the bytes that came before it.
    -/
abbrev Msg := Except QueryError Bytes

/-- The task, by the await point it is at. Everything between two of these happens without another
    party seeing it. -/
inductive Task
  /-- awaiting `query_stream_with_id` -/
  | requesting (up : Upstream)
  /-- at the top of the loop, before `cancel_task.notified()` is created -/
  | looping (rest : Body)
  /-- in `select!`; `notified` is whether its `Notified` future has been woken. With a
      chunk ready as well, `select!` takes either branch. -/
  | waiting (rest : Body) (notified : Bool)
  /-- awaiting `tx.send(Ok(bytes))` -/
  | sending (bytes : Bytes) (rest : Body)
  /-- awaiting `tx.send(Err(e))`, after which it leaves the loop whatever happens -/
  | sendingErr (e : QueryError)
  /-- finished; `tx` is dropped -/
  | done
deriving DecidableEq

/-- `Notify::notify_waiters`: wakes the `Notified` future that exists, if one does, and stores no
    permit. In every other state of the task the notification is lost. -/
def Task.notifyWaiters : Task → Task
  | .waiting rest _ => .waiting rest true
  | t => t

/-! ## The reader's side -/

/-- The state behind the mutex; the receiver `rx` is the handle's `chan`. -/
structure Inner where
  /-- Bytes already pulled from rx but not yet consumed by read(). -/
  pending : List UInt8
  /-- Bytes already returned to the kernel. -/
  pos : UInt64
  upstreamDone : Bool
  lastErr : Option QueryError
  tailBuf : Option Bytes
  tailAttempted : Bool
deriving DecidableEq

def Inner.new : Inner :=
  { pending := [], pos := 0, upstreamDone := false, lastErr := none, tailBuf := none,
    tailAttempted := false }

/-- What `read_blocking` gives back. `panicked` is a panic of plain arithmetic or of a slice
    index, kept as a reply so that its absence can be proved and not assumed. -/
inductive ReadReply
  | ok (bytes : List UInt8)
  | err (e : ClickFsError)
  | panicked
deriving DecidableEq

/-- The check of the first critical section. The position and the gap are added with saturation,
    so a read at or below the position never triggers. -/
def needMaterialize (tail : Option TailContext) (g : Inner) (offset : UInt64) : Bool :=
  offset != g.pos && !g.tailAttempted && g.tailBuf.isNone && tail.isSome
    && decide (saturatingAdd g.pos tailTriggerGap < offset)

/-- The second critical section: record the attempt, keep the buffer. A failure is recorded too,
    so the next read that is far ahead does not try again. -/
def Inner.installTail (g : Inner) (mat : Except QueryError Bytes) : Inner :=
  match mat with
  | .ok buf => { g with tailAttempted := true, tailBuf := some buf }
  | .error _ => { g with tailAttempted := true }

/-- Where the buffer is pinned: it ends at the pseudo-EOF. -/
def bufOrigin (buf : Bytes) : UInt64 := saturatingSub pseudoEof (UInt64.ofNat buf.len)

/-- The tail buffer hit. `none` falls through to the live stream. Both ends of the slice are
    computed as the source does, with its underflow and its bounds check. -/
def tailHit (buf : Bytes) (offset : UInt64) (size : Nat) : Option ReadReply :=
  if bufOrigin buf ≤ offset ∧ offset < pseudoEof then
    match sub? offset (bufOrigin buf) with
    | none => some .panicked
    | some rel =>
      let loc := rel.toNat
      if buf.len ≤ loc then some (.ok [])
      else
        let take := min size (buf.len - loc)
        match slice? buf.data loc (loc + take) with
        | none => some .panicked
        | some out => some (.ok out)
  else if pseudoEof ≤ offset then some (.ok [])
  else none

/-- How the serving section starts: with an early return, or by entering the
    receive loop. -/
inductive Front
  | reply (r : ReadReply) (g : Inner)
  | pull

/-- The serving section up to the receive loop. -/
def front (g : Inner) (offset : UInt64) (size : Nat) : Front :=
  match (if offset = g.pos then g.lastErr else none) with
  | some e => .reply (.err (.query e)) { g with lastErr := none }
  | none =>
    match g.tailBuf.bind fun buf => tailHit buf offset size with
    | some r => .reply r g
    | none => if offset ≠ g.pos then .reply (.err (.readOrder g.pos offset)) g else .pull

/-- The condition of the receive loop. -/
def wantsMore (g : Inner) (size : Nat) : Bool := decide (g.pending.length < size) && !g.upstreamDone

/-- One turn of the receive loop; `none` is the closed, drained channel. An error is stored and
    not returned: the bytes in front of it have to go out first. -/
def Inner.onRecv (g : Inner) : Option Msg → Inner
  | some (.ok bytes) => { g with pending := g.pending ++ bytes.data }
  | some (.error e) => { g with upstreamDone := true, lastErr := some e }
  | none => { g with upstreamDone := true }

/-- After the loop. `pos` wraps, as the release build does. The stored error is taken here only
    when nothing is pending. -/
def finish (g : Inner) (size : Nat) : ReadReply × Inner :=
  match (if g.pending.isEmpty then g.lastErr else none) with
  | some e => (.err (.query e), { g with lastErr := none })
  | none =>
    let take := min size g.pending.length
    (.ok (g.pending.take take),
      { g with pending := g.pending.drop take, pos := g.pos + UInt64.ofNat take })

/-! ## The handle -/

abbrev Tid := Nat

/-- Where one thread is in `read_blocking`: before which critical section, or in the receive loop.
    -/
inductive Reader
  | idle
  | checking (offset : UInt64) (size : Nat)
  /-- inside `materialize_tail`, without the lock -/
  | materializing (offset : UInt64) (size : Nat)
  | installing (offset : UInt64) (size : Nat) (mat : Except QueryError Bytes)
  | serving (offset : UInt64) (size : Nat)
  /-- in the receive loop, holding the lock; `before` is the state it was taken in -/
  | pulling (size : Nat) (before : Inner)
deriving DecidableEq

/-- How far the handle is on its way out: in the open-file table; removed from it by
    `release`, which cancels; its last `Arc` gone, whose `Drop` cancels again; its
    fields dropped, and the receiver with them. -/
inductive Life
  | opened | released | dropping | closed
deriving DecidableEq, Repr

structure Handle where
  tail : Option TailContext
  task : Task
  /-- the channel: sent and not yet received, oldest first -/
  chan : List Msg
  inner : Inner
  /-- the reader that holds the mutex across an await -/
  lock : Option Tid
  readers : Tid → Reader
  /-- `Arc` snapshots held by reads in progress -/
  refs : Nat
  life : Life

/-- `StreamHandle::spawn` -/
def Handle.spawn (up : Upstream) (tail : Option TailContext) : Handle :=
  { tail, task := .requesting up, chan := [], inner := .new, lock := none,
    readers := fun _ => .idle, refs := 0, life := .opened }

/-- One completed call, with the mutex's content when its serving section began and when it ended.
    The properties of reads are stated over these two, since between them and the call itself
    other threads may have been served. -/
structure ReadEvent where
  thread : Tid
  offset : UInt64
  size : Nat
  before : Inner
  reply : ReadReply
  after : Inner

inductive Event
  /-- `materialize_tail` is issued for this table -/
  | materialize (thread : Tid) (tail : TailContext)
  | read (ev : ReadEvent)

inductive Action
  -- the task
  | connect | enterSelect | cancelled | next | send | sendFails
  -- `read_blocking`
  | call (t : Tid) (offset : UInt64) (size : Nat)
  | check (t : Tid)
  | answer (t : Tid) (mat : Except QueryError Bytes)
  | install (t : Tid)
  | serve (t : Tid)
  | recv (t : Tid)
  | finish (t : Tid)
  -- `release`, then `Drop`
  | release | drop | dropRx

/-- The capacity `spawn` gives the channel. -/
def chanCap : Nat := 8

def Handle.setReader (s : Handle) (t : Tid) (r : Reader) : Handle :=
  { s with readers := Function.update s.readers t r }

@[simp] theorem Handle.setReader_self (s : Handle) (t : Tid) (r : Reader) :
    (s.setReader t r).readers t = r := Function.update_self ..

theorem Handle.setReader_of_ne (s : Handle) {t t' : Tid} (h : t' ≠ t) (r : Reader) :
    (s.setReader t r).readers t' = s.readers t' := Function.update_of_ne h ..

theorem Handle.forall_setReader {P : Reader → Prop} {s : Handle} {t : Tid} {r : Reader}
    (h : ∀ t', P (s.readers t')) (hr : P r) (t' : Tid) : P ((s.setReader t r).readers t') := by
  by_cases ht : t' = t
  · subst ht
    rwa [setReader_self]
  · rw [setReader_of_ne s ht]
    exact h t'

/-- The thread returns from `read_blocking`, leaving `g` behind the mutex. Its `Arc` snapshot goes
    with it. -/
def Handle.returns (s : Handle) (t : Tid) (g : Inner) : Handle :=
  { s.setReader t .idle with inner := g, lock := none, refs := s.refs - 1 }

/-- Steps of the producer task. `send` and `sendFails` are the two ways out of an awaited
    `tx.send`: there is room, or the receiver is gone. -/
def stepTask (s : Handle) : Action → Option Handle
  | .connect =>
    match s.task with
    | .requesting (.ok body) => some { s with task := .looping body }
    | .requesting (.error e) => some { s with task := .sendingErr e }
    | _ => none
  | .enterSelect =>
    match s.task with
    | .looping rest => some { s with task := .waiting rest false }
    | _ => none
  | .cancelled =>
    match s.task with
    | .waiting _ true => some { s with task := .done }
    | _ => none
  | .next =>
    match s.task with
    | .waiting ⟨bytes :: rest, ending⟩ _ => some { s with task := .sending bytes ⟨rest, ending⟩ }
    | .waiting ⟨[], .failed e⟩ _ => some { s with task := .sendingErr e }
    | .waiting ⟨[], .eof⟩ _ => some { s with task := .done }
    | _ => none
  | .send =>
    if s.life ≠ .closed ∧ s.chan.length < chanCap then
      match s.task with
      | .sending bytes rest => some { s with task := .looping rest, chan := s.chan ++ [.ok bytes] }
      | .sendingErr e => some { s with task := .done, chan := s.chan ++ [.error e] }
      | _ => none
    else none
  | .sendFails =>
    if s.life = .closed then
      match s.task with
      | .sending _ _ => some { s with task := .done }
      | .sendingErr _ => some { s with task := .done }
      | _ => none
    else none
  | _ => none

/-- Steps of one thread inside `read_blocking`. A new call needs the handle in the open-file
    table; a call that is under way holds its `Arc` and goes on after `release`. -/
def stepReader (s : Handle) : Action → Option (Handle × List Event)
  | .call t offset size =>
    match s.readers t with
    | .idle =>
      if s.life = .opened then
        some ({ s.setReader t (.checking offset size) with refs := s.refs + 1 }, [])
      else none
    | _ => none
  | .check t =>
    match s.readers t, s.lock with
    | .checking offset size, none =>
      match needMaterialize s.tail s.inner offset, s.tail with
      | true, some tail => some (s.setReader t (.materializing offset size), [.materialize t tail])
      | _, _ => some (s.setReader t (.serving offset size), [])
    | _, _ => none
  | .answer t mat =>
    match s.readers t with
    | .materializing offset size => some (s.setReader t (.installing offset size mat), [])
    | _ => none
  | .install t =>
    match s.readers t, s.lock with
    | .installing offset size mat, none =>
      some ({ s.setReader t (.serving offset size) with inner := s.inner.installTail mat }, [])
    | _, _ => none
  | .serve t =>
    match s.readers t, s.lock with
    | .serving offset size, none =>
      match front s.inner offset size with
      | .reply r g => some (s.returns t g, [.read ⟨t, offset, size, s.inner, r, g⟩])
      | .pull => some ({ s.setReader t (.pulling size s.inner) with lock := some t }, [])
    | _, _ => none
  | .recv t =>
    match s.readers t with
    | .pulling size _ =>
      if wantsMore s.inner size then
        match s.chan with
        | m :: rest => some ({ s with inner := s.inner.onRecv (some m), chan := rest }, [])
        | [] =>
          if s.task = .done then some ({ s with inner := s.inner.onRecv none }, []) else none
      else none
    | _ => none
  | .finish t =>
    match s.readers t with
    | .pulling size before =>
      if wantsMore s.inner size then none
      else
        let (r, g) := Stream.finish s.inner size
        -- the loop is entered at `offset == pos` only
        some (s.returns t g, [.read ⟨t, before.pos, size, before, r, g⟩])
    | _ => none
  | _ => none

/-- `release` and `Drop for StreamHandle`. The receiver is dropped as a field, after `drop` has
    run; a task that is sending learns of it then. -/
def stepRelease (s : Handle) : Action → Option Handle
  | .release =>
    if s.life = .opened then some { s with life := .released, task := s.task.notifyWaiters }
    else none
  | .drop =>
    if s.life = .released ∧ s.refs = 0 then
      some { s with life := .dropping, task := s.task.notifyWaiters }
    else none
  | .dropRx => if s.life = .dropping then some { s with life := .closed } else none
  | _ => none

def step (s : Handle) (a : Action) : Option (Handle × List Event) :=
  match a with
  | .connect | .enterSelect | .cancelled | .next | .send | .sendFails =>
    (stepTask s a).map fun s' => (s', [])
  | .release | .drop | .dropRx => (stepRelease s a).map fun s' => (s', [])
  | _ => stepReader s a

/-- The handle as a system: every schedule of its parties. -/
def sys : Lts Handle Action Event := ⟨step⟩

end Stream
end ClickFs
