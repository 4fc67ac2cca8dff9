import Mathlib.Algebra.BigOperators.Group.Finset.Basic
import ClickFs.Stream.Release

/-!
# Every read returns, and a released stream winds down

Four parties wait for each other here: the task waits for room in the channel, the
reader in the receive loop waits for the channel, the other readers wait for its lock,
and `Drop` waits for all of them. Nobody waits in a circle, and nobody goes round for
ever. Each step takes one of a number of turns that the handle has left, and only a new
call brings more of them; and a handle in which nobody can move is at rest: no read is
in progress, and if it was released it is closed and its task is over.

What the server does is a step like any other, so "it goes on" includes that the server
answers. A chunk that never comes is `stranded_of_not_stops`, not this.
-/

set_option autoImplicit false

namespace ClickFs
namespace Stream

/-- What the parties do by themselves. A new call is the kernel's, a `release` too: a stream that
    waits for one of these is not stuck but idle. -/
def Action.Own : Action → Prop
  | .call _ _ _ | .release => False
  | _ => True

def Action.isCall : Action → Bool
  | .call _ _ _ => true
  | _ => false

/-! ## The turns a handle has left -/

def Body.turns (b : Body) : Nat := 4 * b.chunks.length

/-- A chunk is four of them: `next`, `send`, back into `select!`, and its `recv`. The measure
    counts what can still happen, not what will. -/
def Task.turns : Task → Nat
  | .requesting (.ok body) => body.turns + 5
  | .requesting (.error _) => 3
  | .looping rest => rest.turns + 4
  | .waiting rest _ => rest.turns + 3
  | .sending _ rest => rest.turns + 6
  | .sendingErr _ => 2
  | .done => 0

def Reader.turns : Reader → Nat
  | .idle => 0
  | .checking _ _ => 5
  | .materializing _ _ => 4
  | .installing _ _ _ => 3
  | .serving _ _ => 2
  | .pulling _ _ => 1

def Life.turns : Life → Nat
  | .opened => 3
  | .released => 2
  | .dropping => 1
  | .closed => 0

/-- The turn in which the receive loop finds the end of the channel. It is found once. -/
def Inner.turns (g : Inner) : Nat := if g.upstreamDone then 0 else 1

def Handle.readerTurns (s : Handle) (busy : Finset Tid) : Nat :=
  ∑ t ∈ busy, (s.readers t).turns

def Handle.turns (s : Handle) (busy : Finset Tid) : Nat :=
  s.task.turns + s.chan.length + s.inner.turns + s.life.turns + s.readerTurns busy

/-- `n` turns are left, the reads in progress being among `busy`. Finitely many threads are inside
    at any time, though any number of them can call. -/
def Left (s : Handle) (n : Nat) : Prop :=
  ∃ busy : Finset Tid, (∀ t, t ∉ busy → s.readers t = .idle) ∧ s.turns busy = n

@[simp] theorem Task.turns_notifyWaiters (t : Task) : t.notifyWaiters.turns = t.turns := by
  cases t <;> rfl

theorem Handle.readerTurns_setReader {s : Handle} {busy : Finset Tid} {t : Tid} (ht : t ∈ busy)
    (r : Reader) :
    (s.setReader t r).readerTurns busy + (s.readers t).turns = s.readerTurns busy + r.turns := by
  have hrest : ∑ t' ∈ busy.erase t, ((s.setReader t r).readers t').turns
      = ∑ t' ∈ busy.erase t, (s.readers t').turns := by
    apply Finset.sum_congr rfl
    intro t' ht'
    rw [setReader_of_ne s (Finset.ne_of_mem_erase ht')]
  have hnew := Finset.add_sum_erase busy (fun t' => ((s.setReader t r).readers t').turns) ht
  have hold := Finset.add_sum_erase busy (fun t' => (s.readers t').turns) ht
  simp only [setReader_self] at hnew
  rw [hrest] at hnew
  unfold readerTurns
  omega

theorem mem_of_busy {s : Handle} {busy : Finset Tid} {t : Tid}
    (h : ∀ t, t ∉ busy → s.readers t = .idle) (ht : s.readers t ≠ .idle) : t ∈ busy := by
  by_contra hno
  exact ht (h t hno)

theorem outside_setReader {s : Handle} {busy : Finset Tid} {t : Tid} {r : Reader}
    (h : ∀ t, t ∉ busy → s.readers t = .idle) (ht : t ∈ busy) (t' : Tid) (ht' : t' ∉ busy) :
    (s.setReader t r).readers t' = .idle := by
  have hne : t' ≠ t := by
    intro heq
    exact ht' (heq ▸ ht)
  rw [Handle.setReader_of_ne s hne]
  exact h t' ht'

theorem Inner.turns_installTail (g : Inner) (mat : Except QueryError Bytes) :
    (g.installTail mat).turns = g.turns := by
  cases mat <;> rfl

theorem Inner.turns_onRecv_le (g : Inner) (m : Msg) : (g.onRecv (some m)).turns ≤ g.turns := by
  cases m with
  | ok bytes => exact Nat.le_refl _
  | error e => simp [onRecv, turns]

theorem front_turns {g g' : Inner} {offset : UInt64} {size : Nat} {r : ReadReply}
    (h : front g offset size = .reply r g') : g'.turns = g.turns := by
  unfold front at h
  split at h
  · injection h with _ hg
    rw [← hg]
    rfl
  · split at h
    · injection h with _ hg
      rw [← hg]
    · split at h
      · injection h with _ hg
        rw [← hg]
      · cases h

theorem finish_turns (g : Inner) (size : Nat) : (finish g size).2.turns = g.turns := by
  unfold finish
  split <;> rfl

theorem TaskStep.turns {s : Handle} {a : Action} {task : Task} {chan : List Msg}
    (h : TaskStep s a task chan) :
    task.turns + chan.length + 1 ≤ s.task.turns + s.chan.length := by
  cases h with
  | connectOk h | connectErr h | enterSelect h | cancelled h | nextChunk h | nextErr h
    | nextEof h | sendFails _ h | sendErrFails _ h =>
    rw [h]
    simp only [Task.turns, Body.turns, List.length_cons]
    omega
  | send _ _ h | sendErr _ _ h =>
    rw [h]
    simp only [Task.turns, Body.turns, List.length_append, List.length_singleton]
    omega

/-- What an action brings in: a call is six turns, this one and five to its reply. Everything else
    has to live on what is there. -/
def Action.income : Action → Nat
  | .call _ _ _ => 6
  | _ => 0

/-- A thread goes from `old` to `new` and takes a turn doing so. -/
theorem Left.moves {s s₁ : Handle} {n : Nat} {t : Tid} {new : Reader} (h : Left s n)
    (hbusy : s.readers t ≠ .idle) (hreaders : s₁.readers = (s.setReader t new).readers)
    (hlt : s₁.task.turns + s₁.chan.length + s₁.inner.turns + s₁.life.turns + new.turns + 1
      ≤ s.task.turns + s.chan.length + s.inner.turns + s.life.turns + (s.readers t).turns) :
    ∃ n₁, Left s₁ n₁ ∧ n₁ + 1 ≤ n := by
  obtain ⟨busy, hout, rfl⟩ := h
  have ht := mem_of_busy hout hbusy
  refine ⟨s₁.turns busy, ⟨busy, ?_, rfl⟩, ?_⟩
  · rw [hreaders]
    exact outside_setReader hout ht
  · have hsum := Handle.readerTurns_setReader (s := s) ht new
    have hnew : s₁.readerTurns busy = (s.setReader t new).readerTurns busy := by
      simp only [Handle.readerTurns, hreaders]
    simp only [Handle.turns, hnew]
    omega

/-- The readers stay where they are and somebody else takes a turn. -/
theorem Left.elsewhere {s s₁ : Handle} {n : Nat} (h : Left s n)
    (hreaders : s₁.readers = s.readers)
    (hlt : s₁.task.turns + s₁.chan.length + s₁.inner.turns + s₁.life.turns + 1
      ≤ s.task.turns + s.chan.length + s.inner.turns + s.life.turns) :
    ∃ n₁, Left s₁ n₁ ∧ n₁ + 1 ≤ n := by
  obtain ⟨busy, hout, rfl⟩ := h
  refine ⟨s₁.turns busy, ⟨busy, ?_, rfl⟩, ?_⟩
  · rw [hreaders]
    exact hout
  · simp only [Handle.turns, Handle.readerTurns, hreaders]
    omega

theorem wantsMore_turns {g : Inner} {size : Nat} (h : wantsMore g size = true) : g.turns = 1 := by
  have hopen : g.upstreamDone = false := by simp_all [wantsMore]
  simp [Inner.turns, hopen]

/-- **Every step takes a turn.** So a run is at most as long as what came in, and there is no loop
    in which the parties keep each other busy. -/
theorem Left.step {s s₁ : Handle} {a : Action} {evs : List Event} {n : Nat} (h : Left s n)
    (hstep : step s a = some (s₁, evs)) : ∃ n₁, Left s₁ n₁ ∧ n₁ + 1 ≤ n + a.income := by
  rcases step_cases hstep with ⟨task, chan, ht, rfl, _⟩ | hr | ⟨life, task, hl, rfl, _⟩
  · have hturns := ht.turns
    have hlt : task.turns + chan.length + s.inner.turns + s.life.turns + 1
        ≤ s.task.turns + s.chan.length + s.inner.turns + s.life.turns := by omega
    have hnew : ∃ n₁, Left { s with task, chan } n₁ ∧ n₁ + 1 ≤ n := h.elsewhere rfl hlt
    obtain ⟨n₁, h₁, hle⟩ := hnew
    exact ⟨n₁, h₁, Nat.le_trans hle (Nat.le_add_right ..)⟩
  · cases hr with
    | @call t offset size hidle hopen =>
      obtain ⟨busy, hout, rfl⟩ := h
      -- the thread joins `busy`, where it counted nothing so far
      have hjoin : s.readerTurns (insert t busy) = s.readerTurns busy := by
        apply Finset.sum_insert_of_eq_zero_if_notMem
        intro _
        rw [hidle]
        rfl
      have hsum := Handle.readerTurns_setReader (s := s) (Finset.mem_insert_self t busy)
        (.checking offset size)
      have hout₁ : ∀ t', t' ∉ insert t busy → s.readers t' = .idle := by
        intro t' ht'
        exact hout t' fun hmem => ht' (Finset.mem_insert_of_mem hmem)
      refine ⟨_, ⟨insert t busy, outside_setReader hout₁ (Finset.mem_insert_self t busy), rfl⟩, ?_⟩
      rw [hidle, hjoin] at hsum
      show s.task.turns + s.chan.length + s.inner.turns + s.life.turns
        + (s.setReader t (.checking offset size)).readerTurns (insert t busy) + 1 ≤ _
      simp only [Reader.turns, Action.income, Handle.turns] at hsum ⊢
      omega
    | checkMat hr _ _ _ | checkSkip hr _ _ | answer hr | servePull hr _ _ =>
      refine h.moves (by rw [hr]; exact Reader.noConfusion) rfl ?_
      simp only [hr, Reader.turns, Handle.setReader]
      omega
    | install hr _ =>
      refine h.moves (by rw [hr]; exact Reader.noConfusion) rfl ?_
      simp only [hr, Reader.turns, Handle.setReader, Inner.turns_installTail]
      omega
    | serveReply hr _ hfront =>
      refine h.moves (by rw [hr]; exact Reader.noConfusion) rfl ?_
      simp only [hr, Reader.turns, Handle.returns, Handle.setReader, front_turns hfront]
      omega
    | finish hr _ =>
      refine h.moves (by rw [hr]; exact Reader.noConfusion) rfl ?_
      simp only [hr, Reader.turns, Handle.returns, Handle.setReader, finish_turns]
      omega
    | @recvMsg t size before m rest hr hmore hchan =>
      refine h.elsewhere rfl ?_
      have hle := s.inner.turns_onRecv_le m
      simp only [hchan, List.length_cons]
      omega
    | recvEnd hr hmore hchan hdone =>
      refine h.elsewhere rfl ?_
      have hone := wantsMore_turns hmore
      have hnone : (s.inner.onRecv none).turns = 0 := rfl
      simp only [hnone]
      omega
  · have hlt : task.turns + s.chan.length + s.inner.turns + life.turns + 1
        ≤ s.task.turns + s.chan.length + s.inner.turns + s.life.turns := by
      cases hl with
      | release hlife | drop hlife _ | dropRx hlife =>
        simp only [hlife, Life.turns, Task.turns_notifyWaiters]
        omega
    have hnew : ∃ n₁, Left { s with life, task } n₁ ∧ n₁ + 1 ≤ n := h.elsewhere rfl hlt
    obtain ⟨n₁, h₁, hle⟩ := hnew
    exact ⟨n₁, h₁, Nat.le_trans hle (Nat.le_add_right ..)⟩

/-! ## Who holds the lock -/

/-- The reader is in the receive loop, where it holds the lock across an await. -/
def Reader.Pulling : Reader → Prop
  | .pulling _ _ => True
  | _ => False

/-- The reader in the receive loop holds the lock, and it only is held so. -/
def Guarded (s : Handle) : Prop := ∀ t, s.lock = some t ↔ (s.readers t).Pulling

theorem Guarded.spawn (up : Upstream) (tail : Option TailContext) : Guarded (.spawn up tail) := by
  intro t
  simp [Handle.spawn, Reader.Pulling]

/-- A thread that neither has the lock nor takes it leaves the invariant as it is. -/
theorem Guarded.setReader {s s₁ : Handle} {t : Tid} {r : Reader} (h : Guarded s)
    (hold : ¬ (s.readers t).Pulling) (hnew : ¬ r.Pulling) (hlock : s₁.lock = s.lock)
    (hreaders : s₁.readers = (s.setReader t r).readers) : Guarded s₁ := by
  intro t'
  rw [hlock, hreaders, h t']
  by_cases ht : t' = t
  · subst ht
    rw [Handle.setReader_self]
    exact iff_of_false hold hnew
  · rw [Handle.setReader_of_ne s ht]

theorem Guarded.returns {s : Handle} {t : Tid} (h : Guarded s)
    (hlock : s.lock = none ∨ s.lock = some t) (g : Inner) : Guarded (s.returns t g) := by
  intro t'
  show none = some t' ↔ ((s.setReader t .idle).readers t').Pulling
  refine iff_of_false (by simp) ?_
  by_cases ht : t' = t
  · subst ht
    rw [Handle.setReader_self]
    exact id
  · rw [Handle.setReader_of_ne s ht, ← h t']
    rcases hlock with hlock | hlock
    · rw [hlock]
      simp
    · rw [hlock, Option.some.injEq]
      exact fun heq => ht heq.symm

theorem Guarded.step {s s₁ : Handle} {a : Action} {evs : List Event} (h : Guarded s)
    (hstep : step s a = some (s₁, evs)) : Guarded s₁ := by
  rcases step_cases hstep with ⟨_, _, _, rfl, _⟩ | hr | ⟨_, _, _, rfl, _⟩
  case inl | inr.inr => exact h
  cases hr with
  | call hr _ | checkMat hr _ _ _ | checkSkip hr _ _ | answer hr | install hr _ =>
    exact h.setReader (by rw [hr]; exact id) id rfl rfl
  | serveReply hr hlock _ => exact h.returns (.inl hlock) _
  | @servePull t offset size hr hlock hfront =>
    intro t'
    show some t = some t' ↔ ((s.setReader t (.pulling size s.inner)).readers t').Pulling
    by_cases ht : t' = t
    · subst ht
      rw [Handle.setReader_self]
      exact iff_of_true rfl trivial
    · rw [Handle.setReader_of_ne s ht, ← h t', hlock]
      simp [Ne.symm ht]
  | recvMsg | recvEnd => exact h
  | @finish t size before hr _ =>
    have hlock : s.lock = some t := (h t).mpr (by rw [hr]; trivial)
    exact h.returns (.inr hlock) _

/-! ## Where nobody can move -/

/-- The task has something for the channel. -/
def Task.Sending : Task → Prop
  | .sending _ _ | .sendingErr _ => True
  | _ => False

/-- The task can go on unless it is over, or stands at a full channel. The server answering counts
    as the task's step. -/
theorem task_can_step {s : Handle} (hdone : s.task ≠ .done)
    (hroom : s.task.Sending → s.life = .closed ∨ s.chan.length < chanCap) :
    ∃ a : Action, a.Own ∧ sys.step s a ≠ none := by
  have hsend (hsending : s.task.Sending) (hopen : s.life ≠ .closed) : s.chan.length < chanCap :=
    (hroom hsending).resolve_left hopen
  cases htask : s.task with
  | requesting up =>
    refine ⟨.connect, trivial, ?_⟩
    cases up <;> simp [sys, step, stepTask, htask]
  | looping rest => exact ⟨.enterSelect, trivial, by simp [sys, step, stepTask, htask]⟩
  | waiting rest n =>
    refine ⟨.next, trivial, ?_⟩
    obtain ⟨chunks, ending⟩ := rest
    cases chunks <;> cases ending <;> simp [sys, step, stepTask, htask]
  | sending bytes rest =>
    by_cases hclosed : s.life = .closed
    · exact ⟨.sendFails, trivial, by simp [sys, step, stepTask, htask, hclosed]⟩
    · exact ⟨.send, trivial, by simp [sys, step, stepTask, htask, hclosed, hsend (by rw [htask]; trivial) hclosed]⟩
  | sendingErr e =>
    by_cases hclosed : s.life = .closed
    · exact ⟨.sendFails, trivial, by simp [sys, step, stepTask, htask, hclosed]⟩
    · exact ⟨.send, trivial, by simp [sys, step, stepTask, htask, hclosed, hsend (by rw [htask]; trivial) hclosed]⟩
  | done => exact absurd htask hdone

theorem ReadStep.can_step {s s₁ : Handle} {a : Action} {evs : List Event}
    (h : ReadStep s a s₁ evs) : sys.step s a ≠ none := by
  show Stream.step s a ≠ none
  rw [h.step]
  exact Option.some_ne_none _

/-- **No deadlock**: while a read is in progress somebody can move, and if it is not the reader
    that has the lock it is the task it waits for. The chain of who waits for whom has two links
    and ends there. -/
theorem Guarded.can_step {s : Handle} (h : Guarded s) {t : Tid} (hbusy : s.readers t ≠ .idle) :
    ∃ a : Action, a.Own ∧ sys.step s a ≠ none := by
  cases hlock : s.lock with
  | some holder =>
    have hpull : (s.readers holder).Pulling := (h holder).mp hlock
    cases hr : s.readers holder with
    | pulling size before =>
      cases hmore : wantsMore s.inner size with
      | false => exact ⟨.finish holder, trivial, (ReadStep.finish hr hmore).can_step⟩
      | true =>
        cases hchan : s.chan with
        | cons m rest =>
          exact ⟨.recv holder, trivial, (ReadStep.recvMsg hr hmore hchan).can_step⟩
        | nil =>
          by_cases hdone : s.task = .done
          · exact ⟨.recv holder, trivial, (ReadStep.recvEnd hr hmore hchan hdone).can_step⟩
          · exact task_can_step hdone fun _ => .inr (by rw [hchan]; decide)
    | idle | checking | materializing | installing | serving =>
      rw [hr] at hpull
      exact hpull.elim
  | none =>
    cases hr : s.readers t with
    | idle => exact absurd hr hbusy
    | checking offset size =>
      refine ⟨.check t, trivial, ?_⟩
      cases hneed : needMaterialize s.tail s.inner offset with
      | false => exact (ReadStep.checkSkip hr hlock hneed).can_step
      | true =>
        cases htail : s.tail with
        | none => rw [htail] at hneed; simp [needMaterialize] at hneed
        | some tail => exact (ReadStep.checkMat hr hlock hneed htail).can_step
    | materializing offset size =>
      exact ⟨.answer t (.ok ⟨[], Nat.zero_le _⟩), trivial, (ReadStep.answer hr).can_step⟩
    | installing offset size mat =>
      exact ⟨.install t, trivial, (ReadStep.install hr hlock).can_step⟩
    | serving offset size =>
      refine ⟨.serve t, trivial, ?_⟩
      cases hfront : front s.inner offset size with
      | reply r g => exact (ReadStep.serveReply hr hlock hfront).can_step
      | pull => exact (ReadStep.servePull hr hlock hfront).can_step
    | pulling size before =>
      have hlock₁ : s.lock = some t := (h t).mpr (by rw [hr]; trivial)
      rw [hlock] at hlock₁
      cases hlock₁

theorem chan_le_of_step {s s₁ : Handle} {a : Action} {evs : List Event}
    (h : s.chan.length ≤ chanCap) (hstep : step s a = some (s₁, evs)) :
    s₁.chan.length ≤ chanCap := by
  rcases step_cases hstep with ⟨_, _, ht, rfl, _⟩ | hr | ⟨_, _, _, rfl, _⟩
  · cases ht with
    | send _ hcap _ | sendErr _ hcap _ =>
      simp only [List.length_append, List.length_singleton]
      exact hcap
    | connectOk | connectErr | enterSelect | cancelled | nextChunk | nextErr | nextEof
      | sendFails | sendErrFails => exact h
  · cases hr with
    | recvMsg _ _ hchan =>
      rw [hchan, List.length_cons] at h
      exact Nat.le_of_succ_le h
    | call | checkMat | checkSkip | answer | install | serveReply | servePull | recvEnd
      | finish => exact h
  · exact h

/-- What every handle is all its life, released or not. One name for the four invariants that the
    results below need together. -/
structure Sound (s : Handle) : Prop where
  counted : Counted s
  guarded : Guarded s
  cap : s.chan.length ≤ chanCap
  left : ∃ n, Left s n

theorem Sound.spawn (up : Upstream) (tail : Option TailContext) : Sound (.spawn up tail) where
  counted := .spawn up tail
  guarded := .spawn up tail
  cap := Nat.zero_le _
  left := ⟨_, ∅, fun _ _ => rfl, rfl⟩

theorem Sound.step {s s₁ : Handle} {a : Action} {evs : List Event} (h : Sound s)
    (hstep : sys.step s a = some (s₁, evs)) : Sound s₁ := by
  obtain ⟨n, hn⟩ := h.left
  obtain ⟨n₁, hn₁, _⟩ := hn.step hstep
  exact ⟨h.counted.step hstep, h.guarded.step hstep, chan_le_of_step h.cap hstep, n₁, hn₁⟩

theorem sound_of_run {up : Upstream} {tail : Option TailContext} {as : List Action}
    {tr : List Event} {s : Handle} (h : sys.Exec (.spawn up tail) as tr s) : Sound s :=
  h.invariant (fun _ _ _ _ hs hstep => hs.step hstep) (.spawn up tail)

/-- A handle at rest: nobody is reading, it is in use or it is closed, and the task is
    over, or the channel of the open file is full and the task waits for a reader. -/
structure Handle.AtRest (s : Handle) : Prop where
  idle : ∀ t, s.readers t = .idle
  life : s.life = .opened ∨ s.life = .closed
  task : s.task = .done ∨ s.task.Sending ∧ s.life = .opened ∧ s.chan.length = chanCap

theorem Sound.atRest {s : Handle} (h : Sound s) (hstuck : sys.Stuck Action.Own s) : s.AtRest := by
  have hno {a : Action} (ha : a.Own) (hcan : sys.step s a ≠ none) : False := hcan (hstuck a ha)
  have hidle (t : Tid) : s.readers t = .idle := by
    by_contra hbusy
    obtain ⟨a, ha, hcan⟩ := h.guarded.can_step hbusy
    exact hno ha hcan
  have hrefs : s.refs = 0 := by
    obtain ⟨busy, hcard, hbusy⟩ := h.counted
    have hempty : busy = ∅ := Finset.eq_empty_of_forall_notMem fun t ht => (hbusy t).mp ht (hidle t)
    rw [← hcard, hempty, Finset.card_empty]
  have hlife : s.life = .opened ∨ s.life = .closed := by
    cases hlife : s.life with
    | opened => exact .inl rfl
    | closed => exact .inr rfl
    | released =>
      exact (hno (a := .drop) trivial (by simp [sys, Stream.step, stepRelease, hlife, hrefs])).elim
    | dropping =>
      exact (hno (a := .dropRx) trivial (by simp [sys, Stream.step, stepRelease, hlife])).elim
  refine ⟨hidle, hlife, ?_⟩
  by_cases hdone : s.task = .done
  · exact .inl hdone
  · have hfull : ¬ (s.task.Sending → s.life = .closed ∨ s.chan.length < chanCap) := by
      intro hroom
      obtain ⟨a, ha, hcan⟩ := task_can_step hdone hroom
      exact hno ha hcan
    push Not at hfull
    obtain ⟨hsending, hopen, hge⟩ := hfull
    exact .inr ⟨hsending, hlife.resolve_right hopen, Nat.le_antisymm h.cap hge⟩

theorem Handle.AtRest.stuck {s : Handle} (h : s.AtRest) : sys.Stuck Action.Own s := by
  have htask (a : Action) : stepTask s a = none := by
    rcases h.task with hdone | ⟨hsending, hopen, hfull⟩
    · cases a <;> simp [stepTask, hdone]
    · cases ht : s.task with
      | sending | sendingErr => cases a <;> simp [stepTask, ht, hopen, hfull]
      | requesting | looping | waiting | done => rw [ht] at hsending; exact hsending.elim
  intro a ha
  show Stream.step s a = none
  cases a with
  | connect | enterSelect | cancelled | next | send | sendFails =>
    simp only [Stream.step, htask, Option.map_none]
  | call | release => exact ha.elim
  | check t | answer t _ | install t | serve t | recv t | finish t =>
    simp only [Stream.step, stepReader, h.idle t]
  | drop | dropRx =>
    rcases h.life with hlife | hlife <;> simp [Stream.step, stepRelease, hlife]

/-! ## A run is as long as its calls and the body -/

/-- The chunks the server sends. -/
def Upstream.chunkCount : Upstream → Nat
  | .ok body => body.chunks.length
  | .error _ => 0

theorem sum_income (as : List Action) :
    (as.map Action.income).sum = 6 * as.countP Action.isCall := by
  have hincome : Action.income = fun a => if a.isCall then 6 else 0 := by
    funext a
    cases a <;> rfl
  rw [hincome, Lts.sum_price]

theorem length_le_of_left {s s' : Handle} {as : List Action} {tr : List Event} {n : Nat}
    (h : sys.Exec s as tr s') (hn : Left s n) :
    as.length ≤ n + 6 * as.countP Action.isCall := by
  have hone (s : Handle) (a : Action) (s₁ : Handle) (evs : List Event) (n : Nat) (_ : True)
      (hs : Left s n) (hstep : sys.step s a = some (s₁, evs)) :
      True ∧ ∃ n₁, Left s₁ n₁ ∧ n₁ + 1 ≤ n + a.income := ⟨trivial, hs.step hstep⟩
  obtain ⟨n', _, hle⟩ := h.spends hone trivial hn
  rw [sum_income, List.map_const', List.sum_replicate_nat] at hle
  omega

/-! ## Each call is answered once -/

/-- The calls one thread makes, with what it asks for, in the order it makes them. -/
def Action.callOf (t : Tid) : Action → List (UInt64 × Nat)
  | .call t' offset size => if t' = t then [(offset, size)] else []
  | _ => []

/-- The replies one thread gets, with what they are to. -/
def Event.replyTo (t : Tid) : Event → List (UInt64 × Nat)
  | .read ev => if ev.thread = t then [(ev.offset, ev.size)] else []
  | .materialize _ _ => []

/-- The call that is not answered yet. A thread has one at most, for `read(2)` blocks. -/
def Reader.call : Reader → List (UInt64 × Nat)
  | .idle => []
  | .checking offset size | .materializing offset size | .installing offset size _
    | .serving offset size => [(offset, size)]
  -- the receive loop is entered at the cursor
  | .pulling size before => [(before.pos, size)]

theorem pos_of_pull {g : Inner} {offset : UInt64} {size : Nat}
    (h : front g offset size = .pull) : offset = g.pos := by
  unfold front at h
  split at h
  · cases h
  · split at h
    · cases h
    · split at h
      · cases h
      · rename_i hpos
        simpa using hpos

/-- A step takes thread `t'` to `new`, with the replies `out`, and what each thread was asked is
    accounted for. -/
theorem callOf_moves {s : Handle} {a : Action} {t t' : Tid} (new : Reader)
    (out : List (UInt64 × Nat)) (hcall : (s.readers t').call ++ a.callOf t' = out ++ new.call)
    (hother : t' ≠ t → a.callOf t = []) :
    (s.readers t).call ++ a.callOf t
      = (if t' = t then out else []) ++ ((s.setReader t' new).readers t).call := by
  by_cases ht : t' = t
  · subst ht
    rw [if_pos rfl, Handle.setReader_self, hcall]
  · rw [if_neg ht, Handle.setReader_of_ne s (Ne.symm ht), hother ht]
    simp

/-- What a thread was asked stays the same until it replies. Over a run this is: calls made are
    replies given, and at most one call more. -/
theorem callOf_step {s s₁ : Handle} {a : Action} {evs : List Event}
    (hstep : sys.step s a = some (s₁, evs)) (t : Tid) :
    (s.readers t).call ++ a.callOf t = evs.flatMap (Event.replyTo t) ++ (s₁.readers t).call := by
  rcases step_cases hstep with ⟨task, chan, ht, rfl, rfl⟩ | hr | ⟨life, task, hl, rfl, rfl⟩
  · cases ht <;> simp [Action.callOf]
  · cases hr with
    | @call t' offset size hidle _ =>
      simpa [Handle.setReader] using callOf_moves (.checking offset size) []
        (by simp [hidle, Reader.call, Action.callOf]) (fun hne => by simp [Action.callOf, hne])
    | @checkMat t' offset size _ hr _ _ _ =>
      simpa [Event.replyTo] using callOf_moves (t := t) (.materializing offset size) []
        (by simp [hr, Reader.call, Action.callOf]) (fun _ => rfl)
    | @checkSkip t' offset size hr _ _ =>
      simpa using callOf_moves (t := t) (.serving offset size) []
        (by simp [hr, Reader.call, Action.callOf]) (fun _ => rfl)
    | @answer t' offset size mat hr =>
      simpa using callOf_moves (t := t) (.installing offset size mat) []
        (by simp [hr, Reader.call, Action.callOf]) (fun _ => rfl)
    | @install t' offset size mat hr _ =>
      simpa [Handle.setReader] using callOf_moves (t := t) (.serving offset size) []
        (by simp [hr, Reader.call, Action.callOf]) (fun _ => rfl)
    | @serveReply t' offset size r g hr _ _ =>
      simpa [Event.replyTo, Handle.returns, Handle.setReader] using
        callOf_moves (t := t) .idle [(offset, size)]
          (by simp [hr, Reader.call, Action.callOf]) (fun _ => rfl)
    | @servePull t' offset size hr _ hfront =>
      simpa [Handle.setReader] using callOf_moves (t := t) (.pulling size s.inner) []
        (by simp [hr, Reader.call, Action.callOf, pos_of_pull hfront]) (fun _ => rfl)
    | recvMsg | recvEnd => simp [Action.callOf]
    | @finish t' size before hr _ =>
      simpa [Event.replyTo, Handle.returns, Handle.setReader] using
        callOf_moves (t := t) .idle [(before.pos, size)]
          (by simp [hr, Reader.call, Action.callOf]) (fun _ => rfl)
  · cases hl <;> simp [Action.callOf]

theorem calls_of_run {up : Upstream} {tail : Option TailContext} {as : List Action}
    {tr : List Event} {s : Handle} (h : sys.Exec (.spawn up tail) as tr s) (t : Tid) :
    as.flatMap (Action.callOf t) = tr.flatMap (Event.replyTo t) ++ (s.readers t).call := by
  have hone (s : Handle) (a : Action) (s₁ : Handle) (evs : List Event) (_ : True)
      (hstep : sys.step s a = some (s₁, evs)) :
      True ∧ (s.readers t).call ++ a.callOf t
        = evs.flatMap (Event.replyTo t) ++ (s₁.readers t).call := ⟨trivial, callOf_step hstep t⟩
  exact h.conserves hone trivial

/-! ## Main results -/

/-- **Every read returns.** A run takes four steps for each chunk, six for each call and
    nine more at most. Where it can only go on by a new call or a `release`, it is at
    rest, and there each thread has had one reply to each of its calls, in order. And it
    can always go on to there. -/
theorem reads_complete {up : Upstream} {tail : Option TailContext} {as : List Action}
    {tr : List Event} {s : Handle} (h : sys.Exec (.spawn up tail) as tr s) :
    as.length ≤ 4 * up.chunkCount + 6 * as.countP Action.isCall + 9 ∧
    (sys.Stuck Action.Own s ↔ s.AtRest) ∧
    (s.AtRest → ∀ t, as.flatMap (Action.callOf t) = tr.flatMap (Event.replyTo t)) ∧
    ∃ bs tr' s', (∀ b ∈ bs, b.Own) ∧ sys.Exec s bs tr' s' ∧ s'.AtRest := by
  have hs := sound_of_run h
  refine ⟨?_, ⟨hs.atRest, Handle.AtRest.stuck⟩, ?_, ?_⟩
  · have hspawn : Left (.spawn up tail) (4 * up.chunkCount + 9) ∨
        Left (.spawn up tail) 7 := by
      cases up with
      | ok body => exact .inl ⟨∅, fun _ _ => rfl, rfl⟩
      | error e => exact .inr ⟨∅, fun _ _ => rfl, rfl⟩
    rcases hspawn with hn | hn
    · have hle := length_le_of_left h hn
      omega
    · have hle := length_le_of_left h hn
      omega
  · intro hrest t
    have hcalls := calls_of_run h t
    rw [hrest.idle t] at hcalls
    simpa [Reader.call] using hcalls
  · obtain ⟨n, hn⟩ := hs.left
    have hone (s : Handle) (a : Action) (s₁ : Handle) (evs : List Event) (n : Nat) (hs : Sound s)
        (hn : Left s n) (ha : a.Own) (hstep : sys.step s a = some (s₁, evs)) :
        Sound s₁ ∧ ∃ n₁, Left s₁ n₁ ∧ n₁ + 1 ≤ n := by
      obtain ⟨n₁, hn₁, hle⟩ := hn.step hstep
      refine ⟨hs.step hstep, n₁, hn₁, ?_⟩
      cases a <;> first | exact hle | exact ha.elim
    obtain ⟨bs, tr', s', hown, hrun, hs', hstuck⟩ := Lts.exists_stuck hone n hs hn
    exact ⟨bs, tr', s', hown, hrun, hs'.atRest hstuck⟩

/-- Two reads at once, with the chunk still to come. -/
theorem reads_complete_two :
    let started := sys.final (.spawn (.ok ⟨[⟨[97, 98], by decide⟩], .eof⟩) none)
      [.call 0 0 2, .connect, .call 1 0 1, .check 1, .serve 1]
    ∃ bs tr' s', (∀ b ∈ bs, b.Own) ∧ sys.Exec started bs tr' s' ∧ s'.AtRest :=
  (reads_complete (Lts.exec_of_isSome rfl)).2.2.2

/-! ## After `release` -/

/-- A chunk is pulled from the server, or its end is. -/
def Action.isNext : Action → Bool
  | .next => true
  | _ => false

/-- The steps a task has left once the receiver is gone. A send fails there, so no chunk buys
    another turn of the loop. -/
def Task.lateTurns : Task → Nat
  | .requesting (.ok _) => 4
  | .requesting (.error _) => 2
  | .looping _ => 3
  | .waiting _ _ => 2
  | .sending _ _ | .sendingErr _ => 1
  | .done => 0

/-- How often it goes to the server then. Once at most: a chunk that arrives finds nobody to take
    it, and that ends the loop. -/
def Task.latePulls : Task → Nat
  | .requesting (.ok _) | .looping _ | .waiting _ _ => 1
  | .requesting (.error _) | .sending _ _ | .sendingErr _ | .done => 0

theorem Task.lateTurns_le (t : Task) : t.lateTurns ≤ 4 := by
  cases t with
  | requesting up => cases up <;> simp [lateTurns]
  | looping | waiting | sending | sendingErr | done => simp [lateTurns]

theorem Task.latePulls_le (t : Task) : t.latePulls ≤ 1 := by
  cases t with
  | requesting up => cases up <;> simp [latePulls]
  | looping | waiting | sending | sendingErr | done => simp [latePulls]

/-- A handle that is released: no new read, and `Drop` comes after the last one. -/
structure Gone (s : Handle) : Prop where
  sound : Sound s
  released : s.life ≠ .opened
  drained : s.life = .released ∨ s.refs = 0

theorem Gone.step {s s₁ : Handle} {a : Action} {evs : List Event} (h : Gone s)
    (hstep : sys.step s a = some (s₁, evs)) : a.Own ∧ Gone s₁ := by
  have hs₁ := h.sound.step hstep
  rcases step_cases hstep with ⟨_, _, ht, rfl, _⟩ | hr | ⟨_, _, hl, rfl, _⟩
  · refine ⟨?_, hs₁, h.released, h.drained⟩
    cases ht <;> trivial
  · have hlife := hr.frame.2
    have hstill : s₁.life = .released := by
      rw [hlife]
      refine h.drained.resolve_right fun hrefs => ?_
      exact h.sound.counted.no_reader hrefs h.released hr
    refine ⟨?_, hs₁, by rw [hstill]; simp, .inl hstill⟩
    cases hr with
    | call _ hopen => exact (h.released hopen).elim
    | checkMat | checkSkip | answer | install | serveReply | servePull | recvMsg | recvEnd
      | finish => trivial
  · cases hl with
    | release hopen => exact (h.released hopen).elim
    | drop _ hrefs => exact ⟨trivial, hs₁, by simp, .inr hrefs⟩
    | dropRx hdropping =>
      refine ⟨trivial, hs₁, by simp, .inr (h.drained.resolve_left ?_)⟩
      rw [hdropping]
      simp

theorem Gone.run {s s' : Handle} {bs : List Action} {tr : List Event} (h : Gone s)
    (hrun : sys.Exec s bs tr s') : (∀ b ∈ bs, b.Own) ∧ Gone s' := by
  induction hrun with
  | nil => exact ⟨by simp, h⟩
  | cons head tail ih =>
    obtain ⟨hown, hnext⟩ := h.step head
    obtain ⟨hrest, hlast⟩ := ih hnext
    refine ⟨fun b hb => ?_, hlast⟩
    rcases List.mem_cons.mp hb with rfl | hb
    · exact hown
    · exact hrest b hb

/-- Closed, there is only the task left, and it is about to notice. -/
theorem Gone.late {s s₁ : Handle} {a : Action} {evs : List Event} (h : Gone s)
    (hclosed : s.life = .closed) (hstep : sys.step s a = some (s₁, evs)) :
    s₁.life = .closed ∧ s₁.task.lateTurns + 1 ≤ s.task.lateTurns ∧
      s₁.task.latePulls + (if a.isNext then 1 else 0) ≤ s.task.latePulls := by
  have hrefs : s.refs = 0 := h.drained.resolve_left (by simp [hclosed])
  rcases step_cases hstep with ⟨_, _, ht, rfl, _⟩ | hr | ⟨_, _, hl, rfl, _⟩
  · refine ⟨hclosed, ?_⟩
    cases ht with
    | connectOk h | connectErr h | enterSelect h | cancelled h | nextChunk h | nextErr h
      | nextEof h | sendFails _ h | sendErrFails _ h =>
      simp [h, Task.lateTurns, Task.latePulls, Action.isNext]
    | send hopen | sendErr hopen => exact (hopen hclosed).elim
  · exact (h.sound.counted.no_reader hrefs h.released hr).elim
  · cases hl with
    | release hl | drop hl _ | dropRx hl =>
      rw [hclosed] at hl
      cases hl

theorem Gone.late_run {s s' : Handle} {bs : List Action} {tr : List Event} (h : Gone s)
    (hclosed : s.life = .closed) (hrun : sys.Exec s bs tr s') :
    bs.length ≤ 4 ∧ bs.countP Action.isNext ≤ 1 := by
  have hturns (s : Handle) (a : Action) (s₁ : Handle) (evs : List Event) (n : Nat)
      (hI : Gone s ∧ s.life = .closed) (hn : s.task.lateTurns = n)
      (hstep : sys.step s a = some (s₁, evs)) :
      (Gone s₁ ∧ s₁.life = .closed) ∧ ∃ n₁, s₁.task.lateTurns = n₁ ∧ n₁ + 1 ≤ n + 0 := by
    obtain ⟨hclosed₁, hle, _⟩ := hI.1.late hI.2 hstep
    exact ⟨⟨(hI.1.step hstep).2, hclosed₁⟩, _, rfl, hn ▸ hle⟩
  have hpulls (s : Handle) (a : Action) (s₁ : Handle) (evs : List Event) (n : Nat)
      (hI : Gone s ∧ s.life = .closed) (hn : s.task.latePulls = n)
      (hstep : sys.step s a = some (s₁, evs)) :
      (Gone s₁ ∧ s₁.life = .closed) ∧
        ∃ n₁, s₁.task.latePulls = n₁ ∧ n₁ + (if a.isNext then 1 else 0) ≤ n + 0 := by
    obtain ⟨hclosed₁, _, hle⟩ := hI.1.late hI.2 hstep
    exact ⟨⟨(hI.1.step hstep).2, hclosed₁⟩, _, rfl, hn ▸ hle⟩
  obtain ⟨_, _, hlen⟩ := hrun.spends hturns ⟨h, hclosed⟩ rfl
  obtain ⟨_, _, hcount⟩ := hrun.spends hpulls ⟨h, hclosed⟩ rfl
  have hzero : (bs.map fun _ => 0).sum = 0 := by simp
  have hfour := s.task.lateTurns_le
  have hle := s.task.latePulls_le
  rw [List.map_const', List.sum_replicate_nat, hzero] at hlen
  rw [Lts.sum_price, hzero] at hcount
  omega

/-- **A released stream winds down.** From `release` on no read is accepted, and whatever
    the order of the steps, the only place where nobody can move is where the handle is
    closed, its task over and nobody inside. Once the receiver is gone that is four steps
    away at most, and one more chunk is pulled from the server at most, though the
    cancellation itself may have been lost. -/
theorem winds_down {up : Upstream} {tail : Option TailContext} {as bs : List Action}
    {tr tr' : List Event} {s s₁ s' : Handle} (h : sys.Exec (.spawn up tail) as tr s)
    (hrelease : sys.step s .release = some (s₁, [])) (hrun : sys.Exec s₁ bs tr' s') :
    (∀ b ∈ bs, b.Own) ∧
    (sys.Stuck (fun _ => True) s' ↔
      s'.life = .closed ∧ s'.task = .done ∧ ∀ t, s'.readers t = .idle) ∧
    (∀ cs tr'' s'', s'.life = .closed → sys.Exec s' cs tr'' s'' →
      cs.length ≤ 4 ∧ cs.countP Action.isNext ≤ 1) := by
  have hs₁ := (sound_of_run h).step hrelease
  have hgone : Gone s₁ := by
    rcases step_cases (show step s .release = some (s₁, []) from hrelease) with
      ⟨_, _, ht, _⟩ | hr | ⟨_, _, hl, rfl, _⟩
    · cases ht
    · cases hr
    · cases hl with
      | release => exact ⟨hs₁, by simp, .inl rfl⟩
  have hend := hgone.run hrun
  refine ⟨hend.1, ⟨fun hstuck => ?_, fun hover => ?_⟩, fun _ _ _ hclosed hlate =>
    hend.2.late_run hclosed hlate⟩
  · have hrest := hend.2.sound.atRest fun a _ => hstuck a trivial
    have hclosed := hrest.life.resolve_left hend.2.released
    refine ⟨hclosed, hrest.task.resolve_right fun hfull => ?_, hrest.idle⟩
    exact hend.2.released hfull.2.1
  · have hrest : s'.AtRest := ⟨hover.2.2, .inr hover.1, .inl hover.2.1⟩
    intro a _
    by_contra hsome
    obtain ⟨⟨s₂, evs⟩, hstep⟩ := Option.ne_none_iff_exists'.mp hsome
    exact hsome (hrest.stuck a (hend.2.step hstep).1)

/-- Released while it is at the top of its loop, where no notification reaches it. -/
theorem winds_down_looping :
    sys.Stuck (fun _ => True)
      (sys.final (sys.final (sys.final (.spawn (.ok ⟨[⟨[97], by decide⟩], .eof⟩) none) [.connect])
        [.release]) [.drop, .dropRx, .enterSelect, .next, .sendFails]) := by
  let looping := sys.final (.spawn (.ok ⟨[⟨[97], by decide⟩], .eof⟩) none) [.connect]
  have hrun : sys.Exec (.spawn (.ok ⟨[⟨[97], by decide⟩], .eof⟩) none) [.connect] _ looping :=
    Lts.exec_of_isSome rfl
  have hlate : sys.Exec (sys.final looping [.release])
      [.drop, .dropRx, .enterSelect, .next, .sendFails] _ _ := Lts.exec_of_isSome rfl
  exact (winds_down hrun rfl hlate).2.1.mpr ⟨rfl, rfl, fun _ => rfl⟩

end Stream
end ClickFs
