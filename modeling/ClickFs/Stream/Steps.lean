import ClickFs.Stream.Handle

/-!
# What one step of a handle can do

`step` read backwards, once: every way it can succeed, with the guard that let it
and the state it leaves. The invariants downstream are case analyses over
`step_cases` and never unfold `step`.

The three parties get three relations because their frames differ. A step of the
task touches `task` and `chan`; a step of `release` touches `life` and wakes the
task; everything else belongs to a thread in `read_blocking`.
-/

set_option autoImplicit false

namespace ClickFs
namespace Stream

/-- A step of the producer task, as the new task state and channel. -/
inductive TaskStep (s : Handle) : Action → Task → List Msg → Prop
  | connectOk {body : Body} (h : s.task = .requesting (.ok body)) :
      TaskStep s .connect (.looping body) s.chan
  | connectErr {e : QueryError} (h : s.task = .requesting (.error e)) :
      TaskStep s .connect (.sendingErr e) s.chan
  | enterSelect {rest : Body} (h : s.task = .looping rest) :
      TaskStep s .enterSelect (.waiting rest false) s.chan
  | cancelled {rest : Body} (h : s.task = .waiting rest true) :
      TaskStep s .cancelled .done s.chan
  | nextChunk {bytes : Bytes} {rest : List Bytes} {ending : Ending} {n : Bool}
      (h : s.task = .waiting ⟨bytes :: rest, ending⟩ n) :
      TaskStep s .next (.sending bytes ⟨rest, ending⟩) s.chan
  | nextErr {e : QueryError} {n : Bool} (h : s.task = .waiting ⟨[], .failed e⟩ n) :
      TaskStep s .next (.sendingErr e) s.chan
  | nextEof {n : Bool} (h : s.task = .waiting ⟨[], .eof⟩ n) : TaskStep s .next .done s.chan
  | send {bytes : Bytes} {rest : Body} (hopen : s.life ≠ .closed)
      (hcap : s.chan.length < chanCap) (h : s.task = .sending bytes rest) :
      TaskStep s .send (.looping rest) (s.chan ++ [.ok bytes])
  | sendErr {e : QueryError} (hopen : s.life ≠ .closed)
      (hcap : s.chan.length < chanCap) (h : s.task = .sendingErr e) :
      TaskStep s .send .done (s.chan ++ [.error e])
  | sendFails {bytes : Bytes} {rest : Body} (hclosed : s.life = .closed)
      (h : s.task = .sending bytes rest) : TaskStep s .sendFails .done s.chan
  | sendErrFails {e : QueryError} (hclosed : s.life = .closed)
      (h : s.task = .sendingErr e) : TaskStep s .sendFails .done s.chan

/-- A step of a thread in `read_blocking`. -/
inductive ReadStep (s : Handle) : Action → Handle → List Event → Prop
  | call {t : Tid} {offset : UInt64} {size : Nat} (h : s.readers t = .idle)
      (hopen : s.life = .opened) :
      ReadStep s (.call t offset size)
        { s.setReader t (.checking offset size) with refs := s.refs + 1 } []
  | checkMat {t : Tid} {offset : UInt64} {size : Nat} {tail : TailContext}
      (h : s.readers t = .checking offset size) (hlock : s.lock = none)
      (hneed : needMaterialize s.tail s.inner offset = true) (htail : s.tail = some tail) :
      ReadStep s (.check t) (s.setReader t (.materializing offset size)) [.materialize t tail]
  | checkSkip {t : Tid} {offset : UInt64} {size : Nat}
      (h : s.readers t = .checking offset size) (hlock : s.lock = none)
      (hneed : needMaterialize s.tail s.inner offset = false) :
      ReadStep s (.check t) (s.setReader t (.serving offset size)) []
  | answer {t : Tid} {offset : UInt64} {size : Nat} {mat : Except QueryError Bytes}
      (h : s.readers t = .materializing offset size) :
      ReadStep s (.answer t mat) (s.setReader t (.installing offset size mat)) []
  | install {t : Tid} {offset : UInt64} {size : Nat} {mat : Except QueryError Bytes}
      (h : s.readers t = .installing offset size mat) (hlock : s.lock = none) :
      ReadStep s (.install t)
        { s.setReader t (.serving offset size) with inner := s.inner.installTail mat } []
  | serveReply {t : Tid} {offset : UInt64} {size : Nat} {r : ReadReply} {g : Inner}
      (h : s.readers t = .serving offset size) (hlock : s.lock = none)
      (hfront : front s.inner offset size = .reply r g) :
      ReadStep s (.serve t) (s.returns t g) [.read ⟨t, offset, size, s.inner, r, g⟩]
  | servePull {t : Tid} {offset : UInt64} {size : Nat}
      (h : s.readers t = .serving offset size) (hlock : s.lock = none)
      (hfront : front s.inner offset size = .pull) :
      ReadStep s (.serve t) { s.setReader t (.pulling size s.inner) with lock := some t } []
  | recvMsg {t : Tid} {size : Nat} {before : Inner} {m : Msg} {rest : List Msg}
      (h : s.readers t = .pulling size before) (hmore : wantsMore s.inner size = true)
      (hchan : s.chan = m :: rest) :
      ReadStep s (.recv t) { s with inner := s.inner.onRecv (some m), chan := rest } []
  | recvEnd {t : Tid} {size : Nat} {before : Inner}
      (h : s.readers t = .pulling size before) (hmore : wantsMore s.inner size = true)
      (hchan : s.chan = []) (hdone : s.task = .done) :
      ReadStep s (.recv t) { s with inner := s.inner.onRecv none } []
  | finish {t : Tid} {size : Nat} {before : Inner}
      (h : s.readers t = .pulling size before) (hmore : wantsMore s.inner size = false) :
      ReadStep s (.finish t) (s.returns t (finish s.inner size).2)
        [.read ⟨t, before.pos, size, before, (finish s.inner size).1,
          (finish s.inner size).2⟩]

/-- A step of `release` or of `Drop`, as the new stage and task state. -/
inductive ReleaseStep (s : Handle) : Action → Life → Task → Prop
  | release (h : s.life = .opened) : ReleaseStep s .release .released s.task.notifyWaiters
  | drop (h : s.life = .released) (hrefs : s.refs = 0) :
      ReleaseStep s .drop .dropping s.task.notifyWaiters
  | dropRx (h : s.life = .dropping) : ReleaseStep s .dropRx .closed s.task

theorem stepTask_cases {s s' : Handle} {a : Action} (h : stepTask s a = some s') :
    ∃ task chan, TaskStep s a task chan ∧ s' = { s with task, chan } := by
  cases a <;> simp only [stepTask, reduceCtorEq] at h
  case connect =>
    split at h
    · rename_i htask
      exact ⟨_, _, .connectOk htask, (Option.some.inj h).symm⟩
    · rename_i htask
      exact ⟨_, _, .connectErr htask, (Option.some.inj h).symm⟩
    · cases h
  case enterSelect =>
    split at h
    · rename_i htask
      exact ⟨_, _, .enterSelect htask, (Option.some.inj h).symm⟩
    · cases h
  case cancelled =>
    split at h
    · rename_i htask
      exact ⟨_, _, .cancelled htask, (Option.some.inj h).symm⟩
    · cases h
  case next =>
    split at h
    · rename_i htask
      exact ⟨_, _, .nextChunk htask, (Option.some.inj h).symm⟩
    · rename_i htask
      exact ⟨_, _, .nextErr htask, (Option.some.inj h).symm⟩
    · rename_i htask
      exact ⟨_, _, .nextEof htask, (Option.some.inj h).symm⟩
    · cases h
  case send =>
    split at h
    · rename_i hg
      split at h
      · rename_i htask
        exact ⟨_, _, .send hg.1 hg.2 htask, (Option.some.inj h).symm⟩
      · rename_i htask
        exact ⟨_, _, .sendErr hg.1 hg.2 htask, (Option.some.inj h).symm⟩
      · cases h
    · cases h
  case sendFails =>
    split at h
    · rename_i hg
      split at h
      · rename_i htask
        exact ⟨_, _, .sendFails hg htask, (Option.some.inj h).symm⟩
      · rename_i htask
        exact ⟨_, _, .sendErrFails hg htask, (Option.some.inj h).symm⟩
      · cases h
    · cases h

theorem stepReader_cases {s s' : Handle} {a : Action} {evs : List Event}
    (h : stepReader s a = some (s', evs)) : ReadStep s a s' evs := by
  cases a <;> simp only [stepReader, reduceCtorEq] at h
  case call t offset size =>
    split at h
    · rename_i hr
      split at h
      · rename_i hopen
        cases h
        exact .call hr hopen
      · cases h
    · cases h
  case check t =>
    split at h
    · rename_i hr hlock
      split at h
      · rename_i hneed htail
        cases h
        exact .checkMat hr hlock hneed htail
      · rename_i hno
        cases h
        refine .checkSkip hr hlock ?_
        cases htail : s.tail with
        | none => simp [needMaterialize]
        | some tail =>
          rw [← htail]
          exact Bool.eq_false_iff.mpr fun hneed => hno tail hneed htail
    · cases h
  case answer t mat =>
    split at h
    · rename_i hr
      cases h
      exact .answer hr
    · cases h
  case install t =>
    split at h
    · rename_i hr hlock
      cases h
      exact .install hr hlock
    · cases h
  case serve t =>
    split at h
    · rename_i hr hlock
      split at h
      · rename_i hfront
        cases h
        exact .serveReply hr hlock hfront
      · rename_i hfront
        cases h
        exact .servePull hr hlock hfront
    · cases h
  case recv t =>
    split at h
    · rename_i hr
      split at h
      · rename_i hmore
        split at h
        · rename_i hchan
          cases h
          exact .recvMsg hr hmore hchan
        · rename_i hchan
          split at h
          · rename_i hdone
            cases h
            exact .recvEnd hr hmore hchan hdone
          · cases h
      · cases h
    · cases h
  case finish t =>
    split at h
    · rename_i hr
      split at h
      · cases h
      · rename_i hmore
        cases h
        exact .finish hr (by simpa using hmore)
    · cases h

theorem ReadStep.stepReader {s s' : Handle} {a : Action} {evs : List Event}
    (h : ReadStep s a s' evs) : stepReader s a = some (s', evs) := by
  cases h with
  | call h hopen => simp only [Stream.stepReader, h, if_pos hopen]
  | checkMat h hlock hneed htail =>
    rw [htail] at hneed
    simp only [Stream.stepReader, h, hlock, hneed, htail]
  | checkSkip h hlock hneed => simp only [Stream.stepReader, h, hlock, hneed]
  | answer h => simp only [Stream.stepReader, h]
  | install h hlock => simp only [Stream.stepReader, h, hlock]
  | serveReply h hlock hfront => simp only [Stream.stepReader, h, hlock, hfront]
  | servePull h hlock hfront => simp only [Stream.stepReader, h, hlock, hfront]
  | recvMsg h hmore hchan => simp only [Stream.stepReader, h, hmore, if_true, hchan]
  | recvEnd h hmore hchan hdone => simp only [Stream.stepReader, h, hmore, hchan, if_pos hdone, if_true]
  | finish h hmore => simp only [Stream.stepReader, h, hmore, Bool.false_eq_true, if_false]

theorem stepRelease_cases {s s' : Handle} {a : Action} (h : stepRelease s a = some s') :
    ∃ life task, ReleaseStep s a life task ∧ s' = { s with life, task } := by
  cases a <;> simp only [stepRelease, reduceCtorEq] at h
  case release =>
    split at h
    · rename_i hlife
      exact ⟨_, _, .release hlife, (Option.some.inj h).symm⟩
    · cases h
  case drop =>
    split at h
    · rename_i hg
      exact ⟨_, _, .drop hg.1 hg.2, (Option.some.inj h).symm⟩
    · cases h
  case dropRx =>
    split at h
    · rename_i hlife
      exact ⟨_, _, .dropRx hlife, (Option.some.inj h).symm⟩
    · cases h

/-- **Every step is a step of one of the three parties**, and only a thread in `read_blocking`
    emits events. The equations give the whole state after a step, so no proof below needs the
    definition of `step`. -/
theorem step_cases {s s' : Handle} {a : Action} {evs : List Event}
    (h : step s a = some (s', evs)) :
    (∃ task chan, TaskStep s a task chan ∧ s' = { s with task, chan } ∧ evs = []) ∨
    ReadStep s a s' evs ∨
    (∃ life task, ReleaseStep s a life task ∧ s' = { s with life, task } ∧ evs = []) := by
  unfold step at h
  split at h
  case h_7 | h_8 | h_9 =>
    obtain ⟨s₁, h₁, he⟩ := Option.map_eq_some_iff.mp h
    cases he
    obtain ⟨life, task, hr, rfl⟩ := stepRelease_cases h₁
    exact .inr (.inr ⟨life, task, hr, rfl, rfl⟩)
  case h_10 => exact .inr (.inl (stepReader_cases h))
  all_goals
    obtain ⟨s₁, h₁, he⟩ := Option.map_eq_some_iff.mp h
    cases he
    obtain ⟨task, chan, ht, rfl⟩ := stepTask_cases h₁
    exact .inl ⟨task, chan, ht, rfl, rfl⟩

/-- A thread's step is a step of the handle. The other direction, for building runs. -/
theorem ReadStep.step {s s' : Handle} {a : Action} {evs : List Event} (h : ReadStep s a s' evs) :
    step s a = some (s', evs) := by
  have hs := h.stepReader
  cases h <;> exact hs

/-! ## An open handle has been open all along -/

theorem opened_of_step {s s' : Handle} {a : Action} {evs : List Event}
    (h : step s a = some (s', evs)) (hopen : s'.life = .opened) : s.life = .opened := by
  rcases step_cases h with ⟨_, _, _, rfl, _⟩ | hr | ⟨_, _, hr, rfl, _⟩
  · exact hopen
  · cases hr <;> exact hopen
  · cases hr <;> simp at hopen

/-- A stream keeps its tail context, and that is what it materializes: the tail query of an open
    file is always about the table it was opened for. -/
theorem exec_tail_context {s s' : Handle} {as : List Action} {tr : List Event}
    (h : sys.Exec s as tr s') :
    s'.tail = s.tail ∧ ∀ e ∈ tr, ∀ t tail, e = .materialize t tail → s.tail = some tail := by
  have hkept {s₁ s₂ : Handle} {a : Action} {evs : List Event}
      (hstep : step s₁ a = some (s₂, evs)) :
      s₂.tail = s₁.tail ∧ ∀ e ∈ evs, ∀ t tail, e = .materialize t tail → s₁.tail = some tail := by
    rcases step_cases hstep with ⟨_, _, _, rfl, rfl⟩ | hread | ⟨_, _, _, rfl, rfl⟩
    · exact ⟨rfl, by simp⟩
    · cases hread with
      | checkMat _ _ _ htail =>
        refine ⟨rfl, fun e he t tail heq => ?_⟩
        cases List.mem_singleton.mp he
        cases heq
        exact htail
      | call | checkSkip | answer | install | servePull | recvMsg | recvEnd => exact ⟨rfl, by simp⟩
      | serveReply | finish =>
        refine ⟨rfl, fun e he t tail heq => ?_⟩
        cases List.mem_singleton.mp he
        cases heq
    · exact ⟨rfl, by simp⟩
  refine ⟨h.invariant (I := fun s₁ => s₁.tail = s.tail) ?_ rfl, ?_⟩
  · intro s₁ a s₂ evs hsame hstep
    exact (hkept hstep).1.trans hsame
  · refine h.eventsAlong (I := fun s₁ => s₁.tail = s.tail) (C := fun _ _ => True) ?_
      (Lts.along_of_forall (fun _ _ _ => trivial) s) rfl
    intro s₁ a s₂ evs hsame _ hstep
    obtain ⟨hnext, hevs⟩ := hkept hstep
    refine ⟨hnext.trans hsame, fun e he t tail heq => ?_⟩
    rw [← hsame]
    exact hevs e he t tail heq

/-! ## The pipe

What the reader will still receive is what lies in the channel followed by what the
task will still send. No step of the task changes that list as long as nobody has
cancelled it: the task and the channel together are one FIFO, whatever the chunks
and the schedule. -/

def Ending.msgs : Ending → List Msg
  | .eof => []
  | .failed e => [.error e]

def Body.msgs (b : Body) : List Msg := b.chunks.map .ok ++ b.ending.msgs

/-- The messages an uncancelled task will still send. Together with what is in the channel this is
    all that a reader can still receive. -/
def Task.script : Task → List Msg
  | .requesting (.ok body) => body.msgs
  | .requesting (.error e) => [.error e]
  | .looping rest => rest.msgs
  | .waiting rest _ => rest.msgs
  | .sending bytes rest => .ok bytes :: rest.msgs
  | .sendingErr e => [.error e]
  | .done => []

def Handle.incoming (s : Handle) : List Msg := s.chan ++ s.task.script

/-- The task has not been told to stop. Then each of its steps only moves messages from what it
    will send to the channel, and drops none. -/
def Task.Unnotified : Task → Prop
  | .waiting _ n => n = false
  | _ => True

theorem TaskStep.pipe {s : Handle} {a : Action} {task : Task} {chan : List Msg}
    (h : TaskStep s a task chan) (hopen : s.life = .opened) (hun : s.task.Unnotified) :
    chan ++ task.script = s.incoming ∧ task.Unnotified := by
  unfold Handle.incoming
  cases h with
  | cancelled h => rw [h] at hun; exact absurd hun (by simp [Task.Unnotified])
  | sendFails hclosed | sendErrFails hclosed => rw [hopen] at hclosed; cases hclosed
  | connectOk h | connectErr h | enterSelect h | nextChunk h | nextErr h | nextEof h =>
    rw [h]; simp [Task.script, Body.msgs, Ending.msgs, Task.Unnotified]
  | send hopen' hcap h | sendErr hopen' hcap h =>
    rw [h]; simp [Task.script, Task.Unnotified]

end Stream
end ClickFs
