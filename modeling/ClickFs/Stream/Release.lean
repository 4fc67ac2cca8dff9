import Mathlib.Data.Finset.Card
import ClickFs.Stream.Steps

/-!
# Closing a stream early

`release` cancels, and when the last reader's `Arc` is gone `Drop` cancels again and
the receiver goes. Cancelling is `notify_waiters`: it wakes the future that exists and
stores nothing. So it reaches the task in `select!` and nowhere else, and it does not
bind the task even there, since `select!` may take a chunk that is ready too.

`early_close` says what is left: the cases in which the task cannot come back to the
top of its loop after `release`, and that these are all.
-/

set_option autoImplicit false

namespace ClickFs
namespace Stream

/-! ## The reads in progress -/

/-- The `Arc` count is the number of reads in progress. `Drop` runs when it reaches zero, which is
    how the end of the last read becomes an event of the handle. -/
def Counted (s : Handle) : Prop :=
  ∃ busy : Finset Tid, busy.card = s.refs ∧ ∀ t, t ∈ busy ↔ s.readers t ≠ .idle

theorem Counted.spawn (up : Upstream) (tail : Option TailContext) :
    Counted (.spawn up tail) :=
  ⟨∅, rfl, fun t => by simp [Handle.spawn]⟩

theorem Counted.goesOn {s s₁ : Handle} {t : Tid} {r : Reader} (h : Counted s)
    (hold : s.readers t ≠ .idle) (hnew : r ≠ .idle) (hrefs : s₁.refs = s.refs)
    (hreaders : s₁.readers = (s.setReader t r).readers) : Counted s₁ := by
  obtain ⟨busy, hcard, hbusy⟩ := h
  refine ⟨busy, hcard.trans hrefs.symm, fun t' => ?_⟩
  rw [hreaders]
  by_cases ht : t' = t
  · subst ht
    rw [Handle.setReader_self]
    exact ⟨fun _ => hnew, fun _ => (hbusy t').mpr hold⟩
  · rw [Handle.setReader_of_ne s ht]
    exact hbusy t'

theorem Counted.returns {s : Handle} {t : Tid} (h : Counted s) (hold : s.readers t ≠ .idle)
    (g : Inner) : Counted (s.returns t g) := by
  obtain ⟨busy, hcard, hbusy⟩ := h
  refine ⟨busy.erase t, ?_, fun t' => ?_⟩
  · rw [Finset.card_erase_of_mem ((hbusy t).mpr hold), hcard]
    rfl
  · rw [Finset.mem_erase]
    by_cases ht : t' = t
    · subst ht
      simp [Handle.returns]
    · show t' ≠ t ∧ t' ∈ busy ↔ (s.setReader t .idle).readers t' ≠ .idle
      rw [Handle.setReader_of_ne s ht]
      exact ⟨fun h => (hbusy t').mp h.2, fun h => ⟨ht, (hbusy t').mpr h⟩⟩

theorem Counted.step {s s₁ : Handle} {a : Action} {evs : List Event} (h : Counted s)
    (hstep : step s a = some (s₁, evs)) : Counted s₁ := by
  rcases step_cases hstep with ⟨_, _, _, rfl, _⟩ | hr | ⟨_, _, _, rfl, _⟩
  case inl | inr.inr => exact h
  cases hr with
  | @call t offset size hidle hopen =>
    obtain ⟨busy, hcard, hbusy⟩ := h
    have hnew : t ∉ busy := fun hmem => (hbusy t).mp hmem hidle
    refine ⟨insert t busy, by rw [Finset.card_insert_of_notMem hnew, hcard], fun t' => ?_⟩
    rw [Finset.mem_insert]
    by_cases ht : t' = t
    · subst ht
      simp
    · show t' = t ∨ t' ∈ busy ↔ (s.setReader t (.checking offset size)).readers t' ≠ .idle
      rw [Handle.setReader_of_ne s ht, ← hbusy t']
      exact ⟨fun h => h.resolve_left ht, .inr⟩
  | checkMat hr _ _ _ | checkSkip hr _ _ | answer hr | install hr _ | servePull hr _ _ =>
    exact h.goesOn (by simp [hr]) (by simp) rfl rfl
  | serveReply hr hlock hfront => exact h.returns (by simp [hr]) _
  | finish hr hmore => exact h.returns (by simp [hr]) _
  | recvMsg | recvEnd => exact h

/-- With no read in progress nobody moves in `read_blocking` once the handle is released. What is
    left to move is the task and `Drop`. -/
theorem Counted.no_reader {s s₁ : Handle} {a : Action} {evs : List Event} (h : Counted s)
    (hrefs : s.refs = 0) (hgone : s.life ≠ .opened) : ¬ ReadStep s a s₁ evs := by
  obtain ⟨busy, hcard, hbusy⟩ := h
  have hidle (t : Tid) : s.readers t = .idle := by
    by_contra hne
    have hmem := (hbusy t).mpr hne
    rw [Finset.card_eq_zero.mp (hcard.trans hrefs)] at hmem
    exact absurd hmem (Finset.notMem_empty t)
  intro hstep
  cases hstep with
  | call hr hopen => exact hgone hopen
  | checkMat hr | checkSkip hr | answer hr | install hr | serveReply hr | servePull hr
    | recvMsg hr | recvEnd hr | finish hr =>
    rw [hidle] at hr
    cases hr

/-! ## What cancelling reaches -/

/-- Waiting for another chunk with no notification pending: only the server ends it. -/
def Task.Stranded : Task → Prop
  | .waiting _ false => True
  | _ => False

/-- A send does not succeed any more: the receiver is gone, or the channel is full with nobody to
    drain it. -/
def Handle.Blocked (s : Handle) : Prop :=
  s.life = .closed ∨ (s.refs = 0 ∧ chanCap ≤ s.chan.length)

/-- `release` stops the task: it is about to leave its loop by itself, or it has to send first and
    cannot. The four other cases all have one thing in common: the task can still come to the top
    of its loop, and there it creates a future that the notification came too early for. -/
def Handle.Stops (s : Handle) : Prop :=
  match s.task with
  | .requesting (.error _) | .waiting ⟨[], _⟩ _ | .sendingErr _ | .done => True
  | .waiting ⟨_ :: _, _⟩ _ | .sending _ _ => s.refs = 0 ∧ chanCap ≤ s.chan.length
  | .requesting (.ok _) | .looping _ => False

/-- After `release`, a task that does not come back to the top of its loop. -/
inductive Leaving (s : Handle) : Task → Prop
  | refused {e : QueryError} : Leaving s (.requesting (.error e))
  | atEnd {ending : Ending} : Leaving s (.waiting ⟨[], ending⟩ true)
  | notified {rest : Body} (h : s.Blocked) : Leaving s (.waiting rest true)
  | blocked {bytes : Bytes} {rest : Body} (h : s.Blocked) : Leaving s (.sending bytes rest)
  | reporting {e : QueryError} : Leaving s (.sendingErr e)
  | done : Leaving s .done

/-- The invariant of a handle that was released in time: the task is on its way out and stays on
    it. -/
structure Caught (s : Handle) : Prop where
  gone : s.life ≠ .opened
  leaving : Leaving s s.task

theorem Caught.not_stranded {s : Handle} (h : Caught s) : ¬ s.task.Stranded := by
  have hl := h.leaving
  generalize s.task = task at hl
  cases hl <;> exact fun hs => hs

theorem Leaving.mono {s s₁ : Handle} {task : Task} (h : Leaving s task)
    (hb : s.Blocked → s₁.Blocked) : Leaving s₁ task := by
  cases h with
  | refused => exact .refused
  | atEnd => exact .atEnd
  | notified h => exact .notified (hb h)
  | blocked h => exact .blocked (hb h)
  | reporting => exact .reporting
  | done => exact .done

theorem Leaving.notifyWaiters {s : Handle} {task : Task} (h : Leaving s task) :
    Leaving s task.notifyWaiters := by
  cases h with
  | refused => exact .refused
  | atEnd => exact .atEnd
  | notified h => exact .notified h
  | blocked h => exact .blocked h
  | reporting => exact .reporting
  | done => exact .done

/-- The task's own steps lead out. Nobody else's matter, since nobody else touches the task but
    `Drop`, which notifies it again. -/
theorem Caught.taskStep {s : Handle} {a : Action} {task : Task} {chan : List Msg}
    (h : Caught s) (hstep : TaskStep s a task chan) :
    Leaving s task ∧ (s.Blocked → chan = s.chan) := by
  have hl := h.leaving
  cases hstep with
  | connectOk ht | enterSelect ht => rw [ht] at hl; cases hl
  | connectErr ht | nextErr ht => exact ⟨.reporting, fun _ => rfl⟩
  | cancelled ht | nextEof ht | sendFails _ ht | sendErrFails _ ht => exact ⟨.done, fun _ => rfl⟩
  | nextChunk ht =>
    rw [ht] at hl
    cases hl with
    | notified hb => exact ⟨.blocked hb, fun _ => rfl⟩
  | send hopen hcap ht =>
    rw [ht] at hl
    cases hl with
    | blocked hb =>
      rcases hb with hclosed | ⟨_, hfull⟩
      · exact absurd hclosed hopen
      · exact absurd hcap (Nat.not_lt.mpr hfull)
  | sendErr hopen hcap ht =>
    refine ⟨.done, fun hb => ?_⟩
    rcases hb with hclosed | ⟨_, hfull⟩
    · exact absurd hclosed hopen
    · exact absurd hcap (Nat.not_lt.mpr hfull)

theorem ReadStep.frame {s s₁ : Handle} {a : Action} {evs : List Event}
    (h : ReadStep s a s₁ evs) : s₁.task = s.task ∧ s₁.life = s.life := by
  cases h <;> exact ⟨rfl, rfl⟩

theorem Caught.step {s s₁ : Handle} {a : Action} {evs : List Event} (h : Caught s)
    (hc : Counted s) (hstep : step s a = some (s₁, evs)) : Caught s₁ := by
  rcases step_cases hstep with ⟨task, chan, ht, rfl, _⟩ | hr | ⟨life, task, hl, rfl, _⟩
  · obtain ⟨hleaving, hchan⟩ := h.taskStep ht
    refine ⟨h.gone, hleaving.mono fun hb => ?_⟩
    rw [Handle.Blocked, hchan hb]
    exact hb
  · obtain ⟨htask, hlife⟩ := hr.frame
    refine ⟨hlife ▸ h.gone, htask ▸ h.leaving.mono fun hb => ?_⟩
    rcases hb with hclosed | ⟨hrefs, _⟩
    · exact .inl (hlife.trans hclosed)
    · exact absurd hr (hc.no_reader hrefs h.gone)
  · cases hl with
    | release hopen => exact absurd hopen h.gone
    | drop hreleased hrefs =>
      refine ⟨by simp, h.leaving.notifyWaiters.mono fun hb => ?_⟩
      rcases hb with hclosed | hfull
      · rw [hreleased] at hclosed
        cases hclosed
      · exact .inr hfull
    | dropRx hdropping => exact ⟨by simp, h.leaving.mono fun _ => .inl rfl⟩

theorem caught_of_stops {s : Handle} (h : s.Stops) :
    Caught { s with life := .released, task := s.task.notifyWaiters } := by
  refine ⟨by simp, ?_⟩
  unfold Handle.Stops at h
  split at h
  · rename_i ht; simp only [ht]; exact .refused
  · rename_i ht; simp only [ht]; exact .atEnd
  · rename_i ht; simp only [ht]; exact .reporting
  · rename_i ht; simp only [ht]; exact .done
  · rename_i ht; simp only [ht]; exact .notified (.inr h)
  · rename_i ht; simp only [ht]; exact .blocked (.inr h)
  · exact h.elim
  · exact h.elim

/-- Every `release` of the run finds the task where it stops it. A condition on the state before
    that step alone. -/
def StopsAtRelease (s : Handle) (a : Action) : Prop := a = .release → s.Stops

/-- The handle is not released, or was released in time. -/
structure InTime (s : Handle) : Prop where
  counted : Counted s
  caught : s.life ≠ .opened → Caught s

theorem InTime.step {s s₁ : Handle} {a : Action} {evs : List Event} (h : InTime s)
    (hC : StopsAtRelease s a) (hstep : step s a = some (s₁, evs)) : InTime s₁ := by
  refine ⟨h.counted.step hstep, fun hgone => ?_⟩
  by_cases hopen : s.life = .opened
  · rcases step_cases hstep with ⟨_, _, _, rfl, _⟩ | hr | ⟨_, _, hl, rfl, _⟩
    · exact absurd hopen hgone
    · exact absurd (hr.frame.2.trans hopen) hgone
    · cases hl with
      | release _ => exact caught_of_stops (hC rfl)
      | drop hreleased | dropRx hreleased => rw [hopen] at hreleased; cases hreleased
  · exact (h.caught hopen).step h.counted hstep

/-- From the top of the loop the task goes back into `select!`, after `Drop` if it is late. Both
    notifications have been spent by then. -/
theorem stranded_of_looping {s : Handle} {rest : Body} (htask : s.task = .looping rest)
    (hlife : s.life = .released) (hrefs : s.refs = 0) :
    ∃ s', sys.Exec s [.drop, .dropRx, .enterSelect] [] s' ∧ s'.life = .closed ∧
      s'.task.Stranded := by
  obtain ⟨tail, task, chan, inner, lock, readers, refs, life⟩ := s
  simp only at htask hlife hrefs
  subst htask hlife hrefs
  exact ⟨_, Lts.exec_of_run rfl, rfl, trivial⟩

/-- A send that succeeds takes the task to the top of the loop. -/
theorem stranded_of_sending {s : Handle} {bytes : Bytes} {rest : Body}
    (htask : s.task = .sending bytes rest) (hlife : s.life = .released) (hrefs : s.refs = 0)
    (hcap : s.chan.length < chanCap) :
    ∃ s', sys.Exec s [.send, .drop, .dropRx, .enterSelect] [] s' ∧ s'.life = .closed ∧
      s'.task.Stranded := by
  have hsend : sys.step s .send
      = some ({ s with task := .looping rest, chan := s.chan ++ [.ok bytes] }, []) := by
    have hopen : s.life ≠ .closed := by simp [hlife]
    simp only [sys, step, stepTask, if_pos (And.intro hopen hcap), htask, Option.map_some]
  obtain ⟨s', hrun, hend⟩ := stranded_of_looping
    (s := { s with task := .looping rest, chan := s.chan ++ [.ok bytes] }) rfl hlife hrefs
  exact ⟨s', .cons hsend hrun, hend⟩

/-- Where `release` does not stop the task, the task can be stranded, with the handle gone for
    good. This is the other direction: no case can be dropped from `Handle.Stops`. -/
theorem stranded_of_not_stops {s : Handle} (hopen : s.life = .opened) (hrefs : s.refs = 0)
    (h : ¬ s.Stops) :
    ∃ bs s', sys.Exec s (.release :: bs) [] s' ∧ s'.life = .closed ∧ s'.task.Stranded := by
  let s₁ : Handle := { s with life := .released, task := s.task.notifyWaiters }
  have hrelease : sys.step s .release = some (s₁, []) := by
    simp only [sys, step, stepRelease, if_pos hopen, Option.map_some, s₁]
  suffices hgoes : ∃ bs s', sys.Exec s₁ bs [] s' ∧ s'.life = .closed ∧ s'.task.Stranded by
    obtain ⟨bs, s', hrun, hend⟩ := hgoes
    exact ⟨bs, s', .cons hrelease hrun, hend⟩
  have hroom (hfull : ¬ (s.refs = 0 ∧ chanCap ≤ s.chan.length)) : s.chan.length < chanCap :=
    Nat.lt_of_not_le fun hle => hfull ⟨hrefs, hle⟩
  unfold Handle.Stops at h
  split at h
  case h_1 | h_2 | h_3 | h_4 => exact absurd trivial h
  · rename_i bytes rest ending n htask
    have hnext : sys.step s₁ .next
        = some ({ s₁ with task := .sending bytes ⟨rest, ending⟩ }, []) := by
      have htask₁ : s₁.task = .waiting ⟨bytes :: rest, ending⟩ true := by
        simp only [s₁, htask, Task.notifyWaiters]
      simp only [sys, step, stepTask, htask₁, Option.map_some]
    obtain ⟨s', hrun, hend⟩ := stranded_of_sending
      (s := { s₁ with task := .sending bytes ⟨rest, ending⟩ }) rfl rfl hrefs (hroom h)
    exact ⟨_, s', .cons hnext hrun, hend⟩
  · rename_i bytes rest htask
    have htask₁ : s₁.task = .sending bytes rest := by simp only [s₁, htask, Task.notifyWaiters]
    obtain ⟨s', hrun, hend⟩ := stranded_of_sending htask₁ rfl hrefs (hroom h)
    exact ⟨_, s', hrun, hend⟩
  · rename_i body htask
    have hconnect : sys.step s₁ .connect = some ({ s₁ with task := .looping body }, []) := by
      have htask₁ : s₁.task = .requesting (.ok body) := by
        simp only [s₁, htask, Task.notifyWaiters]
      simp only [sys, step, stepTask, htask₁, Option.map_some]
    obtain ⟨s', hrun, hend⟩ := stranded_of_looping (s := { s₁ with task := .looping body })
      rfl rfl hrefs
    exact ⟨_, s', .cons hconnect hrun, hend⟩
  · rename_i rest htask
    have htask₁ : s₁.task = .looping rest := by simp only [s₁, htask, Task.notifyWaiters]
    obtain ⟨s', hrun, hend⟩ := stranded_of_looping htask₁ rfl hrefs
    exact ⟨_, s', hrun, hend⟩

/-! ## Early close -/

/-- What a stopped task does at last, with no more data from the server. The run is written out,
    case by case. -/
theorem Caught.finishes {s : Handle} (h : Caught s) (hclosed : s.life = .closed) :
    ∃ bs s', .next ∉ bs ∧ sys.Exec s bs [] s' ∧ s'.task = .done := by
  have hl := h.leaving
  obtain ⟨tail, task, chan, inner, lock, readers, refs, life⟩ := s
  simp only at hclosed hl
  subst hclosed
  cases hl with
  | refused => exact ⟨[.connect, .sendFails], _, by simp, Lts.exec_of_run rfl, rfl⟩
  | atEnd | notified => exact ⟨[.cancelled], _, by simp, Lts.exec_of_run rfl, rfl⟩
  | blocked | reporting => exact ⟨[.sendFails], _, by simp, Lts.exec_of_run rfl, rfl⟩
  | done => exact ⟨[], _, by simp, .nil _, rfl⟩

/-- **When an early close takes.** In a run whose `release` finds the task leaving, or
    unable to send, the task is never left waiting for the server, and once the
    receiver is gone it can finish without it. And with no read in progress this is
    exactly when. -/
theorem early_close {up : Upstream} {tail : Option TailContext} {as : List Action}
    {tr : List Event} {s : Handle} (h : sys.Exec (.spawn up tail) as tr s) :
    (sys.Along StopsAtRelease (.spawn up tail) as → s.life ≠ .opened →
      ¬ s.task.Stranded ∧
      (s.life = .closed → ∃ bs s', .next ∉ bs ∧ sys.Exec s bs [] s' ∧ s'.task = .done)) ∧
    (s.life = .opened → s.refs = 0 →
      ((∀ bs tr' s', sys.Exec s (.release :: bs) tr' s' → ¬ s'.task.Stranded) ↔ s.Stops)) := by
  have hcounted : Counted s :=
    h.invariant (I := Counted) (fun _ _ _ _ hI hstep => hI.step hstep) (Counted.spawn up tail)
  refine ⟨fun hC hgone => ?_, fun hopen hrefs => ⟨fun hnever => ?_, fun hstops => ?_⟩⟩
  · have hin : InTime s := h.invariantAlong (I := InTime)
      (fun _ _ _ _ hI hC hstep => hI.step hC hstep) hC
      ⟨Counted.spawn up tail, fun hg => absurd rfl hg⟩
    exact ⟨(hin.caught hgone).not_stranded, (hin.caught hgone).finishes⟩
  · by_contra hstops
    obtain ⟨bs, s', hrun, -, hstranded⟩ := stranded_of_not_stops hopen hrefs hstops
    exact hnever bs [] s' hrun hstranded
  · intro bs tr' s' hrun
    cases hrun with
    | @cons _ s₁ _ _ _ evs tr' head tail =>
      have head : step s .release = some (s₁, evs) := head
      have hin₁ : Caught s₁ ∧ Counted s₁ := by
        refine ⟨?_, Counted.step hcounted head⟩
        rcases step_cases head with ⟨_, _, ht, _, _⟩ | hr | ⟨_, _, hl, rfl, _⟩
        · cases ht
        · cases hr
        · cases hl
          exact caught_of_stops hstops
      exact (tail.invariant (I := fun s => Caught s ∧ Counted s)
        (fun _ _ _ _ hI hstep => ⟨hI.1.step hI.2 hstep, hI.2.step hstep⟩) hin₁).1.not_stranded

/-- Nine chunks from the server: one more than the channel takes. -/
def nineChunks : Upstream := .ok ⟨List.replicate 9 ⟨[83], by decide⟩, .eof⟩

/-- Nobody reads: the task fills the channel and is left with the ninth chunk in its hands. -/
def fillChannel : List Action :=
  .connect :: (List.replicate 8 [.enterSelect, .next, .send]).flatten ++ [.enterSelect, .next]

/-- The file is closed while the task cannot send. It is not left waiting, and it finishes. -/
theorem early_close_full : ∃ s s', sys.Exec (.spawn nineChunks none) fillChannel [] s ∧
    s.chan.length = chanCap ∧ (∃ bytes, s.task = .sending bytes ⟨[], .eof⟩) ∧
    sys.Exec s [.release, .drop, .dropRx] [] s' ∧
    (¬ s'.task.Stranded ∧ ∃ bs s'', .next ∉ bs ∧ sys.Exec s' bs [] s'' ∧ s''.task = .done) ∧
    ∀ bs tr s'', sys.Exec s (.release :: bs) tr s'' → ¬ s''.task.Stranded := by
  have hfill : sys.Exec (.spawn nineChunks none) fillChannel [] _ := Lts.exec_of_isSome rfl
  have hclose : sys.Exec (sys.final (.spawn nineChunks none) fillChannel)
      [.release, .drop, .dropRx] [] _ := Lts.exec_of_isSome rfl
  have hstops : (sys.final (.spawn nineChunks none) fillChannel).Stops :=
    ⟨rfl, (by decide : chanCap ≤ 8)⟩
  have hintime : sys.Along StopsAtRelease (.spawn nineChunks none)
      (fillChannel ++ [.release, .drop, .dropRx]) := by
    refine (Lts.Along.append hfill).mpr ⟨?_, fun _ => hstops, fun s₁ evs _ => ?_⟩
    · exact Lts.along_of_forall (by simp [fillChannel, StopsAtRelease]) _
    · exact Lts.along_of_forall (by simp [StopsAtRelease]) _
  obtain ⟨hnot, hfinishes⟩ := (early_close (hfill.append hclose)).1 hintime (by decide)
  exact ⟨_, _, hfill, rfl, ⟨_, rfl⟩, hclose, ⟨hnot, hfinishes rfl⟩,
    ((early_close hfill).2 rfl rfl).mpr hstops⟩

/-- A stream closed while its request is pending: the response arrives, and the task waits for a
    chunk that nobody will read. A slow server and an impatient user are all it takes. -/
theorem closed_while_requesting :
    ¬ ∀ up tail as tr s, sys.Exec (.spawn up tail) as tr s → s.life ≠ .opened →
      ¬ s.task.Stranded := by
  intro hall
  let late : List Action := [.release, .drop, .dropRx, .connect, .enterSelect]
  exact hall (.ok ⟨[], .eof⟩) none late _ _ (Lts.exec_of_isSome rfl) (by decide) trivial

end Stream
end ClickFs
