import ClickFs.Stream.Progress

/-!
# What a stream holds in memory

The channel is bounded so that a slow reader slows the download down. What is held at
any time is then independent of how long the response is: eight chunks in the channel,
one in the hands of the task, and what is pending, which the receive loop only adds to
while a read wants more. The last chunk it adds may go past what was wanted, which is why
the bound has ten chunks in it and not nine.

The tail buffer is not counted. It is not fed by the channel, and its size is a matter of
how many rows the tail query asks for.
-/

set_option autoImplicit false

namespace ClickFs
namespace Stream

def Msg.len : Msg → Nat
  | .ok bytes => bytes.len
  | .error _ => 0

/-- The chunk the task is sending. It has left the server and not yet reached the channel. -/
def Task.inHand : Task → Nat
  | .sending bytes _ => bytes.len
  | _ => 0

/-- The bytes of the stream that are held here: pending, in the channel, and in the hands of the
    task. -/
def Handle.buffered (s : Handle) : Nat :=
  s.inner.pending.length + (s.chan.map Msg.len).sum + s.task.inHand

def Upstream.chunks : Upstream → List Bytes
  | .ok body => body.chunks
  | .error _ => []

/-- The chunks the task has not sent, the one in its hands included. Their sizes are the server's
    choice, so a bound on them has to be carried from the upstream to the channel. -/
def Task.unsent : Task → List Bytes
  | .requesting up => up.chunks
  | .looping rest | .waiting rest _ => rest.chunks
  | .sending bytes rest => bytes :: rest.chunks
  | .sendingErr _ | .done => []

/-- No read asks for more than `most` bytes. -/
def Reader.AsksAtMost (most : Nat) : Reader → Prop
  | .idle => True
  | .checking _ size | .materializing _ size | .installing _ size _ | .serving _ size
    | .pulling size _ => size ≤ most

def Action.AsksAtMost (most : Nat) : Action → Prop
  | .call _ _ size => size ≤ most
  | _ => True

/-- The invariant, for chunks of `chunk` bytes and reads of `most` at most. What is pending is
    never more than one read has wanted and the chunk that went past it. -/
structure Slim (chunk most : Nat) (s : Handle) : Prop where
  unsent : ∀ b ∈ s.task.unsent, b.len ≤ chunk
  chan : ∀ m ∈ s.chan, Msg.len m ≤ chunk
  cap : s.chan.length ≤ chanCap
  asks : ∀ t, (s.readers t).AsksAtMost most
  pending : s.inner.pending.length ≤ most + chunk

variable {chunk most : Nat} {s s₁ : Handle} {a : Action} {evs : List Event}

theorem Slim.spawn {up : Upstream} (h : ∀ b ∈ up.chunks, b.len ≤ chunk)
    (tail : Option TailContext) : Slim chunk most (.spawn up tail) where
  unsent := h
  chan := by simp [Handle.spawn]
  cap := Nat.zero_le _
  asks := fun _ => trivial
  pending := Nat.zero_le _

/-- A reader moves, with the pending bytes of `g`, and the task and the channel stay as they are. -/
theorem Slim.moves (h : Slim chunk most s) {t : Tid} {r : Reader} (hr : r.AsksAtMost most)
    (hrest : s₁.task = s.task ∧ s₁.chan = s.chan)
    (hreaders : s₁.readers = (s.setReader t r).readers)
    (hpending : s₁.inner.pending.length ≤ s.inner.pending.length) : Slim chunk most s₁ where
  unsent := hrest.1 ▸ h.unsent
  chan := hrest.2 ▸ h.chan
  cap := hrest.2 ▸ h.cap
  asks := by
    rw [hreaders]
    exact Handle.forall_setReader (P := Reader.AsksAtMost most) h.asks hr
  pending := Nat.le_trans hpending h.pending

theorem pending_installTail (g : Inner) (mat : Except QueryError Bytes) :
    (g.installTail mat).pending = g.pending := by
  cases mat <;> rfl

theorem pending_front {g g' : Inner} {offset : UInt64} {size : Nat} {r : ReadReply}
    (h : front g offset size = .reply r g') : g'.pending = g.pending := by
  unfold front at h
  split at h
  · injection h with _ hg
    rw [← hg]
  · split at h
    · injection h with _ hg
      rw [← hg]
    · split at h
      · injection h with _ hg
        rw [← hg]
      · cases h

theorem pending_finish_le (g : Inner) (size : Nat) :
    (finish g size).2.pending.length ≤ g.pending.length := by
  unfold finish
  split
  · exact Nat.le_refl _
  · simp

theorem Slim.taskStep {task : Task} {chan : List Msg} (h : Slim chunk most s)
    (hstep : TaskStep s a task chan) : Slim chunk most { s with task, chan } := by
  have hunsent := h.unsent
  refine ⟨?_, ?_, ?_, h.asks, h.pending⟩
  · cases hstep with
    | connectOk ht | enterSelect ht | nextChunk ht =>
      rw [ht] at hunsent
      exact hunsent
    | connectErr | cancelled | nextErr | nextEof | sendErr | sendFails | sendErrFails =>
      simp [Task.unsent]
    | send _ _ ht =>
      rw [ht] at hunsent
      exact fun b hb => hunsent b (List.mem_cons_of_mem _ hb)
  · cases hstep with
    | send _ _ ht =>
      rw [ht] at hunsent
      intro m hm
      rcases List.mem_append.mp hm with hm | hm
      · exact h.chan m hm
      · rw [List.mem_singleton.mp hm]
        exact hunsent _ List.mem_cons_self
    | sendErr _ _ ht =>
      intro m hm
      rcases List.mem_append.mp hm with hm | hm
      · exact h.chan m hm
      · rw [List.mem_singleton.mp hm]
        exact Nat.zero_le _
    | connectOk | connectErr | enterSelect | cancelled | nextChunk | nextErr | nextEof
      | sendFails | sendErrFails => exact h.chan
  · cases hstep with
    | send _ hcap _ | sendErr _ hcap _ =>
      show (s.chan ++ [_]).length ≤ chanCap
      rw [List.length_append, List.length_singleton]
      exact hcap
    | connectOk | connectErr | enterSelect | cancelled | nextChunk | nextErr | nextEof
      | sendFails | sendErrFails => exact h.cap

theorem Slim.readStep (h : Slim chunk most s) (ha : a.AsksAtMost most)
    (hstep : ReadStep s a s₁ evs) : Slim chunk most s₁ := by
  have hasks {t : Tid} {r : Reader} (hr : s.readers t = r) : r.AsksAtMost most := hr ▸ h.asks t
  cases hstep with
  | call _ _ => exact h.moves (by exact ha) ⟨rfl, rfl⟩ rfl (Nat.le_refl _)
  | checkMat hr _ _ _ | checkSkip hr _ _ | answer hr | servePull hr _ _ =>
    have hask := hasks hr
    exact h.moves (by exact hask) ⟨rfl, rfl⟩ rfl (Nat.le_refl _)
  | install hr _ =>
    have hask := hasks hr
    refine h.moves (by exact hask) ⟨rfl, rfl⟩ rfl (Nat.le_of_eq ?_)
    exact congrArg List.length (pending_installTail ..)
  | serveReply _ _ hfront =>
    refine h.moves (r := .idle) trivial ⟨rfl, rfl⟩ rfl (Nat.le_of_eq ?_)
    exact congrArg List.length (pending_front hfront)
  | finish _ _ =>
    exact h.moves (r := .idle) trivial ⟨rfl, rfl⟩ rfl (pending_finish_le _ _)
  | @recvMsg t size before m rest hr hmore hchan =>
    have hchans := h.chan
    have hcap := h.cap
    rw [hchan] at hchans hcap
    refine ⟨h.unsent, fun m' hm => hchans m' (List.mem_cons_of_mem _ hm), ?_, h.asks, ?_⟩
    · exact Nat.le_of_succ_le hcap
    · -- the loop only goes on below what this read asks for
      have hsize : size ≤ most := hasks hr
      have hbelow : s.inner.pending.length < size := by simp_all [wantsMore]
      have hlen := hchans m List.mem_cons_self
      cases m with
      | ok bytes =>
        show (s.inner.pending ++ bytes.data).length ≤ most + chunk
        rw [List.length_append]
        have hlen : bytes.data.length ≤ chunk := hlen
        omega
      | error e => exact h.pending
  | recvEnd => exact ⟨h.unsent, h.chan, h.cap, h.asks, h.pending⟩

theorem Slim.step (h : Slim chunk most s) (ha : a.AsksAtMost most)
    (hstep : sys.step s a = some (s₁, evs)) : Slim chunk most s₁ := by
  rcases step_cases hstep with ⟨_, _, ht, rfl, _⟩ | hr | ⟨life, task, hl, rfl, _⟩
  · exact h.taskStep ht
  · exact h.readStep ha hr
  · have hunsent : task.unsent = s.task.unsent := by
      cases hl with
      | release _ | drop _ _ => cases s.task <;> rfl
      | dropRx => rfl
    exact ⟨hunsent ▸ h.unsent, h.chan, h.cap, h.asks, h.pending⟩

theorem sum_len_le {chan : List Msg} (h : ∀ m ∈ chan, Msg.len m ≤ chunk) :
    (chan.map Msg.len).sum ≤ chan.length * chunk := by
  induction chan with
  | nil => exact Nat.zero_le _
  | cons m chan ih =>
    have hm := h m List.mem_cons_self
    have ih := ih fun m' hm' => h m' (List.mem_cons_of_mem _ hm')
    rw [List.map_cons, List.sum_cons, List.length_cons, Nat.succ_mul]
    omega

theorem Slim.total_le (h : Slim chunk most s) : s.buffered ≤ most + 10 * chunk := by
  have hchan := sum_len_le h.chan
  have hcap : s.chan.length * chunk ≤ 8 * chunk := Nat.mul_le_mul_right chunk h.cap
  have hhand : s.task.inHand ≤ chunk := by
    have hunsent := h.unsent
    cases ht : s.task with
    | sending bytes rest =>
      rw [ht] at hunsent
      exact hunsent bytes List.mem_cons_self
    | requesting | looping | waiting | sendingErr | done => exact Nat.zero_le _
  have hpending := h.pending
  unfold Handle.buffered
  omega

/-- **Memory is bounded however long the response is.** If the chunks are of `chunk` bytes at most
    and no read asks for more than `most`, then at any moment of any run the handle holds no more
    than `most` bytes and ten chunks of the stream. The buffer of the tail, if there is one, comes
    on top. -/
theorem buffered_le {up : Upstream} {tail : Option TailContext} {as : List Action}
    {tr : List Event} {s : Handle} (h : sys.Exec (.spawn up tail) as tr s)
    (hchunk : ∀ b ∈ up.chunks, b.len ≤ chunk) (hmost : ∀ a ∈ as, a.AsksAtMost most) :
    s.buffered ≤ most + 10 * chunk ∧ s.chan.length ≤ 8 ∧
      s.inner.pending.length ≤ most + chunk := by
  have hslim : Slim chunk most s := h.invariantAlong (C := fun _ a => a.AsksAtMost most)
    (fun _ _ _ _ hs ha hstep => hs.step ha hstep)
    (Lts.along_of_forall (fun a ha _ => hmost a ha) _) (.spawn hchunk tail)
  exact ⟨hslim.total_le, hslim.cap, hslim.pending⟩

/-- Twenty chunks of three bytes. -/
def twentyChunks : Upstream := .ok ⟨List.replicate 20 ⟨[84, 83, 86], by decide⟩, .eof⟩

/-- The task fills the channel before anybody reads and has the ninth chunk in its hands. A read
    of two bytes takes one chunk out, and the task goes on as far as the tenth. -/
def slowReader : List Action :=
  .connect :: (List.replicate 8 [.enterSelect, .next, .send]).flatten ++ [.enterSelect, .next,
    .call 0 0 2, .check 0, .serve 0, .recv 0, .send, .enterSelect, .next, .finish 0]

/-- Ten chunks have left the server and two bytes the mount: the rest of them is held. -/
theorem buffered_le_slowReader : ∃ tr s, sys.Exec (.spawn twentyChunks none) slowReader tr s ∧
    tr.length = 1 ∧ s.buffered = 28 ∧
    s.buffered ≤ 2 + 10 * 3 ∧ s.chan.length ≤ 8 ∧ s.inner.pending.length ≤ 2 + 3 := by
  have hrun : sys.Exec (.spawn twentyChunks none) slowReader _ _ := Lts.exec_of_isSome rfl
  refine ⟨_, _, hrun, rfl, rfl, buffered_le hrun ?_ ?_⟩
  · intro b hb
    rw [List.eq_of_mem_replicate hb]
    decide
  · simp [slowReader, Action.AsksAtMost]

end Stream
end ClickFs
