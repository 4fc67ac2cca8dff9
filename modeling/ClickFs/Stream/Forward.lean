import ClickFs.Stream.Fidelity

/-!
# What reads at the position return

The two contracts of a stream file that is read front to back, read off the cursor
that `OpenRun.reads` puts next to every open run: the bytes are the upstream's, in
order and once each, whatever else the threads do; and an empty read means the end —
except after a failure, where the error is stored in an `Option` that two places
`take`, and the read after the one that took it finds neither bytes nor error.
-/

set_option autoImplicit false

namespace ClickFs
namespace Stream

/-! ## What the cursor says of a list of events -/

def ReadReply.bytes : ReadReply → List UInt8
  | .ok out => out
  | _ => []

/-- The reads of a run that satisfy `p`, in the order they were served. Served, not called: the
    order in which threads enter `read_blocking` decides nothing. -/
def readsWhere (p : ReadEvent → Bool) : List Event → List ReadEvent
  | [] => []
  | .materialize _ _ :: tr => readsWhere p tr
  | .read ev :: tr => if p ev then ev :: readsWhere p tr else readsWhere p tr

theorem readsWhere_congr {p q : ReadEvent → Bool} {tr : List Event}
    (h : ∀ ev, .read ev ∈ tr → p ev = q ev) : readsWhere p tr = readsWhere q tr := by
  induction tr with
  | nil => rfl
  | cons e tr ih =>
    have ih := ih fun ev hev => h ev (List.mem_cons_of_mem _ hev)
    cases e with
    | materialize t tail => exact ih
    | read ev => rw [readsWhere, readsWhere, h ev List.mem_cons_self, ih]

/-- The bytes the reads satisfying `p` have returned. -/
def bytesWhere (p : ReadEvent → Bool) (tr : List Event) : List UInt8 :=
  (readsWhere p tr).flatMap fun ev => ev.reply.bytes

section Cursor

variable {c c' : Cursor} {tr : List Event}

theorem Cursor.next_content (c : Cursor) (ev : ReadEvent) : (c.next ev).content = c.content := by
  unfold Cursor.next
  split
  · exact c.read_content ev.size
  · rfl

theorem Cursor.next_ending (c : Cursor) (ev : ReadEvent) : (c.next ev).ending = c.ending := by
  unfold Cursor.next
  split
  · exact c.read_ending ev.size
  · rfl

theorem Cursor.read_ne_panicked (c : Cursor) (size : Nat) : (c.read size).1 ≠ .panicked := by
  obtain ⟨r, c', hr, hcase⟩ := c.read_case size
  rw [hr]
  cases hcase <;> simp

/-- A read returns the bytes it moves over, also when it meets the ending. -/
theorem Cursor.take_read (c : Cursor) (size : Nat) :
    c.content.take c.off ++ (c.read size).1.bytes = c.content.take (c.read size).2.off := by
  cases hr : (c.read size).1 with
  | ok out =>
    obtain ⟨rfl, hoff⟩ := Cursor.read_ok hr
    rw [hoff]
    exact take_append_pread size c.off_le
  | err e =>
    obtain ⟨-, -, hoff⟩ := Cursor.read_err hr
    rw [hoff]
    exact List.append_nil _
  | panicked => exact absurd hr (c.read_ne_panicked size)

theorem reads_content (h : Lts.Reads Cursor.Accepts c tr c') :
    c'.content = c.content ∧ c'.ending = c.ending := by
  induction h with
  | nil => exact ⟨rfl, rfl⟩
  | cons head tail ih =>
    cases head with
    | materialize t tail => exact ih
    | read hexp =>
      exact ⟨ih.1.trans (Cursor.next_content _ _), ih.2.trans (Cursor.next_ending _ _)⟩

/-- **What has been returned is what the cursor has passed.** -/
theorem reads_bytes (h : Lts.Reads Cursor.Accepts c tr c') :
    c.content.take c.off ++ bytesWhere ReadEvent.forward tr = c.content.take c'.off := by
  induction h with
  | nil c => exact List.append_nil _
  | @cons c c₁ c' e tr head tail ih =>
    cases head with
    | materialize t tail => exact ih
    | @read ev hexp =>
      rw [Cursor.next_content] at ih
      by_cases hf : ev.forward = true
      · rw [Cursor.next, if_pos hf, ← Cursor.take_read] at ih
        rw [bytesWhere, readsWhere, if_pos hf, List.flatMap_cons, hexp.reply hf, ← List.append_assoc]
        exact ih
      · rw [Cursor.next, if_neg hf] at ih
        rw [bytesWhere, readsWhere, if_neg hf]
        exact ih

/-- The replies are a function of the cursor and of the sizes asked for. Two runs over the same
    upstream in which the same sizes are asked for get the same replies. -/
theorem reads_replies (h : Lts.Reads Cursor.Accepts c tr c') :
    (readsWhere ReadEvent.forward tr).map ReadEvent.reply
      = c.replies ((readsWhere ReadEvent.forward tr).map ReadEvent.size) := by
  induction h with
  | nil => rfl
  | @cons c c₁ c' e tr head tail ih =>
    cases head with
    | materialize t tail => exact ih
    | @read ev hexp =>
      rw [readsWhere]
      by_cases hf : ev.forward = true
      · rw [Cursor.next, if_pos hf] at ih
        rw [if_pos hf, List.map_cons, List.map_cons, Cursor.replies, ih, hexp.reply hf]
      · rw [Cursor.next, if_neg hf] at ih
        rw [if_neg hf]
        exact ih

/-- The cursor a read of the run meets: the run is cut in front of it. -/
theorem reads_at {pre post : List Event} {ev : ReadEvent}
    (h : Lts.Reads Cursor.Accepts c (pre ++ .read ev :: post) c') :
    ∃ c₁, Lts.Reads Cursor.Accepts c pre c₁ ∧ c₁.Explains ev := by
  obtain ⟨c₁, hpre, hpost⟩ := h.split
  cases hpost with
  | cons head tail =>
    cases head with
    | read hexp => exact ⟨c₁, hpre, hexp⟩

end Cursor

theorem OpenRun.meets {up : Upstream} {tail : Option TailContext} {as : List Action}
    {pre post : List Event} {ev : ReadEvent} {s : Handle}
    (h : OpenRun up tail as (pre ++ .read ev :: post) s) :
    ∃ c : Cursor, c.content = up.bytes ∧ c.ending = up.ending ∧ c.Explains ev ∧
      bytesWhere ReadEvent.forward pre = up.bytes.take c.off := by
  obtain ⟨c', hreads, -⟩ := h.reads
  obtain ⟨c, hpre, hexp⟩ := reads_at hreads
  obtain ⟨hcontent, hending⟩ := reads_content hpre
  exact ⟨c, hcontent, hending, hexp, reads_bytes hpre⟩

/-! ## Fidelity -/

/-- The read is issued at the position, which is what a program that reads front to back does. -/
def ReadEvent.atPos (ev : ReadEvent) : Bool := ev.offset == ev.before.pos

/-- The bytes that reads at the position have returned. -/
def delivered (tr : List Event) : List UInt8 := bytesWhere ReadEvent.atPos tr

/-- The upstream is shorter than the pseudo-file less any buffer the server answers with, so no
    window reaches down to the position. The pseudo-file ends at `2 ^ 63 - 1`, so no response and
    no buffer of any real size come near it. -/
structure Below (up : Upstream) (as : List Action) : Prop where
  eof : up.bytes.length < pseudoEof.toNat
  window : ∀ t buf, .answer t (.ok buf) ∈ as → up.bytes.length + buf.len < pseudoEof.toNat

theorem toNat_ofNat_off {c : Cursor} {up : Upstream} {as : List Action} (hb : Below up as)
    (hc : c.content = up.bytes) : (UInt64.ofNat c.off).toNat = c.off := by
  have hlen := hb.eof
  rw [← hc, pseudoEof_toNat] at hlen
  exact UInt64.toNat_ofNat_of_lt' (Nat.lt_trans (Nat.lt_of_le_of_lt c.off_le hlen) (by decide))

/-- Below every window, the reads at the position are the ones the stream answers. -/
theorem OpenRun.atPos_eq_forward {up : Upstream} {tail : Option TailContext} {as : List Action}
    {tr : List Event} {s : Handle} (h : OpenRun up tail as tr s) (hb : Below up as)
    {ev : ReadEvent} (hev : .read ev ∈ tr) : ev.atPos = ev.forward := by
  obtain ⟨pre, post, rfl⟩ := List.append_of_mem hev
  obtain ⟨c, hcontent, -, hexp, -⟩ := h.meets
  unfold ReadEvent.atPos ReadEvent.forward
  by_cases hoff : ev.offset = ev.before.pos
  · suffices hout : ev.before.covers ev.offset = false by simp [hout]
    cases hbuf : ev.before.tailBuf with
    | none => rw [Inner.covers, hbuf, Option.any_none]
    | some buf =>
      obtain ⟨t, hans⟩ := buffers_answered h.exec hev hbuf
      have hlen := hb.window t buf hans
      have hle := c.off_le
      rw [Inner.covers_eq hbuf, decide_eq_false_iff_not, UInt64.le_iff_toNat_le,
        bufOrigin_toNat, hoff, hexp.before, toNat_ofNat_off hb hcontent]
      rw [hcontent] at hle
      omega
  · simp [hoff]

/-- **Stream fidelity.** In every open run, whatever the chunks, the schedule and the
    other reads: a read at the position returns the next bytes of the upstream, as many
    as it asked for if there are that many, and the position moves by those; or it fails
    with the upstream's error, after every byte before that error. The replies are those
    of a cursor over the bytes. -/
theorem stream_fidelity {up : Upstream} {tail : Option TailContext} {as : List Action}
    {tr : List Event} {s : Handle} (h : OpenRun up tail as tr s) (hb : Below up as) :
    (∀ pre ev post, tr = pre ++ .read ev :: post → ev.offset = ev.before.pos →
      delivered pre <+: up.bytes ∧ ev.before.pos.toNat = (delivered pre).length ∧
      ((∃ out, ev.reply = .ok out ∧ out = pread up.bytes (delivered pre).length ev.size ∧
          out.length = min ev.size (up.bytes.length - (delivered pre).length) ∧
          ev.after.pos.toNat = ev.before.pos.toNat + out.length) ∨
       (∃ e, ev.reply = .err (.query e) ∧ up.ending = .failed e ∧ delivered pre = up.bytes ∧
          ev.after.pos = ev.before.pos))) ∧
    (readsWhere ReadEvent.atPos tr).map ReadEvent.reply
      = (Cursor.start up.bytes up.ending).replies
          ((readsWhere ReadEvent.atPos tr).map ReadEvent.size) := by
  constructor
  · intro pre ev post htr hoff
    subst htr
    have hmem (ev' : ReadEvent) (hev' : .read ev' ∈ pre) : ev'.atPos = ev'.forward :=
      h.atPos_eq_forward hb (List.mem_append_left _ hev')
    have hfwd : ev.forward = true := by
      rw [← h.atPos_eq_forward hb (List.mem_append_right _ List.mem_cons_self)]
      exact beq_iff_eq.mpr hoff
    obtain ⟨c, hcontent, hending, hexp, hbytes⟩ := h.meets
    have hdel : delivered pre = up.bytes.take c.off := by
      rw [delivered, bytesWhere, readsWhere_congr hmem]
      exact hbytes
    have hle : c.off ≤ up.bytes.length := hcontent ▸ c.off_le
    have hlen : (delivered pre).length = c.off := by rw [hdel, List.length_take]; omega
    have hnext : c.next ev = (c.read ev.size).2 := by rw [Cursor.next, if_pos hfwd]
    have hafter : ev.after.pos.toNat = (c.read ev.size).2.off := by
      rw [hexp.after, hnext]
      exact toNat_ofNat_off hb ((c.read_content _).trans hcontent)
    have hbefore : ev.before.pos.toNat = c.off := by
      rw [hexp.before]
      exact toNat_ofNat_off hb hcontent
    refine ⟨hdel ▸ List.take_prefix _ _, hbefore.trans hlen.symm, ?_⟩
    rw [hexp.reply hfwd, hlen, hafter, hbefore]
    cases hr : (c.read ev.size).1 with
    | ok out =>
      obtain ⟨hout, hmove⟩ := Cursor.read_ok hr
      rw [hcontent] at hout
      exact .inl ⟨out, rfl, hout, by rw [hout, pread_length], hmove⟩
    | err e =>
      obtain ⟨⟨qe, rfl, hfail⟩, hend, hmove⟩ := Cursor.read_err hr
      refine .inr ⟨qe, rfl, hending ▸ hfail, ?_, ?_⟩
      · rw [hdel, hend, hcontent, List.take_length]
      · rw [hexp.after, hnext, hmove, hexp.before]
    | panicked => exact absurd hr (c.read_ne_panicked _)
  · obtain ⟨c, hreads, -⟩ := h.reads
    rw [readsWhere_congr fun ev hev => h.atPos_eq_forward hb hev]
    exact reads_replies hreads

/-- Two chunks with an empty one between them, then an error. -/
def brokenUp : Upstream :=
  .ok ⟨[⟨[1, 2, 3], by decide⟩, ⟨[], by decide⟩, ⟨[4, 5], by decide⟩], .failed (.stream "reset")⟩

def someTail : TailContext :=
  { db := "default", tbl := "t", orderExpr := "id", partition := none, rows := 10000 }

/-- One thread reads at the position in two sizes, past the end of what the task has
    sent and up to the error; another one asks out of order and gets a tail. -/
def mixedReads : List Action :=
  [.connect, .enterSelect, .next, .call 0 0 2, .check 0, .call 1 7 4, .check 1, .serve 0, .send,
    .recv 0, .finish 0, .serve 1, .call 1 0x7FFFFFFFFFFFFFFE 4, .check 1,
    .answer 1 (.ok ⟨[9, 9], by decide⟩), .install 1, .call 0 2 10, .check 0, .serve 0,
    .enterSelect, .next, .send, .recv 0, .enterSelect, .next, .send, .recv 0, .enterSelect, .next,
    .send, .recv 0, .finish 0, .serve 1, .call 0 5 1, .check 0, .serve 0]

theorem below_mixedReads : Below brokenUp mixedReads where
  eof := by decide
  window := by
    intro t buf h
    have hbuf : t = 1 ∧ buf = ⟨[9, 9], by decide⟩ := by simpa [mixedReads] using h
    rw [hbuf.2]
    decide

theorem stream_fidelity_mixed :
    (readsWhere ReadEvent.atPos (sys.trace (.spawn brokenUp (some someTail)) mixedReads)).map
        ReadEvent.reply
      = (Cursor.start brokenUp.bytes brokenUp.ending).replies [2, 10, 1] := by
  have hrun : OpenRun brokenUp (some someTail) mixedReads _ _ := ⟨Lts.exec_of_isSome rfl, rfl⟩
  exact (stream_fidelity hrun below_mixedReads).2

/-! ## No false end of file -/

/-- A read that asks for bytes at the position, outside the tail window: one that a program has
    reason to believe. -/
structure ReadEvent.Asks (ev : ReadEvent) : Prop where
  atPos : ev.offset = ev.before.pos
  out : ev.before.covers ev.offset = false
  size : 0 < ev.size

theorem ReadEvent.Asks.forward {ev : ReadEvent} (h : ev.Asks) : ev.forward = true := by
  simp [ReadEvent.forward, h.atPos, h.atPos ▸ h.out]

/-- An empty read means that the upstream ended well and that all of it was returned. This is what
    `read(2)` promises. -/
def TrueEof (up : Upstream) (tr : List Event) : Prop :=
  ∀ pre ev post, tr = pre ++ .read ev :: post → ev.Asks → ev.reply = .ok [] →
    up.ending = .eof ∧ bytesWhere ReadEvent.forward pre = up.bytes

/-- Once the bytes before the error are out, every read fails with that error. -/
def Absorbing (up : Upstream) (tr : List Event) : Prop :=
  ∀ pre ev post e, tr = pre ++ .read ev :: post → ev.Asks → up.ending = .failed e →
    bytesWhere ReadEvent.forward pre = up.bytes → ev.reply = .err (.query e)

/-- **When an empty read can be trusted.** Exactly when no read is issued after the error has been
    met and taken out of `last_err`. The condition is about the state a read finds, which the
    program that reads can bring about by stopping at the first error. -/
theorem no_false_eof_iff {up : Upstream} {tail : Option TailContext} {as : List Action}
    {tr : List Event} {s : Handle} (h : OpenRun up tail as tr s) :
    TrueEof up tr ∧ Absorbing up tr ↔
      ∀ e, up.ending = .failed e → ∀ ev, .read ev ∈ tr → ev.Asks →
        ¬ (ev.before.upstreamDone = true ∧ ev.before.lastErr = none) := by
  -- the cursor's own criterion, at the read's place in the run
  have hempty (pre : List Event) (ev : ReadEvent) (post : List Event)
      (htr : tr = pre ++ .read ev :: post) (hasks : ev.Asks) (e : QueryError)
      (hfail : up.ending = .failed e) :
      ev.reply = .ok [] ↔ ev.before.upstreamDone = true ∧ ev.before.lastErr = none := by
    subst htr
    obtain ⟨c, -, hending, hexp, -⟩ := h.meets
    rw [hexp.reply hasks.forward, hexp.drained, hexp.err]
    exact Cursor.read_empty_iff (hending.trans hfail) hasks.size
  constructor
  · rintro ⟨htrue, -⟩ e hfail ev hev hasks htaken
    obtain ⟨pre, post, htr⟩ := List.append_of_mem hev
    have := htrue pre ev post htr hasks ((hempty pre ev post htr hasks e hfail).mpr htaken)
    rw [hfail] at this
    cases this.1
  · intro hcond
    constructor
    · intro pre ev post htr hasks hreply
      cases hend : up.ending with
      | failed e =>
        exact absurd ((hempty pre ev post htr hasks e hend).mp hreply)
          (hcond e hend ev (htr ▸ List.mem_append_right _ List.mem_cons_self) hasks)
      | eof =>
        subst htr
        obtain ⟨c, hcontent, -, hexp, hbytes⟩ := h.meets
        rw [hexp.reply hasks.forward] at hreply
        have hnil := congrArg List.length (Cursor.read_ok hreply).1
        have hsize := hasks.size
        rw [pread_length, hcontent, List.length_nil] at hnil
        exact ⟨rfl, hbytes.trans (List.take_of_length_le (by omega))⟩
    · intro pre ev post e htr hasks hfail hall
      have hno : ev.reply ≠ .ok [] := fun hreply =>
        hcond e hfail ev (htr ▸ List.mem_append_right _ List.mem_cons_self) hasks
          ((hempty pre ev post htr hasks e hfail).mp hreply)
      subst htr
      obtain ⟨c, hcontent, hending, hexp, hbytes⟩ := h.meets
      rw [hexp.reply hasks.forward] at hno ⊢
      cases hr : (c.read ev.size).1 with
      | ok out =>
        have hout := (Cursor.read_ok hr).1
        have hlen : up.bytes.length ≤ c.off := by
          have := congrArg List.length (hall.symm.trans hbytes)
          rw [List.length_take] at this
          omega
        rw [pread_of_length_le (hcontent ▸ hlen)] at hout
        exact absurd (hout ▸ hr) hno
      | err err =>
        obtain ⟨⟨qe, rfl, hqe⟩, -, -⟩ := Cursor.read_err hr
        rw [hending, hfail] at hqe
        cases hqe
        rfl
      | panicked => exact absurd hr (c.read_ne_panicked _)

def refusedUp : Upstream := .error (.transport "connection refused")

def failOnce : List Action :=
  [.connect, .send, .call 0 0 10, .check 0, .serve 0, .recv 0, .finish 0]

theorem no_false_eof_iff_failOnce :
    TrueEof refusedUp (sys.trace (.spawn refusedUp none) failOnce) := by
  have hrun : OpenRun refusedUp none failOnce _ _ := ⟨Lts.exec_of_isSome rfl, rfl⟩
  refine ((no_false_eof_iff hrun).mpr fun e _ ev hev _ htaken => ?_).1
  obtain rfl := Event.read.inj (List.mem_singleton.mp hev)
  cases htaken.1

/-- Reading again after the failure: the second read says "end of file". The server refused the
    query, so this end of file stands at the very beginning of a table that has rows. -/
theorem refused_then_eof :
    ¬ ∀ up tail as tr s e, OpenRun up tail as tr s → up.ending = .failed e →
      ∀ ev, .read ev ∈ tr → ev.Asks → ev.reply ≠ .ok [] := by
  intro hall
  let again := failOnce ++ [.call 0 0 10, .check 0, .serve 0, .finish 0]
  have hrun : OpenRun refusedUp none again (sys.trace (.spawn refusedUp none) again)
      (sys.final (.spawn refusedUp none) again) := ⟨Lts.exec_of_isSome rfl, rfl⟩
  have hev : (sys.trace (.spawn refusedUp none) again)[1]? = some (.read
      ⟨0, 0, 10, { Inner.new with upstreamDone := true }, .ok [],
        { Inner.new with upstreamDone := true }⟩) := rfl
  exact hall _ _ _ _ _ _ hrun rfl _ (List.mem_of_getElem? hev) ⟨rfl, rfl, by decide⟩ rfl

end Stream
end ClickFs
