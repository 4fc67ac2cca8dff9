import ClickFs.Driver.Templates
import ClickFs.Fs.Isolation
import ClickFs.Stream.Document
import ClickFs.Stream.Progress

/-!
# What a program reads that seeks

A data file is a `Document`: in any run of the file system each reply to a read of the
descriptor is the document's, whatever the offsets, and whatever else goes on. What went
on while the read waited — the task, the channel, the lock, the way the response was cut
into chunks — is not in it, and neither are the other files.

One call of `read_blocking` is followed through its three critical sections (`Inside`).
What the second of them leaves behind is what `Document.seek` does, and what the third
one replies is what `Document.serve` does.
-/

set_option autoImplicit false

namespace ClickFs

open Rust Driver

namespace Stream

/-! ## Between requests -/

/-- Nobody is inside `read_blocking`. So it is between any two requests, for a request waits for
    its read. -/
def Handle.Quiet (s : Handle) : Prop := ∀ t, s.readers t = .idle

variable {s s₁ s' : Handle} {a : Action} {evs : List Event}

/-- What goes on without a call emits nothing while nobody is inside. -/
theorem Handle.Quiet.run {s' : Handle} {sched : List Action} {tr : List Event} (h : s.Quiet)
    (hsched : ∀ a ∈ sched, Fs.isInner a = true) (hrun : sys.Exec s sched tr s') :
    s'.Quiet ∧ tr = [] ∧ s'.inner = s.inner := by
  induction hrun with
  | nil => exact ⟨h, rfl, rfl⟩
  | @cons s s₁ s₂ a sched evs tr head tail ih =>
    have ha := hsched a List.mem_cons_self
    have hsched := fun b hb => hsched b (List.mem_cons_of_mem _ hb)
    rcases step_cases head with ⟨_, _, _, rfl, rfl⟩ | hr | ⟨_, _, hl, _, _⟩
    · exact ih h hsched
    · cases hr with
      | call => cases ha
      | checkMat hr | checkSkip hr | answer hr | install hr | serveReply hr | servePull hr
        | recvMsg hr | recvEnd hr | finish hr =>
        rw [h] at hr
        cases hr
    · cases hl <;> cases ha

theorem life_of_inner {s' : Handle} {sched : List Action} {tr : List Event}
    (hsched : ∀ a ∈ sched, Fs.isInner a = true) (hrun : sys.Exec s sched tr s') :
    s'.life = s.life := by
  have halong := Lts.along_of_forall (M := sys) (C := fun _ a => Fs.isInner a = true)
    (fun a ha _ => hsched a ha) s
  refine hrun.invariantAlong (I := fun x => x.life = s.life) ?_ halong rfl
  intro x a x₁ evs hx ha hstep
  rcases step_cases hstep with ⟨_, _, _, rfl, _⟩ | hr | ⟨_, _, hl, _, _⟩
  · exact hx
  · exact hr.frame.2.trans hx
  · cases hl <;> cases ha

/-! ## One call -/

/-- How far a read of the document is, and what it has done to the tail. The tail query's answer
    is one of `A`. -/
def Reader.For (A : Except QueryError Bytes → Prop) (D : Document) (ask : Document.Ask)
    (kept : Bool × Option Bytes) : Reader → Prop
  | .idle => False
  | .checking o n => (o, n) = ask ∧ kept = D.kept
  | .materializing o n => (o, n) = ask ∧ kept = D.kept ∧ D.wants o = true
  | .installing o n mat => (o, n) = ask ∧ kept = D.kept ∧ D.wants o = true ∧ A mat
  | .serving o n => (o, n) = ask ∧ ∃ D₁, D.Seeks A o D₁ ∧ kept = D₁.kept
  | .pulling n before =>
    (before.pos, n) = ask ∧ ∃ D₁, D.Seeks A before.pos D₁ ∧ before.tail = D₁.kept ∧
      kept = D₁.kept

/-- Thread 0 is in the read, by itself: `fuser` hands the requests over one at a time. -/
structure Inside (up : Upstream) (A : Except QueryError Bytes → Prop) (D : Document)
    (ask : Document.Ask) (s : Handle) : Prop where
  others : ∀ t, t ≠ 0 → s.readers t = .idle
  opened : s.life = .opened
  seekable : s.tail.isSome = D.seekable
  cursor : Matches up s D.cursor
  here : (s.readers 0).For A D ask s.inner.tail

/-- The handle, while no request is about it. The task may be anywhere. -/
structure Resting (up : Upstream) (s : Handle) (D : Document) : Prop where
  quiet : s.Quiet
  opened : s.life = .opened
  shown : D.Shown up s

variable {up : Upstream} {A : Except QueryError Bytes → Prop} {D : Document}
  {ask : Document.Ask}

theorem Resting.spawn (up : Upstream) (tail : Option TailContext) :
    Resting up (.spawn up tail) (.unread up tail.isSome) := ⟨fun _ => rfl, rfl, .spawn up tail⟩

theorem Document.Seeks.cursor {offset : UInt64} {D₁ : Document} (h : D.Seeks A offset D₁) :
    D₁.cursor = D.cursor := by
  cases h <;> rfl

theorem Document.Seeks.seekable {offset : UInt64} {D₁ : Document} (h : D.Seeks A offset D₁) :
    D₁.seekable = D.seekable := by
  cases h <;> rfl

theorem Inside.thread (h : Inside up A D ask s) {t : Tid}
    (hbusy : s.readers t ≠ .idle) : t = 0 := by
  by_contra ht
  exact hbusy (h.others t ht)

/-- The thread moves on to its next critical section, and the cursor is where it was. -/
theorem Inside.moves (h : Inside up A D ask s) {r : Reader}
    (hm : Matches up s₁ D.cursor) (hopen : s₁.life = .opened) (htail : s₁.tail = s.tail)
    (hreaders : s₁.readers = (s.setReader 0 r).readers)
    (hr : r.For A D ask s₁.inner.tail) : Inside up A D ask s₁ := by
  refine ⟨fun t ht => ?_, hopen, htail ▸ h.seekable, hm, ?_⟩
  · rw [hreaders, Handle.setReader_of_ne s ht]
    exact h.others t ht
  · rw [hreaders, Handle.setReader_self]
    exact hr

/-- The read returns: its reply is the document's, and so is what it leaves behind. -/
theorem Inside.returns (h : Inside up A D ask s) {ev : ReadEvent} {c : Cursor} {D₁ : Document}
    (hacc : D.cursor.Accepts (.read ev) c) (hm : Matches up (s.returns 0 ev.after) c)
    (hask : (ev.offset, ev.size) = ask) (hseeks : D.Seeks A ev.offset D₁)
    (hbefore : ev.before.tail = D₁.kept) (hafter : ev.after.tail = D₁.kept)
    (hother : ev.forward = false →
      front ev.before ev.offset ev.size = .reply ev.reply ev.after) :
    ∃ D', D.Gives A (ask, ev.reply) D' ∧ Resting up (s.returns 0 ev.after) D' := by
  subst hask
  cases hacc with
  | read hexp =>
    have hserve := Document.serve_of_explains (hseeks.cursor ▸ hexp) hbefore hother
    refine ⟨_, ⟨D₁, hseeks, hserve⟩, fun t => ?_, h.opened, ?_, ?_, hafter⟩
    · by_cases ht : t = 0
      · subst ht
        show (s.setReader 0 .idle).readers 0 = .idle
        exact Handle.setReader_self ..
      · exact (Handle.setReader_of_ne s ht _).trans (h.others t ht)
    · rw [hseeks.cursor]
      exact hm
    · exact h.seekable.trans hseeks.seekable.symm

/-- One step of the call, or its last. What the task does meanwhile is among the steps, and
    changes nothing of the document. -/
theorem Inside.step (h : Inside up A D ask s) (ha : Fs.isInner a = true)
    (hA : ∀ t mat, a = .answer t mat → A mat) (hstep : sys.step s a = some (s₁, evs)) :
    (Inside up A D ask s₁ ∧ ∀ ev, .read ev ∉ evs) ∨
      ∃ ev D', evs = [.read ev] ∧ D.Gives A (ask, ev.reply) D' ∧ Resting up s₁ D' := by
  have hinner : ∀ b ∈ [a], Fs.isInner b = true := by simpa using ha
  have hopen : s₁.life = .opened := (life_of_inner hinner (.one hstep)).trans h.opened
  obtain ⟨c, hreads, hm⟩ := h.cursor.step hopen hstep
  have hstay (hnone : evs = []) : Matches up s₁ D.cursor := by
    subst hnone
    cases hreads
    exact hm
  have hhere := h.here
  rcases step_cases hstep with ⟨_, _, _, rfl, rfl⟩ | hr | ⟨_, _, hl, _, _⟩
  · exact .inl ⟨⟨h.others, hopen, h.seekable, hstay rfl, h.here⟩, by simp⟩
  · cases hr with
    | call => cases ha
    | @checkMat t o n tail hr hlock hneed htail =>
      obtain rfl := h.thread (t := t) (by rw [hr]; exact Reader.noConfusion)
      rw [hr] at hhere
      obtain ⟨hask, hkept⟩ := hhere
      have hm : Matches up (s.setReader 0 (.materializing o n)) D.cursor := by
        cases hreads with
        | cons head rest =>
          cases head
          cases rest
          exact hm
      rw [Document.needMaterialize_eq h.seekable hkept h.cursor.pos] at hneed
      exact .inl ⟨h.moves (r := .materializing o n) hm hopen rfl rfl ⟨hask, hkept, hneed⟩,
        by simp⟩
    | @checkSkip t o n hr hlock hneed =>
      obtain rfl := h.thread (t := t) (by rw [hr]; exact Reader.noConfusion)
      rw [hr] at hhere
      obtain ⟨hask, hkept⟩ := hhere
      rw [Document.needMaterialize_eq h.seekable hkept h.cursor.pos] at hneed
      exact .inl ⟨h.moves (r := .serving o n) (hstay rfl) hopen rfl rfl
        ⟨hask, D, .stays hneed, hkept⟩, by simp⟩
    | @answer t o n mat hr =>
      obtain rfl := h.thread (t := t) (by rw [hr]; exact Reader.noConfusion)
      rw [hr] at hhere
      obtain ⟨hask, hkept, hwants⟩ := hhere
      exact .inl ⟨h.moves (r := .installing o n mat) (hstay rfl) hopen rfl rfl
        ⟨hask, hkept, hwants, hA _ _ rfl⟩, by simp⟩
    | @install t o n mat hr hlock =>
      obtain rfl := h.thread (t := t) (by rw [hr]; exact Reader.noConfusion)
      rw [hr] at hhere
      obtain ⟨hask, hkept, hwants, hmat⟩ := hhere
      have hnone : D.tail = none := by
        rw [Document.wants, Bool.and_eq_true, Bool.and_eq_true] at hwants
        exact Option.isNone_iff_eq_none.mp hwants.1.2
      exact .inl ⟨h.moves (r := .serving o n) (hstay rfl) hopen rfl rfl
        ⟨hask, _, .fetches hwants hmat, Document.installTail_tail hkept hnone mat⟩, by simp⟩
    | @serveReply t o n r g hr hlock hfront =>
      obtain rfl := h.thread (t := t) (by rw [hr]; exact Reader.noConfusion)
      rw [hr] at hhere
      obtain ⟨hask, D₁, hseeks, hkept⟩ := hhere
      have hcase := front_cases s.inner o n
      rw [hfront] at hcase
      cases hreads with
      | cons head rest =>
        cases rest
        obtain ⟨D', hgives, hrest⟩ := h.returns head hm hask hseeks hkept
          (hcase.tail.trans hkept) fun _ => hfront
        exact .inr ⟨_, D', rfl, hgives, hrest⟩
    | @servePull t o n hr hlock hfront =>
      obtain rfl := h.thread (t := t) (by rw [hr]; exact Reader.noConfusion)
      rw [hr] at hhere
      obtain ⟨hask, D₁, hseeks, hkept⟩ := hhere
      have hcase := front_cases s.inner o n
      rw [hfront] at hcase
      obtain rfl : o = s.inner.pos := by
        cases hcase
        assumption
      exact .inl ⟨h.moves (r := .pulling n s.inner) (hstay rfl) hopen rfl rfl
        ⟨hask, D₁, hseeks, hkept, hkept⟩, by simp⟩
    | @recvMsg t n before m rest hr hmore hchan =>
      obtain rfl := h.thread (t := t) (by rw [hr]; exact Reader.noConfusion)
      rw [hr] at hhere
      obtain ⟨hask, D₁, hseeks, hbefore, hkept⟩ := hhere
      refine .inl ⟨⟨h.others, hopen, h.seekable, hstay rfl, ?_⟩, by simp⟩
      show (s.readers 0).For A D ask _
      rw [hr]
      exact ⟨hask, D₁, hseeks, hbefore, (Inner.onRecv_tail _ _).trans hkept⟩
    | @recvEnd t n before hr hmore hchan hdone =>
      obtain rfl := h.thread (t := t) (by rw [hr]; exact Reader.noConfusion)
      rw [hr] at hhere
      obtain ⟨hask, D₁, hseeks, hbefore, hkept⟩ := hhere
      refine .inl ⟨⟨h.others, hopen, h.seekable, hstay rfl, ?_⟩, by simp⟩
      show (s.readers 0).For A D ask _
      rw [hr]
      exact ⟨hask, D₁, hseeks, hbefore, (Inner.onRecv_tail _ _).trans hkept⟩
    | @finish t n before hr hmore =>
      obtain rfl := h.thread (t := t) (by rw [hr]; exact Reader.noConfusion)
      rw [hr] at hhere
      obtain ⟨hask, D₁, hseeks, hbefore, hkept⟩ := hhere
      obtain ⟨-, hent, -⟩ := h.cursor.pulling hr
      cases hreads with
      | cons head rest =>
        cases rest
        obtain ⟨D', hgives, hrest⟩ := h.returns head hm hask hseeks hbefore
          ((finish_tail _ _).trans hkept) fun hno => by
            rw [forward_of_entered hent] at hno
            cases hno
        exact .inr ⟨_, D', rfl, hgives, hrest⟩
  · cases hl <;> cases ha

/-- What goes on between the reads is not in the document: the task may move, and the document is
    the same. -/
theorem Resting.goesOn {sched : List Action} {tr : List Event} (h : Resting up s D)
    (hsched : ∀ a ∈ sched, Fs.isInner a = true) (hrun : sys.Exec s sched tr s') :
    Resting up s' D ∧ tr = [] := by
  obtain ⟨hquiet, rfl, hinner⟩ := h.quiet.run hsched hrun
  have hopen := (life_of_inner hsched hrun).trans h.opened
  obtain ⟨c, hreads, hmatches⟩ := Lts.Exec.simulates (Q := fun s => s.life = .opened)
    (R := Matches up) (fun _ _ _ _ => opened_of_step)
    (fun _ _ _ _ _ hopen hm hstep => hm.step hopen hstep) hrun hopen h.shown.cursor
  cases hreads
  exact ⟨⟨hquiet, hopen, hmatches, (exec_tail_context hrun).1 ▸ h.shown.seekable,
    hinner ▸ h.shown.tail⟩, rfl⟩

/-- A call, as far as its events tell: no reply yet, or the document's. -/
inductive Call (up : Upstream) (A : Except QueryError Bytes → Prop) (D : Document)
    (ask : Document.Ask) (s : Handle) (log : List Event) : Prop
  | inside (h : Inside up A D ask s) (hnone : ∀ ev, .read ev ∉ log)
  | replied {r : ReadReply} {D' : Document} (hgives : D.Gives A (ask, r) D')
      (h : Resting up s D') (hall : ∀ ev, .read ev ∈ log → ev.reply = r)

theorem Call.step {log : List Event} (h : Call up A D ask s log) (ha : Fs.isInner a = true)
    (hA : ∀ t mat, a = .answer t mat → A mat) (hstep : sys.step s a = some (s₁, evs)) :
    Call up A D ask s₁ (log ++ evs) := by
  cases h with
  | inside h hnone =>
    rcases h.step ha hA hstep with ⟨h₁, hevs⟩ | ⟨ev, D', rfl, hgives, hrest⟩
    · refine .inside h₁ fun ev hev => ?_
      rcases List.mem_append.mp hev with hev | hev
      · exact hnone ev hev
      · exact hevs ev hev
    · refine .replied hgives hrest fun ev' hev' => ?_
      rcases List.mem_append.mp hev' with hev' | hev'
      · exact absurd hev' (hnone ev')
      · cases List.mem_singleton.mp hev'
        rfl
  | replied hgives h hall =>
    have hinner : ∀ b ∈ [a], Fs.isInner b = true := by simpa using ha
    obtain ⟨h₁, rfl⟩ := h.goesOn hinner (.one hstep)
    rw [List.append_nil]
    exact .replied hgives h₁ hall

/-- A call enters `read_blocking`, with the document as it was. -/
theorem Resting.called (h : Resting up s D)
    (hstep : sys.step s (.call 0 ask.1 ask.2) = some (s₁, evs)) :
    Inside up A D ask s₁ ∧ evs = [] := by
  have hstep : Stream.step s (.call 0 ask.1 ask.2) = some (s₁, evs) := hstep
  rcases step_cases hstep with ⟨_, _, ht, _⟩ | hr | ⟨_, _, hl, _⟩
  · cases ht
  · cases hr with
    | call hr hopen =>
      obtain ⟨c, hreads, hm⟩ := h.shown.cursor.step (by exact hopen) hstep
      cases hreads
      refine ⟨⟨fun t ht => ?_, hopen, h.shown.seekable, hm, ?_⟩, rfl⟩
      · exact (Handle.setReader_of_ne s ht _).trans (h.quiet t)
      · show ((s.setReader 0 (.checking ask.1 ask.2)).readers 0).For A D ask s.inner.tail
        rw [Handle.setReader_self]
        exact ⟨rfl, h.shown.tail⟩
  · cases hl

/-- **One call of `read_blocking` is one read of the document**, under every schedule that ends
    it. -/
theorem Resting.read {sched : List Action} {r : ReadReply} (h : Resting up s D)
    (ask : Document.Ask) (hA : ∀ t mat, .answer t mat ∈ sched → A mat)
    (hread : Fs.readBlocking s ask.1 ask.2 sched = some (r, s')) :
    ∃ D', D.Gives A (ask, r) D' ∧ Resting up s' D' := by
  unfold Fs.readBlocking at hread
  split at hread
  case isFalse => cases hread
  rename_i hsched
  rw [List.all_eq_true] at hsched
  split at hread
  case h_1 => cases hread
  rename_i s₂ tr hrun
  have hexec : sys.Exec s (.call 0 ask.1 ask.2 :: sched) tr s₂ := Lts.exec_of_run hrun
  split at hread
  case h_2 => cases hread
  rename_i last hlast
  cases hread
  have hmem : Event.read last ∈ tr := List.mem_of_getLast? hlast
  cases hexec with
  | @cons _ s₁ _ _ _ evs tr head tail =>
    obtain ⟨hinside, rfl⟩ := h.called (A := A) head
    have halong := Lts.along_of_forall (M := sys)
      (C := fun _ a => Fs.isInner a = true ∧ ∀ t mat, a = .answer t mat → A mat)
      (fun a ha _ => ⟨hsched a ha, fun t mat heq => hA t mat (heq ▸ ha)⟩) s₁
    have hstart : Call up A D ask s₁ [] := .inside hinside fun ev hev => by cases hev
    have hcall := tail.logAlong (fun _ _ _ _ _ h ha hstep => h.step ha.1 ha.2 hstep) halong hstart
    rw [List.nil_append] at hcall hmem
    cases hcall with
    | inside _ hnone => exact absurd hmem (hnone last)
    | replied hgives hrest hall =>
      rw [hall last hmem]
      exact ⟨_, hgives, hrest⟩

end Stream
namespace Fs

/-! ## The reads of a descriptor -/

/-- A read as the program that makes it sees it: what it asked for, and what it got. -/
structure FileRead where
  offset : Int64
  size : UInt32
  reply : Reply

/-- The event as a read of the handle, if it is one. -/
def Event.readOn (fh : UInt64) (ev : Event) : Option FileRead :=
  match ev.op with
  | .read f offset size _ => if f = fh then some ⟨offset, size, ev.reply⟩ else none
  | _ => none

/-- What `read_blocking` is asked for. `read` clips a negative offset to 0. -/
def FileRead.ask (r : FileRead) : Stream.Document.Ask := ((max r.offset 0).toUInt64, r.size.toNat)

/-- While this read of the handle waited, the tail query was answered. -/
def Event.AnswersTail (fh : UInt64) (mat : Except QueryError Stream.Bytes) (ev : Event) : Prop :=
  ∃ offset size sched t, ev.op = .read fh offset size sched ∧ .answer t mat ∈ sched

/-- The read is one of the document, with an answer of `A` to the tail query if it asks for it. -/
def Gives (A : Except QueryError Stream.Bytes → Prop) (D : Stream.Document) (r : FileRead)
    (D' : Stream.Document) : Prop :=
  ∃ reply, r.reply = streamReply reply ∧ D.Gives A (r.ask, reply) D'

variable {d : Deps} {fs fs₁ fs' : Fs} {fh : UInt64} {up : Stream.Upstream} {s : Stream.Handle}
  {A : Except QueryError Stream.Bytes → Prop} {D D' : Stream.Document}

/-- The handle is in the table, and the document it shows. -/
def FileIs (fs : Fs) (fh : UInt64) (up : Stream.Upstream) (D : Stream.Document) : Prop :=
  ∃ s, fs.handles fh = some (.stream s) ∧ Stream.Resting up s D

/-- One step of the file system, with the file open before and after it, is one read of the
    document or none. -/
theorem readOn_step {a : Action} {evs : List Event} (hstep : (sys d).step fs a = some (fs₁, evs))
    (hopens : ∀ ev ∈ evs, ¬ ev.Opens fh) (hkept : ∀ ev ∈ evs, ev.op ≠ .release fh)
    (hA : ∀ ev ∈ evs, ∀ mat, ev.AnswersTail fh mat → A mat) (h : FileIs fs fh up D) :
    ∃ D', Lts.Reads (Gives A) D (evs.filterMap (Event.readOn fh)) D' ∧ FileIs fs₁ fh up D' := by
  obtain ⟨s, hfh, h⟩ := h
  -- what does not touch the file
  have hother (hno : evs.filterMap (Event.readOn fh) = [])
      (hsame : fs₁.handles fh = fs.handles fh) :
      ∃ D', Lts.Reads (Gives A) D (evs.filterMap (Event.readOn fh)) D' ∧ FileIs fs₁ fh up D' := by
    rw [hno]
    exact ⟨D, .nil D, s, hsame.trans hfh, h⟩
  cases a with
  | background f sched =>
    obtain ⟨hbackground, rfl⟩ := step_background hstep
    rw [background_eq, Option.map_eq_some_iff] at hbackground
    obtain ⟨handle, hhandle, rfl⟩ := hbackground
    by_cases hf : f = fh
    · subst hf
      rw [hfh, Option.bind_some, fileBackground] at hhandle
      split at hhandle
      case isFalse => cases hhandle
      rename_i hsched
      rw [List.all_eq_true] at hsched
      obtain ⟨⟨s', tr⟩, hrun, rfl⟩ := Option.map_eq_some_iff.mp hhandle
      exact ⟨D, .nil D, s', Function.update_self .., (h.goesOn hsched (Lts.exec_of_run hrun)).1⟩
    · exact hother rfl (Function.update_of_ne (Ne.symm hf) _ _)
  | request env op =>
    obtain ⟨reply, hserve, rfl⟩ := step_request hstep
    have hopens := hopens _ List.mem_cons_self
    have hkept := hkept _ List.mem_cons_self
    cases serve_files hserve with
    | other hopen hon hhandles _ =>
      refine hother ?_ (by rw [hhandles])
      cases op with
      | read f => exact absurd (hon f) (by simp [Op.isOn])
      | lookup | getattr | readdir | «open» | release => rfl
    | refused => exact hother rfl rfl
    | opened =>
      have hne : fh ≠ fs.fhCounter := by
        rintro rfl
        exact hopens ⟨rfl, _, rfl⟩
      exact hother rfl (Function.update_of_ne hne _ _)
    | @release f =>
      have hne : fh ≠ f := by
        rintro rfl
        exact hkept rfl
      exact hother rfl (Function.update_of_ne hne _ _)
    | @unknown f offset size sched hnone =>
      have hne : f ≠ fh := by
        rintro rfl
        rw [hnone] at hfh
        cases hfh
      exact hother (by simp [Event.readOn, hne]) rfl
    | @read f offset size sched handle handle' reply hf hread =>
      by_cases hne : f = fh
      · subst hne
        rw [hfh] at hf
        cases hf
        obtain ⟨⟨r, s'⟩, hrun, heq⟩ := Option.map_eq_some_iff.mp hread
        cases heq
        have hA : ∀ t mat, .answer t mat ∈ sched → A mat := fun t mat hmem =>
          hA _ List.mem_cons_self mat ⟨offset, size, sched, t, rfl, hmem⟩
        obtain ⟨D', hgives, hrest⟩ := h.read ((max offset 0).toUInt64, size.toNat) hA hrun
        simp only [Event.readOn, if_true, List.filterMap_cons, List.filterMap_nil]
        exact ⟨D', .one ⟨r, rfl, hgives⟩, s', Function.update_self .., hrest⟩
      · exact hother (by simp [Event.readOn, hne]) (Function.update_of_ne (Ne.symm hne) _ _)

theorem readOn_run {acts : List Action} {tr : List Event} (hrun : (sys d).Exec fs acts tr fs')
    (hopens : ∀ ev ∈ tr, ¬ ev.Opens fh) (hkept : ∀ ev ∈ tr, ev.op ≠ .release fh)
    (hA : ∀ ev ∈ tr, ∀ mat, ev.AnswersTail fh mat → A mat) (h : FileIs fs fh up D) :
    ∃ D', Lts.Reads (Gives A) D (tr.filterMap (Event.readOn fh)) D' := by
  induction hrun generalizing D with
  | nil => exact ⟨D, .nil D⟩
  | @cons fs fs₁ fs₂ a acts evs tr head tail ih =>
    obtain ⟨D₁, hreads, h₁⟩ := readOn_step head
      (fun ev hev => hopens ev (List.mem_append_left _ hev))
      (fun ev hev => hkept ev (List.mem_append_left _ hev))
      (fun ev hev => hA ev (List.mem_append_left _ hev)) h
    obtain ⟨D', hrest⟩ := ih (fun ev hev => hopens ev (List.mem_append_right _ hev))
      (fun ev hev => hkept ev (List.mem_append_right _ hev))
      (fun ev hev => hA ev (List.mem_append_right _ hev)) h₁
    rw [List.filterMap_append]
    exact ⟨D', hreads.append hrest⟩

/-! ## A file is a document -/

theorem openHandle_of_dataQuery {env : Env} {plan : QueryPlan} {sql : String}
    (hsql : dataQuery plan = some sql) :
    ∃ tail, fs.openHandle d env plan = .ok (.stream (.spawn (env.stream sql) tail)) ∧
      tail.isSome = fs.tailCfg.enabled := by
  unfold dataQuery at hsql
  split at hsql
  case h_3 => cases hsql
  all_goals
    cases hsql
    refine ⟨_, rfl, ?_⟩
    split <;> simp_all

/-- After an `open` of a data file, its reads are those of the document the file is. The document
    is fixed by the response of the server when the file was opened. -/
theorem document_of_open {acts : List Action} {tr tr₁ tr₂ : List Event} {ev : Event}
    {ino : UInt64} {flags : Int32} {path : PathBuf} {plan : QueryPlan} {sql : String}
    (hrun : (sys d).Exec fs acts tr fs')
    (hroom : fs.fhCounter.toNat + acts.countP Action.isOpen < 2 ^ 64)
    (htr : tr = tr₁ ++ ev :: tr₂) (hop : ev.op = .open ino flags) (hopens : ev.Opens fh)
    (hpath : ev.before.inodes.forward ino = some path) (hplan : resolve path = .ok plan)
    (hsql : dataQuery plan = some sql) (hkept : ∀ ev' ∈ tr₂, ev'.op ≠ .release fh) :
    ∃ D', Lts.Reads (Gives fun mat => ∃ ev' ∈ tr₂, ev'.AnswersTail fh mat)
      (.unread (ev.env.stream sql) ev.before.tailCfg.enabled)
      (tr₂.filterMap (Event.readOn fh)) D' := by
  have hagain := not_opens_after hrun hroom htr hopens
  obtain ⟨acts₁, acts₂, -, -, hserve, hafter⟩ := exec_cut hrun htr
  obtain ⟨plan', handle, hcreates⟩ := creates_of_opens hserve hopens
  -- what was put into the table is the stream of that statement
  obtain ⟨ino', flags', path', hop', -, hpath', hplan'⟩ := hcreates.file
  rw [hop] at hop'
  cases hop'
  rw [hpath] at hpath'
  cases hpath'
  rw [hplan] at hplan'
  cases hplan'
  obtain ⟨tail, hspawn, htail⟩ : ∃ tail, ev.before.openHandle d ev.env plan
      = .ok (.stream (.spawn (ev.env.stream sql) tail)) ∧
        tail.isSome = ev.before.tailCfg.enabled := openHandle_of_dataQuery hsql
  have hmade := hcreates.made
  rw [hspawn] at hmade
  cases hmade
  rw [← htail]
  exact readOn_run hafter hagain hkept (fun ev' hev' mat hmat => ⟨ev', hev', hmat⟩)
    ⟨_, hcreates.handles, .spawn (ev.env.stream sql) tail⟩

theorem data_of_streamReply {r : Stream.ReadReply} {out : List UInt8}
    (h : streamReply r = .data out) : r = .ok out := by
  cases r with
  | ok buf =>
    cases h
    rfl
  | err | panicked => cases h

/-- The reads of a descriptor are reads of its document, whose replies are the ones it gives. -/
theorem exists_replies {rs : List FileRead} (h : Lts.Reads (Gives A) D rs D') :
    ∃ xs, Lts.Reads (Stream.Document.Gives A) D xs D' ∧
      xs.map Prod.fst = rs.map FileRead.ask ∧
      xs.map (fun x => streamReply x.2) = rs.map FileRead.reply := by
  induction h with
  | nil D => exact ⟨[], .nil D, rfl, rfl⟩
  | @cons D D₁ D' r rs head tail ih =>
    obtain ⟨reply, hreply, hgives⟩ := head
    obtain ⟨xs, hreads, hasks, hreplies⟩ := ih
    refine ⟨(r.ask, reply) :: xs, .cons hgives hreads, ?_, ?_⟩
    · rw [List.map_cons, List.map_cons, hasks]
    · rw [List.map_cons, List.map_cons, hreplies, hreply]

/-- What one sees of a data file by reading it anywhere, `mat` being what the server
    answers to the tail query. -/
structure ReadsLike (up : Stream.Upstream) (seekable : Bool)
    (mat : Except QueryError Stream.Bytes) (rs : List FileRead) : Prop where
  /-- The replies are a function of the two responses and of what was asked for. -/
  replies : rs.map FileRead.reply
    = ((Stream.Document.unread up seekable).replies mat (rs.map FileRead.ask)).map streamReply
  /-- Bytes that are returned stand where they were asked for. -/
  stands : ∀ r ∈ rs, ∀ out, r.reply = .data out →
    Stream.Document.Stands up seekable mat r.ask.1 r.ask.2 out

theorem ReadsLike.of_replies {seekable : Bool} {mat : Except QueryError Stream.Bytes}
    {rs : List FileRead}
    (h : rs.map FileRead.reply = ((Stream.Document.unread up seekable).replies mat
      (rs.map FileRead.ask)).map streamReply) : ReadsLike up seekable mat rs := by
  refine ⟨h, fun r hr out hout => ?_⟩
  obtain ⟨pre, post, rfl⟩ := List.append_of_mem hr
  rw [List.map_append, List.map_append, Stream.Document.replies_append, List.map_append] at h
  obtain ⟨-, hrest⟩ := List.append_inj h (by simp)
  rw [List.map_cons, List.map_cons, Stream.Document.replies, List.map_cons, List.cons.injEq,
    hout] at hrest
  exact Stream.Document.Of.stands .unread (data_of_streamReply hrest.1.symm)

/-- **A data file is a document.** In any run of the file system, whatever else is read, opened
    and listed in between and however the task and the reads interleave: what the reads of a
    descriptor of a data file reply, at whatever offsets, is a function of the server's response
    to the file's statement and of one answer to its tail query; and bytes that are returned stand
        where they were asked for. The run has fewer opens than there are handles; with more, the
    counter would come round to a number that is still in use. -/
theorem data_file_seeks {acts : List Action} {tr tr₁ tr₂ : List Event} {ev : Event}
    {ino : UInt64} {flags : Int32} {path : PathBuf} {plan : QueryPlan} {sql : String}
    (hrun : (sys d).Exec fs acts tr fs')
    (hroom : fs.fhCounter.toNat + acts.countP Action.isOpen < 2 ^ 64)
    (htr : tr = tr₁ ++ ev :: tr₂) (hop : ev.op = .open ino flags) (hopens : ev.Opens fh)
    (hpath : ev.before.inodes.forward ino = some path) (hplan : resolve path = .ok plan)
    (hsql : dataQuery plan = some sql) (hkept : ∀ ev' ∈ tr₂, ev'.op ≠ .release fh) :
    ∃ mat, ReadsLike (ev.env.stream sql) ev.before.tailCfg.enabled mat
        (tr₂.filterMap (Event.readOn fh)) ∧
      ∀ m, ((Stream.Document.unread (ev.env.stream sql) ev.before.tailCfg.enabled).after mat
        ((tr₂.filterMap (Event.readOn fh)).map FileRead.ask)).tail = some m →
        ∃ ev' ∈ tr₂, ev'.AnswersTail fh m := by
  obtain ⟨D', hreads⟩ := document_of_open hrun hroom htr hop hopens hpath hplan hsql hkept
  obtain ⟨xs, hxs, hasks, hreplies⟩ := exists_replies hreads
  obtain ⟨mat, hmat, rfl, hanswered⟩ := Stream.Document.replies_of_gives hxs
  rw [hasks] at hmat hanswered
  refine ⟨mat, .of_replies ?_, hanswered rfl⟩
  rw [← hreplies, ← hmat, List.map_map]
  rfl

namespace Sample

/-- Inode 7 is all the rows of a table. -/
def stored : Fs :=
  { mount with inodes :=
      { mount.inodes with
          forward := Function.update mount.inodes.forward 7
            (some ⟨["db", "default", "events", "all.tsv"].map Component.normal⟩) } }

/-- The server sends two chunks. -/
def sending : Env :=
  { server with stream := fun _ => .ok ⟨[⟨[105, 100], by decide⟩, ⟨[10], by decide⟩], .eof⟩ }

/-- The last two bytes, as far as the file is said to have any; then its beginning, and then
    a place that is in neither. -/
def tailAndHead : List Action :=
  [.request sending (.open 7 0),
    .request server (.read 1 0x7FFFFFFFFFFFFFFD 2
      [.connect, .check 0, .answer 0 (.ok ⟨[48, 49, 10], by decide⟩), .enterSelect, .install 0,
        .serve 0]),
    .background 1 [.next, .send],
    .request server (.read 1 0 2 [.check 0, .serve 0, .recv 0, .finish 0]),
    .request server (.read 1 9 2 [.check 0, .serve 0])]

end Sample

theorem data_file_seeks_tailAndHead : ∃ ev tr₂ fs',
    (sys Sample.deps).Exec Sample.stored Sample.tailAndHead (ev :: tr₂) fs' ∧
    ∃ mat, ReadsLike (ev.env.stream (sqlStreamAll "default" "events"))
        ev.before.tailCfg.enabled mat (tr₂.filterMap (Event.readOn 1)) ∧
      ∀ m, ((Stream.Document.unread (ev.env.stream (sqlStreamAll "default" "events"))
          ev.before.tailCfg.enabled).after mat
        ((tr₂.filterMap (Event.readOn 1)).map FileRead.ask)).tail = some m →
        ∃ ev' ∈ tr₂, ev'.AnswersTail 1 m := by
  have hrun : (sys Sample.deps).Exec Sample.stored Sample.tailAndHead _ _ :=
    Lts.exec_of_isSome (by decide +kernel)
  refine ⟨_, _, _, hrun, ?_⟩
  refine data_file_seeks hrun (by decide) (List.nil_append _).symm rfl ⟨rfl, _, rfl⟩ rfl rfl rfl ?_
  have hkept : ∀ ev ∈ ((sys Sample.deps).trace Sample.stored Sample.tailAndHead).tail,
      ev.op ≠ .release 1 := by decide +kernel
  exact hkept

end Fs
end ClickFs
