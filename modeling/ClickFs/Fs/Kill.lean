import ClickFs.Driver.Http
import ClickFs.Fs.Documents

/-!
# Every stream's query is killed once

A stream is opened under a `query_id` of its own. When its last `Arc` goes, `Drop` spawns a
task that posts the kill for it, whatever has become of the query. `Mount` is the file system
with what `fuser` does not see: the ids of the open streams, the streams that have left the
table, and the kills that are still to be posted.

The account is kept by `Inv.step`: each id that was issued is that of an open file, of a stream
on its way out, of a pending kill, or of one that was posted. Each open stream has exactly one
id, and no two have the same (`kills_accounted`).

That an id is killed once says something about a query only if no two queries have one id.
The ids are random, drawn by the `uuid` crate, and nothing in the program compares them. So
the draws are part of the actions, and that those of a run are distinct is a hypothesis: with
two equal draws one file's kill would end the other one's query.

When the mount goes away with files open is not in the model.
-/

set_option autoImplicit false

namespace ClickFs

open Rust Driver

namespace Stream

/-! ## Between requests -/

/-- The stream of an open file, while no request is about it: nobody reads, and its life has not
    ended. -/
structure Handle.AtEase (s : Handle) : Prop where
  quiet : s.Quiet
  counted : Counted s
  opened : s.life = .opened

theorem Handle.AtEase.spawn (up : Upstream) (tail : Option TailContext) :
    (Handle.spawn up tail).AtEase := ⟨fun _ => rfl, .spawn up tail, rfl⟩

theorem Counted.run {s s' : Handle} {as : List Action} {tr : List Event} (h : Counted s)
    (hrun : sys.Exec s as tr s') : Counted s' :=
  hrun.invariant (fun _ _ _ _ hI hstep => hI.step hstep) h

theorem Counted.refs_eq_zero {s : Handle} (h : Counted s) (hquiet : s.Quiet) : s.refs = 0 := by
  obtain ⟨busy, hcard, hbusy⟩ := h
  rw [← hcard, Finset.card_eq_zero, Finset.eq_empty_iff_forall_notMem]
  intro t hmem
  exact (hbusy t).mp hmem (hquiet t)

theorem Handle.AtEase.background {s s' : Handle} {sched : List Action} {tr : List Event}
    (h : s.AtEase) (hsched : ∀ a ∈ sched, Fs.isInner a = true) (hrun : sys.Exec s sched tr s') :
    s'.AtEase :=
  ⟨(h.quiet.run hsched hrun).1, h.counted.run hrun, (life_of_inner hsched hrun).trans h.opened⟩

theorem Reader.eq_idle_of_call {r : Reader} (h : r.call = []) : r = .idle := by
  cases r <;> first | rfl | cases h

theorem callOf_inner {sched : List Action} (hsched : ∀ a ∈ sched, Fs.isInner a = true) (t : Tid) :
    sched.flatMap (Action.callOf t) = [] := by
  rw [List.flatMap_eq_nil_iff]
  intro a ha
  have hinner := hsched a ha
  cases a <;> first | rfl | cases hinner

/-- `read_blocking` returns with nobody inside. Each call has had its reply, so there is none left
    that could be waiting. -/
theorem Handle.AtEase.read {s s' : Handle} {offset : UInt64} {size : Nat} {sched : List Action}
    {r : ReadReply} (h : s.AtEase) (hread : Fs.readBlocking s offset size sched = some (r, s')) :
    s'.AtEase := by
  unfold Fs.readBlocking at hread
  split at hread
  case isFalse => cases hread
  rename_i hsched
  rw [List.all_eq_true] at hsched
  split at hread
  case h_1 => cases hread
  rename_i s₂ tr hrun
  have hexec : sys.Exec s (.call 0 offset size :: sched) tr s₂ := Lts.exec_of_run hrun
  split at hread
  case h_2 => cases hread
  rename_i last hlast
  cases hread
  -- what came in has gone out, on each thread
  have hcalls (t : Tid) := hexec.conserves (I := fun _ => True)
    (fun _ _ _ _ _ hstep => ⟨trivial, callOf_step hstep t⟩) trivial
  have hother {t : Tid} (ht : t ≠ 0) :
      tr.flatMap (Event.replyTo t) = [] ∧ (s'.readers t).call = [] := by
    have hcall := hcalls t
    rw [h.quiet t, List.flatMap_cons, callOf_inner hsched] at hcall
    simpa [Reader.call, Action.callOf, Ne.symm ht] using hcall.symm
  have hmem : Event.read last ∈ tr := List.mem_of_getLast? hlast
  have hreply : (last.offset, last.size) ∈ tr.flatMap (Event.replyTo last.thread) :=
    List.mem_flatMap.mpr ⟨_, hmem, by simp [Event.replyTo]⟩
  have hzero : last.thread = 0 := by
    by_contra ht
    rw [(hother ht).1] at hreply
    cases hreply
  have hhere := hcalls 0
  rw [h.quiet 0, List.flatMap_cons, callOf_inner hsched] at hhere
  have hhere : [(offset, size)] = tr.flatMap (Event.replyTo 0) ++ (s'.readers 0).call := by
    simpa [Reader.call, Action.callOf] using hhere
  refine ⟨fun t => ?_, h.counted.run hexec, ?_⟩
  · refine Reader.eq_idle_of_call ?_
    by_cases ht : t = 0
    · subst ht
      rw [hzero] at hreply
      cases hreplies : tr.flatMap (Event.replyTo 0) with
      | nil =>
        rw [hreplies] at hreply
        cases hreply
      | cons p ps =>
        rw [hreplies, List.cons_append, List.cons.injEq] at hhere
        exact (List.append_eq_nil_iff.mp hhere.2.symm).2
    · exact (hother ht).2
  · cases hexec with
    | @cons _ s₁ _ _ _ evs tr head tail =>
      have head : Stream.step s (.call 0 offset size) = some (s₁, evs) := head
      rw [life_of_inner hsched tail]
      rcases step_cases head with ⟨_, _, ht, _⟩ | hr | ⟨_, _, hl, _⟩
      · cases ht
      · exact hr.frame.2.trans h.opened
      · cases hl

/-! ## On the way out -/

/-- The stream once its handle has left the table. -/
def Handle.displaced (s : Handle) : Handle := { s with life := .released }

/-- `s.cancel()`, when the handle has left the table -/
def Handle.cancelled (s : Handle) : Handle :=
  { s.displaced with task := s.task.notifyWaiters }

/-- What `release` makes of the stream in the table is the stream's own `release` step. The file
    system's request and the step of the machine in `Stream/Handle.lean` are thus one event, and
    what is proved of released streams there holds of the ones that leave this table. -/
theorem Handle.AtEase.cancels {s : Handle} (h : s.AtEase) :
    sys.step s .release = some (s.cancelled, []) := by
  show (stepRelease s .release).map _ = _
  simp [stepRelease, h.opened, Handle.cancelled, Handle.displaced]

/-- A stream that has left the table, and that no read holds. Only its task and its `Drop` are
    still to come. -/
structure Handle.Out (s : Handle) : Prop where
  counted : Counted s
  refs : s.refs = 0
  gone : s.life ≠ .opened

theorem Handle.AtEase.out {s : Handle} (h : s.AtEase) : s.displaced.Out :=
  ⟨h.counted, h.counted.refs_eq_zero h.quiet, by simp [Handle.displaced]⟩

theorem Handle.Out.notify {s : Handle} (h : s.Out) :
    Handle.Out { s with task := s.task.notifyWaiters } := ⟨h.counted, h.refs, h.gone⟩

/-- Its last `Arc` has not been dropped yet, so its kill has not been spawned. -/
def Handle.waits (s : Handle) : Bool := s.life = .released

def Action.isDrop : Action → Bool
  | .drop => true
  | _ => false

/-- What a stream does that nobody reads: it stays out, and waits until it is dropped. -/
theorem Handle.Out.step {s s' : Handle} {a : Action} {evs : List Event} (h : s.Out)
    (hstep : sys.step s a = some (s', evs)) :
    s'.Out ∧ (a.isDrop = true → s.waits = true) ∧ s'.waits = (s.waits && !a.isDrop) := by
  have hstep : Stream.step s a = some (s', evs) := hstep
  have hcounted := h.counted.step hstep
  rcases step_cases hstep with ⟨_, _, ht, rfl, _⟩ | hr | ⟨_, _, hl, rfl, _⟩
  · have hno : a.isDrop = false := by cases ht <;> rfl
    refine ⟨⟨hcounted, h.refs, h.gone⟩, fun hdrop => ?_, ?_⟩
    · rw [hno] at hdrop
      cases hdrop
    · rw [hno]
      simp [waits]
  · exact absurd hr (h.counted.no_reader h.refs h.gone)
  · cases hl with
    | release hopen => exact absurd hopen h.gone
    | drop hreleased _ =>
      exact ⟨⟨hcounted, h.refs, by simp⟩, fun _ => by simp [waits, hreleased],
        by simp [waits, Action.isDrop]⟩
    | dropRx hdropping =>
      exact ⟨⟨hcounted, h.refs, by simp⟩, fun hdrop => by simp [Action.isDrop] at hdrop,
        by simp [waits, hdropping]⟩

theorem Handle.Out.drops {s : Handle} (h : s.Out) (hwaits : s.waits = true) :
    ∃ s', sys.step s .drop = some (s', []) := by
  have hlife : s.life = .released := by simpa [waits] using hwaits
  refine ⟨{ s with life := .dropping, task := s.task.notifyWaiters }, ?_⟩
  show (stepRelease s .drop).map _ = _
  simp [stepRelease, hlife, h.refs]

end Stream

namespace Fs

/-! ## The mount -/

/-- The file system and what it has running for it. -/
structure Mount where
  fs : Fs
  /-- the query id of each stream in the table -/
  ids : List (UInt64 × String)
  /-- the streams that have left the table, with their ids -/
  out : List (String × Stream.Handle)
  /-- the kills that `Drop` has spawned, and that are to be posted -/
  kills : List String

/-- What the mount does that a server can see, and the requests it answers. -/
inductive Mount.Event
  /-- a stream is spawned under an id -/
  | issued (id : String)
  /-- a kill is posted -/
  | killed (id : String) (post : Post)
  | answered (ev : Fs.Event)

inductive Mount.Action
  /-- `uuid` is the one that is drawn if a stream is spawned -/
  | request (env : Env) (op : Op) (uuid : String)
  | background (fh : UInt64) (sched : List Stream.Action)
  /-- a stream that has left the table takes a step -/
  | out (i : Nat) (a : Stream.Action)
  /-- a kill is posted -/
  | kill (i : Nat)

/-- `format!("clickfs-{}", uuid)` -/
def queryIdOf (uuid : String) : String := "clickfs-" ++ uuid

/-- The place in the table a request fills or clears. -/
def slot : Op → Reply → Option UInt64
  | .open _ _, .opened fh _ => some fh
  | .release fh, _ => some fh
  | _, _ => none

namespace Mount

def new (fs : Fs) : Mount := { fs, ids := [], out := [], kills := [] }

/-- A stream leaves the table: `release` cancels what it takes out, and `open` drops what was at
    the place it fills. The second happens only when the counter of the handles has come round. -/
def leave : Op → Stream.Handle → Stream.Handle
  | .release _, s => s.cancelled
  | _, s => s.displaced

/-- The stream at a place of the table leaves it, if there is one. -/
def vacate (m : Mount) (op : Op) (fh : UInt64) : Mount :=
  match m.fs.handles fh with
  | some (.stream s) =>
    { m with
      ids := m.ids.filter (·.1 != fh)
      out := m.out ++ (m.ids.filter (·.1 == fh)).map fun e => (e.2, leave op s) }
  | _ => m

/-- A stream that was put into the table gets its id. -/
def enter (m : Mount) (fh : UInt64) (fs' : Fs) (op : Op) (uuid : String) :
    Mount × List Mount.Event :=
  match op, fs'.handles fh with
  | .open _ _, some (.stream _) =>
    ({ m with fs := fs', ids := m.ids ++ [(fh, queryIdOf uuid)] }, [.issued (queryIdOf uuid)])
  | _, _ => ({ m with fs := fs' }, [])

def step (d : Deps) (m : Mount) : Mount.Action → Option (Mount × List Mount.Event)
  | .request env op uuid =>
    match m.fs.serve d env op with
    | none => none
    | some (reply, fs') =>
      let ev : Fs.Event := ⟨env, op, m.fs, reply, fs'⟩
      match slot op reply with
      | some fh =>
        let (m', evs) := (m.vacate op fh).enter fh fs' op uuid
        some (m', .answered ev :: evs)
      | none => some ({ m with fs := fs' }, [.answered ev])
  | .background fh sched => (m.fs.background fh sched).map fun fs' => ({ m with fs := fs' }, [])
  | .out i a =>
    match m.out[i]? with
    | none => none
    | some (id, s) =>
      match Stream.sys.step s a with
      | none => none
      | some (s', _) =>
        some ({ m with
          out := m.out.set i (id, s')
          kills := if a.isDrop then m.kills ++ [id] else m.kills }, [])
  | .kill i =>
    match m.kills[i]? with
    | none => none
    | some id =>
      some ({ m with kills := m.kills.eraseIdx i }, [.killed id (HttpDriver.killQuery id)])

/-- The mount: every order of requests, of the streams' own steps, and of kills. -/
def sys (d : Deps) : Lts Mount Mount.Action Mount.Event := ⟨step d⟩

/-- Every way the mount takes a step. -/
inductive StepCase (d : Deps) (m : Mount) : Mount.Action → Mount → List Mount.Event → Prop
  | kept {env : Env} {op : Op} {uuid : String} {reply : Reply} {fs' : Fs}
      (hserve : m.fs.serve d env op = some (reply, fs')) (hslot : slot op reply = none) :
      StepCase d m (.request env op uuid) { m with fs := fs' }
        [.answered ⟨env, op, m.fs, reply, fs'⟩]
  | moved {env : Env} {op : Op} {uuid : String} {reply : Reply} {fs' : Fs} {fh : UInt64}
      (hserve : m.fs.serve d env op = some (reply, fs')) (hslot : slot op reply = some fh) :
      StepCase d m (.request env op uuid) ((m.vacate op fh).enter fh fs' op uuid).1
        (.answered ⟨env, op, m.fs, reply, fs'⟩ :: ((m.vacate op fh).enter fh fs' op uuid).2)
  | background {fh : UInt64} {sched : List Stream.Action} {fs' : Fs}
      (hback : m.fs.background fh sched = some fs') :
      StepCase d m (.background fh sched) { m with fs := fs' } []
  | out {i : Nat} {a : Stream.Action} {id : String} {s s' : Stream.Handle}
      {tr : List Stream.Event} (hi : m.out[i]? = some (id, s))
      (hone : Stream.sys.step s a = some (s', tr)) :
      StepCase d m (.out i a)
        { m with
          out := m.out.set i (id, s')
          kills := if a.isDrop then m.kills ++ [id] else m.kills } []
  | kill {i : Nat} {id : String} (hi : m.kills[i]? = some id) :
      StepCase d m (.kill i) { m with kills := m.kills.eraseIdx i }
        [.killed id (HttpDriver.killQuery id)]

theorem step_case {d : Deps} {m m' : Mount} {a : Mount.Action} {evs : List Mount.Event}
    (h : (sys d).step m a = some (m', evs)) : StepCase d m a m' evs := by
  have h : m.step d a = some (m', evs) := h
  cases a with
  | request env op uuid =>
    simp only [step] at h
    split at h
    case h_1 => cases h
    rename_i hserve
    split at h <;> rename_i hslot <;> cases h
    · exact .moved hserve hslot
    · exact .kept hserve hslot
  | background fh sched =>
    obtain ⟨fs', hback, heq⟩ := Option.map_eq_some_iff.mp h
    cases heq
    exact .background hback
  | out i a =>
    simp only [step] at h
    split at h
    case h_1 => cases h
    rename_i hi
    split at h
    case h_1 => cases h
    rename_i hone
    cases h
    exact .out hi hone
  | kill i =>
    simp only [step] at h
    split at h
    case h_1 => cases h
    rename_i hi
    cases h
    exact .kill hi

/-! ## The account -/

/-- The ids of the streams that are out and not dropped yet. -/
def waiting (m : Mount) : List String := (m.out.filter (·.2.waits)).map Prod.fst

/-- The ids that are yet to be killed, wherever they are: in the table, on the way out, or waiting
    to be posted. -/
def held (m : Mount) : List String := m.ids.map Prod.snd ++ (m.waiting ++ m.kills)

def Event.issues : Mount.Event → List String
  | .issued id => [id]
  | _ => []

def Event.kills : Mount.Event → List String
  | .killed id _ => [id]
  | _ => []

/-- The file opened under the handle is a stream. -/
def IsStream (fs : Fs) (fh : UInt64) : Prop := ∃ s, fs.handles fh = some (.stream s)

/-- Each stream in the table has one id. Those in the table are at ease, and nobody holds those
    that are out. -/
structure Inv (m : Mount) : Prop where
  linked : ∀ fh, IsStream m.fs fh ↔ ∃ id, (fh, id) ∈ m.ids
  nodup : (m.ids.map Prod.fst).Nodup
  ease : ∀ fh s, m.fs.handles fh = some (.stream s) → s.AtEase
  out : ∀ e ∈ m.out, e.2.Out

theorem Inv.new {fs : Fs} (h : ∀ fh, fs.handles fh = none) : Inv (.new fs) := by
  refine ⟨fun fh => ?_, .nil, fun fh s hs => ?_, fun e he => by cases he⟩
  · simp [Mount.new, IsStream, h fh]
  · rw [Mount.new, h fh] at hs
    cases hs

/-! ### Leaving the table -/

theorem leave_out (op : Op) {s : Stream.Handle} (h : s.AtEase) : (leave op s).Out := by
  cases op with
  | release => exact h.out.notify
  | lookup | getattr | readdir | «open» | read => exact h.out

theorem leave_waits (op : Op) (s : Stream.Handle) : (leave op s).waits = true := by
  cases op <;> rfl

variable {m m' : Mount}

theorem Inv.mem_vacate (h : Inv m) (op : Op) (fh : UInt64) {e : UInt64 × String} :
    e ∈ (m.vacate op fh).ids ↔ e ∈ m.ids ∧ e.1 ≠ fh := by
  unfold vacate
  split
  · simp
  · rename_i hnone
    refine ⟨fun hmem => ⟨hmem, ?_⟩, And.left⟩
    rintro rfl
    obtain ⟨s, hs⟩ := (h.linked e.1).mpr ⟨e.2, hmem⟩
    exact hnone s hs

theorem Inv.vacate_nodup (h : Inv m) (op : Op) (fh : UInt64) :
    ((m.vacate op fh).ids.map Prod.fst).Nodup := by
  unfold vacate
  split
  · exact h.nodup.sublist ((List.filter_sublist (l := m.ids)).map _)
  · exact h.nodup

theorem Inv.vacate_out (h : Inv m) (op : Op) (fh : UInt64) :
    ∀ e ∈ (m.vacate op fh).out, e.2.Out := by
  unfold vacate
  split
  · rename_i s hs
    intro e he
    rcases List.mem_append.mp he with he | he
    · exact h.out e he
    · obtain ⟨_, _, rfl⟩ := List.mem_map.mp he
      exact leave_out op (h.ease fh s hs)
  · exact h.out

theorem vacate_held (m : Mount) (op : Op) (fh : UInt64) : (m.vacate op fh).held.Perm m.held := by
  unfold vacate
  split
  · rename_i s hs
    have hleft : ((((m.ids.filter (·.1 == fh)).map fun e => (e.2, leave op s)).filter
        (·.2.waits)).map Prod.fst) = (m.ids.filter (·.1 == fh)).map Prod.snd := by
      have hall : ((m.ids.filter (·.1 == fh)).map fun e => (e.2, leave op s)).filter (·.2.waits)
          = (m.ids.filter (·.1 == fh)).map fun e => (e.2, leave op s) := by
        rw [List.filter_eq_self]
        intro e he
        obtain ⟨_, _, rfl⟩ := List.mem_map.mp he
        exact leave_waits op s
      rw [hall, List.map_map]
      rfl
    have hids : ((m.ids.filter (·.1 == fh)).map Prod.snd
        ++ (m.ids.filter (·.1 != fh)).map Prod.snd).Perm (m.ids.map Prod.snd) := by
      rw [← List.map_append]
      exact (List.filter_append_perm (·.1 == fh) m.ids).map _
    simp only [held, waiting, List.filter_append, List.map_append, hleft]
    -- the ids that leave move from the front to the middle
    refine .trans ?_ (hids.append_right _)
    rw [List.append_assoc, List.append_assoc]
    refine .trans ?_ (List.perm_append_comm_assoc ..)
    refine .append_left _ ?_
    rw [← List.append_assoc, ← List.append_assoc]
    exact List.perm_append_comm.append_right _
  · exact .refl _

/-! ### One step -/

section
variable {fs' : Fs} {fh : UInt64}

/-- A step that puts nothing into the table and takes nothing out keeps the invariant, if the
    streams in it are still at ease. -/
theorem Inv.keep (h : Inv m) (hsame : ∀ fh, IsStream fs' fh ↔ IsStream m.fs fh)
    (hease : ∀ fh s, fs'.handles fh = some (.stream s) → s.AtEase) :
    Inv { m with fs := fs' } :=
  ⟨fun fh => (hsame fh).trans (h.linked fh), h.nodup, hease, h.out⟩

theorem Inv.keep_handles (h : Inv m) (hsame : fs'.handles = m.fs.handles) :
    Inv { m with fs := fs' } := by
  refine h.keep (fun fh => ?_) fun fh s hs => ?_
  · rw [IsStream, hsame]
    rfl
  · rw [hsame] at hs
    exact h.ease fh s hs

/-- A stream that moves on in its place of the table, by a read or in the background. -/
theorem Inv.keep_stream (h : Inv m) {s s' : Stream.Handle}
    (hfh : m.fs.handles fh = some (.stream s)) (hs' : s'.AtEase)
    (hhandles : fs'.handles = Function.update m.fs.handles fh (some (.stream s'))) :
    Inv { m with fs := fs' } := by
  refine h.keep (fun f => ?_) fun f t ht => ?_
  · rw [IsStream, IsStream, hhandles]
    by_cases hf : f = fh
    · subst hf
      simp [hfh]
    · rw [Function.update_of_ne hf]
  · rw [hhandles] at ht
    by_cases hf : f = fh
    · subst hf
      rw [Function.update_self] at ht
      cases ht
      exact hs'
    · rw [Function.update_of_ne hf] at ht
      exact h.ease f t ht

/-- A place of the table is cleared, or filled with what is no stream. -/
theorem Inv.cleared (h : Inv m) (op : Op) {handle : Option FileHandle}
    (hno : ∀ s, handle ≠ some (.stream s))
    (hhandles : fs'.handles = Function.update m.fs.handles fh handle) :
    Inv { m.vacate op fh with fs := fs' } := by
  refine ⟨fun f => ?_, h.vacate_nodup op fh, fun f t ht => ?_, h.vacate_out op fh⟩
  · simp only [h.mem_vacate, IsStream, hhandles]
    by_cases hf : f = fh
    · subst hf
      simp [hno]
    · rw [Function.update_of_ne hf]
      simpa [hf, IsStream] using h.linked f
  · rw [hhandles] at ht
    by_cases hf : f = fh
    · subst hf
      rw [Function.update_self] at ht
      exact absurd ht (hno t)
    · rw [Function.update_of_ne hf] at ht
      exact h.ease f t ht

/-- A place is filled with a stream, under an id of its own. -/
theorem Inv.filled (h : Inv m) (op : Op) (id : String) {s : Stream.Handle} (hs : s.AtEase)
    (hhandles : fs'.handles = Function.update m.fs.handles fh (some (.stream s))) :
    Inv { m.vacate op fh with fs := fs', ids := (m.vacate op fh).ids ++ [(fh, id)] } := by
  refine ⟨fun f => ?_, ?_, fun f t ht => ?_, h.vacate_out op fh⟩
  · simp only [List.mem_append, h.mem_vacate, IsStream, hhandles]
    by_cases hf : f = fh
    · subst hf
      simp
    · rw [Function.update_of_ne hf]
      simpa [hf, IsStream] using h.linked f
  · rw [List.map_append, List.nodup_append]
    refine ⟨h.vacate_nodup op fh, List.nodup_singleton _, ?_⟩
    intro f hf g hg hfg
    obtain ⟨e, he, rfl⟩ := List.mem_map.mp hf
    exact ((h.mem_vacate op fh).mp he).2 (hfg.trans (List.mem_singleton.mp hg))
  · rw [hhandles] at ht
    by_cases hf : f = fh
    · subst hf
      rw [Function.update_self] at ht
      cases ht
      exact hs
    · rw [Function.update_of_ne hf] at ht
      exact h.ease f t ht

theorem slot_other {op : Op} (hopen : op.isOpen = false) (hon : ∀ fh, op.isOn fh = false)
    (reply : Reply) : slot op reply = none := by
  cases op with
  | lookup | getattr | readdir => rfl
  | «open» => cases hopen
  | read fh => simpa [Op.isOn] using hon fh
  | release fh => simpa [Op.isOn] using hon fh

/-- A read leaves a stream a stream, and at ease. -/
theorem Inv.read (h : Inv m) {offset : Int64} {size : UInt32} {sched : List Stream.Action}
    {handle handle' : FileHandle} {reply : Reply} (hfh : m.fs.handles fh = some handle)
    (hread : fileRead offset size sched handle = some (reply, handle'))
    (hhandles : fs'.handles = Function.update m.fs.handles fh (some handle')) :
    Inv { m with fs := fs' } := by
  cases handle with
  | special bytes =>
    cases hread
    rw [← hfh, Function.update_eq_self] at hhandles
    exact h.keep_handles hhandles
  | stream s =>
    obtain ⟨⟨r, s'⟩, hblocking, heq⟩ := Option.map_eq_some_iff.mp hread
    cases heq
    exact h.keep_stream hfh ((h.ease fh s hfh).read hblocking) hhandles

theorem Inv.background (h : Inv m) {sched : List Stream.Action}
    (hback : m.fs.background fh sched = some fs') : Inv { m with fs := fs' } := by
  rw [background_eq] at hback
  obtain ⟨handle', hbind, rfl⟩ := Option.map_eq_some_iff.mp hback
  obtain ⟨handle, hfh, hfile⟩ := Option.bind_eq_some_iff.mp hbind
  cases handle with
  | special bytes => cases hfile
  | stream s =>
    simp only [fileBackground] at hfile
    split at hfile
    case isFalse => cases hfile
    rename_i hsched
    rw [List.all_eq_true] at hsched
    obtain ⟨⟨s', tr⟩, hrun, rfl⟩ := Option.map_eq_some_iff.mp hfile
    exact h.keep_stream hfh ((h.ease fh s hfh).background hsched (Lts.exec_of_run hrun)) rfl

/-- What is opened as a stream has been spawned just now, and nobody can have called it yet. -/
theorem atEase_of_openHandle {d : Deps} {fs : Fs} {env : Env} {plan : QueryPlan}
    {s : Stream.Handle} (h : fs.openHandle d env plan = .ok (.stream s)) : s.AtEase := by
  obtain ⟨kind, db, table⟩ := plan
  cases kind with
  | streamAll | streamPartition =>
    cases h
    exact .spawn _ _
  | describeTable =>
    simp only [openHandle] at h
    split at h <;> cases h
  | readme => cases h
  | root | dbNamespace | listTables | listPartitions => cases h

end

/-- A request that puts nothing into a place, and takes nothing out of one. -/
theorem Inv.kept (h : Inv m) {d : Deps} {env : Env} {op : Op} {reply : Reply} {fs' : Fs}
    (hserve : m.fs.serve d env op = some (reply, fs')) (hslot : slot op reply = none) :
    Inv { m with fs := fs' } := by
  cases serve_files hserve with
  | other hopen hon hhandles _ => exact h.keep_handles hhandles
  | refused => exact h.keep_handles rfl
  | unknown => exact h
  | read hfh hread => exact h.read hfh hread rfl
  | release | opened => cases hslot

open scoped List in
/-- One that fills or clears a place: what leaves is still held, and what comes is issued. -/
theorem Inv.moved (h : Inv m) {d : Deps} {env : Env} {op : Op} {reply : Reply} {fs' : Fs}
    {fh : UInt64} (hserve : m.fs.serve d env op = some (reply, fs'))
    (hslot : slot op reply = some fh) (uuid : String) :
    Inv ((m.vacate op fh).enter fh fs' op uuid).1 ∧
      ((m.vacate op fh).enter fh fs' op uuid).2.flatMap Event.issues ++ m.held ~
        ((m.vacate op fh).enter fh fs' op uuid).2.flatMap Event.kills ++
          ((m.vacate op fh).enter fh fs' op uuid).1.held := by
  have hheld := (vacate_held m op fh).symm
  cases serve_files hserve with
  | other hopen hon _ _ =>
    rw [slot_other hopen hon] at hslot
    cases hslot
  | refused | unknown | read => cases hslot
  | release =>
    cases hslot
    exact ⟨h.cleared (.release fh) (fun _ hs => by cases hs) rfl, hheld⟩
  | @opened ino flags path plan handle _ _ _ hhandle =>
    cases hslot
    cases handle with
    | special bytes =>
      simp only [enter, Function.update_self]
      exact ⟨h.cleared (.open ino flags) (fun _ hs => by cases hs) rfl, hheld⟩
    | stream s =>
      simp only [enter, Function.update_self]
      refine ⟨h.filled (.open ino flags) (queryIdOf uuid) (atEase_of_openHandle hhandle) rfl, ?_⟩
      show queryIdOf uuid :: m.held ~ _
      refine (hheld.cons _).trans ?_
      simp only [held, waiting, List.map_append, List.append_assoc]
      exact List.perm_middle.symm

open scoped List in
/-- What a stream does that is on its way out. Its `drop` is the step that turns its id into a
    pending kill. -/
theorem Inv.outStep (h : Inv m) {i : Nat} {a : Stream.Action} {id : String}
    {s s' : Stream.Handle} {tr : List Stream.Event} (hi : m.out[i]? = some (id, s))
    (hone : Stream.sys.step s a = some (s', tr)) :
    let m' : Mount := { m with
      out := m.out.set i (id, s')
      kills := if a.isDrop then m.kills ++ [id] else m.kills }
    Inv m' ∧ m.held ~ m'.held := by
  obtain ⟨hlt, hget⟩ := List.getElem?_eq_some_iff.mp hi
  obtain ⟨l₁, l₂, hout, -, hset⟩ : ∃ l₁ l₂, m.out = l₁ ++ m.out[i] :: l₂ ∧ l₁.length = i ∧
      m.out.set i (id, s') = l₁ ++ (id, s') :: l₂ := List.exists_of_set hlt
  rw [hget] at hout
  have hs : s.Out := h.out (id, s) (hget ▸ List.getElem_mem hlt)
  obtain ⟨hs', hdrop, hwaits⟩ := hs.step hone
  refine ⟨⟨h.linked, h.nodup, h.ease, fun e he => ?_⟩, ?_⟩
  · rcases List.mem_or_eq_of_mem_set he with he | rfl
    · exact h.out e he
    · exact hs'
  · simp only [held, waiting, hset]
    refine .append_left _ ?_
    cases ha : a.isDrop with
    | true =>
      -- it waited, and now its kill does
      have hwas := hdrop ha
      rw [hwas, ha] at hwaits
      simp only [hout, List.filter_append, List.filter_cons, hwas, hwaits, List.map_append,
        List.map_cons, if_true, Bool.and_not_self, Bool.false_eq_true, if_false, ← List.append_assoc]
      refine .trans ?_ (List.perm_append_singleton ..).symm
      rw [List.append_assoc]
      exact List.perm_middle.trans (by rw [List.append_assoc]; rfl)
    | false =>
      rw [ha, Bool.not_false, Bool.and_true] at hwaits
      simp only [hout, List.filter_append, List.filter_cons, hwaits, Bool.false_eq_true, if_false]
      split <;> simp

open scoped List in
/-- What one step issues, and what it kills, is accounted for. Over a run this adds up to a
    permutation. -/
theorem Inv.step (h : Inv m) {d : Deps} {a : Mount.Action} {evs : List Mount.Event}
    (hstep : (sys d).step m a = some (m', evs)) :
    Inv m' ∧ evs.flatMap Event.issues ++ m.held ~ evs.flatMap Event.kills ++ m'.held := by
  cases step_case hstep with
  | kept hserve hslot => exact ⟨h.kept hserve hslot, .refl _⟩
  | @moved _ _ uuid _ _ _ hserve hslot => exact h.moved hserve hslot uuid
  | background hback => exact ⟨h.background hback, .refl _⟩
  | out hi hone => exact h.outStep hi hone
  | @kill i id hi =>
    obtain ⟨hlt, rfl⟩ := List.getElem?_eq_some_iff.mp hi
    refine ⟨⟨h.linked, h.nodup, h.ease, h.out⟩, ?_⟩
    show m.held ~ m.kills[i] :: _
    simp only [held, waiting, ← List.append_assoc]
    exact ((List.getElem_cons_eraseIdx_perm hlt).symm.append_left _).trans List.perm_middle

/-! ## What the file system sees of it -/

def Action.below : Mount.Action → List Fs.Action
  | .request env op _ => [.request env op]
  | .background fh sched => [.background fh sched]
  | .out _ _ | .kill _ => []

def Event.below : Mount.Event → List Fs.Event
  | .answered ev => [ev]
  | _ => []

theorem enter_fs (m : Mount) (fh : UInt64) (fs' : Fs) (op : Op) (uuid : String) :
    (m.enter fh fs' op uuid).1.fs = fs' ∧
      (m.enter fh fs' op uuid).2.flatMap Event.below = [] := by
  unfold enter
  split <;> exact ⟨rfl, rfl⟩

/-- The requests are answered as the file system answers them: a run of the mount is a run of the
    file system with more going on around it. -/
theorem exec_fs {d : Deps} {as : List Mount.Action} {tr : List Mount.Event}
    (hrun : (sys d).Exec m as tr m') :
    (Fs.sys d).Exec m.fs (as.flatMap Action.below) (tr.flatMap Event.below) m'.fs := by
  refine hrun.refines fun m a m' evs hstep => ?_
  cases step_case hstep with
  | kept hserve _ => exact .one (step_of_serve hserve)
  | @moved env op uuid reply fs' fh hserve _ =>
    obtain ⟨hfs, hnone⟩ := enter_fs (m.vacate op fh) fh fs' op uuid
    rw [hfs, List.flatMap_cons, hnone, List.append_nil]
    exact .one (step_of_serve hserve)
  | @background fh sched fs' hback =>
    refine .one ?_
    show (m.fs.background fh sched).map _ = _
    rw [hback]
    rfl
  | out | kill => exact .nil _

/-! ## Every kill is posted in the end -/

/-- A drop, or the post of a kill. These are what is left to do when no more requests come, and
    none of it waits for an answer. -/
def Action.Settles : Mount.Action → Prop
  | .out _ .drop | .kill _ => True
  | _ => False

/-- A drop turns a stream that waits into a kill, and a post takes the kill away. So there are
    finitely many of them left at any time. -/
theorem Inv.settle (h : Inv m) {d : Deps} {a : Mount.Action} {evs : List Mount.Event}
    (ha : a.Settles) (hstep : (sys d).step m a = some (m', evs)) :
    m'.fs = m.fs ∧ m'.ids = m.ids ∧
      2 * m'.waiting.length + m'.kills.length + 1 = 2 * m.waiting.length + m.kills.length := by
  have hheld := (h.step hstep).2.length_eq
  cases step_case hstep with
  | kept | moved | background => exact ha.elim
  | @out i a id s s' tr hi hone =>
    cases a with
    | drop =>
      refine ⟨rfl, rfl, ?_⟩
      simp [held, Stream.Action.isDrop] at hheld ⊢
      omega
    | _ => exact ha.elim
  | @kill i id hi =>
    refine ⟨rfl, rfl, ?_⟩
    have hlt := (List.getElem?_eq_some_iff.mp hi).1
    show 2 * m.waiting.length + (m.kills.eraseIdx i).length + 1 = _
    rw [List.length_eraseIdx_of_lt hlt]
    omega

/-- When nothing is left to be dropped or posted, only the open files' queries are alive. -/
theorem Inv.held_of_stuck (h : Inv m) {d : Deps}
    (hstuck : (sys d).Stuck Action.Settles m) : m.held = m.ids.map Prod.snd := by
  have hwaiting : m.waiting = [] := by
    rw [waiting, List.map_eq_nil_iff, List.filter_eq_nil_iff]
    intro e he hwaits
    obtain ⟨i, hi, rfl⟩ := List.mem_iff_getElem.mp he
    obtain ⟨s', hdrop⟩ := (h.out _ he).drops hwaits
    have hnone : m.step d (.out i .drop) = none := hstuck (.out i .drop) trivial
    simp only [Mount.step, List.getElem?_eq_getElem hi, hdrop] at hnone
    cases hnone
  have hkills : m.kills = [] := by
    cases hk : m.kills with
    | nil => rfl
    | cons id ids =>
      have hnone : m.step d (.kill 0) = none := hstuck (.kill 0) trivial
      simp only [Mount.step, hk] at hnone
      cases hnone
  rw [held, hwaiting, hkills, List.append_nil, List.append_nil]

theorem Inv.exists_settled (h : Inv m) (d : Deps) :
    ∃ as tr m', (∀ a ∈ as, Action.Settles a) ∧ (sys d).Exec m as tr m' ∧
      (Inv m' ∧ m'.fs = m.fs ∧ m'.ids = m.ids) ∧ (sys d).Stuck Action.Settles m' := by
  refine Lts.exists_stuck
    (R := fun m n => 2 * m.waiting.length + m.kills.length = n)
    (I := fun m₁ => Inv m₁ ∧ m₁.fs = m.fs ∧ m₁.ids = m.ids)
    ?_ _ ⟨h, rfl, rfl⟩ rfl
  intro m₁ a m₂ evs n hI hn ha hstep
  obtain ⟨h₁, hfs, hids⟩ := hI
  obtain ⟨hfs₂, hids₂, hless⟩ := h₁.settle ha hstep
  exact ⟨⟨(h₁.step hstep).1, hfs₂.trans hfs, hids₂.trans hids⟩, _, rfl, by omega⟩

/-! ## Over every run -/

theorem queryIdOf_injective : Function.Injective queryIdOf :=
  fun _ _ h => String.append_right_inj _ |>.mp h

/-- The uuid that is drawn by an `open`. -/
def Action.draws : Mount.Action → List String
  | .request _ (.open _ _) uuid => [uuid]
  | _ => []

theorem enter_issues (m : Mount) (fh : UInt64) (fs' : Fs) (env : Env) (op : Op) (uuid : String) :
    ((m.enter fh fs' op uuid).2.flatMap Event.issues).Sublist
      ((Action.draws (.request env op uuid)).map queryIdOf) := by
  unfold enter
  split
  · exact .refl _
  · exact List.nil_sublist _

/-- An id is issued under the uuid that was drawn for it. There is a draw for every `open`, and it
    is used by one that spawns a stream. -/
theorem issues_sublist {d : Deps} {as : List Mount.Action} {tr : List Mount.Event}
    (hrun : (sys d).Exec m as tr m') :
    (tr.flatMap Event.issues).Sublist ((as.flatMap Action.draws).map queryIdOf) := by
  rw [List.map_flatMap]
  refine hrun.sublist fun m a m' evs hstep => ?_
  cases step_case hstep with
  | @moved env op uuid _ fs' fh => exact enter_issues (m.vacate op fh) fh fs' env op uuid
  | kept | background | out | kill => exact List.nil_sublist _

/-- The text of a kill names its query, whatever the id is. -/
theorem exec_posts {d : Deps} {as : List Mount.Action} {tr : List Mount.Event}
    (hrun : (sys d).Exec m as tr m') : ∀ ev ∈ tr, ∀ id post, ev = .killed id post →
      post = HttpDriver.killQuery id := by
  refine hrun.eventsAlong (I := fun _ => True) (C := fun _ _ => True) ?_
    (Lts.along_of_forall (fun _ _ _ => trivial) m) trivial
  intro m a m' evs _ _ hstep
  refine ⟨trivial, fun ev hev id post hkilled => ?_⟩
  subst hkilled
  cases step_case hstep with
  | @moved _ op uuid _ fs' fh =>
    unfold enter at hev
    split at hev <;> simp at hev
  | kill =>
    simp only [List.mem_singleton, Event.killed.injEq] at hev
    rw [hev.1, hev.2]
  | kept => simp at hev
  | background | out => cases hev

open scoped List in
/-- The ids of the streams that were ever spawned are those of the open files, and those that wait
    for their kill or have had it: each id is in one place, and once. An open stream has exactly
    one of them. The text posted for an id names that id. The file system is not asked for what is
    left to do, and when it is done, what is not open has been killed. All of it is for draws that
    are distinct. -/
theorem kills_accounted (d : Deps) {fs : Fs} (hnew : ∀ fh, fs.handles fh = none)
    {as : List Mount.Action} {tr : List Mount.Event} (hrun : (sys d).Exec (.new fs) as tr m)
    (hdrawn : (as.flatMap Action.draws).Nodup) :
    (tr.flatMap Event.kills ++ m.ids.map Prod.snd).Nodup ∧
    ((m.ids.map Prod.fst).Nodup ∧ ∀ fh, IsStream m.fs fh ↔ ∃ id, (fh, id) ∈ m.ids) ∧
    (∀ id post, .killed id post ∈ tr → Sql.lex post.body = some [.word "KILL", .word "QUERY",
      .word "WHERE", .word "query_id", .sym '=', .quoted .str id, .word "ASYNC"]) ∧
    ((sys d).Stuck Action.Settles m →
      tr.flatMap Event.issues ~ tr.flatMap Event.kills ++ m.ids.map Prod.snd) ∧
    ∃ bs tr' m', (∀ b ∈ bs, Action.Settles b) ∧ (sys d).Exec m bs tr' m' ∧
      m'.fs = m.fs ∧ m'.ids = m.ids ∧ (sys d).Stuck Action.Settles m' := by
  obtain ⟨hinv, hperm⟩ := hrun.accounts (fun _ _ _ _ hI hstep => hI.step hstep) (Inv.new hnew)
  have hissued : tr.flatMap Event.issues ~ tr.flatMap Event.kills ++ m.held := by
    simpa [held, waiting, Mount.new] using hperm
  have hnodup : (tr.flatMap Event.kills ++ m.held).Nodup :=
    hissued.nodup_iff.mp ((issues_sublist hrun).nodup (hdrawn.map queryIdOf_injective))
  refine ⟨?_, ⟨hinv.nodup, hinv.linked⟩, fun id post hkilled => ?_, fun hstuck => ?_, ?_⟩
  · exact hnodup.sublist ((List.sublist_append_left ..).append_left _)
  · rw [exec_posts hrun _ hkilled id post rfl]
    exact lex_killQuery id
  · rw [← hinv.held_of_stuck hstuck]
    exact hissued
  · obtain ⟨bs, tr', m', hbs, hrun', ⟨-, hfs, hids⟩, hstuck⟩ := hinv.exists_settled d
    exact ⟨bs, tr', m', hbs, hrun', hfs, hids, hstuck⟩

end Mount

namespace Sample

/-- A file is opened twice, and one of the two is closed before it has been read. -/
def closing : List Mount.Action :=
  [.request sending (.open 7 0) "5f0c", .background 1 [.connect, .enterSelect, .next],
    .request sending (.open 7 0) "a71e", .request server (.release 1) "", .out 0 .drop, .kill 0]

end Sample

open scoped List in
theorem Mount.kills_accounted_closing : ∃ tr m,
    (Mount.sys Sample.deps).Exec (.new Sample.stored) Sample.closing tr m ∧
    tr.flatMap Mount.Event.kills = ["clickfs-5f0c"] ∧ m.ids = [(2, "clickfs-a71e")] ∧
    (tr.flatMap Mount.Event.kills ++ m.ids.map Prod.snd).Nodup ∧
    ∀ fh, Mount.IsStream m.fs fh ↔ ∃ id, (fh, id) ∈ m.ids := by
  have hrun : (Mount.sys Sample.deps).Exec (.new Sample.stored) Sample.closing _ _ :=
    Lts.exec_of_isSome (by decide +kernel)
  obtain ⟨honce, ⟨-, hlinked⟩, -⟩ := kills_accounted Sample.deps (fun _ => rfl) hrun (by decide)
  exact ⟨_, _, hrun, by decide +kernel, by decide +kernel, honce, hlinked⟩

end Fs
end ClickFs
