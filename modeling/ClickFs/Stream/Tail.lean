import ClickFs.Stream.Window

/-!
# The materialized tail as a random-access file

Three contracts of the tail buffer. Inside its window the handle is a file with
positional reads, and such a read touches nothing (`windowFaithful`). The buffer is
meant to be materialized once; the check and the flag are in two critical sections,
and it is exactly when a second check runs in between that there are two
(`one_shot_iff`). And the window is as long as the buffer the server produced, not as
long as the read that asked for it: the last `n` bytes are readable exactly when the
buffer has that many (`tail_served_iff`).
-/

set_option autoImplicit false

namespace ClickFs
namespace Stream

/-! ## Positional reads of the window -/

theorem bufOrigin_le_iff {buf : Bytes} {offset : UInt64} :
    bufOrigin buf ≤ offset ↔ pseudoEof.toNat - buf.len ≤ offset.toNat := by
  rw [UInt64.le_iff_toNat_le, bufOrigin_toNat]

/-- The bytes of `buf` that a read of `[offset, offset + size)` covers, `buf` lying at the end of
    the pseudo-file. In natural numbers, so nothing here can wrap. -/
def windowBytes (buf : Bytes) (offset : UInt64) (size : Nat) : List UInt8 :=
  pread buf.data (offset.toNat - (pseudoEof.toNat - buf.len)) size

theorem front_window {g : Inner} {buf : Bytes} {offset : UInt64} (hbuf : g.tailBuf = some buf)
    (hoff : offset ≠ g.pos) (hin : pseudoEof.toNat - buf.len ≤ offset.toNat) (size : Nat) :
    front g offset size = .reply (.ok (windowBytes buf offset size)) g := by
  have hcov : g.covers offset = true := by
    rw [Inner.covers_eq hbuf, decide_eq_true (bufOrigin_le_iff.mpr hin)]
  have hcase := front_cases g offset size
  generalize front g offset size = f at hcase
  cases hcase with
  | reports hpos herr => exact absurd hpos hoff
  | order hpos hout => rw [hcov] at hout; cases hout
  | pull hpos herr hout => exact absurd hpos hoff
  | window herr hbuf' hin' =>
    rw [hbuf] at hbuf'
    cases hbuf'
    rw [windowBytes, bufOrigin_toNat]

/-- In every run, from any state, a read in the window gets its bytes and changes nothing behind
    the mutex. The buffer may come from anywhere; it only has to be there when the read is served.
    -/
theorem read_in_window {s s' : Handle} {as : List Action} {tr : List Event}
    (h : sys.Exec s as tr s') {ev : ReadEvent} (hev : .read ev ∈ tr) {buf : Bytes}
    (hbuf : ev.before.tailBuf = some buf) (hoff : ev.offset ≠ ev.before.pos)
    (hin : pseudoEof.toNat - buf.len ≤ ev.offset.toNat) :
    ev.reply = .ok (windowBytes buf ev.offset ev.size) ∧ ev.after = ev.before := by
  have hall : ∀ e ∈ tr, ∀ ev, e = .read ev → ev.offset ≠ ev.before.pos →
      front ev.before ev.offset ev.size = .reply ev.reply ev.after :=
    Lts.Exec.eventsAlong (I := fun _ => True) (C := fun _ _ => True)
      (fun s a s₁ evs _ _ hstep => ⟨trivial, fun e he ev hev hoff => by
        subst hev
        rcases step_cases hstep with ⟨_, _, _, _, rfl⟩ | hr | ⟨_, _, _, _, rfl⟩
        case inl | inr.inr => cases he
        cases hr with
        | serveReply hr hlock hfront => cases List.mem_singleton.mp he; exact hfront
        | finish hr hmore => cases List.mem_singleton.mp he; exact absurd rfl hoff
        | checkMat => cases List.mem_singleton.mp he
        | _ => cases he⟩)
      h (Lts.along_of_forall (fun _ _ _ => trivial) s) trivial
  have hfront := hall _ hev ev rfl hoff
  rw [front_window hbuf hoff hin] at hfront
  obtain ⟨hreply, hafter⟩ := Front.reply.inj hfront
  exact ⟨hreply.symm, hafter.symm⟩

/-- One call of `read_blocking`, by a thread that has nothing else to do. -/
structure Request where
  thread : Tid
  offset : UInt64
  size : Nat

/-- The steps of a call that has nothing to materialize or to wait for. With a buffer pinned every
    call in the window is one of these. -/
def Request.actions (r : Request) : List Action :=
  [.call r.thread r.offset r.size, .check r.thread, .serve r.thread]

/-- The event of a call that finds `g` behind the mutex and leaves it there. -/
def Request.served (r : Request) (g : Inner) (buf : Bytes) : Event :=
  .read ⟨r.thread, r.offset, r.size, g, .ok (windowBytes buf r.offset r.size), g⟩

theorem needMaterialize_of_tailBuf {tail : Option TailContext} {g : Inner} {buf : Bytes}
    (h : g.tailBuf = some buf) (offset : UInt64) : needMaterialize tail g offset = false := by
  simp [needMaterialize, h]

/-- A thread that calls, waits for nothing and returns leaves the handle as it was. -/
theorem Handle.returns_self {s : Handle} {t : Tid} (hidle : s.readers t = .idle)
    (hlock : s.lock = none) (r₁ r₂ : Reader) :
    ({ s.setReader t r₁ with refs := s.refs + 1 }.setReader t r₂).returns t s.inner = s := by
  have hreaders : Function.update (Function.update (Function.update s.readers t r₁) t r₂) t .idle
      = s.readers := by
    rw [Function.update_idem, Function.update_idem, ← hidle, Function.update_eq_self]
  cases s
  simp only at hlock hreaders
  subst hlock
  simp only [Handle.returns, Handle.setReader, Nat.add_sub_cancel, hreaders]

/-- **A read in the window leaves the handle as it was**, not only the mutex's content but the whole
    handle, so any number of them can follow each other. -/
theorem run_inWindow {s : Handle} {buf : Bytes} {r : Request} (hopen : s.life = .opened)
    (hlock : s.lock = none) (hidle : s.readers r.thread = .idle)
    (hbuf : s.inner.tailBuf = some buf) (hoff : r.offset ≠ s.inner.pos)
    (hin : pseudoEof.toNat - buf.len ≤ r.offset.toNat) :
    sys.run s r.actions = some (s, [r.served s.inner buf]) := by
  let s₁ : Handle := { s.setReader r.thread (.checking r.offset r.size) with refs := s.refs + 1 }
  let s₂ : Handle := s₁.setReader r.thread (.serving r.offset r.size)
  have hcall : step s (.call r.thread r.offset r.size) = some (s₁, []) :=
    (ReadStep.call hidle hopen).step
  have hr₁ : s₁.readers r.thread = .checking r.offset r.size := Handle.setReader_self ..
  have hr₂ : s₂.readers r.thread = .serving r.offset r.size := Handle.setReader_self ..
  have hcheck : step s₁ (.check r.thread) = some (s₂, []) :=
    (ReadStep.checkSkip hr₁ hlock (needMaterialize_of_tailBuf hbuf r.offset)).step
  have hserve : step s₂ (.serve r.thread) = some (s, [r.served s.inner buf]) := by
    have hs : ReadStep s₂ (.serve r.thread) _ _ :=
      .serveReply hr₂ hlock (front_window hbuf hoff hin r.size)
    have hback : s₂.returns r.thread s.inner = s := Handle.returns_self hidle hlock _ _
    rw [hs.step, hback]
    rfl
  simp only [Request.actions, Lts.run, sys, hcall, hcheck, hserve, List.nil_append, List.append_nil]

/-- Reads one after the other, each where the last one ended. Cutting a range into such reads must
    not change what is read. -/
def cutsFrom (t : Tid) (off : Nat) : List Nat → List Request
  | [] => []
  | n :: ns => ⟨t, UInt64.ofNat off, n⟩ :: cutsFrom t (off + n) ns

theorem cutsFrom_windowBytes {buf : Bytes} (t : Tid) : ∀ (ns : List Nat) (k : Nat),
    k + ns.sum ≤ buf.len →
    (cutsFrom t (pseudoEof.toNat - buf.len + k) ns).map
        (fun r => windowBytes buf r.offset r.size) = preads buf.data k ns := by
  intro ns
  induction ns with
  | nil => intro k _; rfl
  | cons n ns ih =>
    intro k hk
    rw [List.sum_cons] at hk
    have hpin := bufOrigin_add_len buf
    have hlen := buf.len_lt
    have heof : pseudoEof.toNat < 2 ^ 63 := by decide
    have hoff : (UInt64.ofNat (pseudoEof.toNat - buf.len + k)).toNat
        = pseudoEof.toNat - buf.len + k := UInt64.toNat_ofNat_of_lt' (by
      show pseudoEof.toNat - buf.len + k < 2 ^ 64
      omega)
    rw [cutsFrom, List.map_cons, windowBytes, hoff, Nat.add_sub_cancel_left, Nat.add_assoc,
      ih (k + n) (by omega), preads]

/-- The window of a buffer is a random-access file with the buffer's contents. Its three clauses
    are about one step, about any run, and about calls made one after the other. -/
structure WindowFaithful (buf : Bytes) : Prop where
  /-- a read in the window, as one step: nothing else changes -/
  serve : ∀ (s : Handle) (t : Tid) (offset : UInt64) (size : Nat),
    s.inner.tailBuf = some buf → s.readers t = .serving offset size → s.lock = none →
    offset ≠ s.inner.pos → pseudoEof.toNat - buf.len ≤ offset.toNat →
    step s (.serve t) = some (s.returns t s.inner, [Request.served ⟨t, offset, size⟩ s.inner buf])
  /-- in any run, among any other reads -/
  everyRun : ∀ (s s' : Handle) (as : List Action) (tr : List Event), sys.Exec s as tr s' →
    ∀ ev, .read ev ∈ tr → ev.before.tailBuf = some buf → ev.offset ≠ ev.before.pos →
      pseudoEof.toNat - buf.len ≤ ev.offset.toNat →
      ev.reply = .ok (windowBytes buf ev.offset ev.size) ∧ ev.after = ev.before
  /-- any number of reads, one after the other -/
  sequence : ∀ (s : Handle), s.inner.tailBuf = some buf → s.life = .opened → s.lock = none →
    ∀ reqs : List Request, (∀ r ∈ reqs, s.readers r.thread = .idle ∧ r.offset ≠ s.inner.pos ∧
        pseudoEof.toNat - buf.len ≤ r.offset.toNat) →
      sys.run s (reqs.flatMap Request.actions) = some (s, reqs.map fun r => r.served s.inner buf)
  pastEof : ∀ (offset : UInt64) (size : Nat), pseudoEof ≤ offset →
    windowBytes buf offset size = []
  cut : ∀ (t : Tid) (ns : List Nat), ns.sum = buf.len →
    ((cutsFrom t (pseudoEof.toNat - buf.len) ns).map
      fun r => windowBytes buf r.offset r.size).flatten = buf.data
  overlap : ∀ (off₁ off₂ : UInt64) (size₁ size₂ x : Nat),
    pseudoEof.toNat - buf.len ≤ off₁.toNat → pseudoEof.toNat - buf.len ≤ off₂.toNat →
    off₁.toNat ≤ x → x < off₁.toNat + size₁ → off₂.toNat ≤ x → x < off₂.toNat + size₂ →
    (windowBytes buf off₁ size₁)[x - off₁.toNat]? = (windowBytes buf off₂ size₂)[x - off₂.toNat]?

/-- **The tail window is a faithful random-access file**, for every buffer. -/
theorem windowFaithful (buf : Bytes) : WindowFaithful buf where
  serve := by
    intro s t offset size hbuf hr hlock hoff hin
    exact (ReadStep.serveReply hr hlock (front_window hbuf hoff hin size)).step
  everyRun := fun s s' as tr h ev hev hbuf hoff hin => read_in_window h hev hbuf hoff hin
  sequence := by
    intro s hbuf hopen hlock reqs
    induction reqs with
    | nil => intro _; rfl
    | cons r reqs ih =>
      intro hreqs
      obtain ⟨hidle, hoff, hin⟩ := hreqs r List.mem_cons_self
      have hone := run_inWindow hopen hlock hidle hbuf hoff hin
      have hrest := ih fun r' hr' => hreqs r' (List.mem_cons_of_mem _ hr')
      exact ((Lts.exec_of_run hone).append (Lts.exec_of_run hrest)).run
  pastEof := by
    intro offset size h
    have hpin := bufOrigin_add_len buf
    rw [bufOrigin_toNat] at hpin
    have := UInt64.le_iff_toNat_le.mp h
    exact pread_of_length_le (by rw [← Bytes.len]; omega) size
  cut := by
    intro t ns hsum
    have := cutsFrom_windowBytes t ns 0 (by omega : 0 + ns.sum ≤ buf.len)
    rw [Nat.add_zero] at this
    rw [this]
    exact preads_flatten_all (Nat.le_of_eq hsum.symm)
  overlap := by
    intro off₁ off₂ size₁ size₂ x hin₁ hin₂ h₁ h₁' h₂ h₂'
    unfold windowBytes
    generalize pseudoEof.toNat - buf.len = origin at hin₁ hin₂ ⊢
    have key : (pread buf.data (off₁.toNat - origin) size₁)[x - origin - (off₁.toNat - origin)]?
        = (pread buf.data (off₂.toNat - origin) size₂)[x - origin - (off₂.toNat - origin)]? :=
      pread_overlap (by omega) (by omega)
    rwa [show x - origin - (off₁.toNat - origin) = x - off₁.toNat by omega,
      show x - origin - (off₂.toNat - origin) = x - off₂.toNat by omega] at key

/-! ## One shot -/

def Event.isMaterialize : Event → Bool
  | .materialize _ _ => true
  | .read _ => false

/-- How many times `materialize_tail` was issued. -/
def materializations (tr : List Event) : Nat := tr.countP Event.isMaterialize

/-- `materialize_tail` is issued and its result not yet installed. While a thread is here the flag
    that should keep the others out is not set. -/
def Reader.inFlight : Reader → Bool
  | .materializing _ _ => true
  | .installing _ _ _ => true
  | _ => false

/-- The step runs a check that decides to materialize. A predicate on the state before the step,
    evaluated as the check does. -/
def Materializes (s : Handle) (a : Action) : Prop :=
  ∃ t offset size, a = .check t ∧ s.readers t = .checking offset size ∧
    needMaterialize s.tail s.inner offset = true

/-- No check decides to materialize while another thread has it in flight. -/
def ChecksAlone (s : Handle) (a : Action) : Prop :=
  Materializes s a → ∀ t, (s.readers t).inFlight = false

/-- How far the materialization has come after `n` of them were issued: not begun, in flight in
    one thread, or over. This is the invariant of a run in which all checks are alone. -/
inductive Phase (s : Handle) : Nat → Prop
  | fresh (hnone : ∀ t, (s.readers t).inFlight = false) (htried : s.inner.tailAttempted = false)
      (hbuf : s.inner.tailBuf = none) : Phase s 0
  | flying {t : Tid} (hone : ∀ t', (s.readers t').inFlight = true ↔ t' = t)
      (htried : s.inner.tailAttempted = false) (hbuf : s.inner.tailBuf = none) : Phase s 1
  | settled (hnone : ∀ t, (s.readers t).inFlight = false) (htried : s.inner.tailAttempted = true) :
      Phase s 1

theorem Phase.le_one {s : Handle} {n : Nat} (h : Phase s n) : n ≤ 1 := by
  cases h <;> decide

/-- The tail fields of the mutex's content. -/
def Inner.tail (g : Inner) : Bool × Option Bytes := (g.tailAttempted, g.tailBuf)

theorem Phase.frame {s s₁ : Handle} {n : Nat} (h : Phase s n)
    (htail : s₁.inner.tail = s.inner.tail)
    (hread : ∀ t, (s₁.readers t).inFlight = (s.readers t).inFlight) : Phase s₁ n := by
  obtain ⟨htried₁, hbuf₁⟩ := Prod.mk.inj htail
  cases h with
  | fresh hnone htried hbuf =>
    exact .fresh (fun t => (hread t).trans (hnone t)) (htried₁.trans htried) (hbuf₁.trans hbuf)
  | flying hone htried hbuf =>
    exact .flying (fun t => by rw [hread]; exact hone t) (htried₁.trans htried)
      (hbuf₁.trans hbuf)
  | settled hnone htried =>
    exact .settled (fun t => (hread t).trans (hnone t)) (htried₁.trans htried)

theorem inFlight_setReader {s : Handle} {t : Tid} {r : Reader}
    (h : r.inFlight = (s.readers t).inFlight) (t' : Tid) :
    ((s.setReader t r).readers t').inFlight = (s.readers t').inFlight := by
  by_cases ht : t' = t
  · subst ht
    rw [Handle.setReader_self, h]
  · rw [Handle.setReader_of_ne s ht]

theorem FrontCase.tail {g g' : Inner} {offset : UInt64} {size : Nat} {r : ReadReply}
    (h : FrontCase g offset size (.reply r g')) : g'.tail = g.tail := by
  cases h <;> rfl

@[simp] theorem finish_tail (g : Inner) (size : Nat) : (finish g size).2.tail = g.tail := by
  unfold finish
  split <;> rfl

@[simp] theorem Inner.onRecv_tail (g : Inner) (m : Option Msg) : (g.onRecv m).tail = g.tail := by
  rcases m with _ | (_ | _) <;> rfl

/-- What a step does to the tail: it issues the materialization, installs its result,
    or leaves the tail fields and the threads in flight alone. -/
inductive TailStep (s : Handle) (a : Action) : Handle → List Event → Prop
  | issue {t : Tid} {offset : UInt64} {size : Nat} {tail : TailContext} (hcheck : a = .check t)
      (hmat : Materializes s a) (hneed : needMaterialize s.tail s.inner offset = true) :
      TailStep s a (s.setReader t (.materializing offset size)) [.materialize t tail]
  | install {t : Tid} {offset : UInt64} {size : Nat} {mat : Except QueryError Bytes}
      (hno : ¬ Materializes s a) (hr : s.readers t = .installing offset size mat) :
      TailStep s a { s.setReader t (.serving offset size) with inner := s.inner.installTail mat } []
  | other {s₁ : Handle} {evs : List Event} (hno : ¬ Materializes s a)
      (hzero : materializations evs = 0) (htail : s₁.inner.tail = s.inner.tail)
      (hread : ∀ t, (s₁.readers t).inFlight = (s.readers t).inFlight) : TailStep s a s₁ evs

theorem step_tail {s s₁ : Handle} {a : Action} {evs : List Event}
    (hstep : step s a = some (s₁, evs)) : TailStep s a s₁ evs := by
  rcases step_cases hstep with ⟨_, _, ht, rfl, rfl⟩ | hr | ⟨_, _, hl, rfl, rfl⟩
  · exact .other (by rintro ⟨_, _, _, rfl, _⟩; cases ht) rfl rfl fun _ => rfl
  · cases hr with
    | checkMat hr hlock hneed htail => exact .issue rfl ⟨_, _, _, rfl, hr, hneed⟩ hneed
    | install hr hlock => exact .install (by rintro ⟨_, _, _, ⟨⟩, _⟩) hr
    | call hr _ | answer hr | servePull hr _ _ =>
      exact .other (by rintro ⟨_, _, _, ⟨⟩, _⟩) rfl rfl (inFlight_setReader (by rw [hr]; rfl))
    | checkSkip hr hlock hneed =>
      refine .other ?_ rfl rfl (inFlight_setReader (by rw [hr]; rfl))
      rintro ⟨t', _, _, ⟨⟩, hr', hneed'⟩
      rw [hr] at hr'
      cases hr'
      rw [hneed] at hneed'
      cases hneed'
    | @serveReply t offset size r g hr hlock hfront =>
      have hcase := front_cases s.inner offset size
      rw [hfront] at hcase
      exact .other (by rintro ⟨_, _, _, ⟨⟩, _⟩) rfl hcase.tail
        (inFlight_setReader (by rw [hr]; rfl))
    | recvMsg hr hmore hchan | recvEnd hr hmore hchan hdone =>
      exact .other (by rintro ⟨_, _, _, ⟨⟩, _⟩) rfl (Inner.onRecv_tail _ _) fun _ => rfl
    | finish hr hmore =>
      exact .other (by rintro ⟨_, _, _, ⟨⟩, _⟩) rfl (finish_tail _ _)
        (inFlight_setReader (by rw [hr]; rfl))
  · exact .other (by rintro ⟨_, _, _, rfl, _⟩; cases hl) rfl rfl fun _ => rfl

theorem Phase.step {s s₁ : Handle} {a : Action} {evs : List Event} {n : Nat} (h : Phase s n)
    (halone : ChecksAlone s a) (hstep : step s a = some (s₁, evs)) :
    Phase s₁ (n + materializations evs) := by
  cases step_tail hstep with
  | @issue t offset size tail hcheck hmat hneed =>
    have hnone := halone hmat
    -- the check itself rules out an earlier attempt
    obtain ⟨htried, hbuf⟩ : s.inner.tailAttempted = false ∧ s.inner.tailBuf = none := by
      simp only [needMaterialize, Bool.and_eq_true, Bool.not_eq_true', Option.isNone_iff_eq_none]
        at hneed
      exact ⟨hneed.1.1.1.2, hneed.1.1.2⟩
    have hone (t' : Tid) :
        ((s.setReader t (.materializing offset size)).readers t').inFlight = true ↔ t' = t := by
      by_cases ht : t' = t
      · subst ht
        rw [Handle.setReader_self]
        exact ⟨fun _ => rfl, fun _ => rfl⟩
      · rw [Handle.setReader_of_ne s ht, hnone]
        exact ⟨fun hf => (Bool.false_ne_true hf).elim, fun hf => absurd hf ht⟩
    cases h with
    | fresh _ _ _ => exact .flying hone htried hbuf
    | flying hone' _ _ =>
      have := (hone' _).mpr rfl
      rw [hnone] at this
      cases this
    | settled _ htried' =>
      rw [htried] at htried'
      cases htried'
  | @install t offset size mat hno hr =>
    have hfly : (s.readers t).inFlight = true := by rw [hr]; rfl
    cases h with
    | fresh hnone _ _ | settled hnone _ =>
      rw [hnone] at hfly
      cases hfly
    | flying hone htried hbuf =>
      refine .settled (fun t' => ?_) (by cases mat <;> rfl)
      by_cases ht : t' = t
      · subst ht
        rw [Handle.setReader_self]
        rfl
      · show ((s.setReader t _).readers t').inFlight = false
        rw [Handle.setReader_of_ne s ht, Bool.eq_false_iff]
        exact fun hf => ht (((hone t').mp hf).trans ((hone t).mp hfly).symm)
  | other hno hzero htail hread =>
    rw [hzero]
    exact h.frame htail hread

/-- The materialization is over, with this outcome. -/
structure Over (x : Bool × Option Bytes) (s : Handle) : Prop where
  none : ∀ t, (s.readers t).inFlight = false
  tried : s.inner.tailAttempted = true
  tail : s.inner.tail = x

theorem Over.step {s s₁ : Handle} {a : Action} {evs : List Event} {x : Bool × Option Bytes}
    (h : Over x s) (hstep : step s a = some (s₁, evs)) : Over x s₁ := by
  cases step_tail hstep with
  | issue hcheck hmat hneed => simp [needMaterialize, h.tried] at hneed
  | @install t offset size mat hno hr =>
    have := h.none t
    rw [hr] at this
    cases this
  | other hno hzero htail hread =>
    exact ⟨fun t => (hread t).trans (h.none t), (Prod.mk.inj htail).1.trans h.tried,
      htail.trans h.tail⟩

/-- `tail_buf`, once set, is the same at any later point of the run. Two buffers of different
    lengths would put the same row at different offsets. -/
def TailPinned (up : Upstream) (tail : Option TailContext) (as : List Action) : Prop :=
  ∀ as₁ as₂ as₃ tr₁ tr₂ s₁ s₂ buf, as = as₁ ++ as₂ ++ as₃ →
    sys.Exec (.spawn up tail) as₁ tr₁ s₁ → sys.Exec s₁ as₂ tr₂ s₂ →
    s₁.inner.tailBuf = some buf → s₂.inner.tailBuf = some buf

theorem materializations_append (tr₁ tr₂ : List Event) :
    materializations (tr₁ ++ tr₂) = materializations tr₁ + materializations tr₂ :=
  List.countP_append

theorem Phase.run {s s' : Handle} {as : List Action} {tr : List Event} (h : sys.Exec s as tr s')
    (halone : sys.Along ChecksAlone s as) (hs : Phase s 0) : Phase s' (materializations tr) :=
  Lts.Exec.logAlong (I := fun s log => Phase s (materializations log))
    (fun _ _ _ _ _ hI hC hstep => by rw [materializations_append]; exact hI.step hC hstep)
    h halone (show Phase s (materializations []) from hs)

/-- The other way round: whoever has the materialization in flight has issued it, so a second
    check that decides to materialize is a second one in the trace too. -/
theorem checksAlone_of_materializations {s s' : Handle} {as : List Action} {tr : List Event}
    (h : sys.Exec s as tr s') {n : Nat}
    (hn : ∀ t, (s.readers t).inFlight = true → 1 ≤ n) (hcount : n + materializations tr ≤ 1) :
    sys.Along ChecksAlone s as := by
  induction h generalizing n with
  | nil => trivial
  | @cons s s₁ s₂ a as evs tr head tail ih =>
    rw [materializations_append, ← Nat.add_assoc] at hcount
    suffices hstep : ChecksAlone s a ∧
        ∀ t, (s₁.readers t).inFlight = true → 1 ≤ n + materializations evs by
      refine ⟨hstep.1, fun s₁' evs' h' => ?_⟩
      rw [head, Option.some.injEq, Prod.mk.injEq] at h'
      exact h'.1 ▸ ih hstep.2 hcount
    cases step_tail head with
    | @issue t offset size ctx hcheck hmat hneed =>
      have hevs : materializations [.materialize t ctx] = 1 := rfl
      rw [hevs] at hcount ⊢
      refine ⟨fun _ t' => ?_, fun _ _ => by omega⟩
      rw [Bool.eq_false_iff]
      intro hf
      have := hn t' hf
      omega
    | @install t offset size mat hno hr =>
      refine ⟨fun hmat => absurd hmat hno, fun t' hf => ?_⟩
      exact Nat.le_add_right_of_le (hn t (by rw [hr]; rfl))
    | other hno hzero htail hread =>
      exact ⟨fun hmat => absurd hmat hno, fun t' hf =>
        Nat.le_add_right_of_le (hn t' (hread t' ▸ hf))⟩

/-- **One shot, exactly.** In a run of a fresh handle, `materialize_tail` is issued at
    most once and the buffer stays pinned if and only if no check decides to
    materialize while another thread has it in flight. -/
theorem one_shot_iff {up : Upstream} {tail : Option TailContext} {as : List Action}
    {tr : List Event} {s : Handle} (h : sys.Exec (.spawn up tail) as tr s) :
    materializations tr ≤ 1 ∧ TailPinned up tail as ↔
      sys.Along ChecksAlone (.spawn up tail) as := by
  have hfresh : Phase (.spawn up tail) 0 := .fresh (fun _ => rfl) rfl rfl
  constructor
  · rintro ⟨hcount, -⟩
    exact checksAlone_of_materializations h (n := 0) (fun _ hf => by cases hf) (by omega)
  · intro halone
    refine ⟨(Phase.run h halone hfresh).le_one, ?_⟩
    intro as₁ as₂ as₃ tr₁ tr₂ s₁ s₂ buf has h₁ h₂ hbuf
    subst has
    rw [List.append_assoc, Lts.Along.append h₁] at halone
    have hover : Over s₁.inner.tail s₁ := by
      have hphase := Phase.run h₁ halone.1 hfresh
      generalize materializations tr₁ = n at hphase
      cases hphase with
      | fresh _ _ hnone | flying _ _ hnone =>
        rw [hnone] at hbuf
        cases hbuf
      | settled hnone htried => exact ⟨hnone, htried, rfl⟩
    have h' := h₂.invariant (I := Over s₁.inner.tail) (fun _ _ _ _ hI hs => hI.step hs) hover
    exact (Prod.mk.inj h'.tail).2.trans hbuf

/-- Only the thread `t₀` may have the materialization in flight. -/
def InFlightIn (t₀ : Tid) (s : Handle) : Prop :=
  ∀ t, t ≠ t₀ → (s.readers t).inFlight = false

/-- A thread is in flight only by a check of its own, so it stays `t₀` alone as long as no other
    thread makes a check. -/
theorem InFlightIn.step {s s₁ : Handle} {a : Action} {evs : List Event} {t₀ : Tid}
    (h : InFlightIn t₀ s) (ha : ∀ t, a = .check t → t = t₀) (hstep : step s a = some (s₁, evs)) :
    InFlightIn t₀ s₁ := by
  intro t ht
  have hother (t' : Tid) (r : Reader) (hr : r.inFlight = true → t' = t₀) :
      ((s.setReader t' r).readers t).inFlight = false := by
    by_cases htt : t = t'
    · subst htt
      rw [Handle.setReader_self, Bool.eq_false_iff]
      exact fun hf => ht (hr hf)
    · rw [Handle.setReader_of_ne s htt]
      exact h t ht
  cases step_tail hstep with
  | issue hcheck hmat hneed => exact hother _ _ fun _ => ha _ hcheck
  | install hno hr => exact hother _ _ fun hf => by cases hf
  | other hno hzero htail hread => exact (hread t).trans (h t ht)

theorem InFlightIn.run {s s' : Handle} {as : List Action} {tr : List Event} {t₀ : Tid}
    (hrun : sys.Exec s as tr s') (hchecks : ∀ t, .check t ∈ as → t = t₀) (h : InFlightIn t₀ s) :
    InFlightIn t₀ s' := by
  have hC : ∀ a ∈ as, ∀ t, a = .check t → t = t₀ := by
    rintro a ha t rfl
    exact hchecks t ha
  exact hrun.invariantAlong (C := fun _ a => ∀ t, a = .check t → t = t₀)
    (fun _ _ _ _ hI ha hstep => hI.step ha hstep) (Lts.along_of_forall (fun a ha _ => hC a ha) s) h

/-- As long as one thread makes all the checks, none of them meets a materialization in flight:
    what is in flight is that thread's own, and meanwhile it is not at a check. The other threads
    may be anywhere else inside `read_blocking`. A simple way for a caller to be on the safe side.
    -/
theorem checksAlone_of_thread {as : List Action} {t₀ : Tid} (hchecks : ∀ t, .check t ∈ as → t = t₀)
    {s : Handle} (hs : InFlightIn t₀ s) : sys.Along ChecksAlone s as := by
  refine Lts.along_of_invariant (I := InFlightIn t₀) (P := fun a => ∀ t, a = .check t → t = t₀)
    (fun _ _ _ _ hI ha hstep => hI.step ha hstep) ?_ ?_ hs
  · rintro s a hI ha ⟨t, offset, size, rfl, hr, -⟩ t'
    by_cases ht : t' = t
    · rw [ht, hr]
      rfl
    · exact hI t' fun heq => ht (heq.trans (ha t rfl).symm)
  · rintro a ha t rfl
    exact hchecks t ha

def aTail : TailContext :=
  { db := "default", tbl := "t", orderExpr := "id", partition := none, rows := 10000 }

theorem threeBytes_le : ([1, 2, 3] : List UInt8).length ≤ Rust.isizeMax := by decide

/-- Thread 0 reads the last bytes as far as the answer is installed. Thread 1 is inside while
    thread 0 waits for it. -/
def installed : List Action :=
  [.call 0 0x7FFFFFFFFFFFFFFD 2, .call 1 0x7FFFFFFFFFFFFFFE 2, .check 0,
    .answer 0 (.ok ⟨[1, 2, 3], threeBytes_le⟩), .install 0]

/-- Both threads are served, thread 1 with a check of its own first. -/
def tailTwice : List Action := installed ++ [.check 1, .serve 0, .serve 1]

theorem one_shot_tailTwice : ∃ tr s,
    sys.Exec (.spawn (.ok ⟨[], .eof⟩) (some aTail)) tailTwice tr s ∧ tr.length = 3 ∧
    materializations tr ≤ 1 ∧ TailPinned (.ok ⟨[], .eof⟩) (some aTail) tailTwice := by
  have hrun : sys.Exec (.spawn (.ok ⟨[], .eof⟩) (some aTail)) tailTwice _ _ :=
    Lts.exec_of_isSome rfl
  have hbefore : sys.Exec (.spawn (.ok ⟨[], .eof⟩) (some aTail)) installed _ _ :=
    Lts.exec_of_isSome rfl
  refine ⟨_, _, hrun, rfl, (one_shot_iff hrun).mpr ?_⟩
  -- each thread makes the checks of one half, and the first half leaves nothing in flight
  have hchecks : ∀ t, .check t ∈ installed → t = 0 := by simp [installed]
  have hstart : InFlightIn 0 (.spawn (.ok ⟨[], .eof⟩) (some aTail)) := fun _ _ => rfl
  refine (Lts.Along.append hbefore).mpr ⟨checksAlone_of_thread hchecks hstart, ?_⟩
  have hsecond : ∀ t, .check t ∈ [Action.check 1, .serve 0, .serve 1] → t = 1 := by simp
  refine checksAlone_of_thread hsecond fun t _ => ?_
  by_cases h0 : t = 0
  · rw [h0]
    rfl
  · exact hstart.run hbefore hchecks t h0

/-- Two threads check before either installs: the table is read twice, and the window
    moves between the second read of thread 0 and the first. -/
theorem two_threads_materialize_twice :
    ¬ ∀ up tail as tr s, sys.Exec (.spawn up tail) as tr s →
      materializations tr ≤ 1 ∧ TailPinned up tail as := by
  intro hall
  let race : List Action :=
    [.call 0 0x7FFFFFFFFFFFFFFD 2, .call 1 0x7FFFFFFFFFFFFFFD 2, .check 0, .check 1,
      .answer 0 (.ok ⟨[1, 2, 3], threeBytes_le⟩), .install 0, .serve 0,
      .answer 1 (.ok ⟨[1, 2, 3, 4], by decide⟩), .install 1, .serve 1]
  have hrun := hall (.ok ⟨[], .eof⟩) (some aTail) race _ _ (Lts.exec_of_isSome rfl)
  exact absurd hrun.1 (by decide)

/-! ## The last bytes -/

def Action.isTask : Action → Bool
  | .connect | .enterSelect | .cancelled | .next | .send | .sendFails => true
  | _ => false

/-- A read that materializes the tail and gets `buf`, from the call to the reply. -/
def tailRead (t : Tid) (offset : UInt64) (size : Nat) (buf : Bytes) : List Action :=
  [.call t offset size, .check t, .answer t (.ok buf), .install t, .serve t]

/-- On a fresh handle whose tail is materialized as `buf`, the read returns bytes, whatever the
    task does meanwhile. "Whatever" is every run in which the thread's own steps are these. -/
def TailServed (up : Upstream) (tail : TailContext) (t : Tid) (buf : Bytes) (offset : UInt64)
    (size : Nat) : Prop :=
  ∀ as tr s, sys.Exec (.spawn up (some tail)) as tr s →
    as.filter (fun a => !a.isTask) = tailRead t offset size buf →
    ∃ ev out, .read ev ∈ tr ∧ ev.reply = .ok out ∧ out ≠ []

/-- What the read gets: bytes from the window's origin on, and `ReadOrder` below it. It depends on
    the buffer's length and not on what was asked for. -/
def tailReply (buf : Bytes) (offset : UInt64) (size : Nat) : ReadReply :=
  if pseudoEof.toNat - buf.len ≤ offset.toNat then .ok (windowBytes buf offset size)
  else .err (.readOrder 0 offset)

theorem front_installed {buf : Bytes} {offset : UInt64} (h : tailTriggerGap < offset)
    (size : Nat) :
    front (Inner.new.installTail (.ok buf)) offset size
      = .reply (tailReply buf offset size) (Inner.new.installTail (.ok buf)) := by
  have hoff : offset ≠ (Inner.new.installTail (.ok buf)).pos := by
    intro h0
    rw [h0] at h
    exact absurd h (by decide : ¬ tailTriggerGap < 0)
  unfold tailReply
  split
  · rename_i hin
    exact front_window rfl hoff hin size
  · rename_i hout
    have hcase := front_cases (Inner.new.installTail (.ok buf)) offset size
    generalize front (Inner.new.installTail (.ok buf)) offset size = f at hcase
    cases hcase with
    | reports hpos herr => exact absurd hpos hoff
    | pull hpos herr hcov => exact absurd hpos hoff
    | window herr hbuf hin =>
      cases hbuf
      exact absurd (bufOrigin_le_iff.mp hin) hout
    | order => rfl

/-- The handle with the task and the channel out of sight. A read that never enters the receive
    loop cannot tell the difference. -/
def Handle.view (s : Handle) : Handle := { s with task := .done, chan := [] }

theorem view_hidden {s s₁ : Handle} {a : Action} {evs : List Event} (ha : (!a.isTask) = false)
    (h : step s a = some (s₁, evs)) : s₁.view = s.view ∧ evs = [] := by
  rcases step_cases h with ⟨_, _, _, rfl, rfl⟩ | hr | ⟨_, _, hl, rfl, rfl⟩
  · exact ⟨rfl, rfl⟩
  · cases hr <;> cases ha
  · cases hl <;> cases ha

/-- Outside the receive loop a reader does not look at the task or the channel. -/
theorem ReadStep.view {s s₁ : Handle} {a : Action} {evs : List Event} (h : ReadStep s a s₁ evs)
    (ha : ∀ t, a ≠ .recv t) : ReadStep s.view a s₁.view evs := by
  cases h with
  | call h hopen => exact .call h hopen
  | checkMat h hlock hneed htail => exact .checkMat h hlock hneed htail
  | checkSkip h hlock hneed => exact .checkSkip h hlock hneed
  | answer h => exact .answer h
  | install h hlock => exact .install h hlock
  | serveReply h hlock hfront => exact .serveReply h hlock hfront
  | servePull h hlock hfront => exact .servePull h hlock hfront
  | finish h hmore => exact .finish h hmore
  | recvMsg | recvEnd => exact absurd rfl (ha _)

theorem view_visible {t : Tid} {offset : UInt64} {size : Nat} {buf : Bytes} {s s₁ : Handle}
    {a : Action} {evs : List Event} (ha : a ∈ tailRead t offset size buf)
    (h : step s a = some (s₁, evs)) : step s.view a = some (s₁.view, evs) := by
  simp only [tailRead, List.mem_cons, List.not_mem_nil, or_false] at ha
  rcases step_cases h with ⟨_, _, ht, rfl, rfl⟩ | hr | ⟨_, _, hl, rfl, rfl⟩
  · rcases ha with rfl | rfl | rfl | rfl | rfl <;> cases ht
  · refine (hr.view fun t' he => ?_).step
    rcases ha with rfl | rfl | rfl | rfl | rfl <;> cases he
  · rcases ha with rfl | rfl | rfl | rfl | rfl <;> cases hl

theorem needMaterialize_fresh {tail : TailContext} {offset : UInt64}
    (hgap : tailTriggerGap < offset) : needMaterialize (some tail) .new offset = true := by
  have hoff : offset ≠ 0 := by
    rintro rfl
    exact absurd hgap (by decide)
  have hsum : Rust.saturatingAdd 0 tailTriggerGap = tailTriggerGap := by decide
  simp [needMaterialize, Inner.new, hsum, hgap, hoff]

/-- The run of the read by itself, with no other party in it. -/
theorem exec_tailRead {s : Handle} {tail : TailContext} {t : Tid} {offset : UInt64}
    (size : Nat) (buf : Bytes) (hopen : s.life = .opened) (hlock : s.lock = none)
    (hidle : s.readers t = .idle) (hfresh : s.inner = .new) (htail : s.tail = some tail)
    (hgap : tailTriggerGap < offset) :
    ∃ g s', sys.Exec s (tailRead t offset size buf)
      [.materialize t tail, .read ⟨t, offset, size, g, tailReply buf offset size, g⟩] s' := by
  let s₁ : Handle := { s.setReader t (.checking offset size) with refs := s.refs + 1 }
  let s₂ : Handle := s₁.setReader t (.materializing offset size)
  let s₃ : Handle := s₂.setReader t (.installing offset size (.ok buf))
  let s₄ : Handle :=
    { s₃.setReader t (.serving offset size) with inner := s₃.inner.installTail (.ok buf) }
  have hr₁ : s₁.readers t = .checking offset size := Handle.setReader_self ..
  have hr₂ : s₂.readers t = .materializing offset size := Handle.setReader_self ..
  have hr₃ : s₃.readers t = .installing offset size (.ok buf) := Handle.setReader_self ..
  have hr₄ : s₄.readers t = .serving offset size := Handle.setReader_self ..
  have hneed : needMaterialize s₁.tail s₁.inner offset = true := by
    show needMaterialize s.tail s.inner offset = true
    rw [htail, hfresh]
    exact needMaterialize_fresh hgap
  have hinner : s₄.inner = Inner.new.installTail (.ok buf) := by
    show s.inner.installTail (.ok buf) = _
    rw [hfresh]
  have hfront : front s₄.inner offset size = .reply (tailReply buf offset size) s₄.inner := by
    rw [hinner]
    exact front_installed hgap size
  have hcall : sys.step s (.call t offset size) = some (s₁, []) :=
    (ReadStep.call hidle hopen).step
  have hcheck : sys.step s₁ (.check t) = some (s₂, [.materialize t tail]) :=
    (ReadStep.checkMat hr₁ hlock hneed htail).step
  have hanswer : sys.step s₂ (.answer t (.ok buf)) = some (s₃, []) := (ReadStep.answer hr₂).step
  have hinstall : sys.step s₃ (.install t) = some (s₄, []) := (ReadStep.install hr₃ hlock).step
  have hserve : sys.step s₄ (.serve t) = some (s₄.returns t s₄.inner, _) :=
    (ReadStep.serveReply hr₄ hlock hfront).step
  have hrun := Lts.Exec.cons hcall <| .cons hcheck <| .cons hanswer <| .cons hinstall <|
    .one hserve
  exact ⟨_, _, hrun⟩

/-- Whatever the task does meanwhile, the read materializes the tail and gets its reply. Hide
    the task and the channel, and the run is the read by itself. -/
theorem tailRead_events {up : Upstream} {tail : TailContext} {t : Tid} {offset : UInt64}
    {size : Nat} {buf : Bytes} {as : List Action} {tr : List Event} {s : Handle}
    (hgap : tailTriggerGap < offset) (h : sys.Exec (.spawn up (some tail)) as tr s)
    (has : as.filter (fun a => !a.isTask) = tailRead t offset size buf) :
    ∃ g, tr = [.materialize t tail, .read ⟨t, offset, size, g, tailReply buf offset size, g⟩] := by
  have hP : ∀ a ∈ as, (!a.isTask) = true → a ∈ tailRead t offset size buf := fun a ha hv =>
    has ▸ List.mem_filter.mpr ⟨ha, hv⟩
  have hview := Lts.Exec.project (π := Handle.view)
    (fun _ _ _ _ _ hv hstep => view_hidden hv hstep)
    (fun _ _ _ _ ha hv hstep => view_visible (ha hv) hstep) h hP
  rw [has] at hview
  obtain ⟨g, s', hrun⟩ := exec_tailRead (s := (Handle.spawn up (some tail)).view) (t := t) size buf
    rfl rfl rfl rfl rfl hgap
  exact ⟨g, (hview.unique hrun).2⟩

theorem windowBytes_ne_nil {buf : Bytes} {offset : UInt64} {size : Nat}
    (hin : pseudoEof.toNat - buf.len ≤ offset.toNat) (heof : offset < pseudoEof)
    (hsize : 0 < size) : windowBytes buf offset size ≠ [] := by
  have hpin := bufOrigin_add_len buf
  rw [bufOrigin_toNat] at hpin
  have hlt := UInt64.lt_iff_toNat_lt.mp heof
  apply List.ne_nil_of_length_pos
  rw [windowBytes, pread_length, ← Bytes.len]
  omega

/-- A first read above the trigger gap and below the end is served exactly if it starts in the
    window. A read that starts below it and reaches into it is refused as a whole. -/
theorem tailServed_iff_origin_le (up : Upstream) (tail : TailContext) (t : Tid) (buf : Bytes)
    {offset : UInt64} {size : Nat} (hgap : tailTriggerGap < offset) (heof : offset < pseudoEof)
    (hsize : 0 < size) :
    TailServed up tail t buf offset size ↔ pseudoEof.toNat - buf.len ≤ offset.toNat := by
  constructor
  · intro h
    obtain ⟨g, s, hrun⟩ := exec_tailRead (s := .spawn up (some tail)) (t := t) size buf
      rfl rfl rfl rfl rfl hgap
    obtain ⟨ev, out, hev, hreply, -⟩ := h _ _ _ hrun rfl
    simp only [List.mem_cons, reduceCtorEq, Event.read.injEq, List.not_mem_nil, or_false,
      false_or] at hev
    subst hev
    unfold tailReply at hreply
    split at hreply
    · assumption
    · cases hreply
  · intro hin as tr s hrun has
    obtain ⟨g, rfl⟩ := tailRead_events hgap hrun has
    refine ⟨_, windowBytes buf offset size, List.mem_cons_of_mem _ List.mem_cons_self, ?_,
      windowBytes_ne_nil hin heof hsize⟩
    simp only [tailReply, if_pos hin]

/-- **The last bytes, exactly.** A first read whose range meets the window of the buffer
    it materializes is served if and only if it starts in that window; so the last `n`
    bytes are readable if and only if the buffer has `n` bytes. -/
theorem tail_served_iff (up : Upstream) (tail : TailContext) (t : Tid) (buf : Bytes) :
    (∀ (offset : UInt64) (size : Nat), tailTriggerGap < offset → offset < pseudoEof →
      pseudoEof.toNat - buf.len < offset.toNat + size → 0 < size → buf.data ≠ [] →
      (TailServed up tail t buf offset size ↔ pseudoEof.toNat - buf.len ≤ offset.toNat)) ∧
    (∀ n, 1 ≤ n → n ≤ 32 * 1024 * 1024 → buf.data ≠ [] →
      (TailServed up tail t buf (pseudoEof - UInt64.ofNat n) n ↔ n ≤ buf.len)) := by
  refine ⟨fun offset size hgap heof _ hsize _ =>
    tailServed_iff_origin_le up tail t buf hgap heof hsize, fun n h1 hn _ => ?_⟩
  have hofNat : (UInt64.ofNat n).toNat = n := UInt64.toNat_ofNat_of_lt' (by
    show n < 2 ^ 64
    omega)
  have heof : pseudoEof.toNat = 2 ^ 63 - 1 := by decide
  have hgap : tailTriggerGap.toNat = 32 * 1024 * 1024 := by decide
  have hoff : (pseudoEof - UInt64.ofNat n).toNat = pseudoEof.toNat - n := by
    rw [UInt64.toNat_sub_of_le _ _ (UInt64.le_iff_toNat_le.mpr (by omega)), hofNat]
  have hpin := bufOrigin_add_len buf
  rw [tailServed_iff_origin_le up tail t buf (UInt64.lt_iff_toNat_lt.mpr (by omega))
    (UInt64.lt_iff_toNat_lt.mpr (by omega)) h1, hoff]
  omega

/-- A table of three bytes, and the 8 KiB that `tail` asks for. The read covers the whole table
    and gets none of it. -/
theorem short_table_rejected :
    ¬ ∀ up tail t buf n, 1 ≤ n → n ≤ 32 * 1024 * 1024 → buf.data ≠ [] →
      TailServed up tail t buf (pseudoEof - UInt64.ofNat n) n := by
  intro hall
  have hserved := hall (.ok ⟨[], .eof⟩) aTail 0 ⟨[105, 100, 10], by decide⟩ 8192 (by decide)
    (by decide) (by decide)
  exact absurd ((tailServed_iff_origin_le _ _ _ _ (by decide) (by decide) (by decide)).mp hserved)
    (by decide)

end Stream
end ClickFs
