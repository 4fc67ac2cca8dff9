import ClickFs.Fs.Handles

/-!
# One open file is no other's business

What is read from an open file is settled by what its `open` made of it and by the reads
before. The requests on other handles can be left out of a run and the rest of it is
answered as before (`exec_without`); and where the other `open`s are left out as well, the
file gets the first handle and is read through it the same.

Runs are compared and not states: two runs of the same system, of which one has some of the
requests of the other. That is the form in which a program can be said not to notice
another one. What the server answers is part of each request, so both runs meet the same
server at the same points.
-/

set_option autoImplicit false

namespace ClickFs
namespace Fs

variable {d : Deps} {fs fs' : Fs} {env : Env}

/-! ## A run without the other handles -/

/-- The request is on another handle. -/
def Op.onOther (fh : UInt64) : Op → Bool
  | .read f _ _ _ | .release f => f != fh
  | _ => false

def Action.onOther (fh : UInt64) : Action → Bool
  | .request _ op => op.onOther fh
  | .background f _ => f != fh

def Op.onFiles : Op → Bool
  | .open _ _ | .read _ _ _ _ | .release _ => true
  | _ => false

def Action.onFiles : Action → Bool
  | .request _ op => op.onFiles
  | .background _ _ => true

/-- What is seen of a request that is not on another handle: the request and the reply. -/
def Event.seen (fh : UInt64) (ev : Event) : Option (Op × Reply) :=
  if ev.op.onOther fh then none else some (ev.op, ev.reply)

/-- The two file systems differ in the other handles only. -/
def Same (fh : UInt64) (fs gs : Fs) : Prop :=
  ∃ handles, gs = { fs with handles } ∧ handles fh = fs.handles fh

theorem open_same (d : Deps) (env : Env) {fh : UInt64} {handles : UInt64 → Option FileHandle}
    (hsame : handles fh = fs.handles fh) (ino : UInt64) (flags : Int32) :
    (({ fs with handles } : Fs).open d env ino flags).1 = (fs.open d env ino flags).1 ∧
      Same fh (fs.open d env ino flags).2 (({ fs with handles } : Fs).open d env ino flags).2 := by
  have hpath : ({ fs with handles } : Fs).pathOf ino = fs.pathOf ino := rfl
  have hhandle (plan : QueryPlan) :
      ({ fs with fhCounter := fs.fhCounter + 1, handles } : Fs).openHandle d env plan
        = ({ fs with fhCounter := fs.fhCounter + 1 } : Fs).openHandle d env plan := rfl
  unfold «open»
  rw [hpath]
  split
  · exact ⟨rfl, handles, rfl, hsame⟩
  · cases fs.pathOf ino with
    | error e => exact ⟨rfl, handles, rfl, hsame⟩
    | ok path =>
      dsimp only
      cases resolve path with
      | error e => exact ⟨rfl, handles, rfl, hsame⟩
      | ok plan =>
        dsimp only
        rw [hhandle]
        cases ({ fs with fhCounter := fs.fhCounter + 1 } : Fs).openHandle d env plan with
        | error e => exact ⟨rfl, handles, rfl, hsame⟩
        | ok handle =>
          -- both are given the same number
          refine ⟨rfl, Function.update handles fs.fhCounter (some handle), rfl, ?_⟩
          by_cases hfh : fh = fs.fhCounter
          · subst hfh
            simp
          · simp [Function.update_of_ne hfh, hsame]

theorem read_same {fh : UInt64} {handles : UInt64 → Option FileHandle}
    (hsame : handles fh = fs.handles fh) {offset : Int64} {size : UInt32}
    {sched : List Stream.Action} {reply : Reply}
    (h : fs.read fh offset size sched = some (reply, fs')) :
    ∃ gs, ({ fs with handles } : Fs).read fh offset size sched = some (reply, gs) ∧ Same fh fs' gs := by
  rw [read_eq] at h
  rw [read_eq]
  dsimp only
  rw [hsame]
  cases hfh : fs.handles fh with
  | none =>
    rw [hfh] at h
    cases h
    exact ⟨_, rfl, handles, rfl, hsame⟩
  | some handle =>
    rw [hfh, Option.map_eq_some_iff] at h
    obtain ⟨⟨reply', handle'⟩, hread, heq⟩ := h
    cases heq
    simp only [hread, Option.map_some]
    exact ⟨_, rfl, Function.update handles fh (some handle'), rfl, by simp⟩

theorem background_same {fh : UInt64} {handles : UInt64 → Option FileHandle}
    (hsame : handles fh = fs.handles fh) {sched : List Stream.Action}
    (h : fs.background fh sched = some fs') :
    ∃ gs, ({ fs with handles } : Fs).background fh sched = some gs ∧ Same fh fs' gs := by
  rw [background_eq, Option.map_eq_some_iff] at h
  obtain ⟨handle, hmoved, rfl⟩ := h
  rw [background_eq]
  dsimp only
  rw [hsame, hmoved, Option.map_some]
  exact ⟨_, rfl, Function.update handles fh (some handle), rfl, by simp⟩

/-- A step that is not on another handle is taken without the others as well. -/
theorem step_same {a : Action} {fh : UInt64} {gs : Fs} {evs : List Event} (ha : a.onFiles = true)
    (hother : a.onOther fh = false) (hsame : Same fh fs gs)
    (hstep : (sys d).step fs a = some (fs', evs)) :
    ∃ gs' evs', (sys d).step gs a = some (gs', evs') ∧ Same fh fs' gs' ∧
      evs'.filterMap (Event.seen fh) = evs.filterMap (Event.seen fh) := by
  obtain ⟨handles, rfl, hsame⟩ := hsame
  cases a with
  | request env op =>
    obtain ⟨reply, hserve, rfl⟩ := step_request hstep
    have hreply : ∃ gs, ({ fs with handles } : Fs).serve d env op = some (reply, gs) ∧
        Same fh fs' gs := by
      cases op with
      | «open» ino flags =>
        obtain ⟨hreply, hopened⟩ := open_same d env hsame ino flags
        have hopen : fs.open d env ino flags = (reply, fs') := Option.some.inj hserve
        rw [hopen] at hreply hopened
        generalize hgs : ({ fs with handles } : Fs).open d env ino flags = r at hreply hopened
        obtain ⟨reply', gs⟩ := r
        obtain rfl : reply' = reply := hreply
        exact ⟨gs, congrArg some hgs, hopened⟩
      | read f offset size sched =>
        obtain rfl : f = fh := by simpa [Action.onOther, Op.onOther] using hother
        exact read_same hsame hserve
      | release f =>
        obtain rfl : f = fh := by simpa [Action.onOther, Op.onOther] using hother
        cases hserve
        exact ⟨_, rfl, Function.update handles f none, rfl, by simp⟩
      | lookup | getattr | readdir => cases ha
    obtain ⟨gs, hreply, hgs⟩ := hreply
    refine ⟨gs, [⟨env, op, { fs with handles }, reply, gs⟩], ?_, hgs, rfl⟩
    simp only [sys, step, hreply]
  | background f sched =>
    obtain rfl : f = fh := by simpa [Action.onOther] using hother
    obtain ⟨hbackground, rfl⟩ := step_background hstep
    obtain ⟨gs, hmoved, hgs⟩ := background_same hsame hbackground
    exact ⟨gs, [], by simp only [sys, step, hmoved, Option.map_some], hgs, rfl⟩

theorem step_other {a : Action} {fh : UInt64} {gs : Fs} {evs : List Event}
    (hother : a.onOther fh = true) (hsame : Same fh fs gs)
    (hstep : (sys d).step fs a = some (fs', evs)) :
    Same fh fs' gs ∧ evs.filterMap (Event.seen fh) = [] := by
  obtain ⟨handles, rfl, hsame⟩ := hsame
  have hupdate {f : UInt64} (hf : fh ≠ f) (handle : Option FileHandle) :
      Same fh { fs with handles := Function.update fs.handles f handle } { fs with handles } :=
    ⟨handles, rfl, hsame.trans (Function.update_of_ne hf _ _).symm⟩
  cases a with
  | request env op =>
    obtain ⟨reply, hserve, rfl⟩ := step_request hstep
    have hseen : [Event.mk env op fs reply fs'].filterMap (Event.seen fh) = [] := by
      have hon : op.onOther fh = true := hother
      simp [Event.seen, hon]
    refine ⟨?_, hseen⟩
    cases serve_files hserve with
    | other hopen hon hhandles hcounter =>
      cases op with
      | read | release => simp [Op.isOn] at hon
      | lookup | getattr | readdir | «open» => cases hother
    | refused | opened => cases hother
    | unknown => exact ⟨handles, rfl, hsame⟩
    | @read f | @release f =>
      have hf : f ≠ fh := by simpa [Action.onOther, Op.onOther] using hother
      exact hupdate hf.symm _
  | background f sched =>
    have hf : f ≠ fh := by simpa [Action.onOther] using hother
    obtain ⟨hbackground, rfl⟩ := step_background hstep
    rw [background_eq, Option.map_eq_some_iff] at hbackground
    obtain ⟨handle, -, rfl⟩ := hbackground
    exact ⟨hupdate hf.symm _, rfl⟩

/-- The requests on other handles can be left out: the rest is answered as before. The induction
    keeps the two states alike but for the other handles. -/
theorem exec_without {acts : List Action} {tr : List Event} (hrun : (sys d).Exec fs acts tr fs')
    (hacts : ∀ a ∈ acts, a.onFiles = true) (fh : UInt64) :
    ∃ tr' gs', (sys d).Exec fs (acts.filter fun a => !a.onOther fh) tr' gs' ∧
      tr'.filterMap (Event.seen fh) = tr.filterMap (Event.seen fh) := by
  have hwithout : ∃ tr' gs', (sys d).Exec fs (acts.filter fun a => !a.onOther fh) tr' gs' ∧
      Same fh fs' gs' ∧ tr'.filterMap (Event.seen fh) = tr.filterMap (Event.seen fh) := by
    refine hrun.purge (P := fun a => a.onFiles = true) ?_ ?_ hacts ⟨fs.handles, rfl, rfl⟩
    · intro s t a s₁ evs _ hvis hsame hstep
      exact step_other (by simpa using hvis) hsame hstep
    · intro s t a s₁ evs ha hvis hsame hstep
      exact step_same ha (by simpa using hvis) hsame hstep
  obtain ⟨tr', gs', hrun', -, hseen⟩ := hwithout
  exact ⟨tr', gs', hrun', hseen⟩

/-! ## A handle on its own -/

/-- The action as it is when the handle has another number, unless it is off the handle. -/
def Action.alone (fh fh' : UInt64) : Action → Option Action
  | .request env (.read f offset size sched) =>
    if f = fh then some (.request env (.read fh' offset size sched)) else none
  | .request env (.release f) => if f = fh then some (.request env (.release fh')) else none
  | .background f sched => if f = fh then some (.background fh' sched) else none
  | _ => none

theorem onFile_alone (fh fh' : UInt64) (a : Action) :
    (a.alone fh fh').bind (Action.onFile fh') = a.onFile fh := by
  cases a with
  | request env op =>
    cases op with
    | read f | release f =>
      simp only [Action.alone, Action.onFile]
      split <;> simp [Action.onFile]
    | lookup | getattr | readdir | «open» => rfl
  | background f sched =>
    simp only [Action.alone, Action.onFile]
    split <;> simp [Action.onFile]

theorem isSome_of_alone {fh fh' : UInt64} {a b : Action} (h : a.alone fh fh' = some b) :
    (b.onFile fh').isSome = true := by
  have hon : a.onFile fh = b.onFile fh' := by
    rw [← onFile_alone fh fh' a, h, Option.bind_some]
  rw [← hon]
  cases a with
  | request env op =>
    cases op with
    | read f | release f =>
      simp only [Action.alone, Option.ite_none_right_eq_some] at h
      simp [Action.onFile, h.1]
    | lookup | getattr | readdir | «open» => cases h
  | background f sched =>
    simp only [Action.alone, Option.ite_none_right_eq_some] at h
    simp [Action.onFile, h.1]

/-- `open`, `read` and `release` change nothing but the open files, so an inode stands for the
    same path all along. -/
theorem exec_onlyFiles {acts : List Action} {tr : List Event} (hrun : (sys d).Exec fs acts tr fs')
    (hacts : ∀ a ∈ acts, a.onFiles = true) : OnlyFiles fs fs' := by
  induction hrun with
  | nil fs => exact .refl fs
  | @cons fs fs₁ fs' a acts evs tr head tail ih =>
    have ha := hacts a List.mem_cons_self
    have hhead : OnlyFiles fs fs₁ := by
      cases a with
      | request env op =>
        obtain ⟨reply, hserve, -⟩ := step_request head
        have hop : op.namesFiles = false := by
          cases op with
          | «open» | read | release => rfl
          | lookup | getattr | readdir => cases ha
        exact serve_onlyFiles hop hserve
      | background fh sched => exact background_onlyFiles (step_background head).1
    exact hhead.trans (ih fun b hb => hacts b (List.mem_cons_of_mem _ hb))

/-- The `open` returned the handle, for a file with this plan, of which it made this. -/
structure Creates (d : Deps) (ev : Event) (fh : UInt64) (plan : QueryPlan) (handle : FileHandle) :
    Prop where
  file : ∃ ino flags path, ev.op = .open ino flags ∧ flags &&& oAccmode = 0 ∧
    ev.before.inodes.forward ino = some path ∧ resolve path = .ok plan
  made : ev.before.openHandle d ev.env plan = .ok handle
  counter : fh = ev.before.fhCounter
  handles : ev.after.handles fh = some handle

theorem creates_of_opens {ev : Event}
    (hserve : ev.before.serve d ev.env ev.op = some (ev.reply, ev.after)) {fh : UInt64}
    (hopens : ev.Opens fh) : ∃ plan handle, Creates d ev fh plan handle := by
  obtain ⟨env, op, before, reply, after⟩ := ev
  obtain ⟨hopen, flags', hreply⟩ := hopens
  have hcase : FileCase d before env op reply after := serve_files hserve
  cases hcase with
  | other hnot => cases hnot.symm.trans hopen
  | refused => cases hreply
  | opened hflags hpath hplan hhandle =>
    cases hreply
    exact ⟨_, _, ⟨_, _, _, rfl, hflags, hpath, hplan⟩, hhandle, rfl, Function.update_self ..⟩
  | unknown | read | release => cases hopen

/-- The file is opened in the same way wherever its inode is known. The handle it gets may be
    another one. -/
theorem open_of_creates {ev : Event} {fh : UInt64} {plan : QueryPlan} {handle : FileHandle}
    (h : Creates d ev fh plan handle) (hsame : OnlyFiles fs ev.before) :
    ∃ ev', (sys d).step fs (.request ev.env ev.op) = some (ev'.after, [ev']) ∧
      ev'.Opens fs.fhCounter ∧ ev'.after.handles fs.fhCounter = some handle := by
  obtain ⟨env, op, before, reply, after⟩ := ev
  obtain ⟨ino, flags, path, rfl, hflags, hpath, hplan⟩ := h.file
  obtain ⟨counter, handles, rfl⟩ := hsame
  have hopen : fs.open d env ino flags = _ := open_eq hflags hpath hplan h.made
  have hserve : fs.serve d env (.open ino flags) = some (fs.open d env ino flags) := rfl
  rw [hopen] at hserve
  refine ⟨⟨env, .open ino flags, fs, _, _⟩, step_of_serve hserve, ⟨rfl, _, rfl⟩, ?_⟩
  exact Function.update_self ..

theorem opens_iff {ev : Event} (hserve : ev.before.serve d ev.env ev.op = some (ev.reply, ev.after))
    {ino : UInt64} {flags : Int32} (hop : ev.op = .open ino flags) :
    (∃ fh, ev.Opens fh) ↔ ¬ Unopenable ev.before ev.env ino flags := by
  rw [hop] at hserve
  have hreply : (ev.before.open d ev.env ino flags).1 = ev.reply :=
    congrArg Prod.fst (Option.some.inj hserve)
  rw [← open_ok_iff (d := d), hreply]
  simp only [Event.Opens, hop, Op.isOpen, true_and]

theorem failed_of_not_opens {ev : Event}
    (hserve : ev.before.serve d ev.env ev.op = some (ev.reply, ev.after)) {ino : UInt64}
    {flags : Int32} (hop : ev.op = .open ino flags) (hfailed : ¬ ∃ fh, ev.Opens fh) :
    (∃ e, ev.reply = .error e) ∧ ev.after.handles = ev.before.handles := by
  have hwhy : Unopenable ev.before ev.env ino flags :=
    not_not.mp fun hnot => hfailed ((opens_iff hserve hop).mpr hnot)
  rw [hop] at hserve
  have hopen : ev.before.open d ev.env ino flags = (ev.reply, ev.after) := Option.some.inj hserve
  have hleft := open_failed (d := d) hwhy
  rwa [hopen] at hleft

/-! ## What a read is answered with -/

/-- The reply is `EBADF`. -/
def Reply.IsEbadf : Reply → Prop
  | .error .ebadf => True
  | .error (.os raw) => raw = 9
  | _ => False

theorem clickhouseCodeToErrno_not_ebadf (code : Int32) :
    ¬ (Reply.error (clickhouseCodeToErrno code)).IsEbadf := by
  unfold clickhouseCodeToErrno
  repeat' split
  all_goals exact id

theorem err_not_ebadf {e : ClickFsError} (h : ∀ raw, e ≠ .io raw) : ¬ (Reply.err e).IsEbadf := by
  cases e with
  | io raw => exact absurd rfl (h raw)
  | query e =>
    cases e with
    | clickHouse code => exact clickhouseCodeToErrno_not_ebadf code
    | server status =>
      simp only [Reply.err, ClickFsError.toErrno]
      repeat' split
      all_goals exact id
    | transport | auth | stream => exact id
  | notFound | notADir | readOnly | readOrder | invalidIdentifier | cancelled | internal => exact id

theorem readBlocking_noIo {s s' : Stream.Handle} {offset : UInt64} {size : Nat}
    {sched : List Stream.Action} {r : Stream.ReadReply}
    (h : readBlocking s offset size sched = some (r, s')) : r.NoIo := by
  unfold readBlocking at h
  split at h
  · split at h
    · cases h
    · rename_i hrun
      split at h
      · rename_i hlast
        cases h
        exact Stream.exec_noIo (Lts.exec_of_run hrun) _ (List.mem_of_getLast? hlast)
      · cases h
  · cases h

/-- A file that is open is not answered with `EBADF`, whatever the server says. A code of its own
    would have to be mapped to that errno, and none is. -/
theorem fileRead_not_ebadf {offset : Int64} {size : UInt32} {sched : List Stream.Action}
    {handle handle' : FileHandle} {reply : Reply}
    (h : fileRead offset size sched handle = some (reply, handle')) : ¬ reply.IsEbadf := by
  cases handle with
  | special bytes =>
    cases h
    exact id
  | stream s =>
    obtain ⟨⟨r, s'⟩, hread, heq⟩ := Option.map_eq_some_iff.mp h
    cases heq
    have hnoIo := readBlocking_noIo hread
    cases r with
    | ok | panicked => exact id
    | err e =>
      refine err_not_ebadf fun raw he => ?_
      subst he
      exact hnoIo

/-- A read is answered with `EBADF` when its handle is not in the table. -/
theorem read_ebadf_iff {fh : UInt64} {offset : Int64} {size : UInt32} {sched : List Stream.Action}
    {reply : Reply} (h : fs.read fh offset size sched = some (reply, fs')) :
    reply.IsEbadf ↔ fs.handles fh = none := by
  rw [read_eq] at h
  cases hfh : fs.handles fh with
  | none =>
    rw [hfh] at h
    cases h
    exact ⟨fun _ => rfl, fun _ => trivial⟩
  | some handle =>
    rw [hfh, Option.map_eq_some_iff] at h
    obtain ⟨⟨reply', handle'⟩, hread, heq⟩ := h
    cases heq
    exact ⟨fun hebadf => absurd hebadf (fileRead_not_ebadf hread), fun hnone => by cases hnone⟩

/-- `.schema` and `README.md` are rendered when they are opened, so no later answer of the server
    can change them. -/
theorem special_of_openHandle {plan : QueryPlan} {handle : FileHandle}
    (hspecial : plan.isSpecialFile = true) (h : fs.openHandle d env plan = .ok handle) :
    ∃ bytes, handle = .special bytes := by
  obtain ⟨kind, db, table⟩ := plan
  cases kind with
  | describeTable =>
    simp only [openHandle] at h
    split at h <;> cases h
    exact ⟨_, rfl⟩
  | readme =>
    cases h
    exact ⟨_, rfl⟩
  | root | dbNamespace | listTables | listPartitions | streamAll | streamPartition => cases hspecial

/-- What was rendered stays as it is until it is released, and each read gets its slice of it. -/
theorem file_special {bytes : List UInt8} {bs : List FileAction} {replies : List Reply}
    {x x' : Option FileHandle} (h : file.Exec x bs replies x')
    (hx : ∀ handle, x = some handle → handle = .special bytes) :
    ∀ handle, x' = some handle → handle = .special bytes := by
  refine h.invariant (I := fun x => ∀ handle, x = some handle → handle = .special bytes) ?_ hx
  intro x b x₁ evs hx hstep
  cases x with
  | none =>
    cases b with
    | read | release =>
      cases hstep
      intro handle hhandle
      cases hhandle
    | background => cases hstep
  | some handle =>
    obtain rfl := hx handle rfl
    cases b with
    | read =>
      cases hstep
      intro handle hhandle
      exact (Option.some.inj hhandle).symm
    | release =>
      cases hstep
      intro handle hhandle
      cases hhandle
    | background => cases hstep

/-! ## Isolation -/

/-- An `open` gives out a handle that was not given out before. -/
theorem opens_fresh {acts : List Action} {tr tr₁ tr₂ : List Event} {ev : Event} {fh : UInt64}
    (hrun : (sys d).Exec fs acts tr fs')
    (hroom : fs.fhCounter.toNat + acts.countP Action.isOpen < 2 ^ 64) (htr : tr = tr₁ ++ ev :: tr₂)
    (hopens : ev.Opens fh) : ∀ ev' ∈ tr₁, ¬ ev'.Opens fh := by
  obtain ⟨acts₁, acts₂, rfl, hbefore, hserve, -⟩ := exec_cut hrun htr
  obtain ⟨plan, handle, hcreates⟩ := creates_of_opens hserve hopens
  -- what was given out before is below the counter, which is what is given out now
  rw [List.countP_append] at hroom
  obtain ⟨-, -, hgiven⟩ := exec_counter hbefore (by omega)
  intro ev' hev' hopens'
  have hlt := (hgiven ev' hev' fh hopens').2
  rw [hcreates.counter] at hlt
  exact lt_irrefl _ hlt

/-- Nor is a handle given out again later in the run. -/
theorem not_opens_after {acts : List Action} {tr tr₁ tr₂ : List Event} {ev : Event} {fh : UInt64}
    (hrun : (sys d).Exec fs acts tr fs')
    (hroom : fs.fhCounter.toNat + acts.countP Action.isOpen < 2 ^ 64) (htr : tr = tr₁ ++ ev :: tr₂)
    (hopens : ev.Opens fh) : ∀ ev' ∈ tr₂, ¬ ev'.Opens fh := by
  intro ev' hev' hopens'
  obtain ⟨tr₃, tr₄, rfl⟩ := List.append_of_mem hev'
  have hsplit : tr = (tr₁ ++ ev :: tr₃) ++ ev' :: tr₄ := by
    rw [htr, List.append_assoc, List.cons_append]
  exact opens_fresh hrun hroom hsplit hopens' ev (by simp) hopens

/-- A run of the file alone, from its `open` on. -/
theorem exec_alone {ev : Event} {fh : UInt64} {plan : QueryPlan} {handle : FileHandle}
    (hcreates : Creates d ev fh plan handle) (hsame : OnlyFiles fs ev.before) {acts : List Action}
    {replies : List Reply} {x' : Option FileHandle}
    (hfile : file.Exec (some handle) (acts.filterMap (Action.onFile fh)) replies x') :
    ∃ ev' tr' gs, (sys d).Exec fs
        (.request ev.env ev.op :: acts.filterMap (Action.alone fh fs.fhCounter)) (ev' :: tr') gs ∧
      ev'.Opens fs.fhCounter ∧ repliesOn fs.fhCounter tr' = replies := by
  obtain ⟨ev', hstep, hopens, hhandle⟩ := open_of_creates hcreates hsame
  have hacts : ∀ a ∈ acts.filterMap (Action.alone fh fs.fhCounter),
      (a.onFile fs.fhCounter).isSome = true := by
    intro a ha
    obtain ⟨b, -, hb⟩ := List.mem_filterMap.mp ha
    exact isSome_of_alone hb
  -- under the new number the file is asked for the same
  have hrenamed : (acts.filterMap (Action.alone fh fs.fhCounter)).filterMap
      (Action.onFile fs.fhCounter) = acts.filterMap (Action.onFile fh) := by
    rw [List.filterMap_filterMap]
    congr 1
    funext a
    exact onFile_alone fh fs.fhCounter a
  rw [← hhandle, ← hrenamed] at hfile
  obtain ⟨tr', gs, hrun, hreplies⟩ := exec_of_file (d := d) hacts hfile
  exact ⟨ev', tr', gs, .cons hstep hrun, hopens, hreplies⟩

/-- A special file is read as what was rendered, for as long as it is open. -/
theorem read_special {acts : List Action} {tr₁ tr₂ : List Event} {ev ev' : Event} {fh : UInt64}
    {plan : QueryPlan} {bytes : List UInt8} (hempty : ∀ fh, fs.handles fh = none)
    (hrun : (sys d).Exec fs acts (tr₁ ++ ev :: tr₂) ev'.before) (hopens : ev.Opens fh)
    (hcreates : Creates d ev fh plan (.special bytes)) (hagain : ∀ e ∈ tr₂, ¬ e.Opens fh)
    (hkept : ∀ e ∈ tr₂, e.op ≠ .release fh) {offset : Int64} {size : UInt32}
    {sched : List Stream.Action} (hop : ev'.op = .read fh offset size sched)
    (hserve : ev'.before.serve d ev'.env ev'.op = some (ev'.reply, ev'.after)) :
    ev'.reply = .data ((bytes.drop (max offset 0).toInt.toNat).take size.toNat) := by
  obtain ⟨acts₁, acts₂, -, -, -, hafter⟩ := exec_cut hrun rfl
  -- something is open, and it can only be what was rendered
  have hopen : ev'.before.handles fh ≠ none :=
    (exec_isOpen hrun hempty fh).mpr ⟨tr₁, ev, tr₂, rfl, hopens, hkept⟩
  obtain ⟨handle, hhandle⟩ := Option.ne_none_iff_exists'.mp hopen
  have hspecial : handle = .special bytes := by
    refine file_special (exec_file hafter hagain) ?_ handle hhandle
    intro handle₀ hhandle₀
    exact Option.some.inj (hhandle₀.symm.trans hcreates.handles)
  subst hspecial
  rw [hop] at hserve
  have hread : ev'.before.read fh offset size sched = some (ev'.reply, ev'.after) := hserve
  simp only [read_eq, hhandle, fileRead, Option.map_some, Option.some.injEq, Prod.mk.injEq] at hread
  exact hread.1.symm

/-- A run that begins with no file open, as the clauses one would ask of open files. -/
structure Isolated (d : Deps) (fs₀ : Fs) (acts : List Action) (tr : List Event) (fs' : Fs) :
    Prop where
  /-- An `open` never returns a handle that was returned before. -/
  fresh : ∀ tr₁ ev tr₂ fh, tr = tr₁ ++ ev :: tr₂ → ev.Opens fh → ∀ ev' ∈ tr₁, ¬ ev'.Opens fh
  /-- It returns one unless there is a reason not to. -/
  opens : ∀ ev ∈ tr, ∀ ino flags, ev.op = .open ino flags →
    ((∃ fh, ev.Opens fh) ↔ ¬ Unopenable ev.before ev.env ino flags)
  /-- Where it fails, the open files stay as they are. -/
  failed : ∀ ev ∈ tr, ∀ ino flags, ev.op = .open ino flags → (¬ ∃ fh, ev.Opens fh) →
    (∃ e, ev.reply = .error e) ∧ ev.after.handles = ev.before.handles
  /-- A read is answered with `EBADF` when its handle was not returned, or was released. -/
  ebadf : ∀ tr₁ ev tr₂ fh offset size sched, tr = tr₁ ++ ev :: tr₂ →
    ev.op = .read fh offset size sched → (ev.reply.IsEbadf ↔ ¬ IsOpen tr₁ fh)
  /-- From the `open` on, what is replied on a handle is made of what that `open` made and of
      the requests on the handle; with nothing else in the run it is the same. -/
  alone : ∀ tr₁ ev tr₂ fh, tr = tr₁ ++ ev :: tr₂ → ev.Opens fh →
    ∃ plan handle acts₁ acts₂, Creates d ev fh plan handle ∧
      acts = acts₁ ++ .request ev.env ev.op :: acts₂ ∧
      file.Exec (some handle) (acts₂.filterMap (Action.onFile fh)) (repliesOn fh tr₂)
        (fs'.handles fh) ∧
      ∃ ev' tr' gs, (sys d).Exec fs₀
          (.request ev.env ev.op :: acts₂.filterMap (Action.alone fh fs₀.fhCounter)) (ev' :: tr') gs ∧
        ev'.Opens fs₀.fhCounter ∧ repliesOn fs₀.fhCounter tr' = repliesOn fh tr₂
  /-- Without the requests on other handles, the rest is answered as before. -/
  without : ∀ fh, ∃ tr' gs, (sys d).Exec fs₀ (acts.filter fun a => !a.onOther fh) tr' gs ∧
    tr'.filterMap (Event.seen fh) = tr.filterMap (Event.seen fh)
  /-- A special file is read as what was rendered when it was opened. -/
  special : ∀ tr₁ ev tr₂ fh plan handle, tr = tr₁ ++ ev :: tr₂ → ev.Opens fh →
    Creates d ev fh plan handle → plan.isSpecialFile = true →
    ∃ bytes, handle = .special bytes ∧
      ∀ tr₃ ev' tr₄ offset size sched, tr₂ = tr₃ ++ ev' :: tr₄ →
        ev'.op = .read fh offset size sched → (∀ ev'' ∈ tr₃, ev''.op ≠ .release fh) →
        ev'.reply = .data ((bytes.drop (max offset 0).toInt.toNat).take size.toNat)

/-- **Isolation.** A run of `open`, `read` and `release`, with inodes and handles of any kind
    and fewer opens than there are handles, keeps its open files apart. -/
theorem open_files_isolated (d : Deps) {fs₀ : Fs} (hempty : ∀ fh, fs₀.handles fh = none)
    (hcounter : fs₀.fhCounter = 1) {acts : List Action} (hacts : ∀ a ∈ acts, a.onFiles = true)
    (hopens : acts.countP Action.isOpen < 2 ^ 64 - 1) {tr : List Event} {fs' : Fs}
    (hrun : (sys d).Exec fs₀ acts tr fs') : Isolated d fs₀ acts tr fs' := by
  have hroom : fs₀.fhCounter.toNat + acts.countP Action.isOpen < 2 ^ 64 := by
    rw [hcounter, show (1 : UInt64).toNat = 1 from rfl]
    omega
  have hserved (ev : Event) (hev : ev ∈ tr) :
      ev.before.serve d ev.env ev.op = some (ev.reply, ev.after) := by
    obtain ⟨tr₁, tr₂, htr⟩ := List.append_of_mem hev
    obtain ⟨acts₁, acts₂, -, -, hserve, -⟩ := exec_cut hrun htr
    exact hserve
  constructor
  case fresh =>
    intro tr₁ ev tr₂ fh htr hev
    exact opens_fresh hrun hroom htr hev
  case opens =>
    intro ev hev ino flags hop
    exact opens_iff (hserved ev hev) hop
  case failed =>
    intro ev hev ino flags hop hfailed
    exact failed_of_not_opens (hserved ev hev) hop hfailed
  case ebadf =>
    intro tr₁ ev tr₂ fh offset size sched htr hop
    obtain ⟨acts₁, acts₂, -, hbefore, hserve, -⟩ := exec_cut hrun htr
    rw [hop] at hserve
    rw [read_ebadf_iff hserve, ← exec_isOpen hbefore hempty fh, not_not]
  case alone =>
    intro tr₁ ev tr₂ fh htr hev
    obtain ⟨acts₁, acts₂, hsplit, hbefore, hserve, hafter⟩ := exec_cut hrun htr
    obtain ⟨plan, handle, hcreates⟩ := creates_of_opens hserve hev
    have hfile := exec_file hafter (not_opens_after hrun hroom htr hev)
    rw [hcreates.handles] at hfile
    have hbeforeFiles : ∀ a ∈ acts₁, a.onFiles = true := fun a ha =>
      hacts a (hsplit ▸ List.mem_append_left _ ha)
    exact ⟨plan, handle, acts₁, acts₂, hcreates, hsplit, hfile,
      exec_alone hcreates (exec_onlyFiles hbefore hbeforeFiles) hfile⟩
  case without =>
    intro fh
    exact exec_without hrun hacts fh
  case special =>
    intro tr₁ ev tr₂ fh plan handle htr hev hcreates hspecial
    obtain ⟨bytes, rfl⟩ := special_of_openHandle hspecial hcreates.made
    refine ⟨bytes, rfl, ?_⟩
    intro tr₃ ev' tr₄ offset size sched htr₂ hop hkept
    have hagain := not_opens_after hrun hroom htr hev
    subst htr₂
    have hsplit : tr = (tr₁ ++ ev :: tr₃) ++ ev' :: tr₄ := by
      rw [htr, List.append_assoc, List.cons_append]
    obtain ⟨acts₁, acts₂, -, hbefore, hserve, -⟩ := exec_cut hrun hsplit
    exact read_special hempty hbefore hev hcreates
      (fun e he => hagain e (List.mem_append_left _ he)) hkept hop hserve

namespace Sample

/-- Inode 7 is the description of a table. -/
def described : Fs :=
  { mount with inodes :=
      { mount.inodes with
          forward := Function.update mount.inodes.forward 7
            (some ⟨["db", "default", "events", ".schema"].map Component.normal⟩) } }

/-- The server that describes the table so. -/
def describing (text : String) : Env := { server with query := fun _ => .ok text }

/-- Two descriptors of the one file, opened before and after it changed, with a directory
    that fails in between; the first is released and read again. -/
def twoReaders : List Action :=
  [.request (describing "id") (.open 7 0), .request server (.open 1 0),
    .request (describing "id, name") (.open 7 0), .request server (.read 1 0 4 []),
    .request server (.read 3 4 4 []), .request server (.release 1),
    .request server (.read 1 0 4 []), .request server (.read 3 8 4 [])]

end Sample

/-- The first descriptor has handle 1 and the second handle 3: the directory is refused when
    the counter has moved. -/
theorem open_files_isolated_readers : ∃ tr fs',
    (sys Sample.deps).Exec Sample.described Sample.twoReaders tr fs' ∧
    Isolated Sample.deps Sample.described Sample.twoReaders tr fs' := by
  have hrun : (sys Sample.deps).Exec Sample.described Sample.twoReaders _ _ :=
    Lts.exec_of_isSome (by decide +kernel)
  exact ⟨_, _, hrun, open_files_isolated Sample.deps (fun _ => rfl) rfl (by decide) (by decide) hrun⟩

end Fs
end ClickFs
