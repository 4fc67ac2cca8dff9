import ClickFs.Fs.Serve
import ClickFs.Stream.Steps

/-!
# The open files

Every open file is a machine of its own (`file`): what was rendered or spawned at `open`,
read and released, with nothing else to look at. The table of open files is one such
machine for each handle, side by side: what a run does on one handle is a run of its
machine (`exec_file`), and a run of the machine is done by its requests alone, in whatever
file system the handle is open (`exec_of_file`). Handles are numbered by a counter that a
failed `open` may have moved too, and no number is given out twice (`exec_counter`).
-/

set_option autoImplicit false

namespace ClickFs

open Rust Driver Inode

/-! ## What a read can fail with -/

namespace Stream

/-- Reads fail with what the server said, or with the order of the reads. No read of a stream
    fails with an errno of its own making. -/
def ReadReply.NoIo : ReadReply → Prop
  | .err (.io _) => False
  | _ => True

theorem tailHit_noIo {buf : Bytes} {offset : UInt64} {size : Nat} {r : ReadReply}
    (h : tailHit buf offset size = some r) : r.NoIo := by
  unfold tailHit at h
  split at h
  · split at h
    · cases h
      trivial
    · dsimp only at h
      split at h
      · cases h
        trivial
      · split at h <;> cases h <;> trivial
  · split at h
    · cases h
      trivial
    · cases h

theorem front_noIo {g g' : Inner} {offset : UInt64} {size : Nat} {r : ReadReply}
    (h : front g offset size = .reply r g') : r.NoIo := by
  unfold front at h
  split at h
  · cases h
    trivial
  · split at h
    · rename_i hhit
      cases h
      obtain ⟨buf, -, hhit⟩ := Option.bind_eq_some_iff.mp hhit
      exact tailHit_noIo hhit
    · split at h
      · cases h
        trivial
      · cases h

theorem finish_noIo (g : Inner) (size : Nat) : (finish g size).1.NoIo := by
  unfold finish
  split <;> trivial

theorem exec_noIo {s s' : Handle} {as : List Action} {tr : List Event} (h : sys.Exec s as tr s') :
    ∀ ev, .read ev ∈ tr → ev.reply.NoIo := by
  have hall : ∀ e ∈ tr, ∀ ev, e = .read ev → ev.reply.NoIo := by
    refine h.eventsAlong (I := fun _ => True) (C := fun _ _ => True) ?_
      (Lts.along_of_forall (fun _ _ _ => trivial) s) trivial
    intro s a s₁ evs _ _ hstep
    refine ⟨trivial, fun e he ev hev => ?_⟩
    subst hev
    rcases step_cases hstep with ⟨_, _, _, _, rfl⟩ | hread | ⟨_, _, _, _, rfl⟩
    · cases he
    · cases hread with
      | serveReply _ _ hfront =>
        cases List.mem_singleton.mp he
        exact front_noIo hfront
      | finish =>
        cases List.mem_singleton.mp he
        exact finish_noIo _ _
      | checkMat => cases List.mem_singleton.mp he
      | call | checkSkip | answer | install | servePull | recvMsg | recvEnd => cases he
    · cases he
  exact fun ev hev => hall _ hev ev rfl

end Stream

namespace Fs

/-! ## One open file -/

/-- What a stream's read is answered with. -/
def streamReply : Stream.ReadReply → Reply
  | .ok buf => .data buf
  | .err e => .err e
  | .panicked => .panicked

/-- A read of an open file, by what is open and by nothing else. -/
def fileRead (offset : Int64) (size : UInt32) (sched : List Stream.Action) :
    FileHandle → Option (Reply × FileHandle)
  | .special bytes =>
    some (.data ((bytes.drop (max offset 0).toInt.toNat).take size.toNat), .special bytes)
  | .stream s =>
    (readBlocking s (max offset 0).toUInt64 size.toNat sched).map fun r =>
      (streamReply r.1, .stream r.2)

/-- What an open file does between requests. A rendered file does nothing. -/
def fileBackground (sched : List Stream.Action) : FileHandle → Option FileHandle
  | .special _ => none
  | .stream s =>
    if sched.all isInner then (Stream.sys.run s sched).map fun r => .stream r.1 else none

inductive FileAction
  | read (offset : Int64) (size : UInt32) (sched : List Stream.Action)
  | release
  | background (sched : List Stream.Action)

/-- One handle: an open file, or none. The machine is that of one slot of the table, and can be
    run by itself. -/
def fileStep : Option FileHandle → FileAction → Option (Option FileHandle × List Reply)
  | none, .read _ _ _ => some (none, [.error .ebadf])
  | some handle, .read offset size sched =>
    (fileRead offset size sched handle).map fun r => (some r.2, [r.1])
  | _, .release => some (none, [.ok])
  | none, .background _ => none
  | some handle, .background sched =>
    (fileBackground sched handle).map fun handle => (some handle, [])

def file : Lts (Option FileHandle) FileAction Reply := ⟨fileStep⟩

variable {d : Deps} {fs fs' : Fs} {env : Env}

/-- A special file is read as a slice that is clipped at the end. -/
theorem slice_special (bytes : List UInt8) {off size : Nat} (h : off < bytes.length) :
    slice? bytes off (min (off + size) bytes.length) = some ((bytes.drop off).take size) := by
  rw [slice?_of_le (by omega) (Nat.min_le_right _ _)]
  have hmin : min (off + size) bytes.length - off = min size (bytes.drop off).length := by
    rw [List.length_drop]
    omega
  rw [hmin, ← List.take_eq_take_min]

/-- `read` looks at its own handle and at nothing else. -/
theorem read_eq (fs : Fs) (fh : UInt64) (offset : Int64) (size : UInt32)
    (sched : List Stream.Action) :
    fs.read fh offset size sched = match fs.handles fh with
      | none => some (.error .ebadf, fs)
      | some handle => (fileRead offset size sched handle).map fun r =>
          (r.1, { fs with handles := Function.update fs.handles fh (some r.2) }) := by
  unfold read
  cases hfh : fs.handles fh with
  | none => rfl
  | some handle =>
    cases handle with
    | special bytes =>
      have hsame : Function.update fs.handles fh (some (.special bytes)) = fs.handles := by
        rw [← hfh, Function.update_eq_self]
      simp only [fileRead, Option.map_some, hsame]
      by_cases hend : bytes.length ≤ (max offset 0).toInt.toNat
      · rw [if_pos hend, List.drop_eq_nil_of_le hend, List.take_nil]
      · rw [if_neg hend, slice_special bytes (Nat.lt_of_not_le hend)]
    | stream s =>
      simp only [fileRead]
      cases readBlocking s (max offset 0).toUInt64 size.toNat sched with
      | none => rfl
      | some r =>
        obtain ⟨reply, s'⟩ := r
        cases reply <;> rfl

theorem background_eq (fs : Fs) (fh : UInt64) (sched : List Stream.Action) :
    fs.background fh sched = ((fs.handles fh).bind (fileBackground sched)).map fun handle =>
      { fs with handles := Function.update fs.handles fh (some handle) } := by
  unfold background
  cases hfh : fs.handles fh with
  | none => rfl
  | some handle =>
    cases handle with
    | special bytes => rfl
    | stream s =>
      simp only [Option.bind_some, fileBackground]
      split
      · cases Stream.sys.run s sched with
        | none => rfl
        | some r => rfl
      · rfl

/-! ## What a request does to the open files -/

/-- The handle a request is about. -/
def Op.isOn (fh : UInt64) : Op → Bool
  | .read f _ _ _ | .release f => f == fh
  | _ => false

def Op.isOpen : Op → Bool
  | .open _ _ => true
  | _ => false

instance (fh : UInt64) : (op : Op) → Decidable (op = .release fh)
  | .release f => decidable_of_iff (f = fh) ⟨congrArg Op.release, Op.release.inj⟩
  | .lookup _ _ | .getattr _ | .readdir _ _ _ | .open _ _ | .read _ _ _ _ =>
    isFalse fun h => by cases h

/-- The event is an `open` that returned the handle. -/
def Event.Opens (ev : Event) (fh : UInt64) : Prop :=
  ev.op.isOpen = true ∧ ∃ flags, ev.reply = .opened fh flags

theorem Event.not_opens {ev : Event} (h : ev.op.isOpen = false) (fh : UInt64) : ¬ ev.Opens fh := by
  intro hopens
  cases h.symm.trans hopens.1

/-- Every way a request can end, as far as the open files go. The invariants about handles are
    proved by cases on it. -/
inductive FileCase (d : Deps) (fs : Fs) (env : Env) : Op → Reply → Fs → Prop
  | other {op : Op} {reply : Reply} {fs' : Fs} (hopen : op.isOpen = false)
      (hon : ∀ fh, op.isOn fh = false) (hhandles : fs'.handles = fs.handles)
      (hcounter : fs'.fhCounter = fs.fhCounter) : FileCase d fs env op reply fs'
  | refused {ino : UInt64} {flags : Int32} {e : Errno} {counter : UInt64}
      (hcounter : counter = fs.fhCounter ∨ counter = fs.fhCounter + 1) :
      FileCase d fs env (.open ino flags) (.error e) { fs with fhCounter := counter }
  | opened {ino : UInt64} {flags : Int32} {path : PathBuf} {plan : QueryPlan} {handle : FileHandle}
      (hflags : flags &&& oAccmode = 0) (hpath : fs.inodes.forward ino = some path)
      (hplan : resolve path = .ok plan) (hhandle : fs.openHandle d env plan = .ok handle) :
      FileCase d fs env (.open ino flags) (.opened fs.fhCounter fopenDirectIo)
        { fs with fhCounter := fs.fhCounter + 1
                  handles := Function.update fs.handles fs.fhCounter (some handle) }
  | unknown {fh : UInt64} {offset : Int64} {size : UInt32} {sched : List Stream.Action}
      (hnone : fs.handles fh = none) :
      FileCase d fs env (.read fh offset size sched) (.error .ebadf) fs
  | read {fh : UInt64} {offset : Int64} {size : UInt32} {sched : List Stream.Action}
      {handle handle' : FileHandle} {reply : Reply} (hfh : fs.handles fh = some handle)
      (hread : fileRead offset size sched handle = some (reply, handle')) :
      FileCase d fs env (.read fh offset size sched) reply
        { fs with handles := Function.update fs.handles fh (some handle') }
  | release {fh : UInt64} :
      FileCase d fs env (.release fh) .ok { fs with handles := Function.update fs.handles fh none }

/-- `open`, when nothing is in its way: the next handle, and the flag by which the kernel is told
    not to cache. -/
theorem open_eq {ino : UInt64} {flags : Int32} {path : PathBuf} {plan : QueryPlan}
    {handle : FileHandle} (hflags : flags &&& oAccmode = 0)
    (hpath : fs.inodes.forward ino = some path) (hplan : resolve path = .ok plan)
    (hhandle : fs.openHandle d env plan = .ok handle) :
    fs.open d env ino flags = (.opened fs.fhCounter fopenDirectIo,
      { fs with fhCounter := fs.fhCounter + 1
                handles := Function.update fs.handles fs.fhCounter (some handle) }) := by
  have hbumped : ({ fs with fhCounter := fs.fhCounter + 1 } : Fs).openHandle d env plan = .ok handle :=
    hhandle
  simp only [«open», hflags, ne_eq, not_true, if_false, pathOf_ok.mpr hpath, hplan, hbumped]

theorem open_case (d : Deps) (fs : Fs) (env : Env) (ino : UInt64) (flags : Int32) :
    FileCase d fs env (.open ino flags) (fs.open d env ino flags).1 (fs.open d env ino flags).2 := by
  unfold «open»
  split
  · exact .refused (.inl rfl)
  · rename_i hflags
    have hflags : flags &&& oAccmode = 0 := not_not.mp hflags
    split
    · exact .refused (.inl rfl)
    · rename_i path hpath
      split
      · exact .refused (.inl rfl)
      · rename_i plan hplan
        dsimp only
        split
        · exact .refused (.inr rfl)
        · rename_i handle hhandle
          exact .opened hflags (pathOf_ok.mp hpath) hplan hhandle

theorem serve_files {op : Op} {reply : Reply} (h : fs.serve d env op = some (reply, fs')) :
    FileCase d fs env op reply fs' := by
  cases op with
  | lookup parent name =>
    cases lookup_cases h with
    | refused hre | found _ _ _ _ hre _ =>
      obtain ⟨_, _, _, rfl⟩ := hre.same
      exact .other rfl (fun _ => rfl) rfl rfl
  | readdir ino offset room =>
    cases readdir_cases h with
    | refused hre | listed _ _ _ hre _ _ =>
      obtain ⟨_, _, _, rfl⟩ := hre.same
      exact .other rfl (fun _ => rfl) rfl rfl
  | getattr ino =>
    have hsame : fs' = fs := by
      rw [← getattr_same fs ino]
      exact (congrArg Prod.snd (Option.some.inj h)).symm
    subst hsame
    exact .other rfl (fun _ => rfl) rfl rfl
  | «open» ino flags =>
    have hcase := open_case d fs env ino flags
    have hopen : fs.open d env ino flags = (reply, fs') := Option.some.inj h
    rwa [hopen] at hcase
  | read fh offset size sched =>
    have hread : fs.read fh offset size sched = some (reply, fs') := h
    rw [read_eq] at hread
    cases hfh : fs.handles fh with
    | none =>
      rw [hfh] at hread
      cases hread
      exact .unknown hfh
    | some handle =>
      rw [hfh] at hread
      obtain ⟨⟨reply', handle'⟩, hfile, heq⟩ := Option.map_eq_some_iff.mp hread
      cases heq
      exact .read hfh hfile
  | release fh =>
    cases h
    exact .release

/-! ## When an `open` fails -/

/-- Why an `open` fails: a flag, an inode, a path, a directory, or a description that cannot be
    fetched. Nothing else is a reason, and no file is ever too many. -/
inductive Unopenable (fs : Fs) (env : Env) (ino : UInt64) (flags : Int32) : Prop
  | writes (hflags : flags &&& oAccmode ≠ 0)
  | unknown (hino : fs.inodes.forward ino = none)
  | unresolved {path : PathBuf} {e : ClickFsError} (hpath : fs.inodes.forward ino = some path)
      (hplan : resolve path = .error e)
  | directory {path : PathBuf} {plan : QueryPlan} (hpath : fs.inodes.forward ino = some path)
      (hplan : resolve path = .ok plan) (hdir : plan.isDir = true)
  | describe {path : PathBuf} {plan : QueryPlan} {e : QueryError}
      (hpath : fs.inodes.forward ino = some path) (hplan : resolve path = .ok plan)
      (hkind : plan.kind = .describeTable)
      (hquery : env.query (sqlDescribe plan.db.get! plan.table.get!) = .error e)

/-- A plan that is not a directory's is opened, unless the description cannot be fetched. -/
theorem openHandle_ok {plan : QueryPlan} (hdir : plan.isDir = false)
    (hdescribe : plan.kind = .describeTable →
      ∃ text, env.query (sqlDescribe plan.db.get! plan.table.get!) = .ok text) :
    ∃ handle, fs.openHandle d env plan = .ok handle := by
  obtain ⟨kind, db, table⟩ := plan
  cases kind with
  | describeTable =>
    obtain ⟨text, htext⟩ := hdescribe rfl
    simp only at htext
    exact ⟨.special text.toUTF8.data.toList, by simp only [openHandle, fetchDescribe, htext]⟩
  | readme | streamAll | streamPartition => exact ⟨_, rfl⟩
  | root | dbNamespace | listTables | listPartitions => cases hdir

theorem not_isDir_of_openHandle {plan : QueryPlan} {handle : FileHandle}
    (h : fs.openHandle d env plan = .ok handle) : plan.isDir = false := by
  obtain ⟨kind, db, table⟩ := plan
  cases kind with
  | describeTable | readme | streamAll | streamPartition => rfl
  | root | dbNamespace | listTables | listPartitions => cases h

theorem open_ok_iff {ino : UInt64} {flags : Int32} :
    (∃ fh flags', (fs.open d env ino flags).1 = .opened fh flags') ↔
      ¬ Unopenable fs env ino flags := by
  constructor
  · intro ⟨fh, flags', hreply⟩ hwhy
    have hcase := open_case d fs env ino flags
    rw [hreply] at hcase
    generalize (fs.open d env ino flags).2 = fs₁ at hcase
    cases hcase with
    | other hopen => cases hopen
    | @opened _ _ path plan handle hflags hpath hplan hhandle =>
      cases hwhy with
      | writes hwrites => exact hwrites hflags
      | unknown hino => cases hino.symm.trans hpath
      | unresolved hpath' herror =>
        obtain rfl := Option.some.inj (hpath'.symm.trans hpath)
        cases herror.symm.trans hplan
      | directory hpath' hplan' hdir =>
        obtain rfl := Option.some.inj (hpath'.symm.trans hpath)
        obtain rfl := Except.ok.inj (hplan'.symm.trans hplan)
        rw [not_isDir_of_openHandle hhandle] at hdir
        cases hdir
      | describe hpath' hplan' hkind hquery =>
        obtain rfl := Option.some.inj (hpath'.symm.trans hpath)
        obtain rfl := Except.ok.inj (hplan'.symm.trans hplan)
        simp only [openHandle, hkind, fetchDescribe, hquery] at hhandle
        cases hhandle
  · intro hnot
    have hflags : flags &&& oAccmode = 0 := not_not.mp fun hflags => hnot (.writes hflags)
    obtain ⟨path, hpath⟩ : ∃ path, fs.inodes.forward ino = some path :=
      Option.ne_none_iff_exists'.mp fun hino => hnot (.unknown hino)
    cases hplan : resolve path with
    | error e => exact absurd (.unresolved hpath hplan) hnot
    | ok plan =>
      have hdir : plan.isDir = false :=
        Bool.eq_false_iff.mpr fun hdir => hnot (.directory hpath hplan hdir)
      obtain ⟨handle, hhandle⟩ : ∃ handle, fs.openHandle d env plan = .ok handle := by
        refine openHandle_ok hdir fun hkind => ?_
        cases hquery : env.query (sqlDescribe plan.db.get! plan.table.get!) with
        | error e => exact absurd (.describe hpath hplan hkind hquery) hnot
        | ok text => exact ⟨text, rfl⟩
      exact ⟨fs.fhCounter, fopenDirectIo, by rw [open_eq hflags hpath hplan hhandle]⟩

/-- An `open` that fails says so, and leaves the open files as they are. -/
theorem open_failed {ino : UInt64} {flags : Int32} (h : Unopenable fs env ino flags) :
    (∃ e, (fs.open d env ino flags).1 = .error e) ∧
      (fs.open d env ino flags).2.handles = fs.handles := by
  have hnot : ¬ ∃ fh flags', (fs.open d env ino flags).1 = .opened fh flags' := fun hopened =>
    open_ok_iff.mp hopened h
  have hcase := open_case d fs env ino flags
  generalize (fs.open d env ino flags).1 = reply, (fs.open d env ino flags).2 = fs₁ at hcase hnot
  cases hcase with
  | other hopen => cases hopen
  | refused => exact ⟨⟨_, rfl⟩, rfl⟩
  | opened => exact absurd ⟨_, _, rfl⟩ hnot

/-! ## No handle is given out twice -/

def Action.isOpen : Action → Bool
  | .request _ op => op.isOpen
  | .background _ _ => false

/-- One step moves the counter past what it gives out. It may move further, by one that was drawn
    before the `open` failed. -/
theorem step_counter {a : Action} {evs : List Event} (hstep : (sys d).step fs a = some (fs', evs))
    (hroom : fs.fhCounter.toNat + (if a.isOpen then 1 else 0) < 2 ^ 64) :
    fs.fhCounter.toNat ≤ fs'.fhCounter.toNat ∧
      fs'.fhCounter.toNat ≤ fs.fhCounter.toNat + (if a.isOpen then 1 else 0) ∧
      ∀ ev ∈ evs, ∀ fh, ev.Opens fh →
        fs.fhCounter.toNat ≤ fh.toNat ∧ fh.toNat < fs'.fhCounter.toNat := by
  cases a with
  | request env op =>
    obtain ⟨reply, hserve, rfl⟩ := step_request hstep
    have hbump (hopen : op.isOpen = true) :
        (fs.fhCounter + 1).toNat = fs.fhCounter.toNat + 1 := by
      rw [show (Action.request env op).isOpen = true from hopen, if_pos rfl] at hroom
      exact toNat_succ hroom
    simp only [List.mem_singleton, forall_eq]
    cases serve_files hserve with
    | other hopen _ _ hcounter =>
      rw [hcounter]
      exact ⟨le_rfl, Nat.le_add_right _ _, fun fh hopens => absurd hopens (Event.not_opens hopen fh)⟩
    | refused hcounter =>
      -- the number may be gone all the same
      have hbump := hbump rfl
      refine ⟨?_, ?_, fun fh hopens => ?_⟩
      · rcases hcounter with rfl | rfl <;> simp only <;> omega
      · show _ ≤ _ + 1
        rcases hcounter with rfl | rfl <;> simp only <;> omega
      · obtain ⟨-, flags, hreply⟩ := hopens
        cases hreply
    | opened =>
      have hbump := hbump rfl
      refine ⟨by simp only; omega, ?_, fun fh hopens => ?_⟩
      · show (fs.fhCounter + 1).toNat ≤ fs.fhCounter.toNat + 1
        omega
      · obtain ⟨-, flags, hreply⟩ := hopens
        cases hreply
        exact ⟨le_rfl, by simp only; omega⟩
    | unknown | read | release =>
      exact ⟨le_rfl, Nat.le_add_right _ _, fun fh hopens => absurd hopens (Event.not_opens rfl fh)⟩
  | background fh sched =>
    obtain ⟨hbackground, rfl⟩ := step_background hstep
    rw [background_eq, Option.map_eq_some_iff] at hbackground
    obtain ⟨handle, -, rfl⟩ := hbackground
    exact ⟨le_rfl, Nat.le_add_right _ _, by simp⟩

/-- Over a run the handles given out are those the counter has passed. The bound on the number of
    opens is there because the counter is a `u64` and wraps. -/
theorem exec_counter {acts : List Action} {tr : List Event} (hrun : (sys d).Exec fs acts tr fs')
    (hroom : fs.fhCounter.toNat + acts.countP Action.isOpen < 2 ^ 64) :
    fs.fhCounter.toNat ≤ fs'.fhCounter.toNat ∧
      fs'.fhCounter.toNat ≤ fs.fhCounter.toNat + acts.countP Action.isOpen ∧
      ∀ ev ∈ tr, ∀ fh, ev.Opens fh →
        fs.fhCounter.toNat ≤ fh.toNat ∧ fh.toNat < fs'.fhCounter.toNat := by
  induction hrun with
  | nil fs => exact ⟨le_rfl, Nat.le_add_right _ _, by simp⟩
  | @cons fs fs₁ fs' a acts evs tr head tail ih =>
    rw [List.countP_cons] at hroom ⊢
    obtain ⟨hlow₁, hhigh₁, hopens₁⟩ := step_counter head (by omega)
    obtain ⟨hlow, hhigh, hopens⟩ := ih (by omega)
    refine ⟨hlow₁.trans hlow, by omega, fun ev hev fh hop => ?_⟩
    rcases List.mem_append.mp hev with hev | hev
    · -- given out by the first step, and the counter does not go back
      obtain ⟨hge, hlt⟩ := hopens₁ ev hev fh hop
      exact ⟨hge, hlt.trans_le hlow⟩
    · obtain ⟨hge, hlt⟩ := hopens ev hev fh hop
      exact ⟨hlow₁.trans hge, hlt⟩

/-! ## What is open -/

/-- The handle has been returned by an `open`, and not been released since. -/
def IsOpen (log : List Event) (fh : UInt64) : Prop :=
  ∃ log₁ ev log₂, log = log₁ ++ ev :: log₂ ∧ ev.Opens fh ∧ ∀ ev' ∈ log₂, ev'.op ≠ .release fh

theorem isOpen_snoc {log : List Event} {ev : Event} {fh : UInt64} :
    IsOpen (log ++ [ev]) fh ↔ ev.Opens fh ∨ (IsOpen log fh ∧ ev.op ≠ .release fh) := by
  constructor
  · intro ⟨log₁, ev₁, log₂, hlog, hopens, hkept⟩
    rcases List.eq_nil_or_concat log₂ with rfl | ⟨log₂, last, rfl⟩
    · obtain ⟨-, rfl⟩ := List.append_singleton_inj.mp hlog
      exact .inl hopens
    · rw [List.concat_eq_append, ← List.cons_append, ← List.append_assoc] at hlog
      obtain ⟨rfl, rfl⟩ := List.append_singleton_inj.mp hlog
      rw [List.concat_eq_append] at hkept
      exact .inr ⟨⟨log₁, ev₁, log₂, rfl, hopens, fun ev' hev' =>
        hkept ev' (List.mem_append_left _ hev')⟩, hkept ev (List.mem_append_right _ List.mem_cons_self)⟩
  · intro h
    rcases h with hopens | ⟨⟨log₁, ev₁, log₂, rfl, hopens, hkept⟩, hlast⟩
    · exact ⟨log, ev, [], rfl, hopens, by simp⟩
    · refine ⟨log₁, ev₁, log₂ ++ [ev], by simp, hopens, fun ev' hev' => ?_⟩
      rcases List.mem_append.mp hev' with hev' | hev'
      · exact hkept ev' hev'
      · obtain rfl := List.mem_singleton.mp hev'
        exact hlast

/-- What one request does to what is open: an `open` that returns a handle adds it, and a
    `release` takes it away. -/
theorem serve_open {op : Op} {reply : Reply} (h : fs.serve d env op = some (reply, fs'))
    (fh : UInt64) : fs'.handles fh ≠ none ↔
      Event.Opens ⟨env, op, fs, reply, fs'⟩ fh ∨ (fs.handles fh ≠ none ∧ op ≠ .release fh) := by
  have hstays (hopens : ¬ Event.Opens ⟨env, op, fs, reply, fs'⟩ fh) (hop : op ≠ .release fh)
      (hsame : fs'.handles fh ≠ none ↔ fs.handles fh ≠ none) : fs'.handles fh ≠ none ↔
        Event.Opens ⟨env, op, fs, reply, fs'⟩ fh ∨ (fs.handles fh ≠ none ∧ op ≠ .release fh) := by
    rw [hsame]
    constructor
    · intro hopen
      exact .inr ⟨hopen, hop⟩
    · intro hor
      exact (hor.resolve_left hopens).1
  cases serve_files h with
  | other hopen hon hhandles hcounter =>
    apply hstays
    · exact Event.not_opens hopen fh
    · rintro rfl
      have hoff := hon fh
      simp [Op.isOn] at hoff
    · rw [hhandles]
  | refused =>
    apply hstays
    · rintro ⟨-, flags, hreply⟩
      cases hreply
    · simp
    · rfl
  | opened =>
    by_cases hfh : fh = fs.fhCounter
    · subst hfh
      simp only [Function.update_self]
      constructor
      · intro _
        exact .inl ⟨rfl, _, rfl⟩
      · intro _
        simp
    · apply hstays
      · -- the handle that is returned is the counter's
        rintro ⟨-, flags, hreply⟩
        cases hreply
        exact hfh rfl
      · simp
      · simp only [Function.update_of_ne hfh]
  | unknown =>
    apply hstays
    · exact Event.not_opens rfl fh
    · simp
    · rfl
  | @read f _ _ _ handle handle' _ hf hread =>
    apply hstays
    · exact Event.not_opens rfl fh
    · simp
    · -- the handle that is read stays open
      by_cases hfh : fh = f
      · subst hfh
        simp [hf]
      · simp only [Function.update_of_ne hfh]
  | @release f =>
    by_cases hfh : fh = f
    · subst hfh
      simp only [Function.update_self, ne_eq, not_true, and_false, or_false, false_iff]
      exact Event.not_opens rfl fh
    · apply hstays
      · exact Event.not_opens rfl fh
      · intro hop
        exact hfh (Op.release.inj hop).symm
      · simp only [Function.update_of_ne hfh]

/-- The table holds what is open, according to what the log of the run says has been opened and
    released. -/
theorem step_isOpen {a : Action} {evs log : List Event}
    (hstep : (sys d).step fs a = some (fs', evs)) {fh : UInt64}
    (h : fs.handles fh ≠ none ↔ IsOpen log fh) : fs'.handles fh ≠ none ↔ IsOpen (log ++ evs) fh := by
  cases a with
  | request env op =>
    obtain ⟨reply, hserve, rfl⟩ := step_request hstep
    rw [serve_open hserve, isOpen_snoc, h]
  | background f sched =>
    obtain ⟨hbackground, rfl⟩ := step_background hstep
    rw [background_eq, Option.map_eq_some_iff] at hbackground
    obtain ⟨handle, hf, rfl⟩ := hbackground
    obtain ⟨handle₀, hf, -⟩ := Option.bind_eq_some_iff.mp hf
    rw [List.append_nil, ← h]
    by_cases hfh : fh = f
    · subst hfh
      simp [hf]
    · simp only [Function.update_of_ne hfh]

theorem exec_isOpen {acts : List Action} {tr : List Event} (hrun : (sys d).Exec fs acts tr fs')
    (hempty : ∀ fh, fs.handles fh = none) (fh : UInt64) : fs'.handles fh ≠ none ↔ IsOpen tr fh := by
  have hnone : fs.handles fh ≠ none ↔ IsOpen [] fh := by
    rw [hempty fh]
    simp [IsOpen]
  exact hrun.logAlong (I := fun s log => s.handles fh ≠ none ↔ IsOpen log fh)
    (C := fun _ _ => True) (fun _ _ _ _ _ h _ hstep => step_isOpen hstep h)
    (Lts.along_of_forall (fun _ _ _ => trivial) fs) hnone

/-! ## One handle in a run -/

/-- What an action is to the handle: a read, a release, something its task does, or nothing. -/
def Action.onFile (fh : UInt64) : Action → Option FileAction
  | .request _ (.read f offset size sched) => if f = fh then some (.read offset size sched) else none
  | .request _ (.release f) => if f = fh then some .release else none
  | .background f sched => if f = fh then some (.background sched) else none
  | _ => none

/-- The replies to the requests on the handle. -/
def repliesOn (fh : UInt64) (tr : List Event) : List Reply :=
  (tr.filter fun ev => ev.op.isOn fh).map Event.reply

theorem repliesOn_append (fh : UInt64) (tr₁ tr₂ : List Event) :
    repliesOn fh (tr₁ ++ tr₂) = repliesOn fh tr₁ ++ repliesOn fh tr₂ := by
  simp [repliesOn]

theorem onFile_request {op : Op} {fh : UInt64} {b : FileAction}
    (h : (Action.request env op).onFile fh = some b) : op.isOn fh = true := by
  cases op with
  | read f offset size sched | release f =>
    simp only [Action.onFile, Option.ite_none_right_eq_some] at h
    exact beq_iff_eq.mpr h.1
  | lookup | getattr | readdir | «open» => cases h

/-- A step on the handle is a step of its machine, in both directions. -/
theorem step_on (d : Deps) (fs : Fs) {a : Action} {fh : UInt64} {b : FileAction} (ha : a.onFile fh = some b) :
    ((sys d).step fs a).map (fun r => (r.1.handles fh, repliesOn fh r.2))
      = fileStep (fs.handles fh) b := by
  cases a with
  | request env op =>
    have hon := onFile_request ha
    have hstep : ((sys d).step fs (.request env op)).map
        (fun r => (r.1.handles fh, repliesOn fh r.2))
          = (fs.serve d env op).map fun r => (r.2.handles fh, [r.1]) := by
      simp only [sys, step]
      cases fs.serve d env op with
      | none => rfl
      | some r => simp [repliesOn, hon]
    rw [hstep]
    cases op with
    | read f offset size sched =>
      simp only [Action.onFile, Option.ite_none_right_eq_some, Option.some.injEq] at ha
      obtain ⟨rfl, rfl⟩ := ha
      simp only [serve, read_eq]
      cases hf : fs.handles f with
      | none => simp [fileStep, hf]
      | some handle =>
        simp only [fileStep, Option.map_map]
        congr 1
        funext r
        simp
    | release f =>
      simp only [Action.onFile, Option.ite_none_right_eq_some, Option.some.injEq] at ha
      obtain ⟨rfl, rfl⟩ := ha
      cases fs.handles f <;> simp [serve, release, fileStep]
    | lookup | getattr | readdir | «open» => cases ha
  | background f sched =>
    simp only [Action.onFile, Option.ite_none_right_eq_some, Option.some.injEq] at ha
    obtain ⟨rfl, rfl⟩ := ha
    simp only [sys, step, background_eq, Option.map_map]
    cases hf : fs.handles f with
    | none => rfl
    | some handle =>
      simp only [fileStep, Option.bind_some]
      congr 1
      funext handle'
      simp [repliesOn]

/-- A step off the handle leaves its machine alone, unless it opens it. -/
theorem step_off {a : Action} {fh : UInt64} {evs : List Event} (ha : a.onFile fh = none)
    (hstep : (sys d).step fs a = some (fs', evs)) (hopens : ∀ ev ∈ evs, ¬ ev.Opens fh) :
    fs'.handles fh = fs.handles fh ∧ repliesOn fh evs = [] := by
  cases a with
  | request env op =>
    obtain ⟨reply, hserve, rfl⟩ := step_request hstep
    have hnot := hopens _ List.mem_cons_self
    cases serve_files hserve with
    | other _ hon hhandles _ => exact ⟨by rw [hhandles], by simp [repliesOn, hon fh]⟩
    | refused => exact ⟨rfl, rfl⟩
    | opened =>
      -- another handle than this one
      have hfh : fh ≠ fs.fhCounter := by
        rintro rfl
        exact hnot ⟨rfl, _, rfl⟩
      exact ⟨Function.update_of_ne hfh _ _, rfl⟩
    | @unknown f =>
      have hf : f ≠ fh := by simpa [Action.onFile] using ha
      exact ⟨rfl, by simp [repliesOn, Op.isOn, hf]⟩
    | @read f =>
      have hf : f ≠ fh := by simpa [Action.onFile] using ha
      exact ⟨Function.update_of_ne hf.symm _ _, by simp [repliesOn, Op.isOn, hf]⟩
    | @release f =>
      have hf : f ≠ fh := by simpa [Action.onFile] using ha
      exact ⟨Function.update_of_ne hf.symm _ _, by simp [repliesOn, Op.isOn, hf]⟩
  | background f sched =>
    have hf : f ≠ fh := by simpa [Action.onFile] using ha
    obtain ⟨hbackground, rfl⟩ := step_background hstep
    rw [background_eq, Option.map_eq_some_iff] at hbackground
    obtain ⟨handle, -, rfl⟩ := hbackground
    exact ⟨Function.update_of_ne hf.symm _ _, rfl⟩

/-- A run that does not open the handle is, on the handle, a run of its machine. All the rest of
    the run drops out. -/
theorem exec_file {acts : List Action} {tr : List Event} (hrun : (sys d).Exec fs acts tr fs')
    {fh : UInt64} (hopens : ∀ ev ∈ tr, ¬ ev.Opens fh) :
    file.Exec (fs.handles fh) (acts.filterMap (Action.onFile fh)) (repliesOn fh tr)
      (fs'.handles fh) := by
  induction hrun with
  | nil fs => exact .nil _
  | @cons fs fs₁ fs' a acts evs tr head tail ih =>
    have ih := ih fun ev hev => hopens ev (List.mem_append_right _ hev)
    rw [repliesOn_append]
    -- only the steps on the handle are steps of its machine
    cases ha : a.onFile fh with
    | none =>
      obtain ⟨hsame, hreplies⟩ := step_off ha head fun ev hev =>
        hopens ev (List.mem_append_left _ hev)
      rw [List.filterMap_cons_none ha, hreplies, List.nil_append, ← hsame]
      exact ih
    | some b =>
      have hstep := step_on d fs ha
      rw [head, Option.map_some] at hstep
      rw [List.filterMap_cons_some ha]
      exact .cons hstep.symm ih

/-- A run of the machine is done by its requests, wherever the handle is open. Together with
    `exec_file` this is what isolates the files from each other. -/
theorem exec_of_file {fh : UInt64} {x' : Option FileHandle} {acts : List Action}
    (hacts : ∀ a ∈ acts, (a.onFile fh).isSome = true) {replies : List Reply}
    (hfile : file.Exec (fs.handles fh) (acts.filterMap (Action.onFile fh)) replies x') :
    ∃ tr fs', (sys d).Exec fs acts tr fs' ∧ repliesOn fh tr = replies := by
  induction acts generalizing fs replies with
  | nil =>
    cases hfile
    exact ⟨[], fs, .nil fs, rfl⟩
  | cons a acts ih =>
    obtain ⟨b, hb⟩ := Option.isSome_iff_exists.mp (hacts a List.mem_cons_self)
    rw [List.filterMap_cons_some hb] at hfile
    generalize hx : fs.handles fh = x at hfile
    cases hfile with
    | @cons _ x₁ _ _ _ rs replies head tail =>
      subst hx
      have hstep := step_on d fs hb
      rw [show fileStep (fs.handles fh) b = some (x₁, rs) from head, Option.map_eq_some_iff] at hstep
      obtain ⟨⟨fs₁, evs⟩, hstep, heq⟩ := hstep
      obtain ⟨rfl, rfl⟩ := Prod.mk.inj heq
      obtain ⟨tr, fs', hrun, rfl⟩ := ih (fun a ha => hacts a (List.mem_cons_of_mem _ ha)) tail
      exact ⟨evs ++ tr, fs', .cons hstep hrun, repliesOn_append fh evs tr⟩

end Fs
end ClickFs
