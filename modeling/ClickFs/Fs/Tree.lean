import ClickFs.Fs.Handles
import ClickFs.Fs.Traffic

/-!
# The file system by path

The kernel speaks in inodes, and what number a path gets depends on the hash function, on
what it collides with and on who came first. `Tree` is the same file system without them: it
is asked for paths, answers with paths, and knows which ones it has given away, since the
kernel can only ask for those. No hash is in it, and no request of it can fail to end.

What can be seen of the file system is what can be seen of the tree (`exchanges_iff_tree`), with
every hash function, as long as fewer than `2 ^ 62` entries are handed over; so two hash
functions cannot be told apart by what is seen. A result about the file system that does
not mention inode numbers could as well be proved of the tree.
-/

set_option autoImplicit false

namespace ClickFs

open Rust Driver Inode

def FileAttr.blank (attr : FileAttr) : FileAttr := { attr with ino := 0 }

namespace Fs

/-! ## What is seen -/

def Op.ino : Op → Option UInt64
  | .lookup parent _ => some parent
  | .getattr ino | .readdir ino _ _ | .open ino _ => some ino
  | .read _ _ _ _ | .release _ => none

/-- The request with another inode in it. -/
def Op.at (i : UInt64) : Op → Op
  | .lookup _ name => .lookup i name
  | .getattr _ => .getattr i
  | .readdir _ offset room => .readdir i offset room
  | .open _ flags => .open i flags
  | op => op

def Op.blank (op : Op) : Op := op.at 0

def DirEntry.blank (e : DirEntry) : DirEntry := { e with ino := 0 }

/-- The inodes in a reply, in order. -/
def Reply.inos : Reply → List UInt64
  | .entry _ a _ | .attr _ a => [a.ino]
  | .directory reply => reply.handed.map DirEntry.ino
  | _ => []

/-- The reply, but for the inodes. -/
def Reply.blank : Reply → Reply
  | .entry ttl a generation => .entry ttl a.blank generation
  | .attr ttl a => .attr ttl a.blank
  | .directory reply => .directory { reply with handed := reply.handed.map DirEntry.blank }
  | reply => reply

/-- A request and its reply, with paths in the place of inodes. Where a request has none, the
    inode is not known, or it has no inode. This is what counts as seen. -/
structure Exchange where
  env : Env
  op : Op
  path : Option PathBuf
  reply : Reply
  paths : List (Option PathBuf)

def Event.exchange (ev : Event) : Exchange :=
  { env := ev.env
    op := ev.op.blank
    path := ev.op.ino.bind ev.before.inodes.forward
    reply := ev.reply.blank
    paths := ev.reply.inos.map ev.after.inodes.forward }

/-! ## The tree -/

/-- The file system without its inode table. -/
def bare (fs : Fs) : Fs := { fs with inodes := .new }

/-- The file system by path: `known` are the paths that have been given away. -/
structure Tree where
  fs : Fs
  known : List PathBuf

namespace Tree

def new (fs : Fs) : Tree := { fs := fs.bare, known := [.root] }

/-- A reply without its inodes, and the path each of them stood for. -/
abbrev Answer := Reply × List (Option PathBuf)

def fail (e : ClickFsError) : Answer := (.err e, [])

def lookup (t : Tree) (env : Env) (parent : PathBuf) (name : OsStr) : Answer × Tree :=
  match toStr name with
  | none => ((.error .enoent, []), t)
  | some nameStr =>
    let child := parent.join nameStr
    match resolve child with
    | .error e => (fail e, t)
    | .ok plan =>
      match t.fs.verifyPlanExists env plan with
      | (.error e, fs) => (fail e, { t with fs })
      | (.ok (), fs) =>
        ((.entry entryTtl (fs.attrForPlan 0 plan) 0, [some child]),
          { fs, known := child :: t.known })

def getattr (t : Tree) (path : PathBuf) : Answer :=
  match resolve path with
  | .ok plan => (.attr entryTtl (t.fs.attrForPlan 0 plan), [some path])
  | .error e => fail e

/-- The path an entry of a directory stands for: "." and ".." are handed over with the directory's
    own inode. -/
def child (path : PathBuf) (name : String) : PathBuf :=
  if name = "." ∨ name = ".." then path else path.join name

def readdir (t : Tree) (env : Env) (path : PathBuf) (offset : Int64) (room : Nat) :
    Answer × Tree :=
  match resolve path with
  | .error e => (fail e, t)
  | .ok plan =>
    match t.fs.entries env plan with
    | (.error e, fs) => (fail e, { t with fs })
    | (.ok entries, fs) =>
      -- one more than fits is handed over, and found not to fit
      let items := (entries.zipIdx.drop (asUsize offset.toInt)).take (room + 1)
      let paths := items.map fun item => child path item.1.2
      ((.directory ⟨room, items.map fun item => ⟨0, Int64.ofNat (item.2 + 1), item.1.1, item.1.2⟩⟩,
          paths.map some),
        { fs, known := paths ++ t.known })

def «open» (d : Deps) (t : Tree) (env : Env) (path : Option PathBuf) (flags : Int32) :
    Answer × Tree :=
  if flags &&& oAccmode ≠ 0 then ((.error .erofs, []), t)
  else
    match path with
    | none => (fail .notFound, t)
    | some path =>
      match resolve path with
      | .error e => (fail e, t)
      | .ok plan =>
        let fh := t.fs.fhCounter
        let fs := { t.fs with fhCounter := fh + 1 }
        match fs.openHandle d env plan with
        | .error e => ((.error e, []), { t with fs })
        | .ok handle =>
          ((.opened fh fopenDirectIo, []),
            { t with fs := { fs with handles := Function.update fs.handles fh (some handle) } })

/-- A request, at a path. The inode in it is not looked at. -/
def serve (d : Deps) (t : Tree) (env : Env) (op : Op) (path : Option PathBuf) :
    Option (Answer × Tree) :=
  match op, path with
  | .lookup _ name, some path => some (t.lookup env path name)
  | .getattr _, some path => some (t.getattr path, t)
  | .readdir _ offset room, some path => some (t.readdir env path offset room)
  | .lookup _ _, none | .getattr _, none | .readdir _ _ _, none => some (fail .notFound, t)
  | .open _ flags, path => some (t.open d env path flags)
  | .read fh offset size sched, _ =>
    (t.fs.read fh offset size sched).map fun r => ((r.1, []), { t with fs := r.2 })
  | .release fh, _ => some (((t.fs.release fh).1, []), { t with fs := (t.fs.release fh).2 })

inductive Action
  | request (env : Env) (op : Op) (path : Option PathBuf)
  | background (fh : UInt64) (sched : List Stream.Action)

/-- A path can be asked for by a request that has one, when it has been given away. -/
def Asks (t : Tree) (op : Op) (path : Option PathBuf) : Prop :=
  ∀ p ∈ path, p ∈ t.known ∧ op.ino.isSome = true

instance (t : Tree) (op : Op) (path : Option PathBuf) : Decidable (t.Asks op path) := by
  unfold Asks
  infer_instance

def step (d : Deps) (t : Tree) : Action → Option (Tree × List Exchange)
  | .request env op path =>
    if t.Asks op path then
      match t.serve d env op path with
      | none => none
      | some ((reply, paths), t') => some (t', [⟨env, op.blank, path, reply, paths⟩])
    else none
  | .background fh sched => (t.fs.background fh sched).map fun fs => ({ t with fs }, [])

def sys (d : Deps) : Lts Tree Action Exchange := ⟨step d⟩

end Tree

/-! ## What does not look at the inodes -/

section

variable (fs : Fs) (env : Env)

theorem verifyPlanExists_bare (plan : QueryPlan) :
    fs.bare.verifyPlanExists env plan
      = ((fs.verifyPlanExists env plan).1, (fs.verifyPlanExists env plan).2.bare) := by
  obtain ⟨kind, db, table⟩ := plan
  cases kind <;> cases db <;> cases table <;> rfl

theorem entries_bare (plan : QueryPlan) :
    fs.bare.entries env plan = ((fs.entries env plan).1, (fs.entries env plan).2.bare) := by
  obtain ⟨kind, db, table⟩ := plan
  cases kind <;> rfl

theorem blank_attrForPlan (ino : UInt64) (plan : QueryPlan) :
    (fs.attrForPlan ino plan).blank = fs.bare.attrForPlan 0 plan := by
  unfold attrForPlan
  split
  · rfl
  · split <;> rfl

theorem read_bare (fh : UInt64) (offset : Int64) (size : UInt32) (sched : List Stream.Action) :
    fs.bare.read fh offset size sched
      = (fs.read fh offset size sched).map fun r => (r.1, r.2.bare) := by
  have hsame : fs.bare.handles fh = fs.handles fh := rfl
  rw [read_eq, read_eq, hsame]
  cases fs.handles fh with
  | none => rfl
  | some handle =>
    simp only [Option.map_map]
    rfl

theorem background_bare (fh : UInt64) (sched : List Stream.Action) :
    fs.bare.background fh sched = (fs.background fh sched).map bare := by
  rw [background_eq, background_eq]
  show ((fs.handles fh).bind (fileBackground sched)).map _ = _
  cases (fs.handles fh).bind (fileBackground sched) <;> rfl

end

/-! ## The tree shows what the file system does -/

/-- The file system and its tree. The paths that are known are those that have an inode. -/
structure Shows (fs : Fs) (t : Tree) : Prop where
  bare : fs.bare = t.fs
  agrees : Agrees fs.inodes
  root : fs.inodes.forward inoRoot = some .root
  known : ∀ p, p ∈ t.known ↔ ∃ i, fs.inodes.forward i = some p

variable {d : Deps} {fs fs' : Fs} {env : Env} {t : Tree} {reply : Reply}

theorem Shows.new {uid gid : UInt32} {startTime : Nat} {tailCfg : TailConfig} :
    Shows (.new uid gid startTime tailCfg) (.new (.new uid gid startTime tailCfg)) := by
  refine ⟨rfl, new_agrees _ _ _ _, new_root .., fun p => ?_⟩
  constructor
  · intro hp
    rw [List.mem_singleton.mp hp]
    exact ⟨inoRoot, new_root ..⟩
  · rintro ⟨i, hi⟩
    exact List.mem_singleton.mpr (new_forward hi).2

/-- A step that leaves the inode table alone goes on showing the tree, with the open files and the
    caches moved on. -/
theorem Shows.inodes (h : Shows fs t) (hinodes : fs'.inodes = fs.inodes) :
    Shows fs' { t with fs := fs'.bare } := by
  refine ⟨rfl, ?_, ?_, ?_⟩ <;> rw [hinodes]
  · exact h.agrees
  · exact h.root
  · exact h.known

theorem Shows.lookup (h : Shows fs t) {parent : UInt64} {path : PathBuf} {name : OsStr}
    (hpath : fs.inodes.forward parent = some path)
    (hserve : fs.lookup d env parent name = some (reply, fs')) :
    (t.lookup env path name).1 = (reply.blank, reply.inos.map fs'.inodes.forward) ∧
      Shows fs' (t.lookup env path name).2 := by
  simp only [Fs.lookup, pathOf_ok.mpr hpath] at hserve
  unfold Tree.lookup
  cases hname : toStr name with
  | none =>
    rw [hname] at hserve
    cases hserve
    exact ⟨rfl, h⟩
  | some nameStr =>
    simp only [hname] at hserve ⊢
    cases hplan : resolve (path.join nameStr) with
    | error e =>
      simp only [hplan] at hserve ⊢
      cases hserve
      exact ⟨rfl, h⟩
    | ok plan =>
      have hre : Recached env fs (fs.verifyPlanExists env plan).2 :=
        verifyPlanExists_recached (resolve_ok.mp hplan)
      have hverify := verifyPlanExists_bare fs env plan
      rw [h.bare] at hverify
      simp only [hplan, hverify] at hserve ⊢
      generalize fs.verifyPlanExists env plan = out at hserve hre
      obtain ⟨r, fs₁⟩ := out
      cases r with
      | error e =>
        cases hserve
        exact ⟨rfl, h.inodes hre.inodes⟩
      | ok =>
        simp only at hserve hre ⊢
        split at hserve
        case h_1 => cases hserve
        rename_i ino inodes halloc
        cases hserve
        have hagrees : Agrees fs₁.inodes := hre.inodes ▸ h.agrees
        obtain ⟨hall, hagrees'⟩ := allocate_allocated hagrees halloc
        rw [hre.inodes] at hall
        refine ⟨?_, rfl, hagrees', hall.extend _ _ h.root, fun p => ?_⟩
        · simp only [Reply.blank, Reply.inos, blank_attrForPlan, attrForPlan_ino, List.map_cons,
            List.map_nil, hall.slot]
        · rw [List.mem_cons, h.known]
          constructor
          · rintro (rfl | ⟨i, hi⟩)
            · exact ⟨ino, hall.slot⟩
            · exact ⟨i, hall.extend _ _ hi⟩
          · rintro ⟨i, hi⟩
            rcases hall.only i p hi with hold | ⟨-, rfl⟩
            · exact .inr ⟨i, hold⟩
            · exact .inl rfl

/-- An entry is handed over as what it is, under some inode. -/
theorem blank_of_handed {items : List ((FileType × String) × Nat)} {handed : List DirEntry}
    (hof : List.Forall₂ DirEntry.Of items handed) :
    handed.map DirEntry.blank
      = items.map fun item => ⟨0, Int64.ofNat (item.2 + 1), item.1.1, item.1.2⟩ := by
  induction hof with
  | nil => rfl
  | @cons item e items handed hitem _ ih =>
    obtain ⟨hkind, hname, hoffset⟩ := hitem
    rw [List.map_cons, List.map_cons, ih, DirEntry.blank, hkind, hname, hoffset]

theorem Filled.child {path : PathBuf} {ino : UInt64} {table table' : InodeTable}
    {new : List DirEntry} (h : Filled path ino table new table')
    (hino : table.forward ino = some path) {e : DirEntry} (he : e ∈ new) :
    table'.forward e.ino = some (Tree.child path e.name) := by
  unfold Tree.child
  split
  · rename_i hdots
    rw [h.dots e he hdots]
    exact h.extend _ _ hino
  · rename_i hdots
    exact h.agrees _ _ (h.entry e he hdots)

theorem Shows.readdir (h : Shows fs t) {ino : UInt64} {path : PathBuf} {offset : Int64}
    {room : Nat} (hpath : fs.inodes.forward ino = some path)
    (hserve : fs.readdir d env ino offset room = some (reply, fs')) :
    (t.readdir env path offset room).1 = (reply.blank, reply.inos.map fs'.inodes.forward) ∧
      Shows fs' (t.readdir env path offset room).2 := by
  simp only [Fs.readdir, pathOf_ok.mpr hpath] at hserve
  unfold Tree.readdir
  cases hplan : resolve path with
  | error e =>
    simp only [hplan] at hserve ⊢
    cases hserve
    exact ⟨rfl, h⟩
  | ok plan =>
    have hre : Recached env fs (fs.entries env plan).2 := entries_recached
    have hentries := entries_bare fs env plan
    rw [h.bare] at hentries
    simp only [hplan, hentries] at hserve ⊢
    generalize fs.entries env plan = out at hserve hre
    obtain ⟨r, fs₁⟩ := out
    cases r with
    | error e =>
      cases hserve
      exact ⟨rfl, h.inodes hre.inodes⟩
    | ok es =>
      simp only at hserve hre ⊢
      split at hserve
      case h_1 => cases hserve
      rename_i reply' inodes hfill
      cases hserve
      obtain ⟨new, rfl, hof, hfilled⟩ := fill_filled hfill
      have hfilled := hfilled (hre.inodes ▸ h.agrees)
      rw [hre.inodes] at hfilled
      have hblank := blank_of_handed hof
      have hnames : new.map (fun e => Tree.child path e.name)
          = ((es.zipIdx.drop (asUsize offset.toInt)).take (room + 1)).map
            fun item => Tree.child path item.1.2 := by
        have := congrArg (List.map fun e => Tree.child path e.name) hblank
        rwa [List.map_map, List.map_map] at this
      refine ⟨?_, rfl, hfilled.agrees, hfilled.extend _ _ h.root, fun p => ?_⟩
      · rw [← hnames, List.map_map]
        refine Prod.ext (congrArg (fun handed => Reply.directory ⟨room, handed⟩) hblank.symm) ?_
        show new.map _ = (new.map DirEntry.ino).map inodes.forward
        rw [List.map_map]
        exact List.map_congr_left fun e he => (hfilled.child hpath he).symm
      · rw [← hnames, List.mem_append, h.known]
        constructor
        · rintro (hp | ⟨i, hi⟩)
          · obtain ⟨e, he, rfl⟩ := List.mem_map.mp hp
            exact ⟨e.ino, hfilled.child hpath he⟩
          · exact ⟨i, hfilled.extend _ _ hi⟩
        · rintro ⟨i, hi⟩
          rcases hfilled.only i p hi with hold | ⟨e, he, hdots, -, rfl⟩
          · exact .inr ⟨i, hold⟩
          · exact .inl (List.mem_map.mpr ⟨e, he, if_neg hdots⟩)

/-- The root has an inode of its own, known from the start, but answers like any directory. -/
theorem Shows.getattr (h : Shows fs t) {ino : UInt64} {path : PathBuf}
    (hpath : fs.inodes.forward ino = some path) :
    t.getattr path = ((fs.getattr ino).1.blank, (fs.getattr ino).1.inos.map fs.inodes.forward) := by
  unfold Fs.getattr Tree.getattr
  rw [← h.bare]
  by_cases hino : ino = inoRoot
  · subst hino
    rw [h.root] at hpath
    obtain rfl := Option.some.inj hpath
    have hplan : resolve .root = .ok ⟨.root, none, none⟩ := by decide
    simp only [hplan, if_true]
    refine Prod.ext rfl ?_
    show [some PathBuf.root] = [fs.inodes.forward inoRoot]
    rw [h.root]
  · simp only [if_neg hino, pathOf_ok.mpr hpath]
    cases resolve path with
    | error e => rfl
    | ok plan =>
      simp only [Reply.blank, Reply.inos, blank_attrForPlan, attrForPlan_ino, List.map_cons,
        List.map_nil, hpath]

theorem Shows.open (h : Shows fs t) (d : Deps) (env : Env) (ino : UInt64) (flags : Int32) :
    (t.open d env (fs.inodes.forward ino) flags).1
        = ((fs.open d env ino flags).1.blank,
          (fs.open d env ino flags).1.inos.map (fs.open d env ino flags).2.inodes.forward) ∧
      Shows (fs.open d env ino flags).2 (t.open d env (fs.inodes.forward ino) flags).2 := by
  unfold Fs.open Tree.open
  rw [← h.bare]
  split
  · exact ⟨rfl, h⟩
  · cases hpath : fs.inodes.forward ino with
    | none =>
      have hno : fs.pathOf ino = .error .notFound := by simp only [pathOf, InodeTable.lookup, hpath]
      simp only [hno]
      exact ⟨rfl, h⟩
    | some path =>
      simp only [pathOf_ok.mpr hpath]
      cases resolve path with
      | error e => exact ⟨rfl, h⟩
      | ok plan =>
        have hhandle :
            ({ fs.bare with fhCounter := fs.bare.fhCounter + 1 } : Fs).openHandle d env plan
              = ({ fs with fhCounter := fs.fhCounter + 1 } : Fs).openHandle d env plan := rfl
        simp only [hhandle]
        cases ({ fs with fhCounter := fs.fhCounter + 1 } : Fs).openHandle d env plan with
        | error e => exact ⟨rfl, h.inodes rfl⟩
        | ok handle => exact ⟨rfl, h.inodes rfl⟩

theorem pathOf_none {ino : UInt64} (h : fs.inodes.forward ino = none) :
    fs.pathOf ino = .error .notFound := by
  simp only [pathOf, InodeTable.lookup, h]

theorem read_plain {fh : UInt64} {offset : Int64} {size : UInt32} {sched : List Stream.Action}
    (h : fs.read fh offset size sched = some (reply, fs')) :
    reply.blank = reply ∧ reply.inos = [] := by
  rw [read_eq] at h
  split at h
  · cases h
    exact ⟨rfl, rfl⟩
  · rename_i handle _
    obtain ⟨⟨reply', handle'⟩, hfile, heq⟩ := Option.map_eq_some_iff.mp h
    cases heq
    cases handle with
    | special bytes =>
      cases hfile
      exact ⟨rfl, rfl⟩
    | stream s =>
      obtain ⟨⟨r, s'⟩, -, heq⟩ := Option.map_eq_some_iff.mp hfile
      cases heq
      cases r <;> exact ⟨rfl, rfl⟩

/-- **One request.** The tree gives the same answer and goes on showing what there is. -/
theorem Shows.serve (h : Shows fs t) {op : Op}
    (hserve : fs.serve d env op = some (reply, fs')) :
    ∃ t', t.serve d env op (op.ino.bind fs.inodes.forward)
      = some ((reply.blank, reply.inos.map fs'.inodes.forward), t') ∧ Shows fs' t' := by
  cases op with
  | lookup parent name =>
    have hserve : fs.lookup d env parent name = some (reply, fs') := hserve
    show ∃ t', t.serve d env (.lookup parent name) (fs.inodes.forward parent) = _ ∧ _
    cases hpath : fs.inodes.forward parent with
    | none =>
      simp only [Fs.lookup, pathOf_none hpath] at hserve
      cases hserve
      exact ⟨t, rfl, h⟩
    | some path =>
      obtain ⟨hanswer, hshows⟩ := h.lookup hpath hserve
      exact ⟨_, congrArg some (Prod.ext hanswer rfl), hshows⟩
  | getattr ino =>
    obtain rfl : (fs.getattr ino).1 = reply := congrArg Prod.fst (Option.some.inj hserve)
    obtain rfl : (fs.getattr ino).2 = fs' := congrArg Prod.snd (Option.some.inj hserve)
    show ∃ t', t.serve d env (.getattr ino) (fs.inodes.forward ino) = _ ∧ _
    rw [getattr_same]
    cases hpath : fs.inodes.forward ino with
    | none =>
      have hroot : ino ≠ inoRoot := by
        rintro rfl
        rw [h.root] at hpath
        cases hpath
      simp only [Fs.getattr, if_neg hroot, pathOf_none hpath]
      exact ⟨t, rfl, h⟩
    | some path => exact ⟨t, congrArg (fun answer => some (answer, t)) (h.getattr hpath), h⟩
  | readdir ino offset room =>
    have hserve : fs.readdir d env ino offset room = some (reply, fs') := hserve
    show ∃ t', t.serve d env (.readdir ino offset room) (fs.inodes.forward ino) = _ ∧ _
    cases hpath : fs.inodes.forward ino with
    | none =>
      simp only [Fs.readdir, pathOf_none hpath] at hserve
      cases hserve
      exact ⟨t, rfl, h⟩
    | some path =>
      obtain ⟨hanswer, hshows⟩ := h.readdir hpath hserve
      exact ⟨_, congrArg some (Prod.ext hanswer rfl), hshows⟩
  | «open» ino flags =>
    obtain rfl : (fs.open d env ino flags).1 = reply := congrArg Prod.fst (Option.some.inj hserve)
    obtain rfl : (fs.open d env ino flags).2 = fs' := congrArg Prod.snd (Option.some.inj hserve)
    obtain ⟨hanswer, hshows⟩ := h.open d env ino flags
    exact ⟨_, congrArg some (Prod.ext hanswer rfl), hshows⟩
  | read fh offset size sched =>
    have hserve : fs.read fh offset size sched = some (reply, fs') := hserve
    have hread := read_bare fs fh offset size sched
    rw [h.bare, hserve, Option.map_some] at hread
    refine ⟨{ t with fs := fs'.bare }, ?_, h.inodes (read_onlyFiles hserve).untouched.inodes⟩
    obtain ⟨hblank, hinos⟩ := read_plain hserve
    show (t.fs.read fh offset size sched).map _ = _
    rw [hread, Option.map_some, hblank, hinos]
    rfl
  | release fh =>
    cases hserve
    refine ⟨_, ?_, h.inodes rfl⟩
    show some _ = some _
    rw [← h.bare]
    rfl

/-! ## And the file system does what the tree shows -/

theorem Op.blank_at (op : Op) (i : UInt64) : (op.at i).blank = op.blank := by
  cases op <;> rfl

theorem Op.blank_blank (op : Op) : op.blank.blank = op.blank := op.blank_at 0

theorem Op.isSome_ino_at (op : Op) (i : UInt64) : (op.at i).ino.isSome = op.ino.isSome := by
  cases op <;> rfl

theorem Tree.serve_at (op : Op) (i : UInt64) (path : Option PathBuf) :
    t.serve d env (op.at i) path = t.serve d env op path := by
  cases op <;> cases path <;> rfl

theorem fill_ends {path : PathBuf} {ino : UInt64} :
    ∀ {items : List ((FileType × String) × Nat)} {table : InodeTable} {reply : ReplyDirectory}
      {n : Nat}, Small n table → Agrees table →
    n + (items.take (reply.room - reply.handed.length + 1)).length < 2 ^ 62 →
    ∃ r, fill d path ino items table reply = some r := by
  intro items
  induction items with
  | nil => exact fun _ _ _ => ⟨_, rfl⟩
  | cons item items ih =>
    intro table reply n hs ha hn
    obtain ⟨⟨kind, name⟩, i⟩ := item
    rw [List.take_succ_cons, List.length_cons] at hn
    obtain ⟨childIno, table₁, hchild, hs₁, ha₁⟩ : ∃ childIno table₁,
        (if name = "." ∨ name = ".." then some (ino, table)
          else table.allocate d.hasher (path.join name)) = some (childIno, table₁) ∧
        Small (n + 1) table₁ ∧ Agrees table₁ := by
      split
      · exact ⟨ino, table, rfl, hs.mono n.le_succ, ha⟩
      · obtain ⟨childIno, table₁, halloc, hs₁⟩ :=
          allocate_ends d.hasher (path.join name) hs ha (by omega)
        exact ⟨childIno, table₁, halloc, hs₁, (allocate_allocated ha halloc).2⟩
    rw [fill, hchild]
    simp only [ReplyDirectory.add]
    by_cases hfull : reply.room ≤ reply.handed.length
    · simp only [decide_eq_true hfull]
      exact ⟨_, rfl⟩
    · simp only [decide_eq_false hfull]
      refine ih hs₁ ha₁ ?_
      have hroom : reply.room - (reply.handed.length + 1) + 1
          = reply.room - reply.handed.length := by omega
      rw [List.length_append, List.length_singleton, hroom]
      omega

/-- A request for a path the kernel knows can be made, and is answered. This is the direction that
    needs room in the inode table, for there the file system has to find a number. -/
theorem Shows.made (h : Shows fs t) {n : Nat} (hs : Small n fs.inodes) {op : Op}
    {path : Option PathBuf} (hasks : t.Asks op path) {answer : Tree.Answer} {t' : Tree}
    (hserve : t.serve d env op path = some (answer, t'))
    (hroom : n + answer.1.handedOver < 2 ^ 62) :
    ∃ i reply fs', (op.at i).ino.bind fs.inodes.forward = path ∧
      fs.serve d env (op.at i) = some (reply, fs') := by
  -- an inode for the path
  obtain ⟨i, hi⟩ : ∃ i, (op.at i).ino.bind fs.inodes.forward = path := by
    cases path with
    | none =>
      obtain ⟨k, -, hvacant⟩ := hs.vacant (show 0 + n < 2 ^ 64 by omega)
      refine ⟨UInt64.ofNat (0 + k), ?_⟩
      cases op <;> first | exact hvacant | rfl
    | some p =>
      obtain ⟨hknown, hino⟩ := hasks p rfl
      obtain ⟨i, hi⟩ := (h.known p).mp hknown
      refine ⟨i, ?_⟩
      cases op with
      | lookup | getattr | readdir | «open» => exact hi
      | read | release => cases hino
  refine ⟨i, ?_⟩
  cases op with
  | getattr ino => exact ⟨_, _, hi, rfl⟩
  | «open» ino flags => exact ⟨_, _, hi, rfl⟩
  | release fh => exact ⟨_, _, hi, rfl⟩
  | read fh offset size sched =>
    obtain ⟨r, hread, -⟩ := Option.map_eq_some_iff.mp hserve
    rw [← h.bare, read_bare] at hread
    obtain ⟨⟨reply, fs'⟩, hread, -⟩ := Option.map_eq_some_iff.mp hread
    exact ⟨reply, fs', hi, hread⟩
  | lookup parent name =>
    have hi : fs.inodes.forward i = path := hi
    suffices hsome : ∃ r, fs.lookup d env i name = some r by
      obtain ⟨⟨reply, fs'⟩, hsome⟩ := hsome
      exact ⟨reply, fs', hi, hsome⟩
    unfold Fs.lookup
    split
    · exact ⟨_, rfl⟩
    · rename_i parentPath _
      split
      · exact ⟨_, rfl⟩
      · rename_i nameStr _
        dsimp only
        split
        · exact ⟨_, rfl⟩
        · rename_i plan hplan
          have hre : Recached env fs (fs.verifyPlanExists env plan).2 :=
            verifyPlanExists_recached (resolve_ok.mp hplan)
          split
          · exact ⟨_, rfl⟩
          · rename_i fs₁ hverify
            rw [hverify] at hre
            obtain ⟨ino, table, halloc, -⟩ :=
              allocate_ends d.hasher (parentPath.join nameStr) hs h.agrees (by omega)
            split
            · rename_i hnone
              rw [hre.inodes, halloc] at hnone
              cases hnone
            · exact ⟨_, rfl⟩
  | readdir ino offset room =>
    have hi : fs.inodes.forward i = path := hi
    suffices hsome : ∃ r, fs.readdir d env i offset room = some r by
      obtain ⟨⟨reply, fs'⟩, hsome⟩ := hsome
      exact ⟨reply, fs', hi, hsome⟩
    cases hpath : path with
    | none =>
      rw [hpath] at hi
      simp only [Fs.readdir, pathOf_none hi]
      exact ⟨_, rfl⟩
    | some p =>
      rw [hpath] at hi hserve
      have hserve : some (t.readdir env p offset room) = some (answer, t') := hserve
      have hanswer := congrArg Prod.fst (Option.some.inj hserve)
      simp only [Fs.readdir, pathOf_ok.mpr hi]
      cases hplan : resolve p with
      | error e => exact ⟨_, rfl⟩
      | ok plan =>
        have hre : Recached env fs (fs.entries env plan).2 := entries_recached
        have hentries := entries_bare fs env plan
        rw [h.bare] at hentries
        simp only [Tree.readdir, hplan, hentries] at hanswer
        dsimp only
        generalize fs.entries env plan = out at hanswer hre ⊢
        obtain ⟨r, fs₁⟩ := out
        cases r with
        | error e => exact ⟨_, rfl⟩
        | ok es =>
          simp only at hanswer hre ⊢
          rw [← hanswer] at hroom
          simp only [Reply.handedOver, List.length_map] at hroom
          obtain ⟨⟨reply, table⟩, hfill⟩ : ∃ r, fill d p i
              (es.zipIdx.drop (asUsize offset.toInt)) fs₁.inodes ⟨room, []⟩ = some r :=
            fill_ends (hre.inodes ▸ hs) (hre.inodes ▸ h.agrees) hroom
          simp only [hfill]
          exact ⟨_, rfl⟩

/-! ## Runs -/

/-- A step of the file system is one of the tree, and is seen as that. -/
theorem Shows.step (h : Shows fs t) {a : Action} {evs : List Event}
    (hstep : (sys d).step fs a = some (fs', evs)) :
    ∃ b t', (Tree.sys d).step t b = some (t', evs.map Event.exchange) ∧ Shows fs' t' := by
  cases a with
  | request env op =>
    obtain ⟨reply, hserve, rfl⟩ := step_request hstep
    obtain ⟨t', hanswer, hshows⟩ := h.serve hserve
    refine ⟨.request env op.blank (op.ino.bind fs.inodes.forward), t', ?_, hshows⟩
    have hasks : t.Asks op.blank (op.ino.bind fs.inodes.forward) := by
      intro p hp
      obtain ⟨i, hino, hi⟩ := Option.bind_eq_some_iff.mp hp
      refine ⟨(h.known p).mpr ⟨i, hi⟩, ?_⟩
      rw [Op.blank, Op.isSome_ino_at, hino]
      rfl
    have hblank : t.serve d env op.blank (op.ino.bind fs.inodes.forward)
        = some ((reply.blank, reply.inos.map fs'.inodes.forward), t') := by
      rw [Op.blank, Tree.serve_at, hanswer]
    simp only [Tree.sys, Tree.step, if_pos hasks, hblank, Op.blank_blank]
    rfl
  | background fh sched =>
    obtain ⟨hback, rfl⟩ := step_background hstep
    refine ⟨.background fh sched, { t with fs := fs'.bare }, ?_,
      h.inodes (background_untouched hback).inodes⟩
    show (t.fs.background fh sched).map _ = _
    rw [← h.bare, background_bare, hback]
    rfl

/-- A step of the tree is one of the file system, if there is room in the inode table. -/
theorem Shows.back (h : Shows fs t) {n : Nat} (hs : Small n fs.inodes) {b : Tree.Action}
    {t' : Tree} {seen : List Exchange} (hstep : (Tree.sys d).step t b = some (t', seen))
    (hroom : n + (seen.map fun s => s.reply.handedOver).sum < 2 ^ 62) :
    ∃ a fs' evs, (sys d).step fs a = some (fs', evs) ∧ evs.map Event.exchange = seen ∧
      Shows fs' t' ∧ Small (n + (seen.map fun s => s.reply.handedOver).sum) fs'.inodes := by
  have hstep : t.step d b = some (t', seen) := hstep
  cases b with
  | request env op path =>
    simp only [Tree.step] at hstep
    split at hstep
    case isFalse => cases hstep
    rename_i hasks
    split at hstep
    case h_1 => cases hstep
    rename_i reply paths t₁ hanswer
    cases hstep
    simp only [List.map_cons, List.map_nil, List.sum_singleton] at hroom ⊢
    obtain ⟨i, reply', fs', hi, hserve⟩ := h.made hs hasks hanswer hroom
    obtain ⟨t₂, hsame, hshows⟩ := h.serve hserve
    -- the tree has one answer
    rw [hi, Tree.serve_at, hanswer] at hsame
    cases hsame
    have hover : reply'.blank.handedOver = reply'.handedOver := by
      cases reply' <;> simp [Reply.blank, Reply.handedOver]
    rw [hover] at hroom ⊢
    refine ⟨.request env (op.at i), fs', _, step_of_serve hserve, ?_, hshows,
      serve_small h.agrees hserve hs hroom.le⟩
    simp only [List.map_cons, List.map_nil, Event.exchange, Op.blank_at, hi]
  | background fh sched =>
    obtain ⟨fs₁, hback, heq⟩ := Option.map_eq_some_iff.mp hstep
    cases heq
    rw [← h.bare, background_bare] at hback
    obtain ⟨fs', hback', rfl⟩ := Option.map_eq_some_iff.mp hback
    have hinodes := (background_untouched hback').inodes
    refine ⟨.background fh sched, fs', [], ?_, rfl, h.inodes hinodes, ?_⟩
    · show (fs.background fh sched).map _ = _
      rw [hback']
      rfl
    · rw [hinodes]
      exact hs

/-- One step of the one is one step of the other, in both directions, so a run is a run. From the
    tree to the file system there must be room in the inode table for what is handed over. -/
theorem exchanges_iff (d : Deps) {uid gid : UInt32} {startTime : Nat} {tailCfg : TailConfig}
    {seen : List Exchange} (hroom : 1 + (seen.map fun s => s.reply.handedOver).sum < 2 ^ 62) :
    (∃ acts tr fs, (sys d).Exec (.new uid gid startTime tailCfg) acts tr fs ∧
      tr.map Event.exchange = seen) ↔
    ∃ acts t, (Tree.sys d).Exec (.new (.new uid gid startTime tailCfg)) acts seen t := by
  constructor
  · rintro ⟨acts, tr, fs, hrun, rfl⟩
    have hone {fs : Fs} {t : Tree} {a : Action} {fs' : Fs} {evs : List Event}
        (hR : Shows fs t) (hstep : (sys d).step fs a = some (fs', evs)) :
        ∃ b t' seen, (Tree.sys d).step t b = some (t', seen) ∧
          seen.map id = evs.map Event.exchange ∧ Shows fs' t' := by
      obtain ⟨b, t', hstep', hshows⟩ := hR.step hstep
      exact ⟨b, t', _, hstep', List.map_id _, hshows⟩
    obtain ⟨bs, tr', t, hrun', htr, -⟩ := hrun.lockstep (N := Tree.sys d) (R := fun _ => Shows)
      Event.exchange id (fun _ => 0) 0 (fun _ _ _ _ _ _ hR hstep _ => hone hR hstep) .new
      (show 0 + _ ≤ 0 by simp [Function.comp_def])
    rw [List.map_id] at htr
    rw [htr] at hrun'
    exact ⟨bs, t, hrun'⟩
  · rintro ⟨bs, t, hrun⟩
    have hone (n : Nat) (t : Tree) (fs : Fs) (b : Tree.Action) (t' : Tree) (seen : List Exchange)
        (hR : Shows fs t ∧ Small n fs.inodes) (hstep : (Tree.sys d).step t b = some (t', seen))
        (hn : n + ((seen.map id).map fun s => s.reply.handedOver).sum ≤ 2 ^ 62 - 1) :
        ∃ a fs' evs, (sys d).step fs a = some (fs', evs) ∧ evs.map Event.exchange = seen.map id ∧
          Shows fs' t' ∧
          Small (n + ((seen.map id).map fun s => s.reply.handedOver).sum) fs'.inodes := by
      rw [List.map_id] at hn ⊢
      exact hR.1.back hR.2 hstep (by omega)
    obtain ⟨acts, tr, fs, hrun', htr, -⟩ := hrun.lockstep (N := sys d)
      (R := fun n t fs => Shows fs t ∧ Small n fs.inodes) id Event.exchange
      (fun s => s.reply.handedOver) (2 ^ 62 - 1) hone ⟨.new, Small.new⟩ (by rw [List.map_id]; omega)
    rw [List.map_id] at htr
    exact ⟨acts, tr, fs, hrun', htr⟩

/-- **The file system is the tree.** What can be seen of it, a request and its reply at a time
    and with paths in the place of inodes, is what can be seen of the tree. No hash function is in
    the tree, so any two of them show the same. -/
theorem exchanges_iff_tree (d : Deps) {uid gid : UInt32} {startTime : Nat} {tailCfg : TailConfig}
    {seen : List Exchange} (hroom : 1 + (seen.map fun s => s.reply.handedOver).sum < 2 ^ 62) :
    ((∃ acts tr fs, (sys d).Exec (.new uid gid startTime tailCfg) acts tr fs ∧
      tr.map Event.exchange = seen) ↔
    ∃ acts t, (Tree.sys d).Exec (.new (.new uid gid startTime tailCfg)) acts seen t) ∧
    ∀ hasher : PathBuf → UInt64,
      (∃ acts tr fs, (sys d).Exec (.new uid gid startTime tailCfg) acts tr fs ∧
        tr.map Event.exchange = seen) ↔
      ∃ acts tr fs, (sys { d with hasher }).Exec (.new uid gid startTime tailCfg) acts tr fs ∧
        tr.map Event.exchange = seen := by
  refine ⟨exchanges_iff d hroom, fun hasher => ?_⟩
  rw [exchanges_iff d hroom, exchanges_iff { d with hasher } hroom]
  rfl

/-- The requests of the sample run, as the tree answers them, and with another hash function. -/
theorem exchanges_iff_tree_glances :
    (∃ acts t, (Tree.sys Sample.deps).Exec (.new Sample.mount) acts
      (((sys Sample.deps).trace Sample.mount Sample.glances).map Event.exchange) t) ∧
    ∃ acts tr fs, (sys { Sample.deps with hasher := fun _ => 7000 }).Exec Sample.mount acts tr fs ∧
      tr.map Event.exchange
        = ((sys Sample.deps).trace Sample.mount Sample.glances).map Event.exchange := by
  have hrun : ∃ acts tr fs, (sys Sample.deps).Exec Sample.mount acts tr fs ∧
      tr.map Event.exchange
        = ((sys Sample.deps).trace Sample.mount Sample.glances).map Event.exchange :=
    ⟨Sample.glances, _, _, Lts.exec_of_isSome (by decide +kernel), rfl⟩
  have hroom : 1 + ((((sys Sample.deps).trace Sample.mount Sample.glances).map
      Event.exchange).map fun s => s.reply.handedOver).sum < 2 ^ 62 := by decide +kernel
  obtain ⟨htree, hhasher⟩ := exchanges_iff_tree Sample.deps hroom
  exact ⟨htree.mp hrun, (hhasher fun _ => 7000).mp hrun⟩

end Fs
end ClickFs
