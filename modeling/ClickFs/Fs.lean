import ClickFs.Cache
import ClickFs.Driver
import ClickFs.Inode
import ClickFs.Resolver
import ClickFs.Stream.Handle

/-!
# `fs.rs` — the file system

`fuser` hands the requests over one at a time (`&mut self`), so a request is one step
and the file system is a system of requests, `sys`. What a request meets outside the
program is its `Env`: the clock, and what the server answers while the request is
served. Nothing relates the answers of two requests: the server changes as it likes.

## What is outside

* `Deps` holds the functions that are not the file system's own: the hash function of
  the inode table, `serde_json`, and the text of a README.
* How much of a listing fits into the kernel's buffer is `room`, part of the request.
* A read of a stream file runs the file's own system (`Stream.sys`) under a schedule
  that is part of the request. Between requests its task moves by `background`.

`allocate` returns nothing when its loop does not end, and then the request is not
answered and no step is taken. `statfs` and the mutating operations, which all answer
`EROFS`, touch no state and are left out.
-/

set_option autoImplicit false

namespace ClickFs

open Rust Driver

/-- `TTL` -/
def entryTtl : Nat := fromMillis 1000

def blockSize : UInt32 := 4096

/-- A JSON value, by the two ways it is looked at. -/
inductive Json
  | string (s : String)
  | number (n : UInt64)
  | other
deriving DecidableEq, Repr

/-- `v.as_str()` -/
def Json.asStr : Json → Option String
  | .string s => some s
  | _ => none

structure Deps where
  /-- `ahash` -/
  hasher : PathBuf → UInt64
  /-- `serde_json::from_str`, then `get` -/
  fromStr : String → Option (String → Option Json)
  /-- `readme::render`, given what the server answers -/
  render : (String → Except QueryError String) → String → String → String

/-- What one request meets: two instants, and a server as it is just then. The two are apart
    because the answer is stamped when it arrives. -/
structure Env where
  /-- when the cache is read -/
  now : Nat
  /-- when an answer is put into the cache -/
  stamp : Nat
  /-- `query_text` -/
  query : String → Except QueryError String
  /-- `query_stream_with_id` -/
  stream : String → Stream.Upstream

inductive FileType
  | directory | regularFile
deriving DecidableEq, Repr

structure FileAttr where
  ino : UInt64
  size : UInt64
  blocks : UInt64
  atime : Nat
  mtime : Nat
  ctime : Nat
  crtime : Nat
  kind : FileType
  perm : UInt16
  nlink : UInt32
  uid : UInt32
  gid : UInt32
  rdev : UInt32
  flags : UInt32
  blksize : UInt32
deriving DecidableEq

/-- Per-open-file handle state. A special file is rendered at `open`; a stream is a machine of its
    own. -/
inductive FileHandle
  | stream (s : Stream.Handle)
  | special (bytes : List UInt8)

/-- `struct ClickFs` -/
structure Fs where
  inodes : InodeTable
  fhCounter : UInt64
  handles : UInt64 → Option FileHandle
  uid : UInt32
  gid : UInt32
  startTime : Nat
  tailCfg : TailConfig
  dbCache : TtlCache Unit (List String)
  tableCache : TtlCache String (List String)
  partCache : TtlCache (String × String) (List String)

namespace Fs

def new (uid gid : UInt32) (startTime : Nat) (tailCfg : TailConfig) : Fs :=
  let ttl := fromMillis 2000
  { inodes := .new, fhCounter := 1, handles := fun _ => none, uid, gid, startTime, tailCfg
    dbCache := .new ttl, tableCache := .new ttl, partCache := .new ttl }

/-! ## Attributes -/

def dirAttr (fs : Fs) (ino : UInt64) : FileAttr :=
  { ino, size := 0, blocks := 0
    atime := fs.startTime, mtime := fs.startTime, ctime := fs.startTime, crtime := fs.startTime
    kind := .directory, perm := 0o555, nlink := 2, uid := fs.uid, gid := fs.gid
    rdev := 0, flags := 0, blksize := blockSize }

/-- `a.div_ceil(b)` -/
def divCeil (a b : UInt64) : UInt64 := if a % b = 0 then a / b else a / b + 1

def fileAttr (fs : Fs) (ino size : UInt64) : FileAttr :=
  { ino, size, blocks := divCeil size blockSize.toUInt64
    atime := fs.startTime, mtime := fs.startTime, ctime := fs.startTime, crtime := fs.startTime
    kind := .regularFile, perm := 0o444, nlink := 1, uid := fs.uid, gid := fs.gid
    rdev := 0, flags := 0, blksize := blockSize }

def attrForPlan (fs : Fs) (ino : UInt64) (plan : QueryPlan) : FileAttr :=
  if plan.isDir then fs.dirAttr ino
  else if plan.isSpecialFile then fs.fileAttr ino 4096
  else fs.fileAttr ino Stream.pseudoEof

def pathOf (fs : Fs) (ino : UInt64) : Except ClickFsError PathBuf :=
  match fs.inodes.lookup ino with
  | some path => .ok path
  | none => .error .notFound

/-! ## Listings -/

/-- The shared shape of the three `fetch_*`: the cached listing, or the lines of the server's
    answer that pass `keep`, which are cached. A failed query is not cached. -/
def fetchVia {κ : Type} [DecidableEq κ] (cache : TtlCache κ (List String)) (key : κ)
    (sql : String) (keep : String → Bool) (env : Env) :
    Except ClickFsError (List String) × TtlCache κ (List String) :=
  match cache.get key env.now with
  | (some v, cache) => (.ok v, cache)
  | (none, cache) =>
    match env.query sql with
    | .error e => (.error (.query e), cache)
    | .ok body =>
      let v := (lines body).filter keep
      (.ok v, cache.insert key v env.stamp)

def keepName (s : String) : Bool := !s.isEmpty

/-- The pseudo-partition "all" of a table without partitions would collide with the whole-table
    file, and is dropped. -/
def keepPartition (s : String) : Bool := !s.isEmpty && s != "all"

def fetchDatabases (fs : Fs) (env : Env) : Except ClickFsError (List String) × Fs :=
  let (r, dbCache) := fetchVia fs.dbCache () sqlListDatabases keepName env
  (r, { fs with dbCache })

def fetchTables (fs : Fs) (env : Env) (db : String) : Except ClickFsError (List String) × Fs :=
  let (r, tableCache) := fetchVia fs.tableCache db (sqlListTables db) keepName env
  (r, { fs with tableCache })

def fetchPartitions (fs : Fs) (env : Env) (db tbl : String) :
    Except ClickFsError (List String) × Fs :=
  let (r, partCache) := fetchVia fs.partCache (db, tbl) (sqlListPartitions db tbl) keepPartition env
  (r, { fs with partCache })

def fetchDescribe (env : Env) (db tbl : String) : Except ClickFsError String :=
  match env.query (sqlDescribe db tbl) with
  | .error e => .error (.query e)
  | .ok text => .ok text

/-- Prefers `primary_key`, falls back to `sorting_key`, then to `tuple()`. -/
def fetchTailOrderExpr (d : Deps) (env : Env) (db tbl : String) : String :=
  match env.query (sqlTablePk db tbl) with
  | .error _ => "tuple()"
  | .ok body =>
    match d.fromStr ((lines body).head?.getD "") with
    | none => "tuple()"
    | some v =>
      let pk := ((v "primary_key").bind Json.asStr).getD ""
      if !(trim pk).isEmpty then pk
      else
        let sk := ((v "sorting_key").bind Json.asStr).getD ""
        if !(trim sk).isEmpty then sk else "tuple()"

/-- `.iter().any(|x| x == name)` on a listing that may have failed -/
def listed (name : String) : Except ClickFsError (List String) → Except ClickFsError Unit
  | .error e => .error e
  | .ok names => if name ∈ names then .ok () else .error .notFound

/-- Verify the plan corresponds to a real ClickHouse object by checking the parent's listing. The
    three files every table has are checked in the listing of tables. -/
def verifyPlanExists (fs : Fs) (env : Env) (plan : QueryPlan) : Except ClickFsError Unit × Fs :=
  match plan.kind, plan.db, plan.table with
  | .root, _, _ | .dbNamespace, _, _ => (.ok (), fs)
  | .listTables, some db, _ =>
    let (names, fs) := fs.fetchDatabases env
    (listed db names, fs)
  | .listPartitions, some db, some t | .describeTable, some db, some t
  | .readme, some db, some t | .streamAll, some db, some t =>
    let (names, fs) := fs.fetchTables env db
    (listed t names, fs)
  | .streamPartition part, some db, some t =>
    let (names, fs) := fs.fetchPartitions env db t
    (listed part names, fs)
  | _, _, _ => (.error .notFound, fs)

/-! ## Requests and replies -/

/-- An entry handed to `reply.add`. -/
structure DirEntry where
  ino : UInt64
  offset : Int64
  kind : FileType
  name : String
deriving DecidableEq

/-- The kernel's buffer holds `room` entries; `handed` are those handed over, in order. The last
    of them may be one that did not fit. -/
structure ReplyDirectory where
  room : Nat
  handed : List DirEntry
deriving DecidableEq

namespace ReplyDirectory

/-- `reply.add`: whether the buffer is full. The entry it says so for is not in it. -/
def add (reply : ReplyDirectory) (entry : DirEntry) : Bool × ReplyDirectory :=
  (decide (reply.room ≤ reply.handed.length), { reply with handed := reply.handed ++ [entry] })

/-- What the kernel gets: the entries there was room for. -/
def sent (reply : ReplyDirectory) : List DirEntry := reply.handed.take reply.room

end ReplyDirectory

inductive Reply
  | error (e : Errno)
  | entry (ttl : Nat) (attr : FileAttr) (generation : UInt64)
  | attr (ttl : Nat) (attr : FileAttr)
  | directory (reply : ReplyDirectory)
  | opened (fh : UInt64) (flags : UInt32)
  | data (bytes : List UInt8)
  | ok
  /-- a panic inside `read_blocking` -/
  | panicked

/-- `reply.error(e.to_errno())` -/
def Reply.err (e : ClickFsError) : Reply := .error e.toErrno

def lookup (d : Deps) (fs : Fs) (env : Env) (parent : UInt64) (name : OsStr) :
    Option (Reply × Fs) :=
  match fs.pathOf parent with
  | .error e => some (.err e, fs)
  | .ok parentPath =>
    match toStr name with
    | none => some (.error .enoent, fs)
    | some nameStr =>
      let child := parentPath.join nameStr
      match resolve child with
      | .error e => some (.err e, fs)
      | .ok plan =>
        match fs.verifyPlanExists env plan with
        | (.error e, fs) => some (.err e, fs)
        | (.ok (), fs) =>
          match fs.inodes.allocate d.hasher child with
          | none => none
          | some (ino, inodes) =>
            some (.entry entryTtl (fs.attrForPlan ino plan) 0, { fs with inodes })

def getattr (fs : Fs) (ino : UInt64) : Reply × Fs :=
  if ino = inoRoot then (.attr entryTtl (fs.dirAttr inoRoot), fs)
  else
    match fs.pathOf ino with
    | .error e => (.err e, fs)
    | .ok path =>
      match resolve path with
      | .ok plan => (.attr entryTtl (fs.attrForPlan ino plan), fs)
      | .error e => (.err e, fs)

/-- What every directory begins with. -/
def dots : List (FileType × String) := [(.directory, "."), (.directory, "..")]

/-- Always-present meta + AI files + all.tsv. -/
def tableFiles : List String := [".schema", "README.md", "all.tsv"]

/-- The entries vector of `readdir`. The plan comes from `resolve`, which sets the fields that are
    unwrapped here. -/
def entries (fs : Fs) (env : Env) (plan : QueryPlan) :
    Except ClickFsError (List (FileType × String)) × Fs :=
  match plan.kind with
  | .root => (.ok (dots ++ [(.directory, "db")]), fs)
  | .dbNamespace =>
    let (r, fs) := fs.fetchDatabases env
    (r.map fun dbs => dots ++ dbs.map (FileType.directory, ·), fs)
  | .listTables =>
    let (r, fs) := fs.fetchTables env plan.db.get!
    (r.map fun tbls => dots ++ tbls.map (FileType.directory, ·), fs)
  | .listPartitions =>
    let (r, fs) := fs.fetchPartitions env plan.db.get! plan.table.get!
    let parts := match r with
      | .ok parts => parts
      | .error _ => [] -- non-fatal
    (.ok (dots ++ tableFiles.map (FileType.regularFile, ·)
      ++ parts.map fun p => (FileType.regularFile, p ++ ".tsv")), fs)
  | _ => (.error .notADir, fs)

/-- The loop of `readdir`: an inode for each entry, until the buffer is full. The inode is
    allocated before the entry is offered, so the one that is refused has one too. -/
def fill (d : Deps) (path : PathBuf) (ino : UInt64) :
    List ((FileType × String) × Nat) → InodeTable → ReplyDirectory →
    Option (ReplyDirectory × InodeTable)
  | [], table, reply => some (reply, table)
  | ((kind, name), i) :: rest, table, reply =>
    match (if name = "." ∨ name = ".." then some (ino, table)
      else table.allocate d.hasher (path.join name)) with
    | none => none
    | some (childIno, table) =>
      match reply.add ⟨childIno, Int64.ofNat (i + 1), kind, name⟩ with
      | (true, reply) => some (reply, table)
      | (false, reply) => fill d path ino rest table reply

def readdir (d : Deps) (fs : Fs) (env : Env) (ino : UInt64) (offset : Int64) (room : Nat) :
    Option (Reply × Fs) :=
  match fs.pathOf ino with
  | .error e => some (.err e, fs)
  | .ok path =>
    match resolve path with
    | .error e => some (.err e, fs)
    | .ok plan =>
      match fs.entries env plan with
      | (.error e, fs) => some (.err e, fs)
      | (.ok entries, fs) =>
        match fill d path ino (entries.zipIdx.drop (asUsize offset.toInt)) fs.inodes ⟨room, []⟩ with
        | none => none
        | some (reply, inodes) => some (.directory reply, { fs with inodes })

/-- What `open` puts into the table, unless it fails. Rendered files and streams get their
    content, or its source, here; a stream's query is not awaited. -/
def openHandle (d : Deps) (fs : Fs) (env : Env) (plan : QueryPlan) : Except Errno FileHandle :=
  let db := plan.db.get!
  let tbl := plan.table.get!
  let spawn (sql : String) (partition : Option String) : FileHandle :=
    let tail : Option Stream.TailContext :=
      if fs.tailCfg.enabled then
        some ⟨db, tbl, fetchTailOrderExpr d env db tbl, partition, fs.tailCfg.rows⟩
      else none
    .stream (Stream.Handle.spawn (env.stream sql) tail)
  match plan.kind with
  | .describeTable =>
    match fetchDescribe env db tbl with
    | .ok text => .ok (.special text.toUTF8.data.toList)
    | .error e => .error e.toErrno
  | .readme => .ok (.special (d.render env.query db tbl).toUTF8.data.toList)
  | .streamAll => .ok (spawn (sqlStreamAll db tbl) none)
  | .streamPartition part => .ok (spawn (sqlStreamPartition db tbl part) (some part))
  | _ => .error .eisdir

/-- `libc::O_ACCMODE`; `O_RDONLY` is 0 -/
def oAccmode : Int32 := 3

def fopenDirectIo : UInt32 := 1

/-- `open` -/
def «open» (d : Deps) (fs : Fs) (env : Env) (ino : UInt64) (flags : Int32) : Reply × Fs :=
  -- Reject any write intent.
  if flags &&& oAccmode ≠ 0 then (.error .erofs, fs)
  else
    match fs.pathOf ino with
    | .error e => (.err e, fs)
    | .ok path =>
      match resolve path with
      | .error e => (.err e, fs)
      | .ok plan =>
        let fh := fs.fhCounter
        let fs := { fs with fhCounter := fh + 1 }
        match fs.openHandle d env plan with
        | .error e => (.error e, fs)
        | .ok handle =>
          (.opened fh fopenDirectIo,
            { fs with handles := Function.update fs.handles fh (some handle) })

/-- The steps a stream takes while a read waits for it: its task's, and those of the one reader
    there is. -/
def isInner : Stream.Action → Bool
  | .call _ _ _ | .release | .drop | .dropRx => false
  | _ => true

/-- `read_blocking`, under a schedule that ends it. A schedule that does not is no answer to the
    request. -/
def readBlocking (s : Stream.Handle) (offset : UInt64) (size : Nat) (sched : List Stream.Action) :
    Option (Stream.ReadReply × Stream.Handle) :=
  if sched.all isInner then
    match Stream.sys.run s (.call 0 offset size :: sched) with
    | none => none
    | some (s, tr) =>
      match tr.getLast? with
      | some (.read ev) => some (ev.reply, s)
      | _ => none
  else none

def read (fs : Fs) (fh : UInt64) (offset : Int64) (size : UInt32) (sched : List Stream.Action) :
    Option (Reply × Fs) :=
  let off := max offset 0
  match fs.handles fh with
  | none => some (.error .ebadf, fs)
  | some (.special bytes) =>
    let off := off.toInt.toNat
    if bytes.length ≤ off then some (.data [], fs)
    else
      match slice? bytes off (min (off + size.toNat) bytes.length) with
      | none => some (.panicked, fs)
      | some out => some (.data out, fs)
  | some (.stream s) =>
    match readBlocking s off.toUInt64 size.toNat sched with
    | none => none
    | some (reply, s) =>
      let fs := { fs with handles := Function.update fs.handles fh (some (.stream s)) }
      match reply with
      | .ok buf => some (.data buf, fs)
      | .err e => some (.err e, fs)
      | .panicked => some (.panicked, fs)

/-- `release`: the handle leaves the table. A stream's own system goes on with `release`, `drop`
    and `dropRx`, and what becomes of it is no matter of the file system. -/
def release (fs : Fs) (fh : UInt64) : Reply × Fs :=
  (.ok, { fs with handles := Function.update fs.handles fh none })

/-- The tasks of the open streams move between requests. -/
def background (fs : Fs) (fh : UInt64) (sched : List Stream.Action) : Option Fs :=
  match fs.handles fh with
  | some (.stream s) =>
    if sched.all isInner then
      match Stream.sys.run s sched with
      | some (s, _) => some { fs with handles := Function.update fs.handles fh (some (.stream s)) }
      | none => none
    else none
  | _ => none

inductive Op
  | lookup (parent : UInt64) (name : OsStr)
  | getattr (ino : UInt64)
  | readdir (ino : UInt64) (offset : Int64) (room : Nat)
  | open (ino : UInt64) (flags : Int32)
  | read (fh : UInt64) (offset : Int64) (size : UInt32) (sched : List Stream.Action)
  | release (fh : UInt64)

inductive Action
  | request (env : Env) (op : Op)
  | background (fh : UInt64) (sched : List Stream.Action)

/-- A request that has been answered, with the states around it. The properties of the file system
    are stated over a trace of these. -/
structure Event where
  env : Env
  op : Op
  before : Fs
  reply : Reply
  after : Fs

def serve (d : Deps) (fs : Fs) (env : Env) : Op → Option (Reply × Fs)
  | .lookup parent name => fs.lookup d env parent name
  | .getattr ino => some (fs.getattr ino)
  | .readdir ino offset room => fs.readdir d env ino offset room
  | .open ino flags => some (fs.open d env ino flags)
  | .read fh offset size sched => fs.read fh offset size sched
  | .release fh => some (fs.release fh)

def step (d : Deps) (fs : Fs) : Action → Option (Fs × List Event)
  | .request env op =>
    match fs.serve d env op with
    | none => none
    | some (reply, fs') => some (fs', [⟨env, op, fs, reply, fs'⟩])
  | .background fh sched => (fs.background fh sched).map fun fs' => (fs', [])

/-- The file system: every sequence of requests. -/
def sys (d : Deps) : Lts Fs Action Event := ⟨step d⟩

end Fs
end ClickFs
