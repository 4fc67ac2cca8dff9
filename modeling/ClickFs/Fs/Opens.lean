import ClickFs.Fs.Serve

/-!
# Opening what is listed

`readdir` copies the server's names as they are. `lookup` takes a name back through the
identifier validators of `resolve` and through `verify_plan_exists`, and for the three files
every table has it asks for the table, which `readdir` does not. So not everything that is
listed can be opened by name, and `Opens` says what can.

The inode is not the obstacle: `readdir` has allocated it, the table keeps it, and the
lookup gets it without a single probe. It is only the name that is looked at again, and by
stricter rules than the listing has. A file manager shows such a directory and then an
error for each of these names.
-/

set_option autoImplicit false

namespace ClickFs

open Rust Driver Inode

namespace Listings

variable {l : Listings}

/-- What a listed name has to meet to be opened: a database or table name has to be one the
    resolver accepts, the files every table has need the table, and a partition's file a partition
    id the resolver accepts. Decidable, and a condition on the listing alone. -/
def Opens (l : Listings) (dir : QueryPlan) (name : String) : Prop :=
  match dir with
  | ⟨.dbNamespace, _, _⟩ | ⟨.listTables, _, _⟩ => validDbOrTable name = true
  | ⟨.listPartitions, some db, some tbl⟩ =>
    if name ∈ Fs.tableFiles then l.Has (.tables db) tbl
    else ∃ part, name = part ++ ".tsv" ∧ validIdentifier part = true
  | _ => True

/-- The files every table has are there when the table is. -/
theorem tableFile_child_iff {db tbl name : String} (hname : name ∈ Fs.tableFiles) :
    (∃ plan, Child ⟨.listPartitions, some db, some tbl⟩ name plan ∧ l.Verifies plan ∧
      plan.fileType = .regularFile) ↔ l.Has (.tables db) tbl := by
  obtain ⟨kind, hleaf, hneeds⟩ := Fs.leaf_of_tableFiles hname db tbl
  constructor
  · intro ⟨plan, hchild, hverified, _⟩
    cases hchild with
    | file hleaf' =>
      obtain rfl := hleaf.unique hleaf'
      exact hverified _ _ hneeds
  · intro htbl
    have hfile := hleaf.isFile (some db) (some tbl)
    exact ⟨_, .file hleaf, verifies_of_needs hneeds htbl, by rw [QueryPlan.fileType, hfile]; rfl⟩

/-- A partition's file is there when its id is one the resolver accepts. -/
theorem partition_child_iff {db tbl part : String} (hname : part ++ ".tsv" ∉ Fs.tableFiles)
    (hlisted : l.Has (.partitions db tbl) part) :
    (∃ plan, Child ⟨.listPartitions, some db, some tbl⟩ (part ++ ".tsv") plan ∧ l.Verifies plan ∧
      plan.fileType = .regularFile) ↔
      ∃ part', part ++ ".tsv" = part' ++ ".tsv" ∧ validIdentifier part' = true := by
  constructor
  · intro ⟨plan, hchild, _, _⟩
    generalize htsv : part ++ ".tsv" = name at hchild hname
    cases hchild with
    | file hleaf =>
      cases hleaf with
      | schema => exact absurd (by decide) hname
      | readme => exact absurd (by decide) hname
      | all => exact absurd (by decide) hname
      | @partition part' hvalid _ => exact ⟨part', rfl, hvalid⟩
  · intro ⟨part', htsv, hvalid⟩
    have hstrip := stripSuffix_append part ".tsv"
    rw [htsv, stripSuffix_append, Option.some.injEq] at hstrip
    subst hstrip
    have hall : part' ≠ "all" := by
      intro hall
      subst hall
      exact hname (by decide)
    exact ⟨_, .file (.partition hvalid hall), verifies_of_needs rfl hlisted, rfl⟩

/-- A name that is listed stands for an existing child of the listed kind exactly when it opens. -/
theorem Lists.child_iff {dir : QueryPlan} {kind : FileType} {name : String}
    (h : l.Lists dir kind name) :
    (∃ plan, Child dir name plan ∧ l.Verifies plan ∧ plan.fileType = kind) ↔ l.Opens dir name := by
  cases h with
  | root =>
    have hverified : l.Verifies ⟨.dbNamespace, none, none⟩ := by
      intro src name hneeds
      cases hneeds
    exact ⟨fun _ => trivial, fun _ => ⟨_, .dbNamespace, hverified, rfl⟩⟩
  | database h =>
    constructor
    · intro ⟨plan, hchild, _, _⟩
      cases hchild with
      | database hdb => exact hdb
    · intro hdb
      exact ⟨_, .database hdb, verifies_of_needs rfl h, rfl⟩
  | table h =>
    constructor
    · intro ⟨plan, hchild, _, _⟩
      cases hchild with
      | table htbl => exact htbl
    · intro htbl
      exact ⟨_, .table htbl, verifies_of_needs rfl h, rfl⟩
  | always hname => rw [tableFile_child_iff hname, Opens, if_pos hname]
  | @partition db tbl part h =>
    by_cases hname : part ++ ".tsv" ∈ Fs.tableFiles
    · rw [tableFile_child_iff hname, Opens, if_pos hname]
    · rw [partition_child_iff hname h, Opens, if_neg hname]

/-- Listed names are not empty, when no name in the listings is. -/
theorem Lists.ne_nil {dir : QueryPlan} {kind : FileType} {name : String}
    (hl : ∀ src n, l.Has src n → n ≠ "") (h : l.Lists dir kind name) : name ≠ "" := by
  cases h with
  | root => decide
  | database h => exact hl _ _ h
  | table h => exact hl _ _ h
  | always h =>
    obtain ⟨kind, hleaf, -⟩ := Fs.leaf_of_tableFiles h "" ""
    exact hleaf.isName.ne_nil
  | @partition db tbl part h =>
    intro hnil
    have hlen := congrArg (fun s => s.toList.length) hnil
    simp at hlen

end Listings

namespace Fs

variable {d : Deps} {fs : Fs} {env : Env}

theorem answers_kept (env : Env) :
    Answers (fun src names => ∀ n ∈ names, src.keep n = true) env := by
  intro src body _ n hn
  exact (List.mem_filter.mp hn).2

/-- **What is listed, and what of it opens.** For an entry a `readdir` hands over at any time
    of a run, and a lookup of its name at any later time, on the same listings: the lookup
    replies with an entry of the listed kind if and only if the name `Opens`. The kernel
    looks up no name with a slash in it. -/
theorem listed_opens_iff {uid gid : UInt32} {startTime : Nat} {tailCfg : TailConfig}
    {acts : List Action} {tr : List Event}
    (hrun : (sys d).Exec (.new uid gid startTime tailCfg) acts tr fs)
    {ino : UInt64} {offset : Int64} {room : Nat} {reply : ReplyDirectory} {fs₁ : Fs}
    (hreaddir : fs.readdir d env ino offset room = some (.directory reply, fs₁))
    {e : DirEntry} (he : e ∈ reply.handed) (hdots : ¬ e.IsDots) (hslash : '/' ∉ e.name.toList)
    {acts' : List Action} {tr' : List Event} {fs₂ : Fs} (hlater : (sys d).Exec fs₁ acts' tr' fs₂)
    {env₂ : Env} (hsame : fs₂.listings env₂ = fs.listings env) :
    ∃ path dir, fs.inodes.lookup ino = some path ∧ resolve path = .ok dir ∧
      ((∃ attr fs₃, fs₂.lookup d env₂ ino e.name.toUTF8 = some (.entry entryTtl attr 0, fs₃) ∧
          attr.kind = e.kind) ↔ (fs.listings env).Opens dir e.name) := by
  have hagrees : Agrees fs.inodes := (exec_grows hrun (new_agrees _ _ _ _)).agrees
  have hkept : CachedAll (fun src names => ∀ n ∈ names, src.keep n = true) fs := by
    refine exec_cachedAll hrun (fun a _ => ?_) (.new ..)
    cases a with
    | request env op => exact answers_kept env
    | background fh sched => trivial
  cases readdir_cases hreaddir with
  | @listed path dir es _ handed inodes hpath hres hes hre hof hfilled =>
    have hfilled := hfilled hagrees
    have hgrows := exec_grows hlater hfilled.agrees
    have hlists := lists_of_handed hres hes hof he hdots
    have hname : PathBuf.IsName e.name := by
      refine ⟨hslash, hlists.ne_nil fun src n hhas => ?_, fun h => hdots (.inl h),
        fun h => hdots (.inr h)⟩
      obtain ⟨names, hnames, hmem⟩ := hhas
      exact Source.keep_ne_nil (listings_all hkept (answers_kept env) hnames n hmem)
    have hparent : fs₂.inodes.forward ino = some path :=
      hgrows.extend _ _ (hfilled.extend _ _ hpath)
    have halloc : fs₂.inodes.reverse (path.join e.name) = some e.ino :=
      hgrows.keep _ _ (hfilled.entry e he hdots)
    refine ⟨path, dir, hpath, resolve_ok.mpr hres, ?_⟩
    rw [← hlists.child_iff, ← hsame]
    constructor
    · intro ⟨attr, fs₃, hlookup, hkind⟩
      cases lookup_cases hlookup with
      | found hpath' hname' hres' hverified _ _ =>
        rw [toStr_toUTF8, Option.some.injEq] at hname'
        subst hname'
        obtain rfl := Option.some.inj (hparent.symm.trans hpath')
        rw [PathBuf.join_of_isName hname] at hres'
        obtain ⟨dir', hdir', hchild⟩ := resolved_snoc.mp hres'
        obtain rfl := hres.unique hdir'
        rw [attrForPlan_kind] at hkind
        exact ⟨_, hchild, hverified, hkind⟩
    · intro ⟨plan, hchild, hverified, hkind⟩
      have hres' : Resolved (path.join e.name).comps plan := by
        rw [PathBuf.join_of_isName hname]
        exact resolved_snoc.mpr ⟨dir, hres, hchild⟩
      obtain ⟨fs₃, hlookup, -⟩ :=
        lookup_found (d := d) hparent hres' hverified (allocate_of_reverse halloc)
      exact ⟨_, fs₃, hlookup, by rw [attrForPlan_kind, hkind]⟩

theorem Sample.listed : ∃ tr fs, (sys Sample.deps).Exec Sample.mount
    [.request Sample.server (.readdir 1 0 8)] tr fs ∧
    fs.inodes.lookup 100 = some ⟨[.normal "db"]⟩ ∧
    ⟨101, 3, .directory, "default"⟩ ∈ Sample.sentBy (fs.readdir Sample.deps Sample.server 100 0 8) ∧
    ⟨102, 4, .directory, "my-db"⟩ ∈ Sample.sentBy (fs.readdir Sample.deps Sample.server 100 0 8) :=
  ⟨_, _, Lts.exec_of_isSome (by decide +kernel), by decide +kernel⟩

/-- A database with a plain name is opened. -/
theorem listed_opens_iff_default : ∃ (fs fs₁ fs₂ : Fs) (attr : FileAttr),
    fs₁.listings Sample.server = fs.listings Sample.server ∧
    fs₁.lookup Sample.deps Sample.server 100 "default".toUTF8
      = some (.entry entryTtl attr 0, fs₂) ∧ attr.kind = .directory := by
  obtain ⟨tr, fs, hrun, hpath, hdefault, -⟩ := Sample.listed
  obtain ⟨reply, fs₁, hreaddir, he⟩ := Sample.of_mem_sentBy hdefault
  have hsame : fs₁.listings Sample.server = fs.listings Sample.server :=
    readdir_again (by decide) hreaddir
  obtain ⟨path, dir, hpath', hdir, hiff⟩ := listed_opens_iff hrun hreaddir (List.mem_of_mem_take he)
    (by decide) (by decide) (.nil fs₁) hsame
  obtain rfl := Option.some.inj (hpath.symm.trans hpath')
  have hdb : resolve ⟨[.normal "db"]⟩ = .ok ⟨.dbNamespace, none, none⟩ := by decide +kernel
  obtain rfl := Except.ok.inj (hdb.symm.trans hdir)
  have hopens : (fs.listings Sample.server).Opens ⟨.dbNamespace, none, none⟩ "default" := by
    show validDbOrTable "default" = true
    decide
  obtain ⟨attr, fs₂, hlookup, hkind⟩ := hiff.mpr hopens
  exact ⟨fs, fs₁, fs₂, attr, hsame, hlookup, hkind⟩

/-- A database called `my-db` is listed, and not opened. ClickHouse allows the name when it is
    quoted, and the listing passes it on. -/
theorem my_db_not_opened : ∃ (tr : List Event) (fs fs₁ : Fs) (reply : ReplyDirectory) (e : DirEntry),
    (sys Sample.deps).Exec Sample.mount [.request Sample.server (.readdir 1 0 8)] tr fs ∧
    fs.readdir Sample.deps Sample.server 100 0 8 = some (.directory reply, fs₁) ∧
    e ∈ reply.sent ∧ e.kind = .directory ∧ e.name = "my-db" ∧
    fs₁.listings Sample.server = fs.listings Sample.server ∧
    fs₁.lookup Sample.deps Sample.server 100 e.name.toUTF8 = some (.error .enoent, fs₁) := by
  obtain ⟨tr, fs, hrun, hpath, -, hmyDb⟩ := Sample.listed
  obtain ⟨reply, fs₁, hreaddir, he⟩ := Sample.of_mem_sentBy hmyDb
  have hgrows := exec_grows hrun (new_agrees _ _ _ _)
  have hserve : fs.serve Sample.deps Sample.server (.readdir 100 0 8) = some (.directory reply, fs₁) :=
    hreaddir
  have hpath₁ : fs₁.inodes.forward 100 = some ⟨[.normal "db"]⟩ :=
    (serve_grows hgrows.agrees hserve).1.extend _ _ hpath
  have hresolve : resolve ((⟨[.normal "db"]⟩ : PathBuf).join "my-db")
      = .error (.invalidIdentifier "my-db") := by decide +kernel
  exact ⟨tr, fs, fs₁, reply, _, hrun, hreaddir, he, rfl, rfl, readdir_again (by decide) hreaddir,
    lookup_unresolved hpath₁ hresolve⟩

end Fs
end ClickFs
