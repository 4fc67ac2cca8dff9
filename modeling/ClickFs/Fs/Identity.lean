import ClickFs.Fs.Serve

/-!
# Lookup, readdir and getattr agree on identity

Each of the three works out the path, the plan, the inode and the attributes for itself.
What they agree on is the reverse map of the inode table: whatever a request reports for a
name is what the map has for the path of the directory joined with the name, then and ever
after (`Reports.reverse`). The kind is decided by the plan of the path alone, and the rest of
the attributes by the plan and by what the mount was made with, which no request changes.
-/

set_option autoImplicit false

namespace ClickFs

open Rust Driver Inode

/-- What a directory lists under a name is of the kind of what the name stands for. -/
theorem Listings.Lists.kind_of_child {l : Listings} {dir plan : QueryPlan} {kind : FileType}
    {name : String} (h : l.Lists dir kind name) (hchild : Child dir name plan) :
    kind = plan.fileType := by
  cases hchild with
  | dbNamespace => cases h; rfl
  | database => cases h; rfl
  | table => cases h; rfl
  | @file db tbl _ kind' hleaf =>
    have hfile : (QueryPlan.mk kind' (some db) (some tbl)).isDir = false := hleaf.isFile _ _
    rw [QueryPlan.fileType, hfile]
    cases h <;> rfl

namespace Fs

variable {d : Deps} {fs fs' : Fs} {env : Env}

/-- The request reported the inode and the kind for a name in the directory: it is a lookup
    that was answered with an entry, or a `readdir` that handed one over. -/
inductive Reports (ev : Event) (dir : UInt64) : String → UInt64 → FileType → Prop
  | lookup {name : String} {ttl : Nat} {attr : FileAttr} {generation : UInt64}
      (hop : ev.op = .lookup dir name.toUTF8) (hreply : ev.reply = .entry ttl attr generation) :
      Reports ev dir name attr.ino attr.kind
  | readdir {offset : Int64} {room : Nat} {reply : ReplyDirectory} {e : DirEntry}
      (hop : ev.op = .readdir dir offset room) (hreply : ev.reply = .directory reply)
      (he : e ∈ reply.handed) (hdots : ¬ e.IsDots) : Reports ev dir e.name e.ino e.kind

/-! ## What the mount was made with -/

/-- No request changes what attributes are made of: the owner and the times are the mount's, set
    when it was made. -/
theorem serve_attrForPlan {op : Op} {reply : Reply} (h : fs.serve d env op = some (reply, fs')) :
    fs'.attrForPlan = fs.attrForPlan := by
  have hfiles (hop : op.namesFiles = false) : fs'.attrForPlan = fs.attrForPlan := by
    obtain ⟨_, _, rfl⟩ := serve_onlyFiles hop h
    rfl
  cases op with
  | lookup parent name =>
    cases lookup_cases h with
    | refused hre =>
      funext ino plan
      exact hre.attrForPlan ino plan
    | found _ _ _ _ hre _ =>
      funext ino plan
      exact hre.attrForPlan ino plan
  | readdir ino offset room =>
    cases readdir_cases h with
    | refused hre =>
      funext ino plan
      exact hre.attrForPlan ino plan
    | listed _ _ _ hre _ _ =>
      funext ino plan
      exact hre.attrForPlan ino plan
  | getattr ino => exact hfiles rfl
  | «open» ino flags => exact hfiles rfl
  | read fh offset size sched => exact hfiles rfl
  | release fh => exact hfiles rfl

theorem exec_attrForPlan {acts : List Action} {tr : List Event} (h : (sys d).Exec fs acts tr fs') :
    fs'.attrForPlan = fs.attrForPlan := by
  refine h.invariant (I := fun fs₁ => fs₁.attrForPlan = fs.attrForPlan) ?_ rfl
  intro fs₁ a fs₂ evs hsame hstep
  cases a with
  | request env op =>
    obtain ⟨reply, hserve, -⟩ := step_request hstep
    exact (serve_attrForPlan hserve).trans hsame
  | background fh sched =>
    obtain ⟨_, _, rfl⟩ := background_onlyFiles (step_background hstep).1
    exact hsame

/-! ## An event in a run -/

/-- What is known of an event of a run that ends in `fs'`: what it has put into the inode table is
    still there. -/
structure Answered (d : Deps) (fs' : Fs) (ev : Event) : Prop where
  serve : ev.before.serve d ev.env ev.op = some (ev.reply, ev.after)
  agrees : Agrees ev.before.inodes
  grows : Grows ev.before fs'
  later : Grows ev.after fs'
  attrs : ev.before.attrForPlan = fs'.attrForPlan

theorem exec_answered {acts : List Action} {tr : List Event} (h : (sys d).Exec fs acts tr fs')
    (ha : Agrees fs.inodes) {ev : Event} (hev : ev ∈ tr) : Answered d fs' ev := by
  obtain ⟨tr₁, tr₂, htr⟩ := List.append_of_mem hev
  obtain ⟨acts₁, acts₂, -, hbefore, hserve, hafter⟩ := exec_cut h htr
  have hagrees := (exec_grows hbefore ha).agrees
  have hstep := (serve_grows hagrees hserve).1
  have hlater := exec_grows hafter hstep.agrees
  have hattrs := (exec_attrForPlan hafter).trans (serve_attrForPlan hserve)
  exact ⟨hserve, hagrees, hstep.trans hlater, hlater, hattrs.symm⟩

/-! ## What is reported -/

/-- A lookup is answered with the inode of the path and the attributes of its plan. -/
theorem entry_of_lookup {ev : Event} (h : Answered d fs' ev) {dir : UInt64} {name : String}
    (hop : ev.op = .lookup dir name.toUTF8) {ttl : Nat} {attr : FileAttr} {generation : UInt64}
    (hreply : ev.reply = .entry ttl attr generation) :
    ∃ path plan, ev.before.inodes.forward dir = some path ∧
      Resolved (path.join name).comps plan ∧ ev.after.inodes.reverse (path.join name) = some attr.ino ∧
      attr = fs'.attrForPlan attr.ino plan := by
  obtain ⟨env, op, before, reply, after⟩ := ev
  obtain rfl := hop
  obtain rfl := hreply
  have hlookup : before.lookup d env dir name.toUTF8 = some (.entry ttl attr generation, after) :=
    h.serve
  cases lookup_cases hlookup with
  | @found path nameStr plan ino fs₁ inodes hpath hname hres hverified hre halloc =>
    rw [toStr_toUTF8, Option.some.injEq] at hname
    subst hname
    have hattrs : before.attrForPlan = fs'.attrForPlan := h.attrs
    refine ⟨path, plan, hpath, hres, ?_, ?_⟩
    · rw [attrForPlan_ino]
      exact (allocate_allocated h.agrees halloc).1.reverse
    · rw [attrForPlan_ino, hattrs]

/-- What is reported for a name is what the reverse map has at the end of the run, whatever
    happened since. Two requests that report the same name therefore report the same inode, and
    neither has to be mentioned in what is said of the other. -/
theorem Reports.reverse {ev : Event} (h : Answered d fs' ev) {dir ino : UInt64} {name : String}
    {kind : FileType} (hreports : Reports ev dir name ino kind) :
    ∃ path, ev.before.inodes.forward dir = some path ∧
      fs'.inodes.reverse (path.join name) = some ino := by
  cases hreports with
  | lookup hop hreply =>
    obtain ⟨path, plan, hpath, -, hrev, -⟩ := entry_of_lookup h hop hreply
    exact ⟨path, hpath, h.later.keep _ _ hrev⟩
  | @readdir offset room reply e hop hreply he hdots =>
    obtain ⟨env, op, before, reply', after⟩ := ev
    obtain rfl := hop
    obtain rfl := hreply
    cases readdir_cases h.serve with
    | @listed path _ _ _ _ _ hpath _ _ _ _ hfilled =>
      exact ⟨path, hpath, h.later.keep _ _ ((hfilled h.agrees).entry e he hdots)⟩

/-- The kind a `readdir` reports is that of the plan of the path. -/
theorem kind_of_readdir {ev : Event} (h : Answered d fs' ev) {dir : UInt64} {offset : Int64}
    {room : Nat} {reply : ReplyDirectory} {e : DirEntry} (hop : ev.op = .readdir dir offset room)
    (hreply : ev.reply = .directory reply) (he : e ∈ reply.handed) (hname : PathBuf.IsName e.name)
    {path : PathBuf} (hpath : ev.before.inodes.forward dir = some path) {plan : QueryPlan}
    (hplan : Resolved (path.join e.name).comps plan) : e.kind = plan.fileType := by
  obtain ⟨env, op, before, reply', after⟩ := ev
  obtain rfl := hop
  obtain rfl := hreply
  have hdots : ¬ e.IsDots := fun hor => hor.elim hname.ne_dot hname.ne_dotdot
  rw [PathBuf.join_of_isName hname] at hplan
  obtain ⟨dirPlan, hdir, hchild⟩ := resolved_snoc.mp hplan
  cases readdir_cases h.serve with
  | listed hpath' hres hes hre hof hfilled =>
    obtain rfl := Option.some.inj (hpath'.symm.trans hpath)
    obtain rfl := hres.unique hdir
    exact (lists_of_handed hres hes hof he hdots).kind_of_child hchild

/-- `getattr` works the plan out from the path again. The plan is a function of the path, so it
    cannot come to another one. -/
theorem getattr_of_resolved {ino : UInt64} {path : PathBuf} {plan : QueryPlan}
    (hroot : ino ≠ inoRoot) (hpath : fs.inodes.forward ino = some path)
    (hplan : Resolved path.comps plan) :
    fs.getattr ino = (.attr entryTtl (fs.attrForPlan ino plan), fs) := by
  simp only [getattr, if_neg hroot, pathOf_ok.mpr hpath, resolve_ok.mpr hplan]

/-- In a run from a state where the inode stands for the path, `getattr` replies with the
    attributes of the path's plan. -/
theorem getattr_reply {acts : List Action} {tr : List Event} (h : (sys d).Exec fs acts tr fs')
    (ha : Agrees fs.inodes) {ino : UInt64} {path : PathBuf} {plan : QueryPlan}
    (hroot : ino ≠ inoRoot) (hpath : fs.inodes.forward ino = some path)
    (hplan : Resolved path.comps plan) {ev : Event} (hev : ev ∈ tr) (hop : ev.op = .getattr ino) :
    ev.reply = .attr entryTtl (fs'.attrForPlan ino plan) := by
  obtain ⟨tr₁, tr₂, htr⟩ := List.append_of_mem hev
  obtain ⟨acts₁, acts₂, -, hbefore, -, -⟩ := exec_cut h htr
  have hpath' := (exec_grows hbefore ha).extend _ _ hpath
  have hanswered := exec_answered h ha hev
  have hserve := hanswered.serve
  rw [hop, serve, getattr_of_resolved hroot hpath' hplan, Option.some.injEq, Prod.mk.injEq] at hserve
  rw [← hserve.1, hanswered.attrs]

/-- **Identity.** In every run, a lookup of a name that is answered with an entry settles the
    name: each `readdir` of the directory that lists it, before or after, reports the inode
    and the kind of the entry; each lookup of it that succeeds is answered with the same
    attributes, as is each later `getattr` of the inode; and nothing that a lookup or a
    `readdir` reports the inode for has another path. -/
theorem identity (d : Deps) {uid gid : UInt32} {startTime : Nat} {tailCfg : TailConfig}
    {acts : List Action} {tr₁ tr₂ : List Event} {ev : Event}
    (hrun : (sys d).Exec (.new uid gid startTime tailCfg) acts (tr₁ ++ ev :: tr₂) fs)
    {dir : UInt64} {name : String} (hname : PathBuf.IsName name)
    (hop : ev.op = .lookup dir name.toUTF8) {ttl : Nat} {attr : FileAttr} {generation : UInt64}
    (hreply : ev.reply = .entry ttl attr generation) :
    ∃ path, ev.before.inodes.lookup dir = some path ∧
      (∀ ev' ∈ tr₁ ++ ev :: tr₂, ∀ offset room reply e, ev'.op = .readdir dir offset room →
        ev'.reply = .directory reply → e ∈ reply.handed → e.name = name →
        e.ino = attr.ino ∧ e.kind = attr.kind) ∧
      (∀ ev' ∈ tr₁ ++ ev :: tr₂, ∀ ttl' attr' generation', ev'.op = .lookup dir name.toUTF8 →
        ev'.reply = .entry ttl' attr' generation' → attr' = attr) ∧
      (∀ ev' ∈ tr₂, ev'.op = .getattr attr.ino → ev'.reply = .attr entryTtl attr) ∧
      ∀ ev' ∈ tr₁ ++ ev :: tr₂, ∀ dir' name' kind, Reports ev' dir' name' attr.ino kind →
        ∃ path', ev'.before.inodes.lookup dir' = some path' ∧ path'.join name' = path.join name := by
  have hagrees := new_agrees uid gid startTime tailCfg
  have hanswered {ev' : Event} (hev' : ev' ∈ tr₁ ++ ev :: tr₂) : Answered d fs ev' :=
    exec_answered hrun hagrees hev'
  have hev := hanswered (List.mem_append_right _ List.mem_cons_self)
  obtain ⟨path, plan, hpath, hplan, hrevAfter, hattr⟩ := entry_of_lookup hev hop hreply
  have hrev : fs.inodes.reverse (path.join name) = some attr.ino := hev.later.keep _ _ hrevAfter
  have hdir : fs.inodes.forward dir = some path := hev.grows.extend _ _ hpath
  -- the directory has this path in every event that finds it in the table
  have hsame {ev' : Event} (hev' : ev' ∈ tr₁ ++ ev :: tr₂) {path' : PathBuf}
      (hpath' : ev'.before.inodes.forward dir = some path') : path' = path :=
    Option.some.inj (((hanswered hev').grows.extend _ _ hpath').symm.trans hdir)
  refine ⟨path, hpath, ?_, ?_, ?_, ?_⟩
  · intro ev' hev' offset room reply e hop' hreply' he hlisted
    subst hlisted
    have hdots : ¬ e.IsDots := fun hor => hor.elim hname.ne_dot hname.ne_dotdot
    obtain ⟨path', hpath', hrev'⟩ :=
      Reports.reverse (hanswered hev') (.readdir hop' hreply' he hdots)
    obtain rfl := hsame hev' hpath'
    refine ⟨Option.some.inj (hrev'.symm.trans hrev), ?_⟩
    rw [kind_of_readdir (hanswered hev') hop' hreply' he hname hpath' hplan, hattr, attrForPlan_kind]
  · intro ev' hev' ttl' attr' generation' hop' hreply'
    obtain ⟨path', plan', hpath', hplan', hrevAfter', hattr'⟩ :=
      entry_of_lookup (hanswered hev') hop' hreply'
    obtain rfl := hsame hev' hpath'
    obtain rfl := hplan.unique hplan'
    have hrev' := (hanswered hev').later.keep _ _ hrevAfter'
    rw [hattr', Option.some.inj (hrev'.symm.trans hrev), ← hattr]
  · intro ev' hev' hop'
    obtain ⟨acts₁, acts₂, -, -, hserve, hafter⟩ := exec_cut hrun rfl
    have hagreesAfter := (serve_grows hev.agrees hserve).1.agrees
    have hroot : attr.ino ≠ inoRoot := by
      intro hino
      have hrootPath := (exec_grows hrun hagrees).extend _ _ (new_root uid gid startTime tailCfg)
      have hpathRoot := (exec_grows hrun hagrees).agrees _ _ hrev
      rw [hino, hrootPath, PathBuf.join_of_isName hname, Option.some.injEq] at hpathRoot
      simp [PathBuf.root] at hpathRoot
    rw [hattr]
    exact getattr_reply hafter hagreesAfter hroot (hagreesAfter _ _ hrevAfter) hplan hev' hop'
  · intro ev' hev' dir' name' kind hreports
    obtain ⟨path', hpath', hrev'⟩ := Reports.reverse (hanswered hev') hreports
    have hslot := (exec_grows hrun hagrees).agrees _ _ hrev
    have hslot' := (exec_grows hrun hagrees).agrees _ _ hrev'
    exact ⟨path', hpath', Option.some.inj (hslot'.symm.trans hslot)⟩

/-- The directory "db" is looked up, then its attributes are asked for. -/
theorem identity_db : ∃ (fs : Fs) (attr : FileAttr),
    Sample.mount.lookup Sample.deps Sample.server inoRoot "db".toUTF8
      = some (.entry entryTtl attr 0, fs) ∧
    (fs.getattr attr.ino).1 = .attr entryTtl attr := by
  have hname : PathBuf.IsName "db" := Child.dbNamespace.isName
  have hpath : Sample.mount.inodes.forward inoRoot = some .root := new_root 0 0 0 .default
  have hres : Resolved (PathBuf.root.join "db").comps ⟨.dbNamespace, none, none⟩ := by
    rw [PathBuf.join_of_isName hname]
    exact .dbNamespace
  have hverified : (Sample.mount.listings Sample.server).Verifies ⟨.dbNamespace, none, none⟩ := by
    intro src name hneeds
    cases hneeds
  obtain ⟨ino, inodes, halloc, -⟩ :=
    allocate_ends Sample.deps.hasher (PathBuf.root.join "db") Small.new Agrees.new (by decide)
  obtain ⟨fs, hlookup, -⟩ := lookup_found (d := Sample.deps) hpath hres hverified halloc
  have hfirst : Sample.mount.serve Sample.deps Sample.server (.lookup inoRoot "db".toUTF8)
      = some (.entry entryTtl (Sample.mount.attrForPlan ino ⟨.dbNamespace, none, none⟩) 0, fs) :=
    hlookup
  have hsecond : fs.serve Sample.deps Sample.server (.getattr ino) = some (fs.getattr ino) := rfl
  let attr := Sample.mount.attrForPlan ino ⟨.dbNamespace, none, none⟩
  let lookup : Event :=
    ⟨Sample.server, .lookup inoRoot "db".toUTF8, Sample.mount, .entry entryTtl attr 0, fs⟩
  let getattr : Event := ⟨Sample.server, .getattr ino, fs, (fs.getattr ino).1, (fs.getattr ino).2⟩
  have hboth := Lts.Exec.cons (step_of_serve hfirst) (.one (step_of_serve hsecond))
  have hrun : (sys Sample.deps).Exec (.new 0 0 0 .default)
      [.request Sample.server (.lookup inoRoot "db".toUTF8), .request Sample.server (.getattr ino)]
      ([] ++ lookup :: [getattr]) getattr.after := hboth
  obtain ⟨path, -, -, -, hget, -⟩ := identity Sample.deps hrun hname rfl rfl
  exact ⟨fs, _, hlookup, hget _ (List.mem_singleton_self _) rfl⟩

end Fs
end ClickFs
