import ClickFs.Fs.Serve

/-!
# No fake objects

`lookup` and `readdir` decide independently, one from `verify_plan_exists` and one from the
entries vector, and the inode table remembers whatever either of them allocated. Here they
agree in one direction: what a lookup finds, `readdir` lists (`verifies_lists`). The other
direction does not hold, and `Fs/Opens.lean` says how far it does.

So all there is in the table came from a listing, and was reached from the root. "Came from
a listing" is said of the vector that `readdir` works through: it allocates an inode for an
entry before it offers it to the kernel, so the entry that finds the buffer full is in the
table, though this call does not send it.
-/

set_option autoImplicit false

namespace ClickFs

open Rust Driver Inode

namespace Listings

variable {l : Listings}

/-- A child that exists is listed in its directory. Case by case over what a directory can hold. -/
theorem verifies_lists {dir plan : QueryPlan} {name : String} (hchild : Child dir name plan)
    (h : l.Verifies plan) : l.Lists dir plan.fileType name := by
  cases hchild with
  | dbNamespace => exact .root
  | database hdb => exact .database (h _ _ rfl)
  | table htbl => exact .table (h _ _ rfl)
  | file hleaf =>
    cases hleaf with
    | schema => exact .always (by decide)
    | readme => exact .always (by decide)
    | all => exact .always (by decide)
    | partition hvalid hall => exact .partition (h _ _ rfl)

/-- The names of a listing can be components of a path. A server's own names can be anything, and
    ones with a slash in them name nothing. -/
def Plain (names : List String) : Prop := ∀ n ∈ names, '/' ∉ n.toList ∧ n ≠ "." ∧ n ≠ ".."

/-- What is listed is a name, when the server's names are plain. -/
theorem Lists.isName {dir : QueryPlan} {kind : FileType} {name : String}
    (hl : ∀ src n, l.Has src n → n ≠ "" ∧ '/' ∉ n.toList ∧ n ≠ "." ∧ n ≠ "..")
    (h : l.Lists dir kind name) : PathBuf.IsName name := by
  cases h with
  | root => exact ⟨by decide, by decide, by decide, by decide⟩
  | database h =>
    obtain ⟨hnil, hslash, hdot, hdotdot⟩ := hl _ _ h
    exact ⟨hslash, hnil, hdot, hdotdot⟩
  | table h =>
    obtain ⟨hnil, hslash, hdot, hdotdot⟩ := hl _ _ h
    exact ⟨hslash, hnil, hdot, hdotdot⟩
  | always h =>
    obtain ⟨kind, hleaf, -⟩ := Fs.leaf_of_tableFiles h "" ""
    exact hleaf.isName
  | partition h => exact isName_tsv (hl _ _ h).2.1

end Listings

namespace Fs

variable {d : Deps} {fs fs' : Fs} {env : Env}

/-- The entries vector `readdir` works through. -/
def dirEntries (fs : Fs) (env : Env) (ino : UInt64) :
    Except ClickFsError (List (FileType × String)) :=
  match fs.pathOf ino with
  | .error e => .error e
  | .ok path =>
    match resolve path with
    | .error e => .error e
    | .ok plan => (fs.entries env plan).1

theorem dirEntries_of_resolved {ino : UInt64} {path : PathBuf} {plan : QueryPlan}
    (hpath : fs.inodes.forward ino = some path) (hres : Resolved path.comps plan) :
    fs.dirEntries env ino = (fs.entries env plan).1 := by
  simp only [dirEntries, pathOf_ok.mpr hpath, resolve_ok.mpr hres]

/-- A `readdir` from the beginning sends the whole vector when there is room for it. -/
theorem readdir_sends {ino : UInt64} {room : Nat} {reply : ReplyDirectory}
    {es : List (FileType × String)} (hes : fs.dirEntries env ino = .ok es) (hroom : es.length ≤ room)
    (h : fs.readdir d env ino 0 room = some (.directory reply, fs')) :
    reply.sent.map (fun e => (e.kind, e.name)) = es := by
  cases readdir_cases h with
  | listed hpath hres hes' hre hof hfilled =>
    rw [dirEntries_of_resolved hpath hres, hes'] at hes
    cases hes
    have hall : (es.zipIdx.drop (asUsize (0 : Int64).toInt)).take (room + 1) = es.zipIdx := by
      show (es.zipIdx.drop 0).take (room + 1) = _
      rw [List.drop_zero, List.take_of_length_le (by rw [List.length_zipIdx]; omega)]
    rw [hall] at hof
    have hlen := hof.length_eq
    rw [List.length_zipIdx] at hlen
    rw [ReplyDirectory.sent, List.take_of_length_le (Nat.le_trans (Nat.le_of_eq hlen.symm) hroom),
      map_of_handed hof, List.zipIdx_map_fst]

/-- What a lookup finds is in the entries vector of its directory, for whoever works with the same
    listings. -/
theorem lookup_listed {ev : Event} {P : Source → List String → Prop} (hev : Served d P fs' ev)
    {parent : UInt64} {name : OsStr} (hop : ev.op = .lookup parent name) {ttl : Nat}
    {attr : FileAttr} {generation : UInt64} (hreply : ev.reply = .entry ttl attr generation)
    {fs₂ : Fs} {env₂ : Env} (hsame : fs₂.listings env₂ = ev.before.listings ev.env)
    (hparent : fs₂.inodes.forward parent = ev.before.inodes.forward parent) :
    ∃ es nameStr, fs₂.dirEntries env₂ parent = .ok es ∧ toStr name = some nameStr ∧
      (attr.kind, nameStr) ∈ es := by
  obtain ⟨env, op, before, reply, after⟩ := ev
  obtain rfl := hop
  obtain rfl := hreply
  have hnamed := hev.named
  have hserve : before.lookup d env parent name = some (.entry ttl attr generation, after) := hev.serve
  cases lookup_cases hserve with
  | @found path nameStr plan _ _ _ hpath hname hres hverified hre halloc =>
    have hisName := hnamed nameStr hname
    rw [PathBuf.join_of_isName hisName] at hres
    obtain ⟨dir, hdir, hchild⟩ := resolved_snoc.mp hres
    have hlists := Listings.verifies_lists hchild hverified
    rw [← hsame] at hlists
    obtain ⟨es, hes, hmem⟩ := entries_of_lists hlists
    refine ⟨es, nameStr, ?_, hname, ?_⟩
    · rw [dirEntries_of_resolved (hparent.trans hpath) hdir, hes]
    · rw [attrForPlan_kind]
      exact hmem

/-- A lookup that is not answered with an entry leaves the table alone. -/
theorem lookup_failed {ev : Event} {P : Source → List String → Prop} (hev : Served d P fs' ev)
    {parent : UInt64} {name : OsStr} (hop : ev.op = .lookup parent name)
    (hfail : ∀ ttl attr generation, ev.reply ≠ .entry ttl attr generation) :
    ev.after.inodes = ev.before.inodes := by
  obtain ⟨env, op, before, reply, after⟩ := ev
  obtain rfl := hop
  have hserve : before.lookup d env parent name = some (reply, after) := hev.serve
  cases lookup_cases hserve with
  | refused hre => exact hre.inodes
  | found => exact absurd rfl (hfail _ _ _)

/-! ## Where the paths of the table come from -/

/-- The event named the file: it is a lookup of it that was answered with an entry, or a `readdir`
    of the directory that handed it over. The entry that found the kernel's buffer full was handed
    over too, and counts as listed here: it has its inode, and the next call begins with it. -/
inductive NamedBy (ev : Event) (parent : UInt64) (name : String) : Prop
  | lookup {ttl : Nat} {attr : FileAttr} {generation : UInt64}
      (hop : ev.op = .lookup parent name.toUTF8) (hreply : ev.reply = .entry ttl attr generation)
  | readdir {offset : Int64} {room : Nat} {reply : ReplyDirectory} {e : DirEntry}
      (hop : ev.op = .readdir parent offset room) (hreply : ev.reply = .directory reply)
      (he : e ∈ reply.handed) (hname : e.name = name)

/-- The server's names, as the caches hold them. -/
def ServerNames (src : Source) (names : List String) : Prop :=
  Listings.Plain names ∧ ∀ n ∈ names, src.keep n = true

/-- What is made is a child of its directory, so by induction everything in the table is reached
    from the root. -/
theorem makes_child {ev : Event} (hev : Served d ServerNames fs' ev) {ino : UInt64}
    {path : PathBuf} (h : Makes ev ino path) :
    ∃ parent parentPath name, PathBuf.IsName name ∧
      path = ⟨parentPath.comps ++ [.normal name]⟩ ∧
      fs'.inodes.forward parent = some parentPath ∧ NamedBy ev parent name := by
  obtain ⟨env, op, before, reply, after⟩ := ev
  cases h with
  | @lookup parent name parentPath nameStr _ _ _ hop hpath hname hreply hino hchild =>
    obtain rfl := hop
    have hisName := hev.named nameStr hname
    rw [PathBuf.join_of_isName hisName] at hchild
    obtain rfl := toStr_eq_some.mp hname
    exact ⟨parent, parentPath, nameStr, hisName, hchild, hev.grows.extend _ _ hpath,
      .lookup rfl hreply⟩
  | @readdir dir offset room parentPath reply e hop hpath hreply he hdots hino hchild =>
    obtain rfl := hop
    obtain rfl := hreply
    have hisName : PathBuf.IsName e.name := by
      cases readdir_cases hev.serve with
      | listed hpath' hres hes hre hof hfilled =>
        refine (lists_of_handed hres hes hof he hdots).isName fun src n hhas => ?_
        obtain ⟨names, hnames, hmem⟩ := hhas
        obtain ⟨hplain, hkeep⟩ := listings_all hev.cached hev.answers hnames
        exact ⟨Source.keep_ne_nil (hkeep n hmem), hplain n hmem⟩
    rw [PathBuf.join_of_isName hisName] at hchild
    exact ⟨dir, parentPath, e.name, hisName, hchild, hev.grows.extend _ _ hpath,
      .readdir rfl rfl he rfl⟩

theorem answers_serverNames {env : Env} (h : Answers (fun _ names => Listings.Plain names) env) :
    Answers ServerNames env := by
  intro src body hbody
  refine ⟨h src body hbody, fun n hn => ?_⟩
  exact (List.mem_filter.mp hn).2

/-- **No fake objects.** In every run of requests from the mount on: a lookup that is answered
    with an entry names something `readdir` lists on the same listings, with the same kind;
    one that fails leaves the inode table as it was; and where the server's names are plain,
    every path in the table but the root is a child of another one, and was handed over by
    a `readdir` of it or found by a lookup in it. -/
theorem no_fake_objects (d : Deps) {uid gid : UInt32} {startTime : Nat} {tailCfg : TailConfig}
    {acts : List Action} {tr : List Event} {fs : Fs}
    (hrun : (sys d).Exec (.new uid gid startTime tailCfg) acts tr fs)
    (hnamed : ∀ a ∈ acts, a.Named) :
    (∀ ev ∈ tr, ∀ parent name, ev.op = .lookup parent name →
      (∀ ttl attr generation, ev.reply = .entry ttl attr generation →
        ∀ (fs₂ : Fs) (env₂ : Env), fs₂.listings env₂ = ev.before.listings ev.env →
          fs₂.inodes.forward parent = ev.before.inodes.forward parent →
          ∃ es nameStr, fs₂.dirEntries env₂ parent = .ok es ∧ toStr name = some nameStr ∧
            (attr.kind, nameStr) ∈ es) ∧
      ((∀ ttl attr generation, ev.reply ≠ .entry ttl attr generation) →
        ev.after.inodes = ev.before.inodes)) ∧
    ((∀ a ∈ acts, a.Answers fun _ names => Listings.Plain names) →
      ∀ ino path, fs.inodes.lookup ino = some path → path ≠ .root →
        ∃ parent parentPath name, PathBuf.IsName name ∧
          path = ⟨parentPath.comps ++ [.normal name]⟩ ∧
          fs.inodes.lookup parent = some parentPath ∧ ∃ ev ∈ tr, NamedBy ev parent name) := by
  have hagrees := new_agrees uid gid startTime tailCfg
  constructor
  · intro ev hev parent name hop
    have hserved : Served d (fun _ _ => True) fs ev :=
      exec_served hrun hagrees (.new _ _ _ _ _)
        (fun a _ => by cases a with
          | request env op => intro src body _; trivial
          | background fh sched => trivial) hnamed ev hev
    constructor
    · intro ttl attr generation hreply fs₂ env₂ hsame hparent
      exact lookup_listed hserved hop hreply hsame hparent
    · intro hfail
      exact lookup_failed hserved hop hfail
  · intro hplain ino path hpath hroot
    have hanswers : ∀ a ∈ acts, a.Answers ServerNames := by
      intro a ha
      have hplain := hplain a ha
      cases a with
      | request env op => exact answers_serverNames hplain
      | background fh sched => trivial
    rcases exec_makes hrun hagrees hpath with hold | ⟨ev, hev, hmakes⟩
    · exact absurd (new_forward hold).2 hroot
    · have hserved := exec_served hrun hagrees (.new _ _ _ _ _) hanswers hnamed ev hev
      obtain ⟨parent, parentPath, name, hname, hchild, hparent, hby⟩ := makes_child hserved hmakes
      exact ⟨parent, parentPath, name, hname, hchild, hparent, ev, hev, hby⟩

set_option maxRecDepth 4000 in
theorem Sample.plain : Answers (fun _ names => Listings.Plain names) Sample.server := by
  intro src body hbody
  have hlines : ∀ body ∈ ["default\nmy-db\n", "events\n", "202601\n", ""], ∀ n ∈ lines body,
      '/' ∉ n.toList ∧ n ≠ "." ∧ n ≠ ".." := by decide +kernel
  intro n hn
  exact hlines body (Sample.query_ok hbody) n (List.mem_of_mem_filter hn)

/-- Two directories are listed, and a database is looked up in the second. -/
theorem no_fake_objects_sample : ∃ acts tr fs, (sys Sample.deps).Exec Sample.mount acts tr fs ∧
    (∃ ev attr es nameStr, ev ∈ tr ∧ ev.reply = .entry entryTtl attr 0 ∧
      ev.before.dirEntries ev.env 100 = .ok es ∧ toStr "default".toUTF8 = some nameStr ∧
      (attr.kind, nameStr) ∈ es) ∧
    ∃ parent parentPath name, PathBuf.IsName name ∧
      ⟨[.normal "db", .normal "my-db"]⟩ = PathBuf.mk (parentPath.comps ++ [.normal name]) ∧
      fs.inodes.lookup parent = some parentPath ∧ ∃ ev ∈ tr, NamedBy ev parent name := by
  let acts : List Action := [.request Sample.server (.readdir 1 0 8),
    .request Sample.server (.readdir 100 0 8)]
  let lookup : Op := .lookup 100 "default".toUTF8
  let plan : QueryPlan := ⟨.listTables, some "default", none⟩
  obtain ⟨tr, fs, hlisted, hpath, hrev, hdb, hverify⟩ :
      ∃ tr fs, (sys Sample.deps).Exec Sample.mount acts tr fs ∧
        fs.inodes.forward 100 = some ⟨[.normal "db"]⟩ ∧
        fs.inodes.reverse ((⟨[.normal "db"]⟩ : PathBuf).join "default") = some 101 ∧
        fs.inodes.lookup 102 = some ⟨[.normal "db", .normal "my-db"]⟩ ∧
        (fs.verifyPlanExists Sample.server plan).1 = .ok () :=
    ⟨_, _, Lts.exec_of_isSome (by decide +kernel), by decide +kernel⟩
  have hres : Resolved ((⟨[.normal "db"]⟩ : PathBuf).join "default").comps plan :=
    resolve_ok.mp (by decide +kernel)
  obtain ⟨fs', hlookup, hinodes⟩ := lookup_found (d := Sample.deps) hpath hres
    ((verifyPlanExists_ok hres).mp hverify) (allocate_of_reverse hrev)
  have hserve : fs.serve Sample.deps Sample.server lookup
      = some (.entry entryTtl (fs.attrForPlan 101 plan) 0, fs') := hlookup
  have hrun := hlisted.append (.one (step_of_serve hserve))
  have hnamed : ∀ a ∈ acts ++ [.request Sample.server lookup], a.Named := by
    simp only [acts, List.cons_append, List.nil_append, List.mem_cons, List.not_mem_nil, or_false,
      forall_eq_or_imp, forall_eq]
    refine ⟨trivial, trivial, fun nameStr hname => ?_⟩
    rw [toStr_toUTF8] at hname
    cases hname
    exact isName_of_validDbOrTable (by decide)
  have hplain : ∀ a ∈ acts ++ [.request Sample.server lookup], a.Answers fun _ names => Listings.Plain names := by
    simp only [acts, List.cons_append, List.nil_append, List.mem_cons, List.not_mem_nil, or_false,
      forall_eq_or_imp, forall_eq]
    exact ⟨Sample.plain, Sample.plain, Sample.plain⟩
  obtain ⟨hlookups, htable⟩ := no_fake_objects Sample.deps hrun hnamed
  let ev : Event := ⟨Sample.server, lookup, fs, .entry entryTtl (fs.attrForPlan 101 plan) 0, fs'⟩
  have hev : ev ∈ tr ++ [ev] := List.mem_append_right _ (List.mem_singleton_self _)
  obtain ⟨es, nameStr, hes, hname, hmem⟩ := (hlookups ev hev 100 _ rfl).1 _ _ _ rfl _ _ rfl rfl
  exact ⟨_, _, _, hrun, ⟨ev, _, es, nameStr, hev, rfl, hes, hname, hmem⟩,
    htable hplain 102 _ (hinodes ▸ hdb) (by decide)⟩

end Fs
end ClickFs
