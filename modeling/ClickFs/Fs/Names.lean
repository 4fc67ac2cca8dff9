import ClickFs.Fs.NoFake
import Mathlib.Data.List.Nodup

/-!
# The names in a table's directory

The directory of a table mixes three fixed files with one for each partition, and `resolve`
has to tell them apart again. `tableLeaves` is what the directory holds, as pairs of a name
and what it stands for, and both sides of the pairs are without repetition: the ids the
server can answer with are told apart by their ".tsv", and "all", the one id that would
collide, has been dropped from the listing.

It is so for any ids that the resolver accepts, and not only for those a server is likely to
make. A partition that is called `README.md` has the file `README.md.tsv`, and the README of
the table is still `README.md`.
-/

set_option autoImplicit false

namespace ClickFs

open Rust Driver

theorem Leaf.name_unique {name name' : String} {kind : PlanKind} (h : Leaf name kind)
    (h' : Leaf name' kind) : name = name' := by
  cases h <;> cases h' <;> rfl

namespace Fs

/-- The files of a table directory, with what they stand for: the three every table has, and one
    for each partition. -/
def tableLeaves (parts : List String) : List (String × PlanKind) :=
  [(".schema", .describeTable), ("README.md", .readme), ("all.tsv", .streamAll)]
    ++ parts.map fun part => (part ++ ".tsv", .streamPartition part)

variable {parts : List String}

theorem leaf_of_tableLeaves (h : ∀ part ∈ parts, validIdentifier part = true ∧ part ≠ "all")
    {file : String × PlanKind} (hfile : file ∈ tableLeaves parts) : Leaf file.1 file.2 := by
  rcases List.mem_append.mp hfile with hfixed | hpart
  · simp only [List.mem_cons, List.not_mem_nil, or_false] at hfixed
    rcases hfixed with rfl | rfl | rfl
    · exact .schema
    · exact .readme
    · exact .all
  · obtain ⟨part, hmem, rfl⟩ := List.mem_map.mp hpart
    exact .partition (h part hmem).1 (h part hmem).2

/-- No two names of the directory stand for the same thing. -/
theorem nodup_kinds (h : parts.Nodup) : ((tableLeaves parts).map Prod.snd).Nodup := by
  simp only [tableLeaves, List.map_append, List.map_map, List.map_cons, List.map_nil]
  refine List.nodup_append.mpr ⟨by decide, ?_, ?_⟩
  · exact List.Nodup.map (fun _ _ heq => PlanKind.streamPartition.inj heq) h
  · intro kind hfixed kind' hpart heq
    obtain ⟨part, -, rfl⟩ := List.mem_map.mp hpart
    subst heq
    simp at hfixed

/-- No name stands twice in the directory. For the partitions' names this is the injectivity of
    putting ".tsv" behind. -/
theorem nodup_names (h : parts.Nodup)
    (hvalid : ∀ part ∈ parts, validIdentifier part = true ∧ part ≠ "all") :
    ((tableLeaves parts).map Prod.fst).Nodup := by
  refine (List.Nodup.of_map _ (nodup_kinds h)).map_on ?_
  intro file hfile file' hfile' hname
  -- a name stands for one thing only
  have hleaf := leaf_of_tableLeaves hvalid hfile
  rw [hname] at hleaf
  exact Prod.ext hname (hleaf.unique (leaf_of_tableLeaves hvalid hfile'))

/-- What the directory holds, when the partitions are known. The order is that of the server's
    listing. -/
theorem entries_listPartitions {fs : Fs} {env : Env} {db tbl : String}
    (h : fs.listings env (.partitions db tbl) = .ok parts) :
    (fs.entries env ⟨.listPartitions, some db, some tbl⟩).1
      = .ok (dots ++ (tableLeaves parts).map fun file => (FileType.regularFile, file.1)) := by
  have hparts : (fs.fetchPartitions env db tbl).1 = .ok parts := h
  simp only [entries, Option.get!_some, hparts, tableLeaves, tableFiles, List.map_append,
    List.map_map, List.append_assoc]
  rfl

/-- The ids come out of the listing as the server has them, but for "all". An identifier has no
    line ending, so no id is cut or joined on the way. -/
theorem keepPartition_ids {ids : List String} (hvalid : ∀ id ∈ ids, validIdentifier id = true) :
    (lines (body ids)).filter keepPartition = ids.filter (· != "all") := by
  have hone : ∀ id ∈ ids, OneLine id := by
    intro id hid
    have hchars := hvalid id hid
    simp only [validIdentifier, Bool.and_eq_true, List.all_eq_true] at hchars
    constructor
    · intro hlf
      have hchar := hchars.2 _ hlf
      revert hchar
      decide
    · intro hcr
      have hchar := hchars.2 _ hcr
      revert hchar
      decide
  rw [lines_body hone]
  refine List.filter_congr fun id hid => ?_
  have hne : id.isEmpty = false := by
    have hchars := hvalid id hid
    simp only [validIdentifier, Bool.and_eq_true, Bool.not_eq_true'] at hchars
    exact hchars.1.1
  simp [keepPartition, hne]

/-- A name in the directory resolves to what it stands for, also where a partition is called like
    one of the fixed files. -/
theorem resolve_file {path : PathBuf} {db tbl name : String} {kind : PlanKind}
    (hpath : resolve path = .ok ⟨.listPartitions, some db, some tbl⟩) (hleaf : Leaf name kind) :
    resolve (path.join name) = .ok ⟨kind, some db, some tbl⟩ := by
  rw [PathBuf.join_of_isName hleaf.isName]
  exact resolve_ok.mpr (resolved_snoc.mpr ⟨_, resolve_ok.mp hpath, .file hleaf⟩)

theorem mem_tableLeaves {file : String × PlanKind} :
    file ∈ tableLeaves parts ↔ file = (".schema", .describeTable) ∨ file = ("README.md", .readme) ∨
      file = ("all.tsv", .streamAll) ∨ ∃ part ∈ parts, file = (part ++ ".tsv", .streamPartition part) := by
  simp [tableLeaves, eq_comm]

/-- **The directory of a table.** The server has the partition ids `ids`, pairwise distinct
    and accepted as identifiers, and the cache has nothing or what the server answers. Then
    a `readdir` with room for the whole directory sends names that are pairwise distinct;
    each but "." and ".." resolves to a file of the table, different names to different
    ones; and what is reached is the schema, the summary, the whole table and one file for
    each id but "all". -/
theorem table_directory {fs : Fs} {env : Env} {path : PathBuf} {db tbl : String}
    (hpath : resolve path = .ok ⟨.listPartitions, some db, some tbl⟩) {ids : List String}
    (hnodup : ids.Nodup) (hvalid : ∀ id ∈ ids, validIdentifier id = true)
    (hquery : env.query (sqlListPartitions db tbl) = .ok (body ids))
    (hcached : ∀ v, (fs.partCache.get (db, tbl) env.now).1 = some v →
      v = (lines (body ids)).filter keepPartition) :
    ∃ files : List (FileType × String),
      (fs.entries env ⟨.listPartitions, some db, some tbl⟩).1 = .ok (dots ++ files) ∧
      (∀ (d : Deps) (ino : UInt64) (room : Nat) (reply : ReplyDirectory) (fs' : Fs),
        fs.inodes.forward ino = some path → (dots ++ files).length ≤ room →
        fs.readdir d env ino 0 room = some (.directory reply, fs') →
        reply.sent.map (fun e => (e.kind, e.name)) = dots ++ files) ∧
      ((dots ++ files).map Prod.snd).Nodup ∧
      (∀ file ∈ files, ∃ kind, resolve (path.join file.2) = .ok ⟨kind, some db, some tbl⟩ ∧
        (QueryPlan.mk kind (some db) (some tbl)).isDir = false) ∧
      (∀ file ∈ files, ∀ file' ∈ files,
        resolve (path.join file.2) = resolve (path.join file'.2) → file.2 = file'.2) ∧
      ∀ kind, (∃ file ∈ files, resolve (path.join file.2) = .ok ⟨kind, some db, some tbl⟩) ↔
        kind = .describeTable ∨ kind = .readme ∨ kind = .streamAll ∨
          ∃ id ∈ ids, id ≠ "all" ∧ kind = .streamPartition id := by
  let parts := ids.filter (· != "all")
  have hkept := keepPartition_ids hvalid
  have hlisted : fs.listings env (.partitions db tbl) = .ok parts := by
    show (fetchVia fs.partCache (db, tbl) (sqlListPartitions db tbl) keepPartition env).1 = _
    rw [fetchVia_fst]
    cases hget : (fs.partCache.get (db, tbl) env.now).1 with
    | some v => rw [hcached v hget, hkept]
    | none =>
      rw [hquery]
      exact congrArg Except.ok hkept
  have hparts : ∀ part ∈ parts, validIdentifier part = true ∧ part ≠ "all" := by
    intro part hpart
    obtain ⟨hmem, hall⟩ := List.mem_filter.mp hpart
    exact ⟨hvalid part hmem, by simpa using hall⟩
  have hleaf {file : String × PlanKind} (h : file ∈ tableLeaves parts) :=
    leaf_of_tableLeaves hparts h
  have hnames := nodup_names (hnodup.filter _) hparts
  have hentries := entries_listPartitions hlisted
  refine ⟨(tableLeaves parts).map fun file => (.regularFile, file.1), hentries, ?_, ?_, ?_, ?_, ?_⟩
  · intro d ino room reply fs' hino hroom hreaddir
    have hdir := (dirEntries_of_resolved hino (resolve_ok.mp hpath)).trans hentries
    exact readdir_sends hdir hroom hreaddir
  · rw [List.map_append, List.map_map]
    refine List.nodup_append.mpr ⟨by decide, hnames, ?_⟩
    -- an id ".." is the file "...tsv"
    intro dot hdot name hname heq
    obtain ⟨file, hfile, rfl⟩ := List.mem_map.mp hname
    have hisName := (hleaf hfile).isName
    simp only [dots, List.map_cons, List.map_nil, List.mem_cons, List.not_mem_nil, or_false] at hdot
    rcases hdot with rfl | rfl
    · exact hisName.ne_dot heq.symm
    · exact hisName.ne_dotdot heq.symm
  · intro entry hentry
    obtain ⟨file, hfile, rfl⟩ := List.mem_map.mp hentry
    exact ⟨file.2, resolve_file hpath (hleaf hfile), (hleaf hfile).isFile _ _⟩
  · intro entry hentry entry' hentry' hsame
    obtain ⟨file, hfile, rfl⟩ := List.mem_map.mp hentry
    obtain ⟨file', hfile', rfl⟩ := List.mem_map.mp hentry'
    rw [resolve_file hpath (hleaf hfile), resolve_file hpath (hleaf hfile')] at hsame
    have hkind : file.2 = file'.2 := congrArg QueryPlan.kind (Except.ok.inj hsame)
    have hleaf' := hleaf hfile'
    rw [← hkind] at hleaf'
    exact (hleaf hfile).name_unique hleaf'
  · intro kind
    constructor
    · intro ⟨entry, hentry, hresolve⟩
      obtain ⟨file, hfile, rfl⟩ := List.mem_map.mp hentry
      rw [resolve_file hpath (hleaf hfile)] at hresolve
      obtain rfl : file.2 = kind := congrArg QueryPlan.kind (Except.ok.inj hresolve)
      rcases mem_tableLeaves.mp hfile with rfl | rfl | rfl | ⟨part, hpart, rfl⟩
      · exact .inl rfl
      · exact .inr (.inl rfl)
      · exact .inr (.inr (.inl rfl))
      · obtain ⟨hmem, hall⟩ := List.mem_filter.mp hpart
        exact .inr (.inr (.inr ⟨part, hmem, by simpa using hall, rfl⟩))
    · intro hkind
      obtain ⟨name, hfile⟩ : ∃ name, (name, kind) ∈ tableLeaves parts := by
        rcases hkind with rfl | rfl | rfl | ⟨id, hid, hall, rfl⟩
        · exact ⟨_, mem_tableLeaves.mpr (.inl rfl)⟩
        · exact ⟨_, mem_tableLeaves.mpr (.inr (.inl rfl))⟩
        · exact ⟨_, mem_tableLeaves.mpr (.inr (.inr (.inl rfl)))⟩
        · have hpart : id ∈ parts := List.mem_filter.mpr ⟨hid, by simpa using hall⟩
          exact ⟨_, mem_tableLeaves.mpr (.inr (.inr (.inr ⟨id, hpart, rfl⟩)))⟩
      exact ⟨_, List.mem_map_of_mem hfile, resolve_file hpath (hleaf hfile)⟩

namespace Sample

/-- The mount when inode 7 has been given to the directory of a table. -/
def tableDir : Fs :=
  { mount with inodes :=
      { mount.inodes with
          forward := Function.update mount.inodes.forward 7
            (some ⟨["db", "logs", "events"].map Component.normal⟩) } }

/-- Ids that look like file names, and "all". -/
def oddIds : List String := ["all", "README.md", "all.tsv", ".."]

def odd : Env := ⟨0, 0, fun _ => .ok (body oddIds), fun _ => .error .auth⟩

end Sample

/-- A table whose partitions are called like its other files: the names that `readdir` sends are
    told apart all the same, and "README.md.tsv" is the partition "README.md". -/
theorem table_directory_odd_ids : ∃ (reply : ReplyDirectory) (fs' : Fs),
    Sample.tableDir.readdir Sample.deps Sample.odd 7 0 9 = some (.directory reply, fs') ∧
    reply.sent.map DirEntry.name = [".", "..", ".schema", "README.md", "all.tsv", "README.md.tsv",
      "all.tsv.tsv", "...tsv"] ∧
    (reply.sent.map DirEntry.name).Nodup ∧
    ∃ e ∈ reply.sent, resolve ((⟨["db", "logs", "events"].map .normal⟩ : PathBuf).join e.name)
      = .ok ⟨.streamPartition "README.md", some "logs", some "events"⟩ := by
  have hpath : resolve ⟨["db", "logs", "events"].map .normal⟩
      = .ok ⟨.listPartitions, some "logs", some "events"⟩ := by decide +kernel
  have hvalid : ∀ id ∈ Sample.oddIds, validIdentifier id = true := by decide +kernel
  have hcached : ∀ v,
      (Sample.tableDir.partCache.get ("logs", "events") Sample.odd.now).1 = some v →
        v = (lines (body Sample.oddIds)).filter keepPartition := by
    intro v hv
    cases hv
  have hquery : Sample.odd.query (sqlListPartitions "logs" "events") = .ok (body Sample.oddIds) := rfl
  obtain ⟨files, hentries, hsends, hnames, -, -, hreached⟩ :=
    table_directory hpath (by decide +kernel) hvalid hquery hcached
  -- the listing, evaluated
  have hlisting : (Sample.tableDir.entries Sample.odd
      ⟨.listPartitions, some "logs", some "events"⟩).1
        = .ok (dots ++ [".schema", "README.md", "all.tsv", "README.md.tsv", "all.tsv.tsv",
          "...tsv"].map fun name => (.regularFile, name)) := by decide +kernel
  have hfiles := List.append_cancel_left (Except.ok.inj (hentries.symm.trans hlisting))
  obtain ⟨file, hfile, hresolve⟩ := (hreached (.streamPartition "README.md")).mpr
    (.inr (.inr (.inr ⟨"README.md", by decide, by decide, rfl⟩)))
  have hanswer : (Sample.answer Sample.tableDir
      (Sample.tableDir.readdir Sample.deps Sample.odd 7 0 9)).1 ≠ ⟨0, []⟩ := by decide +kernel
  obtain ⟨reply, fs', hreaddir⟩ : ∃ reply fs',
      Sample.tableDir.readdir Sample.deps Sample.odd 7 0 9 = some (.directory reply, fs') :=
    ⟨_, _, Sample.eq_of_answer hanswer⟩
  have hsent := hsends Sample.deps 7 9 reply fs' rfl (by rw [hfiles]; decide) hreaddir
  have hsentNames := congrArg (List.map Prod.snd) hsent
  rw [List.map_map] at hsentNames
  refine ⟨reply, fs', hreaddir, hsentNames.trans (by rw [hfiles]; rfl), ?_, ?_⟩
  · exact hsentNames ▸ hnames
  · have hmem : file ∈ dots ++ files := List.mem_append_right _ hfile
    rw [← hsent] at hmem
    obtain ⟨e, he, rfl⟩ := List.mem_map.mp hmem
    exact ⟨e, he, hresolve⟩

end Fs
end ClickFs
