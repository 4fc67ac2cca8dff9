import ClickFs.Fs

/-!
# What the listings say

`lookup` and `readdir` decide by the same three listings of the server: the databases,
the tables of a database, the partitions of a table. `Listings` is what the three are for
one request, from the cache or freshly fetched, and everything the two requests make of
them is said about that: `Verifies` is when a plan exists, `Lists` what a directory holds.

A request changes nothing but the caches on the way (`Recached`), and `CachedAll` is the
invariant the caches carry from one request to the next: what holds of every listing the
server answers with holds of every listing that is used.
-/

set_option autoImplicit false

namespace ClickFs

open Rust Driver

/-- What can be listed. -/
inductive Source
  | databases
  | tables (db : String)
  | partitions (db tbl : String)
deriving DecidableEq, Repr

namespace Source

def sql : Source → String
  | .databases => sqlListDatabases
  | .tables db => sqlListTables db
  | .partitions db tbl => sqlListPartitions db tbl

/-- The lines that stay. What is dropped from a listing is dropped for `lookup` and `readdir`
    alike. -/
def keep : Source → String → Bool
  | .databases => Fs.keepName
  | .tables _ => Fs.keepName
  | .partitions _ _ => Fs.keepPartition

theorem keep_ne_nil {src : Source} {name : String} (h : src.keep name = true) : name ≠ "" := by
  intro hnil
  subst hnil
  cases src <;> cases h

end Source

/-- The listings one request works with: for each source the names, or why there are none. -/
abbrev Listings := Source → Except ClickFsError (List String)

namespace Listings

def Has (l : Listings) (src : Source) (name : String) : Prop := ∃ names, l src = .ok names ∧ name ∈ names

end Listings

/-- Where a plan has to be listed, and as what. The root and "/db" need no listing, and the
    table's own files need the table. -/
def QueryPlan.needs : QueryPlan → Option (Source × String)
  | ⟨.listTables, some db, _⟩ => some (.databases, db)
  | ⟨.listPartitions, some db, some t⟩ | ⟨.describeTable, some db, some t⟩
  | ⟨.readme, some db, some t⟩ | ⟨.streamAll, some db, some t⟩ => some (.tables db, t)
  | ⟨.streamPartition part, some db, some t⟩ => some (.partitions db t, part)
  | _ => none

/-- The kind of file a plan is. -/
def QueryPlan.fileType (plan : QueryPlan) : FileType :=
  if plan.isDir then .directory else .regularFile

namespace Listings

/-- The plan exists, as far as the listings go. This is all that `lookup` knows of existence. -/
def Verifies (l : Listings) (plan : QueryPlan) : Prop :=
  ∀ src name, plan.needs = some (src, name) → l.Has src name

theorem verifies_of_needs {l : Listings} {plan : QueryPlan} {src : Source} {name : String}
    (hneeds : plan.needs = some (src, name)) (h : l.Has src name) : l.Verifies plan := by
  intro src' name' heq
  rw [hneeds] at heq
  cases heq
  exact h

/-- What `readdir` lists, besides "." and "..". -/
inductive Lists (l : Listings) : QueryPlan → FileType → String → Prop
  | root : Lists l ⟨.root, none, none⟩ .directory "db"
  | database {name : String} (h : l.Has .databases name) :
      Lists l ⟨.dbNamespace, none, none⟩ .directory name
  | table {db name : String} (h : l.Has (.tables db) name) :
      Lists l ⟨.listTables, some db, none⟩ .directory name
  | always {db tbl name : String} (h : name ∈ Fs.tableFiles) :
      Lists l ⟨.listPartitions, some db, some tbl⟩ .regularFile name
  | partition {db tbl part : String} (h : l.Has (.partitions db tbl) part) :
      Lists l ⟨.listPartitions, some db, some tbl⟩ .regularFile (part ++ ".tsv")

end Listings

namespace Fs

/-- The files every table has stand for themselves, and need the table. -/
theorem leaf_of_tableFiles {name : String} (h : name ∈ tableFiles) (db tbl : String) :
    ∃ kind, Leaf name kind ∧
      (QueryPlan.mk kind (some db) (some tbl)).needs = some (.tables db, tbl) := by
  simp only [tableFiles, List.mem_cons, List.not_mem_nil, or_false] at h
  rcases h with rfl | rfl | rfl
  · exact ⟨_, .schema, rfl⟩
  · exact ⟨_, .readme, rfl⟩
  · exact ⟨_, .all, rfl⟩

theorem attrForPlan_kind (fs : Fs) (ino : UInt64) (plan : QueryPlan) :
    (fs.attrForPlan ino plan).kind = plan.fileType := by
  unfold attrForPlan QueryPlan.fileType
  split
  · rfl
  · split <;> rfl

/-! ## One fetch -/

/-- The three `fetch_*` as one function, so that what is proved of one is proved of all. -/
def fetch (fs : Fs) (env : Env) : Source → Except ClickFsError (List String) × Fs
  | .databases => fs.fetchDatabases env
  | .tables db => fs.fetchTables env db
  | .partitions db tbl => fs.fetchPartitions env db tbl

def listings (fs : Fs) (env : Env) : Listings := fun src => (fs.fetch env src).1

/-- Every cached listing satisfies `P`. `P` is a parameter: which names are plain, which rows the
    server has, and other things of the kind are all carried in this one way. -/
structure CachedAll (P : Source → List String → Prop) (fs : Fs) : Prop where
  databases : fs.dbCache.All fun _ => P .databases
  tables : fs.tableCache.All fun db => P (.tables db)
  partitions : fs.partCache.All fun key => P (.partitions key.1 key.2)

/-- Every listing the server may answer with satisfies `P`. -/
def Answers (P : Source → List String → Prop) (env : Env) : Prop :=
  ∀ src body, env.query src.sql = .ok body → P src ((lines body).filter src.keep)

/-- Nothing but the caches has changed. They hold what they held or what the server answers now,
    and the request still sees the listings it saw. -/
structure Recached (env : Env) (fs fs' : Fs) : Prop where
  same : ∃ dbCache tableCache partCache, fs' = { fs with dbCache, tableCache, partCache }
  cached : ∀ P, CachedAll P fs → Answers P env → CachedAll P fs'
  again : env.now ≤ env.stamp → fs'.listings env = fs.listings env

theorem Recached.refl (env : Env) (fs : Fs) : Recached env fs fs :=
  ⟨⟨_, _, _, rfl⟩, fun _ hc _ => hc, fun _ => rfl⟩

theorem Recached.inodes {fs fs' : Fs} {env : Env} (h : Recached env fs fs') :
    fs'.inodes = fs.inodes := by
  obtain ⟨_, _, _, rfl⟩ := h.same
  rfl

theorem Recached.attrForPlan {fs fs' : Fs} {env : Env} (h : Recached env fs fs') (ino : UInt64)
    (plan : QueryPlan) : fs'.attrForPlan ino plan = fs.attrForPlan ino plan := by
  obtain ⟨_, _, _, rfl⟩ := h.same
  rfl

theorem CachedAll.new (P : Source → List String → Prop) (uid gid : UInt32) (startTime : Nat)
    (tailCfg : TailConfig) : CachedAll P (.new uid gid startTime tailCfg) :=
  ⟨.new _, .new _, .new _⟩

theorem fetchVia_all {κ : Type} [DecidableEq κ] {P : κ → List String → Prop}
    {cache : TtlCache κ (List String)} (hc : cache.All P) {key : κ} {sql : String}
    {keep : String → Bool} {env : Env}
    (hq : ∀ body, env.query sql = .ok body → P key ((lines body).filter keep)) :
    (∀ names, (fetchVia cache key sql keep env).1 = .ok names → P key names) ∧
      (fetchVia cache key sql keep env).2.All P := by
  unfold fetchVia
  have hget := hc.get key env.now
  cases hhit : cache.get key env.now with
  | mk v cache' =>
    rw [hhit] at hget
    cases v with
    | some v =>
      refine ⟨fun names h => ?_, hget⟩
      cases h
      exact hc.hit hhit
    | none =>
      simp only
      cases hbody : env.query sql with
      | error e =>
        refine ⟨fun names h => ?_, hget⟩
        cases h
      | ok body =>
        have hbody := hq body hbody
        refine ⟨fun names h => ?_, hget.insert hbody _⟩
        cases h
        exact hbody

variable {P : Source → List String → Prop} {fs : Fs} {env : Env}

theorem listings_all (hc : CachedAll P fs) (hq : Answers P env) {src : Source} {names : List String}
    (h : fs.listings env src = .ok names) : P src names := by
  cases src with
  | databases => exact (fetchVia_all hc.databases (hq .databases)).1 names h
  | tables db => exact (fetchVia_all hc.tables (hq (.tables db))).1 names h
  | partitions db tbl => exact (fetchVia_all hc.partitions (hq (.partitions db tbl))).1 names h

theorem fetch_cachedAll (hc : CachedAll P fs) (hq : Answers P env) (src : Source) :
    CachedAll P (fs.fetch env src).2 := by
  cases src with
  | databases => exact { hc with databases := (fetchVia_all hc.databases (hq .databases)).2 }
  | tables db => exact { hc with tables := (fetchVia_all hc.tables (hq (.tables db))).2 }
  | partitions db tbl =>
    exact { hc with partitions := (fetchVia_all hc.partitions (hq (.partitions db tbl))).2 }

theorem fetchVia_fst {κ : Type} [DecidableEq κ] (cache : TtlCache κ (List String)) (key : κ)
    (sql : String) (keep : String → Bool) (env : Env) :
    (fetchVia cache key sql keep env).1 =
      match (cache.get key env.now).1 with
      | some v => .ok v
      | none =>
        match env.query sql with
        | .error e => .error (.query e)
        | .ok body => .ok ((lines body).filter keep) := by
  unfold fetchVia
  obtain ⟨v, cache'⟩ := cache.get key env.now
  cases v with
  | some v => rfl
  | none => cases env.query sql <;> rfl

/-- Fetching leaves what every fetch finds at the same instant as it was: what was just put in is
    what the server would answer again. -/
theorem fetchVia_again {κ : Type} [DecidableEq κ] (cache : TtlCache κ (List String)) (key key' : κ)
    (sql : κ → String) (keep : String → Bool) {env : Env} (h : env.now ≤ env.stamp) :
    (fetchVia (fetchVia cache key (sql key) keep env).2 key' (sql key') keep env).1
      = (fetchVia cache key' (sql key') keep env).1 := by
  have hget := cache.get_get key key' env.now
  have hlive : env.now - env.stamp ≤ (cache.get key env.now).2.ttl := by
    rw [Nat.sub_eq_zero_of_le h]
    exact Nat.zero_le _
  rw [fetchVia_fst, fetchVia_fst, ← hget]
  unfold fetchVia
  cases hhit : cache.get key env.now with
  | mk v cache' =>
    rw [hhit] at hget hlive
    cases v with
    | some v => rfl
    | none =>
      cases hquery : env.query (sql key) with
      | error e => rfl
      | ok body =>
        by_cases hkey : key' = key
        · subst hkey
          rw [hhit] at hget
          simp only [TtlCache.get_insert _ _ _ hlive, hget, hquery]
        · simp only [TtlCache.get_insert_of_ne _ hkey]

/-- One request sees one set of listings, however often it asks. The stamp must not lie before the
    request, or what was put in would be too old at once. -/
theorem listings_fetch (h : env.now ≤ env.stamp) (src : Source) :
    (fs.fetch env src).2.listings env = fs.listings env := by
  funext src'
  cases src with
  | databases =>
    cases src' with
    | databases => exact fetchVia_again fs.dbCache () () (fun _ => sqlListDatabases) keepName h
    | tables | partitions => rfl
  | tables db =>
    cases src' with
    | tables db' => exact fetchVia_again fs.tableCache db db' sqlListTables keepName h
    | databases | partitions => rfl
  | partitions db tbl =>
    cases src' with
    | partitions db' tbl' =>
      exact fetchVia_again fs.partCache (db, tbl) (db', tbl')
        (fun key => sqlListPartitions key.1 key.2) keepPartition h
    | databases | tables => rfl

theorem fetch_recached (fs : Fs) (env : Env) (src : Source) :
    Recached env fs (fs.fetch env src).2 := by
  constructor
  · cases src <;> exact ⟨_, _, _, rfl⟩
  · intro P hc hq
    exact fetch_cachedAll hc hq src
  · intro h
    exact listings_fetch h src

/-- The listings come from the caches and the server. What inodes have been given out makes no
    difference. -/
theorem listings_inodes (inodes : InodeTable) :
    ({ fs with inodes } : Fs).listings env = fs.listings env := by
  funext src
  cases src <;> rfl

/-! ## `verify_plan_exists` -/

theorem listed_ok {name : String} {r : Except ClickFsError (List String)} :
    listed name r = .ok () ↔ ∃ names, r = .ok names ∧ name ∈ names := by
  unfold listed
  cases r with
  | error e => simp
  | ok names => simp

theorem verifyPlanExists_of_needs {comps : List Component} {plan : QueryPlan}
    (hres : Resolved comps plan) {src : Source} {name : String}
    (h : plan.needs = some (src, name)) :
    fs.verifyPlanExists env plan = (listed name (fs.fetch env src).1, (fs.fetch env src).2) := by
  cases hres with
  | root => cases h
  | dbNamespace => cases h
  | listTables => cases h; rfl
  | listPartitions => cases h; rfl
  | leaf _ _ hleaf => cases hleaf <;> cases h <;> rfl

theorem verifyPlanExists_of_needs_none {comps : List Component} {plan : QueryPlan}
    (hres : Resolved comps plan) (h : plan.needs = none) :
    fs.verifyPlanExists env plan = (.ok (), fs) := by
  cases hres with
  | root => rfl
  | dbNamespace => rfl
  | listTables => cases h
  | listPartitions => cases h
  | leaf _ _ hleaf => cases hleaf <;> cases h

/-- The check passes when the plan is listed where it has to be. With this `verify_plan_exists` is
    not unfolded again. -/
theorem verifyPlanExists_ok {comps : List Component} {plan : QueryPlan}
    (hres : Resolved comps plan) :
    (fs.verifyPlanExists env plan).1 = .ok () ↔ (fs.listings env).Verifies plan := by
  cases hneeds : plan.needs with
  | none =>
    rw [verifyPlanExists_of_needs_none hres hneeds]
    simp [Listings.Verifies, hneeds]
  | some needed =>
    obtain ⟨src, name⟩ := needed
    rw [verifyPlanExists_of_needs hres hneeds, listed_ok]
    simp only [Listings.Verifies, hneeds, Option.some.injEq, Prod.mk.injEq]
    constructor
    · intro h src' name' heq
      obtain ⟨rfl, rfl⟩ := heq
      exact h
    · intro h
      exact h src name ⟨rfl, rfl⟩

theorem verifyPlanExists_recached {comps : List Component} {plan : QueryPlan}
    (hres : Resolved comps plan) : Recached env fs (fs.verifyPlanExists env plan).2 := by
  cases hneeds : plan.needs with
  | none =>
    rw [verifyPlanExists_of_needs_none hres hneeds]
    exact .refl env fs
  | some needed =>
    rw [verifyPlanExists_of_needs hres hneeds]
    exact fetch_recached fs env needed.1

/-! ## The entries of a directory -/

theorem entries_recached {plan : QueryPlan} : Recached env fs (fs.entries env plan).2 := by
  unfold entries
  split
  · exact .refl env fs
  · exact fetch_recached fs env .databases
  · exact fetch_recached fs env (.tables _)
  · exact fetch_recached fs env (.partitions _ _)
  · exact .refl env fs

theorem map_ok {α β : Type} {r : Except ClickFsError α} {f : α → β} {y : β} :
    r.map f = .ok y ↔ ∃ x, r = .ok x ∧ f x = y := by
  cases r <;> simp [Except.map]

theorem lists_of_entries {comps : List Component} {plan : QueryPlan} (hres : Resolved comps plan)
    {es : List (FileType × String)} (h : (fs.entries env plan).1 = .ok es) {kind : FileType}
    {name : String} (hmem : (kind, name) ∈ es) :
    (kind, name) ∈ dots ∨ (fs.listings env).Lists plan kind name := by
  cases hres with
  | root =>
    cases h
    rcases List.mem_append.mp hmem with hmem | hmem
    · exact .inl hmem
    · cases List.mem_singleton.mp hmem
      exact .inr .root
  | dbNamespace =>
    obtain ⟨dbs, hdbs, rfl⟩ := map_ok.mp h
    rcases List.mem_append.mp hmem with hmem | hmem
    · exact .inl hmem
    · obtain ⟨db, hdb, heq⟩ := List.mem_map.mp hmem
      cases heq
      exact .inr (.database ⟨dbs, hdbs, hdb⟩)
  | listTables =>
    obtain ⟨tbls, htbls, rfl⟩ := map_ok.mp h
    rcases List.mem_append.mp hmem with hmem | hmem
    · exact .inl hmem
    · obtain ⟨tbl, htbl, heq⟩ := List.mem_map.mp hmem
      cases heq
      exact .inr (.table ⟨tbls, htbls, htbl⟩)
  | @listPartitions db tbl =>
    cases h
    rw [List.append_assoc] at hmem
    rcases List.mem_append.mp hmem with hmem | hmem
    · exact .inl hmem
    · rcases List.mem_append.mp hmem with hmem | hmem
      · obtain ⟨file, hfile, heq⟩ := List.mem_map.mp hmem
        cases heq
        exact .inr (.always hfile)
      · obtain ⟨part, hpart, heq⟩ := List.mem_map.mp hmem
        cases heq
        split at hpart
        · rename_i parts hparts
          exact .inr (.partition ⟨parts, hparts, hpart⟩)
        · cases hpart
  | leaf _ _ hleaf => cases hleaf <;> cases h

theorem entries_of_lists {plan : QueryPlan} {kind : FileType} {name : String}
    (h : (fs.listings env).Lists plan kind name) :
    ∃ es, (fs.entries env plan).1 = .ok es ∧ (kind, name) ∈ es := by
  cases h with
  | root => exact ⟨_, rfl, by decide⟩
  | database h =>
    obtain ⟨dbs, hdbs, hmem⟩ := h
    exact ⟨_, map_ok.mpr ⟨dbs, hdbs, rfl⟩,
      List.mem_append_right _ (List.mem_map_of_mem hmem)⟩
  | table h =>
    obtain ⟨tbls, htbls, hmem⟩ := h
    exact ⟨_, map_ok.mpr ⟨tbls, htbls, rfl⟩,
      List.mem_append_right _ (List.mem_map_of_mem hmem)⟩
  | always h =>
    exact ⟨_, rfl, List.mem_append_left _ (List.mem_append_right _ (List.mem_map_of_mem h))⟩
  | @partition db tbl part h =>
    obtain ⟨parts, hparts, hmem⟩ := h
    have hparts : (fs.fetchPartitions env db tbl).1 = .ok parts := hparts
    have hentries : (fs.entries env ⟨.listPartitions, some db, some tbl⟩).1
        = .ok (dots ++ tableFiles.map (FileType.regularFile, ·)
          ++ parts.map fun p => (FileType.regularFile, p ++ ".tsv")) := by
      simp only [entries, Option.get!_some, hparts]
    exact ⟨_, hentries, List.mem_append_right _ (List.mem_map_of_mem hmem)⟩

end Fs
end ClickFs
