import ClickFs.Fs.Serve

/-!
# Looking up what exists

A `Server` is the databases, tables and active partitions there are. It answers the three
listing queries with the rows they ask for (`Server.Answers`), one to a line and escaped as
`TabSeparated` does: this is the assumption about ClickHouse. A path is then looked up
component by component, and what is on the way is found because the listing it is checked
against lists it.

The query for the databases leaves three of them out. Their names resolve like any other,
and the check fails for them: the walk succeeds for every path that exists, but for those
under a hidden database. The filter is in the query of the listing; that the lookup asks the
same listing makes the hidden databases unreachable by name as well.
-/

set_option autoImplicit false

namespace ClickFs

open Rust Driver Inode

/-! ## The server -/

/-- The characters the resolver lets through. -/
def plainChar (c : Char) : Bool := c.isAlphanum || c == '_' || c == '-' || c == '.'

def plainText (s : String) : Bool := s.toList.all plainChar

/-- The escaping of the TabSeparated format: a value stays on its line, a value of plain
    characters is written as it is, and no other value looks like one. Which escapes there are
    does not matter for what follows, so they are not fixed. -/
structure TabSeparated where
  escape : String → String
  oneLine : ∀ v, OneLine (escape v)
  plain : ∀ v, plainText v = true → escape v = v
  only : ∀ v, plainText (escape v) = true → escape v = v

namespace TabSeparated

/-- The characters that get a backslash, and the letter that stands for each. -/
def escapes : List (Char × Char) :=
  [('\x08', 'b'), ('\x0c', 'f'), ('\r', 'r'), ('\n', 'n'), ('\t', 't'), ('\x00', '0'),
    ('\'', '\''), ('\\', '\\')]

def escapeChar (c : Char) : List Char :=
  match escapes.lookup c with
  | some letter => ['\\', letter]
  | none => [c]

/-- No line ending comes out of the escaping of a character. -/
theorem ne_of_mem_escapeChar {c x : Char} (h : x ∈ escapeChar c) : x ≠ '\n' ∧ x ≠ '\r' := by
  have hletters : ∀ e ∈ escapes, ∀ y ∈ ['\\', e.2], y ≠ '\n' ∧ y ≠ '\r' := by simp [escapes]
  unfold escapeChar at h
  split at h
  · rename_i letter hletter
    obtain ⟨before, after, hescapes, -⟩ := List.lookup_eq_some_iff.mp hletter
    have hmem : (c, letter) ∈ escapes := by simp [hescapes]
    exact hletters _ hmem x h
  · rename_i hnone
    obtain rfl := List.mem_singleton.mp h
    constructor <;> intro hx <;> subst hx <;> simp [escapes] at hnone

theorem escapeChar_eq (c : Char) : escapeChar c = [c] ∨ '\\' ∈ escapeChar c := by
  unfold escapeChar
  split
  · exact .inr List.mem_cons_self
  · exact .inl rfl

theorem escapeChar_of_plain {c : Char} (h : plainChar c = true) : escapeChar c = [c] := by
  have hescapes : ∀ e ∈ escapes, plainChar e.1 = false := by decide
  unfold escapeChar
  split
  · rename_i letter hletter
    obtain ⟨before, after, hmem, -⟩ := List.lookup_eq_some_iff.mp hletter
    have hplain := hescapes (c, letter) (by simp [hmem])
    rw [h] at hplain
    cases hplain
  · rfl

theorem flatMap_escapeChar {cs : List Char} (h : ∀ c ∈ cs, escapeChar c = [c]) :
    cs.flatMap escapeChar = cs := by
  induction cs with
  | nil => rfl
  | cons c cs ih =>
    rw [List.flatMap_cons, h c List.mem_cons_self, ih fun c hc => h c (List.mem_cons_of_mem _ hc)]
    rfl

/-- The escaping of ClickHouse: one character at a time. That there is such a format at all is
    what makes the hypotheses above worth having. -/
def clickHouse : TabSeparated where
  escape v := String.ofList (v.toList.flatMap escapeChar)
  oneLine v := by
    have hne : ∀ x ∈ v.toList.flatMap escapeChar, x ≠ '\n' ∧ x ≠ '\r' := by
      intro x hx
      obtain ⟨c, -, hx⟩ := List.mem_flatMap.mp hx
      exact ne_of_mem_escapeChar hx
    constructor <;> rw [String.toList_ofList] <;> intro hmem
    · exact (hne _ hmem).1 rfl
    · exact (hne _ hmem).2 rfl
  plain v h := by
    have hall : ∀ c ∈ v.toList, escapeChar c = [c] := by
      intro c hc
      exact escapeChar_of_plain (List.all_eq_true.mp h c hc)
    rw [flatMap_escapeChar hall, String.ofList_toList]
  only v h := by
    have hall : ∀ c ∈ v.toList, escapeChar c = [c] := by
      intro c hc
      rcases escapeChar_eq c with hself | hslash
      · exact hself
      · rw [plainText, String.toList_ofList] at h
        have hplain := List.all_eq_true.mp h _ (List.mem_flatMap.mpr ⟨c, hc, hslash⟩)
        cases hplain
    rw [flatMap_escapeChar hall, String.ofList_toList]

end TabSeparated

structure Server where
  databases : String → Prop
  tables : String → String → Prop
  /-- the partition ids with active parts -/
  partitions : String → String → String → Prop

/-- What `sql_list_databases` leaves out. The list is in the text of the query, so the server does
    the filtering. -/
def hiddenDatabases : List String := ["system", "INFORMATION_SCHEMA", "information_schema"]

namespace Server

/-- The rows a listing query asks for. -/
def Rows (S : Server) : Source → String → Prop
  | .databases, name => S.databases name ∧ name ∉ hiddenDatabases
  | .tables db, name => S.tables db name
  | .partitions db tbl, name => S.partitions db tbl name

/-- The server answers every listing query with its rows, each once or more, in some order. -/
def Answers (S : Server) (tsv : TabSeparated) (query : String → Except QueryError String) : Prop :=
  ∀ src : Source, ∃ rows : List String, (∀ name, name ∈ rows ↔ S.Rows src name) ∧
    query src.sql = .ok (body (rows.map tsv.escape))

/-- A listing shows the server's rows, as far as they are names the resolver accepts. The others
    may be listed in whatever form; a lookup never gets as far as asking for them. -/
def Shows (S : Server) (src : Source) (names : List String) : Prop :=
  ∀ name, validIdentifier name = true → (name ∈ names ↔ S.Rows src name ∧ src.keep name = true)

/-- Everything the plan names is there. -/
structure Has (S : Server) (plan : QueryPlan) : Prop where
  database : ∀ db, plan.db = some db → S.databases db
  table : ∀ db tbl, plan.db = some db → plan.table = some tbl → S.tables db tbl
  partition : ∀ db tbl part, plan.db = some db → plan.table = some tbl →
    plan.kind = .streamPartition part → S.partitions db tbl part

variable {S : Server} {tsv : TabSeparated} {env : Env}

theorem plainText_of_validIdentifier {name : String} (h : validIdentifier name = true) :
    plainText name = true := by
  simp only [validIdentifier, Bool.and_eq_true] at h
  exact h.2

/-- What the server answers shows its rows, so the caches of a run hold listings that show them. -/
theorem shows_of_answers (h : S.Answers tsv env.query) : Fs.Answers S.Shows env := by
  intro src text htext name hname
  obtain ⟨rows, hrows, hquery⟩ := h src
  rw [hquery] at htext
  cases htext
  have hone : ∀ v ∈ rows.map tsv.escape, OneLine v := by
    intro v hv
    obtain ⟨row, -, rfl⟩ := List.mem_map.mp hv
    exact tsv.oneLine row
  have hplain := plainText_of_validIdentifier hname
  have hescape : name ∈ rows.map tsv.escape ↔ name ∈ rows := by
    constructor
    · intro hmem
      obtain ⟨row, hrow, hescaped⟩ := List.mem_map.mp hmem
      rw [tsv.only row (by rw [hescaped]; exact hplain)] at hescaped
      rwa [← hescaped]
    · intro hmem
      exact List.mem_map.mpr ⟨name, hmem, tsv.plain name hplain⟩
  rw [lines_body hone, List.mem_filter, hescape, hrows]

end Server

namespace Fs

variable {d : Deps} {S : Server} {tsv : TabSeparated} {fs fs' : Fs} {env : Env}

theorem listings_ok (h : ∀ src : Source, ∃ text, env.query src.sql = .ok text) (src : Source) :
    ∃ names, fs.listings env src = .ok names := by
  have hfetch {κ : Type} [DecidableEq κ] (cache : TtlCache κ (List String)) (key : κ)
      (keep : String → Bool) : ∃ names, (fetchVia cache key src.sql keep env).1 = .ok names := by
    obtain ⟨text, htext⟩ := h src
    rw [fetchVia_fst, htext]
    cases (cache.get key env.now).1 with
    | some v => exact ⟨v, rfl⟩
    | none => exact ⟨_, rfl⟩
  cases src with
  | databases => exact hfetch fs.dbCache () keepName
  | tables db => exact hfetch fs.tableCache db keepName
  | partitions db tbl => exact hfetch fs.partCache (db, tbl) keepPartition

/-- With listings that are current, a name is listed when it is one of the server's rows. -/
theorem listings_has (hc : CachedAll S.Shows fs) (hq : S.Answers tsv env.query) {src : Source}
    {name : String} (hname : validIdentifier name = true) :
    (fs.listings env).Has src name ↔ S.Rows src name ∧ src.keep name = true := by
  have hok : ∀ src : Source, ∃ text, env.query src.sql = .ok text := fun src => by
    obtain ⟨rows, -, hquery⟩ := hq src
    exact ⟨_, hquery⟩
  obtain ⟨names, hnames⟩ : ∃ names, fs.listings env src = .ok names := listings_ok hok src
  have hshows := listings_all hc (Server.shows_of_answers hq) hnames name hname
  rw [← hshows]
  constructor
  · intro ⟨names', hnames', hmem⟩
    rw [hnames] at hnames'
    cases hnames'
    exact hmem
  · intro hmem
    exact ⟨names, hnames, hmem⟩

/-! ## Existing plans are listed -/

theorem validIdentifier_ne_nil {name : String} (h : validIdentifier name = true) : name ≠ "" := by
  intro hnil
  subst hnil
  cases h

/-- What exists outside the hidden databases is listed where it has to be. -/
theorem verifies_of_has (hc : CachedAll S.Shows fs) (hq : S.Answers tsv env.query)
    {comps : List Component} {plan : QueryPlan} (hres : Resolved comps plan) (hhas : S.Has plan)
    (hvisible : ∀ db, plan.db = some db → db ∉ hiddenDatabases) :
    (fs.listings env).Verifies plan := by
  have hkeep {name : String} (h : validIdentifier name = true) : keepName name = true := by
    simpa [keepName] using validIdentifier_ne_nil h
  cases hres with
  | root => intro src name hneeds; cases hneeds
  | dbNamespace => intro src name hneeds; cases hneeds
  | @listTables db hdb =>
    have hdb := validIdentifier_of_validDbOrTable hdb
    exact Listings.verifies_of_needs rfl
      ((listings_has hc hq hdb).mpr ⟨⟨hhas.database db rfl, hvisible db rfl⟩, hkeep hdb⟩)
  | @listPartitions db tbl hdb htbl =>
    have htbl := validIdentifier_of_validDbOrTable htbl
    exact Listings.verifies_of_needs rfl
      ((listings_has hc hq htbl).mpr ⟨hhas.table db tbl rfl rfl, hkeep htbl⟩)
  | @leaf db tbl name kind hdb htbl hleaf =>
    have htbl := validIdentifier_of_validDbOrTable htbl
    have htable : (fs.listings env).Has (.tables db) tbl :=
      (listings_has hc hq htbl).mpr ⟨hhas.table db tbl rfl rfl, hkeep htbl⟩
    cases hleaf with
    | schema => exact Listings.verifies_of_needs rfl htable
    | readme => exact Listings.verifies_of_needs rfl htable
    | all => exact Listings.verifies_of_needs rfl htable
    | @partition part hvalid hall =>
      have hpart : keepPartition part = true := by
        simpa [keepPartition] using ⟨validIdentifier_ne_nil hvalid, hall⟩
      exact Listings.verifies_of_needs rfl
        ((listings_has hc hq hvalid).mpr ⟨hhas.partition db tbl part rfl rfl rfl, hpart⟩)

/-- A directory is there when something in it is, so what is on the way to an object exists with
    it. -/
theorem has_of_child {dir plan : QueryPlan} {name : String} (h : Child dir name plan)
    (hhas : S.Has plan) : S.Has dir := by
  cases h with
  | dbNamespace => exact ⟨nofun, nofun, nofun⟩
  | database => exact ⟨nofun, nofun, nofun⟩
  | table => exact ⟨hhas.database, nofun, nofun⟩
  | file => exact ⟨hhas.database, hhas.table, nofun⟩

theorem db_of_child {dir plan : QueryPlan} {name : String} (h : Child dir name plan) {db : String}
    (hdb : dir.db = some db) : plan.db = some db := by
  cases h with
  | dbNamespace => cases hdb
  | database => cases hdb
  | table => exact hdb
  | file => exact hdb

/-- Everything on the way to a plan resolves, and is there when the plan is. -/
theorem resolved_prefix {comps : List Component} {names : List String} {plan : QueryPlan}
    (h : Resolved (comps ++ names.map .normal) plan) :
    ∃ dir, Resolved comps dir ∧ (S.Has plan → S.Has dir) ∧
      ∀ db, dir.db = some db → plan.db = some db := by
  induction names using List.reverseRecOn generalizing plan with
  | nil =>
    rw [List.map_nil, List.append_nil] at h
    exact ⟨plan, h, id, fun _ h => h⟩
  | append_singleton names name ih =>
    rw [List.map_append, ← List.append_assoc] at h
    obtain ⟨mid, hmid, hchild⟩ := resolved_snoc.mp h
    obtain ⟨dir, hdir, hhas, hdb⟩ := ih hmid
    exact ⟨dir, hdir, fun hplan => hhas (has_of_child hchild hplan),
      fun db h => db_of_child hchild (hdb db h)⟩

/-! ## The walk -/

/-- Look up one name after the other, as the kernel does for a path, each lookup in the state the
    one before has left. -/
def walk (d : Deps) : Fs → UInt64 → List (Env × String) → Option (Except Errno UInt64 × Fs)
  | fs, ino, [] => some (.ok ino, fs)
  | fs, ino, (env, name) :: rest =>
    match fs.lookup d env ino name.toUTF8 with
    | some (.entry _ attr _, fs) => walk d fs attr.ino rest
    | some (.error e, fs) => some (.error e, fs)
    | _ => none

/-- What the walk starts from and keeps: the table has room, and the caches are current. -/
structure Ready (S : Server) (n : Nat) (fs : Fs) : Prop where
  agrees : Agrees fs.inodes
  small : Small n fs.inodes
  current : CachedAll S.Shows fs

/-- A component that is verified is found, and leaves the walk ready for the next one. -/
theorem lookup_ready {n : Nat} (h : Ready S n fs) (hq : S.Answers tsv env.query) (hn : n < 2 ^ 62)
    {parent : UInt64} {path : PathBuf} {name : String} {plan : QueryPlan}
    (hpath : fs.inodes.forward parent = some path) (hname : PathBuf.IsName name)
    (hres : Resolved (path.comps ++ [.normal name]) plan)
    (hverified : (fs.listings env).Verifies plan) :
    ∃ attr fs', fs.lookup d env parent name.toUTF8 = some (.entry entryTtl attr 0, fs') ∧
      Ready S (n + 1) fs' ∧
      fs'.inodes.forward attr.ino = some ⟨path.comps ++ [.normal name]⟩ := by
  rw [← PathBuf.join_of_isName hname]
  have hres : Resolved (path.join name).comps plan := by rwa [PathBuf.join_of_isName hname]
  obtain ⟨ino, inodes, halloc, hsmall⟩ := allocate_ends d.hasher (path.join name) h.small h.agrees hn
  obtain ⟨hall, hagrees⟩ := allocate_allocated h.agrees halloc
  obtain ⟨fs', hlookup, rfl⟩ := lookup_found hpath hres hverified halloc
  have hserve : fs.serve d env (.lookup parent name.toUTF8)
      = some (.entry entryTtl (fs.attrForPlan ino plan) 0, fs') := hlookup
  have hcurrent := serve_cachedAll h.current (Server.shows_of_answers hq) hserve
  refine ⟨_, fs', hlookup, ⟨hagrees, hsmall, hcurrent⟩, ?_⟩
  rw [attrForPlan_ino]
  exact hall.slot

/-- The walk down a path that exists outside the hidden databases reaches its end. -/
theorem walk_ok {steps : List (Env × String)} (hq : ∀ step ∈ steps, S.Answers tsv step.1.query)
    {plan : QueryPlan} (hhas : S.Has plan)
    (hvisible : ∀ db, plan.db = some db → db ∉ hiddenDatabases) {n : Nat} {fs : Fs}
    {ino : UInt64} {path : PathBuf} (h : Ready S n fs) (hn : n + steps.length ≤ 2 ^ 62)
    (hpath : fs.inodes.forward ino = some path)
    (hres : Resolved (path.comps ++ (steps.map Prod.snd).map .normal) plan) :
    ∃ ino' fs', walk d fs ino steps = some (.ok ino', fs') := by
  induction steps generalizing n fs ino path with
  | nil => exact ⟨ino, fs, rfl⟩
  | cons step steps ih =>
    obtain ⟨env, name⟩ := step
    have hqstep := hq _ List.mem_cons_self
    rw [List.map_cons, List.map_cons, ← List.singleton_append, ← List.append_assoc] at hres
    obtain ⟨mid, hmid, hhasMid, hdbMid⟩ := resolved_prefix (S := S) hres
    obtain ⟨dir, hdir, hchild⟩ := resolved_snoc.mp hmid
    have hverified := verifies_of_has h.current hqstep hmid (hhasMid hhas)
      (fun db hdb => hvisible db (hdbMid db hdb))
    rw [List.length_cons] at hn
    obtain ⟨attr, fs', hlookup, hready, hchildPath⟩ := lookup_ready (d := d) h hqstep (by omega)
      hpath hchild.isName hmid hverified
    simp only [walk, hlookup]
    exact ih (fun step hstep => hq step (List.mem_cons_of_mem _ hstep)) hready (by omega)
      hchildPath hres

theorem verified_of_lookup (ha : Agrees fs.inodes) (hc : CachedAll S.Shows fs)
    (hq : S.Answers tsv env.query) {parent : UInt64} {path : PathBuf} {name : String} {ttl : Nat}
    {attr : FileAttr} {generation : UInt64} (hpath : fs.inodes.forward parent = some path)
    (hname : PathBuf.IsName name)
    (hlookup : fs.lookup d env parent name.toUTF8 = some (.entry ttl attr generation, fs')) :
    (∃ plan, Resolved (path.comps ++ [.normal name]) plan ∧ (fs.listings env).Verifies plan) ∧
      Agrees fs'.inodes ∧ CachedAll S.Shows fs' ∧
      fs'.inodes.forward attr.ino = some ⟨path.comps ++ [.normal name]⟩ := by
  have hserve : fs.serve d env (.lookup parent name.toUTF8) = some (.entry ttl attr generation, fs') :=
    hlookup
  have hcurrent := serve_cachedAll hc (Server.shows_of_answers hq) hserve
  have hgrows := (serve_grows ha hserve).1
  cases lookup_cases hlookup with
  | @found path' nameStr plan ino fs₁ inodes hpath' hname' hres hverified hre halloc =>
    rw [toStr_toUTF8, Option.some.injEq] at hname'
    subst hname'
    obtain rfl := Option.some.inj (hpath.symm.trans hpath')
    rw [PathBuf.join_of_isName hname] at hres halloc
    refine ⟨⟨plan, hres, hverified⟩, hgrows.agrees, hcurrent, ?_⟩
    rw [attrForPlan_ino]
    exact (allocate_allocated ha halloc).1.slot

/-- A path with a database in it begins with "db" and the database. -/
theorem names_of_db {names : List String} {plan : QueryPlan} {db : String}
    (h : Resolved (names.map .normal) plan) (hdb : plan.db = some db) :
    ∃ rest, names = "db" :: db :: rest ∧ validDbOrTable db = true := by
  have hinj : Function.Injective (List.map Component.normal) :=
    List.map_injective_iff.mpr fun _ _ h => Component.normal.inj h
  generalize hcomps : names.map Component.normal = comps at h
  cases h with
  | root => cases hdb
  | dbNamespace => cases hdb
  | @listTables db' hvalid =>
    cases hdb
    exact ⟨[], hinj hcomps, hvalid⟩
  | @listPartitions db' tbl hvalid =>
    cases hdb
    exact ⟨[tbl], hinj hcomps, hvalid⟩
  | @leaf db' tbl leaf kind hvalid =>
    cases hdb
    exact ⟨[tbl, leaf], hinj hcomps, hvalid⟩

/-- A step of a walk that goes on is a lookup that was answered with an entry. -/
theorem lookup_of_walk {name : String} {steps : List (Env × String)} {parent ino : UInt64}
    (hwalk : walk d fs parent ((env, name) :: steps) = some (.ok ino, fs')) :
    ∃ ttl attr generation fs₁, fs.lookup d env parent name.toUTF8
      = some (.entry ttl attr generation, fs₁) ∧ walk d fs₁ attr.ino steps = some (.ok ino, fs') := by
  rw [walk] at hwalk
  split at hwalk
  · rename_i ttl attr generation fs₁ hlookup
    exact ⟨ttl, attr, generation, fs₁, hlookup, hwalk⟩
  · cases hwalk
  · cases hwalk

/-- A walk that gets past a database was shown it in the listing of databases, and no listing
    shows a hidden one. -/
theorem visible_of_walk (ha : Agrees fs.inodes) (hc : CachedAll S.Shows fs)
    (hroot : fs.inodes.forward inoRoot = some .root) {env₀ env₁ : Env}
    (hq₀ : S.Answers tsv env₀.query) (hq₁ : S.Answers tsv env₁.query) {db : String}
    (hdb : validDbOrTable db = true) {steps : List (Env × String)} {ino : UInt64}
    (hwalk : walk d fs inoRoot ((env₀, "db") :: (env₁, db) :: steps) = some (.ok ino, fs')) :
    db ∉ hiddenDatabases := by
  obtain ⟨ttl, attr, generation, fs₁, hlookup, hwalk⟩ := lookup_of_walk hwalk
  obtain ⟨-, ha₁, hc₁, hpath⟩ :=
    verified_of_lookup ha hc hq₀ hroot Child.dbNamespace.isName hlookup
  obtain ⟨ttl', attr', generation', fs₂, hlookup', -⟩ := lookup_of_walk hwalk
  obtain ⟨⟨plan, hres, hverified⟩, -⟩ :=
    verified_of_lookup ha₁ hc₁ hq₁ hpath (isName_of_validDbOrTable hdb) hlookup'
  obtain rfl := hres.unique (.listTables hdb)
  have hlisted := hverified .databases db rfl
  exact ((listings_has hc₁ hq₁ (validIdentifier_of_validDbOrTable hdb)).mp hlisted).1.2

/-- **Looking up what exists.** Take any state of a mount with room in the inode table and no
    listing in the caches that the server has outgrown, a path that resolves to a plan with
    a database, and everything the plan names on the server. Looking the path up component
    by component from the root succeeds if and only if the database is not one of those the
    listing of databases leaves out. -/
theorem walk_iff_not_hidden {uid gid : UInt32} {startTime : Nat} {tailCfg : TailConfig}
    {acts : List Action} {tr : List Event}
    (hrun : (sys d).Exec (.new uid gid startTime tailCfg) acts tr fs)
    {steps : List (Env × String)} (hroom : 1 + handedOver tr + steps.length ≤ 2 ^ 62)
    (hcurrent : CachedAll S.Shows fs) (hq : ∀ step ∈ steps, S.Answers tsv step.1.query)
    {plan : QueryPlan} {db : String}
    (hplan : resolve ⟨(steps.map Prod.snd).map .normal⟩ = .ok plan) (hdb : plan.db = some db)
    (hhas : S.Has plan) :
    (∃ ino fs', walk d fs inoRoot steps = some (.ok ino, fs')) ↔ db ∉ hiddenDatabases := by
  have hagrees := new_agrees uid gid startTime tailCfg
  have hready : Ready S (1 + handedOver tr) fs :=
    ⟨(exec_grows hrun hagrees).agrees, exec_small hrun hagrees Small.new (by omega), hcurrent⟩
  have hroot : fs.inodes.forward inoRoot = some .root :=
    (exec_grows hrun hagrees).extend _ _ (new_root uid gid startTime tailCfg)
  have hres : Resolved ((steps.map Prod.snd).map .normal) plan := resolve_ok.mp hplan
  constructor
  · intro ⟨ino, fs', hwalk⟩
    obtain ⟨rest, hnames, hvalid⟩ := names_of_db hres hdb
    match steps, hq, hnames, hwalk with
    | (env₀, name₀) :: (env₁, name₁) :: steps, hq, hnames, hwalk =>
      simp only [List.map_cons, List.cons.injEq] at hnames
      obtain ⟨rfl, rfl, -⟩ := hnames
      exact visible_of_walk hready.agrees hcurrent hroot (hq _ List.mem_cons_self)
        (hq _ (List.mem_cons_of_mem _ List.mem_cons_self)) hvalid hwalk
  · intro hvisible
    refine walk_ok hq hhas (fun db' hdb' => ?_) hready hroom hroot hres
    obtain rfl := Option.some.inj (hdb.symm.trans hdb')
    exact hvisible

namespace Sample

/-- A server with a database besides the hidden `system`, and with the same table and the
    same partition in each. -/
def twoDatabases : Server where
  databases name := name = "default" ∨ name = "system"
  tables _ name := name = "events"
  partitions _ _ name := name = "202601"

/-- What it answers to the three listing queries, told apart by how they begin. -/
def listing (sql : String) : Except QueryError String :=
  let start := String.ofList (sql.toList.take 25)
  if start = "SELECT name FROM system.d" then .ok "default\n"
  else if start = "SELECT name FROM system.t" then .ok "events\n"
  else .ok "202601\n"

def online : Env := { now := 0, stamp := 0, query := listing, stream := fun _ => .error .auth }

theorem listing_start {sql : String} (start rest : String) (hsql : sql = start ++ rest)
    (h : 25 ≤ start.toList.length) : listing sql = listing start := by
  subst hsql
  simp only [listing, String.toList_append, List.take_append_of_le_length h]

def rows : Source → List String
  | .databases => ["default"]
  | .tables _ => ["events"]
  | .partitions _ _ => ["202601"]

theorem listing_sql (src : Source) :
    listing src.sql = .ok (body ((rows src).map TabSeparated.clickHouse.escape)) := by
  cases src with
  | databases => decide +kernel
  | tables db =>
    have hclosed : listing "SELECT name FROM system.tables WHERE database = "
        = .ok (body (["events"].map TabSeparated.clickHouse.escape)) := by decide +kernel
    exact (listing_start _ _ String.append_assoc (by decide +kernel)).trans hclosed
  | partitions db tbl =>
    have hclosed : listing "SELECT DISTINCT partition_id FROM system.parts WHERE database = "
        = .ok (body (["202601"].map TabSeparated.clickHouse.escape)) := by decide +kernel
    have hassoc (s a b c d : String) : s ++ a ++ b ++ c ++ d = s ++ (a ++ b ++ c ++ d) := by
      simp only [String.append_assoc]
    exact (listing_start _ _ (hassoc ..) (by decide +kernel)).trans hclosed

theorem twoDatabases_answers : twoDatabases.Answers .clickHouse listing := by
  intro src
  refine ⟨rows src, fun name => ?_, listing_sql src⟩
  cases src with
  | databases =>
    simp only [Server.Rows, twoDatabases, rows, List.mem_singleton]
    constructor
    · intro h
      subst h
      decide
    · intro ⟨hname, hvisible⟩
      rcases hname with rfl | rfl
      · rfl
      · exact absurd (by decide) hvisible
  | tables db => exact List.mem_singleton
  | partitions db tbl => exact List.mem_singleton

end Sample

/-- A partition of a table of the database that is listed is found. -/
theorem walk_iff_not_hidden_default : ∃ ino fs', walk Sample.deps Sample.mount inoRoot
    [(Sample.online, "db"), (Sample.online, "default"), (Sample.online, "events"),
      (Sample.online, "202601.tsv")] = some (.ok ino, fs') := by
  have hresolve : resolve ⟨[.normal "db", .normal "default", .normal "events", .normal "202601.tsv"]⟩
      = .ok ⟨.streamPartition "202601", some "default", some "events"⟩ := by decide +kernel
  have hhas : Sample.twoDatabases.Has ⟨.streamPartition "202601", some "default", some "events"⟩ := by
    constructor
    · intro db hdb
      exact .inl (Option.some.inj hdb).symm
    · intro db tbl _ htbl
      exact (Option.some.inj htbl).symm
    · intro db tbl part _ _ hpart
      exact (PlanKind.streamPartition.inj hpart).symm
  let steps := ["db", "default", "events", "202601.tsv"].map (Sample.online, ·)
  have hanswers : ∀ step ∈ steps, Sample.twoDatabases.Answers .clickHouse step.1.query := by
    intro step hstep
    obtain ⟨name, -, rfl⟩ := List.mem_map.mp hstep
    exact Sample.twoDatabases_answers
  have hroom : 1 + handedOver [] + steps.length ≤ 2 ^ 62 := by decide
  exact (walk_iff_not_hidden (.nil Sample.mount) hroom (.new ..) hanswers hresolve rfl hhas).mpr
    (by decide)

/-- The database `system` is there, its path resolves, nothing is cached, and it is not
    found. -/
theorem system_not_found :
    resolve ⟨[.normal "db", .normal "system"]⟩ = .ok ⟨.listTables, some "system", none⟩ ∧
    Sample.twoDatabases.Has ⟨.listTables, some "system", none⟩ ∧
    Sample.twoDatabases.Answers .clickHouse Sample.online.query ∧
    CachedAll Sample.twoDatabases.Shows Sample.mount ∧
    ∃ fs', walk Sample.deps Sample.mount inoRoot [(Sample.online, "db"), (Sample.online, "system")]
      = some (.error .enoent, fs') := by
  refine ⟨by decide +kernel, ⟨?_, nofun, nofun⟩, Sample.twoDatabases_answers, .new .., ?_⟩
  · intro db hdb
    exact .inr (Option.some.inj hdb).symm
  · have hwalk : (walk Sample.deps Sample.mount inoRoot
        [(Sample.online, "db"), (Sample.online, "system")]).map Prod.fst = some (.error .enoent) := by
      decide +kernel
    obtain ⟨⟨e, fs'⟩, hsome, rfl⟩ := Option.map_eq_some_iff.mp hwalk
    exact ⟨fs', hsome⟩

end Fs
end ClickFs
