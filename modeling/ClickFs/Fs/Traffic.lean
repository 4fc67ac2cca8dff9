import ClickFs.Fs.Serve

/-!
# How often the server is asked for a listing

`verify_plan_exists` is called for every name that is looked up, and says of itself that it
costs at most one list query for each parent and TTL window. Here is what there is to that.
A request consults one listing at most (`Op.consults`), and asks the server for it when the
cache has nothing live (`asked`). An answer is kept until it is too old, and nothing throws
it out before: so between an answered query and the next one for the same listing there is
more than the TTL, in every run, whatever else is looked up and listed.

Failed queries are not cached and do not count: a server that is down is asked again for
every name. The requests share one clock, which does not go back (`Clocked`).
-/

set_option autoImplicit false

namespace ClickFs

open Rust Driver

namespace TtlCache

variable {κ ν : Type} [DecidableEq κ]

theorem get_ttl (c : TtlCache κ ν) (key : κ) (now : Nat) : (c.get key now).2.ttl = c.ttl := by
  unfold get
  split
  · rfl
  · split <;> rfl

theorem get_map_self (c : TtlCache κ ν) (key : κ) (now : Nat) :
    (c.get key now).2.map key = if (c.get key now).1.isSome then c.map key else none := by
  unfold get
  split
  · rename_i hmap
    simp [hmap]
  · split
    · simp
    · simp

theorem get_map_of_ne (c : TtlCache κ ν) {key key' : κ} (h : key' ≠ key) (now : Nat) :
    (c.get key now).2.map key' = c.map key' := by
  unfold get
  split
  · rfl
  · split
    · rfl
    · simp [Function.update_of_ne h]

end TtlCache

/-- The listing behind the entries of a directory. The root has none, for its one entry is fixed. -/
def QueryPlan.holds : QueryPlan → Option Source
  | ⟨.dbNamespace, _, _⟩ => some .databases
  | ⟨.listTables, some db, _⟩ => some (.tables db)
  | ⟨.listPartitions, some db, some tbl⟩ => some (.partitions db tbl)
  | _ => none

namespace Fs

/-- How long a listing is good for. -/
def listingTtl : Nat := fromMillis 2000

/-- The listing that is cached, and since when. -/
def entry (fs : Fs) : Source → Option (List String × Nat)
  | .databases => fs.dbCache.map ()
  | .tables db => fs.tableCache.map db
  | .partitions db tbl => fs.partCache.map (db, tbl)

/-- The cache has an entry for the listing that has not expired at that instant. -/
def isLive (fs : Fs) (now : Nat) (src : Source) : Bool :=
  match fs.entry src with
  | some (_, stamp) => decide (now - stamp ≤ listingTtl)
  | none => false

/-- The three caches were made with the same TTL. -/
structure OneTtl (fs : Fs) : Prop where
  databases : fs.dbCache.ttl = listingTtl
  tables : fs.tableCache.ttl = listingTtl
  partitions : fs.partCache.ttl = listingTtl

theorem OneTtl.new (uid gid : UInt32) (startTime : Nat) (tailCfg : TailConfig) :
    OneTtl (.new uid gid startTime tailCfg) := ⟨rfl, rfl, rfl⟩

variable {d : Deps} {fs fs' : Fs} {env : Env}

/-! ## One fetch -/

/-- A fetch that is answered by the cache changes nothing; one that is not keeps the answer, from
    its stamp on, or clears the place. -/
theorem fetchVia_map {κ : Type} [DecidableEq κ] (cache : TtlCache κ (List String)) (key : κ)
    (sql : String) (keep : String → Bool) (env : Env) :
    (fetchVia cache key sql keep env).2.map key =
      if (cache.get key env.now).1.isSome then cache.map key
      else match env.query sql with
        | .error _ => none
        | .ok body => some ((lines body).filter keep, env.stamp) := by
  have hself := cache.get_map_self key env.now
  unfold fetchVia
  generalize cache.get key env.now = out at hself ⊢
  obtain ⟨v, cache'⟩ := out
  cases v with
  | some v => simpa using hself
  | none =>
    cases env.query sql with
    | error e => simpa using hself
    | ok body => simp [TtlCache.insert]

theorem fetchVia_map_of_ne {κ : Type} [DecidableEq κ] (cache : TtlCache κ (List String))
    {key key' : κ} (h : key' ≠ key) (sql : String) (keep : String → Bool) (env : Env) :
    (fetchVia cache key sql keep env).2.map key' = cache.map key' := by
  have hother := cache.get_map_of_ne h env.now
  unfold fetchVia
  generalize cache.get key env.now = out at hother ⊢
  obtain ⟨v, cache'⟩ := out
  cases v with
  | some v => exact hother
  | none =>
    cases env.query sql with
    | error e => exact hother
    | ok body => simpa [TtlCache.insert, Function.update_of_ne h] using hother

theorem fetchVia_ttl {κ : Type} [DecidableEq κ] (cache : TtlCache κ (List String)) (key : κ)
    (sql : String) (keep : String → Bool) (env : Env) :
    (fetchVia cache key sql keep env).2.ttl = cache.ttl := by
  have httl := cache.get_ttl key env.now
  unfold fetchVia
  generalize cache.get key env.now = out at httl ⊢
  obtain ⟨v, cache'⟩ := out
  cases v with
  | some v => exact httl
  | none =>
    cases env.query sql with
    | error e => exact httl
    | ok body => simpa [TtlCache.insert] using httl

theorem fetch_oneTtl (h : OneTtl fs) (env : Env) (src : Source) : OneTtl (fs.fetch env src).2 := by
  cases src with
  | databases => exact { h with databases := (fetchVia_ttl ..).trans h.databases }
  | tables db => exact { h with tables := (fetchVia_ttl ..).trans h.tables }
  | partitions db tbl => exact { h with partitions := (fetchVia_ttl ..).trans h.partitions }

theorem isSome_get {κ : Type} [DecidableEq κ] {cache : TtlCache κ (List String)} {key : κ}
    {now : Nat} (h : cache.ttl = listingTtl) :
    (cache.get key now).1.isSome = match cache.map key with
      | some (_, stamp) => decide (now - stamp ≤ listingTtl)
      | none => false := by
  rw [TtlCache.get_fst, h]
  cases cache.map key with
  | none => rfl
  | some entry =>
    rw [Option.bind_some]
    split <;> simp [*]

theorem fetch_entry (h : OneTtl fs) (env : Env) (src : Source) :
    (fs.fetch env src).2.entry src =
      if fs.isLive env.now src then fs.entry src
      else match env.query src.sql with
        | .error _ => none
        | .ok body => some ((lines body).filter src.keep, env.stamp) := by
  cases src with
  | databases =>
    have hmap := fetchVia_map fs.dbCache () sqlListDatabases keepName env
    rw [isSome_get h.databases] at hmap
    exact hmap
  | tables db =>
    have hmap := fetchVia_map fs.tableCache db (sqlListTables db) keepName env
    rw [isSome_get h.tables] at hmap
    exact hmap
  | partitions db tbl =>
    have hmap := fetchVia_map fs.partCache (db, tbl) (sqlListPartitions db tbl) keepPartition env
    rw [isSome_get h.partitions] at hmap
    exact hmap

theorem fetch_entry_of_ne {src src' : Source} (h : src' ≠ src) (env : Env) :
    (fs.fetch env src).2.entry src' = fs.entry src' := by
  cases src with
  | databases =>
    cases src' with
    | databases => exact absurd rfl h
    | tables | partitions => rfl
  | tables db =>
    cases src' with
    | tables db' =>
      have hne : db' ≠ db := fun heq => h (by rw [heq])
      exact fetchVia_map_of_ne fs.tableCache hne _ _ _
    | databases | partitions => rfl
  | partitions db tbl =>
    cases src' with
    | partitions db' tbl' =>
      have hne : (db', tbl') ≠ (db, tbl) := by
        intro heq
        cases heq
        exact h rfl
      exact fetchVia_map_of_ne fs.partCache hne _ _ _
    | databases | tables => rfl

/-! ## One request -/

/-- The listing a request looks at: the one the plan of its path is needed for, or, for a
    `readdir`, the one its entries come from. -/
def Op.consults (fs : Fs) : Op → Option Source
  | .lookup parent name =>
    match fs.inodes.forward parent, toStr name with
    | some path, some nameStr =>
      match resolve (path.join nameStr) with
      | .ok plan => plan.needs.map Prod.fst
      | .error _ => none
    | _, _ => none
  | .readdir ino _ _ =>
    match fs.inodes.forward ino with
    | some path =>
      match resolve path with
      | .ok plan => plan.holds
      | .error _ => none
    | none => none
  | _ => none

/-- The listing a request asks the server for: the one it looks at, unless the cache has it. -/
def Event.asked (ev : Event) : Option Source :=
  (ev.op.consults ev.before).filter fun src => !ev.before.isLive ev.env.now src

structure SameCaches (fs fs' : Fs) : Prop where
  databases : fs'.dbCache = fs.dbCache
  tables : fs'.tableCache = fs.tableCache
  partitions : fs'.partCache = fs.partCache

theorem SameCaches.refl (fs : Fs) : SameCaches fs fs := ⟨rfl, rfl, rfl⟩

theorem SameCaches.of_untouched (h : Untouched fs fs') : SameCaches fs fs' :=
  ⟨h.dbCache, h.tableCache, h.partCache⟩

theorem SameCaches.entry (h : SameCaches fs fs') (src : Source) : fs'.entry src = fs.entry src := by
  cases src with
  | databases => rw [Fs.entry, Fs.entry, h.databases]
  | tables db => rw [Fs.entry, Fs.entry, h.tables]
  | partitions db tbl => rw [Fs.entry, Fs.entry, h.partitions]

theorem SameCaches.oneTtl (h : SameCaches fs fs') (ho : OneTtl fs) : OneTtl fs' :=
  ⟨h.databases ▸ ho.databases, h.tables ▸ ho.tables, h.partitions ▸ ho.partitions⟩

/-- The file system after the listing has been looked at. -/
def consulted (fs : Fs) (env : Env) : Option Source → Fs
  | some src => (fs.fetch env src).2
  | none => fs

theorem verifyPlanExists_consulted {comps : List Component} {plan : QueryPlan}
    (hres : Resolved comps plan) :
    (fs.verifyPlanExists env plan).2 = fs.consulted env (plan.needs.map Prod.fst) := by
  cases hneeds : plan.needs with
  | none => rw [verifyPlanExists_of_needs_none hres hneeds, Option.map_none, consulted]
  | some needed => rw [verifyPlanExists_of_needs hres hneeds, Option.map_some, consulted]

theorem entries_consulted {comps : List Component} {plan : QueryPlan}
    (hres : Resolved comps plan) :
    (fs.entries env plan).2 = fs.consulted env plan.holds := by
  cases hres with
  | root | dbNamespace | listTables | listPartitions => rfl
  | leaf _ _ hleaf => cases hleaf <;> rfl

theorem lookup_caches {parent : UInt64} {name : OsStr} {reply : Reply}
    (h : fs.lookup d env parent name = some (reply, fs')) :
    SameCaches (fs.consulted env ((Op.lookup parent name).consults fs)) fs' := by
  unfold lookup pathOf InodeTable.lookup at h
  cases hpath : fs.inodes.forward parent with
  | none =>
    rw [hpath] at h
    cases h
    simp only [Op.consults, hpath]
    exact .refl _
  | some path =>
    simp only [Op.consults, hpath] at h ⊢
    cases hname : toStr name with
    | none =>
      rw [hname] at h
      cases h
      exact .refl _
    | some nameStr =>
      simp only [hname] at h ⊢
      cases hplan : resolve (path.join nameStr) with
      | error e =>
        rw [hplan] at h
        cases h
        exact .refl _
      | ok plan =>
        simp only [hplan] at h ⊢
        rw [← verifyPlanExists_consulted (resolve_ok.mp hplan)]
        split at h
        · rename_i hverify
          cases h
          rw [hverify]
          exact .refl _
        · rename_i hverify
          rw [hverify]
          split at h
          · cases h
          · cases h
            exact ⟨rfl, rfl, rfl⟩

theorem readdir_caches {ino : UInt64} {offset : Int64} {room : Nat} {reply : Reply}
    (h : fs.readdir d env ino offset room = some (reply, fs')) :
    SameCaches (fs.consulted env ((Op.readdir ino offset room).consults fs)) fs' := by
  unfold readdir pathOf InodeTable.lookup at h
  cases hpath : fs.inodes.forward ino with
  | none =>
    rw [hpath] at h
    cases h
    simp only [Op.consults, hpath]
    exact .refl _
  | some path =>
    simp only [Op.consults, hpath] at h ⊢
    cases hplan : resolve path with
    | error e =>
      rw [hplan] at h
      cases h
      exact .refl _
    | ok plan =>
      simp only [hplan] at h ⊢
      rw [← entries_consulted (resolve_ok.mp hplan)]
      split at h
      · rename_i hentries
        cases h
        rw [hentries]
        exact .refl _
      · rename_i hentries
        rw [hentries]
        split at h
        · cases h
        · cases h
          exact ⟨rfl, rfl, rfl⟩

theorem serve_caches {op : Op} {reply : Reply} (h : fs.serve d env op = some (reply, fs')) :
    SameCaches (fs.consulted env (op.consults fs)) fs' := by
  cases op with
  | lookup parent name => exact lookup_caches h
  | readdir ino offset room => exact readdir_caches h
  | getattr | «open» | read | release => exact .of_untouched (serve_untouched rfl h)

/-! ## From one query to the next -/

/-- The listing is cached, since `t` or later. -/
def Keeps (src : Source) (t : Nat) (fs : Fs) : Prop :=
  ∃ names stamp, fs.entry src = some (names, stamp) ∧ t ≤ stamp

/-- A cached listing is kept until it is too old. Another listing may share its cache, but not its
    key. -/
theorem Keeps.serve {src : Source} {t : Nat} (h : Keeps src t fs) (ho : OneTtl fs) {op : Op}
    {reply : Reply} (hserve : fs.serve d env op = some (reply, fs')) :
    Keeps src t fs' ∨ t + listingTtl < env.now := by
  obtain ⟨names, stamp, hentry, hle⟩ := h
  have hcaches := serve_caches hserve
  have hsame (hkept : (fs.consulted env (op.consults fs)).entry src = fs.entry src) :
      Keeps src t fs' := ⟨names, stamp, (hcaches.entry src).trans (hkept.trans hentry), hle⟩
  cases hconsults : op.consults fs with
  | none => exact .inl (hsame (by rw [hconsults]; rfl))
  | some src' =>
    rw [hconsults] at hsame
    by_cases hsrc : src = src'
    · subst hsrc
      by_cases hlive : fs.isLive env.now src = true
      · refine .inl (hsame ?_)
        rw [consulted, fetch_entry ho, if_pos hlive]
      · right
        have hold : ¬ env.now - stamp ≤ listingTtl := by simpa [isLive, hentry] using hlive
        omega
    · exact .inl (hsame (fetch_entry_of_ne hsrc env))

theorem serve_oneTtl (ho : OneTtl fs) {op : Op} {reply : Reply}
    (hserve : fs.serve d env op = some (reply, fs')) : OneTtl fs' := by
  refine (serve_caches hserve).oneTtl ?_
  cases op.consults fs with
  | none => exact ho
  | some src => exact fetch_oneTtl ho env src

theorem exec_oneTtl {acts : List Action} {tr : List Event} (hrun : (sys d).Exec fs acts tr fs')
    (ho : OneTtl fs) : OneTtl fs' := by
  refine hrun.invariant (fun fs a fs₁ evs ho hstep => ?_) ho
  cases a with
  | request env op =>
    obtain ⟨reply, hserve, -⟩ := step_request hstep
    exact serve_oneTtl ho hserve
  | background fh sched =>
    exact (SameCaches.of_untouched (background_untouched (step_background hstep).1)).oneTtl ho

/-- The query was answered with a listing. -/
def Event.answered (ev : Event) (src : Source) : Prop :=
  ev.asked = some src ∧ ∃ body, ev.env.query src.sql = .ok body

theorem asked_iff {ev : Event} {src : Source} :
    ev.asked = some src ↔
      ev.op.consults ev.before = some src ∧ ev.before.isLive ev.env.now src = false := by
  simp [Event.asked, Option.filter_eq_some_iff]

theorem keeps_of_answered {ev : Event} {src : Source} (ho : OneTtl ev.before)
    (hserve : ev.before.serve d ev.env ev.op = some (ev.reply, ev.after))
    (h : ev.answered src) : Keeps src ev.env.stamp ev.after := by
  obtain ⟨hasked, body, hbody⟩ := h
  obtain ⟨hconsults, hlive⟩ := asked_iff.mp hasked
  have hentry := (serve_caches hserve).entry src
  rw [hconsults, consulted, fetch_entry ho, hlive, hbody] at hentry
  exact ⟨_, _, hentry, Nat.le_refl _⟩

/-- One clock: a later request finds it no earlier. -/
def Clocked (tr : List Event) : Prop := tr.Pairwise fun ev ev' => ev.env.now ≤ ev'.env.now

/-- A listing that was cached is still cached, or some request has come when it was too old: one
    of the two, in every state of a run. -/
theorem keeps_run {src : Source} {t : Nat} {acts : List Action} {tr : List Event}
    (hrun : (sys d).Exec fs acts tr fs') (ho : OneTtl fs) (h : Keeps src t fs) :
    Keeps src t fs' ∨ ∃ ev ∈ tr, t + listingTtl < ev.env.now := by
  suffices hkept : OneTtl fs' ∧
      (Keeps src t fs' ∨ ∃ ev ∈ [] ++ tr, t + listingTtl < ev.env.now) from hkept.2
  refine hrun.logAlong (C := fun _ _ => True)
    (I := fun fs log => OneTtl fs ∧ (Keeps src t fs ∨ ∃ ev ∈ log, t + listingTtl < ev.env.now)) ?_
    (Lts.along_of_forall (fun _ _ _ => trivial) fs) ⟨ho, .inl h⟩
  · intro fs a fs₁ evs log hI _ hstep
    obtain ⟨ho, hI⟩ := hI
    have ho₁ := exec_oneTtl (.one hstep) ho
    refine ⟨ho₁, ?_⟩
    rcases hI with hkeeps | ⟨ev, hev, hlt⟩
    · cases a with
      | request env op =>
        obtain ⟨reply, hserve, rfl⟩ := step_request hstep
        rcases hkeeps.serve ho hserve with hkeeps | hlt
        · exact .inl hkeeps
        · exact .inr ⟨_, List.mem_append_right _ List.mem_cons_self, hlt⟩
      | background fh sched =>
        have hsame := SameCaches.of_untouched (background_untouched (step_background hstep).1)
        obtain ⟨names, stamp, hentry, hle⟩ := hkeeps
        exact .inl ⟨names, stamp, (hsame.entry src).trans hentry, hle⟩
    · exact .inr ⟨ev, List.mem_append_left _ hev, hlt⟩

/-- A query for a listing that was cached since `t` comes more than the TTL after `t`. -/
theorem later_asked {src : Source} {t : Nat} {acts : List Action} {tr : List Event}
    (hrun : (sys d).Exec fs acts tr fs') (ho : OneTtl fs) (h : Keeps src t fs) (hclock : Clocked tr)
    {ev : Event} (hev : ev ∈ tr) (hasked : ev.asked = some src) : t + listingTtl < ev.env.now := by
  obtain ⟨tr₁, tr₂, rfl⟩ := List.append_of_mem hev
  obtain ⟨acts₁, acts₂, -, hbefore, -, -⟩ := exec_cut hrun rfl
  obtain ⟨-, hlive⟩ := asked_iff.mp hasked
  rcases keeps_run hbefore ho h with ⟨names, stamp, hentry, hle⟩ | ⟨ev', hev', hlt⟩
  · have hold : ¬ ev.env.now - stamp ≤ listingTtl := by simpa [isLive, hentry] using hlive
    omega
  · have hle := (List.pairwise_append.mp hclock).2.2 ev' hev' ev List.mem_cons_self
    omega

theorem exec_spaced {acts : List Action} {tr : List Event} (hrun : (sys d).Exec fs acts tr fs')
    (ho : OneTtl fs) (hclock : Clocked tr) (src : Source) :
    tr.Pairwise fun ev ev' => ev.answered src → ev'.asked = some src →
      ev.env.stamp + listingTtl < ev'.env.now := by
  induction hrun with
  | nil => exact .nil
  | @cons fs fs₁ fs₂ a acts evs tr head tail ih =>
    have ho₁ := exec_oneTtl (.one head) ho
    have hlater : Clocked tr := (List.pairwise_append.mp hclock).2.1
    have ih := ih ho₁ hlater
    cases a with
    | request env op =>
      obtain ⟨reply, hserve, rfl⟩ := step_request head
      refine List.pairwise_cons.mpr ⟨fun ev' hev' hanswered hasked => ?_, ih⟩
      exact later_asked tail ho₁ (keeps_of_answered ho hserve hanswered) hlater hev' hasked
    | background fh sched =>
      obtain ⟨-, rfl⟩ := step_background head
      exact ih

/-! ## A directory -/

/-- The listings its entries, and the lookups of its entries, come from. A table's directory has
    two: its fixed files are looked up in the listing of the tables. -/
def listingsIn : List Component → List Source
  | [.normal _] => [.databases]
  | [.normal _, .normal db] => [.tables db]
  | [.normal _, .normal db, .normal tbl] => [.tables db, .partitions db tbl]
  | _ => []

theorem length_listingsIn_le (comps : List Component) : (listingsIn comps).length ≤ 2 := by
  unfold listingsIn
  split <;> simp

theorem holds_mem {comps : List Component} {plan : QueryPlan} (hres : Resolved comps plan)
    {src : Source} (h : plan.holds = some src) : src ∈ listingsIn comps := by
  cases hres with
  | root => cases h
  | dbNamespace | listTables | listPartitions =>
    cases h
    simp [listingsIn]
  | leaf _ _ hleaf => cases hleaf <;> cases h

theorem needs_mem {comps : List Component} {name : String} {plan : QueryPlan}
    (hres : Resolved (comps ++ [.normal name]) plan) {src : Source}
    (h : plan.needs.map Prod.fst = some src) : src ∈ listingsIn comps := by
  generalize hcs : comps ++ [.normal name] = cs at hres
  have hcomps : comps = cs.dropLast := by rw [← hcs, List.dropLast_concat]
  subst hcomps
  cases hres with
  | root => simp at hcs
  | dbNamespace => cases h
  | listTables | listPartitions =>
    cases h
    simp [listingsIn]
  | leaf _ _ hleaf => cases hleaf <;> cases h <;> simp [listingsIn]

/-- The request lists the directory or looks one of its entries up, or names no file. -/
def Event.inDirectory (path : PathBuf) (ev : Event) : Prop :=
  match ev.op with
  | .lookup parent name => ev.before.inodes.forward parent = some path ∧
      ∀ nameStr, toStr name = some nameStr → PathBuf.IsName nameStr
  | .readdir ino _ _ => ev.before.inodes.forward ino = some path
  | _ => True

instance (path : PathBuf) : (ev : Event) → Decidable (ev.inDirectory path)
  | ⟨_, .lookup parent name, before, _, _⟩ =>
    inferInstanceAs (Decidable (before.inodes.forward parent = some path ∧
      ∀ nameStr ∈ toStr name, PathBuf.IsName nameStr))
  | ⟨_, .readdir ino _ _, before, _, _⟩ =>
    inferInstanceAs (Decidable (before.inodes.forward ino = some path))
  | ⟨_, .getattr _, _, _, _⟩ | ⟨_, .open _ _, _, _, _⟩ | ⟨_, .read _ _ _ _, _, _, _⟩
  | ⟨_, .release _, _, _, _⟩ => inferInstanceAs (Decidable True)

theorem consults_mem {ev : Event} {path : PathBuf} (h : ev.inDirectory path) {src : Source}
    (hconsults : ev.op.consults ev.before = some src) : src ∈ listingsIn path.comps := by
  unfold Event.inDirectory at h
  cases hop : ev.op with
  | lookup parent name =>
    rw [hop] at h hconsults
    obtain ⟨hpath, hname⟩ := h
    simp only [Op.consults, hpath] at hconsults
    cases hstr : toStr name with
    | none => simp [hstr] at hconsults
    | some nameStr =>
      simp only [hstr] at hconsults
      cases hplan : resolve (path.join nameStr) with
      | error e => simp [hplan] at hconsults
      | ok plan =>
        simp only [hplan] at hconsults
        have hres := resolve_ok.mp hplan
        rw [PathBuf.join_of_isName (hname nameStr hstr)] at hres
        exact needs_mem hres hconsults
  | readdir ino offset room =>
    rw [hop] at h hconsults
    have hpath : ev.before.inodes.forward ino = some path := h
    simp only [Op.consults, hpath] at hconsults
    cases hplan : resolve path with
    | error e => simp [hplan] at hconsults
    | ok plan =>
      simp only [hplan] at hconsults
      exact holds_mem (resolve_ok.mp hplan) hconsults
  | getattr | «open» | read | release =>
    rw [hop] at hconsults
    cases hconsults

/-- The requests happen within one TTL, and what is asked is answered. -/
structure Window (tr : List Event) : Prop where
  short : ∀ ev ∈ tr, ∀ ev' ∈ tr, ev'.env.now ≤ ev.env.stamp + listingTtl
  answered : ∀ ev ∈ tr, ∀ src, ev.asked = some src → ∃ body, ev.env.query src.sql = .ok body

/-- **At most one list query per listing and TTL window.** In every run of the file system,
    whatever is looked up and listed by whom, two queries for one listing are more than the
    TTL apart when the first was answered. So within one TTL none is sent twice, and going
    through a directory and all it holds costs two queries at most. -/
theorem listings_coalesced {uid gid : UInt32} {startTime : Nat} {tailCfg : TailConfig}
    {acts : List Action} {tr : List Event}
    (hrun : (sys d).Exec (.new uid gid startTime tailCfg) acts tr fs') (hclock : Clocked tr) :
    (∀ src, tr.Pairwise fun ev ev' => ev.answered src → ev'.asked = some src →
      ev.env.stamp + listingTtl < ev'.env.now) ∧
    ∀ tr₁ window tr₂, tr = tr₁ ++ window ++ tr₂ → Window window →
      (window.filterMap Event.asked).Nodup ∧
      ∀ path, (∀ ev ∈ window, ev.inDirectory path) → (window.filterMap Event.asked).length ≤ 2 := by
  have hspaced := exec_spaced hrun (.new ..) hclock
  refine ⟨hspaced, fun tr₁ window tr₂ htr hwindow => ?_⟩
  have hnodup : (window.filterMap Event.asked).Nodup := by
    rw [List.Nodup, List.pairwise_filterMap, List.pairwise_iff_forall_sublist]
    intro ev ev' hsub src hasked src' hasked' heq
    subst heq
    have hmem : ev ∈ window ∧ ev' ∈ window :=
      ⟨hsub.subset List.mem_cons_self, hsub.subset (List.mem_cons_of_mem _ List.mem_cons_self)⟩
    have hlt : ev.env.stamp + listingTtl < ev'.env.now := by
      have hpair : window.Sublist tr := by
        rw [htr, List.append_assoc]
        exact (List.sublist_append_left _ _).trans (List.sublist_append_right _ _)
      exact List.pairwise_iff_forall_sublist.mp (hspaced src) (hsub.trans hpair)
        ⟨hasked, hwindow.answered ev hmem.1 src hasked⟩ hasked'
    exact absurd (hwindow.short ev hmem.1 ev' hmem.2) (Nat.not_le.mpr hlt)
  refine ⟨hnodup, fun path hdir => ?_⟩
  have hsubset : window.filterMap Event.asked ⊆ listingsIn path.comps := by
    intro src hsrc
    obtain ⟨ev, hev, hasked⟩ := List.mem_filterMap.mp hsrc
    exact consults_mem (hdir ev hev) (asked_iff.mp hasked).1
  exact (hnodup.subperm hsubset).length_le.trans (length_listingsIn_le path.comps)

namespace Sample

/-- The sample server, and when it is asked. -/
def atTime (now : Nat) : Env := { server with now, stamp := now + 2 }

/-- "/db" is listed, an entry of it is looked up, and again when three seconds have gone. -/
def glances : List Action :=
  [.request (atTime 0) (.readdir 1 0 8), .request (atTime 5) (.readdir 100 0 8),
    .request (atTime 9) (.lookup 100 "default".toUTF8),
    .request (atTime (fromMillis 3000)) (.lookup 100 "default".toUTF8)]

end Sample

/-- The listing and the lookup of "default" are in one window of "/db", and cost one query. The
    lookup three seconds later is out of it, and costs another one. -/
theorem listings_coalesced_glances : ∃ tr₁ window tr₂ fs',
    (sys Sample.deps).Exec Sample.mount Sample.glances (tr₁ ++ window ++ tr₂) fs' ∧
    (tr₁ ++ window ++ tr₂).filterMap Event.asked = [.databases, .databases] ∧
    (∀ src, (tr₁ ++ window ++ tr₂).Pairwise fun ev ev' => ev.answered src → ev'.asked = some src →
      ev.env.stamp + listingTtl < ev'.env.now) ∧
    window.length = 2 ∧ Window window ∧ (∀ ev ∈ window, ev.inDirectory ⟨[.normal "db"]⟩) ∧
    (window.filterMap Event.asked).Nodup ∧ (window.filterMap Event.asked).length ≤ 2 := by
  let tr := (sys Sample.deps).trace Sample.mount Sample.glances
  let window := (tr.drop 1).take 2
  have hrun : (sys Sample.deps).Exec Sample.mount Sample.glances tr _ :=
    Lts.exec_of_isSome (by decide +kernel)
  have hclock : Clocked tr := by
    unfold Clocked
    decide +kernel
  have hasked : tr.filterMap Event.asked = [.databases, .databases] := by decide +kernel
  have hlength : window.length = 2 := by decide +kernel
  have hshort : ∀ ev ∈ window, ∀ ev' ∈ window, ev'.env.now ≤ ev.env.stamp + listingTtl := by
    decide +kernel
  have hanswers : ∀ ev ∈ window, ∀ src ∈ ev.asked, (ev.env.query src.sql).toOption.isSome := by
    decide +kernel
  have hdir : ∀ ev ∈ window, ev.inDirectory ⟨[.normal "db"]⟩ := by decide +kernel
  have htr : tr = tr.take 1 ++ window ++ tr.drop 3 := by
    rw [← List.take_add, List.take_append_drop]
  clear_value window
  have hwindow : Window window := by
    refine ⟨hshort, fun ev hev src hsrc => ?_⟩
    have hsome := hanswers ev hev src hsrc
    cases hquery : ev.env.query src.sql with
    | ok body => exact ⟨body, rfl⟩
    | error e => simp [hquery, Except.toOption] at hsome
  obtain ⟨hspaced, hcoalesced⟩ := listings_coalesced hrun hclock
  obtain ⟨hnodup, hmost⟩ := hcoalesced _ window _ htr hwindow
  generalize tr.take 1 = tr₁ at htr
  generalize tr.drop 3 = tr₂ at htr
  rw [htr] at hrun hspaced hasked
  exact ⟨tr₁, window, tr₂, _, hrun, hasked, hspaced, hlength, hwindow, hdir, hnodup, hmost _ hdir⟩

end Fs
end ClickFs
