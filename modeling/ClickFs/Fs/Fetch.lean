import ClickFs.Fs.Listing

/-!
# How old a listing can be

The three `fetch_*` under any number of callers, with the accesses to the caches, the query
and the server's own changes as separate steps. An entry is stamped when it is inserted,
later than the server was read for it, and a slow fetch may put its listing in after a
newer one. What bounds the age all the same is that an entry knows when it was stamped,
and was read off the server at most `D` before that (`Inv.caches`).

`D` is how long a fetch takes from its query to its insert. The TTL alone is no bound: an
entry that took a second to arrive is a second old when its two seconds begin. The server
is a function that changes by steps of its own, so "the server's listing at that time" has
a meaning without a list of all its changes.

One caller alone runs `Fs.fetch` (`exec_fetch`).
-/

set_option autoImplicit false

namespace ClickFs

open Rust Driver

namespace Fs

/-! ## The caches by what they list -/

/-- The entry for a listing, with when it was inserted. -/
def held (fs : Fs) : Source → Option (List String × Nat)
  | .databases => fs.dbCache.map ()
  | .tables db => fs.tableCache.map db
  | .partitions db tbl => fs.partCache.map (db, tbl)

def find (fs : Fs) (now : Nat) : Source → TtlCache.Found (List String)
  | .databases => fs.dbCache.find () now
  | .tables db => fs.tableCache.find db now
  | .partitions db tbl => fs.partCache.find (db, tbl) now

def evict (fs : Fs) : Source → Fs
  | .databases => { fs with dbCache := fs.dbCache.remove () }
  | .tables db => { fs with tableCache := fs.tableCache.remove db }
  | .partitions db tbl => { fs with partCache := fs.partCache.remove (db, tbl) }

def store (fs : Fs) (names : List String) (stamp : Nat) : Source → Fs
  | .databases => { fs with dbCache := fs.dbCache.insert () names stamp }
  | .tables db => { fs with tableCache := fs.tableCache.insert db names stamp }
  | .partitions db tbl => { fs with partCache := fs.partCache.insert (db, tbl) names stamp }

/-- The three caches have one time to live. -/
structure Lives (ttl : Nat) (fs : Fs) : Prop where
  databases : fs.dbCache.ttl = ttl
  tables : fs.tableCache.ttl = ttl
  partitions : fs.partCache.ttl = ttl

variable {fs : Fs} {ttl : Nat} {src src' : Source} {names : List String} {now stamp : Nat}

theorem Lives.evict (h : Lives ttl fs) (src : Source) : Lives ttl (fs.evict src) := by
  cases src <;> exact ⟨h.databases, h.tables, h.partitions⟩

theorem Lives.store (h : Lives ttl fs) (names : List String) (stamp : Nat) (src : Source) :
    Lives ttl (fs.store names stamp src) := by
  cases src <;> exact ⟨h.databases, h.tables, h.partitions⟩

theorem held_of_live (h : Lives ttl fs) (hfind : fs.find now src = .live names) :
    ∃ stamp, fs.held src = some (names, stamp) ∧ now ≤ stamp + ttl := by
  cases src with
  | databases =>
    obtain ⟨stamp, hmap, hage⟩ := TtlCache.find_live.mp hfind
    exact ⟨stamp, hmap, by rw [h.databases] at hage; omega⟩
  | tables db =>
    obtain ⟨stamp, hmap, hage⟩ := TtlCache.find_live.mp hfind
    exact ⟨stamp, hmap, by rw [h.tables] at hage; omega⟩
  | partitions db tbl =>
    obtain ⟨stamp, hmap, hage⟩ := TtlCache.find_live.mp hfind
    exact ⟨stamp, hmap, by rw [h.partitions] at hage; omega⟩

theorem remove_sub {κ ν : Type} [DecidableEq κ] {c : TtlCache κ ν} {key key' : κ} {entry : ν × Nat}
    (h : (c.remove key).map key' = some entry) : c.map key' = some entry := by
  by_cases hkey : key' = key
  · subst hkey
    simp only [TtlCache.remove, Function.update_self] at h
    cases h
  · simp only [TtlCache.remove, Function.update_of_ne hkey] at h
    exact h

theorem insert_sub {κ ν : Type} [DecidableEq κ] {c : TtlCache κ ν} {key key' : κ} {val : ν}
    {stamp : Nat} {entry : ν × Nat} (h : (c.insert key val stamp).map key' = some entry) :
    c.map key' = some entry ∨ (key' = key ∧ entry = (val, stamp)) := by
  by_cases hkey : key' = key
  · subst hkey
    simp only [TtlCache.insert, Function.update_self, Option.some.injEq] at h
    exact .inr ⟨rfl, h.symm⟩
  · simp only [TtlCache.insert, Function.update_of_ne hkey] at h
    exact .inl h

theorem held_of_evict {entry : List String × Nat} (h : (fs.evict src).held src' = some entry) :
    fs.held src' = some entry := by
  cases src with
  | databases => cases src' with
    | databases => exact remove_sub h
    | tables | partitions => exact h
  | tables => cases src' with
    | tables => exact remove_sub h
    | databases | partitions => exact h
  | partitions => cases src' with
    | partitions => exact remove_sub h
    | databases | tables => exact h

/-- Storing adds the one entry, under its own key, so it can make no other listing older or newer.
    -/
theorem held_of_store {entry : List String × Nat}
    (h : (fs.store names stamp src).held src' = some entry) :
    fs.held src' = some entry ∨ (src' = src ∧ entry = (names, stamp)) := by
  cases src with
  | databases => cases src' with
    | databases =>
      rcases insert_sub h with hold | ⟨-, hnew⟩
      · exact .inl hold
      · exact .inr ⟨rfl, hnew⟩
    | tables | partitions => exact .inl h
  | tables => cases src' with
    | tables =>
      rcases insert_sub h with hold | ⟨rfl, hnew⟩
      · exact .inl hold
      · exact .inr ⟨rfl, hnew⟩
    | databases | partitions => exact .inl h
  | partitions => cases src' with
    | partitions =>
      rcases insert_sub h with hold | ⟨hkey, hnew⟩
      · exact .inl hold
      · cases hkey
        exact .inr ⟨rfl, hnew⟩
    | databases | tables => exact .inl h

/-- What a fetch does when it finds nothing: the query, and the insert. -/
def ask (fs : Fs) (env : Env) (src : Source) : Except ClickFsError (List String) × Fs :=
  match env.query src.sql with
  | .error e => (.error (.query e), fs)
  | .ok body => (.ok ((lines body).filter src.keep), fs.store ((lines body).filter src.keep) env.stamp src)

/-- A fetch by its steps: look, evict what is too old, and ask. -/
theorem fetch_eq (fs : Fs) (env : Env) (src : Source) :
    fs.fetch env src = match fs.find env.now src with
      | .live names => (.ok names, fs)
      | .miss => fs.ask env src
      | .expired => (fs.evict src).ask env src := by
  cases src with
  | databases =>
    simp only [fetch, fetchDatabases, fetchVia, TtlCache.get_eq, find]
    cases fs.dbCache.find () env.now with
    | live names => rfl
    | miss | expired =>
      simp only [ask, Source.sql]
      cases env.query sqlListDatabases <;> rfl
  | tables db =>
    simp only [fetch, fetchTables, fetchVia, TtlCache.get_eq, find]
    cases fs.tableCache.find db env.now with
    | live names => rfl
    | miss | expired =>
      simp only [ask, Source.sql]
      cases env.query (sqlListTables db) <;> rfl
  | partitions db tbl =>
    simp only [fetch, fetchPartitions, fetchVia, TtlCache.get_eq, find]
    cases fs.partCache.find (db, tbl) env.now with
    | live names => rfl
    | miss | expired =>
      simp only [ask, Source.sql]
      cases env.query (sqlListPartitions db tbl) <;> rfl

end Fs

/-! ## Many callers -/

namespace Fetch

abbrev Tid := Nat

/-- Where one thread is in a `fetch_*`: between which two accesses to the caches, the clock or the
    server. -/
inductive Thread
  | idle
  | looking (src : Source)
  /-- before the expired entry is removed -/
  | removing (src : Source)
  | querying (src : Source)
  | waiting (src : Source) (sentAt : Nat)
  | received (src : Source) (sentAt : Nat) (body : String)
  /-- before `map.insert` -/
  | inserting (src : Source) (sentAt : Nat) (names : List String) (stamp : Nat)
deriving DecidableEq

structure State where
  fs : Fs
  /-- what the server would answer -/
  server : String → String
  now : Nat
  threads : Tid → Thread

inductive Action
  | tick (ns : Nat)
  /-- the server changes in whatever way -/
  | change (server : String → String)
  | fetch (t : Tid) (src : Source)
  | look (t : Tid)
  | remove (t : Tid)
  | send (t : Tid)
  /-- the server reads its listing -/
  | answer (t : Tid)
  | fail (t : Tid) (e : QueryError)
  | stamp (t : Tid)
  | put (t : Tid)

/-- A fetch that has returned, and when it read or inserted what it returns. Its age counts from
    there, and not from when the caller gets it. -/
inductive Event
  | fetched (t : Tid) (src : Source) (names : List String) (time : Nat)
  | failed (t : Tid) (src : Source) (e : QueryError)
deriving DecidableEq

namespace State

def init (fs : Fs) (server : String → String) (now : Nat) : State :=
  { fs, server, now, threads := fun _ => .idle }

def setThread (s : State) (t : Tid) (th : Thread) : State :=
  { s with threads := Function.update s.threads t th }

@[simp] theorem setThread_fs (s : State) (t : Tid) (th : Thread) :
    (s.setThread t th).fs = s.fs := rfl

@[simp] theorem setThread_now (s : State) (t : Tid) (th : Thread) :
    (s.setThread t th).now = s.now := rfl

@[simp] theorem setThread_server (s : State) (t : Tid) (th : Thread) :
    (s.setThread t th).server = s.server := rfl

@[simp] theorem setThread_self (s : State) (t : Tid) (th : Thread) :
    (s.setThread t th).threads t = th := Function.update_self ..

@[simp] theorem setThread_setThread (s : State) (t : Tid) (th th' : Thread) :
    (s.setThread t th).setThread t th' = s.setThread t th' := by
  simp [setThread]

theorem setThread_eq_self {s : State} {t : Tid} {th : Thread} (h : s.threads t = th) :
    s.setThread t th = s := by
  subst h
  simp [setThread]

/-- The listing as the server has it. -/
def listing (s : State) (src : Source) : List String := (lines (s.server src.sql)).filter src.keep

end State

def step (s : State) : Action → Option (State × List Event)
  | .tick ns => some ({ s with now := s.now + ns }, [])
  | .change server => some ({ s with server }, [])
  | .fetch t src =>
    match s.threads t with
    | .idle => some (s.setThread t (.looking src), [])
    | _ => none
  | .look t =>
    match s.threads t with
    | .looking src =>
      match s.fs.find s.now src with
      | .live names => some (s.setThread t .idle, [.fetched t src names s.now])
      | .miss => some (s.setThread t (.querying src), [])
      | .expired => some (s.setThread t (.removing src), [])
    | _ => none
  | .remove t =>
    match s.threads t with
    | .removing src => some ({ s.setThread t (.querying src) with fs := s.fs.evict src }, [])
    | _ => none
  | .send t =>
    match s.threads t with
    | .querying src => some (s.setThread t (.waiting src s.now), [])
    | _ => none
  | .answer t =>
    match s.threads t with
    | .waiting src sentAt => some (s.setThread t (.received src sentAt (s.server src.sql)), [])
    | _ => none
  | .fail t e =>
    match s.threads t with
    | .waiting src _ => some (s.setThread t .idle, [.failed t src e])
    | _ => none
  | .stamp t =>
    match s.threads t with
    | .received src sentAt body =>
      some (s.setThread t (.inserting src sentAt ((lines body).filter src.keep) s.now), [])
    | _ => none
  | .put t =>
    match s.threads t with
    | .inserting src _ names stamp =>
      some ({ s.setThread t .idle with fs := s.fs.store names stamp src },
        [.fetched t src names s.now])
    | _ => none

/-- The three `fetch_*` under any number of callers, and a server that changes. -/
def sys : Lts State Action Event := ⟨step⟩

/-! ## What one step does -/

/-- Every step there is, with the state it leads to and what it emits. The invariant is proved by
    cases on it. -/
inductive StepCase (s : State) : Action → State × List Event → Prop
  | tick (ns : Nat) : StepCase s (.tick ns) ({ s with now := s.now + ns }, [])
  | change (server : String → String) : StepCase s (.change server) ({ s with server }, [])
  | fetch {t : Tid} {src : Source} (h : s.threads t = .idle) :
      StepCase s (.fetch t src) (s.setThread t (.looking src), [])
  | live {t : Tid} {src : Source} {names : List String} (h : s.threads t = .looking src)
      (hfind : s.fs.find s.now src = .live names) :
      StepCase s (.look t) (s.setThread t .idle, [.fetched t src names s.now])
  | miss {t : Tid} {src : Source} (h : s.threads t = .looking src)
      (hfind : s.fs.find s.now src = .miss) :
      StepCase s (.look t) (s.setThread t (.querying src), [])
  | expired {t : Tid} {src : Source} (h : s.threads t = .looking src)
      (hfind : s.fs.find s.now src = .expired) :
      StepCase s (.look t) (s.setThread t (.removing src), [])
  | remove {t : Tid} {src : Source} (h : s.threads t = .removing src) :
      StepCase s (.remove t) ({ s.setThread t (.querying src) with fs := s.fs.evict src }, [])
  | send {t : Tid} {src : Source} (h : s.threads t = .querying src) :
      StepCase s (.send t) (s.setThread t (.waiting src s.now), [])
  | answer {t : Tid} {src : Source} {sentAt : Nat} (h : s.threads t = .waiting src sentAt) :
      StepCase s (.answer t) (s.setThread t (.received src sentAt (s.server src.sql)), [])
  | fail {t : Tid} {src : Source} {sentAt : Nat} (e : QueryError)
      (h : s.threads t = .waiting src sentAt) :
      StepCase s (.fail t e) (s.setThread t .idle, [.failed t src e])
  | stamp {t : Tid} {src : Source} {sentAt : Nat} {body : String}
      (h : s.threads t = .received src sentAt body) :
      StepCase s (.stamp t)
        (s.setThread t (.inserting src sentAt ((lines body).filter src.keep) s.now), [])
  | put {t : Tid} {src : Source} {sentAt stamp : Nat} {names : List String}
      (h : s.threads t = .inserting src sentAt names stamp) :
      StepCase s (.put t)
        ({ s.setThread t .idle with fs := s.fs.store names stamp src },
          [.fetched t src names s.now])

theorem step_cases {s : State} {a : Action} {r : State × List Event} (h : sys.step s a = some r) :
    StepCase s a r := by
  simp only [sys] at h
  cases a with
  | tick ns =>
    cases h
    exact .tick ns
  | change server =>
    cases h
    exact .change server
  | look t =>
    simp only [step] at h
    split at h
    · rename_i src hth
      split at h
      · rename_i names hfind
        cases h
        exact .live hth hfind
      · rename_i hfind
        cases h
        exact .miss hth hfind
      · rename_i hfind
        cases h
        exact .expired hth hfind
    · cases h
  | fetch t src =>
    simp only [step] at h
    split at h
    · rename_i hth
      cases h
      exact .fetch hth
    · cases h
  | remove t =>
    simp only [step] at h
    split at h
    · rename_i src hth
      cases h
      exact .remove hth
    · cases h
  | send t =>
    simp only [step] at h
    split at h
    · rename_i src hth
      cases h
      exact .send hth
    · cases h
  | answer t =>
    simp only [step] at h
    split at h
    · rename_i src sentAt hth
      cases h
      exact .answer hth
    · cases h
  | fail t e =>
    simp only [step] at h
    split at h
    · rename_i src sentAt hth
      cases h
      exact .fail e hth
    · cases h
  | stamp t =>
    simp only [step] at h
    split at h
    · rename_i src sentAt body hth
      cases h
      exact .stamp hth
    · cases h
  | put t =>
    simp only [step] at h
    split at h
    · rename_i src sentAt names stamp hth
      cases h
      exact .put hth
    · cases h

/-! ## One caller -/

/-- The query and the insert of one thread are `Fs.ask`, with the time that passes between them in
    the stamp. -/
theorem exec_ask {s : State} {t : Tid} {src : Source} (hth : s.threads t = .querying src) {env : Env}
    (hstamp : s.now ≤ env.stamp) (hquery : ∀ body, env.query src.sql = .ok body → body = s.server src.sql) :
    ∃ as tr s', sys.Exec s as tr s' ∧ s'.fs = (s.fs.ask env src).2 ∧
      ∀ names, (s.fs.ask env src).1 = .ok names → tr = [.fetched t src names env.stamp] := by
  let s₁ := s.setThread t (.waiting src s.now)
  have hth₁ : s₁.threads t = .waiting src s.now := Function.update_self ..
  have hsend : sys.step s (.send t) = some (s₁, []) := by
    simp only [sys, step, hth, s₁]
  unfold Fs.ask
  cases hbody : env.query src.sql with
  | error e =>
    have hfail : sys.step s₁ (.fail t e) = some (s₁.setThread t .idle, [.failed t src e]) := by
      simp only [sys, step, hth₁]
    exact ⟨_, _, _, .cons hsend (.one hfail), rfl, by simp⟩
  | ok body =>
    obtain rfl := hquery body hbody
    let names := (lines (s.server src.sql)).filter src.keep
    let s₂ := s.setThread t (.received src s.now (s.server src.sql))
    let s₃ : State := { s₂ with now := env.stamp }
    let s₄ := s₃.setThread t (.inserting src s.now names env.stamp)
    have hanswer : sys.step s₁ (.answer t) = some (s₂, []) := by
      simp only [sys, step, hth₁, s₁, s₂, State.setThread_server, State.setThread_setThread]
    have htick : sys.step s₂ (.tick (env.stamp - s.now)) = some (s₃, []) := by
      have hnow : s₂.now + (env.stamp - s.now) = env.stamp := Nat.add_sub_cancel' hstamp
      simp only [sys, step, s₃, hnow]
    have hth₃ : s₃.threads t = .received src s.now (s.server src.sql) := Function.update_self ..
    have hstamped : sys.step s₃ (.stamp t) = some (s₄, []) := by
      simp only [sys, step, hth₃, s₄]
      rfl
    have hth₄ : s₄.threads t = .inserting src s.now names env.stamp := Function.update_self ..
    have hput : sys.step s₄ (.put t) = some ({ s₄.setThread t .idle with
        fs := s.fs.store names env.stamp src }, [.fetched t src names env.stamp]) := by
      simp only [sys, step, hth₄]
      rfl
    refine ⟨_, _, _, .cons hsend (.cons hanswer (.cons htick (.cons hstamped (.one hput)))), rfl, ?_⟩
    intro names' hnames
    cases hnames
    rfl

/-- A `fetch_*` called by one thread, with what its request meets, is `Fs.fetch`: the file
    system's requests are runs of this machine with one thread in it. -/
theorem exec_fetch {s : State} {t : Tid} (h : s.threads t = .idle) {src : Source} {env : Env}
    (hnow : env.now = s.now) (hstamp : env.now ≤ env.stamp)
    (hquery : ∀ body, env.query src.sql = .ok body → body = s.server src.sql) :
    ∃ as tr s', sys.Exec s as tr s' ∧ s'.fs = (s.fs.fetch env src).2 ∧
      ∀ names, (s.fs.fetch env src).1 = .ok names → ∃ time, tr = [.fetched t src names time] := by
  rw [hnow] at hstamp
  let s₁ := s.setThread t (.looking src)
  have hcall : sys.step s (.fetch t src) = some (s₁, []) := by
    simp only [sys, step, h, s₁]
  have hth₁ : s₁.threads t = .looking src := Function.update_self ..
  rw [Fs.fetch_eq, hnow]
  cases hfind : s.fs.find s.now src with
  | live names =>
    have hlook : sys.step s₁ (.look t) = some (s, [.fetched t src names s.now]) := by
      simp only [sys, step, hth₁, s₁, State.setThread_fs, State.setThread_now, hfind,
        State.setThread_setThread, State.setThread_eq_self h]
    refine ⟨_, _, _, .cons hcall (.one hlook), rfl, fun names' hnames => ?_⟩
    cases hnames
    exact ⟨s.now, rfl⟩
  | miss =>
    let s₂ := s.setThread t (.querying src)
    have hlook : sys.step s₁ (.look t) = some (s₂, []) := by
      simp only [sys, step, hth₁, s₁, s₂, State.setThread_fs, State.setThread_now, hfind,
        State.setThread_setThread]
    have hth₂ : s₂.threads t = .querying src := Function.update_self ..
    obtain ⟨as, tr, s', hrun, hfs, hok⟩ := exec_ask hth₂ hstamp hquery
    exact ⟨_, _, s', .cons hcall (.cons hlook hrun), hfs, fun names hnames => ⟨_, hok names hnames⟩⟩
  | expired =>
    let s₂ := s.setThread t (.removing src)
    let s₃ : State := { s.setThread t (.querying src) with fs := s.fs.evict src }
    have hlook : sys.step s₁ (.look t) = some (s₂, []) := by
      simp only [sys, step, hth₁, s₁, s₂, State.setThread_fs, State.setThread_now, hfind,
        State.setThread_setThread]
    have hth₂ : s₂.threads t = .removing src := Function.update_self ..
    have hremove : sys.step s₂ (.remove t) = some (s₃, []) := by
      simp only [sys, step, hth₂, s₂, s₃, State.setThread_fs, State.setThread_setThread]
    have hth₃ : s₃.threads t = .querying src := Function.update_self ..
    obtain ⟨as, tr, s', hrun, hfs, hok⟩ := exec_ask hth₃ hstamp hquery
    exact ⟨_, _, s', .cons hcall (.cons hlook (.cons hremove hrun)), hfs,
      fun names hnames => ⟨_, hok names hnames⟩⟩

/-! ## The invariant -/

/-- The listing was the server's, in a state of `H`, at an instant between the two. `H` stands for
    the states the run has been in. -/
def Was (H : State → Prop) (src : Source) (names : List String) (since time : Nat) : Prop :=
  ∃ s, H s ∧ since ≤ s.now ∧ s.now ≤ time ∧ names = s.listing src

/-- What a thread knows about the listing it works on: since when it may have been the server's. -/
def Thread.Sound (H : State → Prop) (now : Nat) : Thread → Prop
  | .waiting _ sentAt => sentAt ≤ now
  | .received src sentAt body =>
    sentAt ≤ now ∧ Was H src ((lines body).filter src.keep) sentAt now
  | .inserting src sentAt names stamp => stamp ≤ now ∧ Was H src names sentAt stamp
  | _ => True

structure Inv (H : State → Prop) (ttl D : Nat) (s : State) : Prop where
  lives : s.fs.Lives ttl
  /-- An entry was read off the server at most `D` before it was stamped. -/
  caches : ∀ src names stamp, s.fs.held src = some (names, stamp) →
    ∃ since, stamp ≤ since + D ∧ stamp ≤ s.now ∧ Was H src names since stamp
  threads : ∀ t, (s.threads t).Sound H s.now

/-- An insert comes at most `D` after its query was sent. A condition on the state before the
    step. -/
def Timely (D : Nat) (s : State) (a : Action) : Prop :=
  ∀ t src sentAt names stamp, a = .put t → s.threads t = .inserting src sentAt names stamp →
    s.now ≤ sentAt + D

variable {H : State → Prop} {ttl D : Nat} {s : State}

theorem Was.mono {src : Source} {names : List String} {since since' time time' : Nat}
    (h : Was H src names since time) (hsince : since' ≤ since) (htime : time ≤ time') :
    Was H src names since' time' := by
  obtain ⟨s, hs, hlow, hhigh, hnames⟩ := h
  exact ⟨s, hs, hsince.trans hlow, hhigh.trans htime, hnames⟩

theorem Thread.Sound.later {th : Thread} {now now' : Nat} (h : th.Sound H now) (hnow : now ≤ now') :
    th.Sound H now' := by
  cases th with
  | waiting src sentAt => exact Nat.le_trans h hnow
  | received src sentAt body => exact ⟨h.1.trans hnow, h.2.mono le_rfl hnow⟩
  | inserting src sentAt names stamp => exact ⟨h.1.trans hnow, h.2⟩
  | idle | looking | removing | querying => trivial

/-- One thread moves to where it is sound, and the caches hold nothing unsound. -/
theorem Inv.move (h : Inv H ttl D s) {t : Tid} {th : Thread} {fs : Fs} (hlives : fs.Lives ttl)
    (hcaches : ∀ src names stamp, fs.held src = some (names, stamp) →
      ∃ since, stamp ≤ since + D ∧ stamp ≤ s.now ∧ Was H src names since stamp)
    (hth : th.Sound H s.now) : Inv H ttl D { s.setThread t th with fs } := by
  refine ⟨hlives, hcaches, fun t' => ?_⟩
  by_cases ht : t' = t
  · subst ht
    show ((Function.update s.threads t' th) t').Sound H s.now
    rw [Function.update_self]
    exact hth
  · show ((Function.update s.threads t th) t').Sound H s.now
    rw [Function.update_of_ne ht]
    exact h.threads t'

/-- What the fetch returns was the server's listing for its own key, at most `ttl + D` before. -/
def Event.Fresh (H : State → Prop) (ttl D : Nat) : Event → Prop
  | .fetched _ src names time => ∃ since, time ≤ since + (ttl + D) ∧ Was H src names since time
  | .failed _ _ _ => True

theorem inv_step (hs : H s) (h : Inv H ttl D s) {a : Action} (hD : Timely D s a) {s₁ : State}
    {evs : List Event} (hstep : sys.step s a = some (s₁, evs)) :
    Inv H ttl D s₁ ∧ ∀ e ∈ evs, e.Fresh H ttl D := by
  have hsound (t : Tid) {th : Thread} (hth : s.threads t = th) : th.Sound H s.now := hth ▸ h.threads t
  cases step_cases hstep with
  | tick ns =>
    refine ⟨⟨h.lives, fun src names stamp hheld => ?_, fun t => ?_⟩, by simp⟩
    · obtain ⟨since, hage, hstamp, hwas⟩ := h.caches src names stamp hheld
      exact ⟨since, hage, hstamp.trans (Nat.le_add_right _ ns), hwas⟩
    · exact (h.threads t).later (Nat.le_add_right _ ns)
  | change server => exact ⟨⟨h.lives, h.caches, h.threads⟩, by simp⟩
  | fetch hth => exact ⟨h.move h.lives h.caches trivial, by simp⟩
  | @live t src names hth hfind =>
    refine ⟨h.move h.lives h.caches trivial, fun e he => ?_⟩
    obtain rfl := List.mem_singleton.mp he
    -- stamped at most `ttl` ago, and read off at most `D` before that
    obtain ⟨stamp, hheld, hlive⟩ := Fs.held_of_live h.lives hfind
    obtain ⟨since, hage, hstamp, hwas⟩ := h.caches src names stamp hheld
    exact ⟨since, by omega, hwas.mono le_rfl hstamp⟩
  | miss hth hfind => exact ⟨h.move h.lives h.caches trivial, by simp⟩
  | expired hth hfind => exact ⟨h.move h.lives h.caches trivial, by simp⟩
  | @remove t src hth =>
    refine ⟨h.move (h.lives.evict src) (fun src' names stamp hheld => ?_) trivial, by simp⟩
    exact h.caches src' names stamp (Fs.held_of_evict hheld)
  | send hth => exact ⟨h.move h.lives h.caches (le_refl s.now), by simp⟩
  | @answer t src sentAt hth =>
    have hsent : sentAt ≤ s.now := hsound t hth
    -- the server is read here
    exact ⟨h.move h.lives h.caches ⟨hsent, s, hs, hsent, le_rfl, rfl⟩, by simp⟩
  | fail e hth =>
    refine ⟨h.move h.lives h.caches trivial, fun e he => ?_⟩
    obtain rfl := List.mem_singleton.mp he
    trivial
  | @stamp t src sentAt body hth =>
    have hreceived : (Thread.received src sentAt body).Sound H s.now := hsound t hth
    exact ⟨h.move h.lives h.caches ⟨le_rfl, hreceived.2⟩, by simp⟩
  | @put t src sentAt stamp names hth =>
    have htime : s.now ≤ sentAt + D := hD t src sentAt names stamp rfl hth
    obtain ⟨hstamp, hwas⟩ : (Thread.inserting src sentAt names stamp).Sound H s.now := hsound t hth
    constructor
    · -- the new entry is no older than its query, and the others stay as they were
      refine h.move (h.lives.store names stamp src) (fun src' names' stamp' hheld => ?_) trivial
      rcases Fs.held_of_store hheld with hold | ⟨rfl, hnew⟩
      · exact h.caches src' names' stamp' hold
      · obtain ⟨rfl, rfl⟩ := Prod.mk.inj hnew
        exact ⟨sentAt, by omega, hstamp, hwas⟩
    · intro e he
      obtain rfl := List.mem_singleton.mp he
      exact ⟨sentAt, by omega, hwas.mono le_rfl hstamp⟩

/-- **Bounded staleness.** For every interleaving of fetches, from a fresh mount: when every
    insert comes at most `D` after its query was sent, a fetch that succeeds returns the
    server's listing for its own key, as it was at most 2 s and `D` before the fetch read
    the live entry or inserted its own result; however many queries failed, entries were
    evicted and changes the server made in between. -/
theorem bounded_staleness {D : Nat} {uid gid : UInt32} {startTime : Nat} {tailCfg : TailConfig}
    {server : String → String} {now : Nat} {acts : List Action} {tr : List Event} {s : State}
    (hrun : sys.Exec (.init (.new uid gid startTime tailCfg) server now) acts tr s)
    (hD : sys.Along (Timely D) (.init (.new uid gid startTime tailCfg) server now) acts)
    {t : Tid} {src : Source} {names : List String} {time : Nat}
    (hfetched : .fetched t src names time ∈ tr) :
    ∃ s₁, sys.Visited (.init (.new uid gid startTime tailCfg) server now) acts s₁ ∧
      time ≤ s₁.now + (fromMillis 2000 + D) ∧ s₁.now ≤ time ∧ names = s₁.listing src := by
  have hinit : Inv (sys.Visited (.init (.new uid gid startTime tailCfg) server now) acts)
      (fromMillis 2000) D (.init (.new uid gid startTime tailCfg) server now) := by
    refine ⟨⟨rfl, rfl, rfl⟩, fun src names stamp hheld => ?_, fun t => trivial⟩
    cases src <;> cases hheld
  have hfresh := hrun.historyAlong (fun s a s₁ evs hs h hC hstep => inv_step hs h hC hstep)
    (fun x hx => hx) hD hinit _ hfetched
  obtain ⟨since, hage, s₁, hvisited, hlow, hhigh, hnames⟩ := hfresh
  exact ⟨s₁, hvisited, by omega, hhigh, hnames⟩

/-- Only inserts can be late, so a run without one is timely for any `D`. -/
theorem along_timely {D : Nat} {acts : List Action} (h : ∀ t, .put t ∉ acts) (s : State) :
    sys.Along (Timely D) s acts := by
  refine Lts.along_of_forall (fun a ha s t src sentAt names stamp hput hth => ?_) s
  subst hput
  exact absurd ha (h t)

/-- A listing is fetched, the server changes, and the old listing is served from the cache. -/
theorem bounded_staleness_cached : ∃ (acts : List Action) (tr : List Event) (s s₁ : State),
    sys.Exec (.init (.new 0 0 0 .default) (fun _ => "logs\n") 0) acts tr s ∧
    .fetched 1 .databases ["logs"] 9 ∈ tr ∧
    sys.Visited (.init (.new 0 0 0 .default) (fun _ => "logs\n") 0) acts s₁ ∧
    9 ≤ s₁.now + (fromMillis 2000 + 5) ∧ s₁.now ≤ 9 ∧ ["logs"] = s₁.listing .databases := by
  let s₀ : State := .init (.new 0 0 0 .default) (fun _ => "logs\n") 0
  let before : List Action :=
    [.fetch 0 .databases, .look 0, .send 0, .answer 0, .tick 5, .stamp 0]
  let after : List Action :=
    [.change (fun _ => "events\n"), .tick 4, .fetch 1 .databases, .look 1]
  have hbefore := Lts.exec_of_isSome (by decide +kernel : (sys.run s₀ before).isSome = true)
  have hrun := Lts.exec_of_isSome
    (by decide +kernel : (sys.run s₀ (before ++ .put 0 :: after)).isSome = true)
  have hfetched : .fetched 1 .databases ["logs"] 9 ∈ sys.trace s₀ (before ++ .put 0 :: after) := by
    decide +kernel
  have hput : Timely 5 (sys.final s₀ before) (.put 0) := by
    intro t src sentAt names stamp hput hth
    cases hput
    have hinserting : (sys.final s₀ before).threads 0 = .inserting .databases 0 ["logs"] 5 := by
      decide +kernel
    rw [hinserting] at hth
    cases hth
    decide +kernel
  have hD : sys.Along (Timely 5) s₀ (before ++ .put 0 :: after) :=
    (Lts.Along.append hbefore).mpr
      ⟨along_timely (by simp [before]) _, hput, fun s₁ _ _ => along_timely (by simp [after]) s₁⟩
  obtain ⟨s₁, hvisited, hlow, hhigh, hnames⟩ := bounded_staleness hrun hD hfetched
  exact ⟨_, _, _, s₁, hrun, hfetched, hvisited, hlow, hhigh, hnames⟩

end Fetch
end ClickFs
