import ClickFs.Driver.Http
import ClickFs.Fs.Handles
import ClickFs.Fs.Traffic
import ClickFs.Readme.Isolation

/-!
# What the server is asked

`posts` are the statements a request posts, in any state. That there are no others is
`serve_agree`: what a request answers and leaves behind depends on the server by these
statements alone. So two servers that answer them alike cannot be told apart
(`same_answers`), and a proxy that lets exactly these through would go unnoticed.

A statement is a text and a way of reading its answer; as the request it goes out as, with
the settings and its id, it is `Statement.post`.
-/

set_option autoImplicit false

namespace ClickFs

open Rust Driver Sql

/-- A statement, and whether its answer is streamed. -/
structure Statement where
  sql : String
  streaming : Bool
deriving DecidableEq, Repr

/-- A statement whose answer is read as a whole, by `query_text`. -/
def Statement.text (sql : String) : Statement := ⟨sql, false⟩

/-- The request a statement goes out as: `query_stream_with_id`, under the id of the stream, if its
    answer is streamed, and `query_text` otherwise. -/
def Statement.post (h : HttpDriver) (queryId : String) (st : Statement) : Post :=
  if st.streaming then h.queryStreamWithId st.sql (some queryId) else h.queryText st.sql

@[simp] theorem Statement.body_post (h : HttpDriver) (queryId : String) (st : Statement) :
    (st.post h queryId).body = h.appendSettings st.sql st.streaming := by
  obtain ⟨sql, streaming⟩ := st
  cases streaming <;> rfl

namespace Fs

/-! ## What a request posts -/

/-- What `open` posts for a file. The tail's order is asked for first, when tails are enabled. -/
def openPosts (fs : Fs) (plan : QueryPlan) : List Statement :=
  let db := plan.db.get!
  let tbl := plan.table.get!
  let spawn (sql : String) : List Statement :=
    (if fs.tailCfg.enabled then [.text (sqlTablePk db tbl)] else []) ++ [⟨sql, true⟩]
  match plan.kind with
  | .describeTable => [.text (sqlDescribe db tbl)]
  | .readme => [.text (sqlDescribe db tbl), .text (sqlStats db tbl), .text (sqlColumns db tbl),
      .text (Readme.sqlCount db tbl), .text (Readme.sqlSample db tbl)]
  | .streamAll => spawn (sqlStreamAll db tbl)
  | .streamPartition part => spawn (sqlStreamPartition db tbl part)
  | _ => []

/-- What `materialize_tail` posts. -/
def tailPost : Stream.Event → Option Statement
  | .materialize _ tail =>
    some (.text (sqlSelectTail tail.db tail.tbl tail.orderExpr tail.partition tail.rows))
  | .read _ => none

/-- What a stream posts while it takes some steps: a tail query, if one of the steps issues it. -/
def streamPosts (sched : List Stream.Action) : Option FileHandle → List Statement
  | some (.stream s) => (Stream.sys.trace s sched).filterMap tailPost
  | _ => []

def Op.posts (fs : Fs) (now : Nat) : Op → List Statement
  | .open ino flags =>
    match fs.inodes.forward ino with
    | some path =>
      match resolve path with
      | .ok plan => if flags &&& oAccmode = 0 then fs.openPosts plan else []
      | .error _ => []
    | none => []
  | .read fh offset size sched =>
    streamPosts (.call 0 (max offset 0).toUInt64 size.toNat :: sched) (fs.handles fh)
  | op => (((op.consults fs).filter fun src => !fs.isLive now src).map fun src =>
      .text src.sql).toList

def Action.posts (fs : Fs) : Action → List Statement
  | .request env op => op.posts fs env.now
  | .background fh sched => streamPosts sched (fs.handles fh)

/-! ## Nothing else is asked -/

/-- Two servers, asked at the same time, that answer some statements alike. Of all other
    statements nothing is said. -/
structure Agree (posts : List Statement) (env env' : Env) : Prop where
  now : env'.now = env.now
  stamp : env'.stamp = env.stamp
  query : ∀ sql, Statement.text sql ∈ posts → env'.query sql = env.query sql
  stream : ∀ sql, ⟨sql, true⟩ ∈ posts → env'.stream sql = env.stream sql

variable {d : Deps} {fs fs' : Fs} {env env' : Env}

theorem fetchVia_agree {κ : Type} [DecidableEq κ] (cache : TtlCache κ (List String)) (key : κ)
    (sql : String) (keep : String → Bool) (hnow : env'.now = env.now) (hstamp : env'.stamp = env.stamp)
    (hquery : (cache.get key env.now).1.isSome = false → env'.query sql = env.query sql) :
    fetchVia cache key sql keep env' = fetchVia cache key sql keep env := by
  unfold fetchVia
  rw [hnow, hstamp]
  generalize cache.get key env.now = out at hquery ⊢
  obtain ⟨v, cache'⟩ := out
  cases v with
  | some v => rfl
  | none => rw [hquery rfl]

theorem fetch_agree (ho : OneTtl fs) {src : Source} (hnow : env'.now = env.now)
    (hstamp : env'.stamp = env.stamp)
    (hquery : fs.isLive env.now src = false → env'.query src.sql = env.query src.sql) :
    fs.fetch env' src = fs.fetch env src := by
  cases src with
  | databases =>
    have hvia := fetchVia_agree fs.dbCache () sqlListDatabases keepName hnow hstamp fun h =>
      hquery ((isSome_get ho.databases).symm.trans h)
    simp only [fetch, fetchDatabases, hvia]
  | tables db =>
    have hvia := fetchVia_agree fs.tableCache db (sqlListTables db) keepName hnow hstamp fun h =>
      hquery ((isSome_get ho.tables).symm.trans h)
    simp only [fetch, fetchTables, hvia]
  | partitions db tbl =>
    have hvia := fetchVia_agree fs.partCache (db, tbl) (sqlListPartitions db tbl) keepPartition
      hnow hstamp fun h => hquery ((isSome_get ho.partitions).symm.trans h)
    simp only [fetch, fetchPartitions, hvia]

theorem verifyPlanExists_agree {comps : List Component} {plan : QueryPlan}
    (hres : Resolved comps plan)
    (h : ∀ src, plan.needs.map Prod.fst = some src → fs.fetch env' src = fs.fetch env src) :
    fs.verifyPlanExists env' plan = fs.verifyPlanExists env plan := by
  cases hneeds : plan.needs with
  | none =>
    rw [verifyPlanExists_of_needs_none hres hneeds, verifyPlanExists_of_needs_none hres hneeds]
  | some needed =>
    have hfetch := h needed.1 (by rw [hneeds]; rfl)
    rw [verifyPlanExists_of_needs hres hneeds, verifyPlanExists_of_needs hres hneeds, hfetch]

theorem entries_agree {comps : List Component} {plan : QueryPlan} (hres : Resolved comps plan)
    (h : ∀ src, plan.holds = some src → fs.fetch env' src = fs.fetch env src) :
    fs.entries env' plan = fs.entries env plan := by
  cases hres with
  | root => rfl
  | dbNamespace =>
    have hfetch : fs.fetchDatabases env' = fs.fetchDatabases env := h .databases rfl
    simp only [entries, hfetch]
  | @listTables db =>
    have hfetch : fs.fetchTables env' db = fs.fetchTables env db := h (.tables db) rfl
    simp only [entries, Option.get!_some, hfetch]
  | @listPartitions db tbl =>
    have hfetch : fs.fetchPartitions env' db tbl = fs.fetchPartitions env db tbl :=
      h (.partitions db tbl) rfl
    simp only [entries, Option.get!_some, hfetch]
  | leaf _ _ hleaf => cases hleaf <;> rfl

/-- The listing a request consults is the same from both servers. -/
theorem Agree.fetch {op : Op} (ho : OneTtl fs) {src : Source}
    (hposts : op.posts fs env.now = (((op.consults fs).filter fun src => !fs.isLive env.now src).map
      fun src => Statement.text src.sql).toList)
    (h : Agree (op.posts fs env.now) env env') (hsrc : op.consults fs = some src) :
    fs.fetch env' src = fs.fetch env src := by
  refine fetch_agree ho h.now h.stamp fun hlive => h.query src.sql ?_
  rw [hposts, hsrc]
  simp [Option.filter, hlive]

theorem lookup_agree (ho : OneTtl fs) {parent : UInt64} {name : OsStr}
    (h : Agree ((Op.lookup parent name).posts fs env.now) env env') :
    fs.lookup d env' parent name = fs.lookup d env parent name := by
  have hfetch {src : Source} (hsrc : (Op.lookup parent name).consults fs = some src) :=
    h.fetch ho rfl hsrc
  unfold lookup pathOf InodeTable.lookup
  cases hpath : fs.inodes.forward parent with
  | none => rfl
  | some path =>
    simp only
    cases hname : toStr name with
    | none => rfl
    | some nameStr =>
      simp only
      cases hplan : resolve (path.join nameStr) with
      | error e => rfl
      | ok plan =>
        have hverify : fs.verifyPlanExists env' plan = fs.verifyPlanExists env plan := by
          refine verifyPlanExists_agree (resolve_ok.mp hplan) fun src hsrc => hfetch ?_
          simp only [Op.consults, hpath, hname, hplan, hsrc]
        simp only [hverify]

theorem readdir_agree (ho : OneTtl fs) {ino : UInt64} {offset : Int64} {room : Nat}
    (h : Agree ((Op.readdir ino offset room).posts fs env.now) env env') :
    fs.readdir d env' ino offset room = fs.readdir d env ino offset room := by
  have hfetch {src : Source} (hsrc : (Op.readdir ino offset room).consults fs = some src) :=
    h.fetch ho rfl hsrc
  unfold readdir pathOf InodeTable.lookup
  cases hpath : fs.inodes.forward ino with
  | none => rfl
  | some path =>
    simp only
    cases hplan : resolve path with
    | error e => rfl
    | ok plan =>
      have hentries : fs.entries env' plan = fs.entries env plan := by
        refine entries_agree (resolve_ok.mp hplan) fun src hsrc => hfetch ?_
        simp only [Op.consults, hpath, hplan, hsrc]
      simp only [hentries]

section Open

variable {hasher : PathBuf → UInt64} {f : Readme.Formats}

/-- A data file is opened in the same way when the statements `open` posts for it are answered
    alike, with or without a tail. -/
theorem spawn_agree {db tbl sql : String} {enabled : Bool}
    (h : Agree ((if enabled then [.text (sqlTablePk db tbl)] else []) ++ [⟨sql, true⟩]) env env') :
    env'.stream sql = env.stream sql ∧
      (enabled = true → fetchTailOrderExpr d env' db tbl = fetchTailOrderExpr d env db tbl) := by
  refine ⟨h.stream sql (List.mem_append_right _ List.mem_cons_self), fun henabled => ?_⟩
  have hquery := h.query (sqlTablePk db tbl) (by simp [henabled])
  simp only [fetchTailOrderExpr, hquery]

theorem openHandle_agree {plan : QueryPlan} (h : Agree (fs.openPosts plan) env env') :
    fs.openHandle (Readme.deps hasher f) env' plan = fs.openHandle (Readme.deps hasher f) env plan := by
  obtain ⟨kind, db, table⟩ := plan
  cases kind with
  | root | dbNamespace | listTables | listPartitions => rfl
  | describeTable =>
    have hquery := h.query (sqlDescribe db.get! table.get!) (by simp [openPosts])
    simp only [openHandle, fetchDescribe, hquery]
  | readme =>
    have hfetch : Readme.fetch env'.query db.get! table.get!
        = Readme.fetch env.query db.get! table.get! := by
      have hquery {sql : String} (hmem : Statement.text sql ∈ fs.openPosts ⟨.readme, db, table⟩) :=
        h.query sql hmem
      rw [Readme.fetch, Readme.fetch, hquery (by simp [openPosts]), hquery (by simp [openPosts]),
        hquery (by simp [openPosts]), hquery (by simp [openPosts]), hquery (by simp [openPosts])]
    simp only [openHandle, Readme.deps, hfetch]
  | streamAll =>
    obtain ⟨hstream, hkey⟩ := spawn_agree (d := Readme.deps hasher f) h
    simp only [openHandle, hstream]
    by_cases henabled : fs.tailCfg.enabled = true
    · simp only [if_pos henabled, hkey henabled]
    · simp only [if_neg henabled]
  | streamPartition part =>
    obtain ⟨hstream, hkey⟩ := spawn_agree (d := Readme.deps hasher f) h
    simp only [openHandle, hstream]
    by_cases henabled : fs.tailCfg.enabled = true
    · simp only [if_pos henabled, hkey henabled]
    · simp only [if_neg henabled]

theorem open_agree {ino : UInt64} {flags : Int32}
    (h : Agree ((Op.open ino flags).posts fs env.now) env env') :
    fs.open (Readme.deps hasher f) env' ino flags = fs.open (Readme.deps hasher f) env ino flags := by
  unfold «open» pathOf InodeTable.lookup
  by_cases hflags : flags &&& oAccmode = 0
  · simp only [hflags, ne_eq, not_true, if_false]
    cases hpath : fs.inodes.forward ino with
    | none => rfl
    | some path =>
      simp only
      cases hplan : resolve path with
      | error e => rfl
      | ok plan =>
        have hposts : (Op.open ino flags).posts fs env.now = fs.openPosts plan := by
          simp only [Op.posts, hpath, hplan, if_pos hflags]
        rw [hposts] at h
        have hhandle : ({ fs with fhCounter := fs.fhCounter + 1 } : Fs).openHandle
              (Readme.deps hasher f) env' plan
            = ({ fs with fhCounter := fs.fhCounter + 1 } : Fs).openHandle
              (Readme.deps hasher f) env plan := openHandle_agree h
        simp only [hhandle]
  · simp only [hflags, ne_eq, not_false_eq_true, if_true]

/-- **The server counts by what is asked of it.** What it would answer to anything else is in no
    reply and in no state. -/
theorem serve_agree (ho : OneTtl fs) {op : Op} (h : Agree (op.posts fs env.now) env env') :
    fs.serve (Readme.deps hasher f) env' op = fs.serve (Readme.deps hasher f) env op := by
  cases op with
  | lookup parent name => exact lookup_agree ho h
  | readdir ino offset room => exact readdir_agree ho h
  | «open» ino flags => exact congrArg some (open_agree h)
  | getattr | read | release => rfl

/-- One is as good as the other: the same request, with a server that answers alike what is posted
    for it, or the same steps in the background. -/
def Action.AsGood (fs : Fs) : Action → Action → Prop
  | .request env op, .request env' op' => op' = op ∧ Agree (op.posts fs env.now) env env'
  | .background fh sched, .background fh' sched' => fh' = fh ∧ sched' = sched
  | _, _ => False

/-- **Two servers that answer alike what is posted cannot be told apart.** In whatever order
    the requests come, whatever else the servers hold and whatever else they would answer:
    the replies are the same, and so is the state they leave. -/
theorem same_answers {uid gid : UInt32} {startTime : Nat} {tailCfg : TailConfig}
    {acts acts' : List Action} {tr : List Event}
    (hrun : (sys (Readme.deps hasher f)).Exec (.new uid gid startTime tailCfg) acts tr fs')
    (hmatch : (sys (Readme.deps hasher f)).Matched Action.AsGood (.new uid gid startTime tailCfg)
      acts acts') :
    ∃ tr', (sys (Readme.deps hasher f)).Exec (.new uid gid startTime tailCfg) acts' tr' fs' ∧
      (tr'.map fun ev => (ev.op, ev.reply)) = tr.map fun ev => (ev.op, ev.reply) := by
  refine hrun.matched (I := OneTtl) ?_ (.new ..) hmatch
  intro fs a b fs₁ evs ho hgood hstep
  refine ⟨exec_oneTtl (.one hstep) ho, ?_⟩
  cases a with
  | request env op =>
    cases b with
    | background => exact hgood.elim
    | request env' op' =>
      obtain ⟨rfl, hagree⟩ := hgood
      obtain ⟨reply, hserve, rfl⟩ := step_request hstep
      have hserve' : fs.serve (Readme.deps hasher f) env' op' = some (reply, fs₁) :=
        (serve_agree ho hagree).trans hserve
      exact ⟨_, step_of_serve hserve', rfl⟩
  | background fh sched =>
    cases b with
    | request => exact hgood.elim
    | background fh' sched' =>
      obtain ⟨rfl, rfl⟩ := hgood
      exact ⟨evs, hstep, rfl⟩

end Open

namespace Sample

def formats : Readme.Formats :=
  { fromStr := fun _ => none, scaled := fun _ => "", quotient := fun _ _ => "" }

def withReadme : Deps := Readme.deps (fun _ => 0) formats

/-- A server that has the databases and nothing else. -/
def bare : Env :=
  { server with
    query := fun sql => if sql = sqlListDatabases then query sql else .error .auth }

/-- A program lists the root and then "/db". -/
def browse (env : Env) : List Action :=
  [.request env (.readdir 1 0 8), .request env (.readdir 100 0 8)]

end Sample

theorem same_answers_bare : ∃ tr tr' fs',
    (sys Sample.withReadme).Exec Sample.mount (Sample.browse Sample.server) tr fs' ∧
    (sys Sample.withReadme).Exec Sample.mount (Sample.browse Sample.bare) tr' fs' ∧
    (tr'.map fun ev => (ev.op, ev.reply)) = tr.map fun ev => (ev.op, ev.reply) := by
  have hrun : (sys Sample.withReadme).Exec Sample.mount (Sample.browse Sample.server) _ _ :=
    Lts.exec_of_isSome (by decide +kernel)
  have hagree (posts : List Statement)
      (hposts : ∀ st ∈ posts, st = .text sqlListDatabases) :
      Agree posts Sample.server Sample.bare := by
    refine ⟨rfl, rfl, fun sql hmem => ?_, fun sql hmem => rfl⟩
    cases hposts _ hmem
    rfl
  have hmatch : (sys Sample.withReadme).Matched Action.AsGood Sample.mount
      (Sample.browse Sample.server) (Sample.browse Sample.bare) := by
    refine ⟨⟨rfl, hagree _ (by decide +kernel)⟩, fun fs₁ evs hstep => ?_⟩
    have hfirst : (sys Sample.withReadme).step Sample.mount (.request Sample.server (.readdir 1 0 8))
        = some ((sys Sample.withReadme).final Sample.mount [.request Sample.server (.readdir 1 0 8)],
          evs) := by
      have hone := (Lts.Exec.one hstep).run
      rw [Lts.final, hone]
      exact hstep
    cases hstep.symm.trans hfirst
    exact ⟨⟨rfl, hagree _ (by decide +kernel)⟩, fun _ _ _ => trivial⟩
  obtain ⟨tr', hrun', hsame⟩ := same_answers hrun hmatch
  exact ⟨_, tr', _, hrun, hrun', hsame⟩

end Fs

end ClickFs
