import ClickFs.Fs.Statements

/-!
# The texts there are

In every run each statement that is posted is one of the texts of `catalogue`, with
components of an accepted path in its holes, or the tail query of an open file. The path is
that of the step: of the inode the request is on, with the name behind it in a lookup, or
that of the file the read is from. A read comes long after its `open`, so the paths of the
open files are carried along the run (`AllOfFile`).

With the settings behind it the statement reads as just that (`posted_run`): it asks for
something, it is one statement, and it is asked under `readonly=2`. The tail query has a
text of the server's own in it, the table's key, and for it the same holds as far as the key
lets it: up to the key always, and to the end when the key closes what it opens and has no
semicolon.

The kills are not among these. They are not part of any request, and go out without the
settings; `Fs/Kill.lean` is about them.
-/

set_option autoImplicit false

namespace ClickFs

open Rust Driver Sql

namespace Driver

/-- The list of databases as a template. There is no hole in it, so no value of any kind gets into
    it. -/
def listDatabasesTemplate : Template Field :=
  [.text ("SELECT name FROM system.databases "
    ++ ("WHERE name NOT IN ('system','INFORMATION_SCHEMA','information_schema') "
    ++ "ORDER BY name FORMAT TabSeparated"))]

theorem render_listDatabases (value : Field → String) :
    sqlListDatabases = listDatabasesTemplate.render quoteAs value := by
  dsimp only [sqlListDatabases, listDatabasesTemplate, Template.render]
  simp only [String.append_assoc, String.append_empty]

theorem wellFormed_listDatabases : listDatabasesTemplate.wellFormed = true := by
  unfold listDatabasesTemplate Template.wellFormed lex
  repeat rw [String.toList_append]
  repeat rw [String.toList_ofList]
  decide +kernel

def Builder.listDatabases : Builder where
  build _ := sqlListDatabases
  template := listDatabasesTemplate
  render := render_listDatabases
  wellFormed := wellFormed_listDatabases

def Builder.count : Builder where
  build value := Readme.sqlCount (value .database) (value .table)
  template := [.text "SELECT count() FROM ", .hole .ident .database, .text ".",
    .hole .ident .table, .text " FORMAT TabSeparated"]
  render value := by
    dsimp only [Readme.sqlCount, Template.render, quoteAs]
    simp only [String.append_assoc, String.append_empty]
  wellFormed := by decide +kernel

def Builder.sample : Builder where
  build value := Readme.sqlSample (value .database) (value .table)
  template := [.text "SELECT * FROM ", .hole .ident .database, .text ".", .hole .ident .table,
    .text " LIMIT 5 FORMAT JSONEachRow"]
  render value := by
    dsimp only [Readme.sqlSample, Template.render, quoteAs]
    simp only [String.append_assoc, String.append_empty]
  wellFormed := by decide +kernel

/-- Every statement of a request but the tail query. -/
def catalogue : List Builder := .listDatabases :: .count :: .sample :: builders

/-- One statement, that asks for something: `SELECT` or `SHOW` first, and no semicolon after which
    another one could begin. -/
structure Reading (ts : List Token) : Prop where
  head : ts.head? = some (.word "SELECT") ∨ ts.head? = some (.word "SHOW")
  single : .sym ';' ∉ ts

/-- The template begins with one of the two words, has no semicolon, and leaves nothing open.
    Decidable, and checked of each text by evaluation. -/
def asks (T : Template Field) : Bool :=
  (match T with
    | .text s :: _ => "SELECT ".toList.isPrefixOf s.toList || "SHOW ".toList.isPrefixOf s.toList
    | _ => false)
    && T.all (fun p => match p with
      | .text s => !s.toList.contains ';'
      | .hole _ _ => true)
    && T.lastMode.endsAt ' '

theorem catalogue_asks {b : Builder} (h : b ∈ catalogue) : asks b.template = true := by
  simp only [catalogue, builders, List.mem_cons, List.not_mem_nil, or_false] at h
  -- with the texts as lists of characters, which the kernel is long in finding by itself
  rcases h with rfl | rfl | rfl | rfl | rfl | rfl | rfl | rfl | rfl | rfl | rfl <;>
    · unfold asks
      dsimp only [Builder.listDatabases, listDatabasesTemplate, Builder.count, Builder.sample,
        Builder.listTables, Builder.listPartitions, Builder.describe, Builder.streamAll, Builder.streamPartition,
        Builder.stats, Builder.tablePk, Builder.columns, List.all_cons, List.all_nil,
        Template.lastMode]
      repeat rw [String.toList_append]
      repeat rw [String.toList_ofList]
      decide +kernel

theorem not_mem_settings (h : HttpDriver) (streaming : Bool) :
    Token.sym ';' ∉ h.settings streaming := by
  obtain ⟨timeout, most, compression⟩ := h
  cases streaming <;> cases compression <;>
    simp [HttpDriver.settings, HttpDriver.setting]

/-- The word a text begins with is the first token of whatever it is part of. -/
theorem head?_of_isPrefixOf {w s rest : String} {ts : List Token} (hne : w ≠ "")
    (hword : w.toList.all isWord = true)
    (hstarts : (w ++ " ").toList.isPrefixOf s.toList = true) (hlex : lex (s ++ rest) = some ts) :
    ts.head? = some (.word w) := by
  obtain ⟨cs, hcs⟩ := List.isPrefixOf_iff_prefix.mp hstarts
  have htext : s ++ rest = w ++ (" " ++ (String.ofList cs ++ rest)) := by
    rw [← String.toList_inj]
    simp [← hcs]
  have hspace : ∀ c, (" " ++ (String.ofList cs ++ rest)).toList.head? = some c → isWord c = false := by
    intro c hc
    rw [String.toList_append] at hc
    cases hc
    decide
  rw [htext, lex_word hne (List.all_eq_true.mp hword) hspace] at hlex
  obtain ⟨us, -, rfl⟩ := Option.map_eq_some_iff.mp hlex
  rfl

theorem sym_mem_slots {T : Template Field} {c : Char} (h : .token (.sym c) ∈ T.slots) :
    ∃ s, .text s ∈ T ∧ c ∈ s.toList := by
  induction T with
  | nil => cases h
  | cons p T ih =>
    cases p with
    | text s =>
      rcases List.mem_append.mp h with hmem | hmem
      · obtain ⟨t, ht, heq⟩ := List.mem_map.mp hmem
        cases heq
        cases hlex : lex s with
        | none => simp [hlex] at ht
        | some ts =>
          rw [hlex, Option.getD_some] at ht
          exact ⟨s, List.mem_cons_self, sym_mem_lex hlex ht⟩
      · obtain ⟨s', hs', hc⟩ := ih hmem
        exact ⟨s', List.mem_cons_of_mem _ hs', hc⟩
    | hole q name =>
      rcases List.mem_cons.mp h with heq | hmem
      · cases heq
      · obtain ⟨s', hs', hc⟩ := ih hmem
        exact ⟨s', List.mem_cons_of_mem _ hs', hc⟩

/-- The values are in quotes, so punctuation that the texts do not have is not in what is read. -/
theorem sym_not_mem_fill {T : Template Field} {c : Char} (h : ∀ s, .text s ∈ T → c ∉ s.toList)
    (value : Field → String) : .sym c ∉ T.slots.map (Slot.fill value) := by
  intro hmem
  obtain ⟨slot, hslot, hfill⟩ := List.mem_map.mp hmem
  cases slot with
  | hole q name => cases hfill
  | token t =>
    obtain rfl : t = .sym c := hfill
    obtain ⟨s, hs, hc⟩ := sym_mem_slots hslot
    exact h s hs hc

/-- The values are in quotes, so no semicolon in them ends the statement. -/
theorem Builder.reading {b : Builder} (h : asks b.template = true) {value : Field → String}
    (hlex : lex (b.build value) = some (b.template.slots.map (Slot.fill value))) :
    Reading (b.template.slots.map (Slot.fill value)) := by
  unfold asks at h
  rw [Bool.and_eq_true, Bool.and_eq_true] at h
  obtain ⟨⟨hhead, hsingle⟩, -⟩ := h
  constructor
  · rw [b.render] at hlex
    generalize b.template = T at hhead hlex
    cases T with
    | nil => cases hhead
    | cons p rest =>
      cases p with
      | hole q name => cases hhead
      | text s =>
        rcases Bool.or_eq_true_iff.mp hhead with hstarts | hstarts
        · exact .inl (head?_of_isPrefixOf (by decide) (by decide) hstarts hlex)
        · exact .inr (head?_of_isPrefixOf (by decide) (by decide) hstarts hlex)
  · refine sym_not_mem_fill (fun s hs => ?_) value
    have hno := List.all_eq_true.mp hsingle _ hs
    simpa only [Bool.not_eq_true', List.contains_eq_mem, decide_eq_false_iff_not] using hno

theorem Reading.settings {ts : List Token} (h : Reading ts) (driver : HttpDriver)
    (streaming : Bool) : Reading (ts ++ driver.settings streaming) := by
  constructor
  · rcases h.head with hhead | hhead
    · exact .inl (by rw [List.head?_append, hhead]; rfl)
    · exact .inr (by rw [List.head?_append, hhead]; rfl)
  · rw [List.mem_append, not_or]
    exact ⟨h.single, not_mem_settings driver streaming⟩

/-- The values are components of an accepted path, each where it belongs. -/
def Builder.Takes (b : Builder) (value : Field → String) (path : PathBuf) : Prop :=
  ∃ plan, resolve path = .ok plan ∧
    ∀ q name, .hole q name ∈ b.template → fieldOf plan name = some (value name)

/-- The tail query is about the rows of the data file. -/
structure TailOf (plan : QueryPlan) (tail : Stream.TailContext) : Prop where
  db : plan.db = some tail.db
  table : plan.table = some tail.tbl
  partition : fieldOf plan .partition = tail.partition
  data : (dataQuery plan).isSome = true

/-- What the tail query is up to its key. -/
def tailTokens (tail : Stream.TailContext) : List Token :=
  (tailHead tail.partition).slots.map (Slot.fill (tailValue tail.db tail.tbl tail.partition))

/-- What comes behind the key of the tail query, as tokens. -/
def limitTokens (tail : Stream.TailContext) : List Token :=
  [.word "LIMIT", .word (toString tail.rows), .word "FORMAT", .word "TabSeparatedWithNames"]

/-- A key without a semicolon leaves the tail query one statement. -/
theorem reading_tail (tail : Stream.TailContext) {key : List Token} (hkey : .sym ';' ∉ key) :
    Reading (tailTokens tail ++ key ++ limitTokens tail) := by
  have hselect : lex "SELECT * FROM " = some [.word "SELECT", .sym '*', .word "FROM"] := by
    decide +kernel
  have hsingle : .sym ';' ∉ tailTokens tail := by
    refine sym_not_mem_fill (fun s hs => ?_) _
    cases hpart : tail.partition <;> simp [tailHead, hpart] at hs
    · rcases hs with rfl | rfl | rfl <;> decide
    · rcases hs with rfl | rfl | rfl | rfl <;> decide
  constructor
  · left
    simp [tailTokens, tailHead, Template.slots, hselect, Slot.fill]
  · simp [hsingle, hkey, limitTokens]

end Driver

namespace Fs

/-- A statement that is posted about a path: one of the catalogue with components of the path in
    it, or the tail query of the data file the path names. -/
inductive Posted (path : PathBuf) : Statement → Prop
  | built {b : Builder} {value : Field → String} (hb : b ∈ catalogue)
      (htakes : b.Takes value path) {sql : String} (hsql : sql = b.build value) (streaming : Bool) :
      Posted path ⟨sql, streaming⟩
  | tail {plan : QueryPlan} {tail : Stream.TailContext} (hplan : resolve path = .ok plan)
      (htail : TailOf plan tail) :
      Posted path (.text (sqlSelectTail tail.db tail.tbl tail.orderExpr tail.partition tail.rows))

variable {d : Deps} {fs fs' : Fs} {env : Env}

/-! ### Listings -/

/-- A listing's statement has the fields of the plan it is needed for. -/
def Source.Of (src : Source) (plan : QueryPlan) : Prop :=
  match src with
  | .databases => True
  | .tables db => plan.db = some db
  | .partitions db tbl => plan.db = some db ∧ plan.table = some tbl

theorem of_needs {comps : List Component} {plan : QueryPlan} (hres : Resolved comps plan)
    {src : Source} (h : plan.needs.map Prod.fst = some src) : Source.Of src plan := by
  cases hres with
  | root | dbNamespace => cases h
  | listTables | listPartitions =>
    cases h
    trivial
  | leaf _ _ hleaf => cases hleaf <;> cases h <;> first | rfl | exact ⟨rfl, rfl⟩

theorem of_holds {comps : List Component} {plan : QueryPlan} (hres : Resolved comps plan)
    {src : Source} (h : plan.holds = some src) : Source.Of src plan := by
  cases hres with
  | root => cases h
  | dbNamespace =>
    cases h
    trivial
  | listTables =>
    cases h
    rfl
  | listPartitions =>
    cases h
    exact ⟨rfl, rfl⟩
  | leaf _ _ hleaf => cases hleaf <;> cases h

theorem posted_source {path : PathBuf} {plan : QueryPlan} (hplan : resolve path = .ok plan)
    {src : Source} (h : Source.Of src plan) : Posted path (.text src.sql) := by
  cases src with
  | databases =>
    have htakes : Builder.listDatabases.Takes (fun _ => "") path := by
      refine ⟨plan, hplan, fun q name hmem => ?_⟩
      simp [Builder.listDatabases, listDatabasesTemplate] at hmem
    exact .built (by simp [catalogue]) htakes rfl false
  | tables db =>
    have htakes : Builder.listTables.Takes (fun _ => db) path := by
      refine ⟨plan, hplan, fun q name hmem => ?_⟩
      simp [Builder.listTables] at hmem
      rw [hmem.2]
      exact h
    exact .built (by simp [catalogue, builders]) htakes rfl false
  | partitions db tbl =>
    obtain ⟨hdb, htbl⟩ := h
    have htakes : Builder.listPartitions.Takes (tailValue db tbl none) path := by
      refine ⟨plan, hplan, fun q name hmem => ?_⟩
      simp [Builder.listPartitions] at hmem
      rcases hmem with ⟨-, rfl⟩ | ⟨-, rfl⟩
      · exact hdb
      · exact htbl
    exact .built (by simp [catalogue, builders]) htakes rfl false

/-! ### Files -/

theorem posted_file (b : Builder) (part : String) {path : PathBuf} {plan : QueryPlan}
    (hplan : resolve path = .ok plan) {db tbl : String} (hdb : plan.db = some db)
    (htbl : plan.table = some tbl) (hb : b ∈ catalogue)
    (hpart : ∀ q, .hole q .partition ∈ b.template → fieldOf plan .partition = some part)
    {sql : String} (hsql : sql = b.build (tailValue db tbl (some part))) (streaming : Bool) :
    Posted path ⟨sql, streaming⟩ := by
  refine .built hb ⟨plan, hplan, fun q name hmem => ?_⟩ hsql streaming
  cases name with
  | database => exact hdb
  | table => exact htbl
  | partition => exact hpart q hmem

theorem posted_open {path : PathBuf} {plan : QueryPlan} (hplan : resolve path = .ok plan)
    {st : Statement} (h : st ∈ fs.openPosts plan) : Posted path st := by
  have hkey {db tbl : String} (hdb : plan.db = some db) (htbl : plan.table = some tbl) :
      Posted path (.text (sqlTablePk db tbl)) :=
    posted_file .tablePk "" hplan hdb htbl (by simp [catalogue, builders])
      (by simp [Builder.tablePk]) rfl false
  have hres := resolve_ok.mp hplan
  generalize path.comps = comps at hres
  cases hres with
  | root | dbNamespace | listTables | listPartitions => simp [openPosts] at h
  | leaf _ _ hleaf =>
    cases hleaf with
    | schema =>
      simp only [openPosts, Option.get!_some, List.mem_singleton] at h
      subst h
      exact posted_file .describe "" hplan rfl rfl (by simp [catalogue, builders])
        (by simp [Builder.describe]) rfl false
    | readme =>
      simp only [openPosts, Option.get!_some, List.mem_cons, List.not_mem_nil, or_false] at h
      rcases h with rfl | rfl | rfl | rfl | rfl
      · exact posted_file .describe "" hplan rfl rfl
          (by simp [catalogue, builders]) (by simp [Builder.describe]) rfl false
      · exact posted_file .stats "" hplan rfl rfl
          (by simp [catalogue, builders]) (by simp [Builder.stats]) rfl false
      · exact posted_file .columns "" hplan rfl rfl
          (by simp [catalogue, builders]) (by simp [Builder.columns]) rfl false
      · exact posted_file .count "" hplan rfl rfl
          (by simp [catalogue]) (by simp [Builder.count]) rfl false
      · exact posted_file .sample "" hplan rfl rfl
          (by simp [catalogue]) (by simp [Builder.sample]) rfl false
    | all =>
      simp only [openPosts, Option.get!_some, List.mem_append, List.mem_singleton] at h
      rcases h with h | rfl
      · split at h
        · obtain rfl := List.mem_singleton.mp h
          exact hkey rfl rfl
        · simp at h
      · exact posted_file .streamAll "" hplan rfl rfl
          (by simp [catalogue, builders]) (by simp [Builder.streamAll]) rfl true
    | partition =>
      simp only [openPosts, Option.get!_some, List.mem_append, List.mem_singleton] at h
      rcases h with h | rfl
      · split at h
        · obtain rfl := List.mem_singleton.mp h
          exact hkey rfl rfl
        · simp at h
      · exact posted_file .streamPartition _ hplan rfl rfl (by simp [catalogue, builders])
          (fun _ _ => rfl) rfl true

/-! ### Open streams -/

/-- The path of the file that is open under the handle: that of the last `open` that returned the
    handle, since when it has not been released. -/
def OpenAs (log : List Event) (fh : UInt64) (path : PathBuf) : Prop :=
  ∃ log₁ ev log₂ ino flags, log = log₁ ++ ev :: log₂ ∧ ev.op = .open ino flags ∧ ev.Opens fh ∧
    ev.before.inodes.forward ino = some path ∧ ∀ ev' ∈ log₂, ¬ ev'.Opens fh ∧ ev'.op ≠ .release fh

theorem OpenAs.snoc {log evs : List Event} {fh : UInt64} {path : PathBuf} (h : OpenAs log fh path)
    (hkept : ∀ ev ∈ evs, ¬ ev.Opens fh ∧ ev.op ≠ .release fh) : OpenAs (log ++ evs) fh path := by
  obtain ⟨log₁, ev, log₂, ino, flags, rfl, hop, hopens, hpath, hlater⟩ := h
  refine ⟨log₁, ev, log₂ ++ evs, ino, flags, by simp, hop, hopens, hpath, fun ev' hev' => ?_⟩
  rcases List.mem_append.mp hev' with hev' | hev'
  · exact hlater ev' hev'
  · exact hkept ev' hev'

/-- The tail query an open file would post is about its own rows. -/
def OfFile (path : PathBuf) : FileHandle → Prop
  | .stream s => ∀ tail, s.tail = some tail → ∃ plan, resolve path = .ok plan ∧ TailOf plan tail
  | .special _ => True

theorem openHandle_ofFile {path : PathBuf} {plan : QueryPlan} (hplan : resolve path = .ok plan)
    {handle : FileHandle} (h : fs.openHandle d env plan = .ok handle) : OfFile path handle := by
  have hres := resolve_ok.mp hplan
  generalize path.comps = comps at hres
  cases hres with
  | root | dbNamespace | listTables | listPartitions => cases h
  | leaf _ _ hleaf =>
    cases hleaf with
    | schema =>
      simp only [openHandle] at h
      split at h <;> cases h
      trivial
    | readme =>
      cases h
      trivial
    | all | partition =>
      cases h
      intro tail htail
      simp only [Stream.Handle.spawn, Option.get!_some] at htail
      split at htail <;> cases htail
      exact ⟨_, hplan, rfl, rfl, rfl, rfl⟩

variable {path : PathBuf}

theorem OfFile.exec {s s' : Stream.Handle} {as : List Stream.Action} {tr : List Stream.Event}
    (h : OfFile path (.stream s)) (hrun : Stream.sys.Exec s as tr s') : OfFile path (.stream s') := by
  have hsame := (Stream.exec_tail_context hrun).1
  intro tail htail
  exact h tail (hsame.symm.trans htail)

theorem fileRead_ofFile {handle handle' : FileHandle} {offset : Int64} {size : UInt32}
    {sched : List Stream.Action} {reply : Reply} (h : OfFile path handle)
    (hread : fileRead offset size sched handle = some (reply, handle')) : OfFile path handle' := by
  cases handle with
  | special bytes =>
    cases hread
    trivial
  | stream s =>
    obtain ⟨⟨reply', s'⟩, hblocking, heq⟩ := Option.map_eq_some_iff.mp hread
    cases heq
    unfold readBlocking at hblocking
    split at hblocking
    · split at hblocking
      · cases hblocking
      · rename_i hrun
        split at hblocking <;> cases hblocking
        exact h.exec (Lts.exec_of_run hrun)
    · cases hblocking

theorem fileBackground_ofFile {handle handle' : FileHandle} {sched : List Stream.Action}
    (h : OfFile path handle) (hback : fileBackground sched handle = some handle') :
    OfFile path handle' := by
  cases handle with
  | special bytes => cases hback
  | stream s =>
    simp only [fileBackground] at hback
    split at hback
    · obtain ⟨⟨s', tr⟩, hrun, rfl⟩ := Option.map_eq_some_iff.mp hback
      exact h.exec (Lts.exec_of_run hrun)
    · cases hback

/-- Every open file is one that the log shows being opened, and posts about the path it was opened
    by. This is the invariant that carries the path from the `open` to a read much later. -/
def AllOfFile (fs : Fs) (log : List Event) : Prop :=
  ∀ fh handle, fs.handles fh = some handle → ∃ path, OpenAs log fh path ∧ OfFile path handle

/-- A step that leaves a file open, or moves it on, leaves it its path. -/
theorem AllOfFile.keep {log evs : List Event} (h : AllOfFile fs log) {fh : UInt64}
    {handle handle' : FileHandle} (hfh : fs.handles fh = some handle)
    (hof : ∀ path, OfFile path handle → OfFile path handle')
    (hkept : ∀ ev ∈ evs, ¬ ev.Opens fh ∧ ev.op ≠ .release fh) :
    ∃ path, OpenAs (log ++ evs) fh path ∧ OfFile path handle' := by
  obtain ⟨path, hopen, hpath⟩ := h fh handle hfh
  exact ⟨path, hopen.snoc hkept, hof path hpath⟩

theorem serve_allOfFile {log : List Event} (h : AllOfFile fs log) {op : Op} {reply : Reply}
    (hserve : fs.serve d env op = some (reply, fs')) :
    AllOfFile fs' (log ++ [⟨env, op, fs, reply, fs'⟩]) := by
  intro fh handle hhandle
  have hkeep {handle₀ : FileHandle} (hfh : fs.handles fh = some handle₀)
      (hof : ∀ path, OfFile path handle₀ → OfFile path handle)
      (hopens : ¬ Event.Opens ⟨env, op, fs, reply, fs'⟩ fh) (hop : op ≠ .release fh) :
      ∃ path, OpenAs (log ++ [⟨env, op, fs, reply, fs'⟩]) fh path ∧ OfFile path handle :=
    h.keep hfh hof (by simpa using ⟨hopens, hop⟩)
  cases serve_files hserve with
  | other hopen hon hhandles =>
    refine hkeep (hhandles ▸ hhandle) (fun _ hof => hof) (Event.not_opens hopen fh) ?_
    rintro rfl
    have hoff := hon fh
    simp [Op.isOn] at hoff
  | refused =>
    refine hkeep hhandle (fun _ hof => hof) ?_ (by simp)
    rintro ⟨-, flags, hreply⟩
    cases hreply
  | unknown => exact hkeep hhandle (fun _ hof => hof) (Event.not_opens rfl fh) (by simp)
  | @opened ino flags path plan handle₁ _ hpath hplan hopenHandle =>
    by_cases hfh : fh = fs.fhCounter
    · subst hfh
      simp only [Function.update_self] at hhandle
      cases hhandle
      exact ⟨path, ⟨log, _, [], ino, flags, rfl, rfl, ⟨rfl, _, rfl⟩, hpath, by simp⟩,
        openHandle_ofFile hplan hopenHandle⟩
    · simp only [Function.update_of_ne hfh] at hhandle
      refine hkeep hhandle (fun _ hof => hof) ?_ (by simp)
      -- the handle that is returned is the counter's
      rintro ⟨-, flags, hreply⟩
      cases hreply
      exact hfh rfl
  | @read f _ _ _ handle₀ handle₁ _ hf hread =>
    by_cases hfh : fh = f
    · subst hfh
      simp only [Function.update_self] at hhandle
      cases hhandle
      exact hkeep hf (fun _ hof => fileRead_ofFile hof hread) (Event.not_opens rfl fh) (by simp)
    · simp only [Function.update_of_ne hfh] at hhandle
      exact hkeep hhandle (fun _ hof => hof) (Event.not_opens rfl fh) (by simp)
  | @release f =>
    by_cases hfh : fh = f
    · subst hfh
      simp only [Function.update_self] at hhandle
      cases hhandle
    · simp only [Function.update_of_ne hfh] at hhandle
      exact hkeep hhandle (fun _ hof => hof) (Event.not_opens rfl fh)
        (fun hop => hfh (Op.release.inj hop).symm)

theorem step_allOfFile {log : List Event} (h : AllOfFile fs log) {a : Action} {evs : List Event}
    (hstep : (sys d).step fs a = some (fs', evs)) : AllOfFile fs' (log ++ evs) := by
  cases a with
  | request env op =>
    obtain ⟨reply, hserve, rfl⟩ := step_request hstep
    exact serve_allOfFile h hserve
  | background f sched =>
    obtain ⟨hback, rfl⟩ := step_background hstep
    rw [background_eq] at hback
    obtain ⟨handle₁, hbind, rfl⟩ := Option.map_eq_some_iff.mp hback
    obtain ⟨handle₀, hf, hbackground⟩ := Option.bind_eq_some_iff.mp hbind
    intro fh handle hhandle
    by_cases hfh : fh = f
    · subst hfh
      simp only [Function.update_self] at hhandle
      cases hhandle
      exact h.keep hf (fun _ hof => fileBackground_ofFile hof hbackground) (by simp)
    · simp only [Function.update_of_ne hfh] at hhandle
      exact h.keep hhandle (fun _ hof => hof) (by simp)

theorem AllOfFile.new (uid gid : UInt32) (startTime : Nat) (tailCfg : TailConfig) :
    AllOfFile (.new uid gid startTime tailCfg) [] := by
  intro fh handle hhandle
  cases hhandle

theorem posted_stream {handle : FileHandle} (h : OfFile path handle) {sched : List Stream.Action}
    {st : Statement} (hst : st ∈ streamPosts sched (some handle)) : Posted path st := by
  cases handle with
  | special bytes => simp [streamPosts] at hst
  | stream s =>
    obtain ⟨e, he, hpost⟩ := List.mem_filterMap.mp hst
    cases e with
    | read ev => cases hpost
    | materialize t tail =>
      cases hpost
      -- the trace is that of a run, or empty
      cases hrun : Stream.sys.run s sched with
      | none => simp [Lts.trace, hrun] at he
      | some out =>
        have hexec : Stream.sys.Exec s sched out.2 out.1 := Lts.exec_of_run hrun
        simp only [Lts.trace, hrun, Option.elim_some] at he
        have htail := (Stream.exec_tail_context hexec).2 _ he t tail rfl
        obtain ⟨plan, hplan, hof⟩ := h tail htail
        exact .tail hplan hof

/-! ### The path a step is about -/

/-- The path a step is about. For a request on an inode it is the path of the inode, with the name
    behind it in a lookup. A read, and what the task does between requests, is about the file that
    is open under the handle, and so about the path the file was opened by. -/
inductive About (log : List Event) (fs : Fs) : Action → PathBuf → Prop
  | lookup {env : Env} {parent : UInt64} {name : OsStr} {nameStr : String} {dir : PathBuf}
      (hdir : fs.inodes.forward parent = some dir) (hname : toStr name = some nameStr) :
      About log fs (.request env (.lookup parent name)) (dir.join nameStr)
  | readdir {env : Env} {ino : UInt64} {offset : Int64} {room : Nat} {path : PathBuf}
      (hpath : fs.inodes.forward ino = some path) :
      About log fs (.request env (.readdir ino offset room)) path
  | «open» {env : Env} {ino : UInt64} {flags : Int32} {path : PathBuf}
      (hpath : fs.inodes.forward ino = some path) : About log fs (.request env (.open ino flags)) path
  | read {env : Env} {fh : UInt64} {offset : Int64} {size : UInt32} {sched : List Stream.Action}
      {path : PathBuf} (hopen : OpenAs log fh path) :
      About log fs (.request env (.read fh offset size sched)) path
  | background {fh : UInt64} {sched : List Stream.Action} {path : PathBuf}
      (hopen : OpenAs log fh path) : About log fs (.background fh sched) path

theorem posts_posted {log : List Event} (h : AllOfFile fs log) {a : Action} {st : Statement}
    (hst : st ∈ a.posts fs) : ∃ path, About log fs a path ∧ Posted path st := by
  have hstream {fh : UInt64} {sched : List Stream.Action}
      (hmem : st ∈ streamPosts sched (fs.handles fh)) :
      ∃ path, OpenAs log fh path ∧ Posted path st := by
    cases hfh : fs.handles fh with
    | none => simp [hfh, streamPosts] at hmem
    | some handle =>
      obtain ⟨path, hopen, hof⟩ := h fh handle hfh
      rw [hfh] at hmem
      exact ⟨path, hopen, posted_stream hof hmem⟩
  cases a with
  | background fh sched =>
    obtain ⟨path, hopen, hposted⟩ := hstream hst
    exact ⟨path, .background hopen, hposted⟩
  | request env op =>
    have hlisting (hmem : st ∈ (((op.consults fs).filter fun src => !fs.isLive env.now src).map
        fun src => Statement.text src.sql).toList) :
        ∃ src, op.consults fs = some src ∧ st = .text src.sql := by
      obtain ⟨src, hsrc, rfl⟩ := Option.map_eq_some_iff.mp (Option.mem_toList.mp hmem)
      exact ⟨src, (Option.filter_eq_some_iff.mp hsrc).1, rfl⟩
    cases op with
    | lookup parent name =>
      obtain ⟨src, hsrc, rfl⟩ := hlisting hst
      simp only [Op.consults] at hsrc
      split at hsrc
      · rename_i hdir hname
        split at hsrc
        · rename_i hplan
          exact ⟨_, .lookup hdir hname, posted_source hplan (of_needs (resolve_ok.mp hplan) hsrc)⟩
        · cases hsrc
      · cases hsrc
    | readdir ino offset room =>
      obtain ⟨src, hsrc, rfl⟩ := hlisting hst
      simp only [Op.consults] at hsrc
      split at hsrc
      · rename_i hpath
        split at hsrc
        · rename_i hplan
          exact ⟨_, .readdir hpath, posted_source hplan (of_holds (resolve_ok.mp hplan) hsrc)⟩
        · cases hsrc
      · cases hsrc
    | «open» ino flags =>
      have hmem : st ∈ (Op.open ino flags).posts fs env.now := hst
      simp only [Op.posts] at hmem
      split at hmem
      · rename_i hpath
        split at hmem
        · rename_i hplan
          split at hmem
          · exact ⟨_, .open hpath, posted_open hplan hmem⟩
          · simp at hmem
        · simp at hmem
      · simp at hmem
    | read fh offset size sched =>
      obtain ⟨path, hopen, hposted⟩ := hstream hst
      exact ⟨path, .read hopen, hposted⟩
    | getattr ino => exact absurd hst List.not_mem_nil
    | release fh => exact absurd hst List.not_mem_nil

/-! ## How it reads -/

/-- In what comes from an accepted path there is no backslash. -/
theorem noBackslash_of_fieldOf {path : PathBuf} {plan : QueryPlan} (hplan : resolve path = .ok plan)
    (name : Field) {value : String} (h : fieldOf plan name = some value) : '\\' ∉ value.toList :=
  noBackslash_of_validIdentifier (fieldOf_at (resolve_ok.mp hplan) h).2

theorem lex_built (h : HttpDriver) {b : Builder} (hb : b ∈ catalogue) {value : Field → String}
    {path : PathBuf} (htakes : b.Takes value path) (streaming : Bool) :
    lex (h.appendSettings (b.build value) streaming)
        = some (b.template.slots.map (Slot.fill value) ++ h.settings streaming) ∧
      Reading (b.template.slots.map (Slot.fill value) ++ h.settings streaming) := by
  obtain ⟨plan, hplan, hvalue⟩ := htakes
  have hasks := catalogue_asks hb
  have hslash : ∀ name, .hole .ident name ∈ b.template → '\\' ∉ (value name).toList :=
    fun name hmem => noBackslash_of_fieldOf hplan name (hvalue .ident name hmem)
  refine ⟨b.lex_posted h (Bool.and_eq_true_iff.mp hasks).2 hslash streaming, ?_⟩
  exact (b.reading hasks (b.lex_build hslash)).settings h streaming

/-- How a statement that is posted about a path reads, with the settings of the mount behind it.
    One of the catalogue is read as its own tokens, with components of the path in quotes between
    them, and the settings. The tail query begins with the tokens that choose the table and the
    partition, whatever the server has called the key. If the key leaves nothing open it is read
    like the others, and if it has no semicolon either, as one statement. -/
inductive Wired (h : HttpDriver) (queryId : String) (path : PathBuf) : Statement → Prop
  | built {b : Builder} {value : Field → String} {streaming : Bool} (hb : b ∈ catalogue)
      (htakes : b.Takes value path)
      (hlex : lex (Statement.post h queryId ⟨b.build value, streaming⟩).body
        = some (b.template.slots.map (Slot.fill value) ++ h.settings streaming))
      (hreading : Reading (b.template.slots.map (Slot.fill value) ++ h.settings streaming)) :
      Wired h queryId path ⟨b.build value, streaming⟩
  | tail {plan : QueryPlan} {tail : Stream.TailContext} {sql : String}
      (hplan : resolve path = .ok plan) (htail : TailOf plan tail)
      (hsql : sql = sqlSelectTail tail.db tail.tbl tail.orderExpr tail.partition tail.rows)
      (hbegins : tailTokens tail
        <+: (run .start (Statement.post h queryId (.text sql)).body.toList).1)
      (hkey : ∀ key, lex (orderClause tail.orderExpr) = some key →
        (run .start (orderClause tail.orderExpr).toList).2.endsAt ' ' = true →
        lex (Statement.post h queryId (.text sql)).body
          = some (tailTokens tail ++ key ++ limitTokens tail ++ h.settings false) ∧
        (.sym ';' ∉ key →
          Reading (tailTokens tail ++ key ++ limitTokens tail ++ h.settings false))) :
      Wired h queryId path (.text sql)

/-- **What the mount asks.** In every run, whatever comes next: each statement that is posted is
    about the path the step is about. It is one of the catalogue, or the tail query of the data
    file, and reads as such in the request it goes out as, whatever the id of its stream.

    `posts` are the statements of the requests and of the open streams. The kills that follow a
    closed file have no settings, and are `Mount.kills_accounted`'s. -/
theorem posted_run (h : HttpDriver) (queryId : String) {uid gid : UInt32} {startTime : Nat}
    {tailCfg : TailConfig} {acts : List Action} {tr : List Event}
    (hrun : (sys d).Exec (.new uid gid startTime tailCfg) acts tr fs) (a : Action) :
    ∀ st ∈ a.posts fs, ∃ path, About tr fs a path ∧ Wired h queryId path st := by
  intro st hst
  have hfiles : AllOfFile fs tr :=
    hrun.logAlong (I := AllOfFile) (C := fun _ _ => True)
      (fun _ _ _ _ _ hI _ hstep => step_allOfFile hI hstep)
      (Lts.along_of_forall (fun _ _ _ => trivial) _) (AllOfFile.new uid gid startTime tailCfg)
  obtain ⟨path, habout, hposted⟩ := posts_posted hfiles hst
  refine ⟨path, habout, ?_⟩
  cases hposted with
  | built hb htakes hsql streaming =>
    subst hsql
    obtain ⟨hlex, hreading⟩ := lex_built h hb htakes streaming
    refine .built hb htakes ?_ hreading
    rw [Statement.body_post]
    exact hlex
  | @tail plan tail hplan htail =>
    have hdb := noBackslash_of_fieldOf hplan .database htail.db
    have htbl := noBackslash_of_fieldOf hplan .table htail.table
    refine .tail hplan htail rfl ?_ ?_
    · rw [Statement.body_post]
      exact tail_begins hdb htbl h tail.orderExpr tail.partition tail.rows
    · intro key hkey hends
      rw [Statement.body_post]
      exact ⟨lex_tail_posted hdb htbl h hkey hends tail.partition tail.rows,
        fun hsingle => (reading_tail tail hsingle).settings h false⟩

/-- The tables of a database are listed, about the path of the database. -/
theorem posted_run_tables : ∃ tr fs path,
    (sys Sample.deps).Exec Sample.mount (Sample.browse Sample.server) tr fs ∧
    (Action.request Sample.server (.readdir 101 0 8)).posts fs = [.text (sqlListTables "default")] ∧
    About tr fs (.request Sample.server (.readdir 101 0 8)) path ∧
    Wired ⟨60, 1073741824, true⟩ "clickfs-5f0c" path (.text (sqlListTables "default")) := by
  have hrun : (sys Sample.deps).Exec Sample.mount (Sample.browse Sample.server) _ _ :=
    Lts.exec_of_isSome (by decide +kernel)
  have hposts : (Action.request Sample.server (.readdir 101 0 8)).posts
      ((sys Sample.deps).final Sample.mount (Sample.browse Sample.server))
        = [.text (sqlListTables "default")] := by decide +kernel
  obtain ⟨path, habout, hwired⟩ := posted_run ⟨60, 1073741824, true⟩ "clickfs-5f0c" hrun
    (.request Sample.server (.readdir 101 0 8)) _ (by rw [hposts]; exact List.mem_cons_self)
  exact ⟨_, _, path, hrun, hposts, habout, hwired⟩

end Fs
end ClickFs
