import ClickFs.Fs.Contents
import ClickFs.Fs.Identity

/-!
# From the names to the bytes

A program that says `cat db/logs/events/all.tsv` has the kernel look up one name after the
other, open what it finds and read it to its end. Other programs use the mount meanwhile.
What it gets is the response to one query, and what the query says is the names
(`cat_names`): the inodes in between, the path they stand for, the plan and the quoting are
on the way there and leave no trace.

This is where the results of the layers meet. The walk is settled by the inode table, the
plan by the resolver's grammar, the text by the templates, the reply by the cursor; each of
them is used here through its own theorem, and none is opened up again.
-/

set_option autoImplicit false

namespace ClickFs

open Rust Driver Inode Sql

namespace Driver

/-- The file of a whole table, or of one of its partitions. -/
def dataFile : Option String → String
  | none => "all.tsv"
  | some part => part ++ ".tsv"

def dataKind : Option String → PlanKind
  | none => .streamAll
  | some part => .streamPartition part

/-- The query of that file. -/
def dataStatement (db tbl : String) : Option String → String
  | none => sqlStreamAll db tbl
  | some part => sqlStreamPartition db tbl part

theorem kind_of_tsv {part : String} {kind : PlanKind} (h : Leaf (part ++ ".tsv") kind)
    (hall : part ≠ "all") : kind = .streamPartition part := by
  have hstrip := stripSuffix_append part ".tsv"
  generalize part ++ ".tsv" = name at h hstrip
  cases h with
  | schema =>
    have hnone : stripSuffix ".schema" ".tsv" = none := by decide
    rw [hnone] at hstrip
    cases hstrip
  | readme =>
    have hnone : stripSuffix "README.md" ".tsv" = none := by decide
    rw [hnone] at hstrip
    cases hstrip
  | all =>
    have hsome : stripSuffix "all.tsv" ".tsv" = some "all" := stripSuffix_append "all" ".tsv"
    rw [hsome] at hstrip
    exact absurd (Option.some.inj hstrip).symm hall
  | partition =>
    rw [stripSuffix_append] at hstrip
    rw [Option.some.inj hstrip]

theorem kind_of_dataFile {part : Option String} {kind : PlanKind} (h : Leaf (dataFile part) kind)
    (hpart : part ≠ some "all") : kind = dataKind part := by
  cases part with
  | none => exact h.unique .all
  | some part => exact kind_of_tsv h fun hall => hpart (congrArg some hall)

theorem plan_of_names {db tbl : String} {part : Option String} {plan : QueryPlan}
    (h : Resolved (["db", db, tbl, dataFile part].map .normal) plan) (hpart : part ≠ some "all") :
    plan = ⟨dataKind part, some db, some tbl⟩ := by
  generalize hcomps : ["db", db, tbl, dataFile part].map Component.normal = comps at h
  cases h with
  | root | dbNamespace | listTables | listPartitions => simp at hcomps
  | @leaf _ _ name kind _ _ hleaf =>
    simp only [List.map_cons, List.map_nil, List.cons.injEq, Component.normal.injEq, true_and,
      and_true] at hcomps
    obtain ⟨rfl, rfl, hname⟩ := hcomps
    have hkind : kind = dataKind part := kind_of_dataFile (hname ▸ hleaf) hpart
    rw [hkind]

theorem dataQuery_of_names (db tbl : String) (part : Option String) :
    dataQuery ⟨dataKind part, some db, some tbl⟩ = some (dataStatement db tbl part) := by
  cases part <;> rfl

end Driver
namespace Fs

/-- The inode was reported for these names, one after the other from the root. It does not matter
    whether a lookup or a listing reported it, nor to whom. -/
inductive Walked (tr : List Event) : List String → UInt64 → Prop
  | root : Walked tr [] inoRoot
  | step {names : List String} {dir ino : UInt64} {name : String} {kind : FileType} {ev : Event}
      (h : Walked tr names dir) (hev : ev ∈ tr) (hname : PathBuf.IsName name)
      (hreports : Reports ev dir name ino kind) : Walked tr (names ++ [name]) ino

variable {d : Deps} {fs : Fs} {uid gid : UInt32} {startTime : Nat} {tailCfg : TailConfig}

/-- Whatever was asked in between, the inode stands for the path of these names. -/
theorem Walked.forward {acts : List Action} {tr : List Event}
    (hrun : (sys d).Exec (.new uid gid startTime tailCfg) acts tr fs) {names : List String}
    {ino : UInt64} (h : Walked tr names ino) :
    fs.inodes.forward ino = some ⟨names.map Component.normal⟩ := by
  have hagrees := new_agrees uid gid startTime tailCfg
  have hgrows := exec_grows hrun hagrees
  induction h with
  | root => exact hgrows.extend _ _ (new_root uid gid startTime tailCfg)
  | @step names dir ino name kind ev h hev hname hreports ih =>
    have hanswered := exec_answered hrun hagrees hev
    obtain ⟨path, hpath, hreverse⟩ := Reports.reverse hanswered hreports
    -- the directory still has the path it had when the name was reported
    have hsame := (hanswered.grows.extend _ _ hpath).symm.trans ih
    rw [Option.some.inj hsame] at hreverse
    rw [hgrows.agrees _ _ hreverse, PathBuf.join_of_isName hname, List.map_append]
    rfl

/-- **From the names to the bytes.** In any run of the mount, whatever else is asked of it:
    who walks the names of a data file from the root, opens what is there, and reads it front
        to back, reads the server's response to one query; and the query reads as a `SELECT` of
    that table, and partition, under the very names that were walked. As in `data_file_reads`
    the run has fewer opens than there are handles. -/
theorem cat_names {acts : List Action} {tr₁ tr₂ : List Event} {ev : Event}
    (hrun : (sys d).Exec (.new uid gid startTime tailCfg) acts (tr₁ ++ ev :: tr₂) fs)
    (hroom : 1 + acts.countP Action.isOpen < 2 ^ 64) {db tbl : String} {part : Option String}
    (hpart : part ≠ some "all") {ino fh : UInt64} {flags : Int32}
    (hwalked : Walked tr₁ ["db", db, tbl, dataFile part] ino) (hop : ev.op = .open ino flags)
    (hopens : ev.Opens fh) (hkept : ∀ ev' ∈ tr₂, ev'.op ≠ .release fh)
    (horder : InOrder 0 (tr₂.filterMap (Event.readOn fh))) :
    lex (dataStatement db tbl part)
      = some (dataTokens ⟨dataKind part, some db, some tbl⟩ db tbl) ∧
    ReadsAs (ev.env.stream (dataStatement db tbl part)) (tr₂.filterMap (Event.readOn fh)) := by
  obtain ⟨acts₁, acts₂, -, hbefore, hserve, -⟩ := exec_cut hrun rfl
  have hpath := hwalked.forward hbefore
  -- what is opened is the file the names stand for
  obtain ⟨plan, handle, hcreates⟩ := creates_of_opens hserve hopens
  obtain ⟨ino', flags', path', hop', -, hpath', hplan⟩ := hcreates.file
  rw [hop] at hop'
  cases hop'
  rw [hpath] at hpath'
  cases hpath'
  have hresolved := resolve_ok.mp hplan
  obtain rfl := plan_of_names hresolved hpart
  have hsql := dataQuery_of_names db tbl part
  obtain ⟨db', tbl', hdb, htbl, -, hlex⟩ := lex_dataQuery hresolved hsql
  cases hdb
  cases htbl
  obtain ⟨D', hreads⟩ := document_of_open hrun hroom rfl hop hopens hpath hplan hsql hkept
  exact ⟨hlex, (readsFrom_of_inOrder hreads rfl horder).readsAs⟩

/-! ### A run to try it on -/

/-- The inode a lookup of the name was answered with. -/
def Event.found (dir : UInt64) (name : String) (ev : Event) : Option UInt64 :=
  match ev.op, ev.reply with
  | .lookup parent nameStr, .entry _ attr _ =>
    if parent = dir ∧ toStr nameStr = some name then some attr.ino else none
  | _, _ => none

/-- The walk of the lookups in a run. -/
def follow (tr : List Event) : UInt64 → List String → Option UInt64
  | dir, [] => some dir
  | dir, name :: names => (tr.findSome? (Event.found dir name)).bind fun ino => follow tr ino names

theorem reports_of_found {ev : Event} {dir ino : UInt64} {name : String}
    (h : ev.found dir name = some ino) : ∃ kind, Reports ev dir name ino kind := by
  unfold Event.found at h
  split at h
  · rename_i parent nameStr ttl attr generation hop hreply
    split at h
    · rename_i hsame
      rw [toStr_eq_some] at hsame
      obtain ⟨rfl, rfl⟩ := hsame
      cases h
      exact ⟨attr.kind, .lookup hop hreply⟩
    · cases h
  · cases h

theorem Walked.follow {tr : List Event} {names : List String} {dir ino : UInt64}
    (h : Walked tr names dir) {more : List String} (hnames : ∀ name ∈ more, PathBuf.IsName name)
    (hfollow : Fs.follow tr dir more = some ino) : Walked tr (names ++ more) ino := by
  induction more generalizing names dir with
  | nil =>
    cases hfollow
    rwa [List.append_nil]
  | cons name more ih =>
    obtain ⟨next, hfound, hfollow⟩ := Option.bind_eq_some_iff.mp hfollow
    obtain ⟨ev, hev, hfound⟩ := List.exists_of_findSome?_eq_some hfound
    obtain ⟨kind, hreports⟩ := reports_of_found hfound
    have hone := h.step hev (hnames name List.mem_cons_self) hreports
    have hrest := ih hone (fun n hn => hnames n (List.mem_cons_of_mem _ hn)) hfollow
    rwa [List.append_assoc] at hrest

/-- The inode and the flags a request opened a file with, and the handle it got. -/
def Event.openedFile (ev : Event) : Option (UInt64 × Int32 × UInt64) :=
  match ev.op, ev.reply with
  | .open ino flags, .opened fh _ => some (ino, flags, fh)
  | _, _ => none

theorem opens_of_openedFile {ev : Event} {ino fh : UInt64} {flags : Int32}
    (h : ev.openedFile = some (ino, flags, fh)) : ev.op = .open ino flags ∧ ev.Opens fh := by
  unfold Event.openedFile at h
  split at h
  · rename_i hop hreply
    cases h
    exact ⟨hop, by rw [hop]; rfl, _, hreply⟩
  · cases h

namespace Sample

/-- The walk to "/db/default/events/all.tsv", the open, and the reads. -/
def catEvents : List Action :=
  [.request server (.lookup 1 "db".toUTF8), .request server (.readdir 100 0 8),
    .request server (.lookup 100 "default".toUTF8),
    .request server (.lookup 101 "events".toUTF8),
    .request server (.lookup 103 "all.tsv".toUTF8), .request sending (.open 104 0),
    .request server (.read 1 0 9 [.connect, .enterSelect, .next, .check 0, .serve 0, .send,
      .recv 0, .enterSelect, .next, .send, .recv 0, .enterSelect, .next, .recv 0, .finish 0]),
    .request server (.read 1 3 9 [.check 0, .serve 0, .finish 0])]

end Sample

theorem cat_names_events : ∃ tr₁ ev tr₂ fs,
    (sys Sample.deps).Exec Sample.mount Sample.catEvents (tr₁ ++ ev :: tr₂) fs ∧
    ReadsAs (ev.env.stream (dataStatement "default" "events" none))
      (tr₂.filterMap (Event.readOn 1)) := by
  let tr := (sys Sample.deps).trace Sample.mount Sample.catEvents
  have hrun : (sys Sample.deps).Exec Sample.mount Sample.catEvents tr _ :=
    Lts.exec_of_isSome (by decide +kernel)
  have hnames : ∀ name ∈ ["db", "default", "events", dataFile none], PathBuf.IsName name := by
    intro name hname
    simp only [List.mem_cons, List.not_mem_nil, or_false] at hname
    rcases hname with rfl | rfl | rfl | rfl <;>
      exact ⟨by decide, by decide, by decide, by decide⟩
  have hwalked : Walked (tr.take 5) ["db", "default", "events", dataFile none] 104 :=
    Walked.root.follow hnames (by decide +kernel)
  have hopened : tr[5]?.bind Event.openedFile = some (104, 0, 1) := by decide +kernel
  obtain ⟨ev, hev, hopened⟩ := Option.bind_eq_some_iff.mp hopened
  obtain ⟨hop, hopens⟩ := opens_of_openedFile hopened
  have hsplit : tr = tr.take 5 ++ ev :: tr.drop 6 := by
    obtain ⟨hlt, rfl⟩ := List.getElem?_eq_some_iff.mp hev
    rw [← List.drop_eq_getElem_cons hlt, List.take_append_drop]
  have hkept : ∀ ev ∈ tr.drop 6, ev.op ≠ .release 1 := by decide +kernel
  have horder : decide (InOrder 0 ((tr.drop 6).filterMap (Event.readOn 1))) = true := by
    decide +kernel
  have hroom : 1 + Sample.catEvents.countP Action.isOpen < 2 ^ 64 := by decide
  clear_value tr
  rw [hsplit] at hrun
  have hpart : (none : Option String) ≠ some "all" := by simp
  exact ⟨_, _, _, _, hrun, (cat_names hrun hroom hpart hwalked hop hopens hkept
    (of_decide_eq_true horder)).2⟩

end Fs
end ClickFs
