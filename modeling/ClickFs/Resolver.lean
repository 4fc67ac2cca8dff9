import ClickFs.Error
import ClickFs.Lib.Str
import ClickFs.Path

/-!
# `resolver.rs` — from a path to what it stands for

Strictly syntactic: identifier validation only, so a path can be resolved without asking
the server, and a path that resolves need not exist. A path is accepted by its components,
and `resolve_ok` lists the accepted ones: each with its plan, and each plan with the one
path it has.

Everything downstream works with that list (`Resolved`) and not with `resolve`. It also
comes one component at a time (`Child`), because that is how the kernel asks: it looks a
name up in a directory it already has.
-/

set_option autoImplicit false

namespace ClickFs

open Rust

inductive PlanKind
  /-- "/" -/
  | root
  /-- "/db" -/
  | dbNamespace
  /-- "/db/<db>" -/
  | listTables
  /-- "/db/<db>/<tbl>" -/
  | listPartitions
  /-- "/db/<db>/<tbl>/.schema" -/
  | describeTable
  /-- "/db/<db>/<tbl>/README.md" -/
  | readme
  /-- "/db/<db>/<tbl>/all.tsv" -/
  | streamAll
  /-- "/db/<db>/<tbl>/<partition>.tsv" -/
  | streamPartition (part : String)
deriving DecidableEq, Repr

structure QueryPlan where
  kind : PlanKind
  db : Option String
  table : Option String
deriving DecidableEq, Repr

namespace QueryPlan

def isDir (plan : QueryPlan) : Bool :=
  match plan.kind with
  | .root | .dbNamespace | .listTables | .listPartitions => true
  | _ => false

def isSpecialFile (plan : QueryPlan) : Bool :=
  match plan.kind with
  | .describeTable | .readme => true
  | _ => false

end QueryPlan

/-- Validate a ClickHouse identifier (partition_id-as-filename). The length is counted in bytes,
    the class in characters. -/
def validIdentifier (s : String) : Bool :=
  !s.isEmpty && decide (s.utf8ByteSize ≤ 192)
    && s.toList.all fun c => c.isAlphanum || c == '_' || c == '-' || c == '.'

def validDbOrTable (s : String) : Bool :=
  !s.isEmpty && decide (s.utf8ByteSize ≤ 192) && !(s.toList.head? == some '.')
    && s.toList.all fun c => c.isAlphanum || c == '_'

/-- The leaf of "/db/<db>/<tbl>/<leaf>". The three fixed names come first, so `all.tsv` is never a
    partition's. -/
def resolveLeaf (db tbl leaf : String) : Except ClickFsError QueryPlan :=
  match leaf with
  | ".schema" => .ok ⟨.describeTable, some db, some tbl⟩
  | "README.md" => .ok ⟨.readme, some db, some tbl⟩
  | "all.tsv" => .ok ⟨.streamAll, some db, some tbl⟩
  | name =>
    match stripSuffix name ".tsv" with
    | some part =>
      if validIdentifier part then .ok ⟨.streamPartition part, some db, some tbl⟩
      else .error (.invalidIdentifier part)
    | none => .error .notFound

/-- `Component::Normal(s)` -/
def Component.name : Component → Option String
  | .normal s => some s
  | .parentDir => none

def resolve (path : PathBuf) : Except ClickFsError QueryPlan :=
  -- Reject if any component contained "..":
  if path.comps.any (· == .parentDir) then .error .notFound
  else
    match path.comps.filterMap Component.name with
    | [] => .ok ⟨.root, none, none⟩
    | ["db"] => .ok ⟨.dbNamespace, none, none⟩
    | ["db", db] =>
      if validDbOrTable db then .ok ⟨.listTables, some db, none⟩
      else .error (.invalidIdentifier db)
    | ["db", db, tbl] =>
      if validDbOrTable db && validDbOrTable tbl then .ok ⟨.listPartitions, some db, some tbl⟩
      else .error (.invalidIdentifier (db ++ "." ++ tbl))
    | ["db", db, tbl, leaf] =>
      if validDbOrTable db && validDbOrTable tbl then resolveLeaf db tbl leaf
      else .error (.invalidIdentifier (db ++ "." ++ tbl))
    | _ => .error .notFound

/-! ## Accepted identifiers are names -/

theorem isName_of_validDbOrTable {s : String} (h : validDbOrTable s = true) : PathBuf.IsName s := by
  simp only [validDbOrTable, Bool.and_eq_true, Bool.not_eq_true', List.all_eq_true] at h
  obtain ⟨⟨⟨hnil, -⟩, hdot⟩, hchars⟩ := h
  constructor
  · intro hslash
    have := hchars _ hslash
    revert this
    decide
  · intro hs
    subst hs
    cases hnil
  · intro hs
    subst hs
    cases hdot
  · intro hs
    subst hs
    cases hdot

theorem validIdentifier_of_validDbOrTable {s : String} (h : validDbOrTable s = true) :
    validIdentifier s = true := by
  simp only [validDbOrTable, Bool.and_eq_true, List.all_eq_true] at h
  obtain ⟨⟨hsize, -⟩, hchars⟩ := h
  simp only [validIdentifier, Bool.and_eq_true, List.all_eq_true]
  refine ⟨hsize, fun c hc => ?_⟩
  have hchar := hchars c hc
  simp only [Bool.or_eq_true] at hchar ⊢
  exact .inl (.inl hchar)

theorem noSlash_of_validIdentifier {s : String} (h : validIdentifier s = true) :
    '/' ∉ s.toList := by
  simp only [validIdentifier, Bool.and_eq_true, List.all_eq_true] at h
  intro hslash
  have := h.2 _ hslash
  revert this
  decide

/-- A partition's file name is a name when the partition has no slash. -/
theorem isName_tsv {part : String} (h : '/' ∉ part.toList) : PathBuf.IsName (part ++ ".tsv") := by
  have hstrip : stripSuffix (part ++ ".tsv") ".tsv" = some part := stripSuffix_append part ".tsv"
  have hne {t : String} (ht : stripSuffix t ".tsv" = none) : part ++ ".tsv" ≠ t := by
    intro heq
    rw [heq, ht] at hstrip
    cases hstrip
  constructor
  · rw [String.toList_append, List.mem_append]
    intro hslash
    rcases hslash with hpart | htsv
    · exact h hpart
    · revert htsv
      decide
  · exact hne (by decide)
  · exact hne (by decide)
  · exact hne (by decide)

/-! ## What resolves -/

/-- The file names of a table directory, with what they stand for. -/
inductive Leaf : String → PlanKind → Prop
  | schema : Leaf ".schema" .describeTable
  | readme : Leaf "README.md" .readme
  | all : Leaf "all.tsv" .streamAll
  | partition {part : String} (hvalid : validIdentifier part = true) (hall : part ≠ "all") :
      Leaf (part ++ ".tsv") (.streamPartition part)

theorem Leaf.isName {name : String} {kind : PlanKind} (h : Leaf name kind) :
    PathBuf.IsName name := by
  cases h with
  | schema => exact ⟨by decide, by decide, by decide, by decide⟩
  | readme => exact ⟨by decide, by decide, by decide, by decide⟩
  | all => exact ⟨by decide, by decide, by decide, by decide⟩
  | partition hvalid _ => exact isName_tsv (noSlash_of_validIdentifier hvalid)

theorem Leaf.isFile {name : String} {kind : PlanKind} (h : Leaf name kind) (db tbl : Option String) :
    (QueryPlan.mk kind db tbl).isDir = false := by
  cases h <;> rfl

theorem resolveLeaf_ok {db tbl leaf : String} {plan : QueryPlan} :
    resolveLeaf db tbl leaf = .ok plan ↔
      ∃ kind, Leaf leaf kind ∧ plan = ⟨kind, some db, some tbl⟩ := by
  constructor
  · intro h
    unfold resolveLeaf at h
    split at h
    · cases h; exact ⟨_, .schema, rfl⟩
    · cases h; exact ⟨_, .readme, rfl⟩
    · cases h; exact ⟨_, .all, rfl⟩
    · rename_i hall
      split at h
      · rename_i part hpart
        split at h
        · rename_i hvalid
          cases h
          obtain rfl := stripSuffix_eq_some.mp hpart
          refine ⟨_, .partition hvalid ?_, rfl⟩
          intro hpart
          subst hpart
          exact hall rfl
        · cases h
      · cases h
  · intro ⟨kind, hleaf, hplan⟩
    subst hplan
    cases hleaf with
    | schema => rfl
    | readme => rfl
    | all => rfl
    | @partition part hvalid hall =>
      have hstrip {t : String} (h : part ++ ".tsv" = t) : stripSuffix t ".tsv" = some part :=
        h ▸ stripSuffix_append part ".tsv"
      unfold resolveLeaf
      split
      · rename_i h
        have hnone : stripSuffix ".schema" ".tsv" = none := by decide
        rw [hstrip h] at hnone
        cases hnone
      · rename_i h
        have hnone : stripSuffix "README.md" ".tsv" = none := by decide
        rw [hstrip h] at hnone
        cases hnone
      · rename_i h
        have hpart : some "all" = some part := hstrip h
        exact absurd (Option.some.inj hpart).symm hall
      · rw [stripSuffix_append]
        exact if_pos hvalid

theorem Leaf.unique {name : String} {kind kind' : PlanKind} (h : Leaf name kind)
    (h' : Leaf name kind') : kind = kind' := by
  have h : resolveLeaf "" "" name = .ok ⟨kind, some "", some ""⟩ := resolveLeaf_ok.mpr ⟨_, h, rfl⟩
  rw [resolveLeaf_ok.mpr ⟨_, h', rfl⟩] at h
  exact (congrArg QueryPlan.kind (Except.ok.inj h)).symm

/-- The accepted paths, with their plans. This is `resolve` read as a relation, one constructor to
    each of its cases that succeeds. -/
inductive Resolved : List Component → QueryPlan → Prop
  | root : Resolved [] ⟨.root, none, none⟩
  | dbNamespace : Resolved [.normal "db"] ⟨.dbNamespace, none, none⟩
  | listTables {db : String} (hdb : validDbOrTable db = true) :
      Resolved [.normal "db", .normal db] ⟨.listTables, some db, none⟩
  | listPartitions {db tbl : String} (hdb : validDbOrTable db = true)
      (htbl : validDbOrTable tbl = true) :
      Resolved [.normal "db", .normal db, .normal tbl] ⟨.listPartitions, some db, some tbl⟩
  | leaf {db tbl leaf : String} {kind : PlanKind} (hdb : validDbOrTable db = true)
      (htbl : validDbOrTable tbl = true) (hleaf : Leaf leaf kind) :
      Resolved [.normal "db", .normal db, .normal tbl, .normal leaf] ⟨kind, some db, some tbl⟩

/-- Without `..` the names are all there is to a path. -/
theorem comps_of_no_parentDir {comps : List Component}
    (h : ¬ comps.any (· == .parentDir) = true) :
    comps = (comps.filterMap Component.name).map .normal := by
  induction comps with
  | nil => rfl
  | cons c comps ih =>
    cases c with
    | parentDir => simp at h
    | normal s =>
      have hrest : ¬ comps.any (· == .parentDir) = true := by simpa using h
      show _ = Component.normal s :: _
      rw [← ih hrest]

theorem resolve_ok {path : PathBuf} {plan : QueryPlan} :
    resolve path = .ok plan ↔ Resolved path.comps plan := by
  constructor
  · intro h
    unfold resolve at h
    split at h
    · cases h
    · rename_i hparent
      rw [comps_of_no_parentDir hparent]
      split at h
      · rename_i hnames
        cases h
        rw [hnames]
        exact .root
      · rename_i hnames
        cases h
        rw [hnames]
        exact .dbNamespace
      · rename_i db hnames
        rw [hnames]
        split at h
        · rename_i hdb
          cases h
          exact .listTables hdb
        · cases h
      · rename_i db tbl hnames
        rw [hnames]
        split at h
        · rename_i hvalid
          cases h
          have hvalid := Bool.and_eq_true_iff.mp hvalid
          exact .listPartitions hvalid.1 hvalid.2
        · cases h
      · rename_i db tbl leaf hnames
        rw [hnames]
        split at h
        · rename_i hvalid
          have hvalid := Bool.and_eq_true_iff.mp hvalid
          obtain ⟨kind, hleaf, rfl⟩ := resolveLeaf_ok.mp h
          exact .leaf hvalid.1 hvalid.2 hleaf
        · cases h
      · cases h
  · intro h
    obtain ⟨comps⟩ := path
    cases h with
    | root => rfl
    | dbNamespace => rfl
    | listTables hdb => simp [resolve, Component.name, hdb]
    | listPartitions hdb htbl => simp [resolve, Component.name, hdb, htbl]
    | leaf hdb htbl hleaf =>
      simp [resolve, Component.name, hdb, htbl, resolveLeaf_ok.mpr ⟨_, hleaf, rfl⟩]

/-! ## One component more -/

/-- What a name in a directory stands for. The directory is given by its plan: where it came from
    makes no difference. -/
inductive Child : QueryPlan → String → QueryPlan → Prop
  | dbNamespace : Child ⟨.root, none, none⟩ "db" ⟨.dbNamespace, none, none⟩
  | database {db : String} (hdb : validDbOrTable db = true) :
      Child ⟨.dbNamespace, none, none⟩ db ⟨.listTables, some db, none⟩
  | table {db tbl : String} (htbl : validDbOrTable tbl = true) :
      Child ⟨.listTables, some db, none⟩ tbl ⟨.listPartitions, some db, some tbl⟩
  | file {db tbl name : String} {kind : PlanKind} (hleaf : Leaf name kind) :
      Child ⟨.listPartitions, some db, some tbl⟩ name ⟨kind, some db, some tbl⟩

/-- A path resolves component by component. This is what lets a statement about a name in a
    directory be one about a path. -/
theorem resolved_snoc {comps : List Component} {name : String} {plan : QueryPlan} :
    Resolved (comps ++ [.normal name]) plan ↔ ∃ dir, Resolved comps dir ∧ Child dir name plan := by
  constructor
  · intro h
    generalize hcs : comps ++ [.normal name] = cs at h
    have hcomps : comps = cs.dropLast := by rw [← hcs, List.dropLast_concat]
    have hname : some (Component.normal name) = cs.getLast? := by rw [← hcs, List.getLast?_concat]
    subst hcomps
    cases h with
    | root => cases hname
    | dbNamespace => cases hname; exact ⟨_, .root, .dbNamespace⟩
    | listTables hdb => cases hname; exact ⟨_, .dbNamespace, .database hdb⟩
    | listPartitions hdb htbl => cases hname; exact ⟨_, .listTables hdb, .table htbl⟩
    | leaf hdb htbl hleaf => cases hname; exact ⟨_, .listPartitions hdb htbl, .file hleaf⟩
  · intro ⟨dir, hdir, hchild⟩
    cases hchild with
    | dbNamespace => cases hdir with
      | root => exact .dbNamespace
    | database hdb => cases hdir with
      | dbNamespace => exact .listTables hdb
    | table htbl => cases hdir with
      | listTables hdb => exact .listPartitions hdb htbl
    | file hleaf => cases hdir with
      | listPartitions hdb htbl => exact .leaf hdb htbl hleaf
      | leaf _ _ hleaf => cases hleaf

theorem Child.isName {dir plan : QueryPlan} {name : String} (h : Child dir name plan) :
    PathBuf.IsName name := by
  cases h with
  | dbNamespace => exact ⟨by decide, by decide, by decide, by decide⟩
  | database hdb => exact isName_of_validDbOrTable hdb
  | table htbl => exact isName_of_validDbOrTable htbl
  | file hleaf => exact hleaf.isName

/-- A path has one plan, though two paths may be written differently and be the same components. -/
theorem Resolved.unique {comps : List Component} {plan plan' : QueryPlan} (h : Resolved comps plan)
    (h' : Resolved comps plan') : plan = plan' := by
  have h : resolve ⟨comps⟩ = .ok plan := resolve_ok.mpr h
  have h' : resolve ⟨comps⟩ = .ok plan' := resolve_ok.mpr h'
  rw [h] at h'
  exact Except.ok.inj h'

end ClickFs
