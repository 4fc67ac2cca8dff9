import ClickFs.Resolver

/-!
# The path grammar

The accepted paths as a grammar, with identifiers counted in characters, and the way back: a
plan is written as the path it stands for. `resolve` accepts exactly the grammar, and
rendering is its inverse on both sides, so a path and its plan say the same.

The source counts bytes and the grammar counts characters. For an identifier this is the
same, since its characters are one byte each; for any other name both refuse it, and the
order in which they would find out does not show.
-/

set_option autoImplicit false

namespace ClickFs

open Rust

/-! ## Identifiers -/

/-- `[class]{1,192}` -/
structure Ident (cls : Char → Bool) (s : String) : Prop where
  pos : 1 ≤ s.length
  le : s.length ≤ 192
  chars : ∀ c ∈ s.toList, cls c = true

/-- `[A-Za-z0-9_]` -/
def isNameChar (c : Char) : Bool := c.isAlphanum || c == '_'

/-- `[A-Za-z0-9_.-]` -/
def isPartitionChar (c : Char) : Bool := isNameChar c || c == '-' || c == '.'

theorem utf8Size_of_isPartitionChar {c : Char} (h : isPartitionChar c = true) : c.utf8Size = 1 := by
  rw [Char.utf8Size_eq_one_iff]
  delta isPartitionChar isNameChar Char.isAlphanum Char.isAlpha Char.isUpper Char.isLower
    Char.isDigit at h
  simp only [Bool.or_eq_true, Bool.and_eq_true, decide_eq_true_eq, beq_iff_eq] at h
  rcases h with ((((hupper | hlower) | hdigit) | rfl) | rfl) | rfl
  · exact UInt32.le_trans hupper.2 (by decide)
  · exact UInt32.le_trans hlower.2 (by decide)
  · exact UInt32.le_trans hdigit.2 (by decide)
  · decide
  · decide
  · decide

/-- A text of one-byte characters has as many bytes as characters. The bridge between the source's
    length check and the grammar's. -/
theorem utf8ByteSize_of_ascii {s : String} (h : ∀ c ∈ s.toList, c.utf8Size = 1) :
    s.utf8ByteSize = s.length := by
  rw [← String.length_toList, ← String.ofList_toList (s := s), String.toList_ofList]
  generalize s.toList = cs at h
  induction cs with
  | nil => rfl
  | cons c cs ih =>
    have hcons : String.ofList (c :: cs) = String.singleton c ++ String.ofList cs := by
      rw [← String.toList_inj]
      simp
    rw [hcons, String.utf8ByteSize_append, String.utf8ByteSize_singleton, h c List.mem_cons_self,
      ih fun x hx => h x (List.mem_cons_of_mem _ hx), List.length_cons, Nat.add_comm]

theorem ident_iff {cls : Char → Bool} (hcls : ∀ c, cls c = true → c.utf8Size = 1) {s : String} :
    Ident cls s ↔ s ≠ "" ∧ s.utf8ByteSize ≤ 192 ∧ ∀ c ∈ s.toList, cls c = true := by
  constructor
  · intro ⟨hpos, hle, hchars⟩
    refine ⟨?_, ?_, hchars⟩
    · intro hnil
      subst hnil
      cases hpos
    · rwa [utf8ByteSize_of_ascii fun c hc => hcls c (hchars c hc)]
  · intro ⟨hne, hle, hchars⟩
    rw [utf8ByteSize_of_ascii fun c hc => hcls c (hchars c hc)] at hle
    refine ⟨?_, hle, hchars⟩
    rw [Nat.one_le_iff_ne_zero]
    simpa using hne

theorem validIdentifier_iff {s : String} : validIdentifier s = true ↔ Ident isPartitionChar s := by
  rw [ident_iff fun c => utf8Size_of_isPartitionChar]
  simp [validIdentifier, isPartitionChar, isNameChar, and_assoc]

theorem validDbOrTable_iff {s : String} : validDbOrTable s = true ↔ Ident isNameChar s := by
  have hcls (c : Char) (h : isNameChar c = true) : c.utf8Size = 1 :=
    utf8Size_of_isPartitionChar (by simp [isPartitionChar, h])
  rw [ident_iff hcls]
  -- a name has no dot in it, so it does not begin with one
  have hdot (hchars : ∀ c ∈ s.toList, isNameChar c = true) : s.toList.head? ≠ some '.' := by
    intro hhead
    have hname := hchars '.' (List.mem_of_head? hhead)
    revert hname
    decide
  constructor
  · intro h
    simp only [validDbOrTable, Bool.and_eq_true, Bool.not_eq_true', decide_eq_true_eq,
      List.all_eq_true, String.isEmpty_eq_false_iff] at h
    exact ⟨h.1.1.1, h.1.1.2, h.2⟩
  · rintro ⟨hne, hle, hchars⟩
    have hdot := hdot hchars
    simp only [validDbOrTable, Bool.and_eq_true, Bool.not_eq_true', decide_eq_true_eq,
      List.all_eq_true, String.isEmpty_eq_false_iff, beq_eq_false_iff_ne]
    exact ⟨⟨⟨hne, hle⟩, hdot⟩, hchars⟩

/-! ## Paths and plans -/

/-- The files of a table. -/
inductive LeafName : String → PlanKind → Prop
  | schema : LeafName ".schema" .describeTable
  | readme : LeafName "README.md" .readme
  | all : LeafName "all.tsv" .streamAll
  | partition {part : String} (hpart : Ident isPartitionChar part) (hall : part ≠ "all") :
      LeafName (part ++ ".tsv") (.streamPartition part)

/-- The grammar of the paths under the mount, as it would be written in a manual. -/
inductive Accepted : List Component → Prop
  | root : Accepted []
  | db : Accepted [.normal "db"]
  | database {d : String} (hd : Ident isNameChar d) : Accepted [.normal "db", .normal d]
  | table {d t : String} (hd : Ident isNameChar d) (ht : Ident isNameChar t) :
      Accepted [.normal "db", .normal d, .normal t]
  | file {d t leaf : String} {kind : PlanKind} (hd : Ident isNameChar d) (ht : Ident isNameChar t)
      (hleaf : LeafName leaf kind) :
      Accepted [.normal "db", .normal d, .normal t, .normal leaf]

namespace QueryPlan

/-- The plans that stand for something: those whose fields are what the kind asks for. A
    `QueryPlan` as such may have a table and no database. -/
inductive Valid : QueryPlan → Prop
  | root : Valid ⟨.root, none, none⟩
  | dbNamespace : Valid ⟨.dbNamespace, none, none⟩
  | listTables {d : String} (hd : Ident isNameChar d) : Valid ⟨.listTables, some d, none⟩
  | listPartitions {d t : String} (hd : Ident isNameChar d) (ht : Ident isNameChar t) :
      Valid ⟨.listPartitions, some d, some t⟩
  | file {d t leaf : String} {kind : PlanKind} (hd : Ident isNameChar d) (ht : Ident isNameChar t)
      (hleaf : LeafName leaf kind) : Valid ⟨kind, some d, some t⟩

/-- The last component of a file. -/
def leafName : PlanKind → List Component
  | .describeTable => [.normal ".schema"]
  | .readme => [.normal "README.md"]
  | .streamAll => [.normal "all.tsv"]
  | .streamPartition part => [.normal (part ++ ".tsv")]
  | _ => []

/-- The components of the path the plan stands for. Nothing in the program does this; it is the
    way back that shows that resolving loses nothing. -/
def render (plan : QueryPlan) : List Component :=
  match plan.kind with
  | .root => []
  | kind => [.normal "db"] ++ (plan.db.map .normal).toList ++ (plan.table.map .normal).toList
      ++ leafName kind

end QueryPlan

theorem leaf_iff {name : String} {kind : PlanKind} : Leaf name kind ↔ LeafName name kind := by
  constructor
  · intro h
    cases h with
    | schema => exact .schema
    | readme => exact .readme
    | all => exact .all
    | partition hvalid hall => exact .partition (validIdentifier_iff.mp hvalid) hall
  · intro h
    cases h with
    | schema => exact .schema
    | readme => exact .readme
    | all => exact .all
    | partition hpart hall => exact .partition (validIdentifier_iff.mpr hpart) hall

/-- What resolves is in the grammar, has a valid plan, and is written by it. -/
theorem Resolved.sound {comps : List Component} {plan : QueryPlan} (h : Resolved comps plan) :
    Accepted comps ∧ plan.Valid ∧ plan.render = comps := by
  cases h with
  | root => exact ⟨.root, .root, rfl⟩
  | dbNamespace => exact ⟨.db, .dbNamespace, rfl⟩
  | listTables hdb =>
    have hdb := validDbOrTable_iff.mp hdb
    exact ⟨.database hdb, .listTables hdb, rfl⟩
  | listPartitions hdb htbl =>
    have hdb := validDbOrTable_iff.mp hdb
    have htbl := validDbOrTable_iff.mp htbl
    exact ⟨.table hdb htbl, .listPartitions hdb htbl, rfl⟩
  | leaf hdb htbl hleaf =>
    have hdb := validDbOrTable_iff.mp hdb
    have htbl := validDbOrTable_iff.mp htbl
    refine ⟨.file hdb htbl (leaf_iff.mp hleaf), .file hdb htbl (leaf_iff.mp hleaf), ?_⟩
    cases hleaf <;> rfl

theorem Accepted.resolved {comps : List Component} (h : Accepted comps) :
    ∃ plan, Resolved comps plan := by
  cases h with
  | root => exact ⟨_, .root⟩
  | db => exact ⟨_, .dbNamespace⟩
  | database hd => exact ⟨_, .listTables (validDbOrTable_iff.mpr hd)⟩
  | table hd ht =>
    exact ⟨_, .listPartitions (validDbOrTable_iff.mpr hd) (validDbOrTable_iff.mpr ht)⟩
  | file hd ht hleaf =>
    exact ⟨_, .leaf (validDbOrTable_iff.mpr hd) (validDbOrTable_iff.mpr ht) (leaf_iff.mpr hleaf)⟩

/-- A valid plan is that of the path it is written as. -/
theorem QueryPlan.Valid.resolved {plan : QueryPlan} (h : plan.Valid) :
    Resolved plan.render plan := by
  cases h with
  | root => exact .root
  | dbNamespace => exact .dbNamespace
  | listTables hd => exact .listTables (validDbOrTable_iff.mpr hd)
  | listPartitions hd ht =>
    exact .listPartitions (validDbOrTable_iff.mpr hd) (validDbOrTable_iff.mpr ht)
  | @file d t leaf kind hd ht hleaf =>
    have hres : Resolved [.normal "db", .normal d, .normal t, .normal leaf] ⟨kind, some d, some t⟩ :=
      .leaf (validDbOrTable_iff.mpr hd) (validDbOrTable_iff.mpr ht) (leaf_iff.mpr hleaf)
    rwa [hres.sound.2.2]

/-- **The resolver is its grammar.** A path resolves exactly when it is in the grammar; its
    plan renders back to it, so no other path has that plan; and every valid plan is
    reached by the path it renders to. -/
theorem resolver_grammar :
    (∀ path, (∃ plan, resolve path = .ok plan) ↔ Accepted path.comps) ∧
    (∀ path plan, resolve path = .ok plan → plan.render = path.comps) ∧
    (∀ path path' plan, resolve path = .ok plan → resolve path' = .ok plan → path = path') ∧
    ∀ plan : QueryPlan, plan.Valid → resolve ⟨plan.render⟩ = .ok plan := by
  have hrender (path : PathBuf) (plan : QueryPlan) (h : resolve path = .ok plan) :
      plan.render = path.comps := (resolve_ok.mp h).sound.2.2
  refine ⟨?_, hrender, ?_, ?_⟩
  · intro path
    constructor
    · intro ⟨plan, h⟩
      exact (resolve_ok.mp h).sound.1
    · intro h
      obtain ⟨plan, hres⟩ := h.resolved
      exact ⟨plan, resolve_ok.mpr hres⟩
  · intro path path' plan h h'
    have hcomps := (hrender path plan h).symm.trans (hrender path' plan h')
    obtain ⟨comps⟩ := path
    exact congrArg PathBuf.mk hcomps
  · intro plan h
    exact resolve_ok.mpr h.resolved

end ClickFs
