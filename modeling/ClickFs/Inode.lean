import ClickFs.Lib.Lts
import ClickFs.Lib.Probe
import ClickFs.Path

/-!
# `inode.rs` — the inode table

`allocate` is written twice. Once as the threads see it, where the accesses to the two
maps are the atomic steps and any number of calls interleave (`sys`); and once as one
caller sees it, from beginning to end (`InodeTable.allocate`), which is the machine run
by one thread alone (`exec_allocate`). A turn of the probe loop is one definition,
`InodeTable.probe`, used by both. The maps are `DashMap`s, and a step holds one shard's
lock, so between two steps of a call any other call may do its own.

The table is a linear-probing table whose entries are never changed, so `Probe.Skips`
says where a path can be: at the end of its chain. That is `Home`, and every thread
that is probing for the path is at its home so far. Two threads that race for one path
walk the same chain, and whoever comes second finds the path there; this is why the table
needs no lock over the two maps together.

The hash function is a parameter: nothing here depends on it. What the invariant does need
is that no probe steps past the top of the range (`NoWrap`), for there the chain of a path
is no longer an interval. `Inode/Reserved.lean` says what happens then.
-/

set_option autoImplicit false

namespace ClickFs

open Probe

def inoRoot : UInt64 := 1

structure InodeTable where
  forward : UInt64 → Option PathBuf
  reverse : PathBuf → Option UInt64
  /-- Counter for collision resolution: how far a probe that meets the root jumps. -/
  bump : UInt64

/-- Where a turn of the probe loop leaves it. -/
inductive Turn
  | goOn (ino : UInt64)
  | arrived (ino : UInt64)

namespace InodeTable

/-- The root is pinned. -/
def new : InodeTable :=
  { forward := Function.update (fun _ => none) inoRoot (some .root)
    reverse := Function.update (fun _ => none) .root (some inoRoot)
    bump := 0 }

def lookup (table : InodeTable) (ino : UInt64) : Option PathBuf := table.forward ino

/-- `self.reverse.insert` -/
def record (table : InodeTable) (path : PathBuf) (ino : UInt64) : InodeTable :=
  { table with reverse := Function.update table.reverse path (some ino) }

/-- One turn of the loop in `allocate`: the access to `forward` through the entry interface, and
    what is concluded from it. -/
def probe (table : InodeTable) (path : PathBuf) (ino : UInt64) : Turn × InodeTable :=
  -- Avoid clobbering the root.
  if ino = inoRoot then (.goOn (ino + (table.bump + 1)), { table with bump := table.bump + 1 })
  else
    match table.forward ino with
    | some held => if held = path then (.arrived ino, table) else (.goOn (ino + 1), table)
    | none =>
      (.arrived ino, { table with forward := Function.update table.forward ino (some path) })

/-- `InodeTable::hash`: never 0 or 1 -/
def hash (hasher : PathBuf → UInt64) (path : PathBuf) : UInt64 := hasher path ||| 2

/-- Where the probe begins: low values are reserved for the root and the files the program may
    add. -/
def start (hasher : PathBuf → UInt64) (path : PathBuf) : UInt64 := max (hash hasher path) 100

/-- The loop, for at most `fuel` turns. `none` stands for a probe that is still going on. -/
def allocateFrom (path : PathBuf) : Nat → InodeTable → UInt64 → Option (UInt64 × InodeTable)
  | 0, _, _ => none
  | fuel + 1, table, ino =>
    match table.probe path ino with
    | (.goOn ino, table) => allocateFrom path fuel table ino
    | (.arrived ino, table) => some (ino, table.record path ino)

/-- `InodeTable::allocate`, called by one thread. There are `2 ^ 64` slots to probe, so with that
    much fuel `none` means that the loop does not end. -/
def allocate (hasher : PathBuf → UInt64) (table : InodeTable) (path : PathBuf) :
    Option (UInt64 × InodeTable) :=
  match table.reverse path with
  | some existing => some (existing, table)
  | none => allocateFrom path (2 ^ 64) table (start hasher path)

end InodeTable

/-! ## Many threads -/

namespace Inode

abbrev Tid := Nat

/-- Where one thread is in `allocate`: between which two accesses to the maps. -/
inductive Thread
  | idle
  | looking (path : PathBuf)
  | probing (path : PathBuf) (ino : UInt64)
  /-- before `self.reverse.insert` -/
  | recording (path : PathBuf) (ino : UInt64)
deriving DecidableEq

structure State where
  table : InodeTable
  threads : Tid → Thread

def State.init : State := { table := .new, threads := fun _ => .idle }

def State.setThread (s : State) (t : Tid) (th : Thread) : State :=
  { s with threads := Function.update s.threads t th }

inductive Action
  | call (t : Tid) (path : PathBuf)
  | get (t : Tid)
  | probe (t : Tid)
  | record (t : Tid)
deriving DecidableEq

/-- A call that has returned. -/
structure Returned where
  thread : Tid
  path : PathBuf
  ino : UInt64
deriving DecidableEq

def step (hasher : PathBuf → UInt64) (s : State) : Action → Option (State × List Returned)
  | .call t path =>
    match s.threads t with
    | .idle => some (s.setThread t (.looking path), [])
    | _ => none
  | .get t =>
    match s.threads t with
    | .looking path =>
      match s.table.reverse path with
      | some existing => some (s.setThread t .idle, [⟨t, path, existing⟩])
      | none => some (s.setThread t (.probing path (InodeTable.start hasher path)), [])
    | _ => none
  | .probe t =>
    match s.threads t with
    | .probing path ino =>
      match s.table.probe path ino with
      | (.goOn ino, table) => some ({ s.setThread t (.probing path ino) with table }, [])
      | (.arrived ino, table) => some ({ s.setThread t (.recording path ino) with table }, [])
    | _ => none
  | .record t =>
    match s.threads t with
    | .recording path ino =>
      some ({ s.setThread t .idle with table := s.table.record path ino }, [⟨t, path, ino⟩])
    | _ => none

def sys (hasher : PathBuf → UInt64) : Lts State Action Returned := ⟨step hasher⟩

/-- No probe steps past `u64::MAX`. A condition on the state before the step: the slot at the top
    is not held by another path while a thread looks at it. -/
def NoWrap (s : State) (a : Action) : Prop :=
  ∀ t path ino held, a = .probe t → s.threads t = .probing path ino →
    s.table.forward ino = some held → held ≠ path → ino.toNat + 1 < 2 ^ 64

/-! ## Homes -/

/-- The slot is `path`'s own, or would be: it lies at the end of the path's chain, every slot from
    the hash up to it being held by another path. -/
structure Home (hasher : PathBuf → UInt64) (table : InodeTable) (path : PathBuf) (ino : UInt64) :
    Prop where
  reserved : 100 ≤ ino.toNat
  ne_root : path ≠ .root
  chain : Skips (· + 1) table.forward path (InodeTable.start hasher path) ino

theorem start_reserved (hasher : PathBuf → UInt64) (path : PathBuf) :
    100 ≤ (InodeTable.start hasher path).toNat := by
  show 100 ≤ (if InodeTable.hash hasher path ≤ 100 then 100 else InodeTable.hash hasher path).toNat
  split
  · decide
  · rename_i h
    rw [UInt64.le_iff_toNat_le] at h
    exact Nat.le_of_lt (Nat.lt_of_not_le h)

theorem ne_inoRoot_of_reserved {ino : UInt64} (h : 100 ≤ ino.toNat) : ino ≠ inoRoot := by
  rintro rfl
  exact absurd h (by decide)

theorem Home.start {hasher : PathBuf → UInt64} {table : InodeTable} {path : PathBuf}
    (h : path ≠ .root) : Home hasher table path (InodeTable.start hasher path) :=
  ⟨start_reserved hasher path, h, .here _⟩

theorem Home.mono {hasher : PathBuf → UInt64} {table table' : InodeTable} {path : PathBuf}
    {ino : UInt64} (h : Home hasher table path ino)
    (hext : Extends table.forward table'.forward) : Home hasher table' path ino :=
  ⟨h.reserved, h.ne_root, h.chain.mono hext⟩

/-- The next slot, after a collision. The one place where the top of the range matters. -/
theorem Home.next {hasher : PathBuf → UInt64} {table : InodeTable} {path held : PathBuf}
    {ino : UInt64} (h : Home hasher table path ino) (hheld : table.forward ino = some held)
    (hne : held ≠ path) (hwrap : ino.toNat + 1 < 2 ^ 64) : Home hasher table path (ino + 1) := by
  have hnext : (ino + 1).toNat = ino.toNat + 1 := by
    rw [UInt64.toNat_add, UInt64.toNat_one, Nat.mod_eq_of_lt hwrap]
  exact ⟨by have := h.reserved; omega, h.ne_root, h.chain.snoc hheld hne⟩

/-- What one turn of the probe loop does. Later proofs split on this and never unfold `probe`. -/
inductive ProbeCase (table : InodeTable) (path : PathBuf) (ino : UInt64) :
    Turn × InodeTable → Prop
  | atRoot (h : ino = inoRoot) :
      ProbeCase table path ino
        (.goOn (ino + (table.bump + 1)), { table with bump := table.bump + 1 })
  | collision {held : PathBuf} (hroot : ino ≠ inoRoot) (h : table.forward ino = some held)
      (hne : held ≠ path) : ProbeCase table path ino (.goOn (ino + 1), table)
  | found (h : table.forward ino = some path) : ProbeCase table path ino (.arrived ino, table)
  | vacant (h : table.forward ino = none) :
      ProbeCase table path ino
        (.arrived ino, { table with forward := Function.update table.forward ino (some path) })

theorem probe_cases (table : InodeTable) (path : PathBuf) (ino : UInt64) :
    ProbeCase table path ino (table.probe path ino) := by
  unfold InodeTable.probe
  by_cases h : ino = inoRoot
  · rw [if_pos h]
    exact .atRoot h
  · rw [if_neg h]
    cases hslot : table.forward ino with
    | none => exact .vacant hslot
    | some held =>
      by_cases hheld : held = path
      · rw [hheld] at hslot
        simp only [hheld, if_true]
        exact .found hslot
      · simp only [if_neg hheld]
        exact .collision h hslot hheld

/-! ## The invariant -/

/-- The table keeps its promises, whoever is working on it. `reverse` may lag behind `forward`,
    since the two are written in separate steps, but it never says anything else. -/
structure Sound (hasher : PathBuf → UInt64) (table : InodeTable) : Prop where
  root : table.forward inoRoot = some .root
  rootBack : table.reverse .root = some inoRoot
  placed : ∀ ino path, table.forward ino = some path →
    (ino = inoRoot ∧ path = .root) ∨ Home hasher table path ino
  back : ∀ path ino, table.reverse path = some ino → table.forward ino = some path

/-- A thread probes at the home of its path, and records what it has found there. Both stay true
    when other threads step, since entries are only ever added. -/
def Thread.Sound (hasher : PathBuf → UInt64) (table : InodeTable) : Thread → Prop
  | .probing path ino => Home hasher table path ino
  | .recording path ino => Home hasher table path ino ∧ table.forward ino = some path
  | _ => True

structure Inv (hasher : PathBuf → UInt64) (s : State) : Prop where
  table : Sound hasher s.table
  threads : ∀ t, (s.threads t).Sound hasher s.table

section

variable {hasher : PathBuf → UInt64} {table table' : InodeTable} {path : PathBuf} {ino : UInt64}

theorem Sound.new (hasher : PathBuf → UInt64) : Sound hasher .new where
  root := rfl
  rootBack := rfl
  placed := by
    intro ino path h
    by_cases hroot : ino = inoRoot
    · subst hroot
      simp only [InodeTable.new, Function.update_self] at h
      exact .inl ⟨rfl, (Option.some.inj h).symm⟩
    · simp only [InodeTable.new, Function.update_of_ne hroot] at h
      cases h
  back := by
    intro path ino h
    by_cases hroot : path = .root
    · subst hroot
      simp only [InodeTable.new, Function.update_self] at h
      rw [← Option.some.inj h]
      rfl
    · simp only [InodeTable.new, Function.update_of_ne hroot] at h
      cases h

/-- **No path is stored under two inodes.** Both would be the end of one chain. -/
theorem Sound.unique (h : Sound hasher table) {i j : UInt64} (hi : table.forward i = some path)
    (hj : table.forward j = some path) : i = j := by
  rcases h.placed i path hi with ⟨rfl, rfl⟩ | hhome
  · rcases h.placed j _ hj with ⟨rfl, _⟩ | hhome'
    · rfl
    · exact absurd rfl hhome'.ne_root
  · rcases h.placed j path hj with ⟨rfl, rfl⟩ | hhome'
    · exact absurd rfl hhome.ne_root
    · exact hhome.chain.unique hhome'.chain hi hj

/-- A path without a reverse entry is not the root. -/
theorem Sound.ne_root (h : Sound hasher table) (hnone : table.reverse path = none) :
    path ≠ .root := by
  rintro rfl
  rw [h.rootBack] at hnone
  cases hnone

/-- Filling the vacant slot at the end of the path's chain keeps the promises: no chain passes a
    vacant slot, so none is broken by an entry there. -/
theorem Sound.fill (h : Sound hasher table) (hhome : Home hasher table path ino)
    (hvacant : table.forward ino = none) :
    Sound hasher { table with forward := Function.update table.forward ino (some path) } ∧
      Extends table.forward (Function.update table.forward ino (some path)) := by
  have hext := extends_update hvacant path
  refine ⟨⟨hext _ _ h.root, h.rootBack, ?_, fun p i hp => hext _ _ (h.back p i hp)⟩, hext⟩
  intro i p hp
  by_cases hi : i = ino
  · subst hi
    simp only [Function.update_self, Option.some.injEq] at hp
    exact .inr (hp ▸ hhome.mono hext)
  · simp only [Function.update_of_ne hi] at hp
    exact (h.placed i p hp).imp_right fun hh => hh.mono hext

theorem Sound.record (h : Sound hasher table) (hne : path ≠ .root)
    (hslot : table.forward ino = some path) : Sound hasher (table.record path ino) := by
  refine ⟨h.root, ?_, fun i p hp => (h.placed i p hp).imp_right fun hh => hh.mono (.refl _), ?_⟩
  · simp only [InodeTable.record, Function.update_of_ne (Ne.symm hne)]
    exact h.rootBack
  · intro p i hp
    by_cases hpath : p = path
    · subst hpath
      simp only [InodeTable.record, Function.update_self, Option.some.injEq] at hp
      exact hp ▸ hslot
    · simp only [InodeTable.record, Function.update_of_ne hpath] at hp
      exact h.back p i hp

theorem Thread.Sound.mono {th : Thread} (h : th.Sound hasher table)
    (hext : Extends table.forward table'.forward) : th.Sound hasher table' := by
  cases th with
  | probing path ino => exact Home.mono h hext
  | recording path ino => exact ⟨Home.mono h.1 hext, hext _ _ h.2⟩
  | idle | looking => trivial

end

/-! ## What one step does -/

theorem State.forall_setThread {P : Thread → Prop} {s : State} {t : Tid} {th : Thread}
    (h : ∀ t', P (s.threads t')) (hth : P th) (t' : Tid) : P ((s.setThread t th).threads t') := by
  unfold State.setThread
  by_cases ht : t' = t
  · subst ht
    simpa only [Function.update_self] using hth
  · simpa only [Function.update_of_ne ht] using h t'

/-- Every way a step can go, with all that is known there. The invariant is proved by cases on it.
    -/
inductive Step (hasher : PathBuf → UInt64) (s : State) : Action → State → List Returned → Prop
  | call {t : Tid} {path : PathBuf} (h : s.threads t = .idle) :
      Step hasher s (.call t path) (s.setThread t (.looking path)) []
  | getHit {t : Tid} {path : PathBuf} {ino : UInt64} (h : s.threads t = .looking path)
      (hrev : s.table.reverse path = some ino) :
      Step hasher s (.get t) (s.setThread t .idle) [⟨t, path, ino⟩]
  | getMiss {t : Tid} {path : PathBuf} (h : s.threads t = .looking path)
      (hrev : s.table.reverse path = none) :
      Step hasher s (.get t) (s.setThread t (.probing path (InodeTable.start hasher path))) []
  | probeOn {t : Tid} {path : PathBuf} {ino ino' : UInt64} {table : InodeTable}
      (h : s.threads t = .probing path ino) (hprobe : s.table.probe path ino = (.goOn ino', table)) :
      Step hasher s (.probe t) { s.setThread t (.probing path ino') with table } []
  | probeEnd {t : Tid} {path : PathBuf} {ino ino' : UInt64} {table : InodeTable}
      (h : s.threads t = .probing path ino)
      (hprobe : s.table.probe path ino = (.arrived ino', table)) :
      Step hasher s (.probe t) { s.setThread t (.recording path ino') with table } []
  | record {t : Tid} {path : PathBuf} {ino : UInt64} (h : s.threads t = .recording path ino) :
      Step hasher s (.record t)
        { s.setThread t .idle with table := s.table.record path ino } [⟨t, path, ino⟩]

theorem step_cases {hasher : PathBuf → UInt64} {s s' : State} {a : Action} {evs : List Returned}
    (h : step hasher s a = some (s', evs)) : Step hasher s a s' evs := by
  cases a <;> simp only [step] at h
  case call t path =>
    split at h
    · rename_i hth
      cases h
      exact .call hth
    · cases h
  case get t =>
    split at h
    · rename_i hth
      split at h
      · rename_i hrev
        cases h
        exact .getHit hth hrev
      · rename_i hrev
        cases h
        exact .getMiss hth hrev
    · cases h
  case probe t =>
    split at h
    · rename_i hth
      split at h
      · rename_i hprobe
        cases h
        exact .probeOn hth hprobe
      · rename_i hprobe
        cases h
        exact .probeEnd hth hprobe
    · cases h
  case record t =>
    split at h
    · rename_i hth
      cases h
      exact .record hth
    · cases h

/-- **One step.** The invariant stays, entries stay, and a call returns the slot its path is in.
    The last two are what a run adds up. -/
theorem Inv.step {hasher : PathBuf → UInt64} {s s₁ : State} {a : Action} {evs : List Returned}
    (h : Inv hasher s) (hC : NoWrap s a) (hstep : step hasher s a = some (s₁, evs)) :
    Inv hasher s₁ ∧ Extends s.table.forward s₁.table.forward ∧
      ∀ e ∈ evs, s₁.table.forward e.ino = some e.path := by
  cases step_cases hstep with
  | call hth =>
    exact ⟨⟨h.table, State.forall_setThread h.threads trivial⟩, .refl _, by simp⟩
  | @getHit t path ino hth hrev =>
    have hback := h.table.back path ino hrev
    exact ⟨⟨h.table, State.forall_setThread h.threads trivial⟩, .refl _, fun e he =>
      List.mem_singleton.mp he ▸ hback⟩
  | @getMiss t path hth hrev =>
    have hhome : Home hasher s.table path _ := .start (h.table.ne_root hrev)
    exact ⟨⟨h.table, State.forall_setThread h.threads hhome⟩, .refl _, by simp⟩
  | @probeOn t path ino ino' table hth hprobe =>
    have hhome : Home hasher s.table path ino := by
      have := h.threads t
      rwa [hth] at this
    have hcase := probe_cases s.table path ino
    rw [hprobe] at hcase
    cases hcase with
    | atRoot hroot => exact absurd hroot (ne_inoRoot_of_reserved hhome.reserved)
    | collision _ hheld hne =>
      have hnext := hhome.next hheld hne (hC t path ino _ rfl hth hheld hne)
      exact ⟨⟨h.table, State.forall_setThread h.threads hnext⟩, .refl _, by simp⟩
  | @probeEnd t path ino ino' table hth hprobe =>
    have hhome : Home hasher s.table path ino := by
      have := h.threads t
      rwa [hth] at this
    have hcase := probe_cases s.table path ino
    rw [hprobe] at hcase
    cases hcase with
    | found hslot =>
      exact ⟨⟨h.table, State.forall_setThread h.threads ⟨hhome, hslot⟩⟩, .refl _, by simp⟩
    | vacant hslot =>
      obtain ⟨hsound, hext⟩ := h.table.fill hhome hslot
      have hthread : Thread.Sound hasher
          { s.table with forward := Function.update s.table.forward ino (some path) }
          (.recording path ino) := ⟨hhome.mono hext, Function.update_self ..⟩
      exact ⟨⟨hsound, State.forall_setThread (fun t' => (h.threads t').mono hext) hthread⟩, hext,
        by simp⟩
  | @record t path ino hth =>
    have hrec : Home hasher s.table path ino ∧ s.table.forward ino = some path := by
      have := h.threads t
      rwa [hth] at this
    have hsound := h.table.record hrec.1.ne_root hrec.2
    have hext : Extends s.table.forward (s.table.record path ino).forward := .refl _
    exact ⟨⟨hsound, State.forall_setThread (fun t' => (h.threads t').mono hext) trivial⟩, hext,
      fun e he => List.mem_singleton.mp he ▸ hrec.2⟩

/-! ## Runs -/

theorem Inv.init (hasher : PathBuf → UInt64) : Inv hasher .init :=
  ⟨.new hasher, fun _ => trivial⟩

theorem exec_extends {hasher : PathBuf → UInt64} {s s' : State} {as : List Action}
    {tr : List Returned} (h : (sys hasher).Exec s as tr s')
    (hC : (sys hasher).Along NoWrap s as) (hs : Inv hasher s) :
    Extends s.table.forward s'.table.forward :=
  (h.invariantAlong (I := fun s' => Inv hasher s' ∧ Extends s.table.forward s'.table.forward)
    (fun _ _ _ _ hI hC hstep => by
      obtain ⟨hinv, hext, -⟩ := hI.1.step hC hstep
      exact ⟨hinv, hI.2.trans hext⟩) hC ⟨hs, .refl _⟩).2

theorem returned_slot {hasher : PathBuf → UInt64} {s s' : State} {as : List Action}
    {tr : List Returned} (h : (sys hasher).Exec s as tr s')
    (hC : (sys hasher).Along NoWrap s as) (hs : Inv hasher s) :
    Inv hasher s' ∧ ∀ e ∈ tr, s'.table.forward e.ino = some e.path := by
  have hlog := h.logAlong
    (I := fun s log => Inv hasher s ∧ ∀ e ∈ log, s.table.forward e.ino = some e.path)
    (fun s a s₁ evs log hI hC hstep => by
      obtain ⟨hinv, hext, hevs⟩ := hI.1.step hC hstep
      refine ⟨hinv, fun e he => ?_⟩
      rcases List.mem_append.mp he with he | he
      · exact hext _ _ (hI.2 e he)
      · exact hevs e he)
    hC (⟨hs, fun _ he => nomatch he⟩ : Inv hasher s ∧ ∀ e ∈ [], _)
  exact hlog

/-- The promises of the inode table at the end of a run. The last two are about the numbers the
    callers hold, which outlive every change to the table. -/
structure Bijection (hasher : PathBuf → UInt64) (as : List Action) (tr : List Returned)
    (s : State) : Prop where
  root : s.table.lookup inoRoot = some .root
  /-- an entry, once present, is never changed or removed -/
  stable : ∀ as₁ as₂ tr₁ tr₂ s₁ i p, as = as₁ ++ as₂ → (sys hasher).Exec .init as₁ tr₁ s₁ →
    (sys hasher).Exec s₁ as₂ tr₂ s → s₁.table.lookup i = some p → s.table.lookup i = some p
  unique : ∀ i j p, s.table.lookup i = some p → s.table.lookup j = some p → i = j
  reverse : ∀ p i, s.table.reverse p = some i → s.table.lookup i = some p
  /-- whatever a call has returned is looked up to its path -/
  returned : ∀ e ∈ tr, s.table.lookup e.ino = some e.path
  /-- calls agree exactly when their paths do -/
  agree : ∀ e ∈ tr, ∀ e' ∈ tr, e.path = e'.path ↔ e.ino = e'.ino

/-- **The inode table is a stable bijection**, under every interleaving of any number of
    calls and for every hash function, as long as no probe steps past `u64::MAX`. -/
theorem bijection {hasher : PathBuf → UInt64} {as : List Action} {tr : List Returned} {s : State}
    (h : (sys hasher).Exec .init as tr s) (hC : (sys hasher).Along NoWrap .init as) :
    Bijection hasher as tr s := by
  obtain ⟨hinv, hret⟩ := returned_slot h hC (Inv.init hasher)
  refine ⟨hinv.table.root, ?_, fun i j p => hinv.table.unique, hinv.table.back, hret, ?_⟩
  · intro as₁ as₂ tr₁ tr₂ s₁ i p has h₁ h₂ hp
    subst has
    rw [Lts.Along.append h₁] at hC
    exact exec_extends h₂ hC.2 (returned_slot h₁ hC.1 (Inv.init hasher)).1 i p hp
  · intro e he e' he'
    have hslot := hret e he
    have hslot' := hret e' he'
    constructor
    · intro hpath
      rw [hpath] at hslot
      exact hinv.table.unique hslot hslot'
    · intro hino
      rw [hino, hslot'] at hslot
      exact (Option.some.inj hslot).symm

/-- A thread that probes has `n` steps to go before the top of the range. Each step of any thread
    uses up one of them at most. -/
def Thread.Clear (n : Nat) (th : Thread) : Prop :=
  ∀ p i, th = .probing p i → 100 ≤ i.toNat ∧ i.toNat + n < 2 ^ 64

/-- Hashes that stay clear of the top of the range by the length of the run never meet it,
    whatever the interleaving. -/
theorem noWrap_of_length {hasher : PathBuf → UInt64} : ∀ (as : List Action) (s : State),
    (∀ p, (InodeTable.start hasher p).toNat + as.length < 2 ^ 64) →
    (∀ t, (s.threads t).Clear as.length) → (sys hasher).Along NoWrap s as := by
  intro as
  induction as with
  | nil => intro s _ _; trivial
  | cons a as ih =>
    intro s hstart hs
    rw [List.length_cons] at hstart hs
    refine ⟨fun t path ino held _ hth _ _ => ?_, fun s₁ evs hstep => ?_⟩
    · have := (hs t path ino hth).2
      omega
    · have hweak (t : Tid) : (s.threads t).Clear as.length := fun p i hth => by
        have := hs t p i hth
        omega
      refine ih s₁ (fun p => by have := hstart p; omega) ?_
      cases step_cases hstep with
      | call | getHit | record => exact State.forall_setThread hweak (fun p i hth => by cases hth)
      | @getMiss t path _ _ =>
        refine State.forall_setThread hweak (fun p i hth => ?_)
        cases hth
        have := hstart path
        exact ⟨start_reserved hasher path, by omega⟩
      | probeEnd => exact State.forall_setThread hweak (fun p i hth => by cases hth)
      | @probeOn t path ino ino' table hth hprobe =>
        refine State.forall_setThread hweak (fun p i hth' => ?_)
        obtain ⟨hlow, htop⟩ := hs t path ino hth
        have hcase := probe_cases s.table path ino
        rw [hprobe] at hcase
        cases hcase with
        | atRoot hroot => exact absurd hroot (ne_inoRoot_of_reserved hlow)
        | collision =>
          cases hth'
          rw [UInt64.toNat_add, UInt64.toNat_one, Nat.mod_eq_of_lt (by omega)]
          omega

/-- Two threads race for one path and a third one collides with them. -/
def race : List Action :=
  [.call 0 (PathBuf.root.join "db"), .call 1 (PathBuf.root.join "db"), .get 0, .get 1,
    .call 2 (PathBuf.root.join "x"), .get 2, .probe 1, .probe 0, .probe 2, .record 0, .probe 2,
    .record 2, .record 1]

/-- The calls of the race return in this order: the two of "db" agree, and "x" has moved on. -/
def raceReturns : List Returned :=
  [⟨0, PathBuf.root.join "db", 100⟩, ⟨2, PathBuf.root.join "x", 101⟩,
    ⟨1, PathBuf.root.join "db", 100⟩]

theorem exec_race : ∃ s, (sys fun _ => 0).Exec .init race raceReturns s :=
  ⟨_, Lts.exec_of_run rfl⟩

/-- Thirteen steps from 100 do not come near the top. -/
theorem noWrap_race : (sys fun _ => 0).Along NoWrap .init race :=
  noWrap_of_length race .init
    (fun _ => (by decide : (max ((0 : UInt64) ||| 2) 100).toNat + 13 < 2 ^ 64))
    fun _ _ _ h => by cases h

theorem bijection_race : ∃ s, (sys fun _ => 0).Exec .init race raceReturns s ∧
    Bijection (fun _ => 0) race raceReturns s := by
  obtain ⟨s, hrun⟩ := exec_race
  exact ⟨s, hrun, bijection hrun noWrap_race⟩

end Inode
end ClickFs
