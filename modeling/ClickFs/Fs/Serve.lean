import ClickFs.Fs.Listing
import ClickFs.Inode.Allocate

/-!
# What a request does

The case lemmas of the two requests that name files, `lookup_cases` and `readdir_cases`:
every way one can end, with what is then known. The other requests leave the inode table
alone, so the two decide what is in it: entries are added and never changed (`Grows`), and
an entry that was not there before was made by a lookup that was answered with it or by a
`readdir` that handed it over (`Makes`).

The rest of the module carries these facts over a run. An event shows the states around
it, so what is known of one request can be said of each event of a trace (`Served`), and
what one request leaves behind is there at the end of the run, since nothing is taken away.
-/

set_option autoImplicit false

namespace ClickFs

open Rust Driver Probe Inode

namespace Fs

variable {d : Deps} {fs fs' : Fs} {env : Env}

theorem pathOf_ok {ino : UInt64} {path : PathBuf} :
    fs.pathOf ino = .ok path ↔ fs.inodes.forward ino = some path := by
  unfold pathOf InodeTable.lookup
  cases fs.inodes.forward ino <;> simp

/-! ## `lookup` -/

/-- Every way a `lookup` can end. Later proofs split on this and do not unfold `lookup`. -/
inductive LookupCase (d : Deps) (fs : Fs) (env : Env) (parent : UInt64) (name : OsStr) :
    Reply × Fs → Prop
  | refused {e : Errno} {fs' : Fs} (hre : Recached env fs fs') :
      LookupCase d fs env parent name (.error e, fs')
  | found {path : PathBuf} {nameStr : String} {plan : QueryPlan} {ino : UInt64} {fs₁ : Fs}
      {inodes : InodeTable} (hpath : fs.inodes.forward parent = some path)
      (hname : toStr name = some nameStr) (hres : Resolved (path.join nameStr).comps plan)
      (hverified : (fs.listings env).Verifies plan) (hre : Recached env fs fs₁)
      (halloc : fs.inodes.allocate d.hasher (path.join nameStr) = some (ino, inodes)) :
      LookupCase d fs env parent name
        (.entry entryTtl (fs.attrForPlan ino plan) 0, { fs₁ with inodes })

theorem lookup_cases {parent : UInt64} {name : OsStr} {r : Reply × Fs}
    (h : fs.lookup d env parent name = some r) : LookupCase d fs env parent name r := by
  unfold lookup at h
  split at h
  · cases h
    exact .refused (.refl env fs)
  · rename_i path hpath
    split at h
    · cases h
      exact .refused (.refl env fs)
    · rename_i nameStr hname
      dsimp only at h
      split at h
      · cases h
        exact .refused (.refl env fs)
      · rename_i plan hplan
        have hres := resolve_ok.mp hplan
        have hre : Recached env fs (fs.verifyPlanExists env plan).2 := verifyPlanExists_recached hres
        split at h
        · rename_i e fs₁ hverify
          rw [hverify] at hre
          cases h
          exact .refused hre
        · rename_i fs₁ hverify
          have hverified := (verifyPlanExists_ok hres).mp (by rw [hverify])
          rw [hverify] at hre
          split at h
          · cases h
          · rename_i ino inodes halloc
            cases h
            rw [hre.attrForPlan]
            rw [hre.inodes] at halloc
            exact .found (pathOf_ok.mp hpath) hname hres hverified hre halloc

/-- A path that resolves to a plan the listings have is found. The other direction is
    `lookup_cases`. -/
theorem lookup_found {parent : UInt64} {path : PathBuf} {name : String} {plan : QueryPlan}
    {ino : UInt64} {inodes : InodeTable} (hpath : fs.inodes.forward parent = some path)
    (hres : Resolved (path.join name).comps plan) (hverified : (fs.listings env).Verifies plan)
    (halloc : fs.inodes.allocate d.hasher (path.join name) = some (ino, inodes)) :
    ∃ fs', fs.lookup d env parent name.toUTF8
      = some (.entry entryTtl (fs.attrForPlan ino plan) 0, fs') ∧ fs'.inodes = inodes := by
  have hverify := (verifyPlanExists_ok hres).mpr hverified
  have hre : Recached env fs (fs.verifyPlanExists env plan).2 := verifyPlanExists_recached hres
  simp only [lookup, pathOf_ok.mpr hpath, toStr_toUTF8, resolve_ok.mpr hres]
  generalize fs.verifyPlanExists env plan = out at hverify hre
  obtain ⟨r, fs₁⟩ := out
  obtain rfl : r = .ok () := hverify
  have hre : Recached env fs fs₁ := hre
  rw [← hre.inodes] at halloc
  refine ⟨{ fs₁ with inodes }, ?_, rfl⟩
  rw [← hre.attrForPlan]
  simp only [halloc]

theorem lookup_unresolved {parent : UInt64} {path : PathBuf} {name : String} {e : ClickFsError}
    (hpath : fs.inodes.forward parent = some path) (h : resolve (path.join name) = .error e) :
    fs.lookup d env parent name.toUTF8 = some (.err e, fs) := by
  simp only [lookup, pathOf_ok.mpr hpath, toStr_toUTF8, h]

/-! ## `readdir` -/

namespace DirEntry

/-- "." and ".." get no inode of their own. -/
def IsDots (e : DirEntry) : Prop := e.name = "." ∨ e.name = ".."

instance (e : DirEntry) : Decidable e.IsDots :=
  inferInstanceAs (Decidable (e.name = "." ∨ e.name = ".."))

end DirEntry

/-- What the loop of `readdir` does to the table: it hands over each entry with the inode of its
    path, and these are the paths that are new. -/
structure Filled (path : PathBuf) (ino : UInt64) (table : InodeTable) (new : List DirEntry)
    (table' : InodeTable) : Prop where
  agrees : Agrees table'
  extend : Extends table.forward table'.forward
  keep : Extends table.reverse table'.reverse
  only : ∀ i p, table'.forward i = some p →
    table.forward i = some p ∨ ∃ e ∈ new, ¬ e.IsDots ∧ i = e.ino ∧ p = path.join e.name
  small : ∀ n, Small n table → n + new.length ≤ 2 ^ 62 → Small (n + new.length) table'
  dots : ∀ e ∈ new, e.IsDots → e.ino = ino
  entry : ∀ e ∈ new, ¬ e.IsDots → table'.reverse (path.join e.name) = some e.ino

theorem Filled.nil {path : PathBuf} {ino : UInt64} {table : InodeTable} (ha : Agrees table) :
    Filled path ino table [] table :=
  { agrees := ha, extend := .refl _, keep := .refl _, only := fun i p h => .inl h
    small := fun n h _ => h, dots := by simp, entry := by simp }

/-- One turn of the loop, in front of what follows. The induction over the entries uses this at
    each step. -/
theorem Filled.cons {path : PathBuf} {ino : UInt64} {table table₁ table' : InodeTable}
    {e : DirEntry} {new : List DirEntry} (hdots : e.IsDots → e.ino = ino ∧ table₁ = table)
    (hnew : ¬ e.IsDots → Allocated table (path.join e.name) e.ino table₁)
    (hsmall : ∀ n, Small n table → n < 2 ^ 62 → Small (n + 1) table₁)
    (h : Filled path ino table₁ new table') : Filled path ino table (e :: new) table' := by
  have hstep : Extends table.forward table₁.forward ∧ Extends table.reverse table₁.reverse ∧
      ∀ i p, table₁.forward i = some p →
        table.forward i = some p ∨ (¬ e.IsDots ∧ i = e.ino ∧ p = path.join e.name) := by
    by_cases he : e.IsDots
    · obtain ⟨-, rfl⟩ := hdots he
      exact ⟨.refl _, .refl _, fun i p hp => .inl hp⟩
    · have hall := hnew he
      refine ⟨hall.extend, hall.keep, fun i p hp => ?_⟩
      rcases hall.only i p hp with hold | ⟨hi, hp⟩
      · exact .inl hold
      · exact .inr ⟨he, hi, hp⟩
  obtain ⟨hextend, hkeep, honly⟩ := hstep
  refine ⟨h.agrees, hextend.trans h.extend, hkeep.trans h.keep, ?_, ?_, ?_, ?_⟩
  · intro i p hp
    rcases h.only i p hp with hp | ⟨e', he', hnew'⟩
    · rcases honly i p hp with hold | hmade
      · exact .inl hold
      · exact .inr ⟨e, List.mem_cons_self, hmade⟩
    · exact .inr ⟨e', List.mem_cons_of_mem _ he', hnew'⟩
  · intro n hn hroom
    rw [List.length_cons] at hroom ⊢
    rw [Nat.add_comm new.length, ← Nat.add_assoc] at hroom ⊢
    exact h.small _ (hsmall n hn (by omega)) hroom
  · intro e' he' hd
    rcases List.mem_cons.mp he' with rfl | he'
    · exact (hdots hd).1
    · exact h.dots e' he' hd
  · intro e' he' hd
    rcases List.mem_cons.mp he' with rfl | he'
    · exact h.keep _ _ (hnew hd).reverse
    · exact h.entry e' he' hd

/-- The entry an item of the vector is handed over as, but for the inode, which depends on what
    the table holds. -/
def DirEntry.Of (item : (FileType × String) × Nat) (e : DirEntry) : Prop :=
  e.kind = item.1.1 ∧ e.name = item.1.2 ∧ e.offset = Int64.ofNat (item.2 + 1)

/-- The loop hands over the items in order, up to the first that does not fit, which is the last
    one handed over. -/
theorem fill_filled {path : PathBuf} {ino : UInt64} : ∀ {items : List ((FileType × String) × Nat)}
    {table table' : InodeTable} {reply reply' : ReplyDirectory},
    fill d path ino items table reply = some (reply', table') →
    ∃ new, reply' = { reply with handed := reply.handed ++ new } ∧
      List.Forall₂ DirEntry.Of (items.take (reply.room - reply.handed.length + 1)) new ∧
      (Agrees table → Filled path ino table new table') := by
  intro items
  induction items with
  | nil =>
    intro table table' reply reply' h
    cases h
    exact ⟨[], by simp, .nil, fun ha => .nil ha⟩
  | cons item items ih =>
    intro table table' reply reply' h
    obtain ⟨⟨kind, name⟩, i⟩ := item
    rw [fill] at h
    split at h
    · cases h
    · rename_i childIno table₁ hchild
      let e : DirEntry := ⟨childIno, Int64.ofNat (i + 1), kind, name⟩
      have hof : DirEntry.Of ((kind, name), i) e := ⟨rfl, rfl, rfl⟩
      have hturn : Agrees table → Agrees table₁ ∧ (e.IsDots → e.ino = ino ∧ table₁ = table) ∧
          (¬ e.IsDots → Allocated table (path.join e.name) e.ino table₁) ∧
          ∀ n, Small n table → n < 2 ^ 62 → Small (n + 1) table₁ := by
        intro ha
        by_cases he : name = "." ∨ name = ".."
        · rw [if_pos he] at hchild
          cases hchild
          exact ⟨ha, fun _ => ⟨rfl, rfl⟩, fun hne => absurd he hne, fun n hs _ => hs.mono n.le_succ⟩
        · rw [if_neg he] at hchild
          obtain ⟨hall, hagrees⟩ := allocate_allocated ha hchild
          exact ⟨hagrees, fun hd => absurd hd he, fun _ => hall,
            fun n hs hn => allocate_small hs ha hn hchild⟩
      split at h
      · rename_i reply₁ hadd
        cases h
        obtain ⟨hfull, rfl⟩ := Prod.mk.inj hadd
        have hfull : reply.room ≤ reply.handed.length := of_decide_eq_true hfull
        refine ⟨[e], rfl, ?_, fun ha => ?_⟩
        · rw [Nat.sub_eq_zero_of_le hfull, List.take_succ_cons, List.take_zero]
          exact .cons hof .nil
        · obtain ⟨ha₁, hdots, hnew, hsmall⟩ := hturn ha
          exact .cons hdots hnew hsmall (.nil ha₁)
      · rename_i reply₁ hadd
        obtain ⟨new, hreply, hof', hfilled⟩ := ih h
        obtain ⟨hfull, rfl⟩ := Prod.mk.inj hadd
        have hfull : reply.handed.length < reply.room := Nat.lt_of_not_le (of_decide_eq_false hfull)
        refine ⟨e :: new, ?_, ?_, fun ha => ?_⟩
        · rw [hreply]
          simp [e]
        · have hroom : reply.room - (reply.handed ++ [e]).length + 1
              = reply.room - reply.handed.length := by
            rw [List.length_append, List.length_singleton]
            omega
          rw [List.take_succ_cons, ← hroom]
          exact .cons hof hof'
        · obtain ⟨ha₁, hdots, hnew, hsmall⟩ := hturn ha
          exact .cons hdots hnew hsmall (hfilled ha₁)

/-- Every way a `readdir` can end, with the vector it worked through and what it did to the table.
    -/
inductive ReaddirCase (d : Deps) (fs : Fs) (env : Env) (ino : UInt64) (offset : Int64) (room : Nat) :
    Reply × Fs → Prop
  | refused {e : Errno} {fs' : Fs} (hre : Recached env fs fs') :
      ReaddirCase d fs env ino offset room (.error e, fs')
  | listed {path : PathBuf} {plan : QueryPlan} {es : List (FileType × String)} {fs₁ : Fs}
      {handed : List DirEntry} {inodes : InodeTable} (hpath : fs.inodes.forward ino = some path)
      (hres : Resolved path.comps plan) (hes : (fs.entries env plan).1 = .ok es)
      (hre : Recached env fs fs₁)
      (hof : List.Forall₂ DirEntry.Of ((es.zipIdx.drop (asUsize offset.toInt)).take (room + 1)) handed)
      (hfilled : Agrees fs.inodes → Filled path ino fs.inodes handed inodes) :
      ReaddirCase d fs env ino offset room (.directory ⟨room, handed⟩, { fs₁ with inodes })

theorem readdir_cases {ino : UInt64} {offset : Int64} {room : Nat}
    {r : Reply × Fs} (h : fs.readdir d env ino offset room = some r) :
    ReaddirCase d fs env ino offset room r := by
  unfold readdir at h
  split at h
  · cases h
    exact .refused (.refl env fs)
  · rename_i path hpath
    split at h
    · cases h
      exact .refused (.refl env fs)
    · rename_i plan hplan
      have hre : Recached env fs (fs.entries env plan).2 := entries_recached
      split at h
      · rename_i e fs₁ hentries
        rw [hentries] at hre
        cases h
        exact .refused hre
      · rename_i es fs₁ hentries
        have hes : (fs.entries env plan).1 = .ok es := by rw [hentries]
        rw [hentries] at hre
        split at h
        · cases h
        · rename_i reply inodes hfill
          cases h
          rw [hre.inodes] at hfill
          obtain ⟨new, rfl, hof, hfilled⟩ := fill_filled hfill
          exact .listed (pathOf_ok.mp hpath) (resolve_ok.mp hplan) hes hre hof hfilled

theorem mem_of_forall₂ {α β : Type} {R : α → β → Prop} {xs : List α} {ys : List β}
    (h : List.Forall₂ R xs ys) {y : β} (hy : y ∈ ys) : ∃ x ∈ xs, R x y := by
  induction h with
  | nil => cases hy
  | cons hxy _ ih =>
    rcases List.mem_cons.mp hy with rfl | hy
    · exact ⟨_, List.mem_cons_self, hxy⟩
    · obtain ⟨x, hx, hR⟩ := ih hy
      exact ⟨x, List.mem_cons_of_mem _ hx, hR⟩

/-- A lookup right after a `readdir` works with the same listings, for the caches hold what it has
    just used. -/
theorem readdir_again {ino : UInt64} {offset : Int64} {room : Nat} {reply : Reply}
    (hnow : env.now ≤ env.stamp) (h : fs.readdir d env ino offset room = some (reply, fs')) :
    fs'.listings env = fs.listings env := by
  cases readdir_cases h with
  | refused hre => exact hre.again hnow
  | listed _ _ _ hre _ _ => exact (listings_inodes _).trans (hre.again hnow)

theorem map_of_handed {items : List ((FileType × String) × Nat)} {handed : List DirEntry}
    (hof : List.Forall₂ DirEntry.Of items handed) :
    handed.map (fun e => (e.kind, e.name)) = items.map Prod.fst := by
  induction hof with
  | nil => rfl
  | @cons item e items handed hitem _ ih =>
    obtain ⟨hkind, hname, -⟩ := hitem
    rw [List.map_cons, List.map_cons, ih, hkind, hname]

theorem mem_of_handed {es : List (FileType × String)} {offset room : Nat} {handed : List DirEntry}
    (hof : List.Forall₂ DirEntry.Of ((es.zipIdx.drop offset).take (room + 1)) handed)
    {e : DirEntry} (he : e ∈ handed) : (e.kind, e.name) ∈ es := by
  obtain ⟨item, hitem, hkind, hname, -⟩ := mem_of_forall₂ hof he
  rw [hkind, hname]
  exact List.fst_mem_of_mem_zipIdx (List.mem_of_mem_drop (List.mem_of_mem_take hitem))

/-- Besides "." and "..", an entry handed over is listed in the directory. -/
theorem lists_of_handed {comps : List Component} {plan : QueryPlan} {es : List (FileType × String)}
    {offset room : Nat} {handed : List DirEntry} (hres : Resolved comps plan)
    (hes : (fs.entries env plan).1 = .ok es)
    (hof : List.Forall₂ DirEntry.Of ((es.zipIdx.drop offset).take (room + 1)) handed)
    {e : DirEntry} (he : e ∈ handed) (hdots : ¬ e.IsDots) :
    (fs.listings env).Lists plan e.kind e.name := by
  rcases lists_of_entries hres hes (mem_of_handed hof he) with hd | hlists
  · rcases List.mem_cons.mp hd with hd | hd
    · exact absurd (.inl (Prod.mk.inj hd).2) hdots
    · exact absurd (.inr (Prod.mk.inj (List.mem_singleton.mp hd)).2) hdots
  · exact hlists

/-! ## One step -/

/-- Entries of the inode table are added and never changed. The relation between the states before
    and after any request, and so before and after a run. -/
structure Grows (fs fs' : Fs) : Prop where
  agrees : Agrees fs'.inodes
  extend : Extends fs.inodes.forward fs'.inodes.forward
  keep : Extends fs.inodes.reverse fs'.inodes.reverse

theorem Grows.of_inodes_eq (ha : Agrees fs.inodes) (h : fs'.inodes = fs.inodes) : Grows fs fs' := by
  rw [← h] at ha
  refine ⟨ha, ?_, ?_⟩
  · rw [h]; exact .refl _
  · rw [h]; exact .refl _

theorem Grows.trans {fs₁ fs₂ fs₃ : Fs} (h₁ : Grows fs₁ fs₂) (h₂ : Grows fs₂ fs₃) : Grows fs₁ fs₃ :=
  ⟨h₂.agrees, h₁.extend.trans h₂.extend, h₁.keep.trans h₂.keep⟩

/-- The event put the path into the table: it is a lookup that was answered with an entry
    for the path, or a `readdir` that handed one over. -/
inductive Makes (ev : Event) (ino : UInt64) (path : PathBuf) : Prop
  | lookup {parent : UInt64} {name : OsStr} {parentPath : PathBuf} {nameStr : String}
      {ttl : Nat} {attr : FileAttr} {generation : UInt64} (hop : ev.op = .lookup parent name)
      (hpath : ev.before.inodes.forward parent = some parentPath) (hname : toStr name = some nameStr)
      (hreply : ev.reply = .entry ttl attr generation) (hino : attr.ino = ino)
      (hchild : path = parentPath.join nameStr)
  | readdir {dir : UInt64} {offset : Int64} {room : Nat} {parentPath : PathBuf}
      {reply : ReplyDirectory} {e : DirEntry} (hop : ev.op = .readdir dir offset room)
      (hpath : ev.before.inodes.forward dir = some parentPath)
      (hreply : ev.reply = .directory reply) (he : e ∈ reply.handed) (hdots : ¬ e.IsDots)
      (hino : e.ino = ino) (hchild : path = parentPath.join e.name)

theorem attrForPlan_ino (fs : Fs) (ino : UInt64) (plan : QueryPlan) :
    (fs.attrForPlan ino plan).ino = ino := by
  unfold attrForPlan
  split
  · rfl
  · split <;> rfl

/-- The requests that name no file use the inode table and the caches, and change neither. -/
structure Untouched (fs fs' : Fs) : Prop where
  inodes : fs'.inodes = fs.inodes
  dbCache : fs'.dbCache = fs.dbCache
  tableCache : fs'.tableCache = fs.tableCache
  partCache : fs'.partCache = fs.partCache

/-- Nothing but the open files has changed. -/
def OnlyFiles (fs fs' : Fs) : Prop := ∃ fhCounter handles, fs' = { fs with fhCounter, handles }

theorem OnlyFiles.refl (fs : Fs) : OnlyFiles fs fs := ⟨_, _, rfl⟩

theorem OnlyFiles.trans {fs₁ fs₂ fs₃ : Fs} (h₁ : OnlyFiles fs₁ fs₂) (h₂ : OnlyFiles fs₂ fs₃) :
    OnlyFiles fs₁ fs₃ := by
  obtain ⟨_, _, rfl⟩ := h₁
  obtain ⟨_, _, rfl⟩ := h₂
  exact ⟨_, _, rfl⟩

theorem OnlyFiles.untouched (h : OnlyFiles fs fs') : Untouched fs fs' := by
  obtain ⟨_, _, rfl⟩ := h
  exact ⟨rfl, rfl, rfl, rfl⟩

theorem getattr_same (fs : Fs) (ino : UInt64) : (fs.getattr ino).2 = fs := by
  unfold getattr
  split
  · rfl
  · split
    · rfl
    · split <;> rfl

theorem open_onlyFiles (fs : Fs) (ino : UInt64) (flags : Int32) :
    OnlyFiles fs (fs.open d env ino flags).2 := by
  unfold «open»
  split
  · exact .refl fs
  · split
    · exact .refl fs
    · split
      · exact .refl fs
      · dsimp only
        split <;> exact ⟨_, _, rfl⟩

theorem read_onlyFiles {fh : UInt64} {offset : Int64} {size : UInt32} {sched : List Stream.Action}
    {r : Reply × Fs} (h : fs.read fh offset size sched = some r) : OnlyFiles fs r.2 := by
  unfold read at h
  dsimp only at h
  split at h
  · cases h
    exact .refl fs
  · split at h
    · cases h
      exact .refl fs
    · split at h <;> cases h <;> exact .refl fs
  · split at h
    · cases h
    · split at h <;> cases h <;> exact ⟨_, _, rfl⟩

theorem background_onlyFiles {fh : UInt64} {sched : List Stream.Action}
    (h : fs.background fh sched = some fs') : OnlyFiles fs fs' := by
  unfold background at h
  split at h
  · split at h
    · split at h
      · cases h
        exact ⟨_, _, rfl⟩
      · cases h
    · cases h
  · cases h

theorem background_untouched {fh : UInt64} {sched : List Stream.Action}
    (h : fs.background fh sched = some fs') : Untouched fs fs' := (background_onlyFiles h).untouched

/-- The request is a `lookup` or a `readdir`, the two that can put something into the inode table.
    -/
def Op.namesFiles : Op → Bool
  | .lookup _ _ | .readdir _ _ _ => true
  | _ => false

theorem serve_onlyFiles {op : Op} (hop : op.namesFiles = false) {reply : Reply}
    (h : fs.serve d env op = some (reply, fs')) : OnlyFiles fs fs' := by
  cases op with
  | lookup parent name => cases hop
  | readdir ino offset room => cases hop
  | getattr ino =>
    obtain rfl : (fs.getattr ino).2 = fs' := congrArg Prod.snd (Option.some.inj h)
    rw [getattr_same]
    exact .refl fs
  | «open» ino flags =>
    obtain rfl : (fs.open d env ino flags).2 = fs' := congrArg Prod.snd (Option.some.inj h)
    exact open_onlyFiles fs ino flags
  | read fh offset size sched => exact read_onlyFiles h
  | release fh =>
    cases h
    exact ⟨_, _, rfl⟩

theorem serve_untouched {op : Op} (hop : op.namesFiles = false) {reply : Reply}
    (h : fs.serve d env op = some (reply, fs')) : Untouched fs fs' :=
  (serve_onlyFiles hop h).untouched

/-- What one answered request does to the inode table: it grows, and what is new in it was made by
    this request. -/
theorem serve_grows (ha : Agrees fs.inodes) {op : Op} {reply : Reply}
    (h : fs.serve d env op = some (reply, fs')) :
    Grows fs fs' ∧ ∀ i p, fs'.inodes.forward i = some p →
      fs.inodes.forward i = some p ∨ Makes ⟨env, op, fs, reply, fs'⟩ i p := by
  have hsame (hinodes : fs'.inodes = fs.inodes) : Grows fs fs' ∧
      ∀ i p, fs'.inodes.forward i = some p →
        fs.inodes.forward i = some p ∨ Makes ⟨env, op, fs, reply, fs'⟩ i p := by
    refine ⟨.of_inodes_eq ha hinodes, fun i p hp => ?_⟩
    rw [hinodes] at hp
    exact .inl hp
  cases op with
  | lookup parent name =>
    cases lookup_cases h with
    | refused hre => exact hsame hre.inodes
    | found hpath hname hres hverified hre halloc =>
      obtain ⟨hall, hagrees⟩ := allocate_allocated ha halloc
      refine ⟨⟨hagrees, hall.extend, hall.keep⟩, fun i p hp => ?_⟩
      rcases hall.only i p hp with hold | ⟨hi, hp⟩
      · exact .inl hold
      · exact .inr (.lookup rfl hpath hname rfl (by rw [attrForPlan_ino, hi]) hp)
  | readdir ino offset room =>
    cases readdir_cases h with
    | refused hre => exact hsame hre.inodes
    | listed hpath hres hes hre hof hfilled =>
      have hfilled := hfilled ha
      refine ⟨⟨hfilled.agrees, hfilled.extend, hfilled.keep⟩, fun i p hp => ?_⟩
      rcases hfilled.only i p hp with hold | ⟨e, he, hdots, hi, hp⟩
      · exact .inl hold
      · exact .inr (.readdir rfl hpath rfl he hdots hi.symm hp)
  | getattr ino => exact hsame (serve_untouched rfl h).inodes
  | «open» ino flags => exact hsame (serve_untouched rfl h).inodes
  | read fh offset size sched => exact hsame (serve_untouched rfl h).inodes
  | release fh => exact hsame (serve_untouched rfl h).inodes

/-- How many entries a reply hands over, the refused one included: it has an inode too. -/
def Reply.handedOver : Reply → Nat
  | .entry _ _ _ => 1
  | .directory reply => reply.handed.length
  | _ => 0

/-- The table gets no more entries than are handed over, so how full it can be is known from the
    replies. -/
theorem serve_small (ha : Agrees fs.inodes) {op : Op} {reply : Reply}
    (h : fs.serve d env op = some (reply, fs')) {n : Nat} (hs : Small n fs.inodes)
    (hn : n + reply.handedOver ≤ 2 ^ 62) : Small (n + reply.handedOver) fs'.inodes := by
  have hsame (hinodes : fs'.inodes = fs.inodes) : Small (n + reply.handedOver) fs'.inodes := by
    rw [hinodes]
    exact hs.mono (Nat.le_add_right _ _)
  cases op with
  | lookup parent name =>
    cases lookup_cases h with
    | refused hre => exact hsame hre.inodes
    | found hpath hname hres hverified hre halloc => exact allocate_small hs ha hn halloc
  | readdir ino offset room =>
    cases readdir_cases h with
    | refused hre => exact hsame hre.inodes
    | listed hpath hres hes hre hof hfilled => exact (hfilled ha).small n hs hn
  | getattr ino => exact hsame (serve_untouched rfl h).inodes
  | «open» ino flags => exact hsame (serve_untouched rfl h).inodes
  | read fh offset size sched => exact hsame (serve_untouched rfl h).inodes
  | release fh => exact hsame (serve_untouched rfl h).inodes

theorem CachedAll.of_untouched {P : Source → List String → Prop} (hc : CachedAll P fs)
    (h : Untouched fs fs') : CachedAll P fs' := by
  constructor
  · rw [h.dbCache]; exact hc.databases
  · rw [h.tableCache]; exact hc.tables
  · rw [h.partCache]; exact hc.partitions

theorem serve_cachedAll {P : Source → List String → Prop} (hc : CachedAll P fs)
    (hq : Answers P env) {op : Op} {reply : Reply}
    (h : fs.serve d env op = some (reply, fs')) : CachedAll P fs' := by
  cases op with
  | lookup parent name =>
    cases lookup_cases h with
    | refused hre => exact hre.cached P hc hq
    | found _ _ _ _ hre _ =>
      have hc := hre.cached P hc hq
      exact ⟨hc.databases, hc.tables, hc.partitions⟩
  | readdir ino offset room =>
    cases readdir_cases h with
    | refused hre => exact hre.cached P hc hq
    | listed _ _ _ hre _ _ =>
      have hc := hre.cached P hc hq
      exact ⟨hc.databases, hc.tables, hc.partitions⟩
  | getattr ino => exact hc.of_untouched (serve_untouched rfl h)
  | «open» ino flags => exact hc.of_untouched (serve_untouched rfl h)
  | read fh offset size sched => exact hc.of_untouched (serve_untouched rfl h)
  | release fh => exact hc.of_untouched (serve_untouched rfl h)

/-! ## Runs -/

/-- Every answer the request may get satisfies `P`. -/
def Action.Answers (P : Source → List String → Prop) : Action → Prop
  | .request env _ => Fs.Answers P env
  | .background _ _ => True

theorem step_request {op : Op} {evs : List Event}
    (h : (sys d).step fs (.request env op) = some (fs', evs)) :
    ∃ reply, fs.serve d env op = some (reply, fs') ∧ evs = [⟨env, op, fs, reply, fs'⟩] := by
  simp only [sys, step] at h
  split at h
  · cases h
  · rename_i reply fs₁ hserve
    cases h
    exact ⟨reply, hserve, rfl⟩

theorem step_of_serve {op : Op} {reply : Reply} (h : fs.serve d env op = some (reply, fs')) :
    (sys d).step fs (.request env op) = some (fs', [⟨env, op, fs, reply, fs'⟩]) := by
  simp only [sys, step, h]

theorem step_background {fh : UInt64} {sched : List Stream.Action} {evs : List Event}
    (h : (sys d).step fs (.background fh sched) = some (fs', evs)) :
    fs.background fh sched = some fs' ∧ evs = [] := by
  simpa [sys, step] using h

/-- A run splits at an event: what led to it, the request itself, and what came after. Statements
    about "later" are made with this. -/
theorem exec_cut {acts : List Action} {tr tr₁ tr₂ : List Event} {ev : Event}
    (h : (sys d).Exec fs acts tr fs') (htr : tr = tr₁ ++ ev :: tr₂) :
    ∃ acts₁ acts₂, acts = acts₁ ++ .request ev.env ev.op :: acts₂ ∧
      (sys d).Exec fs acts₁ tr₁ ev.before ∧
      ev.before.serve d ev.env ev.op = some (ev.reply, ev.after) ∧
      (sys d).Exec ev.after acts₂ tr₂ fs' := by
  have hone (s : Fs) (a : Action) (s₁ : Fs) (evs : List Event)
      (hstep : (sys d).step s a = some (s₁, evs)) : evs.length ≤ 1 := by
    cases a with
    | request env op =>
      obtain ⟨reply, -, rfl⟩ := step_request hstep
      exact le_rfl
    | background fh sched =>
      obtain ⟨-, rfl⟩ := step_background hstep
      exact Nat.zero_le 1
  obtain ⟨acts₁, a, acts₂, fs₁, fs₂, rfl, hbefore, hstep, hafter⟩ := h.cut hone htr
  cases a with
  | request env op =>
    obtain ⟨reply, hserve, hev⟩ := step_request hstep
    obtain rfl := List.singleton_inj.mp hev
    exact ⟨acts₁, acts₂, rfl, hbefore, hserve, hafter⟩
  | background fh sched =>
    obtain ⟨-, hev⟩ := step_background hstep
    cases hev

/-- The same of a step, which may also be one of the background and then does nothing to it. -/
theorem step_grows (ha : Agrees fs.inodes) {a : Action} {evs : List Event}
    (h : (sys d).step fs a = some (fs', evs)) :
    Grows fs fs' ∧ ∀ i p, fs'.inodes.forward i = some p →
      fs.inodes.forward i = some p ∨ ∃ ev ∈ evs, Makes ev i p := by
  cases a with
  | request env op =>
    obtain ⟨reply, hserve, rfl⟩ := step_request h
    obtain ⟨hgrows, honly⟩ := serve_grows ha hserve
    refine ⟨hgrows, fun i p hp => ?_⟩
    rcases honly i p hp with hold | hmakes
    · exact .inl hold
    · exact .inr ⟨_, List.mem_singleton_self _, hmakes⟩
  | background fh sched =>
    have hinodes := (background_untouched (step_background h).1).inodes
    refine ⟨.of_inodes_eq ha hinodes, fun i p hp => ?_⟩
    rw [hinodes] at hp
    exact .inl hp

theorem step_cachedAll {P : Source → List String → Prop} (hc : CachedAll P fs) {a : Action}
    (hq : a.Answers P) {evs : List Event} (h : (sys d).step fs a = some (fs', evs)) :
    CachedAll P fs' := by
  cases a with
  | request env op =>
    obtain ⟨reply, hserve, -⟩ := step_request h
    exact serve_cachedAll hc hq hserve
  | background fh sched => exact hc.of_untouched (background_untouched (step_background h).1)

/-- The kernel asks for the names of directory entries. -/
def Op.Named : Op → Prop
  | .lookup _ name => ∀ nameStr, toStr name = some nameStr → PathBuf.IsName nameStr
  | _ => True

def Action.Named : Action → Prop
  | .request _ op => op.Named
  | .background _ _ => True

theorem exec_grows {acts : List Action} {tr : List Event} (h : (sys d).Exec fs acts tr fs')
    (ha : Agrees fs.inodes) : Grows fs fs' := by
  induction h with
  | nil fs => exact .of_inodes_eq ha rfl
  | cons head tail ih =>
    have hhead := (step_grows ha head).1
    exact hhead.trans (ih hhead.agrees)

/-- What is new in the table at the end of a run was made by an event of the run. -/
theorem exec_makes {acts : List Action} {tr : List Event} (h : (sys d).Exec fs acts tr fs')
    (ha : Agrees fs.inodes) {ino : UInt64} {path : PathBuf}
    (hp : fs'.inodes.forward ino = some path) :
    fs.inodes.forward ino = some path ∨ ∃ ev ∈ tr, Makes ev ino path := by
  induction h with
  | nil fs => exact .inl hp
  | cons head tail ih =>
    obtain ⟨hgrows, honly⟩ := step_grows ha head
    rcases ih hgrows.agrees hp with hp | ⟨ev, hev, hmakes⟩
    · rcases honly ino path hp with hold | ⟨ev, hev, hmakes⟩
      · exact .inl hold
      · exact .inr ⟨ev, List.mem_append_left _ hev, hmakes⟩
    · exact .inr ⟨ev, List.mem_append_right _ hev, hmakes⟩

/-- How many entries the replies of a run have handed over. -/
def handedOver (tr : List Event) : Nat := (tr.map fun ev => ev.reply.handedOver).sum

theorem exec_small {acts : List Action} {tr : List Event} (h : (sys d).Exec fs acts tr fs')
    (ha : Agrees fs.inodes) {n : Nat} (hs : Small n fs.inodes) (hn : n + handedOver tr ≤ 2 ^ 62) :
    Small (n + handedOver tr) fs'.inodes := by
  induction h generalizing n with
  | nil fs => exact hs
  | @cons fs fs₁ fs' a acts evs tr head tail ih =>
    have hsum : handedOver (evs ++ tr) = handedOver evs + handedOver tr := by
      simp [handedOver]
    rw [hsum, ← Nat.add_assoc] at hn ⊢
    refine ih (step_grows ha head).1.agrees ?_ hn
    cases a with
    | request env op =>
      obtain ⟨reply, hserve, rfl⟩ := step_request head
      exact serve_small ha hserve hs (Nat.le_of_add_right_le hn)
    | background fh sched =>
      obtain ⟨hbackground, rfl⟩ := step_background head
      rw [(background_untouched hbackground).inodes]
      exact hs

/-- What is known of an event of a run that ends in `fs'`: that it was served so, that the caches
    were as they had to be, and that what it left is still there. -/
structure Served (d : Deps) (P : Source → List String → Prop) (fs' : Fs) (ev : Event) : Prop where
  serve : ev.before.serve d ev.env ev.op = some (ev.reply, ev.after)
  named : ev.op.Named
  agrees : Agrees ev.before.inodes
  cached : CachedAll P ev.before
  answers : Answers P ev.env
  grows : Grows ev.before fs'

theorem exec_served {P : Source → List String → Prop} {acts : List Action} {tr : List Event}
    (h : (sys d).Exec fs acts tr fs') (ha : Agrees fs.inodes) (hc : CachedAll P fs)
    (hq : ∀ a ∈ acts, a.Answers P) (hn : ∀ a ∈ acts, a.Named) : ∀ ev ∈ tr, Served d P fs' ev := by
  induction h with
  | nil fs =>
    intro ev hev
    cases hev
  | @cons fs fs₁ fs' a acts evs tr head tail ih =>
    have hexec : (sys d).Exec fs (a :: acts) (evs ++ tr) fs' := .cons head tail
    have hqa := hq a List.mem_cons_self
    have hna := hn a List.mem_cons_self
    have ih := ih (step_grows ha head).1.agrees (step_cachedAll hc hqa head)
      (fun b hb => hq b (List.mem_cons_of_mem _ hb)) (fun b hb => hn b (List.mem_cons_of_mem _ hb))
    intro ev hev
    rcases List.mem_append.mp hev with hev | hev
    · cases a with
      | request env op =>
        obtain ⟨reply, hserve, rfl⟩ := step_request head
        obtain rfl := List.mem_singleton.mp hev
        exact ⟨hserve, hna, ha, hc, hqa, exec_grows hexec ha⟩
      | background fh sched =>
        obtain ⟨-, rfl⟩ := step_background head
        cases hev
    · exact ih ev hev

/-- Over a run the caches hold what the server has answered, at one time or another. -/
theorem exec_cachedAll {P : Source → List String → Prop} {acts : List Action} {tr : List Event}
    (h : (sys d).Exec fs acts tr fs') (hq : ∀ a ∈ acts, a.Answers P) (hc : CachedAll P fs) :
    CachedAll P fs' :=
  h.invariantAlong (C := fun _ a => a.Answers P) (fun _ _ _ _ hc hq hs => step_cachedAll hc hq hs)
    (Lts.along_of_forall (fun a ha _ => hq a ha) fs) hc

theorem new_agrees (uid gid : UInt32) (startTime : Nat) (tailCfg : TailConfig) :
    Agrees (Fs.new uid gid startTime tailCfg).inodes := Agrees.new

theorem new_root (uid gid : UInt32) (startTime : Nat) (tailCfg : TailConfig) :
    (Fs.new uid gid startTime tailCfg).inodes.forward inoRoot = some .root := by
  simp only [Fs.new, InodeTable.new, Function.update_self]

theorem new_forward {uid gid : UInt32} {startTime : Nat} {tailCfg : TailConfig} {ino : UInt64}
    {path : PathBuf} (h : (Fs.new uid gid startTime tailCfg).inodes.forward ino = some path) :
    ino = inoRoot ∧ path = .root := by
  by_cases hino : ino = inoRoot
  · subst hino
    simp only [Fs.new, InodeTable.new, Function.update_self, Option.some.injEq] at h
    exact ⟨rfl, h.symm⟩
  · simp only [Fs.new, InodeTable.new, Function.update_of_ne hino] at h
    cases h

/-! ## A small server, to run requests on -/

namespace Sample

/-- Every path hashes to the same slot. -/
def deps : Deps := { hasher := fun _ => 0, fromStr := fun _ => none, render := fun _ _ _ => "" }

def query (sql : String) : Except QueryError String :=
  if sql = sqlListDatabases then .ok "default\nmy-db\n"
  else if sql = sqlListTables "default" then .ok "events\n"
  else if sql = sqlListPartitions "default" "events" then .ok "202601\n"
  else .ok ""

def server : Env := { now := 0, stamp := 0, query, stream := fun _ => .error .auth }

def mount : Fs := .new 0 0 0 .default

/-- What a `readdir` sends, when it is answered. For runs that are written out. -/
def sentBy : Option (Reply × Fs) → List DirEntry
  | some (.directory reply, _) => reply.sent
  | _ => []

theorem of_mem_sentBy {r : Option (Reply × Fs)} {e : DirEntry} (h : e ∈ sentBy r) :
    ∃ reply fs', r = some (.directory reply, fs') ∧ e ∈ reply.sent := by
  unfold sentBy at h
  split at h
  · exact ⟨_, _, rfl, h⟩
  · cases h

/-- What a `readdir` is answered with, and the state after it. For runs that are written out. -/
def answer (fs : Fs) : Option (Reply × Fs) → ReplyDirectory × Fs
  | some (.directory reply, fs') => (reply, fs')
  | _ => (⟨0, []⟩, fs)

theorem eq_of_answer {fs : Fs} {r : Option (Reply × Fs)} (h : (answer fs r).1 ≠ ⟨0, []⟩) :
    r = some (.directory (answer fs r).1, (answer fs r).2) := by
  cases r with
  | none => exact absurd rfl h
  | some out =>
    obtain ⟨reply, fs'⟩ := out
    cases reply with
    | directory reply => rfl
    | _ => exact absurd rfl h

theorem query_ok {sql body : String} (h : query sql = .ok body) :
    body ∈ ["default\nmy-db\n", "events\n", "202601\n", ""] := by
  unfold query at h
  split at h
  · cases h; decide
  · split at h
    · cases h; decide
    · split at h <;> cases h <;> decide

end Sample

end Fs
end ClickFs
