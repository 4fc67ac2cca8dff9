import ClickFs.Fs.NoFake
import ClickFs.Lib.Paging

/-!
# Walking a directory

The kernel reads a directory by successive `readdir` calls, each from the offset of the last
entry it got. The offset is a position in the entries vector, and the vector is built again
for every call, from the cache or, once the entry has expired, from the server. While the
listing stays the same the walk returns each name once (`walk_unchanged`). When it changes,
a name in front of the offset moves what comes after it, and the walk skips a database that
was there all the time (`survivor_skipped`).

`walk_once` says what is enough for a name: that it is listed once by the first call, and
that no change between two calls carries it across the offset (`Steady`). It is not needed
in every case. A name that is carried across and back before the walk gets there is
returned once all the same.
-/

set_option autoImplicit false

namespace ClickFs

open Rust Driver Inode Paging

namespace Fs

/-- The names a directory lists, in the order of the entries vector. A directory that cannot be
    listed has none. -/
def listedNames (fs : Fs) (env : Env) (ino : UInt64) : List String :=
  match fs.dirEntries env ino with
  | .ok es => es.map Prod.snd
  | .error _ => []

/-- One call of a walk through a directory: a `readdir` with room for at least one entry, answered
    with entries. No vector is longer than a `usize` counts. -/
structure Call (d : Deps) (ino : UInt64) where
  env : Env
  offset : Int64
  room : Nat
  before : Fs
  reply : ReplyDirectory
  after : Fs
  room_pos : 0 < room
  small : (before.listedNames env ino).length < 2 ^ 64
  served : before.readdir d env ino offset room = some (.directory reply, after)

variable {d : Deps} {ino : UInt64}

namespace Call

def names (c : Call d ino) : List String := c.reply.sent.map DirEntry.name

/-- The call as a page of the listing it worked with, for `Lib.Paging` to reason about. -/
def page (c : Call d ino) : Page String :=
  ⟨c.before.listedNames c.env ino, asUsize c.offset.toInt, c.reply.sent.length⟩

end Call

/-- A walk: each call is made from the offset of the last entry of the one before, any requests
    may be answered in between, and the last call adds no entry. This is what the kernel does for
    one `readdir(3)` loop. -/
inductive Walk (d : Deps) (ino : UInt64) : List (Call d ino) → Prop
  | last {c : Call d ino} (hend : c.reply.sent = []) : Walk d ino [c]
  | more {c next : Call d ino} {cs : List (Call d ino)} {e : DirEntry} {acts : List Action}
      {tr : List Event} (hlast : c.reply.sent.getLast? = some e) (hoffset : next.offset = e.offset)
      (hbetween : (sys d).Exec c.after acts tr next.before) (hrest : Walk d ino (next :: cs)) :
      Walk d ino (c :: next :: cs)

/-! ## A call is a page -/

theorem asUsize_ofNat {n : Nat} (h : n < 2 ^ 64) : asUsize (Int64.ofNat n).toInt = n := by
  have hsize : ((2 : Int) ^ 64) = ((Int64.size : Nat) : Int) := rfl
  have hn : (n : Int) % 2 ^ 64 = n := Int.emod_eq_of_lt (Int.natCast_nonneg n) (by omega)
  rw [asUsize, Int64.toInt_ofNat', hsize, Int.bmod_emod, ← hsize, hn, Int.toNat_natCast]

theorem Call.sent (c : Call d ino) : ∃ es, c.before.dirEntries c.env ino = .ok es ∧
    List.Forall₂ DirEntry.Of ((es.zipIdx.drop (asUsize c.offset.toInt)).take c.room) c.reply.sent := by
  obtain ⟨env, offset, room, before, reply, after, hroom, hsmall, hserved⟩ := c
  cases readdir_cases hserved with
  | @listed path plan es fs₁ handed inodes hpath hres hes hre hof hfilled =>
    refine ⟨es, (dirEntries_of_resolved hpath hres).trans hes, ?_⟩
    have hsent := List.forall₂_take room hof
    rwa [List.take_take, Nat.min_eq_left (Nat.le_succ room)] at hsent

theorem listedNames_ok {fs : Fs} {env : Env} {es : List (FileType × String)}
    (h : fs.dirEntries env ino = .ok es) : fs.listedNames env ino = es.map Prod.snd := by
  rw [listedNames, h]

/-- The names a call sends are as many as there is room for. -/
theorem Call.names_eq (c : Call d ino) : c.names = c.page.ahead.take c.room := by
  obtain ⟨es, hes, hof⟩ := c.sent
  have hmap := congrArg (List.map Prod.snd) (map_of_handed hof)
  rw [List.map_map, List.map_map] at hmap
  rw [Page.ahead, Call.page, listedNames_ok hes, ← List.map_drop, ← List.map_take]
  refine hmap.trans ?_
  rw [← List.map_map, List.map_take, List.map_drop, List.zipIdx_map_fst]

theorem Call.page_returned (c : Call d ino) : c.page.returned = c.names := by
  have hsize : c.page.size = (c.page.ahead.take c.room).length := by
    rw [← c.names_eq, Call.names, List.length_map]
    rfl
  rw [Page.returned, c.names_eq, hsize, List.length_take, ← List.take_eq_take_min]

theorem Call.ahead_nil {c : Call d ino} (h : c.reply.sent = []) : c.page.ahead = [] := by
  have hnames := c.names_eq
  rw [Call.names, h, List.map_nil, eq_comm, List.take_eq_nil_iff] at hnames
  exact hnames.resolve_left (Nat.ne_of_gt c.room_pos)

/-- The items of the vector are numbered by their positions. -/
theorem position_of_item {es : List (FileType × String)} {cursor room i : Nat}
    (h : i < ((es.zipIdx.drop cursor).take room).length) :
    (((es.zipIdx.drop cursor).take room).get ⟨i, h⟩).2 = cursor + i ∧ cursor + i < es.length := by
  have hlt : cursor + i < es.length := by
    rw [List.length_take, List.length_drop, List.length_zipIdx] at h
    omega
  refine ⟨?_, hlt⟩
  simp only [List.get_eq_getElem, List.getElem_take, List.getElem_drop, List.getElem_zipIdx,
    Nat.zero_add]

/-- The offset of the last entry sent is where the next page begins. The offset is one more than
    the entry's position, so nothing is sent twice while nothing moves. -/
theorem Call.last_offset {c : Call d ino} {e : DirEntry} (h : c.reply.sent.getLast? = some e) :
    asUsize e.offset.toInt = c.page.next := by
  obtain ⟨es, hes, hof⟩ := c.sent
  have hsmall := c.small
  rw [listedNames_ok hes, List.length_map] at hsmall
  rw [List.getLast?_eq_getElem?, List.getElem?_eq_some_iff] at h
  obtain ⟨hlast, rfl⟩ := h
  have hitem : c.reply.sent.length - 1
      < ((es.zipIdx.drop (asUsize c.offset.toInt)).take c.room).length := by
    rw [hof.length_eq]
    exact hlast
  -- the offset of an entry is one past its position
  obtain ⟨-, -, hoffset⟩ := hof.get hitem hlast
  obtain ⟨hposition, hbound⟩ := position_of_item hitem
  have hpos : 0 < c.reply.sent.length := Nat.zero_lt_of_lt hlast
  rw [List.get_eq_getElem] at hoffset
  rw [hoffset, hposition, asUsize_ofNat (by omega)]
  show _ = asUsize c.offset.toInt + c.reply.sent.length
  omega

/-! ## A walk is one through pages -/

theorem Walk.pages {cs : List (Call d ino)} (h : Walk d ino cs) : Paging.Walk (cs.map Call.page) := by
  induction h with
  | last hend => exact .last (Call.ahead_nil hend)
  | more hlast hoffset _ _ ih =>
    refine .more ?_ ih
    rw [← Call.last_offset hlast, ← hoffset]
    rfl

theorem returned_names (cs : List (Call d ino)) :
    (cs.map Call.page).flatMap Page.returned = cs.flatMap Call.names := by
  rw [List.flatMap_map]
  exact List.flatMap_congr fun c _ => c.page_returned

/-- **Once.** In every walk from offset 0, a name that the first call lists once is returned
    exactly once, when no change between two calls carries it across the offset: each later
    call has it after the offset it starts from just as the call before had. -/
theorem walk_once {c : Call d ino} {cs : List (Call d ino)} (hwalk : Walk d ino (c :: cs))
    (hstart : c.offset = 0) {name : String}
    (hlisted : (c.before.listedNames c.env ino).count name = 1)
    (hsteady : Steady name ((c :: cs).map Call.page)) :
    ((c :: cs).flatMap Call.names).count name = 1 := by
  have hcount := hwalk.pages.count_returned hsteady
  rw [← List.map_cons, returned_names] at hcount
  -- from offset 0 the whole listing is ahead
  have hcursor : c.page.cursor = 0 := by
    show asUsize c.offset.toInt = 0
    rw [hstart]
    rfl
  rw [hcount, Page.ahead, hcursor, List.drop_zero]
  exact hlisted

/-- While the listing does not change, a walk returns what is listed, each name once. -/
theorem walk_unchanged {c : Call d ino} {cs : List (Call d ino)} (hwalk : Walk d ino (c :: cs))
    (hstart : c.offset = 0) {names : List String}
    (hsame : ∀ c' ∈ c :: cs, c'.before.listedNames c'.env ino = names) (hnodup : names.Nodup)
    {name : String} (hname : name ∈ names) : ((c :: cs).flatMap Call.names).count name = 1 := by
  have hlisted : (c.before.listedNames c.env ino).count name = 1 := by
    rw [hsame c List.mem_cons_self]
    exact List.count_eq_one_of_mem hnodup hname
  have hpages : ∀ p ∈ (c :: cs).map Call.page, p.items = names := by
    intro p hp
    obtain ⟨c', hc', rfl⟩ := List.mem_map.mp hp
    exact hsame c' hc'
  exact walk_once hwalk hstart hlisted (hwalk.pages.steady_of_same hpages)

namespace Sample

/-- A server with these databases, at this instant. -/
def databases (body : String) (now : Nat) : Env :=
  { now, stamp := now, query := fun _ => .ok body, stream := fun _ => .error .auth }

/-- The mount with the root listed, so that "/db" has an inode. -/
def listedRoot : Fs := (sys deps).final mount [.request server (.readdir 1 0 8)]

end Sample

/-- The first call has room for ".", ".." and "a". By the second one the cache entry has
    expired and "a" is gone, so that "b" is where "a" was: the call sends nothing. -/
theorem survivor_skipped : ∃ (tr : List Event) (c c' : Call Sample.deps 100),
    (sys Sample.deps).Exec Sample.mount [.request Sample.server (.readdir 1 0 8)] tr c.before ∧
    Walk Sample.deps 100 [c, c'] ∧ c.offset = 0 ∧
    (∀ call ∈ [c, c'], ∃ body, call.env.query sqlListDatabases = .ok body ∧ "b" ∈ lines body) ∧
    ([c, c'].flatMap Call.names).count "b" = 0 := by
  let env := Sample.databases "a\nb\n" 0
  let env' := Sample.databases "b\n" (fromMillis 3000)
  let first := Sample.answer Sample.mount (Sample.listedRoot.readdir Sample.deps env 100 0 3)
  let second := Sample.answer Sample.mount (first.2.readdir Sample.deps env' 100 3 3)
  let c : Call Sample.deps 100 :=
    { env, offset := 0, room := 3, before := Sample.listedRoot, reply := first.1, after := first.2
      room_pos := by decide, small := by decide +kernel
      served := Sample.eq_of_answer (by decide +kernel) }
  let c' : Call Sample.deps 100 :=
    { env := env', offset := 3, room := 3, before := first.2, reply := second.1, after := second.2
      room_pos := by decide, small := by decide +kernel
      served := Sample.eq_of_answer (by decide +kernel) }
  have hlast : c.reply.sent.getLast? = some ⟨101, 3, .directory, "a"⟩ := by decide +kernel
  have hend : c'.reply.sent = [] := by decide +kernel
  refine ⟨_, c, c', Lts.exec_of_isSome (by decide +kernel), ?_, rfl, ?_, by decide +kernel⟩
  · exact .more hlast rfl (.nil first.2) (.last hend)
  · intro call hcall
    rcases List.mem_pair.mp hcall with rfl | rfl
    · exact ⟨_, rfl, by decide⟩
    · exact ⟨_, rfl, by decide⟩

/-- The first call sends ".", ".." and "a". Then the cache entry expires, and in the new listing
    "c" has gone and "d" has come. Both are behind the offset, so that "b" is where it was: the
    second call sends it, and the third one has nothing left. -/
theorem walk_once_default : ∃ (tr : List Event) (c c' c'' : Call Sample.deps 100),
    (sys Sample.deps).Exec Sample.mount [.request Sample.server (.readdir 1 0 8)] tr c.before ∧
    Walk Sample.deps 100 [c, c', c''] ∧
    c.names = [".", "..", "a"] ∧ c'.names = ["b", "d"] ∧
    c.before.listedNames c.env 100 ≠ c'.before.listedNames c'.env 100 ∧
    ([c, c', c''].flatMap Call.names).count "b" = 1 := by
  let env := Sample.databases "a\nb\nc\n" 0
  let env' := Sample.databases "a\nb\nd\n" (fromMillis 3000)
  let first := Sample.answer Sample.mount (Sample.listedRoot.readdir Sample.deps env 100 0 3)
  let second := Sample.answer Sample.mount (first.2.readdir Sample.deps env' 100 3 4)
  let third := Sample.answer Sample.mount (second.2.readdir Sample.deps env' 100 5 4)
  let c : Call Sample.deps 100 :=
    { env, offset := 0, room := 3, before := Sample.listedRoot, reply := first.1, after := first.2
      room_pos := by decide, small := by decide +kernel
      served := Sample.eq_of_answer (by decide +kernel) }
  let c' : Call Sample.deps 100 :=
    { env := env', offset := 3, room := 4, before := first.2, reply := second.1, after := second.2
      room_pos := by decide, small := by decide +kernel
      served := Sample.eq_of_answer (by decide +kernel) }
  let c'' : Call Sample.deps 100 :=
    { env := env', offset := 5, room := 4, before := second.2, reply := third.1, after := third.2
      room_pos := by decide, small := by decide +kernel
      served := Sample.eq_of_answer (by decide +kernel) }
  have hlast : c.reply.sent.getLast? = some ⟨101, 3, .directory, "a"⟩ := by decide +kernel
  have hlast' : c'.reply.sent.getLast? = some ⟨103, 5, .directory, "d"⟩ := by decide +kernel
  have hend : c''.reply.sent = [] := by decide +kernel
  have hwalk : Walk Sample.deps 100 [c, c', c''] :=
    .more hlast rfl (.nil first.2) (.more hlast' rfl (.nil second.2) (.last hend))
  have hsteady : Steady "b" ([c, c', c''].map Call.page) :=
    .more (by decide +kernel) (.more (by decide +kernel) (.last _))
  exact ⟨_, c, c', c'', Lts.exec_of_isSome (by decide +kernel), hwalk, by decide +kernel,
    by decide +kernel, by decide +kernel, walk_once hwalk rfl (by decide +kernel) hsteady⟩

end Fs
end ClickFs
