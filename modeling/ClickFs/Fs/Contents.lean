import ClickFs.Fs.Documents
import ClickFs.Stream.Forward

/-!
# What a program reads that reads a file front to back

`cat` opens the file, reads it where it left off, and stops at the first empty read.
Between its requests the table of open files has other things to do, the task moves
when it likes, and a read waits through any schedule. None of that is in what it gets:
the replies are those of the cursor over the response to the file's own statement.

What makes it so is that a read at the position never starts the tail. So the document the
file is stays a plain cursor (`readsFrom_of_inOrder`), one read after the other.
-/

set_option autoImplicit false

namespace ClickFs

open Rust Driver

namespace Stream

/-! ## A cursor read to its end -/

namespace Cursor

/-- Where the cursor is after some reads. -/
def after (c : Cursor) : List Nat → Cursor
  | [] => c
  | n :: ns => (c.read n).2.after ns

theorem replies_append (c : Cursor) (ms ns : List Nat) :
    c.replies (ms ++ ns) = c.replies ms ++ (c.after ms).replies ns := by
  induction ms generalizing c with
  | nil => rfl
  | cons m ms ih => simp only [List.cons_append, replies, after, ih]

@[simp] theorem length_replies (c : Cursor) (ns : List Nat) :
    (c.replies ns).length = ns.length := by
  induction ns generalizing c with
  | nil => rfl
  | cons n ns ih => simp only [replies, List.length_cons, ih]

@[simp] theorem after_content (c : Cursor) (ns : List Nat) : (c.after ns).content = c.content := by
  induction ns generalizing c with
  | nil => rfl
  | cons n ns ih => rw [after, ih, read_content]

/-- What some reads at the cursor have returned is what the cursor has passed, in the content. -/
theorem take_replies (c : Cursor) (ns : List Nat) :
    c.content.take c.off ++ (c.replies ns).flatMap ReadReply.bytes
      = c.content.take (c.after ns).off := by
  induction ns generalizing c with
  | nil => simp [replies, after]
  | cons n ns ih =>
    have ih := ih (c.read n).2
    rw [read_content, ← c.take_read n, List.append_assoc] at ih
    rw [replies, List.flatMap_cons, after, ih]

theorem off_after (c : Cursor) (ns : List Nat) :
    (c.after ns).off = c.off + ((c.replies ns).flatMap ReadReply.bytes).length := by
  have h := congrArg List.length (c.take_replies ns)
  have hle := (c.after ns).off_le
  have hle₀ := c.off_le
  rw [after_content] at hle
  rw [List.length_append, List.length_take, List.length_take, Nat.min_eq_left hle,
    Nat.min_eq_left hle₀] at h
  exact h.symm

/-- An error that was met has not been handed out. This is what a reader keeps by stopping at the
    first error. -/
def Fresh (c : Cursor) : Prop := c.drained = true → ∀ e, c.ending = .failed e → c.err ≠ none

theorem Fresh.start (content : List UInt8) (ending : Ending) : Fresh (.start content ending) :=
  fun h => by cases h

theorem Fresh.read {c : Cursor} (h : c.Fresh) {n : Nat} {out : List UInt8}
    (hok : (c.read n).1 = .ok out) : (c.read n).2.Fresh := by
  obtain ⟨r, c', hr, hcase⟩ := read_case c n
  rw [hr] at hok ⊢
  cases hcase with
  | reports | fails => cases hok
  | meetsEof _ _ _ hend =>
    intro _ e he
    have he : c.ending = .failed e := he
    rw [hend] at he
    cases he
  | meetsErr _ _ _ hend _ =>
    intro _ e he
    simp [meet]
  | advances herr _ =>
    intro hd e he
    exact absurd herr (h hd e he)

/-- The first empty reply to a reader that has seen no error is the end of a response
    that has ended well, and everything has been returned. -/
theorem eof_of_empty {c : Cursor} {ms : List Nat} {n : Nat} (hfresh : c.Fresh)
    (hok : ∀ r ∈ c.replies ms, ∃ out, r = .ok out) (hn : 0 < n)
    (hempty : ((c.after ms).read n).1 = .ok []) :
    (c.after ms).off = c.content.length ∧ c.ending = .eof := by
  induction ms generalizing c with
  | nil =>
    have hempty : (c.read n).1 = .ok [] := hempty
    obtain ⟨hout, _⟩ := read_ok hempty
    have hlen := congrArg List.length hout
    rw [pread_length, List.length_nil] at hlen
    have hle := c.off_le
    refine ⟨by show c.off = _; omega, ?_⟩
    cases hend : c.ending with
    | eof => rfl
    | failed e =>
      obtain ⟨hd, herr⟩ := (read_empty_iff hend hn).mp hempty
      exact absurd herr (hfresh hd e hend)
  | cons m ms ih =>
    obtain ⟨out, hout⟩ := hok _ List.mem_cons_self
    have ih := ih (hfresh.read hout) (fun r hr => hok r (List.mem_cons_of_mem _ hr)) hempty
    rw [read_content, read_ending] at ih
    exact ih

end Cursor

end Stream
namespace Fs

/-! ## Reads front to back -/

def Reply.bytes : Reply → List UInt8
  | .data bytes => bytes
  | _ => []

/-- Each read is at the end of what has been returned, `n` bytes of it before the first. A
    condition on what the program asks for, with the replies it has had. -/
def InOrder : Nat → List FileRead → Prop
  | _, [] => True
  | n, r :: rs => r.offset.toInt = n ∧ InOrder (n + r.reply.bytes.length) rs

instance decidableInOrder : ∀ (n : Nat) (rs : List FileRead), Decidable (InOrder n rs)
  | _, [] => .isTrue trivial
  | n, r :: rs =>
    have := decidableInOrder (n + r.reply.bytes.length) rs
    inferInstanceAs (Decidable (_ ∧ _))

@[simp] theorem bytes_streamReply (r : Stream.ReadReply) : (streamReply r).bytes = r.bytes := by
  cases r <;> rfl

/-- The offset of a read in order, as `read_blocking` gets it. Offsets are signed on the way in
    and unsigned from there on. -/
theorem offset_of_toInt {offset : Int64} {n : Nat} (h : offset.toInt = n) :
    (max offset 0).toUInt64 = UInt64.ofNat n := by
  have hle : (0 : Int64) ≤ offset := by
    rw [Int64.le_iff_toInt_le, h]
    exact Int.natCast_nonneg n
  have hmax : max offset 0 = offset := by
    show (if offset ≤ 0 then 0 else offset) = offset
    split
    · rename_i hge
      have hzero : offset.toInt = 0 := by
        rw [Int64.le_iff_toInt_le] at hle hge
        exact Int.le_antisymm hge hle
      exact (Int64.toInt_inj.mp hzero).symm
    · rfl
  have hofInt : offset = Int64.ofNat n := by
    rw [← Int64.ofInt_toInt offset, h]
    rfl
  rw [hmax, hofInt]
  exact Int64.toUInt64_ofNat'

def returned (rs : List FileRead) : List UInt8 := rs.flatMap fun r => r.reply.bytes

def sizes (rs : List FileRead) : List Nat := rs.map fun r => r.size.toNat

/-- The reads are those of a cursor that begins at `c`. -/
def ReadsFrom (c : Stream.Cursor) (rs : List FileRead) : Prop :=
  rs.map FileRead.reply = (c.replies (sizes rs)).map streamReply

theorem ReadsFrom.returned_eq {c : Stream.Cursor} {rs : List FileRead} (h : ReadsFrom c rs) :
    returned rs = (c.replies (sizes rs)).flatMap Stream.ReadReply.bytes := by
  have hflat : returned rs = (rs.map FileRead.reply).flatMap Reply.bytes := by
    rw [List.flatMap_map]
    rfl
  rw [hflat, h, List.flatMap_map]
  congr 1
  funext r
  exact bytes_streamReply r

variable {d : Deps} {fs fs' : Fs} {fh : UInt64} {up : Stream.Upstream} {c : Stream.Cursor}

/-! ## Reads in order leave the tail alone -/

/-- A read at the position is the cursor's, as long as there is no tail. And it does not start
    one, since it is not far ahead. -/
theorem Gives.atPos {A : Except QueryError Stream.Bytes → Prop} {D D' : Stream.Document}
    {r : FileRead} (h : Gives A D r D') (hnone : D.tail = none)
    (hpos : r.offset.toInt = D.cursor.off) :
    r.reply = streamReply (D.cursor.read r.size.toNat).1 ∧
      D' = { D with cursor := (D.cursor.read r.size.toNat).2 } := by
  obtain ⟨reply, hreply, D₁, hseeks, hserve⟩ := h
  have hoffset : r.ask.1 = D.pos := offset_of_toInt hpos
  have hstays : D₁ = D := by
    cases hseeks with
    | stays => rfl
    | fetches hwants =>
      rw [Stream.Document.wants, Bool.and_eq_true, decide_eq_true_eq, hoffset] at hwants
      omega
  have hseq : D.sequential r.ask.1 = true := by
    simp [Stream.Document.sequential, Stream.Document.window, hnone, hoffset]
  rw [hstays, Stream.Document.serve, if_pos hseq] at hserve
  obtain ⟨hr, hD⟩ := Prod.mk.inj hserve
  exact ⟨hreply.trans (congrArg streamReply hr.symm), hD.symm⟩

/-- Reads in order are those of the cursor, all of them, as long as the document has no tail
    before the first. -/
theorem readsFrom_of_inOrder {A : Except QueryError Stream.Bytes → Prop}
    {D D' : Stream.Document} {rs : List FileRead} (h : Lts.Reads (Gives A) D rs D')
    (hnone : D.tail = none) (horder : InOrder D.cursor.off rs) : ReadsFrom D.cursor rs := by
  induction h with
  | nil D => rfl
  | @cons D D₁ D' r rs head tail ih =>
    obtain ⟨hreply, rfl⟩ := head.atPos hnone horder.1
    have hoff : (D.cursor.read r.size.toNat).2.off
        = D.cursor.off + r.reply.bytes.length := by
      have hafter := D.cursor.off_after [r.size.toNat]
      simpa [Stream.Cursor.after, Stream.Cursor.replies, hreply] using hafter
    have hrest := ih hnone (by rw [hoff]; exact horder.2)
    unfold ReadsFrom at hrest ⊢
    rw [List.map_cons, hreply, hrest]
    rfl

/-! ## A file is the response to its statement -/

theorem ReadsFrom.split {pre post : List FileRead} {r : FileRead}
    (h : ReadsFrom c (pre ++ r :: post)) :
    ReadsFrom c pre ∧ r.reply = streamReply ((c.after (sizes pre)).read r.size.toNat).1 := by
  unfold ReadsFrom at h
  rw [List.map_append, sizes, List.map_append, Stream.Cursor.replies_append, List.map_append]
    at h
  obtain ⟨hpre, hrest⟩ := List.append_inj h (by simp)
  rw [List.map_cons, List.map_cons, Stream.Cursor.replies, List.map_cons, List.cons.injEq] at hrest
  exact ⟨hpre, hrest.1⟩

/-- What one sees of a response by reading it front to back. -/
structure ReadsAs (up : Stream.Upstream) (rs : List FileRead) : Prop where
  /-- The replies are a function of the response and of the sizes asked for. -/
  replies : ReadsFrom (.start up.bytes up.ending) rs
  /-- What is returned is how the response begins. -/
  content : returned rs <+: up.bytes
  /-- A first empty reply says that this was all of it, and that the server had no error. -/
  whole : ∀ pre r post, rs = pre ++ r :: post → (∀ p ∈ pre, ∃ out, p.reply = .data out) →
    0 < r.size.toNat → r.reply = .data [] → returned pre = up.bytes ∧ up.ending = .eof

theorem ReadsFrom.readsAs {rs : List FileRead} (h : ReadsFrom (.start up.bytes up.ending) rs) :
    ReadsAs up rs := by
  have htake {xs : List FileRead} (hx : ReadsFrom (.start up.bytes up.ending) xs) :
      returned xs = up.bytes.take
        ((Stream.Cursor.start up.bytes up.ending).after (sizes xs)).off := by
    have hbytes := (Stream.Cursor.start up.bytes up.ending).take_replies (sizes xs)
    rw [← hx.returned_eq] at hbytes
    simpa [Stream.Cursor.start] using hbytes
  refine ⟨h, ?_, ?_⟩
  · rw [htake h]
    exact List.take_prefix _ _
  · intro pre r post hrs hdata hsize hempty
    rw [hrs] at h
    obtain ⟨hpre, hr⟩ := h.split
    rw [hempty] at hr
    have hok : ∀ reply ∈ (Stream.Cursor.start up.bytes up.ending).replies (sizes pre),
        ∃ out, reply = .ok out := by
      intro reply hreply
      have hmem : streamReply reply ∈ pre.map FileRead.reply := by
        rw [hpre]
        exact List.mem_map_of_mem hreply
      obtain ⟨p, hp, heq⟩ := List.mem_map.mp hmem
      obtain ⟨out, hout⟩ := hdata p hp
      exact ⟨out, data_of_streamReply (heq.symm.trans hout)⟩
    obtain ⟨hoff, hend⟩ := Stream.Cursor.eof_of_empty (.start _ _) hok hsize
      (data_of_streamReply hr.symm)
    refine ⟨?_, hend⟩
    rw [htake hpre, hoff]
    exact List.take_length

/-- **A data file is the response to its own statement.** In any run of the file system,
    whatever else is read, opened and listed in between and however the task and the
    reads interleave: a descriptor that `open` returned for a data file, read front to
        back, returns how the server's response to the file's statement begins, and an empty
    read comes first when all of it has been returned and there was no error. "Any run" is
    one with fewer opens than there are handles, so that the descriptor is not given out a
    second time. -/
theorem data_file_reads {acts : List Action} {tr tr₁ tr₂ : List Event} {ev : Event}
    {ino : UInt64} {flags : Int32} {path : PathBuf} {plan : QueryPlan} {sql : String}
    (hrun : (sys d).Exec fs acts tr fs')
    (hroom : fs.fhCounter.toNat + acts.countP Action.isOpen < 2 ^ 64)
    (htr : tr = tr₁ ++ ev :: tr₂) (hop : ev.op = .open ino flags) (hopens : ev.Opens fh)
    (hpath : ev.before.inodes.forward ino = some path) (hplan : resolve path = .ok plan)
    (hsql : dataQuery plan = some sql) (hkept : ∀ ev' ∈ tr₂, ev'.op ≠ .release fh)
    (horder : InOrder 0 (tr₂.filterMap (Event.readOn fh))) :
    ReadsAs (ev.env.stream sql) (tr₂.filterMap (Event.readOn fh)) := by
  obtain ⟨D', hreads⟩ := document_of_open hrun hroom htr hop hopens hpath hplan hsql hkept
  exact (readsFrom_of_inOrder hreads rfl horder).readsAs

namespace Sample

/-- The file is read to its end, with another descriptor of it in between. -/
def cat : List Action :=
  [.request sending (.open 7 0), .background 1 [.connect, .enterSelect, .next],
    .request sending (.read 1 0 2 [.check 0, .serve 0, .send, .recv 0, .finish 0]),
    .request server (.open 7 0), .request server (.read 2 0 9 [.connect, .check 0, .serve 0, .send,
      .recv 0, .finish 0]),
    .request server (.read 1 2 2 [.check 0, .serve 0, .enterSelect, .next, .send, .recv 0,
      .enterSelect, .next, .recv 0, .finish 0]),
    .request server (.read 1 3 2 [.check 0, .serve 0, .finish 0])]

end Sample

theorem data_file_reads_cat : ∃ ev tr₂ fs',
    (sys Sample.deps).Exec Sample.stored Sample.cat (ev :: tr₂) fs' ∧
    ReadsAs (ev.env.stream (sqlStreamAll "default" "events"))
      (tr₂.filterMap (Event.readOn 1)) := by
  have hrun : (sys Sample.deps).Exec Sample.stored Sample.cat _ _ :=
    Lts.exec_of_isSome (by decide +kernel)
  refine ⟨_, _, _, hrun, ?_⟩
  refine data_file_reads hrun (by decide) (List.nil_append _).symm rfl ⟨rfl, _, rfl⟩ rfl rfl rfl ?_
    (by decide +kernel)
  have hkept : ∀ ev ∈ ((sys Sample.deps).trace Sample.stored Sample.cat).tail,
      ev.op ≠ .release 1 := by decide +kernel
  exact hkept

end Fs
end ClickFs
