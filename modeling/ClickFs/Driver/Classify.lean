import ClickFs.Driver
import ClickFs.Error.Exception

/-!
# `driver.rs` — answers that are errors

`query_text` hands the body of a successful answer on. Any other answer is classified: an
exception it carries comes first, then the status. What a request replies to the kernel is
decided by that class, so an answer that carries a code is reported by its code whatever
its status is, and the status counts only where there is none (`denied_errno`).

That the code goes first matters most for 401 and 403. A server answers with these for
more reasons than a wrong password, and its code says which; so a denied request may well
come out as an I/O error, and that is how the classification is meant. A proxy that denies
access without being a ClickHouse server has no code to send, unless its text happens to
hold something that reads like one.
-/

set_option autoImplicit false

namespace ClickFs
namespace Driver

open Rust

/-- Prefers a structured `ClickHouse` error. Falls back to `auth` for 401/403 with no
    parseable code, and `server` for everything else. -/
def classifyError (status : UInt16) (headerCode : Option String) (body : String) : QueryError :=
  match parseClickhouseError headerCode body with
  | some (code, message) => .clickHouse code (clickhouseCodeName code) message
  | none => if status = 401 ∨ status = 403 then .auth else .server status body

/-- An answer, as far as `query_text` looks at it. -/
structure Response where
  status : UInt16
  headerCode : Option String
  body : String

/-- What `query_text` makes of an answer. Whether it is an error is decided by the status alone: a
    200 with an exception in its body is an answer. -/
def Response.text (r : Response) : Except QueryError String :=
  if 200 ≤ r.status ∧ r.status < 300 then .ok r.body
  else .error (classifyError r.status r.headerCode r.body)

/-- What the kernel is told when a request ends with this answer. -/
def Response.errno (r : Response) : Errno :=
  (ClickFsError.query (classifyError r.status r.headerCode r.body)).toErrno

def mappedCodes : List Int32 := [60, 81, 159, 164, 192, 194, 202, 241, 394]

section

variable {code : Int32}

theorem clickhouseCodeToErrno_of_not_mem (h : code ∉ mappedCodes) :
    clickhouseCodeToErrno code = .eio := by
  simp only [mappedCodes, List.mem_cons, List.not_mem_nil, or_false, not_or] at h
  simp [clickhouseCodeToErrno, h]

/-- The two tables have the same codes: one with a name of its own has an errno of its own, and
    the other way round. -/
theorem clickhouseCodeName_eq_unknown :
    clickhouseCodeName code = "UNKNOWN" ↔ clickhouseCodeToErrno code = .eio := by
  constructor
  · intro h
    apply clickhouseCodeToErrno_of_not_mem
    intro hmem
    have hnamed : mappedCodes.all fun code => clickhouseCodeName code != "UNKNOWN" := by decide
    exact bne_iff_ne.mp (List.all_eq_true.mp hnamed code hmem) h
  · intro h
    by_cases hmem : code ∈ mappedCodes
    · have howned : mappedCodes.all fun code => clickhouseCodeToErrno code != .eio := by decide
      exact absurd h (bne_iff_ne.mp (List.all_eq_true.mp howned code hmem))
    · simp only [mappedCodes, List.mem_cons, List.not_mem_nil, or_false, not_or] at hmem
      simp [clickhouseCodeName, hmem]

end

section

variable {r : Response}

/-- The code comes first, whatever the status. -/
theorem Response.errno_of_carries {code : Int32} (h : Carries r.headerCode r.body code) :
    r.errno = clickhouseCodeToErrno code := by
  obtain ⟨msg, hparse⟩ := parse_iff_carries.mpr h
  rw [Response.errno, classifyError, hparse]
  rfl

/-- Without a code the status decides, and there only 401 and 403 have an errno other than EIO. -/
theorem Response.errno_of_no_code (h : ∀ code, ¬ Carries r.headerCode r.body code) :
    r.errno = if r.status = 401 ∨ r.status = 403 then .eacces
      else if r.status = 404 then .enoent else .eio := by
  have hparse : parseClickhouseError r.headerCode r.body = none := by
    rw [Option.eq_none_iff_forall_ne_some]
    rintro ⟨code, msg⟩ hsome
    exact h code (parse_iff_carries.mp ⟨msg, hsome⟩)
  rw [Response.errno, classifyError, hparse]
  by_cases hdenied : r.status = 401 ∨ r.status = 403
  · simp only [if_pos hdenied]
    rfl
  · simp only [if_neg hdenied]
    rw [ClickFsError.toErrno, if_neg hdenied]

/-- Denied access is never taken for an answer. Which errno it gets is the next theorem. -/
theorem Response.text_of_denied (h : r.status = 401 ∨ r.status = 403) :
    ∃ e, r.text = .error e ∧ (ClickFsError.query e).toErrno = r.errno := by
  have hstatus : ¬ (200 ≤ r.status ∧ r.status < 300) := by
    rcases h with h | h <;> rw [h] <;> decide
  exact ⟨_, if_neg hstatus, rfl⟩

/-- **Denied access** is reported as such when the answer carries no code. With a code it is
    reported by the code, and a code without an errno of its own is an I/O error. -/
theorem denied_errno (h : r.status = 401 ∨ r.status = 403) :
    ((∀ code, ¬ Carries r.headerCode r.body code) → r.errno = .eacces) ∧
      ∀ code, Carries r.headerCode r.body code → code ∉ mappedCodes → r.errno = .eio := by
  constructor
  · intro hno
    rw [Response.errno_of_no_code hno, if_pos h]
  · intro code hcarries hmem
    rw [Response.errno_of_carries hcarries, clickhouseCodeToErrno_of_not_mem hmem]

end

/-- A server without an account for the user. -/
def unauthorized : Response := { status := 401, headerCode := none, body := "" }

theorem denied_errno_unauthorized : unauthorized.errno = .eacces := by
  apply (denied_errno (.inl rfl)).1
  intro code hcarries
  obtain ⟨msg, hparse⟩ := parse_iff_carries.mpr hcarries
  have hnone : parseClickhouseError unauthorized.headerCode unauthorized.body = none := by decide
  rw [hnone] at hparse
  cases hparse

/-- A server that denies access and says why: `ACCESS_DENIED`. -/
def accessDenied : Response :=
  { status := 403, headerCode := some "497", body := "Code: 497. DB::Exception: Not enough privileges" }

theorem accessDenied_is_io_error :
    Carries accessDenied.headerCode accessDenied.body 497 ∧ (497 : Int32) ∉ mappedCodes ∧
      accessDenied.errno ≠ .eacces := by
  refine ⟨.header rfl (by decide), by decide, ?_⟩
  have h : Carries accessDenied.headerCode accessDenied.body 497 := .header rfl (by decide)
  rw [Response.errno_of_carries h]
  decide

end Driver
end ClickFs
