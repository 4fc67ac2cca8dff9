/-!
# `error.rs` — the error types and their errnos

Every callback of the file system ends in a reply or in an errno, and the errno is all
the caller of `read(2)` ever sees of an error. `toErrno` is therefore where the kinds of
failure are told apart for good; what is lost here is lost to the user. The errors keep
their texts, since a failed open also writes them to a log and since two of them
(`Server` and `ClickHouse`) differ in nothing but how the text was read.
-/

set_option autoImplicit false

namespace ClickFs

inductive QueryError
  | transport (msg : String)
  /-- An HTTP error response that is not a structured ClickHouse exception. -/
  | server (status : UInt16) (body : String)
  | clickHouse (code : Int32) (name : String) (message : String)
  | auth
  | stream (msg : String)
deriving DecidableEq, Repr

inductive ClickFsError
  | notFound
  | notADir
  | readOnly
  | readOrder (expected got : UInt64)
  | invalidIdentifier (name : String)
  | query (e : QueryError)
  | cancelled
  /-- An `std::io::Error`, of which `to_errno` reads `raw_os_error`. -/
  | io (rawOsError : Option Int32)
  | internal (msg : String)
deriving DecidableEq, Repr

/-- The `libc` constants replies are made of. `os` is for the errno of an `std::io::Error`, which
    is passed through as it comes. -/
inductive Errno
  | enoent | eintr | eio | ebadf | eagain | enomem | eacces | enotdir | eisdir | erofs
  | etimedout | ecanceled
  | os (raw : Int32)
deriving DecidableEq, Repr

/-- Map a ClickHouse error code to a POSIX errno. Defaults to EIO for unknown codes. The tests are
    made in the source's order, but no code stands in two of them. -/
def clickhouseCodeToErrno (code : Int32) : Errno :=
  if code = 60 ∨ code = 81 then .enoent
  else if code = 159 then .etimedout
  else if code = 164 then .erofs
  else if code = 192 ∨ code = 194 then .eacces
  else if code = 202 then .eagain
  else if code = 241 then .enomem
  else if code = 394 then .ecanceled
  else .eio

def ClickFsError.toErrno : ClickFsError → Errno
  | .notFound => .enoent
  | .notADir => .enotdir
  | .readOnly => .erofs
  | .readOrder _ _ => .eio
  | .invalidIdentifier _ => .enoent
  | .cancelled => .eintr
  | .io (some raw) => .os raw
  | .io none => .eio
  | .query (.transport _) => .eio
  | .query (.server status _) =>
    if status = 401 ∨ status = 403 then .eacces else if status = 404 then .enoent else .eio
  | .query (.clickHouse code _ _) => clickhouseCodeToErrno code
  | .query .auth => .eacces
  | .query (.stream _) => .eio
  | .internal _ => .eio

end ClickFs
