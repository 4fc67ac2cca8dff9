import ClickFs.Error
import ClickFs.Lib.Find
import ClickFs.Lib.Parse

/-!
# `error.rs` — ClickHouse exceptions

A server says what went wrong in a header (`X-ClickHouse-Exception-Code`) or in the text of
its answer. `Carries` says which code an answer carries, and `parseClickhouseError` finds
that code and no other (`parse_iff_carries`). The header goes first by design: an older
server, or a proxy in between, leaves it out, and only then is the text looked at.

The text is `ServerText`: what a server writes around the message. The message is anything
a server may say, so it may have the three marks of the text in it (`Code:`,
`DB::Exception:` and `(version`), as the exception of another server passed on does. The
parser takes the first of the former two and the last of the latter, and that is what makes
it undo the text all the same (`parseClickhouseError_text`): the marks the server itself
wrote stand outside the message, on either side of it.
-/

set_option autoImplicit false

namespace ClickFs

open Rust

/-- Map a known ClickHouse error code to a short canonical name. -/
def clickhouseCodeName (code : Int32) : String :=
  if code = 60 then "UNKNOWN_TABLE"
  else if code = 81 then "UNKNOWN_DATABASE"
  else if code = 159 then "TIMEOUT_EXCEEDED"
  else if code = 164 then "READONLY"
  else if code = 192 then "AUTHENTICATION_FAILED"
  else if code = 194 then "WRONG_PASSWORD"
  else if code = 202 then "TOO_MANY_SIMULTANEOUS_QUERIES"
  else if code = 241 then "MEMORY_LIMIT_EXCEEDED"
  else if code = 394 then "QUERY_WAS_CANCELLED"
  else "UNKNOWN"

/-- Drops the trailing `(version ...)` suffix ClickHouse likes to add. -/
def cleanMessage (s : String) : String :=
  let s := trim s
  let s :=
    match rfind s " (version" with
    | some i => sliceTo s i
    | none => s
  trim (trimEndMatches '.' s)

/-- The digits a text begins with, after white space. `char::is_ascii_digit` is Lean's
    `Char.isDigit`. -/
def leadingDigits (s : String) : List Char :=
  (s.toList.dropWhile isWhitespace).takeWhile Char.isDigit

/-- Everything after `DB::Exception:` is the message, or everything from `idx` where that is
    absent. -/
def messageFrom (body : String) (idx : Nat) : String :=
  let msgStart := ((find body "DB::Exception:").map (· + "DB::Exception:".length)).getD idx
  cleanMessage (sliceFrom body msgStart)

/-- Two sources, in order: the header, whose message is the whole body, and the body, as `Code:
    NNN. DB::Exception: <msg>`. A `Code:` without a number that fits ends the search; a later one
    is not tried. -/
def parseClickhouseError (headerCode : Option String) (body : String) :
    Option (Int32 × String) :=
  match headerCode.bind fun s => parseI32 (trim s) with
  | some code => some (code, cleanMessage body)
  | none => do
    let idx ← find body "Code:"
    let after := sliceFrom body (idx + "Code:".length)
    let code ← parseI32 (String.ofList (leadingDigits after))
    some (code, messageFrom body idx)

/-! ## The code an answer carries -/

/-- The header is no integer, or there is none. A header that does not parse counts as absent, and
    the body decides. -/
def NoHeaderCode (headerCode : Option String) : Prop :=
  ∀ s, headerCode = some s → parseI32 (trim s) = none

inductive Carries (headerCode : Option String) (body : String) : Int32 → Prop
  | header {s : String} {code : Int32} (hheader : headerCode = some s)
      (hcode : parseI32 (trim s) = some code) : Carries headerCode body code
  /-- the number behind the first `Code:` -/
  | body {pre blank rest : String} {digits : List Char} {n : Nat}
      (hheader : NoHeaderCode headerCode)
      (hbody : body = pre ++ "Code:" ++ (blank ++ String.ofList digits ++ rest))
      (hpre : ¬ Occurs "Code:" pre) (hblank : Blank blank) (hdigits : digitsVal digits = some n)
      (hrest : ∀ c cs, rest.toList = c :: cs → c.isDigit = false) (hn : n < 2 ^ 31) :
      Carries headerCode body (Int32.ofNat n)

theorem headOnce_code : HeadOnce "Code:".toList := ⟨'C', "ode:".toList, by decide, by decide⟩

theorem headOnce_exception : HeadOnce "DB::Exception:".toList :=
  ⟨'D', "B::Exception:".toList, by decide, by decide⟩

theorem headOnce_version : HeadOnce " (version".toList :=
  ⟨' ', "(version".toList, by decide, by decide⟩

theorem bind_eq_none_of_noHeaderCode {headerCode : Option String} (h : NoHeaderCode headerCode) :
    (headerCode.bind fun s => parseI32 (trim s)) = none := by
  cases headerCode with
  | none => rfl
  | some s => rw [Option.bind_some, h s rfl]

theorem isWhitespace_of_isDigit {c : Char} (h : c.isDigit) : isWhitespace c = false := by
  obtain ⟨hlo, hhi⟩ := Char.isDigit_iff_toNat.mp h
  rw [show '0'.toNat = 48 by decide] at hlo
  rw [show '9'.toNat = 57 by decide] at hhi
  rw [← Bool.not_eq_true]
  intro hws
  simp only [isWhitespace, Bool.or_eq_true, Bool.and_eq_true, decide_eq_true_eq, beq_iff_eq] at hws
  omega

/-- White space and digits are read up to the first character that is no digit, which is how the
    number ends in front of its full stop. -/
theorem leadingDigits_append {blank rest : String} {digits : List Char} {n : Nat}
    (hblank : Blank blank) (hdigits : digitsVal digits = some n)
    (hrest : ∀ c cs, rest.toList = c :: cs → c.isDigit = false) :
    leadingDigits (blank ++ String.ofList digits ++ rest) = digits := by
  obtain ⟨hne, hall, -⟩ := digitsVal_eq_some.mp hdigits
  have hskip : ((blank ++ String.ofList digits ++ rest).toList).dropWhile isWhitespace
      = digits ++ rest.toList := by
    rw [String.toList_append, String.toList_append, String.toList_ofList, List.append_assoc,
      List.dropWhile_append_of_pos hblank]
    cases digits with
    | nil => exact absurd rfl hne
    | cons d ds =>
      have := isWhitespace_of_isDigit (hall d List.mem_cons_self)
      rw [List.cons_append, List.dropWhile_cons_of_neg (by simp [this])]
  rw [leadingDigits, hskip, List.takeWhile_append_of_pos hall]
  cases hl : rest.toList with
  | nil => simp
  | cons c cs => simp [hrest c cs hl]

/-- Without a code in the header it is the number behind the first `Code:`. What stands before
    that mark must not hold it, and nothing is asked of what comes after. -/
theorem parseClickhouseError_body {headerCode : Option String} {pre after : String}
    (h : NoHeaderCode headerCode) (hpre : ¬ Occurs "Code:" pre) :
    parseClickhouseError headerCode (pre ++ "Code:" ++ after) =
      (parseI32 (String.ofList (leadingDigits after))).map fun code =>
        (code, messageFrom (pre ++ "Code:" ++ after) pre.toList.length) := by
  rw [parseClickhouseError, bind_eq_none_of_noHeaderCode h]
  simp only [find_append headOnce_code hpre, bind, Option.bind_some, sliceFrom_past]
  rw [Option.map_eq_bind]
  rfl

/-- What was read behind the mark, and what is left behind it: blanks, the digits, and a rest that
    does not go on with one. -/
theorem leadingDigits_split (after : String) :
    ∃ blank rest, after = blank ++ String.ofList (leadingDigits after) ++ rest ∧ Blank blank ∧
      (∀ c ∈ leadingDigits after, c.isDigit) ∧
      ∀ c cs, rest.toList = c :: cs → c.isDigit = false := by
  let tail := after.toList.dropWhile isWhitespace
  refine ⟨String.ofList (after.toList.takeWhile isWhitespace),
    String.ofList (tail.dropWhile Char.isDigit), ?_, ?_, ?_, ?_⟩
  · apply String.toList_inj.mp
    rw [String.toList_append, String.toList_append, String.toList_ofList, String.toList_ofList,
      String.toList_ofList, List.append_assoc, leadingDigits, List.takeWhile_append_dropWhile,
      List.takeWhile_append_dropWhile]
  · intro c hc
    rw [String.toList_ofList] at hc
    exact List.mem_takeWhile_imp hc
  · intro c hc
    exact List.mem_takeWhile_imp hc
  · intro c cs hl
    rw [String.toList_ofList] at hl
    have := List.head?_dropWhile_not Char.isDigit tail
    rw [hl] at this
    simpa using this

section

variable {headerCode : Option String} {body msg : String} {code : Int32}

theorem carries_of_parse (h : parseClickhouseError headerCode body = some (code, msg)) :
    Carries headerCode body code := by
  cases hheader : headerCode.bind fun s => parseI32 (trim s) with
  | some code' =>
    rw [parseClickhouseError, hheader] at h
    obtain ⟨s, hs, hcode⟩ := Option.bind_eq_some_iff.mp hheader
    cases h
    exact .header hs hcode
  | none =>
    have hno : NoHeaderCode headerCode := fun s hs => by
      rw [hs, Option.bind_some] at hheader
      exact hheader
    cases hfind : find body "Code:" with
    | none =>
      rw [parseClickhouseError, hheader] at h
      simp [hfind] at h
    | some i =>
      obtain ⟨pre, after, rfl, hpre, -⟩ := (find_eq_some headOnce_code).mp hfind
      obtain ⟨blank, rest, hafter, hblank, hall, hrest⟩ := leadingDigits_split after
      rw [parseClickhouseError_body hno hpre, parseI32_digits hall] at h
      obtain ⟨_, hcode, hpair⟩ := Option.map_eq_some_iff.mp h
      obtain ⟨n, hn, hrange⟩ := Option.bind_eq_some_iff.mp hcode
      rw [Option.ite_none_right_eq_some, Option.some.injEq] at hrange
      obtain ⟨hlt, rfl⟩ := hrange
      cases hpair
      exact .body hno (by rw [← hafter]) hpre hblank hn hrest hlt

theorem parse_of_carries (h : Carries headerCode body code) :
    ∃ msg, parseClickhouseError headerCode body = some (code, msg) := by
  cases h with
  | @header s code hheader hcode =>
    subst hheader
    rw [parseClickhouseError, Option.bind_some, hcode]
    exact ⟨_, rfl⟩
  | @body pre blank rest digits n hno hbody hpre hblank hdigits hrest hn =>
    subst hbody
    rw [parseClickhouseError_body hno hpre, leadingDigits_append hblank hdigits hrest,
      parseI32_digits (digitsVal_eq_some.mp hdigits).2.1, hdigits, Option.bind_some, if_pos hn]
    exact ⟨_, rfl⟩

/-- **The code that is found is the code the answer carries**, and where it carries none, none is
    found. -/
theorem parse_iff_carries :
    (∃ msg, parseClickhouseError headerCode body = some (code, msg)) ↔
      Carries headerCode body code :=
  ⟨fun ⟨_, h⟩ => carries_of_parse h, parse_of_carries⟩

end

/-! ## The text of an exception -/

/-- What a server writes around a message. The conditions are those under which the message can be
    told from what is around it. -/
structure ServerText where
  pre : String
  code : Nat
  message : String
  version : String
  post : String
  code_lt : code < 2 ^ 31
  pre_code : ¬ Occurs "Code:" pre
  pre_exception : ¬ Occurs "DB::Exception:" pre
  message_ne : message ≠ ""
  message_trim : trim message = message
  message_dot : message.toList.getLast? ≠ some '.'
  version_version : ¬ Occurs "(version" version
  post_blank : Blank post

def ServerText.text (t : ServerText) : String :=
  t.pre ++ "Code: " ++ toString t.code ++ ". DB::Exception: " ++ t.message ++ " (version "
    ++ t.version ++ ")" ++ t.post

/-- White space around a message and its version goes, and nothing of the message. -/
theorem cleanMessage_append {blank message version post : String} (hblank : Blank blank)
    (hne : message ≠ "") (htrim : trim message = message)
    (hdot : message.toList.getLast? ≠ some '.')
    (hversion : ¬ Occurs " (version" (version ++ ")")) (hpost : Blank post) :
    cleanMessage (blank ++ (message ++ " (version" ++ (version ++ ")")) ++ post) = message := by
  have hcore : trim (message ++ " (version" ++ (version ++ ")"))
      = message ++ " (version" ++ (version ++ ")") := by
    rw [trim_eq_self]
    constructor
    · intro c cs hl
      cases hm : message.toList with
      | nil => exact absurd (String.toList_eq_nil_iff.mp hm) hne
      | cons d ds =>
        rw [String.toList_append, String.toList_append, hm, List.append_assoc, List.cons_append,
          List.cons.injEq] at hl
        rw [← hl.1]
        exact (trim_eq_self.mp htrim).1 d ds hm
    · intro cs c hl
      have hend : (message ++ " (version" ++ (version ++ ")")).toList
          = (message.toList ++ " (version".toList ++ version.toList) ++ [')'] := by simp
      rw [hend] at hl
      have hlast := List.singleton_inj.mp (List.append_inj' hl rfl).2
      rw [← hlast]
      decide
  rw [cleanMessage, trim_append hblank hcore hpost, rfind_append headOnce_version hversion]
  simp only
  rw [String.append_assoc, sliceTo_append, trimEndMatches_eq_self hdot, htrim]

/-- The suffix is the last one there is, so `rfind` finds it even when the message quotes a
    version of its own. -/
theorem not_occurs_version {version : String} (h : ¬ Occurs "(version" version) :
    ¬ Occurs " (version" (" " ++ version ++ ")") := by
  intro hin
  have hin : " (version".toList <:+: (' ' :: version.toList) ++ ')' :: [] := by
    simpa [Occurs] using hin
  rcases (infix_append_cons (by decide)).mp hin with hin | hin
  · rcases List.infix_cons_iff.mp hin with hpre | hin
    · exact h (List.cons_prefix_cons.mp hpre).2.isInfix
    · exact h (List.IsInfix.trans ⟨[' '], [], rfl⟩ hin)
  · exact absurd hin (by decide)

theorem not_occurs_exception {pre : String} {digits : List Char}
    (h : ¬ Occurs "DB::Exception:" pre) (hdigits : ∀ c ∈ digits, c.isDigit) :
    ¬ Occurs "DB::Exception:" (pre ++ "Code: " ++ String.ofList digits ++ ". ") := by
  intro hin
  have hin : "DB::Exception:".toList <:+: pre.toList ++ 'C' :: ("ode: ".toList ++ digits ++ ". ".toList) := by
    simpa [Occurs] using hin
  rcases (infix_append_cons (by decide)).mp hin with hin | hin
  · exact h hin
  · -- the mark begins with a letter that is not there
    have hD : 'D' ∈ "ode: ".toList ++ digits ++ ". ".toList := hin.subset (by decide)
    rw [List.mem_append, List.mem_append] at hD
    rcases hD with (hD | hD) | hD
    · exact absurd hD (by decide)
    · exact absurd (hdigits _ hD) (by decide)
    · exact absurd hD (by decide)

/-- **The text of an exception is undone**: the code is read exactly and the message comes
    back unchanged, whatever the message is. -/
theorem parseClickhouseError_text (t : ServerText) {headerCode : Option String}
    (h : NoHeaderCode headerCode) :
    parseClickhouseError headerCode t.text = some (Int32.ofNat t.code, t.message) := by
  have hdigits := digitsVal_toDigits t.code
  have hall := (digitsVal_eq_some.mp hdigits).2.1
  have hcode : t.text = t.pre ++ "Code:" ++ (" " ++ String.ofList (Nat.toDigits 10 t.code)
      ++ (". DB::Exception: " ++ t.message ++ " (version " ++ t.version ++ ")" ++ t.post)) := by
    rw [ServerText.text, Nat.toString_eq_ofList_toDigits]
    apply String.toList_inj.mp
    simp
  have hmsg : t.text = (t.pre ++ "Code: " ++ String.ofList (Nat.toDigits 10 t.code) ++ ". ")
      ++ "DB::Exception:"
      ++ (" " ++ (t.message ++ " (version" ++ (" " ++ t.version ++ ")")) ++ t.post) := by
    rw [ServerText.text, Nat.toString_eq_ofList_toDigits]
    apply String.toList_inj.mp
    simp
  have hread : parseI32 (String.ofList (leadingDigits (" " ++ String.ofList (Nat.toDigits 10 t.code)
      ++ (". DB::Exception: " ++ t.message ++ " (version " ++ t.version ++ ")" ++ t.post))))
      = some (Int32.ofNat t.code) := by
    rw [leadingDigits_append (by decide) hdigits (by simp), parseI32_toDigits t.code_lt]
  have hmessage : messageFrom t.text t.pre.toList.length = t.message := by
    rw [messageFrom, hmsg, find_append headOnce_exception (not_occurs_exception t.pre_exception hall)]
    simp only [Option.map_some, Option.getD_some, sliceFrom_past]
    exact cleanMessage_append (by decide) t.message_ne t.message_trim t.message_dot
      (not_occurs_version t.version_version) t.post_blank
  rw [hcode] at hmessage ⊢
  rw [parseClickhouseError_body h t.pre_code, hread, Option.map_some, hmessage]

/-- What a server says when another one has answered it with an exception: all three marks stand
    in the message too. -/
def receivedException : ServerText where
  pre := "Received from s2:9000. "
  code := 279
  message := "Code: 60. DB::Exception: No table (version 24.8)"
  version := "25.3.2.39 (official build)"
  post := "\n"
  code_lt := by decide
  pre_code := by decide
  pre_exception := by decide
  message_ne := by decide
  message_trim := by decide
  message_dot := by decide
  version_version := by decide
  post_blank := by decide

theorem parseClickhouseError_text_received :
    parseClickhouseError (some "none") receivedException.text
      = some (279, "Code: 60. DB::Exception: No table (version 24.8)") :=
  parseClickhouseError_text receivedException fun s hs => by
    cases hs
    decide

end ClickFs
