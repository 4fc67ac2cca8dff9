import Mathlib.Algebra.Order.Ring.Int
import Mathlib.Data.List.DropRight

/-!
# Rust's strings

The `str` methods that look for line endings, affixes and white space, and the bytes of an
`OsStr`. A string is worked on as its list of characters, because everything the program
does to its strings is done character by character from one end. `isWhitespace` is the
Unicode property that Rust's `trim` asks for, which has more members than the one Lean's
own `Char.isWhitespace` knows.

`lines_body` is what a program that writes one value to a line and one that reads it
back with `lines` agree on: the values come back when none of them holds a line ending.
The two theorems after it say how that fails, for values that do.
-/

set_option autoImplicit false

namespace Rust

/-! ## Lines -/

/-- What is left of a line when the `\r` before its `\n` goes too. `str::lines` takes one carriage
    return at most. -/
def stripCr (line : List Char) : List Char :=
  if line.getLast? = some '\r' then line.dropLast else line

/-- The lines among the parts between newlines: all but the last part were ended by a
    newline, and the last one is a line when something is left there. -/
def linesOfParts : List (List Char) → List (List Char)
  | [] => []
  | [part] => if part = [] then [] else [part]
  | part :: parts => stripCr part :: linesOfParts parts

/-- `str::lines` -/
def lines (s : String) : List String :=
  (linesOfParts (s.toList.splitOn '\n')).map String.ofList

/-- Values one to a line, each line ended. -/
def body (values : List String) : String :=
  String.ofList (values.flatMap fun v => v.toList ++ ['\n'])

/-- A value that stays on its line: it has no newline, and no carriage return that would be taken
    for half of one. -/
structure OneLine (value : String) : Prop where
  noLf : '\n' ∉ value.toList
  noCr : '\r' ∉ value.toList

theorem stripCr_eq_self {line : List Char} (h : line.getLast? ≠ some '\r') : stripCr line = line :=
  if_neg h

theorem linesOfParts_append {parts : List (List Char)} (front : List (List Char))
    (h : parts ≠ []) : linesOfParts (front ++ parts) = front.map stripCr ++ linesOfParts parts := by
  induction front with
  | nil => rfl
  | cons part front ih =>
    have hne : front ++ parts ≠ [] := List.append_ne_nil_of_right_ne_nil _ h
    rw [List.cons_append, List.map_cons, List.cons_append, ← ih]
    cases hfront : front ++ parts with
    | nil => exact absurd hfront hne
    | cons => rfl

/-- A value is the lines it has within it. The general form of `lines_body`, for values that are
    not `OneLine`. -/
theorem lines_body_eq (values : List String) :
    lines (body values)
      = values.flatMap fun v => (v.toList.splitOn '\n').map fun part => String.ofList (stripCr part) := by
  rw [lines, body, String.toList_ofList]
  induction values with
  | nil => rfl
  | cons v values ih =>
    rw [List.flatMap_cons, List.append_assoc, List.singleton_append, List.splitOn_append_cons_self,
      linesOfParts_append _ (List.splitOn_ne_nil _ _), List.map_append, List.map_map, ih,
      List.flatMap_cons]
    rfl

theorem not_mem_of_mem_splitOn {α : Type*} [BEq α] [LawfulBEq α] {a : α} {xs : List α} :
    ∀ part ∈ xs.splitOn a, a ∉ part := by
  induction xs with
  | nil => simp
  | cons x xs ih =>
    intro part hpart
    rw [List.splitOn_cons_eq_if_modifyHead] at hpart
    split at hpart
    · rcases List.mem_cons.mp hpart with rfl | hpart
      · exact List.not_mem_nil
      · exact ih part hpart
    · rename_i hx
      cases hsplit : xs.splitOn a with
      | nil => exact absurd hsplit (List.splitOn_ne_nil _ _)
      | cons first rest =>
        rw [hsplit] at hpart ih
        rcases List.mem_cons.mp hpart with rfl | hpart
        · intro hmem
          rcases List.mem_cons.mp hmem with rfl | hmem
          · exact hx BEq.rfl
          · exact ih first List.mem_cons_self hmem
        · exact ih part (List.mem_cons_of_mem _ hpart)

theorem length_le_lines_body (values : List String) :
    values.length ≤ (lines (body values)).length := by
  rw [lines_body_eq]
  induction values with
  | nil => exact Nat.le_refl _
  | cons v values ih =>
    have := List.length_pos_iff.mpr (List.splitOn_ne_nil '\n' v.toList)
    rw [List.flatMap_cons, List.length_append, List.length_map, List.length_cons]
    omega

/-- A body has as many lines as values exactly when no value has a newline in it. -/
theorem length_lines_body {values : List String} :
    (lines (body values)).length = values.length ↔ ∀ v ∈ values, '\n' ∉ v.toList := by
  have hone (v : String) : (v.toList.splitOn '\n').length = 1 ↔ '\n' ∉ v.toList := by
    constructor
    · intro hlen
      obtain ⟨part, hpart⟩ := List.length_eq_one_iff.mp hlen
      have hjoin : ['\n'].intercalate (v.toList.splitOn '\n') = v.toList :=
        List.intercalate_splitOn '\n'
      rw [hpart, List.intercalate_singleton] at hjoin
      rw [← hjoin]
      exact not_mem_of_mem_splitOn part (by rw [hpart]; exact List.mem_singleton_self part)
    · intro hv
      rw [List.splitOn_eq_singleton hv, List.length_singleton]
  induction values with
  | nil => rw [lines_body_eq]; simp
  | cons v values ih =>
    have hmore := length_le_lines_body values
    have hpos := List.length_pos_iff.mpr (List.splitOn_ne_nil '\n' v.toList)
    rw [lines_body_eq] at ih hmore ⊢
    rw [List.flatMap_cons, List.length_append, List.length_map, List.length_cons,
      List.forall_mem_cons]
    constructor
    · intro hlen
      exact ⟨(hone v).mp (by omega), ih.mp (by omega)⟩
    · rintro ⟨hv, hvs⟩
      rw [(hone v).mpr hv, ih.mpr hvs, Nat.add_comm]

theorem lines_body_of {values : List String}
    (h : ∀ v ∈ values, '\n' ∉ v.toList ∧ v.toList.getLast? ≠ some '\r') :
    lines (body values) = values := by
  rw [lines_body_eq]
  induction values with
  | nil => rfl
  | cons v values ih =>
    obtain ⟨hlf, hcr⟩ := h v List.mem_cons_self
    rw [List.flatMap_cons, ih fun w hw => h w (List.mem_cons_of_mem _ hw),
      List.splitOn_eq_singleton hlf, List.map_singleton, stripCr_eq_self hcr, String.ofList_toList,
      List.singleton_append]

theorem lines_body {values : List String} (h : ∀ v ∈ values, OneLine v) :
    lines (body values) = values :=
  lines_body_of fun v hv => ⟨(h v hv).noLf, fun hcr => (h v hv).noCr (List.mem_of_getLast? hcr)⟩

example : lines "a\r\n\nb" = ["a", "", "b"] := by decide

/-! ## Affixes and white space -/

/-- `str::strip_suffix` -/
def stripSuffix (s suffix : String) : Option String :=
  if suffix.toList.isSuffixOf s.toList then
    some (String.ofList (s.toList.take (s.toList.length - suffix.toList.length)))
  else none

theorem stripSuffix_eq_some {s suffix rest : String} :
    stripSuffix s suffix = some rest ↔ s = rest ++ suffix := by
  rw [stripSuffix, Option.ite_none_right_eq_some, Option.some.injEq, List.isSuffixOf_iff_suffix]
  constructor
  · rintro ⟨⟨pre, hpre⟩, rfl⟩
    apply String.toList_inj.mp
    rw [String.toList_append, String.toList_ofList, ← hpre]
    simp
  · intro h
    subst h
    rw [String.toList_append]
    exact ⟨List.suffix_append .., by simp⟩

theorem stripSuffix_append (rest suffix : String) :
    stripSuffix (rest ++ suffix) suffix = some rest := stripSuffix_eq_some.mpr rfl

/-- `char::is_whitespace`: Unicode's `White_Space` -/
def isWhitespace (c : Char) : Bool :=
  let n := c.toNat
  (0x9 ≤ n && n ≤ 0xD) || n == 0x20 || n == 0x85 || n == 0xA0 || n == 0x1680
    || (0x2000 ≤ n && n ≤ 0x200A) || n == 0x2028 || n == 0x2029 || n == 0x202F || n == 0x205F
    || n == 0x3000

/-- `str::trim` -/
def trim (s : String) : String :=
  String.ofList ((s.toList.dropWhile isWhitespace).rdropWhile isWhitespace)

/-- `str::trim_end` -/
def trimEnd (s : String) : String := String.ofList (s.toList.rdropWhile isWhitespace)

/-- `s.trim_end_matches(c)` -/
def trimEndMatches (c : Char) (s : String) : String := String.ofList (s.toList.rdropWhile (· == c))

/-- Nothing but white space. -/
def Blank (s : String) : Prop := ∀ c ∈ s.toList, isWhitespace c = true

instance (s : String) : Decidable (Blank s) :=
  decidable_of_iff (s.toList.all isWhitespace = true) List.all_eq_true

theorem trim_eq_self {s : String} :
    trim s = s ↔ (∀ c cs, s.toList = c :: cs → isWhitespace c = false) ∧
      ∀ cs c, s.toList = cs ++ [c] → isWhitespace c = false := by
  have hiff : trim s = s ↔ s.toList.dropWhile isWhitespace = s.toList ∧
      s.toList.rdropWhile isWhitespace = s.toList := by
    rw [trim, ← String.toList_inj, String.toList_ofList]
    constructor
    · intro h
      have hpre := List.rdropWhile_prefix isWhitespace (s.toList.dropWhile isWhitespace)
      have hsuf := List.dropWhile_suffix (l := s.toList) isWhitespace
      have hdrop := hsuf.eq_of_length_le (by rw [h] at hpre; exact hpre.length_le)
      rw [hdrop] at h
      exact ⟨hdrop, h⟩
    · rintro ⟨hdrop, hrdrop⟩
      rw [hdrop, hrdrop]
  rw [hiff]
  refine and_congr ?_ ?_
  · cases s.toList with
    | nil => simp
    | cons c cs => simp [List.dropWhile_eq_self_iff]
  · rcases List.eq_nil_or_concat s.toList with hnil | ⟨cs, c, hcs⟩
    · simp [hnil]
    · simp [hcs]

/-- White space goes, and nothing else: a text that has none at its own ends comes back from
    between any two blanks. -/
theorem trim_append {pre s post : String} (hpre : Blank pre) (hs : trim s = s)
    (hpost : Blank post) : trim (pre ++ s ++ post) = s := by
  rw [trim, String.toList_append, String.toList_append, List.append_assoc,
    List.dropWhile_append_of_pos hpre]
  cases hl : s.toList with
  | nil =>
    rw [List.nil_append, List.dropWhile_eq_nil_iff.mpr hpost, List.rdropWhile_nil]
    exact (String.toList_eq_nil_iff.mp hl).symm
  | cons c cs =>
    have hc := (trim_eq_self.mp hs).1 c cs hl
    rw [List.cons_append, List.dropWhile_cons_of_neg (by simp [hc]), ← List.cons_append, ← hl]
    have hlast : s.toList.rdropWhile isWhitespace = s.toList := by
      rw [List.rdropWhile_eq_self_iff]
      intro hne
      have := (trim_eq_self.mp hs).2 _ _ (List.dropLast_concat_getLast hne).symm
      simp [this]
    rw [List.rdropWhile, List.reverse_append,
      List.dropWhile_append_of_pos fun c hc => hpost c (List.mem_reverse.mp hc)]
    exact (congrArg String.ofList hlast).trans String.ofList_toList

theorem trimEndMatches_eq_self {c : Char} {s : String} (h : s.toList.getLast? ≠ some c) :
    trimEndMatches c s = s := by
  have hself : s.toList.rdropWhile (· == c) = s.toList := by
    rw [List.rdropWhile_eq_self_iff]
    intro hne
    rw [List.getLast?_eq_some_getLast hne, ne_eq, Option.some.injEq] at h
    simp [h]
  rw [trimEndMatches, hself, String.ofList_toList]

/-! ## `OsStr` -/

/-- A file name as the kernel passes it: bytes, which need not be UTF-8. -/
abbrev OsStr := ByteArray

/-- `OsStr::to_str` -/
def toStr (name : OsStr) : Option String := String.fromUTF8? name

@[simp] theorem toStr_toUTF8 (s : String) : toStr s.toUTF8 = some s := by
  rw [toStr, String.fromUTF8?, String.toUTF8_eq_toByteArray, dif_pos s.isValidUTF8]
  rfl

theorem toStr_eq_some {name : OsStr} {s : String} : toStr name = some s ↔ name = s.toUTF8 := by
  constructor
  · intro h
    rw [toStr, String.fromUTF8?] at h
    split at h
    · cases h
      rfl
    · cases h
  · rintro rfl
    exact toStr_toUTF8 s

end Rust
