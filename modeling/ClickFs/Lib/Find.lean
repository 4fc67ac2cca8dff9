import Mathlib.Data.List.Infix

/-!
# Rust's searches

`find`, `rfind` and the slices that are taken at what they find. A position is counted in
characters here, while the program counts bytes: what is on either side of a position is the
same text either way, and only that is ever looked at.

To prove what a parser cuts out of a text one has to know where its search stops. A pattern
whose first character comes only once in it cannot overlap itself (`HeadOnce`). Where a text was
put together around such a pattern, the search for it comes back to the place it was put
together at, as long as the piece before it (for `find`) or behind it (for `rfind`) does not
have the pattern itself. Those are `find_append` and `rfind_append`.
-/

set_option autoImplicit false

namespace Rust

/-! ## Occurrences -/

section

variable {α : Type*} {l xs ys pat pre post : List α} {c : α}

/-- An occurrence does not reach across an element it does not have, so a text with a foreign
    element in it can be searched on the two sides by themselves. -/
theorem infix_append_cons (h : c ∉ l) : l <:+: xs ++ c :: ys ↔ l <:+: xs ∨ l <:+: ys := by
  rw [List.infix_append_iff_ne_nil, List.infix_cons_iff]
  constructor
  · rintro (hxs | (hpre | hys) | ⟨l₁, l₂, -, hne, rfl, -, hpre⟩)
    · exact .inl hxs
    · rcases List.prefix_cons_iff.mp hpre with rfl | ⟨t, rfl, -⟩
      · exact .inl List.nil_infix
      · exact absurd List.mem_cons_self h
    · exact .inr hys
    · rcases List.prefix_cons_iff.mp hpre with rfl | ⟨t, rfl, -⟩
      · exact absurd rfl hne
      · exact absurd (List.mem_append_right _ List.mem_cons_self) h
  · rintro (hxs | hys)
    · exact .inl hxs
    · exact .inr (.inl (.inr hys))

/-- The first element comes nowhere else in the pattern. Such a pattern has no border, and that is
    all the searches below need to know of it. -/
def HeadOnce (pat : List α) : Prop := ∃ a as, pat = a :: as ∧ a ∉ as

theorem HeadOnce.ne_nil (h : HeadOnce pat) : pat ≠ [] := by
  obtain ⟨a, as, rfl, -⟩ := h
  exact List.cons_ne_nil a as

/-- Two occurrences do not overlap: one that begins after the first element of another lies behind
    it. -/
theorem HeadOnce.infix_tail_append (h : HeadOnce pat) (hin : pat <:+: pat.tail ++ post) :
    pat <:+: post := by
  obtain ⟨a, as, rfl, ha⟩ := h
  rw [List.tail_cons, List.infix_append_iff_ne_nil] at hin
  rcases hin with has | hpost | ⟨l₁, l₂, hne, -, hl, hsuf, -⟩
  · exact absurd (has.subset List.mem_cons_self) ha
  · exact hpost
  · cases l₁ with
    | nil => exact absurd rfl hne
    | cons b l₁ =>
      rw [List.cons_append, List.cons.injEq] at hl
      rw [hl.1] at ha
      exact absurd (hsuf.subset List.mem_cons_self) ha

variable [BEq α] [LawfulBEq α]

theorem dropInfix?_eq_some :
    xs.dropInfix? pat = some (pre, post) ↔
      xs = pre ++ pat ++ post ∧ ∀ p s, xs = p ++ pat ++ s → pre.length ≤ p.length := by
  rw [List.dropInfix?_eq_some_iff]
  constructor
  · rintro ⟨⟨i, hxs, hi⟩, hfirst⟩
    rw [eq_of_beq hi] at hxs
    exact ⟨hxs, fun p s hps => hfirst p pat s hps BEq.rfl⟩
  · rintro ⟨hxs, hfirst⟩
    refine ⟨⟨pat, hxs, BEq.rfl⟩, fun p i s hps hi => ?_⟩
    rw [eq_of_beq hi] at hps
    exact hfirst p s hps

/-- The first occurrence is where the text was put together, if what is before it does not have
    the pattern: an earlier one would have to overlap it. -/
theorem HeadOnce.dropInfix?_append (h : HeadOnce pat) (hpre : ¬ pat <:+: pre) :
    (pre ++ pat ++ post).dropInfix? pat = some (pre, post) := by
  rw [dropInfix?_eq_some]
  refine ⟨rfl, fun p s hps => ?_⟩
  by_contra hlt
  rw [List.append_assoc, List.append_assoc, List.append_eq_append_iff] at hps
  rcases hps with ⟨x, rfl, -⟩ | ⟨x, rfl, hx⟩
  · rw [List.length_append] at hlt
    omega
  · -- an occurrence that begins within `pre` ends there too, or overlaps the other one
    rcases List.append_eq_append_iff.mp hx with ⟨y, rfl, -⟩ | ⟨y, hpat, hy⟩
    · exact hpre ⟨p, y, by simp⟩
    · obtain ⟨a, as, rfl, ha⟩ := h
      cases x with
      | nil => simp at hlt
      | cons b x =>
        rw [List.cons_append, List.cons.injEq] at hpat
        cases y with
        | nil =>
          rw [List.append_nil] at hpat
          exact hpre ⟨p, [], by rw [hpat.1, hpat.2, List.append_nil]⟩
        | cons b' y =>
          rw [List.cons_append, List.cons_append, List.cons.injEq] at hy
          rw [hpat.2, hy.1] at ha
          exact ha (List.mem_append_right _ List.mem_cons_self)

/-- The last occurrence, in the same way from the other end. The search goes through the reversed
    text, as `rfind` below does. -/
theorem HeadOnce.dropInfix?_reverse_append (h : HeadOnce pat) (hpost : ¬ pat <:+: post) :
    (pre ++ pat ++ post).reverse.dropInfix? pat.reverse = some (post.reverse, pre.reverse) := by
  rw [dropInfix?_eq_some]
  refine ⟨by simp, fun p s hps => ?_⟩
  by_contra hlt
  have hps : pre ++ (pat ++ post) = s.reverse ++ (pat ++ p.reverse) := by
    have := congrArg List.reverse hps
    simpa using this
  rcases List.append_eq_append_iff.mp hps with ⟨x, -, hx⟩ | ⟨x, rfl, hx⟩
  · apply hpost
    apply h.infix_tail_append
    obtain ⟨a, as, rfl, ha⟩ := h
    cases x with
    | nil =>
      have := congrArg List.length hx
      simp at this hlt
      omega
    | cons b x =>
      rw [List.cons_append, List.cons_append, List.cons.injEq] at hx
      exact ⟨x, p.reverse, by rw [List.tail_cons, hx.2, List.append_assoc]⟩
  · have := congrArg List.length hx
    simp at this hlt
    omega

end

/-! ## `str` -/

/-- `s.find(pat)`: the number of characters in front of the first occurrence. -/
def find (s pat : String) : Option Nat :=
  (s.toList.dropInfix? pat.toList).map fun cut => cut.1.length

/-- `s.rfind(pat)`: the number of characters in front of the last occurrence. -/
def rfind (s pat : String) : Option Nat :=
  (s.toList.reverse.dropInfix? pat.toList.reverse).map fun cut => cut.2.length

/-- `&s[i..]` -/
def sliceFrom (s : String) (i : Nat) : String := String.ofList (s.toList.drop i)

/-- `&s[..i]` -/
def sliceTo (s : String) (i : Nat) : String := String.ofList (s.toList.take i)

/-- `pat` occurs in `s`. This is `str::contains`, and it can be decided. -/
def Occurs (pat s : String) : Prop := pat.toList <:+: s.toList

instance (pat s : String) : Decidable (Occurs pat s) :=
  inferInstanceAs (Decidable (pat.toList <:+: s.toList))

variable {s pat pre post : String} {i : Nat}

theorem find_append (h : HeadOnce pat.toList) (hpre : ¬ Occurs pat pre) :
    find (pre ++ pat ++ post) pat = some pre.toList.length := by
  rw [find, String.toList_append, String.toList_append, h.dropInfix?_append hpre]
  rfl

theorem find_eq_some (h : HeadOnce pat.toList) :
    find s pat = some i ↔
      ∃ pre post, s = pre ++ pat ++ post ∧ ¬ Occurs pat pre ∧ pre.toList.length = i := by
  constructor
  · intro hfind
    obtain ⟨⟨pre, post⟩, hcut, rfl⟩ := Option.map_eq_some_iff.mp hfind
    obtain ⟨hs, hfirst⟩ := dropInfix?_eq_some.mp hcut
    refine ⟨String.ofList pre, String.ofList post, ?_, ?_, by simp⟩
    · apply String.toList_inj.mp
      simpa using hs
    · rintro ⟨p, t, hpre⟩
      rw [String.toList_ofList] at hpre
      have hpos := List.length_pos_iff.mpr h.ne_nil
      have hle := hfirst p (t ++ pat.toList ++ post) (by rw [hs, ← hpre]; simp)
      rw [← hpre, List.length_append, List.length_append] at hle
      omega
  · rintro ⟨pre, post, rfl, hpre, rfl⟩
    exact find_append h hpre

theorem rfind_append (h : HeadOnce pat.toList) (hpost : ¬ Occurs pat post) :
    rfind (pre ++ pat ++ post) pat = some pre.toList.length := by
  rw [rfind, String.toList_append, String.toList_append, h.dropInfix?_reverse_append hpost]
  simp

@[simp] theorem sliceFrom_append : sliceFrom (pre ++ post) pre.toList.length = post := by
  simp [sliceFrom]

/-- The slice behind a pattern that was found is what was put there, whatever the search has
    skipped. -/
theorem sliceFrom_past : sliceFrom (pre ++ pat ++ post) (pre.toList.length + pat.length) = post := by
  rw [← String.length_toList (s := pat), ← List.length_append, ← String.toList_append,
    sliceFrom_append]

@[simp] theorem sliceTo_append : sliceTo (pre ++ post) pre.toList.length = pre := by
  simp [sliceTo]

end Rust
