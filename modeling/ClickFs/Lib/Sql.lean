import Mathlib.Data.List.Basic

/-!
# Reading SQL texts

A lexer for SQL as a machine that reads one character at a time: words, punctuation,
comments, and quoted tokens, in which a backslash escapes the next character and a
doubled quote stands for one. A token ends before the character that shows it has ended,
so what a text lexes to can be put together from what its parts lex to (`run_append`).

A program that builds its statements by pasting text together never looks at a token, so
nothing about it can be said by looking at the pasting alone: what the server does with
the text is decided by where its lexer thinks a quoted token ends. That is why the
statements about such a program are made over `lex`.

A `Template` is a fixed text with holes in it that take quoted values. The question such a
text is about is whether the values can break out of their holes, and the answer is
`lex_render`: where a value's quoted form is read up to its closing quote and decodes to the
value (`Quotes`), the text lexes to the template's own tokens, with one token for each hole.
What has to be checked of a particular text is then decidable (`wellFormed`) and mentions
no value at all.
-/

set_option autoImplicit false

namespace Sql

/-- How a quoted token is used. The two quotes follow the same rules inside; they differ in what
    the token stands for, a value or a name. -/
inductive Quote
  /-- '…' -/
  | str
  /-- back-ticks -/
  | ident
deriving DecidableEq, Repr

inductive Token
  | word (text : String)
  | sym (c : Char)
  | quoted (quote : Quote) (value : String)
deriving DecidableEq, Repr

def Quote.char : Quote → Char
  | .str => '\''
  | .ident => Char.ofNat 96

/-- What the lexer is in the middle of. `closing` has just read a quote: another one makes the two
    a character of the value, anything else shows that the value has ended. -/
inductive Mode
  | start
  | word (text : List Char)
  | sym (c : Char)
  | quoted (quote : Quote) (value : List Char)
  | escaped (quote : Quote) (value : List Char)
  | closing (quote : Quote) (value : List Char)
  | lineComment
  | blockComment
  | star
deriving DecidableEq, Repr

def isWord (c : Char) : Bool := c.isAlphanum || c == '_'

/-- What a character stands for after a backslash. One that is not in the table stands for itself,
    which covers the quotes and the backslash. -/
def unescape : Char → Char
  | 'n' => '\n'
  | 'r' => '\r'
  | 't' => '\t'
  | '0' => '\x00'
  | 'b' => '\x08'
  | 'f' => '\x0c'
  | 'a' => '\x07'
  | 'v' => '\x0b'
  | 'e' => '\x1b'
  | c => c

namespace Mode

/-- A character between tokens begins one, or is white space. -/
def enter (c : Char) : Mode :=
  if c.isWhitespace then .start
  else if isWord c then .word [c]
  else if c = Quote.str.char then .quoted .str []
  else if c = Quote.ident.char then .quoted .ident []
  else .sym c

/-- Read a character. A token that ends does so before it, and the character is read again by the
    mode after it; this is why the result is a mode or a token and never both. -/
def step : Mode → Char → Mode ⊕ Token
  | .start, c => .inl (enter c)
  | .word text, c => if isWord c then .inl (.word (text ++ [c])) else .inr (.word (String.ofList text))
  | .sym s, c =>
    if s = '-' ∧ c = '-' then .inl .lineComment
    else if s = '/' ∧ c = '*' then .inl .blockComment
    else .inr (.sym s)
  | .quoted q value, c =>
    if c = '\\' then .inl (.escaped q value)
    else if c = q.char then .inl (.closing q value)
    else .inl (.quoted q (value ++ [c]))
  | .escaped q value, c => .inl (.quoted q (value ++ [unescape c]))
  | .closing q value, c =>
    if c = q.char then .inl (.quoted q (value ++ [c])) else .inr (.quoted q (String.ofList value))
  | .lineComment, c => .inl (if c = '\n' then .start else .lineComment)
  | .blockComment, c => .inl (if c = '*' then .star else .blockComment)
  | .star, c => .inl (if c = '/' then .start else if c = '*' then .star else .blockComment)

/-- The end of the text: a word or a closed token ends here, and a quote or a block comment that
    is still open makes the whole text unreadable. -/
def finish : Mode → Option (List Token)
  | .start | .lineComment => some []
  | .word text => some [.word (String.ofList text)]
  | .sym c => some [.sym c]
  | .closing q value => some [.quoted q (String.ofList value)]
  | .quoted _ _ | .escaped _ _ | .blockComment | .star => none

end Mode

/-- The tokens that end within a text, and what the lexer is then in the middle of. Keeping the
    second is what makes `run_append` hold. -/
def run : Mode → List Char → List Token × Mode
  | m, [] => ([], m)
  | m, c :: cs =>
    match m.step c with
    | .inl m => run m cs
    | .inr t => (t :: (run (.enter c) cs).1, (run (.enter c) cs).2)

/-- The first token of a text, and what comes after it. For statements about a single token in
    front of anything. -/
def next : Mode → List Char → Option (Token × List Char)
  | m, [] => m.finish.bind fun ts => ts.head?.map (·, [])
  | m, c :: cs =>
    match m.step c with
    | .inl m => next m cs
    | .inr t => some (t, c :: cs)

/-- All tokens of a text, or none if something is still open at its end. -/
def lex (text : String) : Option (List Token) :=
  (run .start text.toList).2.finish.map ((run .start text.toList).1 ++ ·)

example : lex "SELECT 'it''s \\'x\\'' -- rest" = some [.word "SELECT", .quoted .str "it's 'x'"] := by
  decide

theorem run_append (m : Mode) (a b : List Char) :
    run m (a ++ b) = ((run m a).1 ++ (run (run m a).2 b).1, (run (run m a).2 b).2) := by
  induction a generalizing m with
  | nil => simp [run]
  | cons c a ih =>
    rw [List.cons_append, run, run]
    cases m.step c with
    | inl m => simp only [ih]
    | inr t => simp only [ih, List.cons_append]

/-- A quote read now opens a token: nothing is open, or what is open ends before it. Asked of the
    text in front of a hole. -/
def Mode.endsAt (m : Mode) (c : Char) : Bool := m = .start || (m.step c).isRight

/-- A token that ends before a character ends at the end of the text too. -/
theorem Mode.finish_of_step {m : Mode} {c : Char} {t : Token} (h : m.step c = .inr t) :
    m.finish = some [t] := by
  cases m with
  | word text =>
    rw [Mode.step] at h
    split at h <;> cases h
    rfl
  | sym s =>
    rw [Mode.step] at h
    split at h
    · cases h
    · split at h <;> cases h
      rfl
  | closing q value =>
    rw [Mode.step] at h
    split at h <;> cases h
    rfl
  | quoted q value =>
    rw [Mode.step] at h
    split at h
    · cases h
    · split at h <;> cases h
  | start | escaped _ _ | lineComment | blockComment | star => cases h

/-- Where a token opens, the lexer goes on as at the start, once it has put out the token that
    ends there. -/
theorem run_of_endsAt {m : Mode} {c : Char} (h : m.endsAt c = true) (cs : List Char) :
    (run m (c :: cs)).2 = (run .start (c :: cs)).2 := by
  by_cases hstart : m = .start
  · rw [hstart]
  · have hstep : (m.step c).isRight = true := by simpa [Mode.endsAt, hstart] using h
    obtain ⟨t, ht⟩ := Sum.isRight_iff.mp hstep
    rw [run, ht]
    rfl

/-- A text that ends where the next one's first character opens a token. -/
theorem lex_append {s rest : String} {c : Char} (h : (run .start s.toList).2.endsAt c = true)
    (hrest : rest.toList.head? = some c) :
    ∃ ts, lex s = some ts ∧ lex (s ++ rest) = (lex rest).map (ts ++ ·) := by
  simp only [lex, String.toList_append, run_append]
  generalize run .start s.toList = out at h ⊢
  obtain ⟨ts, m⟩ := out
  obtain ⟨cs, hcs⟩ : ∃ cs, rest.toList = c :: cs := List.head?_eq_some_iff.mp hrest
  rw [hcs]
  -- nothing is open, or the character ends what is
  by_cases hstart : m = .start
  · subst hstart
    refine ⟨ts, by simp [Mode.finish], ?_⟩
    simp [Option.map_map, Function.comp_def]
  · have hstep : (m.step c).isRight = true := by simpa [Mode.endsAt, hstart] using h
    obtain ⟨t, ht⟩ := Sum.isRight_iff.mp hstep
    refine ⟨ts ++ [t], by simp [Mode.finish_of_step ht], ?_⟩
    have hrun : run m (c :: cs) = (t :: (run .start (c :: cs)).1, (run .start (c :: cs)).2) := by
      rw [run, ht]
      rfl
    simp [hrun, Option.map_map, Function.comp_def]

/-- What a text lexes to comes first, where the next one opens a token of its own. -/
theorem lex_concat {s rest : String} {ts : List Token} {c : Char} (hlex : lex s = some ts)
    (h : (run .start s.toList).2.endsAt c = true) (hrest : rest.toList.head? = some c) :
    lex (s ++ rest) = (lex rest).map (ts ++ ·) := by
  obtain ⟨ts', hts', happend⟩ := lex_append h hrest
  rw [hlex, Option.some.injEq] at hts'
  rw [happend, hts']

/-- The mode a pasted text leaves behind depends on its last part alone, as long as that part
    opens a token of its own. With this the end of a long statement is known from its fixed tail,
    whatever stands in its holes. -/
theorem mode_append {s rest : String} {c : Char} (h : (run .start s.toList).2.endsAt c = true)
    (hrest : rest.toList.head? = some c) :
    (run .start (s ++ rest).toList).2 = (run .start rest.toList).2 := by
  obtain ⟨cs, hcs⟩ : ∃ cs, rest.toList = c :: cs := List.head?_eq_some_iff.mp hrest
  rw [String.toList_append, run_append, hcs]
  exact run_of_endsAt h cs

/-- A text that leaves nothing to end has been read to its last token. -/
theorem run_of_lex {s : String} {ts : List Token} (hlex : lex s = some ts)
    (h : (run .start s.toList).2 = .start) : run .start s.toList = (ts, .start) := by
  rw [lex, h] at hlex
  have hts : (run .start s.toList).1 = ts := by simpa [Mode.finish] using hlex
  exact Prod.ext hts h

/-- What follows a text that leaves nothing to end is read as by itself. -/
theorem run_append_start {s : String} {ts : List Token} (h : run .start s.toList = (ts, .start))
    (rest : String) :
    run .start (s ++ rest).toList
      = (ts ++ (run .start rest.toList).1, (run .start rest.toList).2) := by
  rw [String.toList_append, run_append, h]

theorem lex_append_start {s : String} {ts : List Token} (h : run .start s.toList = (ts, .start))
    (rest : String) : lex (s ++ rest) = (lex rest).map (ts ++ ·) := by
  rw [lex, lex, run_append_start h]
  simp [Option.map_map, Function.comp_def, List.append_assoc]

/-! ## Words -/

theorem run_word {cs : List Char} (h : ∀ c ∈ cs, isWord c = true) (text : List Char) :
    run (.word text) cs = ([], .word (text ++ cs)) := by
  induction cs generalizing text with
  | nil => simp [run]
  | cons c cs ih =>
    have hc : Mode.step (.word text) c = .inl (.word (text ++ [c])) := by
      simp [Mode.step, h c List.mem_cons_self]
    rw [run, hc]
    have ih := ih (fun c hc => h c (List.mem_cons_of_mem _ hc)) (text ++ [c])
    rw [List.append_assoc, List.singleton_append] at ih
    exact ih

theorem not_isWhitespace_of_isWord {c : Char} (h : isWord c = true) : c.isWhitespace = false := by
  by_contra hspace
  rw [Bool.not_eq_false] at hspace
  simp only [Char.isWhitespace, Bool.or_eq_true, decide_eq_true_eq] at hspace
  rcases hspace with ((rfl | rfl) | rfl) | rfl <;> revert h <;> decide

/-- A word is read from its first character to its last. -/
theorem run_start_word {w : String} (hne : w ≠ "") (h : ∀ c ∈ w.toList, isWord c = true) :
    run .start w.toList = ([], .word w.toList) := by
  cases hw : w.toList with
  | nil => exact absurd (String.toList_eq_nil_iff.mp hw) hne
  | cons c cs =>
    rw [hw] at h
    have hc := h c List.mem_cons_self
    have henter : Mode.enter c = .word [c] := by
      simp [Mode.enter, not_isWhitespace_of_isWord hc, hc]
    have hrun := run_word (fun c hc => h c (List.mem_cons_of_mem _ hc)) [c]
    show run (Mode.enter c) cs = _
    rw [henter, hrun]
    rfl

theorem lex_word {w rest : String} (hne : w ≠ "") (h : ∀ c ∈ w.toList, isWord c = true)
    (hrest : ∀ c, rest.toList.head? = some c → isWord c = false) :
    lex (w ++ rest) = (lex rest).map (.word w :: ·) := by
  have hrun := run_start_word hne h
  cases hcs : rest.toList with
  | nil =>
    obtain rfl : rest = "" := String.toList_eq_nil_iff.mp hcs
    have hlex : lex "" = some [] := rfl
    rw [String.append_empty, hlex, lex, hrun]
    simp [Mode.finish]
  | cons c cs =>
    have hc : isWord c = false := hrest c (by rw [hcs]; rfl)
    have hlex : lex w = some [.word w] := by
      rw [lex, hrun]
      simp [Mode.finish]
    have hends : (run .start w.toList).2.endsAt c = true := by
      rw [hrun]
      simp [Mode.endsAt, Mode.step, hc]
    rw [lex_concat hlex hends (by rw [hcs]; rfl)]
    rfl

/-! ## Punctuation -/

theorem Mode.eq_of_enter_sym {c x : Char} (h : Mode.enter x = .sym c) : x = c := by
  unfold Mode.enter at h
  split at h
  · cases h
  · split at h
    · cases h
    · split at h
      · cases h
      · split at h
        · cases h
        · exact Mode.sym.inj h

theorem Mode.eq_of_step_sym {m : Mode} {c x : Char} (h : m.step x = .inl (.sym c)) : x = c := by
  cases m with
  | start => exact eq_of_enter_sym (Sum.inl.inj h)
  | word | closing =>
    rw [Mode.step] at h
    split at h <;> cases h
  | sym | quoted =>
    rw [Mode.step] at h
    split at h
    · cases h
    · split at h <;> cases h
  | escaped => cases h
  | lineComment | blockComment =>
    have h := Sum.inl.inj h
    split at h <;> cases h
  | star =>
    have h := Sum.inl.inj h
    split at h
    · cases h
    · split at h <;> cases h

theorem Mode.sym_of_step {m : Mode} {c x : Char} (h : m.step x = .inr (.sym c)) : m = .sym c := by
  cases m with
  | sym =>
    rw [Mode.step] at h
    split at h
    · cases h
    · split at h <;> cases h
      rfl
  | word | closing =>
    rw [Mode.step] at h
    split at h <;> cases h
  | quoted =>
    rw [Mode.step] at h
    split at h
    · cases h
    · split at h <;> cases h
  | start | escaped | lineComment | blockComment | star => cases h

theorem sym_mem_run {c : Char} (cs : List Char) (m : Mode)
    (h : .sym c ∈ (run m cs).1 ∨ (run m cs).2 = .sym c) : m = .sym c ∨ c ∈ cs := by
  induction cs generalizing m with
  | nil => simpa [run] using h
  | cons x cs ih =>
    rw [run] at h
    cases hstep : m.step x with
    | inl m' =>
      rw [hstep] at h
      rcases ih m' h with rfl | hmem
      · exact .inr (Mode.eq_of_step_sym hstep ▸ List.mem_cons_self)
      · exact .inr (List.mem_cons_of_mem _ hmem)
    | inr t =>
      rw [hstep] at h
      simp only [List.mem_cons, or_assoc] at h
      rcases h with rfl | h
      · exact .inl (Mode.sym_of_step hstep)
      · rcases ih (Mode.enter x) h with henter | hmem
        · exact .inr (Mode.eq_of_enter_sym henter ▸ List.mem_cons_self)
        · exact .inr (List.mem_cons_of_mem _ hmem)

/-- Punctuation among the tokens stands in the text. Read the other way round: a key without a
    semicolon in it puts no semicolon among the tokens. -/
theorem sym_mem_lex {s : String} {ts : List Token} {c : Char} (hlex : lex s = some ts)
    (h : .sym c ∈ ts) : c ∈ s.toList := by
  obtain ⟨us, hfinish, rfl⟩ := Option.map_eq_some_iff.mp hlex
  have hrun : .sym c ∈ (run .start s.toList).1 ∨ (run .start s.toList).2 = .sym c := by
    rcases List.mem_append.mp h with hmem | hmem
    · exact .inl hmem
    · right
      generalize (run .start s.toList).2 = m at hfinish ⊢
      cases m with
      | sym x =>
        cases hfinish
        simpa [eq_comm] using hmem
      | start | lineComment | word | closing =>
        cases hfinish
        simp at hmem
      | quoted | escaped | blockComment | star => cases hfinish
  simpa using sym_mem_run s.toList .start hrun

/-! ## Quoted values -/

/-- The text is read as one quoted token, up to its closing quote, and the token's value is
    `value`. This is all an escaping function has to provide; how it does it is of no interest
    here. -/
structure Quotes (q : Quote) (text value : String) : Prop where
  head : text.toList.head? = some q.char
  run : run .start text.toList = ([], .closing q value.toList)

/-- What follows a quoted token shows that it has ended, unless it is the same quote. Two quotes
    in a row would be read as one character of the value. -/
theorem run_closing {q : Quote} {value : List Char} {c : Char} (h : c ≠ q.char) (cs : List Char) :
    run (.closing q value) (c :: cs)
      = (.quoted q (String.ofList value) :: (run .start (c :: cs)).1, (run .start (c :: cs)).2) := by
  simp [run, Mode.step, h]

/-- A quoted token is consumed exactly, whatever follows that is not the same quote. -/
theorem Quotes.next {q : Quote} {text value : String} (h : Quotes q text value) {rest : List Char}
    (hrest : rest.head? ≠ some q.char) :
    next .start (text.toList ++ rest) = some (.quoted q value, rest) := by
  have hgo (m : Mode) (a : List Char) (hrun : Sql.run m a = ([], .closing q value.toList)) :
      Sql.next m (a ++ rest) = some (.quoted q value, rest) := by
    induction a generalizing m with
    | nil =>
      obtain rfl : m = .closing q value.toList := congrArg Prod.snd hrun
      cases rest with
      | nil => simp [Sql.next, Mode.finish]
      | cons c rest =>
        have hc : c ≠ q.char := by simpa using hrest
        simp [Sql.next, Mode.step, hc]
    | cons c a ih =>
      rw [Sql.run] at hrun
      rw [List.cons_append, Sql.next]
      cases hstep : m.step c with
      | inl m =>
        rw [hstep] at hrun
        exact ih m hrun
      | inr t =>
        rw [hstep] at hrun
        cases hrun
  exact hgo .start text.toList h.run

/-- What follows a quoted token is lexed as it stands, by itself. -/
theorem Quotes.lex {q : Quote} {text value : String} (h : Quotes q text value) {rest : String}
    (hrest : rest.toList.head? ≠ some q.char) :
    lex (text ++ rest) = (Sql.lex rest).map (.quoted q value :: ·) := by
  rw [Sql.lex, Sql.lex, String.toList_append, run_append, h.run]
  cases hcs : rest.toList with
  | nil => simp [Sql.run, Mode.finish]
  | cons c cs =>
    have hc : c ≠ q.char := by simpa [hcs] using hrest
    simp only [run_closing hc, List.nil_append, String.ofList_toList, Option.map_map]
    rfl

/-! ## Templates -/

/-- A piece of a text with holes named by `η`. -/
inductive Piece (η : Type)
  | text (s : String)
  | hole (quote : Quote) (name : η)

abbrev Template (η : Type) := List (Piece η)

/-- A token of a template: one of its own, or the one a hole takes. -/
inductive Slot (η : Type)
  | token (t : Token)
  | hole (quote : Quote) (name : η)
deriving DecidableEq, Repr

variable {η : Type}

def Slot.fill (value : η → String) : Slot η → Token
  | .token t => t
  | .hole q name => .quoted q (value name)

namespace Template

/-- The text with its holes filled, each value in the quotes its hole asks for. -/
def render (quote : Quote → String → String) (value : η → String) : Template η → String
  | [] => ""
  | .text s :: rest => s ++ render quote value rest
  | .hole q name :: rest => quote q (value name) ++ render quote value rest

/-- The template's tokens, the holes left open. -/
def slots : Template η → List (Slot η)
  | [] => []
  | .text s :: rest => ((lex s).getD []).map .token ++ slots rest
  | .hole q name :: rest => .hole q name :: slots rest

/-- The fixed texts can be lexed by themselves: one in front of a hole ends where a quote opens a
    token, and a hole is followed by one that does not begin with its quote. Decidable, so a
    concrete template is checked by evaluation. -/
def wellFormed : Template η → Bool
  | [] => true
  | [.text s] => (lex s).isSome
  | .text s :: .hole q name :: rest =>
    (run .start s.toList).2.endsAt q.char && wellFormed (.hole q name :: rest)
  | .hole q _ :: .text s :: rest =>
    s.toList.head?.any (· != q.char) && wellFormed (.text s :: rest)
  | _ => false

theorem head?_render_text {quote : Quote → String → String} {value : η → String} {s : String}
    {rest : Template η} {q : Quote} (h : s.toList.head?.any (· != q.char) = true) :
    (render quote value (.text s :: rest)).toList.head? ≠ some q.char := by
  rw [render, String.toList_append]
  cases hs : s.toList with
  | nil => simp [hs] at h
  | cons c cs => simpa [hs] using h

theorem head?_render_hole {quote : Quote → String → String} {value : η → String} {q : Quote}
    {name : η} {rest : Template η} (h : Quotes q (quote q (value name)) (value name)) :
    (render quote value (.hole q name :: rest)).toList.head? = some q.char := by
  rw [render, String.toList_append, List.head?_append, h.head]
  rfl

/-- **The values stay in their holes.** However the holes are filled, the tokens are those of the
    template, and the token of a hole decodes to the value that was put there. -/
theorem lex_render {quote : Quote → String → String} {value : η → String} (T : Template η)
    (hwf : wellFormed T = true)
    (hq : ∀ q name, .hole q name ∈ T → Quotes q (quote q (value name)) (value name)) :
    lex (T.render quote value) = some (T.slots.map (Slot.fill value)) := by
  have hself (ts : List Token) : (ts.map Slot.token).map (Slot.fill value) = ts := by
    rw [List.map_map]
    exact List.map_id ts
  -- a text in front of a hole ends where the hole begins, a hole where its text does
  fun_induction wellFormed T with
  | case1 => rfl
  | case2 s =>
    obtain ⟨ts, hts⟩ := Option.isSome_iff_exists.mp hwf
    simp only [render, slots, String.append_empty, hts, Option.getD_some, List.append_nil, hself]
  | case3 s q name rest ih =>
    obtain ⟨hends, hwf⟩ := Bool.and_eq_true_iff.mp hwf
    have ih := ih hwf fun q name h => hq q name (List.mem_cons_of_mem _ h)
    have hhead : (render quote value (.hole q name :: rest)).toList.head? = some q.char :=
      head?_render_hole (hq q name (by simp))
    obtain ⟨ts, hts, happend⟩ := lex_append hends hhead
    rw [render, happend, ih, slots, hts]
    simp only [Option.getD_some, Option.map_some, List.map_append, hself]
  | case4 q name s rest ih =>
    obtain ⟨hquote, hwf⟩ := Bool.and_eq_true_iff.mp hwf
    have ih := ih hwf fun q name h => hq q name (List.mem_cons_of_mem _ h)
    rw [render, (hq q name List.mem_cons_self).lex (head?_render_text hquote), ih]
    rfl
  | case5 => cases hwf

/-! ### What may follow -/

/-- What the lexer is in the middle of at the end of the text, read off the template alone. -/
def lastMode : Template η → Mode
  | [] => .start
  | [.text s] => (run .start s.toList).2
  | _ :: rest => lastMode rest

theorem lastMode_cons {p : Piece η} {rest : Template η} (h : rest ≠ []) :
    lastMode (p :: rest) = lastMode rest := by
  cases rest with
  | nil => exact absurd rfl h
  | cons p' rest => cases p <;> rfl

/-- However the holes are filled, the text ends the way its last piece does. -/
theorem run_render {quote : Quote → String → String} {value : η → String} (T : Template η)
    (hwf : wellFormed T = true)
    (hq : ∀ q name, .hole q name ∈ T → Quotes q (quote q (value name)) (value name)) :
    (run .start (T.render quote value).toList).2 = T.lastMode := by
  fun_induction wellFormed T with
  | case1 => rfl
  | case2 s => simp only [render, lastMode, String.append_empty]
  | case3 s q name rest ih =>
    obtain ⟨hends, hwf⟩ := Bool.and_eq_true_iff.mp hwf
    have ih := ih hwf fun q name h => hq q name (List.mem_cons_of_mem _ h)
    have hhead : (render quote value (.hole q name :: rest)).toList.head? = some q.char :=
      head?_render_hole (hq q name (by simp))
    obtain ⟨cs, hcs⟩ := List.head?_eq_some_iff.mp hhead
    rw [lastMode_cons (by simp), ← ih, render, String.toList_append, run_append, hcs]
    exact run_of_endsAt hends cs
  | case4 q name s rest ih =>
    obtain ⟨hquote, hwf⟩ := Bool.and_eq_true_iff.mp hwf
    have ih := ih hwf fun q name h => hq q name (List.mem_cons_of_mem _ h)
    have hhead : (render quote value (.text s :: rest)).toList.head? ≠ some q.char :=
      head?_render_text hquote
    have hsplit : render quote value (.hole q name :: .text s :: rest)
        = quote q (value name) ++ render quote value (.text s :: rest) := rfl
    rw [lastMode_cons (by simp), ← ih, hsplit, String.toList_append, run_append,
      (hq q name List.mem_cons_self).run]
    cases hcs : (render quote value (.text s :: rest)).toList with
    | nil =>
      rw [render, String.toList_append, List.append_eq_nil_iff] at hcs
      simp [hcs.1] at hquote
    | cons c cs =>
      have hc : c ≠ q.char := by simpa [hcs] using hhead
      rw [run_closing hc]
  | case5 => cases hwf

end Template
end Sql
