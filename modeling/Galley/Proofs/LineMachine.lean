import Mathlib
import Galley.Token.Lexer

/-!
# The line machine

TeX reads a line in one of three states, and the state is all it remembers of the tokens
the line has yielded so far: at the start of the line before the first token (`newLine`), in
the middle of it after a character or a control symbol (`midLine`), and skipping blanks after
a space, a control word or a control space (`skipBlanks`). An end of line yields `\par` at
the start of a line, a space in the middle of one and nothing while skipping blanks, and
throws the rest of the line away, as a comment does; a blank yields a space only in the
middle of a line, and an ignored character never yields anything.

`Lexer.next` runs rounds of one character or one line each until one yields a token
(`next_eq`); `round` is that round and `readChar` its reading of one character. The
inversion lemmas `readChar_skip` and `readChar_emit` say everything a round can do, and
every other fact is read from them.

Categories are looked up as each character is read, so they may change between any two
calls, and a round is free to use other categories than the one before. `Reached` follows
every run of rounds from a line boundary, with how each token of the current line was read
(`Reading`); a text starts at one (`ofText`), and calls of `next` stay among the lexers so
reached (`Reached.next`). Along it the lexer's state is the one the machine is in after that history
(`Reached.inv`), which gives TeX's rules in the terms of the history: an end of line yields
what `endOfLineToken` says, and blanks and ignored characters before the line's first token
yield nothing. Two calls of `next` never yield two spaces in a row (`next_ne_space`), and the
one token of category space they yield is the blank (`next_blank`).
-/

namespace Galley

namespace Lexer

/-! ### One round -/

/-- How a token was read, which is what TeX's line machine goes by. A control sequence is a
control word, a control space or a control symbol by the category of the character after the
escape, as it was when that character was read. -/
inductive Reading where
  | char
  | space
  | par
  | word
  | controlSpace
  | symbol
deriving DecidableEq, Repr

/-- The state TeX's line machine takes after a token read so. -/
def Reading.state : Reading → LineState
  | .char | .symbol => .midLine
  | .space | .word | .controlSpace => .skipBlanks
  | .par => .newLine

/-- The state TeX's line machine is in after the tokens its line has yielded, read as `hist`. -/
def lineState (hist : List Reading) : LineState :=
  match hist.getLast? with
  | none => .newLine
  | some how => how.state

@[simp] theorem lineState_nil : lineState [] = .newLine := rfl

@[simp] theorem lineState_append (hist : List Reading) (how : Reading) :
    lineState (hist ++ [how]) = how.state := by
  simp [lineState]

/-- How the control sequence after an escape is read from the rest of the line: the empty
name at the end of a line counts as a control symbol. -/
def csReading (cat : Nat → Category) (rest : List Nat) : Reading :=
  match decodeHead cat rest with
  | [] => .symbol
  | r :: _ => if cat r = .letter then .word else if cat r = .space then .controlSpace else .symbol

/-- What one round of `next` does: end the text, stop at an invalid character, begin the next
line, read a character that yields nothing, or yield a token. -/
inductive Round where
  | stop
  | fail (e : InvalidChar)
  | load (lx : Lexer)
  | skip (lx : Lexer)
  | emit (t : Token) (how : Reading) (lx : Lexer)

/-- What reading the character `r` of a line does, with `rest` left on the line after it. -/
def readChar (cat : Nat → Category) (lx : Lexer) (r : Nat) (rest : List Nat) : Round :=
  let lx' := { lx with rest }
  match cat r with
  | .escape =>
    let (t, lx'') := controlSequence cat lx'
    .emit t (csReading cat rest) lx''
  | .endOfLine =>
    let lx' := { lx' with rest := [], state := .newLine }
    match lx.state with
    | .newLine => .emit (.cs "par") .par lx'
    | .midLine => .emit Token.space .space lx'
    | .skipBlanks => .skip lx'
  | .space =>
    if lx.state = .midLine then .emit Token.space .space { lx' with state := .skipBlanks }
    else .skip lx'
  | .ignored => .skip lx'
  | .comment => .skip { lx' with rest := [] }
  | .invalid => .fail ⟨lx.line, r⟩
  | k => .emit (.char r k) .char { lx' with state := .midLine }

/-- One round: the next character of the line, decoded, or the next line when this one is
used up. -/
def round (cat : Nat → Category) (endLine : Option Nat) (lx : Lexer) : Round :=
  match decodeHead cat lx.rest with
  | r :: rest => readChar cat lx r rest
  | [] =>
    match lx.lines with
    | [] => .stop
    | ln :: lns =>
      .load { lines := lns, rest := ln ++ endLine.toList, line := lx.line + 1, state := .newLine }

@[simp] theorem decodeHead_nil (cat : Nat → Category) : decodeHead cat [] = [] := by
  simp [decodeHead]

/-- `next` runs rounds until one yields a token, ends the text or fails. -/
theorem next_eq (cat : Nat → Category) (endLine : Option Nat) (lx : Lexer) :
    lx.next cat endLine =
      match lx.round cat endLine with
      | .stop => .ok none
      | .fail e => .error e
      | .load lx' | .skip lx' => lx'.next cat endLine
      | .emit t _ lx' => .ok (some (t, lx')) := by
  rw [next]
  unfold round
  split
  · next hr => split <;> simp_all
  · next c cs hr =>
    split
    · next hd => exact absurd hd (decodeHead_ne_nil cat _ (List.cons_ne_nil c cs))
    · split <;> simp_all [readChar] <;> split <;> simp_all

/-! ### What a round does -/

section Rounds

variable {cat : Nat → Category} {endLine : Option Nat} {lx lx' : Lexer} {r : Nat}
  {rest : List Nat} {t : Token} {how : Reading}

theorem rest_ne_nil_of_decodeHead (h : decodeHead cat lx.rest = r :: rest) : lx.rest ≠ [] := by
  intro hr
  rw [hr, decodeHead_nil] at h
  exact List.cons_ne_nil r rest h.symm

theorem round_of_decodeHead (h : decodeHead cat lx.rest = r :: rest) :
    lx.round cat endLine = readChar cat lx r rest := by
  simp [round, h]

theorem controlSequence_state (cat : Nat → Category) (lx : Lexer) :
    (controlSequence cat lx).2.state = (csReading cat lx.rest).state := by
  unfold controlSequence csReading
  cases decodeHead cat lx.rest with
  | nil => rfl
  | cons r rest =>
    by_cases hl : cat r = .letter
    · simp [hl, Reading.state]
    · by_cases hs : cat r = .space <;> simp [hl, hs, Reading.state]

theorem controlSequence_cs (cat : Nat → Category) (lx : Lexer) :
    ∃ name, (controlSequence cat lx).1 = .cs name := by
  unfold controlSequence
  split
  · exact ⟨_, rfl⟩
  · split
    · exact ⟨_, rfl⟩
    · exact ⟨_, rfl⟩

theorem csReading_ne_par (cat : Nat → Category) (rest : List Nat) : csReading cat rest ≠ .par := by
  unfold csReading
  split
  · decide
  · split_ifs <;> decide

/-- A character that yields nothing leaves the line going on as it was, or ends it: a comment
keeps the state, an end of line starts the next line afresh. -/
theorem readChar_skip (h : readChar cat lx r rest = .skip lx') :
    lx' = { lx with rest } ∨ lx' = { lx with rest := [] } ∨
      lx' = { lx with rest := [], state := .newLine } := by
  unfold readChar at h
  split at h
  · simp at h
  · split at h <;> simp_all
  · split at h <;> simp_all
  · exact .inl (Round.skip.inj h).symm
  · exact .inr (.inl (Round.skip.inj h).symm)
  · simp at h
  · simp at h

/-- What a character that yields a token can be: an escape, whose control sequence is read as
`csReading` says; an end of line at the start of a line (`\par`) or in the middle of one (a
space), both ending the line; a blank in the middle of a line; or a character of any other
category that reads, which the token keeps. -/
theorem readChar_emit (h : readChar cat lx r rest = .emit t how lx') :
    ((t, lx') = controlSequence cat { lx with rest } ∧ how = csReading cat rest) ∨
    (lx.state = .newLine ∧ t = .cs "par" ∧ how = .par ∧
      lx' = { lx with rest := [], state := .newLine }) ∨
    (lx.state = .midLine ∧ t = Token.space ∧ how = .space ∧
      (lx' = { lx with rest := [], state := .newLine } ∨
        lx' = { lx with rest, state := .skipBlanks })) ∨
    (cat r ≠ .space ∧ t = .char r (cat r) ∧ how = .char ∧
      lx' = { lx with rest, state := .midLine }) := by
  unfold readChar at h
  split at h
  · dsimp only at h
    simp only [Round.emit.injEq] at h
    obtain ⟨rfl, rfl, rfl⟩ := h
    exact .inl ⟨rfl, rfl⟩
  · split at h <;> simp_all
  · split at h <;> simp_all
  · simp at h
  · simp at h
  · simp at h
  · simp only [Round.emit.injEq] at h
    obtain ⟨rfl, rfl, rfl⟩ := h
    exact .inr (.inr (.inr ⟨‹cat r = .space → False›, rfl, rfl, rfl⟩))

theorem readChar_ne_load : readChar cat lx r rest ≠ .load lx' := by
  unfold readChar
  split
  · simp
  · split <;> simp
  · split <;> simp
  all_goals simp

/-- After a token the line is over, or the lexer is in the state the token's reading asks for
and the token was not `\par`. -/
theorem readChar_emit_state (h : readChar cat lx r rest = .emit t how lx') :
    lx'.rest = [] ∨ lx'.state = how.state ∧ how ≠ .par := by
  rcases readChar_emit h with ⟨he, rfl⟩ | ⟨-, -, rfl, rfl⟩ | ⟨-, -, rfl, rfl | rfl⟩ |
    ⟨-, -, rfl, rfl⟩
  · have hlx : lx' = (controlSequence cat { lx with rest }).2 := congrArg Prod.snd he
    exact .inr ⟨hlx ▸ controlSequence_state cat _, csReading_ne_par cat rest⟩
  · exact .inl rfl
  · exact .inl rfl
  · exact .inr ⟨rfl, by decide⟩
  · exact .inr ⟨rfl, by decide⟩

theorem readChar_emit_space (h : readChar cat lx r rest = .emit Token.space how lx') :
    lx.state = .midLine ∧ lx'.state ≠ .midLine := by
  rcases readChar_emit h with ⟨he, -⟩ | ⟨-, ht, -⟩ | ⟨hs, -, -, rfl | rfl⟩ | ⟨hk, ht, -⟩
  · obtain ⟨name, hn⟩ := controlSequence_cs cat { lx with rest }
    rw [← he] at hn
    simp [Token.space] at hn
  · simp [Token.space] at ht
  · exact ⟨hs, by simp⟩
  · exact ⟨hs, by simp⟩
  · simp only [Token.space, Token.char.injEq] at ht
    exact absurd ht.2.symm hk

theorem readChar_emit_blank (h : readChar cat lx r rest = .emit t how lx') (hs : t.isCat .space) :
    t = Token.space := by
  rcases readChar_emit h with ⟨he, -⟩ | ⟨-, rfl, -⟩ | ⟨-, rfl, -⟩ | ⟨hk, rfl, -⟩
  · obtain ⟨name, hn⟩ := controlSequence_cs cat { lx with rest }
    rw [← he] at hn
    simp only at hn
    simp [hn, Token.isCat] at hs
  · simp [Token.isCat] at hs
  · rfl
  · simp [Token.isCat, hk] at hs

theorem round_reads {ρ : Round} (h : lx.round cat endLine = ρ) (hs : ρ ≠ .stop)
    (hl : ∀ l, ρ ≠ .load l) :
    ∃ r rest, decodeHead cat lx.rest = r :: rest ∧ readChar cat lx r rest = ρ := by
  cases hd : decodeHead cat lx.rest with
  | cons r rest => exact ⟨r, rest, rfl, by rwa [round_of_decodeHead hd] at h⟩
  | nil =>
    simp only [round, hd] at h
    split at h <;> subst h <;> simp_all

theorem round_load (h : lx.round cat endLine = .load lx') :
    (∃ ln, lx.lines = ln :: lx'.lines) ∧ lx'.state = .newLine := by
  cases hd : decodeHead cat lx.rest with
  | cons r rest => exact absurd (by rwa [round_of_decodeHead hd] at h) readChar_ne_load
  | nil =>
    simp only [round, hd] at h
    split at h
    · simp at h
    · next ln lns hlines =>
      simp only [Round.load.injEq] at h
      subst h
      exact ⟨⟨ln, hlines⟩, rfl⟩

/-- A round that yields no token: a line begun, or a character read without one. -/
def Quiet (cat : Nat → Category) (endLine : Option Nat) (lx lx' : Lexer) : Prop :=
  lx.round cat endLine = .load lx' ∨ lx.round cat endLine = .skip lx'

/-- A round that yields nothing uses up a line or a character. -/
theorem Quiet.size_lt (h : Quiet cat endLine lx lx') :
    Prod.Lex (· < ·) (· < ·) lx'.size lx.size := by
  rcases h with hl | hs
  · obtain ⟨⟨ln, hlines⟩, -⟩ := round_load hl
    exact Prod.Lex.left _ _ (by simp [hlines])
  · obtain ⟨r, rest, hd, hread⟩ := round_reads hs (by simp) (by simp)
    have hlen := length_decodeHead_le cat lx.rest
    rw [hd, List.length_cons] at hlen
    rcases readChar_skip hread with rfl | rfl | rfl <;> exact Prod.Lex.right _ (by simp; omega)

theorem Quiet.state_ne_midLine (h : Quiet cat endLine lx lx') (hs : lx.state ≠ .midLine) :
    lx'.state ≠ .midLine := by
  rcases h with hl | hq
  · rw [(round_load hl).2]
    decide
  · obtain ⟨r, rest, -, hread⟩ := round_reads hq (by simp) (by simp)
    rcases readChar_skip hread with rfl | rfl | rfl
    · exact hs
    · exact hs
    · simp

/-- A call of `next` that yields a token runs rounds that yield nothing, then one that yields
it. -/
theorem next_eq_some {lx lx' : Lexer} {t : Token}
    (h : lx.next cat endLine = .ok (some (t, lx'))) :
    ∃ lx₁ how, Relation.ReflTransGen (Quiet cat endLine) lx lx₁ ∧
      lx₁.round cat endLine = .emit t how lx' := by
  rw [next_eq] at h
  cases hr : lx.round cat endLine with
  | stop => simp [hr] at h
  | fail e => simp [hr] at h
  | load lx₁ =>
    simp only [hr] at h
    have hq : Quiet cat endLine lx lx₁ := .inl hr
    obtain ⟨lx₂, how, hrun, he⟩ := next_eq_some h
    exact ⟨lx₂, how, .head hq hrun, he⟩
  | skip lx₁ =>
    simp only [hr] at h
    have hq : Quiet cat endLine lx lx₁ := .inr hr
    obtain ⟨lx₂, how, hrun, he⟩ := next_eq_some h
    exact ⟨lx₂, how, .head hq hrun, he⟩
  | emit t' how lx₁ =>
    simp only [hr, Except.ok.injEq, Option.some.injEq, Prod.mk.injEq] at h
    obtain ⟨rfl, rfl⟩ := h
    exact ⟨lx, how, .refl, hr⟩
termination_by lx.size
decreasing_by all_goals exact Quiet.size_lt hq

/-- Outside the middle of a line, `next` yields no space, whatever rounds it runs first. -/
theorem next_ne_space (hs : lx.state ≠ .midLine) (h : lx.next cat endLine = .ok (some (t, lx'))) :
    t ≠ Token.space := by
  obtain ⟨lx₁, how, hrun, he⟩ := next_eq_some h
  -- the rounds that yield nothing never enter the middle of a line
  have hs₁ : lx₁.state ≠ .midLine := by
    clear he
    induction hrun with
    | refl => exact hs
    | tail _ hq ih => exact hq.state_ne_midLine ih
  rintro rfl
  obtain ⟨r, rest, -, hread⟩ := round_reads he (by simp) (by simp)
  exact hs₁ (readChar_emit_space hread).1

theorem next_space_state (h : lx.next cat endLine = .ok (some (Token.space, lx'))) :
    lx'.state ≠ .midLine := by
  obtain ⟨lx₁, how, -, he⟩ := next_eq_some h
  obtain ⟨r, rest, -, hread⟩ := round_reads he (by simp) (by simp)
  exact (readChar_emit_space hread).2

/-- The one token of category space that `next` yields is the blank, whatever character of
category space it read. -/
theorem next_blank (h : lx.next cat endLine = .ok (some (t, lx'))) (hs : t.isCat .space) :
    t = Token.space := by
  obtain ⟨lx₁, how, -, he⟩ := next_eq_some h
  obtain ⟨r, rest, -, hread⟩ := round_reads he (by simp) (by simp)
  exact readChar_emit_blank hread hs

end Rounds

/-! ### The line machine -/

/-- The lexers that rounds reach from a line boundary, each round with its own categories and
end-of-line character, with how the tokens yielded from the current line were read. -/
inductive Reached : Lexer → List Reading → Prop
  | start {lx : Lexer} : lx.rest = [] → Reached lx []
  | load {lx lx' : Lexer} {hist : List Reading} (cat : Nat → Category) (endLine : Option Nat) :
      Reached lx hist → lx.round cat endLine = .load lx' → Reached lx' []
  | skip {lx lx' : Lexer} {hist : List Reading} (cat : Nat → Category) (endLine : Option Nat) :
      Reached lx hist → lx.round cat endLine = .skip lx' → Reached lx' hist
  | emit {lx lx' : Lexer} {hist : List Reading} {t : Token} {how : Reading}
      (cat : Nat → Category) (endLine : Option Nat) :
      Reached lx hist → lx.round cat endLine = .emit t how lx' → Reached lx' (hist ++ [how])

section Machine

variable {cat : Nat → Category} {endLine : Option Nat} {lx lx' : Lexer} {r : Nat}
  {rest : List Nat} {t : Token} {hist : List Reading}

/-- Calls of `next` stay among the reached lexers. -/
theorem Reached.next (h : Reached lx hist) (hn : lx.next cat endLine = .ok (some (t, lx'))) :
    ∃ hist', Reached lx' hist' := by
  obtain ⟨lx₁, how, hrun, he⟩ := next_eq_some hn
  have h₁ : ∃ hist₁, Reached lx₁ hist₁ := by
    clear he
    induction hrun with
    | refl => exact ⟨hist, h⟩
    | tail _ hq ih =>
      obtain ⟨hist₁, h₁⟩ := ih
      rcases hq with hl | hs
      · exact ⟨[], .load cat endLine h₁ hl⟩
      · exact ⟨hist₁, .skip cat endLine h₁ hs⟩
  obtain ⟨hist₁, h₁⟩ := h₁
  exact ⟨hist₁ ++ [how], .emit cat endLine h₁ he⟩

/-- TeX's line machine, as an invariant of every lexer reached: while its line has characters
left, the lexer is in the state the machine is in after the tokens the line has yielded, and
the line has not yielded `\par`. -/
theorem Reached.inv (h : Reached lx hist) (hr : lx.rest ≠ []) :
    lx.state = lineState hist ∧ hist.getLast? ≠ some .par := by
  induction h with
  | start h0 => exact absurd h0 hr
  | load cat endLine _ hl => simp [(round_load hl).2]
  | skip cat endLine _ hs ih =>
    obtain ⟨r, rest, hd, hread⟩ := round_reads hs (by simp) (by simp)
    rcases readChar_skip hread with rfl | rfl | rfl
    · exact ih (rest_ne_nil_of_decodeHead hd)
    · exact absurd rfl hr
    · exact absurd rfl hr
  | emit cat endLine _ he _ =>
    obtain ⟨r, rest, -, hread⟩ := round_reads he (by simp) (by simp)
    rcases readChar_emit_state hread with h0 | ⟨hst, hpar⟩
    · exact absurd h0 hr
    · simp [hst, hpar]

/-- What TeX makes of an end of line, by how the tokens its line has yielded were read: `\par`
when there are none, a space when the last was a character or a control symbol other than a
control space, and nothing after a space, a control word or a control space. -/
def endOfLineToken (hist : List Reading) : Option Token :=
  match hist.getLast? with
  | none => some (.cs "par")
  | some .char | some .symbol => some Token.space
  | some _ => none

/-- An end of line yields what its line's history asks for, and discards the rest of the
line. -/
theorem Reached.next_endOfLine (h : Reached lx hist) (hd : decodeHead cat lx.rest = r :: rest)
    (hk : cat r = .endOfLine) :
    lx.next cat endLine =
      match endOfLineToken hist with
      | some t => .ok (some (t, { lx with rest := [], state := .newLine }))
      | none => { lx with rest := [], state := .newLine }.next cat endLine := by
  obtain ⟨hst, hpar⟩ := h.inv (rest_ne_nil_of_decodeHead hd)
  rw [next_eq, round_of_decodeHead hd]
  simp only [readChar, hk, hst]
  cases hl : hist.getLast? with
  | none => simp [lineState, endOfLineToken, hl]
  | some how => cases how <;> simp_all [lineState, endOfLineToken, Reading.state]

theorem next_comment (hd : decodeHead cat lx.rest = r :: rest) (hk : cat r = .comment) :
    lx.next cat endLine = { lx with rest := [] }.next cat endLine := by
  rw [next_eq, round_of_decodeHead hd]
  simp [readChar, hk]

theorem Reached.next_line_start (h : Reached lx []) (hd : decodeHead cat lx.rest = r :: rest)
    (hk : cat r = .ignored ∨ cat r = .space) :
    lx.next cat endLine = { lx with rest }.next cat endLine := by
  have hst : lx.state = .newLine := (h.inv (rest_ne_nil_of_decodeHead hd)).1
  rw [next_eq, round_of_decodeHead hd]
  rcases hk with hk | hk <;> simp [readChar, hk, hst]

end Machine

/-- The lexer runs TeX's three-state line machine under any categories and end-of-line
characters, changed between any two calls. Two calls of `next` never yield two spaces in a
row, and a token of category space is always the blank. On every lexer reached from a line
boundary, with `hist` how the tokens of its line were read and `r` the next character: the
lexer is in the machine's state for `hist`; an end of line yields `\par` if the line has
yielded nothing, a space after a character or a control symbol other than a control space,
and nothing after a space, a control word or a control space, and discards the rest of the
line, as a comment does; and an ignored character or a blank before the line's first token
yields nothing. -/
theorem next_follows_line_machine :
    (∀ (cat cat' : Nat → Category) (endLine endLine' : Option Nat) (lx lx₁ lx₂ : Lexer)
      (t : Token), lx.next cat endLine = .ok (some (Token.space, lx₁)) →
        lx₁.next cat' endLine' = .ok (some (t, lx₂)) → t ≠ Token.space) ∧
    (∀ (cat : Nat → Category) (endLine : Option Nat) (lx lx' : Lexer) (t : Token),
      lx.next cat endLine = .ok (some (t, lx')) → t.isCat .space → t = Token.space) ∧
    (∀ (lx : Lexer) (hist : List Reading), Reached lx hist →
      ∀ (cat : Nat → Category) (endLine : Option Nat) (r : Nat) (rest : List Nat),
        decodeHead cat lx.rest = r :: rest →
        lx.state = lineState hist ∧
        (cat r = .endOfLine → lx.next cat endLine =
          match endOfLineToken hist with
          | some t => .ok (some (t, { lx with rest := [], state := .newLine }))
          | none => { lx with rest := [], state := .newLine }.next cat endLine) ∧
        (cat r = .comment → lx.next cat endLine = { lx with rest := [] }.next cat endLine) ∧
        (hist = [] → (cat r = .ignored ∨ cat r = .space) →
          lx.next cat endLine = { lx with rest }.next cat endLine)) := by
  refine ⟨fun _ _ _ _ _ _ _ _ h₁ h₂ => next_ne_space (next_space_state h₁) h₂,
    fun _ _ _ _ _ h hs => next_blank h hs, ?_⟩
  intro lx hist h cat endLine r rest hd
  refine ⟨(h.inv (rest_ne_nil_of_decodeHead hd)).1, h.next_endOfLine hd, next_comment hd, ?_⟩
  rintro rfl hk
  exact h.next_line_start hd hk

/-- On the line `a` under categories that make 13 an end of line and every other character a
letter, the end of the line after the letter yields a space. -/
theorem next_space_after_letter :
    let cat : Nat → Category := fun c => if c = 13 then .endOfLine else .letter
    let lx : Lexer := { lines := [], rest := [13], line := 1, state := .midLine }
    Reached lx [.char] ∧ decodeHead cat lx.rest = [13] ∧ cat 13 = .endOfLine ∧
      lx.next cat (some 13) = .ok (some (Token.space, { lx with rest := [], state := .newLine })) := by
  intro cat lx
  have h0 : Reached { lines := [[97]] } [] := .start rfl
  have h1 : Reached { lines := [], rest := [97, 13], line := 1 } [] :=
    .load cat (some 13) h0 (by simp [round])
  have h2 : Reached lx ([] ++ [.char]) :=
    .emit (t := .char 97 .letter) cat (some 13) h1 (by simp [round, decodeHead, readChar, cat, lx])
  have hd : decodeHead cat lx.rest = [13] := by simp [decodeHead, lx]
  have hk : cat 13 = .endOfLine := rfl
  exact ⟨h2, hd, hk, (next_follows_line_machine.2.2 lx [.char] h2 cat (some 13) 13 [] hd).2.1 hk⟩

end Lexer

end Galley
