import Galley.Token.Basic

/-!
# The line machine

Text is read a line at a time. Each line loses its trailing blanks, carriage returns and
line feeds, and gets the end-of-line character appended, if there is one. Within a line the
lexer is in one of three states: at the start of a line, in the middle of one, or skipping
blanks after a space or a control word. The category of a character is looked up when the
character is read, so a change of categories takes effect at once.

`^^` followed by two lowercase hex digits stands for the character with that code, and
`^^` followed by another character below 128 for that character's code plus or minus 64;
the superscript character here is any character of category superscript, doubled.

The lexer's one step, `Lexer.next`, answers the next token or the end of the input, and
terminates because every round consumes a character or a line.
-/

namespace Galley

/-- Where the lexer stands within a line. -/
inductive LineState where
  | newLine
  | midLine
  | skipBlanks
deriving DecidableEq, Repr, Inhabited

/-- A text line contains a character of category invalid. -/
structure InvalidChar where
  line : Nat
  code : Nat
deriving DecidableEq, Repr

/-- The report of an invalid character: its line, and its code as four or more upper-case hex
digits. -/
def InvalidChar.message (e : InvalidChar) : String :=
  let hex := String.ofList ((Nat.toDigits 16 e.code).map Char.toUpper)
  "line " ++ toString e.line ++ ": text line contains an invalid character (U+" ++
    String.ofList (List.replicate (4 - hex.length) '0') ++ hex ++ ")"

/-- The lexer: lines not yet begun, the unread part of the current line, the number of
lines begun, and the state within the line. -/
structure Lexer where
  lines : List (List Nat)
  rest : List Nat := []
  line : Nat := 0
  state : LineState := .newLine
deriving Repr, Inhabited

namespace Lexer

/-- Splits text into lines at line feeds, as a line reader does: a last piece that is empty
is no line. Each line loses its trailing blanks, carriage returns and line feeds. -/
def linesOf (s : String) : List (List Nat) :=
  let pieces := s.splitOn "\n"
  let pieces := if pieces.getLast? = some "" then pieces.dropLast else pieces
  pieces.map fun p =>
    ((p.toList.reverse.dropWhile fun c => c = ' ' || c = '\r' || c = '\n').reverse).map Char.toNat

def ofText (s : String) : Lexer := { lines := linesOf s }

def isHexDigit (c : Nat) : Bool := (48 ≤ c && c ≤ 57) || (97 ≤ c && c ≤ 102)

def hexValue (c : Nat) : Nat := if c ≤ 57 then c - 48 else c - 87

/-- Replaces a `^^` form at the head of a line by the character it stands for, as long as
one stands there. -/
def decodeHead (cat : Nat → Category) : List Nat → List Nat
  | c :: c1 :: c2 :: rest =>
    if cat c = .superscript ∧ c1 = c ∧ c2 < 128 then
      match rest with
      | c3 :: rest' =>
        if isHexDigit c2 ∧ isHexDigit c3 then
          decodeHead cat ((hexValue c2 * 16 + hexValue c3) :: rest')
        else decodeHead cat ((if c2 < 64 then c2 + 64 else c2 - 64) :: c3 :: rest')
      | [] => [if c2 < 64 then c2 + 64 else c2 - 64]
    else c :: c1 :: c2 :: rest
  | l => l
termination_by l => l.length

theorem length_decodeHead_le (cat : Nat → Category) (l : List Nat) :
    (decodeHead cat l).length ≤ l.length := by
  fun_induction decodeHead cat l <;> simp_all <;> omega

theorem decodeHead_ne_nil (cat : Nat → Category) (l : List Nat) (h : l ≠ []) :
    decodeHead cat l ≠ [] := by
  fun_induction decodeHead cat l <;> simp_all

/-- Reads the letters of a control word after its first letter: each position is decoded
first, and the word ends at the first character that is not a letter. -/
def letters (cat : Nat → Category) (acc : List Nat) : List Nat → List Nat × List Nat
  | [] => (acc.reverse, [])
  | c :: cs =>
    match _hd : decodeHead cat (c :: cs) with
    | [] => (acc.reverse, [])
    | d :: ds =>
      if cat d = .letter then letters cat (d :: acc) ds
      else (acc.reverse, d :: ds)
termination_by l => l.length
decreasing_by
  have := length_decodeHead_le cat (c :: cs)
  rw [_hd] at this
  simp at this ⊢
  omega

/-- The control sequence after an escape character: empty at the end of a line, a control
symbol for a non-letter (a control space sets the lexer skipping blanks), and otherwise
the longest run of letters, after which blanks are skipped. -/
def controlSequence (cat : Nat → Category) (lx : Lexer) : Token × Lexer :=
  match decodeHead cat lx.rest with
  | [] => (.cs "", { lx with rest := [], state := .midLine })
  | r :: rest =>
    if cat r ≠ .letter then
      (.cs (codeText r),
        { lx with rest, state := if cat r = .space then .skipBlanks else .midLine })
    else
      let (word, rest) := letters cat [r] rest
      (.cs (String.ofList (word.map Char.ofNat)), { lx with rest, state := .skipBlanks })

/-- The measure that every round of `next` decreases: lines not begun, then characters
left in the current line. -/
def size (lx : Lexer) : Nat × Nat := (lx.lines.length, lx.rest.length)

/-- The next token, `none` at the end of the text, or the invalid character met. `cat`
gives the current category of a code, and `endLine` the character appended to each line
begun now. -/
def next (cat : Nat → Category) (endLine : Option Nat) (lx : Lexer) :
    Except InvalidChar (Option (Token × Lexer)) :=
  match _hr : lx.rest with
  | [] =>
    match _hl : lx.lines with
    | [] => .ok none
    | ln :: lns =>
      next cat endLine
        { lines := lns, rest := ln ++ endLine.toList, line := lx.line + 1, state := .newLine }
  | c :: cs =>
    match _hd : decodeHead cat (c :: cs) with
    | [] => .ok none
    | r :: rest =>
      let lx' := { lx with rest }
      match cat r with
      | .escape => .ok (some (controlSequence cat lx'))
      | .endOfLine =>
        let lx' := { lx' with rest := [], state := .newLine }
        match lx.state with
        | .newLine => .ok (some (.cs "par", lx'))
        | .midLine => .ok (some (Token.space, lx'))
        | .skipBlanks => next cat endLine lx'
      | .space =>
        if lx.state = .midLine then .ok (some (Token.space, { lx' with state := .skipBlanks }))
        else next cat endLine lx'
      | .ignored => next cat endLine lx'
      | .comment => next cat endLine { lx' with rest := [] }
      | .invalid => .error ⟨lx.line, r⟩
      | k => .ok (some (.char r k, { lx' with state := .midLine }))
termination_by lx.size
decreasing_by
  · simp only [size, Prod.lex_def, _hl, List.length_cons]; omega
  all_goals
    have := length_decodeHead_le cat (c :: cs)
    rw [_hd] at this
    simp only [size, Prod.lex_def, _hr, List.length_cons, List.length_nil, true_and] at this ⊢
    omega

/-- The lexer once the text is read to its end: every line has been begun. -/
def finished (lx : Lexer) : Lexer :=
  { lines := [], rest := [], line := lx.line + lx.lines.length, state := lx.state }

/-- Reads at most `limit` tokens: the tokens, the lexer after them (finished at the end of the
text), and the invalid character that stopped the reading, if one did. -/
def scan (cat : Nat → Category) (endLine : Option Nat) : Nat → Lexer →
    List Token × Lexer × Option InvalidChar
  | 0, lx => ([], lx, none)
  | k + 1, lx =>
    match lx.next cat endLine with
    | .error e => ([], { lx with line := e.line }, some e)
    | .ok none => ([], lx.finished, none)
    | .ok (some (t, lx')) =>
      let (ts, last, e) := scan cat endLine k lx'
      (t :: ts, last, e)

end Lexer

end Galley
