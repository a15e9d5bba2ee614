/-!
# The line editor

On a terminal in raw mode the command edits each line itself, reading bytes and echoing
what the terminal should show: printable characters are inserted at the cursor, backspace
and delete remove one, the arrows move, `Ctrl+A` and `Ctrl+E` jump to the ends, `Ctrl+K` and
`Ctrl+U` cut after and before the cursor. After a change in the middle of the line the rest of
it is redrawn and the cursor moved back. Enter ends the line, `Ctrl+C` abandons it, and
`Ctrl+D` on an empty line ends the input. Multi-byte characters are read whole; a byte
sequence that is no character becomes U+FFFD.

The bytes are read a key at a time (`readKey`): one byte for most keys, an escape sequence
for the arrows and delete, a lead byte and its continuation bytes for a character beyond
ASCII. What a key does to the line is `Editor.press`.
-/

namespace Galley.Cli

/-- A key as the editor reads it from the terminal. -/
inductive Keystroke where
  /-- `Ctrl+D`: deletes at the cursor; on an empty line it ends the input. -/
  | ctrlD
  /-- `Ctrl+C`: abandons the line. -/
  | interrupt
  /-- Carriage return or line feed. -/
  | enter
  /-- `DEL` or `BS`: deletes before the cursor. -/
  | backspace
  /-- `ESC [ 3 ~`: deletes at the cursor. -/
  | delete
  /-- `ESC [ D` and `ESC [ C`. -/
  | left
  | right
  /-- `Ctrl+A` and `Ctrl+E`: to the start and to the end of the line. -/
  | home
  | toEnd
  /-- `Ctrl+K` and `Ctrl+U`: cut after and before the cursor. -/
  | killEnd
  | killStart
  /-- A character typed: printable ASCII, or a multi-byte sequence. -/
  | char (c : Char)
  /-- Any other control byte or escape sequence, passed over. -/
  | ignored
deriving DecidableEq, Repr

/-- A line being edited: its characters, the cursor, and the echo written so far. -/
structure Editor where
  line : List Char := []
  cursor : Nat := 0
  echo : String := ""

namespace Editor

/-- Writes the line from the cursor on, clears what followed it, and moves back. -/
def redraw (ed : Editor) : Editor :=
  let tail := ed.line.drop ed.cursor
  { ed with echo := ed.echo ++ "\x1b[K" ++ String.ofList tail ++
      (if tail.isEmpty then "" else "\x1b[" ++ toString tail.length ++ "D") }

def insert (ed : Editor) (c : Char) : Editor :=
  let ed := { ed with line := ed.line.take ed.cursor ++ [c] ++ ed.line.drop ed.cursor,
                      cursor := ed.cursor + 1, echo := ed.echo.push c }
  if ed.cursor < ed.line.length then ed.redraw else ed

def removeAt (ed : Editor) (i : Nat) : Editor :=
  { ed with line := ed.line.take i ++ ed.line.drop (i + 1) }

def isTail (b : UInt8) : Bool := 0x80 ≤ b ∧ b < 0xc0

/-- The character a multi-byte sequence starts with, or U+FFFD when it starts none. -/
def decode (bytes : List UInt8) : Char :=
  let t (b : UInt8) : Nat := (b &&& 0x3f).toNat
  match bytes with
  | [b0, b1] =>
    if 0xc2 ≤ b0 ∧ b0 ≤ 0xdf ∧ isTail b1 then Char.ofNat ((b0 &&& 0x1f).toNat * 64 + t b1)
    else '�'
  | [b0, b1, b2] =>
    let lo : UInt8 := if b0 = 0xe0 then 0xa0 else 0x80
    let hi : UInt8 := if b0 = 0xed then 0x9f else 0xbf
    if 0xe0 ≤ b0 ∧ b0 ≤ 0xef ∧ lo ≤ b1 ∧ b1 ≤ hi ∧ isTail b2 then
      Char.ofNat ((b0 &&& 0x0f).toNat * 4096 + t b1 * 64 + t b2)
    else '�'
  | [b0, b1, b2, b3] =>
    let lo : UInt8 := if b0 = 0xf0 then 0x90 else 0x80
    let hi : UInt8 := if b0 = 0xf4 then 0x8f else 0xbf
    if 0xf0 ≤ b0 ∧ b0 ≤ 0xf4 ∧ lo ≤ b1 ∧ b1 ≤ hi ∧ isTail b2 ∧ isTail b3 then
      Char.ofNat ((b0 &&& 0x07).toNat * 262144 + t b1 * 4096 + t b2 * 64 + t b3)
    else '�'
  | _ => '�'

/-- How many bytes follow a lead byte of a multi-byte character. -/
def following (b : UInt8) : Nat :=
  if b &&& 0xe0 = 0xc0 then 1 else if b &&& 0xf0 = 0xe0 then 2
  else if b &&& 0xf8 = 0xf0 then 3 else 0

end Editor

/-- The key an escape sequence gives, from the bytes after `ESC`: `[ C`, `[ D` and `[ 3 ~`
move right, left and delete; any other sequence is passed over as far as it was read. -/
def readEscape : List UInt8 → Keystroke × List UInt8
  | 0x5b :: 0x43 :: rest => (.right, rest)
  | 0x5b :: 0x44 :: rest => (.left, rest)
  | 0x5b :: 0x33 :: t :: rest => (if t = 0x7e then .delete else .ignored, rest)
  | 0x5b :: _ :: rest => (.ignored, rest)
  | _ :: rest => (.ignored, rest)
  | [] => (.ignored, [])

/-- The key that begins with byte `b`, and the bytes after it. -/
def keyAt (b : UInt8) (rest : List UInt8) : Keystroke × List UInt8 :=
  if b = 0x04 then (.ctrlD, rest)
  else if b = 0x03 then (.interrupt, rest)
  else if b = 0x0d ∨ b = 0x0a then (.enter, rest)
  else if b = 0x7f ∨ b = 0x08 then (.backspace, rest)
  else if b = 0x1b then readEscape rest
  else if b = 0x01 then (.home, rest)
  else if b = 0x05 then (.toEnd, rest)
  else if b = 0x0b then (.killEnd, rest)
  else if b = 0x15 then (.killStart, rest)
  else if 0x20 ≤ b ∧ b < 0x7f then (.char (Char.ofNat b.toNat), rest)
  else if b ≥ 0x80 then
    (.char (Editor.decode (b :: rest.take (Editor.following b))), rest.drop (Editor.following b))
  else (.ignored, rest)

/-- Reads one key from the terminal's bytes: the key and the bytes after it, or nothing at
the end of the input. -/
def readKey : List UInt8 → Option (Keystroke × List UInt8)
  | [] => none
  | b :: rest => some (keyAt b rest)

theorem readEscape_length_le (bytes : List UInt8) :
    (readEscape bytes).2.length ≤ bytes.length := by
  unfold readEscape
  split <;> simp <;> omega

theorem keyAt_length_le (b : UInt8) (rest : List UInt8) : (keyAt b rest).2.length ≤ rest.length := by
  unfold keyAt
  repeat' split
  all_goals first | exact readEscape_length_le rest | simp

/-- Every key takes at least one byte. -/
theorem readKey_shorter {bytes rest : List UInt8} {k : Keystroke}
    (h : readKey bytes = some (k, rest)) : rest.length < bytes.length := by
  cases bytes with
  | nil => simp [readKey] at h
  | cons b bs =>
    simp only [readKey, Option.some.injEq] at h
    have hle := keyAt_length_le b bs
    rw [h] at hle
    simpa using Nat.lt_succ_of_le hle

/-- What a key does to the line being edited: editing goes on, or the line is over, and
then it says whether the input ended with it. -/
inductive Pressed where
  | editing (ed : Editor)
  | finished (ed : Editor) (ended : Bool)

namespace Editor

/-- The editor's answer to one key. -/
def press (ed : Editor) : Keystroke → Pressed
  | .ctrlD =>
    if ed.line.length = 0 then .finished ed true
    else if ed.cursor < ed.line.length then .editing (ed.removeAt ed.cursor).redraw
    else .editing ed
  | .interrupt => .finished { ed with line := [], echo := ed.echo ++ "^C\r\n" } false
  | .enter => .finished { ed with echo := ed.echo ++ "\r\n" } false
  | .backspace =>
    if ed.cursor > 0 then
      let ed := ed.removeAt (ed.cursor - 1)
      .editing { ed with cursor := ed.cursor - 1, echo := ed.echo ++ "\x08" }.redraw
    else .editing ed
  | .right =>
    if ed.cursor < ed.line.length then
      .editing { ed with cursor := ed.cursor + 1, echo := ed.echo ++ "\x1b[C" }
    else .editing ed
  | .left =>
    if ed.cursor > 0 then .editing { ed with cursor := ed.cursor - 1, echo := ed.echo ++ "\x1b[D" }
    else .editing ed
  | .delete =>
    if ed.cursor < ed.line.length then .editing (ed.removeAt ed.cursor).redraw else .editing ed
  | .home =>
    if ed.cursor > 0 then
      .editing { ed with echo := ed.echo ++ "\x1b[" ++ toString ed.cursor ++ "D", cursor := 0 }
    else .editing ed
  | .toEnd =>
    if ed.cursor < ed.line.length then
      .editing { ed with echo := ed.echo ++ "\x1b[" ++ toString (ed.line.length - ed.cursor) ++ "C",
                         cursor := ed.line.length }
    else .editing ed
  | .killEnd =>
    if ed.cursor < ed.line.length then
      .editing { ed with line := ed.line.take ed.cursor, echo := ed.echo ++ "\x1b[K" }
    else .editing ed
  | .killStart =>
    if ed.cursor > 0 then
      .editing { ed with echo := ed.echo ++ "\x1b[" ++ toString ed.cursor ++ "D",
                         line := ed.line.drop ed.cursor, cursor := 0 }.redraw
    else .editing ed
  | .char c => .editing (ed.insert c)
  | .ignored => .editing ed

/-- Reads one line from the bytes, answering the editor at its end, whether the input ended
(rather than the line), and the bytes left. -/
def readLine (ed : Editor) (bytes : List UInt8) : Editor × Bool × List UInt8 :=
  match _hk : readKey bytes with
  | none => (ed, true, [])
  | some (k, rest) =>
    match ed.press k with
    | .editing ed => readLine ed rest
    | .finished ed ended => (ed, ended, rest)
termination_by bytes.length
decreasing_by exact readKey_shorter _hk

/-- A line that does not end the input takes at least one byte. -/
theorem readLine_shorter {ed ed' : Editor} {bytes rest : List UInt8}
    (h : readLine ed bytes = (ed', false, rest)) : rest.length < bytes.length := by
  fun_induction readLine ed bytes with
  | case1 => simp at h
  | case2 ed bytes k rest' hk ed₁ hp ih => exact Nat.lt_trans (ih h) (readKey_shorter hk)
  | case3 ed bytes k rest' hk ed₁ ended hp =>
    simp only [Prod.mk.injEq] at h
    obtain ⟨-, -, rfl⟩ := h
    exact readKey_shorter hk

end Editor

/-- The lines a terminal's bytes give, each with the echo its editing wrote, until the input
ends; and the echo of the line the input ended in. -/
def terminalLines (bytes : List UInt8) : List (String × String) × String :=
  match _hl : Editor.readLine {} bytes with
  | (ed, true, _) => ([], ed.echo)
  | (ed, false, rest) =>
    let (ls, last) := terminalLines rest
    ((ed.echo, String.ofList ed.line) :: ls, last)
termination_by bytes.length
decreasing_by exact Editor.readLine_shorter _hl

end Galley.Cli
