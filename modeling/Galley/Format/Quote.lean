import Galley.Digest.Hex

/-!
# Quoted text

Two ways of writing a string between double quotes. `jsonString` is the form used in
snapshot documents, whose bytes are hashed, so every escape is fixed: the two quote-breaking
characters, the five named controls, other controls as `\u00xx`, the HTML-sensitive `<`, `>`,
`&`, and the line and paragraph separators as `\uxxxx`. `quoted` is the form used in error
messages, which keeps printable characters and writes the rest as escapes.
-/

namespace Galley.Format

open Galley.Digest

def hex4 (c : Nat) : String :=
  String.ofList [hexDigit (c / 4096 % 16), hexDigit (c / 256 % 16), hexDigit (c / 16 % 16),
    hexDigit (c % 16)]

/-- The escape of one character inside a JSON string of a snapshot document. -/
def jsonChar (ch : Char) : String :=
  match ch with
  | '"' => "\\\""
  | '\\' => "\\\\"
  | '\n' => "\\n"
  | '\r' => "\\r"
  | '\t' => "\\t"
  | '<' | '>' | '&' => "\\u" ++ hex4 ch.toNat
  | _ =>
    if ch.toNat = 8 then "\\b"
    else if ch.toNat = 12 then "\\f"
    else if ch.toNat < 32 ∨ ch.toNat = 0x2028 ∨ ch.toNat = 0x2029 then "\\u" ++ hex4 ch.toNat
    else ch.toString

def jsonString (s : String) : String :=
  "\"" ++ String.join (s.toList.map jsonChar) ++ "\""

/-- Whether a character is printed as itself by `quoted`: not a control character, a
formatting character or a separator other than the space. -/
def isPrintable (c : Nat) : Bool :=
  !(c < 32 ∨ (0x7f ≤ c ∧ c < 0xa0) ∨ c = 0xad ∨ c = 0x2028 ∨ c = 0x2029 ∨
    (0x200b ≤ c ∧ c ≤ 0x200f) ∨ (0x202a ≤ c ∧ c ≤ 0x202e) ∨ (0x2060 ≤ c ∧ c ≤ 0x206f) ∨
    c = 0xfeff ∨ (0xe000 ≤ c ∧ c ≤ 0xf8ff) ∨ (0xfff9 ≤ c ∧ c ≤ 0xfffb) ∨ c = 0xfffe ∨
    c = 0xffff ∨ (0x2000 ≤ c ∧ c ≤ 0x200a) ∨ c = 0x3000 ∨ c = 0x1680 ∨ c = 0x205f ∨ c = 0xa0)

/-- The escape of one character inside a quoted string of a message. -/
def quotedChar (ch : Char) : String :=
  let c := ch.toNat
  match ch with
  | '"' => "\\\""
  | '\\' => "\\\\"
  | _ =>
    if isPrintable c then ch.toString
    else if c = 7 then "\\a" else if c = 8 then "\\b" else if c = 12 then "\\f"
    else if c = 10 then "\\n" else if c = 13 then "\\r" else if c = 9 then "\\t"
    else if c = 11 then "\\v"
    else if c < 32 ∨ c = 0x7f then "\\x" ++ String.ofList [hexDigit (c / 16), hexDigit (c % 16)]
    else if c < 0x10000 then "\\u" ++ hex4 c
    else "\\U" ++ String.ofList ((List.range 8).reverse.map fun i => hexDigit (c / Nat.pow 16 i % 16))

/-- A string between double quotes for a message, with its unprintable characters escaped. -/
def quoted (s : String) : String :=
  "\"" ++ String.join (s.toList.map quotedChar) ++ "\""

end Galley.Format
