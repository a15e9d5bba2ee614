/-!
# Tokens

A token is either a character together with its category code, or a control sequence
named by a string. Category codes are the sixteen classes that decide what a character
does; a table may also hold a code past fifteen, which then only travels along.

Character codes are code points. A code that is not a Unicode scalar value (a surrogate,
or past `0x10FFFF`) is printed as the replacement character U+FFFD.
-/

namespace Galley

/-- The category of a character. Codes past fifteen are kept as `beyond`. -/
inductive Category where
  | escape
  | beginGroup
  | endGroup
  | mathShift
  | alignTab
  | endOfLine
  | parameter
  | superscript
  | subscript
  | ignored
  | space
  | letter
  | other
  | active
  | comment
  | invalid
  | beyond (code : Nat)
deriving DecidableEq, Repr, Inhabited, Hashable

namespace Category

def code : Category → Nat
  | escape => 0 | beginGroup => 1 | endGroup => 2 | mathShift => 3 | alignTab => 4
  | endOfLine => 5 | parameter => 6 | superscript => 7 | subscript => 8 | ignored => 9
  | space => 10 | letter => 11 | other => 12 | active => 13 | comment => 14 | invalid => 15
  | beyond n => n

def ofCode (n : Nat) : Category :=
  match n with
  | 0 => escape | 1 => beginGroup | 2 => endGroup | 3 => mathShift | 4 => alignTab
  | 5 => endOfLine | 6 => parameter | 7 => superscript | 8 => subscript | 9 => ignored
  | 10 => space | 11 => letter | 12 => other | 13 => active | 14 => comment | 15 => invalid
  | n => beyond n

/-- The name of a category, as trace output prints it. -/
def name : Category → String
  | escape => "escape" | beginGroup => "begin-group" | endGroup => "end-group"
  | mathShift => "math-shift" | alignTab => "alignment-tab" | endOfLine => "end-of-line"
  | parameter => "parameter" | superscript => "superscript" | subscript => "subscript"
  | ignored => "ignored" | space => "space" | letter => "letter" | other => "other"
  | active => "active" | comment => "comment" | invalid => "invalid"
  | beyond n => "category(" ++ toString n ++ ")"

end Category

/-- A code point is a Unicode scalar value: below `0x110000` and not a surrogate. -/
def isScalar (c : Nat) : Bool := c < 0xD800 || (0xDFFF < c && c < 0x110000)

/-- A character number as a code: a character number is a signed 32-bit word, and its code
is that word read unsigned, so every number has a code and distinct numbers distinct codes.
A negative number gets a code of `2^31` or more, which is no scalar value. -/
def codeOfWord (w : Int32) : Nat := w.toUInt32.toNat

/-- The character number a code stands for: the signed reading of its 32-bit word. -/
def signedCode (c : Nat) : Int := if c ≥ 2147483648 then (c : Int) - 4294967296 else c

/-- The text of one code point; a code that is no scalar value prints as U+FFFD. -/
def codeText (c : Nat) : String :=
  if isScalar c then String.singleton (Char.ofNat c) else "\uFFFD"

/-- A name made of ASCII letters only, and not empty. Such a control sequence is a
control word, and printing puts a space after it before a letter. -/
def isLetterName (s : String) : Bool :=
  !s.isEmpty && s.all fun c => ('a' ≤ c && c ≤ 'z') || ('A' ≤ c && c ≤ 'Z')

/-- A token: a character code with its category, or a control sequence. -/
inductive Token where
  | char (code : Nat) (cat : Category)
  | cs (name : String)
deriving DecidableEq, Repr, Inhabited, Hashable

namespace Token

def space : Token := char 32 .space

def isCat (t : Token) (cat : Category) : Bool :=
  match t with
  | char _ c => c == cat
  | cs _ => false

def isCS : Token → Bool
  | cs _ => true
  | char .. => false

/-- The text of a token: `\name` for a control sequence, a blank for any space
character, and the character itself otherwise. -/
def text : Token → String
  | cs n => "\\" ++ n
  | char c cat => if cat = .space then " " else codeText c

/-- How messages describe a token: by the role of its category. -/
def describe : Token → String
  | cs n => "\\" ++ n
  | char c cat =>
    let s := codeText c
    match cat with
    | .beginGroup => "begin-group character " ++ s
    | .endGroup => "end-group character " ++ s
    | .mathShift => "math shift character " ++ s
    | .alignTab => "alignment tab character " ++ s
    | .parameter => "macro parameter character " ++ s
    | .superscript => "superscript character " ++ s
    | .subscript => "subscript character " ++ s
    | .space => "blank space " ++ s
    | .letter => "the letter " ++ s
    | .active => "active character " ++ s
    | _ => "the character " ++ s

/-- Tokens of category other for the characters of a string; a blank becomes the space
token. This is how expansion turns printed text back into tokens. -/
def ofText (s : String) : List Token :=
  s.toList.map fun c => if c = ' ' then space else char c.toNat .other

end Token

/-- The text of a token list: the tokens' texts, with a blank after a control word
exactly when a letter follows it. -/
def tokensText (l : List Token) : String := go "" l
where
  /-- Appends the text of the tokens to `acc`. -/
  go (acc : String) : List Token → String
    | [] => acc
    | t :: rest =>
      let sep := match t, rest with
        | .cs n, .char _ .letter :: _ => if isLetterName n then " " else ""
        | _, _ => ""
      go (acc ++ t.text ++ sep) rest

end Galley
