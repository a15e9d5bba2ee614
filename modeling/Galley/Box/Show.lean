import Galley.Box.Basic
import Galley.Decimal.Digits
import Galley.Token.Basic

/-!
# Listing boxes

`Box.listing` writes a box the way `\showbox` does: one line per item, indented by one dot
per level of nesting, dimensions in points with the fewest digits that read back. A box
line gives height, depth and width, then its glue setting (five significant digits) and
its shift. `Box.text` gives just the characters: blanks for interword glue, and a line
break between the boxes of a vertical list.
-/

namespace Galley

namespace Box

def ruleDim (d : Scaled) : String := if d = running then "*" else d.format

/-- The head line of a box without its indentation: kind, dimensions, glue setting, shift. -/
def headLine (b : Box) : String :=
  (if b.kind = .vlist then "\\vbox" else "\\hbox") ++ "(" ++ b.height.format ++ "+" ++
    b.depth.format ++ ")x" ++ b.width.format ++
  (if b.sign ≠ .unset ∧ b.set != 0 then
    ", glue set " ++ (if b.sign = .shrinking then "- " else "") ++ Decimal.fixedG b.set 5 ++
      (if b.order ≠ .normal then b.order.name else "")
   else "") ++
  (if b.shift ≠ 0 then ", shifted " ++ b.shift.format else "")

def dots (depth : Nat) : String := String.ofList (List.replicate depth '.')

mutual

/-- Appends to `acc` the listing lines of an item at nesting `depth`, each ended by a
newline. -/
def itemListing (depth : Nat) (acc : String) : Item → String
  | .box b => boxListing depth acc b
  | .char f c _ _ _ => acc ++ dots depth ++ "\\" ++ f ++ " " ++ codeText c ++ "\n"
  | .glue g k =>
    acc ++ dots depth ++ "\\glue" ++
      (if k ≠ .explicit ∧ k ≠ .interword then "(\\" ++ k.name ++ ")" else "") ++ " " ++ g.toText ++ "\n"
  | .kern w => acc ++ dots depth ++ "\\kern" ++ w.format ++ "\n"
  | .rule w h d =>
    acc ++ dots depth ++ "\\rule(" ++ ruleDim h ++ "+" ++ ruleDim d ++ ")x" ++ ruleDim w ++ "\n"

/-- Appends to `acc` the listing of a box at nesting `depth`: its head line, then its items
one level deeper. -/
def boxListing (depth : Nat) (acc : String) : Box → String
  | b@⟨_, _, _, _, _, list, _, _, _⟩ =>
    itemsListing (depth + 1) (acc ++ dots depth ++ b.headLine ++ "\n") list

def itemsListing (depth : Nat) (acc : String) : List Item → String
  | [] => acc
  | it :: rest => itemsListing depth (itemListing depth acc it) rest

end

/-- The listing of a box, as `\showbox` writes it. -/
def listing (b : Box) : String := boxListing 0 "" b

mutual

/-- Appends the text of a box to `acc`: characters, blanks for interword glue in a
horizontal list, and a line break before each box of a vertical list after the first,
unless nothing has been written yet. -/
def textInto (acc : String) : Box → String
  | ⟨kind, _, _, _, _, list, _, _, _⟩ => itemsText kind acc 0 list

def itemsText (k : BoxKind) (acc : String) (i : Nat) : List Item → String
  | [] => acc
  | it :: rest =>
    let acc := match it with
      | .char _ c _ _ _ => acc ++ codeText c
      | .glue _ gk => if gk = .interword ∧ k = .hlist then acc.push ' ' else acc
      | .box b =>
        let acc := if k = .vlist ∧ i > 0 ∧ !acc.isEmpty then acc.push '\n' else acc
        textInto acc b
      | _ => acc
    itemsText k acc (i + 1) rest

end

/-- The characters of a box as text. -/
def text (b : Box) : String := textInto "" b

end Box

end Galley
