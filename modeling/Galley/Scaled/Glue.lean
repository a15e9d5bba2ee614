import Galley.Scaled.Basic

/-!
# Glue

Glue is space that can stretch and shrink: a natural width, a stretch and a shrink, each
of the latter with an order of infinity. Finite stretch (order `normal`) is measured in
points; `fil`, `fill` and `filll` stretch dominates every lower order completely. A stored
format may give an order a rank past `filll`; such an order is kept and compared by its
rank, and prints as points.

`Glue.add` is the sum `\advance` computes: widths add, and two stretch components of one
order add. Of two components of different orders the one of higher order wins, with one
exception: a zero component added to one of lower order leaves that one. A zero of higher
order in the glue that is advanced wins all the same, and absorbs the lower component, so
the sum depends on the order of its operands. A zero sum is normalised to order `normal`.
-/

namespace Galley

/-- The order of infinity of a stretch or shrink component. -/
inductive Order where
  | normal
  | fil
  | fill
  | filll
  /-- A rank past three, which only a stored format gives. -/
  | beyond (rank : Nat)
deriving DecidableEq, Repr, Inhabited

namespace Order

/-- The rank of an order: `normal` is 0 and `filll` is 3. -/
def rank : Order → Nat
  | normal => 0
  | fil => 1
  | fill => 2
  | filll => 3
  | beyond r => r

/-- The order of rank `n`: a named one up to three, `beyond n` past that. -/
def ofRank : Nat → Order
  | 0 => normal
  | 1 => fil
  | 2 => fill
  | 3 => filll
  | n => beyond n

/-- The unit name of an order as glue text prints it; a rank past three prints as points. -/
def name : Order → String
  | normal => "pt"
  | fil => "fil"
  | fill => "fill"
  | filll => "filll"
  | beyond _ => "pt"

instance : LT Order := ⟨fun a b => a.rank < b.rank⟩

instance (a b : Order) : Decidable (a < b) := inferInstanceAs (Decidable (a.rank < b.rank))

end Order

/-- Glue: natural width, stretch and shrink, each with its order. -/
structure Glue where
  width : Scaled := 0
  stretch : Scaled := 0
  stretchOrder : Order := .normal
  shrink : Scaled := 0
  shrinkOrder : Order := .normal
deriving DecidableEq, Repr, Inhabited

namespace Glue

def zero : Glue := {}

def fixed (w : Scaled) : Glue := { width := w }

/-- Width, stretch and shrink are all zero; the orders do not matter. -/
def isZero (g : Glue) : Bool := g.width == 0 && g.stretch == 0 && g.shrink == 0

/-- The text of glue: the width, then ` plus` and ` minus` clauses for the non-zero
components, each with its order's unit. -/
def toText (g : Glue) : String :=
  g.width.toText ++
    (if g.stretch ≠ 0 then " plus " ++ g.stretch.format ++ g.stretchOrder.name else "") ++
    (if g.shrink ≠ 0 then " minus " ++ g.shrink.format ++ g.shrinkOrder.name else "")

/-- Adds one stretch (or shrink) component to another: at equal orders the amounts add;
a non-zero component of higher order replaces a lower one; a zero sum is order `normal`. -/
def addComponent (a : Scaled × Order) (b : Scaled × Order) : Scaled × Order :=
  let r := if a.2 = b.2 then (a.1 + b.1, a.2)
    else if a.2 < b.2 ∧ b.1 ≠ 0 then b else a
  if r.1 = 0 then (0, .normal) else r

/-- The sum of two glues as `\advance` forms it. -/
def add (a b : Glue) : Glue :=
  let st := addComponent (a.stretch, a.stretchOrder) (b.stretch, b.stretchOrder)
  let sh := addComponent (a.shrink, a.shrinkOrder) (b.shrink, b.shrinkOrder)
  { width := a.width + b.width, stretch := st.1, stretchOrder := st.2,
    shrink := sh.1, shrinkOrder := sh.2 }

def neg (g : Glue) : Glue :=
  { g with width := -g.width, stretch := -g.stretch, shrink := -g.shrink }

def fil : Glue := { stretch := 65536, stretchOrder := .fil }

def fill : Glue := { stretch := 65536, stretchOrder := .fill }

def ss : Glue := { stretch := 65536, stretchOrder := .fil, shrink := 65536, shrinkOrder := .fil }

def filneg : Glue := { stretch := -65536, stretchOrder := .fil }

end Glue

end Galley
