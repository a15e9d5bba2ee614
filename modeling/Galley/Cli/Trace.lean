import Galley.Engine.State
import Galley.Decimal.Digits

/-!
# Trace lines

With `-trace` the command writes one line per engine event: the group level in braces, the
kind of event, and what it carries. Assigned values are written in their plain form: a
number, a dimension, a glue, a category, a font or a meaning by its text; a box by its
fields in declaration order between `&{` and `}`, its items by theirs between braces, and a
void box as `<nil>`. A box nested in a list is written as a reference, which names no
position a reader could rely on.
-/

namespace Galley.Cli

def itemPlain : Item → String
  | .char f c w h d =>
    "\x7b" ++ f ++ " " ++ toString c ++ " " ++ Scaled.toText w ++ " " ++ Scaled.toText h ++ " " ++
      Scaled.toText d ++ "\x7d"
  | .glue g k =>
    "\x7b" ++ g.toText ++ " " ++ (if k = .explicit then "" else k.name) ++ "\x7d"
  | .kern w => "\x7b" ++ Scaled.toText w ++ "\x7d"
  | .rule w h d =>
    "\x7b" ++ Scaled.toText w ++ " " ++ Scaled.toText h ++ " " ++ Scaled.toText d ++ "\x7d"
  | .box _ => "0xc000010000"

def signNumber : GlueSign → Nat
  | .unset => 0
  | .stretching => 1
  | .shrinking => 2

/-- The plain form of a box: kind, dimensions, shift, items, glue sign, order and ratio. -/
def boxPlain (b : Box) : String :=
  "&\x7b" ++ (if b.kind = .vlist then "1" else "0") ++ " " ++ Scaled.toText b.width ++ " " ++
    Scaled.toText b.height ++ " " ++ Scaled.toText b.depth ++ " " ++ Scaled.toText b.shift ++
    " [" ++ " ".intercalate (b.list.map itemPlain) ++ "] " ++ toString (signNumber b.sign) ++
    " " ++ b.order.name ++ " " ++ Decimal.shortestG b.set ++ "\x7d"

def valuePlain : Equivalent → String
  | .box none => "<nil>"
  | .box (some b) => boxPlain b
  | v => v.text

/-- The trace line of an event. -/
def eventLine (t : Traced) : String :=
  let kind := match t.event with
    | .token .. => "token" | .expand .. => "expand" | .primitive .. => "primitive"
    | .assign .. => "assign" | .restore .. => "restore" | .mode .. => "mode"
    | .boxPacked .. => "box" | .message .. => "message" | .missing .. => "missing"
  let pre := "\x7b" ++ toString t.depth ++ "\x7d " ++ kind
  match t.event with
  | .token tk => pre ++ " " ++ tk.text
  | .expand name args => pre ++ " " ++ name ++ " (" ++ toString args.length ++ " args)"
  | .primitive name result cond caseNo =>
    if !result.isEmpty then pre ++ " " ++ name ++ " -> " ++ tokensText result
    else if cond then pre ++ " " ++ name ++ " true"
    else if caseNo ≠ 0 then pre ++ " " ++ name ++ " case " ++ toString caseNo.toInt
    else pre ++ " " ++ name
  | .assign k _ v g => pre ++ (if g then " global" else "") ++ " " ++ k.text ++ "=" ++ valuePlain v
  | .restore k v => pre ++ " " ++ k.text ++ "=" ++ valuePlain v
  | .mode a b => pre ++ " " ++ a.name ++ " -> " ++ b.name
  | .boxPacked _ r =>
    if r.status = .fine then pre
    else pre ++ " " ++ r.status.name ++ " badness " ++ toString r.badness
  | .message s => pre ++ " " ++ s
  | .missing tk f => pre ++ " " ++ tk.text ++ " in " ++ f

end Galley.Cli
