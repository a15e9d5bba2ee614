import Std.Data.HashMap

/-!
# Scoped tables with a save stack

A scoped table maps keys to values, with groups: a value assigned locally inside a group
reverts when the group closes, a value assigned globally survives every enclosing group.
Closing a group does not scan the outer groups. Each group logs a key's previous value at
the first local assignment in it, together with the key's *generation*, a counter that
every global assignment advances. On closing, an entry is restored only if its key's
generation is unchanged, so a later global assignment is never undone; a key whose
generation moved since it was logged is logged again on its next local assignment.

The main statement about this table, that it agrees with the model which copies the whole
map at every group, is proved elsewhere; here are the operations.
-/

namespace Galley.Scope

/-- The value a key had before a group's first local assignment to it: `none` when the key
held no explicit value, with the key's generation at that time. -/
structure Saved (κ ν : Type) where
  key : κ
  prev : Option ν
  gen : Nat

/-- An open group: what it was opened for, its saved entries in the order they were
logged, and the generation at which each key was last logged in it. -/
structure Frame (κ ν ι : Type) [BEq κ] [Hashable κ] where
  info : ι
  saved : Array (Saved κ ν) := #[]
  logged : Std.HashMap κ Nat := {}

/-- A table of values with a stack of open groups, innermost first. `dflt` gives the value
of a key that holds no explicit value. -/
structure Table (κ ν ι : Type) [BEq κ] [Hashable κ] where
  dflt : κ → ν
  values : Std.HashMap κ ν := {}
  gens : Std.HashMap κ Nat := {}
  frames : List (Frame κ ν ι) := []

namespace Table

variable {κ ν ι : Type} [BEq κ] [Hashable κ]

def empty (dflt : κ → ν) : Table κ ν ι := { dflt }

def get (t : Table κ ν ι) (k : κ) : ν := t.values.getD k (t.dflt k)

/-- The generation of a key: how many global assignments it has received. -/
def gen (t : Table κ ν ι) (k : κ) : Nat := t.gens.getD k 0

/-- Assigns `v` to `k` and answers the value before. A global assignment advances the key's
generation; a local one inside a group logs the previous value first, unless the group
already logged the key at its current generation. -/
def assign (t : Table κ ν ι) (k : κ) (v : ν) (global : Bool) : ν × Table κ ν ι :=
  let old := t.get k
  if global then
    (old, { t with values := t.values.insert k v, gens := t.gens.insert k (t.gen k + 1) })
  else
    let frames := match t.frames with
      | [] => []
      | f :: fs =>
        let g := t.gen k
        if f.logged.get? k = some g then f :: fs
        else { f with saved := f.saved.push ⟨k, t.values.get? k, g⟩,
                      logged := f.logged.insert k g } :: fs
    (old, { t with values := t.values.insert k v, frames })

def poke (t : Table κ ν ι) (k : κ) (v : ν) : Table κ ν ι :=
  { t with values := t.values.insert k v }

def openGroup (t : Table κ ν ι) (info : ι) : Table κ ν ι :=
  { t with frames := { info } :: t.frames }

/-- Puts back one saved entry if its generation is current; answers the key with its value
afterwards when it was put back. -/
def restoreOne (t : Table κ ν ι) (e : Saved κ ν) : Table κ ν ι × Option (κ × ν) :=
  if t.gen e.key = e.gen then
    let values := match e.prev with
      | some p => t.values.insert e.key p
      | none => t.values.erase e.key
    let t := { t with values }
    (t, some (e.key, t.get e.key))
  else (t, none)

/-- Restores saved entries, the last logged first, and lists the restored keys with their
values in that order. -/
def restoreAll (t : Table κ ν ι) : List (Saved κ ν) → Table κ ν ι × List (κ × ν)
  | [] => (t, [])
  | e :: es =>
    let (t, r) := t.restoreOne e
    let (t, rs) := t.restoreAll es
    (t, r.toList ++ rs)

/-- Closes the innermost group: restores its saved entries, newest first, and answers the
group's info and the restored keys with their new values; `none` when no group is open. -/
def closeGroup (t : Table κ ν ι) : Option (ι × List (κ × ν) × Table κ ν ι) :=
  match t.frames with
  | [] => none
  | f :: fs =>
    let (t', restored) := restoreAll { t with frames := fs } f.saved.toList.reverse
    some (f.info, restored, t')

def depth (t : Table κ ν ι) : Nat := t.frames.length

def top? (t : Table κ ν ι) : Option ι := t.frames.head?.map (·.info)

def bindings (t : Table κ ν ι) : List (κ × ν) := t.values.toList

end Table

end Galley.Scope
