import Mathlib
import Galley.Proofs.Soundness

/-!
# A traced run logs the table faithfully

An engine that logs reports every write to its table of equivalents: an assignment with
the key's value before and after, a restore at the end of a group with the value it brings
back. Replaying the assignments and restores of one run, in the order they were logged,
on the table the run started from, gives the table it ends with; and each assignment's old
value is what the replay gives its key just before it. The keys `\prevdepth` and
`\spacefactor` are left out: their events report the current list, not the table.

That holds of every engine a run can reach, not of every engine: the events of
`\prevdepth` and `\spacefactor` are keyed by the name the primitive meaning carries, so
every primitive meaning in the table must carry its own name. Fresh engines bind each
primitive to its name, the engine only copies meanings, and a snapshot names a primitive
by the name it decodes to, so the invariant `TableInvariant.ownNames` says exactly that.
-/

namespace Galley

/-- Every primitive meaning carries the name of the primitive it is. -/
def TableInvariant.ownNames : TableInvariant where
  holds _ v := ∀ n p, v = .meaning (.primitive n p) → primitiveNamed? n = some p
  meaning _ _ _ := Iff.rfl
  undefined := by simp
  relax := by
    rintro n p ⟨⟩
    rfl
  charLet _ := by simp
  fontDef _ := by simp
  charDef _ := by simp
  register _ _ _ _ := by simp
  defined _ _ := by simp
  named _ _ h := h _ _ rfl
  font _ := by simp
  category _ _ := by simp
  sfcode _ _ := by simp
  box _ _ := by simp
  int _ _ _ _ := by simp
  dimen _ _ _ _ := by simp
  glue _ _ _ _ := by simp
  absent _ _ _ _ _ := by simp

namespace TableInvariant

theorem ownNames_create (o : EngineOptions) : (Engine.create o).table.Holds ownNames.holds := by
  refine Engine.create_holds o (fun k n p h => ?_) (fun np hnp n p h => ?_)
  · cases hk : k.space <;> simp [initialEquivalent, hk] at h
  · cases h
    exact primitiveNamed_of_mem np hnp

theorem ownNames_value {x : Entry} {v : Equivalent} (h : x.value = .ok v) :
    ownNames.holds x.key v := by
  intro n p hv
  subst hv
  unfold Entry.value at h
  split at h
  case h_2 =>
    split at h
    · next hp => cases h; exact hp
    · cases h
  all_goals (try split at h) <;> cases h

/-- Every engine a run reaches, whatever snapshots it loads, binds primitives by their own
names. -/
theorem ownNames_reachable {e : Engine} (hr : e.Reachable fun _ => True) :
    e.table.Holds ownNames.holds :=
  hr.holds ownNames_create fun _ _ _ _ _ hv => ownNames_value hv

end TableInvariant

/-- A traced run over a text, from any engine a run reaches, logs its table faithfully: the
log only grows; each assignment it logs, to a key other than `\prevdepth` and
`\spacefactor`, reports as its old value the value that replaying the run's events up to it
on the starting table gives the key; and replaying all of them gives the table at the end,
on every such key. -/
theorem traced_process_replays {e : Engine} (hr : e.Reachable fun _ => True)
    (htr : e.options.tracing = true) (text : String) :
    e.trace.toList <+: (e.process text).1.trace.toList ∧
      Faithful e.get (eventsAfter e.trace.toList (e.process text).1.trace.toList) ∧
      ∀ k, ¬ k.IsFrame →
        replayLog e.get (eventsAfter e.trace.toList (e.process text).1.trace.toList) k =
          (e.process text).1.get k := by
  have hsound := (Engine.Sound.of_holds (TableInvariant.ownNames_reachable hr)).process text
  have hlogs := hsound.2.2 htr
  exact ⟨hlogs.grows, hlogs.faithful_nil, hlogs.replays_nil⟩

/-- A fresh traced engine running a text with a local and a global assignment in a group. -/
theorem traced_process_replays_of_fresh :
    (Engine.create { tracing := true }).Reachable (fun _ => True) ∧
      (Engine.create { tracing := true }).options.tracing = true ∧
      (Engine.create { tracing := true }).trace.toList <+:
        ((Engine.create { tracing := true }).process
          "\\count1=5 \x7b\\count1=7 \\global\\dimen2=3pt\x7d").1.trace.toList ∧
      Faithful (Engine.create { tracing := true }).get
        (eventsAfter (Engine.create { tracing := true }).trace.toList
          ((Engine.create { tracing := true }).process
            "\\count1=5 \x7b\\count1=7 \\global\\dimen2=3pt\x7d").1.trace.toList) ∧
      ∀ k, ¬ k.IsFrame →
        replayLog (Engine.create { tracing := true }).get
          (eventsAfter (Engine.create { tracing := true }).trace.toList
            ((Engine.create { tracing := true }).process
              "\\count1=5 \x7b\\count1=7 \\global\\dimen2=3pt\x7d").1.trace.toList) k =
          ((Engine.create { tracing := true }).process
            "\\count1=5 \x7b\\count1=7 \\global\\dimen2=3pt\x7d").1.get k :=
  ⟨.create _, rfl, traced_process_replays (.create _) rfl _⟩

end Galley
