import Mathlib
import Galley.Proofs.Lockstep

/-!
# What the table holds, and what the log says of it

Two facts about the table of equivalents that every operation of the engine keeps.

`Table.Holds P` says that every value the table can give satisfies `P` at its key: the
explicit values, the values the open groups saved (which closing a group brings back),
and the defaults. A write of a value that satisfies `P` keeps it, and so does opening or
closing a group.

`Engine.Logs` says what the log is worth. Replaying the assignment and restore events
logged since some point, on the view of the table at that point, gives the table now;
and every assignment reports as its old value what the replay gives its key just before
it. The two keys `\prevdepth` and `\spacefactor` are left out: their events report the
current list, not the table. Closing a group changes the table first and logs its
restores after, so `Logs` carries the restores still to be logged.
-/

namespace Galley

namespace Scope

section Write

variable {κ ν : Type} [DecidableEq κ]

/-- The values `kvs` written over the view `V`, in order. -/
def writeAll (V : κ → ν) (kvs : List (κ × ν)) : κ → ν :=
  kvs.foldl (fun V kv => Function.update V kv.1 kv.2) V

@[simp] theorem writeAll_nil (V : κ → ν) : writeAll V [] = V := rfl

theorem writeAll_append (V : κ → ν) (xs ys : List (κ × ν)) :
    writeAll V (xs ++ ys) = writeAll (writeAll V xs) ys := by
  simp [writeAll, List.foldl_append]

theorem writeAll_congr {V W : κ → ν} {Q : κ → Prop} (h : ∀ k, Q k → V k = W k)
    (kvs : List (κ × ν)) : ∀ k, Q k → writeAll V kvs k = writeAll W kvs k := by
  induction kvs generalizing V W with
  | nil => exact h
  | cons kv kvs ih =>
    refine ih fun k hk => ?_
    by_cases hkv : k = kv.1
    · subst hkv; simp
    · simp [Function.update_of_ne hkv, h k hk]

end Write

namespace Table

variable {κ ν ι : Type} [DecidableEq κ] [Hashable κ]

/-- Every value the table holds or can bring back satisfies `P` at its key: its explicit
values, the values its open groups saved, and its defaults. -/
structure Holds (P : κ → ν → Prop) (t : Table κ ν ι) : Prop where
  values : ∀ k v, t.values[k]? = some v → P k v
  saved : ∀ f ∈ t.frames, ∀ s ∈ f.saved.toList, ∀ v, s.prev = some v → P s.key v
  dflt : ∀ k, P k (t.dflt k)

variable {P : κ → ν → Prop} {t : Table κ ν ι}

theorem get_eq_getD (t : Table κ ν ι) (k : κ) : t.get k = t.values[k]?.getD (t.dflt k) := by
  rw [Table.get, Std.HashMap.getD_eq_getD_getElem?]

@[simp] theorem assign_fst (t : Table κ ν ι) (k : κ) (v : ν) (global : Bool) :
    (t.assign k v global).1 = t.get k := by
  unfold assign; split <;> rfl

theorem get_insert (t : Table κ ν ι) (values : Std.HashMap κ ν) (hv : values = t.values.insert k v)
    (j : κ) : ({ t with values } : Table κ ν ι).get j = Function.update t.get k v j := by
  subst hv
  by_cases h : j = k
  · subst h; simp [get_eq_getD]
  · simp [get_eq_getD, Function.update_of_ne h, Std.HashMap.getElem?_insert, Ne.symm h]

@[simp] theorem get_assign (t : Table κ ν ι) (k : κ) (v : ν) (global : Bool) :
    (t.assign k v global).2.get = Function.update t.get k v := by
  funext j
  unfold assign
  cases global
  · exact get_insert { t with frames := _ } _ rfl j
  · exact get_insert { t with gens := _ } _ rfl j

@[simp] theorem get_poke (t : Table κ ν ι) (k : κ) (v : ν) :
    (t.poke k v).get = Function.update t.get k v :=
  funext (get_insert t _ rfl)

@[simp] theorem get_openGroup (t : Table κ ν ι) (info : ι) : (t.openGroup info).get = t.get :=
  rfl

theorem get_restoreOne (t : Table κ ν ι) (e : Saved κ ν) :
    (t.restoreOne e).1.get = writeAll t.get (t.restoreOne e).2.toList := by
  funext k
  rw [restoreOne_restored]
  by_cases hg : t.gen e.key = e.gen
  · by_cases hk : k = e.key
    · subst hk
      simp [get_eq_getD, restoreOne_values, hg, writeAll]
    · simp [get_eq_getD, restoreOne_values, hg, writeAll, Function.update_of_ne hk, Ne.symm hk]
  · have hne : ¬ (e.key = k ∧ e.gen = t.gen k) := fun h => hg (h.1 ▸ h.2.symm)
    simp [get_eq_getD, restoreOne_values, hg, hne]

/-- Restoring entries in order writes the values it reports, in that order. -/
theorem get_restoreAll (t : Table κ ν ι) (es : List (Saved κ ν)) :
    (t.restoreAll es).1.get = writeAll t.get (t.restoreAll es).2 := by
  induction es generalizing t with
  | nil => rfl
  | cons e es ih =>
    simp only [restoreAll, ih, writeAll_append, ← get_restoreOne]

/-- Closing a group writes the values it reports as restored, in order. -/
theorem get_closeGroup {info : ι} {restored : List (κ × ν)} {t' : Table κ ν ι}
    (h : t.closeGroup = some (info, restored, t')) : t'.get = writeAll t.get restored := by
  obtain ⟨f, fs, -, rfl, rfl⟩ := closeGroup_eq_some h
  exact get_restoreAll { t with frames := fs } _

namespace Holds

theorem get (h : t.Holds P) (k : κ) : P k (t.get k) := by
  rw [get_eq_getD]
  cases hv : t.values[k]? with
  | none => exact h.dflt k
  | some v => exact h.values k v hv

theorem values_insert (h : t.Holds P) {k : κ} {v : ν} (hv : P k v) :
    ∀ j w, (t.values.insert k v)[j]? = some w → P j w := by
  intro j w hw
  rw [Std.HashMap.getElem?_insert] at hw
  split at hw
  · next hk =>
    cases hw
    exact (beq_iff_eq.mp hk) ▸ hv
  · exact h.values j w hw

theorem poke (h : t.Holds P) {k : κ} {v : ν} (hv : P k v) : (t.poke k v).Holds P :=
  ⟨h.values_insert hv, h.saved, h.dflt⟩

theorem assign (h : t.Holds P) {k : κ} {v : ν} (hv : P k v) (global : Bool) :
    (t.assign k v global).2.Holds P := by
  unfold Table.assign
  cases global
  · refine ⟨h.values_insert hv, ?_, h.dflt⟩
    simp only [Bool.false_eq_true, ↓reduceIte]
    split
    · simp
    · next f fs hfr =>
      have hsaved := hfr ▸ h.saved
      split
      · exact hsaved
      · intro f' hf' s hs w hw
        rcases List.mem_cons.mp hf' with rfl | hf'
        · simp only [Array.toList_push, List.mem_append, List.mem_singleton] at hs
          rcases hs with hs | rfl
          · exact hsaved f List.mem_cons_self s hs w hw
          · exact h.values k w (by simpa using hw)
        · exact hsaved f' (List.mem_cons_of_mem _ hf') s hs w hw
  · exact ⟨h.values_insert hv, h.saved, h.dflt⟩

theorem openGroup (h : t.Holds P) (info : ι) : (t.openGroup info).Holds P := by
  refine ⟨h.values, ?_, h.dflt⟩
  intro f hf s hs v hv
  rcases List.mem_cons.mp hf with rfl | hf
  · simp at hs
  · exact h.saved f hf s hs v hv

theorem restoreOne (h : t.Holds P) {e : Saved κ ν} (he : ∀ v, e.prev = some v → P e.key v) :
    (t.restoreOne e).1.Holds P := by
  refine ⟨?_, by simpa using h.saved, by simpa using h.dflt⟩
  intro k v hv
  rw [restoreOne_values] at hv
  split at hv
  · next hk => exact hk.1 ▸ he v hv
  · exact h.values k v hv

theorem restoreAll (h : t.Holds P) {es : List (Saved κ ν)}
    (hes : ∀ e ∈ es, ∀ v, e.prev = some v → P e.key v) : (t.restoreAll es).1.Holds P := by
  induction es generalizing t with
  | nil => exact h
  | cons e es ih =>
    exact ih (h.restoreOne (hes e List.mem_cons_self))
      (fun e' he' => hes e' (List.mem_cons_of_mem _ he'))

theorem closeGroup (h : t.Holds P) {info : ι} {restored : List (κ × ν)} {t' : Table κ ν ι}
    (hc : t.closeGroup = some (info, restored, t')) : t'.Holds P := by
  obtain ⟨f, fs, hfr, rfl, -⟩ := closeGroup_eq_some hc
  have hsaved := hfr ▸ h.saved
  have hrest : ({ t with frames := fs } : Table κ ν ι).Holds P :=
    ⟨h.values, fun f' hf' => hsaved f' (List.mem_cons_of_mem _ hf'), h.dflt⟩
  refine hrest.restoreAll fun s hs => ?_
  exact hsaved f List.mem_cons_self s (List.mem_reverse.mp hs)

end Holds

end Table

end Scope

/-! ## The log -/

/-- The two keys whose events report the current list rather than the table: `\prevdepth`
and `\spacefactor`. -/
def Key.IsFrame (k : Key) : Prop :=
  k = { space := .dimenpar, name := "prevdepth" } ∨ k = { space := .intpar, name := "spacefactor" }

namespace Event

/-- The key an event sets and the value it sets it to: assignments and restores set one,
the other events none. -/
def sets : Event → Option (Key × Equivalent)
  | assign k _ v _ => some (k, v)
  | restore k v => some (k, v)
  | _ => none

/-- A view of the table with the event replayed on it. -/
def replay (V : Key → Equivalent) (ev : Event) : Key → Equivalent :=
  match ev.sets with
  | some (k, v) => Function.update V k v
  | none => V

/-- An assignment to a key other than the frame keys reports as its old value the value
`V` gives the key. -/
def ReportsOld (V : Key → Equivalent) : Event → Prop
  | assign k old _ _ => ¬ k.IsFrame → old = V k
  | _ => True

end Event

/-- The events replayed on a view, in order. -/
def replayLog (V : Key → Equivalent) (evs : List Event) : Key → Equivalent :=
  evs.foldl Event.replay V

/-- Every assignment of the log, to a key other than the frame keys, reports as its old
value what replaying the log up to it on `V` gives its key. -/
def Faithful : (Key → Equivalent) → List Event → Prop
  | _, [] => True
  | V, ev :: evs => ev.ReportsOld V ∧ Faithful (ev.replay V) evs

@[simp] theorem replayLog_nil (V : Key → Equivalent) : replayLog V [] = V := rfl

theorem replayLog_append (V : Key → Equivalent) (xs ys : List Event) :
    replayLog V (xs ++ ys) = replayLog (replayLog V xs) ys := by
  simp [replayLog, List.foldl_append]

@[simp] theorem replayLog_singleton (V : Key → Equivalent) (ev : Event) :
    replayLog V [ev] = ev.replay V := rfl

theorem faithful_append {V : Key → Equivalent} {xs ys : List Event} :
    Faithful V (xs ++ ys) ↔ Faithful V xs ∧ Faithful (replayLog V xs) ys := by
  induction xs generalizing V with
  | nil => simp [Faithful]
  | cons ev xs ih => simp [Faithful, ih, replayLog, and_assoc]

/-- Restores replay as the values they report, written in order. -/
theorem replayLog_restores (V : Key → Equivalent) (kvs : List (Key × Equivalent)) :
    replayLog V (kvs.map fun kv => .restore kv.1 kv.2) = Scope.writeAll V kvs := by
  induction kvs generalizing V with
  | nil => rfl
  | cons kv kvs ih => exact ih _

theorem faithful_restores (V : Key → Equivalent) (kvs : List (Key × Equivalent)) :
    Faithful V (kvs.map fun kv => .restore kv.1 kv.2) := by
  induction kvs generalizing V with
  | nil => trivial
  | cons kv kvs ih => exact ⟨trivial, ih _⟩

/-- The events of the log `L` past its first `T.length` entries. -/
def eventsAfter (T L : List Traced) : List Event := (L.drop T.length).map (·.event)

@[simp] theorem eventsAfter_self (L : List Traced) : eventsAfter L L = [] := by
  simp only [eventsAfter, List.drop_length, List.map_nil]

theorem eventsAfter_append {T L : List Traced} (hT : T <+: L) (L' : List Traced) :
    eventsAfter T (L ++ L') = eventsAfter T L ++ L'.map (·.event) := by
  obtain ⟨U, rfl⟩ := hT
  simp [eventsAfter]

/-- An event that sets no key but perhaps a frame key reports faithfully. -/
theorem Event.reportsOld_of_frame {ev : Event} (hev : ∀ k v, ev.sets = some (k, v) → k.IsFrame)
    (V : Key → Equivalent) : ev.ReportsOld V := by
  cases ev with
  | assign k old new g => exact fun hk => absurd (hev k new rfl) hk
  | _ => trivial

/-- The log `L` extends `T`; the events logged since, followed by the restores `pend` not
logged yet, replayed on `V` give the table `t` off the frame keys; and each assignment
among them reports its old value. -/
structure Logs (V : Key → Equivalent) (T : List Traced) (pend : List Event) (t : EqTable)
    (L : List Traced) : Prop where
  grows : T <+: L
  faithful : Faithful V (eventsAfter T L ++ pend)
  replays : ∀ k, ¬ k.IsFrame → replayLog V (eventsAfter T L ++ pend) k = t.get k

namespace Logs

variable {V : Key → Equivalent} {T L : List Traced} {pend : List Event} {t t' : EqTable}

theorem faithful_nil (h : Logs V T [] t L) : Faithful V (eventsAfter T L) := by
  simpa using h.faithful

theorem replays_nil (h : Logs V T [] t L) :
    ∀ k, ¬ k.IsFrame → replayLog V (eventsAfter T L) k = t.get k := by
  simpa using h.replays

theorem start (t : EqTable) (L : List Traced) : Logs t.get L [] t L :=
  ⟨List.prefix_rfl, by simp [Faithful], by simp⟩

theorem congr (h : Logs V T pend t L) (ht : t'.get = t.get) : Logs V T pend t' L :=
  ⟨h.grows, h.faithful, ht ▸ h.replays⟩

theorem push_pending {ev : Event} (h : Logs V T (ev :: pend) t L) (d : Nat) :
    Logs V T pend t (L ++ [⟨d, ev⟩]) := by
  have hs := eventsAfter_append h.grows [⟨d, ev⟩]
  refine ⟨h.grows.trans (List.prefix_append _ _), ?_, ?_⟩
  · simpa [hs] using h.faithful
  · simpa [hs] using h.replays

theorem push_quiet {ev : Event} (h : Logs V T [] t L)
    (hev : ∀ k v, ev.sets = some (k, v) → k.IsFrame) (d : Nat) :
    Logs V T [] t (L ++ [⟨d, ev⟩]) := by
  have hs := eventsAfter_append h.grows [⟨d, ev⟩]
  refine ⟨h.grows.trans (List.prefix_append _ _), ?_, ?_⟩
  · simp only [hs, List.map_cons, List.map_nil, List.append_nil, faithful_append]
    exact ⟨h.faithful_nil, Event.reportsOld_of_frame hev _, trivial⟩
  · intro k hk
    simp only [hs, List.map_cons, List.map_nil, List.append_nil, replayLog_append,
      replayLog_singleton]
    rw [← h.replays_nil k hk]
    cases hset : ev.sets with
    | none => simp [Event.replay, hset]
    | some kv =>
      have hk' : k ≠ kv.1 := fun heq => hk (heq ▸ hev kv.1 kv.2 hset)
      simp [Event.replay, hset, Function.update_of_ne hk']

/-- Writing `v` to `k` and logging the assignment with the key's value before. -/
theorem push_write (h : Logs V T [] t L) {k : Key} {v : Equivalent}
    (ht : t'.get = Function.update t.get k v) (d : Nat) (global : Bool) :
    Logs V T [] t' (L ++ [⟨d, .assign k (t.get k) v global⟩]) := by
  have hs := eventsAfter_append h.grows [⟨d, .assign k (t.get k) v global⟩]
  refine ⟨h.grows.trans (List.prefix_append _ _), ?_, ?_⟩
  · simp only [hs, List.map_cons, List.map_nil, List.append_nil, faithful_append]
    exact ⟨h.faithful_nil, fun hk => (h.replays_nil k hk).symm, trivial⟩
  · intro j hj
    simp only [hs, List.map_cons, List.map_nil, List.append_nil, replayLog_append,
      replayLog_singleton, ht, Event.replay, Event.sets]
    by_cases hjk : j = k
    · subst hjk; simp
    · simp [Function.update_of_ne hjk, h.replays_nil j hj]

/-- Closing a group: the table becomes the one with the restores written, which are then
pending. -/
theorem close (h : Logs V T [] t L) {restored : List (Key × Equivalent)}
    (ht : t'.get = Scope.writeAll t.get restored) :
    Logs V T (restored.map fun kv => .restore kv.1 kv.2) t' L := by
  refine ⟨h.grows, ?_, ?_⟩
  · rw [faithful_append]
    exact ⟨h.faithful_nil, faithful_restores _ _⟩
  · intro k hk
    rw [replayLog_append, ht, replayLog_restores]
    exact Scope.writeAll_congr (Q := fun k => ¬ k.IsFrame) h.replays_nil restored k hk

end Logs

end Galley
