import Mathlib
import Galley.Scope.Key
import Galley.Scope.Table

/-!
# The save stack refines copying the bindings at every group

Grouping has a one-line meaning: opening a group takes a copy of every binding, closing
it puts the copy back, and a global assignment writes into the current bindings and into
every copy. `Snapshots` is that meaning, run over any sequence of `GroupOp`s.

The scoped table copies nothing and never looks below the innermost group. The copies
are still there, implicitly: the innermost one is what closing the innermost group would
leave, the next one what closing the group below would leave after that, and so on.
`Table.view` reads them off in that way, and the main theorem, `run_view`, says that
after any sequence of operations the view is the meaning.

Reading a copy off a group needs one fact about what the group logged. Closing puts back
each saved entry whose generation is still the key's, newest first, so the entry that
decides a key is the *oldest* one at the key's current generation. The invariant
`Frame.Logs` makes that entry unique and easy to find: for each key the generations of
its entries strictly increase, the last of them is the one the group's log remembers,
and none is ahead of the key's generation. With it, a local assignment logs exactly
when the group had no entry that would restore the key, and a global assignment, which
advances the generation, puts the key out of reach of every entry in every group.
-/

namespace Galley.Scope

/-- The operations of grouping. -/
inductive GroupOp (κ ν ι : Type) where
  | openGroup (info : ι)
  | closeGroup
  | assign (k : κ) (v : ν) (global : Bool)

/-- The meaning of grouping by copies: the current bindings and one copy of them per
open group, innermost first. -/
structure Snapshots (κ ν : Type) where
  cur : κ → Option ν
  saved : List (κ → Option ν)

namespace Snapshots

variable {κ ν ι : Type} [DecidableEq κ]

/-- Bindings with `k` bound to `v`. -/
def bind (m : κ → Option ν) (k : κ) (v : ν) : κ → Option ν := Function.update m k (some v)

/-- One operation on the copies. Closing with no copy changes nothing. -/
def step (s : Snapshots κ ν) : GroupOp κ ν ι → Snapshots κ ν
  | .openGroup _ => ⟨s.cur, s.cur :: s.saved⟩
  | .closeGroup =>
    match s.saved with
    | [] => s
    | c :: cs => ⟨c, cs⟩
  | .assign k v global =>
    if global then ⟨bind s.cur k v, s.saved.map (bind · k v)⟩ else ⟨bind s.cur k v, s.saved⟩

/-- The copies after a sequence of operations from no bindings and no group. -/
def run (ops : List (GroupOp κ ν ι)) : Snapshots κ ν := ops.foldl step ⟨fun _ => none, []⟩

end Snapshots

variable {κ ν ι : Type} [DecidableEq κ] [Hashable κ]

namespace Frame

/-- The entry that closing the group would put back last for `k`, and so the one that
decides it: the oldest entry for `k` at the generation `gen k`. -/
def entryFor (f : Frame κ ν ι) (gen : κ → Nat) (k : κ) : Option (Saved κ ν) :=
  f.saved.toList.find? fun e => e.key = k ∧ e.gen = gen k

/-- The bindings closing the group would leave, from the bindings `cur` before it. -/
def restoreView (f : Frame κ ν ι) (gen : κ → Nat) (cur : κ → Option ν) (k : κ) : Option ν :=
  match f.entryFor gen k with
  | some e => e.prev
  | none => cur k

/-- The generations at which the group logged `k`, oldest first. -/
def gensOf (f : Frame κ ν ι) (k : κ) : List Nat :=
  (f.saved.toList.filter fun e => e.key = k).map (·.gen)

/-- What a group's log keeps true: for each key, its entries' generations strictly
increase, the last is the one `logged` remembers, and none is ahead of the key's
generation `gen`. -/
structure Logs (f : Frame κ ν ι) (gen : κ → Nat) : Prop where
  increasing : ∀ k, (f.gensOf k).Pairwise (· < ·)
  last : ∀ k, (f.gensOf k).getLast? = f.logged[k]?
  le_gen : ∀ k g, f.logged[k]? = some g → g ≤ gen k

end Frame

namespace Table

/-- One operation on the table. Closing at the bottom level leaves it as it is. -/
def step (t : Table κ ν ι) : GroupOp κ ν ι → Table κ ν ι
  | .openGroup info => t.openGroup info
  | .closeGroup =>
    match t.closeGroup with
    | none => t
    | some (_, _, t') => t'
  | .assign k v global => (t.assign k v global).2

/-- The table after a sequence of operations. -/
def run (t : Table κ ν ι) (ops : List (GroupOp κ ν ι)) : Table κ ν ι := ops.foldl step t

/-- The copies the open groups stand for, innermost first: each is what closing its group
would leave after the groups inside it were closed. -/
def savedViews (gen : κ → Nat) (cur : κ → Option ν) : List (Frame κ ν ι) → List (κ → Option ν)
  | [] => []
  | f :: fs =>
    let c := f.restoreView gen cur
    c :: savedViews gen c fs

/-- The table read as copies of bindings. -/
def view (t : Table κ ν ι) : Snapshots κ ν :=
  ⟨fun k => t.values[k]?, savedViews t.gen (fun k => t.values[k]?) t.frames⟩

/-- Every open group's log is in order. -/
def WF (t : Table κ ν ι) : Prop := ∀ f ∈ t.frames, f.Logs t.gen

@[simp] theorem gen_mk (dflt : κ → ν) (values : Std.HashMap κ ν) (gens : Std.HashMap κ Nat)
    (frames : List (Frame κ ν ι)) :
    (⟨dflt, values, gens, frames⟩ : Table κ ν ι).gen = fun k => gens.getD k 0 := rfl

/-! ## Closing a group

`restoreAll` walks the saved entries newest first, so for each key the last entry it puts
back, the oldest at the current generation, decides the key; it reports each entry it
puts back with the key's value at that moment. -/

@[simp] theorem restoreOne_gens (t : Table κ ν ι) (e : Saved κ ν) :
    (t.restoreOne e).1.gens = t.gens := by
  unfold restoreOne; split <;> rfl

@[simp] theorem restoreOne_frames (t : Table κ ν ι) (e : Saved κ ν) :
    (t.restoreOne e).1.frames = t.frames := by
  unfold restoreOne; split <;> rfl

@[simp] theorem restoreOne_dflt (t : Table κ ν ι) (e : Saved κ ν) :
    (t.restoreOne e).1.dflt = t.dflt := by
  unfold restoreOne; split <;> rfl

theorem restoreOne_values (t : Table κ ν ι) (e : Saved κ ν) (k : κ) :
    (t.restoreOne e).1.values[k]? =
      if e.key = k ∧ e.gen = t.gen k then e.prev else t.values[k]? := by
  unfold restoreOne
  by_cases hg : t.gen e.key = e.gen
  · rw [if_pos hg]
    by_cases hk : e.key = k
    · subst hk
      cases e.prev <;> simp [hg]
    · cases e.prev <;> simp [Std.HashMap.getElem?_erase, Std.HashMap.getElem?_insert, hk]
  · rw [if_neg hg]
    have hg' : e.gen ≠ t.gen e.key := fun h => hg h.symm
    by_cases hk : e.key = k
    · subst hk
      simp [hg']
    · simp [hk]

theorem restoreOne_restored (t : Table κ ν ι) (e : Saved κ ν) :
    (t.restoreOne e).2 =
      if t.gen e.key = e.gen then some (e.key, e.prev.getD (t.dflt e.key)) else none := by
  unfold restoreOne
  split
  · cases e.prev <;> simp [get]
  · rfl

@[simp] theorem restoreAll_gens (t : Table κ ν ι) (es : List (Saved κ ν)) :
    (t.restoreAll es).1.gens = t.gens := by
  induction es generalizing t with
  | nil => rfl
  | cons e es ih => simp [restoreAll, ih]

@[simp] theorem restoreAll_frames (t : Table κ ν ι) (es : List (Saved κ ν)) :
    (t.restoreAll es).1.frames = t.frames := by
  induction es generalizing t with
  | nil => rfl
  | cons e es ih => simp [restoreAll, ih]

@[simp] theorem restoreAll_dflt (t : Table κ ν ι) (es : List (Saved κ ν)) :
    (t.restoreAll es).1.dflt = t.dflt := by
  induction es generalizing t with
  | nil => rfl
  | cons e es ih => simp [restoreAll, ih]

@[simp] theorem restoreAll_gen (t : Table κ ν ι) (es : List (Saved κ ν)) :
    (t.restoreAll es).1.gen = t.gen := by
  funext k
  simp only [gen, restoreAll_gens]

/-- After restoring `es` in order, a key holds the value saved by the last entry for it at
its generation, or what it held before when there is none. -/
theorem restoreAll_values (t : Table κ ν ι) (es : List (Saved κ ν)) (k : κ) :
    (t.restoreAll es).1.values[k]? =
      match es.reverse.find? (fun e => e.key = k ∧ e.gen = t.gen k) with
      | some e => e.prev
      | none => t.values[k]? := by
  induction es generalizing t with
  | nil => rfl
  | cons e es ih =>
    have hgen : (t.restoreOne e).1.gen k = t.gen k := by
      simp only [gen, restoreOne_gens]
    simp only [restoreAll, ih, hgen, List.reverse_cons, List.find?_append]
    cases es.reverse.find? (fun e => e.key = k ∧ e.gen = t.gen k) with
    | some e' => simp only [Option.some_or]
    | none =>
      by_cases h : e.key = k ∧ e.gen = t.gen k
      · simp [restoreOne_values, h]
      · simp [restoreOne_values, h]

/-- Restoring reports exactly the entries at their key's generation, in the order
restored, each with the value it puts back. -/
theorem restoreAll_restored (t : Table κ ν ι) (es : List (Saved κ ν)) :
    (t.restoreAll es).2 =
      (es.filter fun e => t.gen e.key = e.gen).map
        fun e => (e.key, e.prev.getD (t.dflt e.key)) := by
  induction es generalizing t with
  | nil => rfl
  | cons e es ih =>
    have hgen : (t.restoreOne e).1.gen = t.gen := by
      funext k; simp only [gen, restoreOne_gens]
    simp only [restoreAll, ih, hgen, restoreOne_dflt, restoreOne_restored]
    by_cases h : t.gen e.key = e.gen <;> simp [h]

end Table

/-! ## What a group's log guarantees -/

namespace Frame

variable {f : Frame κ ν ι} {gen : κ → Nat}

theorem mem_gensOf {e : Saved κ ν} (he : e ∈ f.saved.toList) : e.gen ∈ f.gensOf e.key :=
  List.mem_map_of_mem (List.mem_filter.mpr ⟨he, by simp⟩)

theorem Logs.le_logged (hf : f.Logs gen) {e : Saved κ ν} (he : e ∈ f.saved.toList) :
    ∃ g, f.logged[e.key]? = some g ∧ e.gen ≤ g := by
  have hmem := mem_gensOf he
  have hne : f.gensOf e.key ≠ [] := List.ne_nil_of_mem hmem
  refine ⟨(f.gensOf e.key).getLast hne, ?_, ?_⟩
  · rw [← hf.last, List.getLast?_eq_some_getLast hne]
  · exact ((hf.increasing e.key).imp Nat.le_of_lt).rel_getLast hmem

theorem Logs.gen_le (hf : f.Logs gen) {e : Saved κ ν} (he : e ∈ f.saved.toList) :
    e.gen ≤ gen e.key := by
  obtain ⟨g, hg, hle⟩ := hf.le_logged he
  exact Nat.le_trans hle (hf.le_gen _ _ hg)

theorem Logs.entryFor_eq_none (hf : f.Logs gen) {k : κ} (hk : f.logged[k]? ≠ some (gen k)) :
    f.entryFor gen k = none := by
  rw [entryFor, List.find?_eq_none]
  intro e he hmatch
  obtain ⟨rfl, hcur⟩ := of_decide_eq_true hmatch
  obtain ⟨g, hg, hle⟩ := hf.le_logged he
  have hge := hf.le_gen _ _ hg
  exact hk (by rw [hg, Nat.le_antisymm hge (hcur ▸ hle)])

theorem Logs.entryFor_isSome (hf : f.Logs gen) {k : κ} (hk : f.logged[k]? = some (gen k)) :
    (f.entryFor gen k).isSome := by
  rw [← hf.last] at hk
  obtain ⟨e, he, hgen⟩ := List.mem_map.mp (List.mem_of_getLast? hk)
  obtain ⟨he, hkey⟩ := List.mem_filter.mp he
  rw [entryFor, List.find?_isSome]
  exact ⟨e, he, decide_eq_true ⟨of_decide_eq_true hkey, hgen⟩⟩

/-- An entry at its key's generation is the only one, so it is the one that decides. -/
theorem Logs.entryFor_of_mem (hf : f.Logs gen) {e : Saved κ ν} (he : e ∈ f.saved.toList)
    (hcur : e.gen = gen e.key) : f.entryFor gen e.key = some e := by
  have hnodup : (f.gensOf e.key).Nodup := (hf.increasing e.key).imp Nat.ne_of_lt
  obtain ⟨e', hfind⟩ := Option.isSome_iff_exists.mp
    (hf.entryFor_isSome (k := e.key) (by
      obtain ⟨g, hg, hle⟩ := hf.le_logged he
      rw [hg, Nat.le_antisymm (hf.le_gen _ _ hg) (hcur ▸ hle)]))
  have hsome := List.find?_some hfind
  simp only [decide_eq_true_eq] at hsome
  have he' := List.mem_of_find?_eq_some hfind
  have heq : e' = e := List.inj_on_of_nodup_map hnodup
    (List.mem_filter.mpr ⟨he', by simp [hsome.1]⟩) (List.mem_filter.mpr ⟨he, by simp⟩)
    (by rw [hsome.2, hcur])
  rw [hfind, heq]

theorem Logs.lt_of_mem_gensOf (hf : f.Logs gen) {k : κ} (hk : f.logged[k]? ≠ some (gen k))
    {a : Nat} (ha : a ∈ f.gensOf k) : a < gen k := by
  obtain ⟨e, hfilt, rfl⟩ := List.mem_map.mp ha
  obtain ⟨he, hkey⟩ := List.mem_filter.mp hfilt
  obtain rfl := of_decide_eq_true hkey
  obtain ⟨g, hg, hle⟩ := hf.le_logged he
  have hge := hf.le_gen _ _ hg
  have hne : g ≠ gen e.key := fun h => hk (by rw [hg, h])
  omega

theorem Logs.mono (hf : f.Logs gen) {gen' : κ → Nat} (hle : ∀ k, gen k ≤ gen' k) :
    f.Logs gen' :=
  ⟨hf.increasing, hf.last, fun k g hg => Nat.le_trans (hf.le_gen k g hg) (hle k)⟩

/-! ## One operation at a time

Each operation moves the copies read off a group as the operation moves the copies of the
meaning, and keeps the group's log in order. A local assignment touches only the
innermost group; it changes what that group would restore exactly never. -/

theorem restoreView_empty (info : ι) (gen : κ → Nat) (cur : κ → Option ν) :
    ({ info } : Frame κ ν ι).restoreView gen cur = cur := by
  funext k
  simp [restoreView, entryFor]

theorem logs_empty (info : ι) (gen : κ → Nat) : ({ info } : Frame κ ν ι).Logs gen :=
  ⟨fun _ => by simp [gensOf], fun _ => by simp [gensOf], fun _ _ => by simp⟩

/-- The group after a local assignment to `k` logs the value `old` that `k` held, at its
generation `gen k`. -/
abbrev log (f : Frame κ ν ι) (gen : κ → Nat) (k : κ) (old : Option ν) : Frame κ ν ι :=
  { f with saved := f.saved.push ⟨k, old, gen k⟩, logged := f.logged.insert k (gen k) }

theorem gensOf_log (k j : κ) (old : Option ν) :
    (f.log gen k old).gensOf j = f.gensOf j ++ if k = j then [gen k] else [] := by
  by_cases h : k = j <;> simp [gensOf, h]

/-- Logging `k` when the group held no entry at its generation keeps the log in order. -/
theorem Logs.log (hf : f.Logs gen) {k : κ} (hk : f.logged[k]? ≠ some (gen k))
    (old : Option ν) : (f.log gen k old).Logs gen := by
  constructor
  · intro j
    rw [gensOf_log]
    by_cases h : k = j
    · subst h
      rw [if_pos rfl, List.pairwise_append]
      exact ⟨hf.increasing k, List.pairwise_singleton _ _,
        fun a ha b hb => List.mem_singleton.mp hb ▸ hf.lt_of_mem_gensOf hk ha⟩
    · rw [if_neg h, List.append_nil]
      exact hf.increasing j
  · intro j
    rw [gensOf_log]
    by_cases h : k = j
    · subst h
      simp
    · simp [h, hf.last j, Std.HashMap.getElem?_insert]
  · intro j g hg
    by_cases h : k = j
    · subst h
      simp at hg
      omega
    · simp only [Std.HashMap.getElem?_insert, beq_iff_eq, h, if_false] at hg
      exact hf.le_gen j g hg

/-- Where the group already holds an entry for `k` at its generation, a new value of `k`
does not change what closing restores. -/
theorem Logs.restoreView_bind (hf : f.Logs gen) {k : κ} (hk : f.logged[k]? = some (gen k))
    (cur : κ → Option ν) (v : ν) :
    f.restoreView gen (Snapshots.bind cur k v) = f.restoreView gen cur := by
  funext j
  by_cases hj : j = k
  · subst hj
    obtain ⟨e, he⟩ := Option.isSome_iff_exists.mp (hf.entryFor_isSome hk)
    simp [restoreView, he]
  · simp [restoreView, Snapshots.bind, Function.update_of_ne hj]

/-- Where it holds none, the entry it logs restores what `k` held before. -/
theorem Logs.restoreView_log (hf : f.Logs gen) {k : κ} (hk : f.logged[k]? ≠ some (gen k))
    (cur : κ → Option ν) (v : ν) :
    (f.log gen k (cur k)).restoreView gen (Snapshots.bind cur k v) = f.restoreView gen cur := by
  funext j
  by_cases hj : j = k
  · subst hj
    have hnone := hf.entryFor_eq_none hk
    have hfind : (f.log gen j (cur j)).entryFor gen j = some ⟨j, cur j, gen j⟩ := by
      simp only [entryFor] at hnone
      simp only [entryFor, Array.toList_push, List.find?_append, hnone, Option.none_or]
      simp
    simp [restoreView, hfind, hnone]
  · have hne : ¬(k = j ∧ gen k = gen j) := fun h => hj h.1.symm
    have hfind : (f.log gen k (cur k)).entryFor gen j = f.entryFor gen j := by
      rw [entryFor, entryFor, Array.toList_push, List.find?_append, List.find?_singleton,
        if_neg (by simpa using hne), Option.or_none]
    simp only [restoreView, hfind, Snapshots.bind, Function.update_of_ne hj]

/-- Advancing the generation of `k` puts `k` out of reach of every entry of the group, so
closing leaves `k` with the value a global assignment gave it. -/
theorem Logs.restoreView_advance (hf : f.Logs gen) (k : κ) (cur : κ → Option ν) (v : ν) :
    f.restoreView (Function.update gen k (gen k + 1)) (Snapshots.bind cur k v) =
      Snapshots.bind (f.restoreView gen cur) k v := by
  funext j
  by_cases hj : j = k
  · subst hj
    have hnone : f.entryFor (Function.update gen j (gen j + 1)) j = none := by
      rw [entryFor, List.find?_eq_none]
      intro e he hmatch
      obtain ⟨rfl, hcur⟩ := of_decide_eq_true hmatch
      have := hf.gen_le he
      simp only [Function.update_self] at hcur
      omega
    simp [restoreView, hnone, Snapshots.bind]
  · simp [restoreView, entryFor, Snapshots.bind, Function.update_of_ne hj]

end Frame

namespace Table

variable {t : Table κ ν ι}

theorem values_insert (values : Std.HashMap κ ν) (k : κ) (v : ν) :
    (fun j => (values.insert k v)[j]?) = Snapshots.bind (fun j => values[j]?) k v := by
  funext j
  by_cases h : j = k
  · subst h
    simp [Snapshots.bind]
  · simp [Snapshots.bind, Function.update_of_ne h, Std.HashMap.getElem?_insert, Ne.symm h]

theorem savedViews_length (gen : κ → Nat) (cur : κ → Option ν) (fs : List (Frame κ ν ι)) :
    (savedViews gen cur fs).length = fs.length := by
  induction fs generalizing cur with
  | nil => rfl
  | cons f fs ih => simp [savedViews, ih]

theorem savedViews_advance {gen : κ → Nat} {fs : List (Frame κ ν ι)}
    (hfs : ∀ f ∈ fs, f.Logs gen) (k : κ) (v : ν) (cur : κ → Option ν) :
    savedViews (Function.update gen k (gen k + 1)) (Snapshots.bind cur k v) fs =
      (savedViews gen cur fs).map (Snapshots.bind · k v) := by
  induction fs generalizing cur with
  | nil => rfl
  | cons f fs ih =>
    have hf := hfs f List.mem_cons_self
    simp only [savedViews, hf.restoreView_advance, List.map_cons]
    rw [ih (fun f' hf' => hfs f' (List.mem_cons_of_mem _ hf'))]

theorem view_openGroup (info : ι) : (t.openGroup info).view = t.view.step (.openGroup info) := by
  simp only [view, openGroup, Snapshots.step, savedViews, Frame.restoreView_empty]
  rfl

theorem WF.openGroup (ht : t.WF) (info : ι) : (t.openGroup info).WF := by
  intro f hf
  rcases List.mem_cons.mp hf with rfl | hf
  · exact Frame.logs_empty info _
  · exact ht f hf

theorem closeGroup_eq_none_iff : t.closeGroup = none ↔ t.depth = 0 := by
  unfold closeGroup depth
  cases t.frames <;> simp

/-- Closing pops the innermost group and restores its entries, newest first. -/
theorem closeGroup_eq_some {info : ι} {restored : List (κ × ν)} {t' : Table κ ν ι}
    (h : t.closeGroup = some (info, restored, t')) :
    ∃ f fs, t.frames = f :: fs ∧
      t' = ({ t with frames := fs }.restoreAll f.saved.toList.reverse).1 ∧
      restored = ({ t with frames := fs }.restoreAll f.saved.toList.reverse).2 := by
  unfold closeGroup at h
  split at h
  · cases h
  · next f fs hfr =>
    simp only [Option.some.injEq, Prod.mk.injEq] at h
    obtain ⟨-, rfl, rfl⟩ := h
    exact ⟨f, fs, hfr, rfl, rfl⟩

/-- Restoring a group's entries newest first leaves the bindings the group stands for. -/
theorem restoreAll_saved (f : Frame κ ν ι) (fs : List (Frame κ ν ι)) :
    (fun k => ({ t with frames := fs }.restoreAll f.saved.toList.reverse).1.values[k]?) =
      f.restoreView t.gen fun k => t.values[k]? := by
  funext k
  rw [restoreAll_values, List.reverse_reverse]
  rfl

theorem view_closeGroup {info : ι} {restored : List (κ × ν)} {t' : Table κ ν ι}
    (h : t.closeGroup = some (info, restored, t')) :
    t'.view = t.view.step (.closeGroup : GroupOp κ ν ι) := by
  obtain ⟨f, fs, hfr, rfl, -⟩ := closeGroup_eq_some h
  simp only [view, restoreAll_saved, restoreAll_gen, restoreAll_frames, hfr, savedViews,
    Snapshots.step]
  rfl

theorem WF.closeGroup (ht : t.WF) {info : ι} {restored : List (κ × ν)} {t' : Table κ ν ι}
    (h : t.closeGroup = some (info, restored, t')) : t'.WF := by
  obtain ⟨f, fs, hfr, rfl, -⟩ := closeGroup_eq_some h
  intro f' hf'
  simp only [restoreAll_frames] at hf'
  rw [restoreAll_gen]
  exact ht f' (hfr ▸ List.mem_cons_of_mem f hf')

theorem gen_assign_global (k : κ) (v : ν) :
    (t.assign k v true).2.gen = Function.update t.gen k (t.gen k + 1) := by
  funext j
  by_cases h : j = k
  · subst h
    simp [assign, gen]
  · simp [assign, gen, Std.HashMap.getD_insert, Function.update_of_ne h, Ne.symm h]

theorem view_assign (ht : t.WF) (k : κ) (v : ν) (global : Bool) :
    (t.assign k v global).2.view = t.view.step (.assign k v global : GroupOp κ ν ι) := by
  cases global with
  | true =>
    have hgen := gen_assign_global (t := t) k v
    simp only [assign, if_true] at hgen ⊢
    simp only [view, hgen, values_insert, savedViews_advance ht, Snapshots.step, if_true]
  | false =>
    obtain ⟨dflt, values, gens, _ | ⟨f, fs⟩⟩ := t
    · simp [assign, view, values_insert, savedViews, Snapshots.step]
    · have hf : f.Logs (gens.getD · 0) := ht f List.mem_cons_self
      simp only [assign, Bool.false_eq_true, if_false, Std.HashMap.get?_eq_getElem?]
      by_cases hk : f.logged[k]? = some (gens.getD k 0)
      · simp only [hk, ↓reduceIte, view, values_insert, savedViews, Snapshots.step,
          Bool.false_eq_true, gen_mk, hf.restoreView_bind hk]
      · simp only [hk, ↓reduceIte, view, values_insert, savedViews, Snapshots.step,
          Bool.false_eq_true, gen_mk, hf.restoreView_log hk]

theorem WF.assign (ht : t.WF) (k : κ) (v : ν) (global : Bool) : (t.assign k v global).2.WF := by
  cases global with
  | true =>
    intro f hf
    rw [gen_assign_global]
    refine (ht f hf).mono fun j => ?_
    by_cases h : j = k
    · subst h
      simp
    · simp [Function.update_of_ne h]
  | false =>
    obtain ⟨dflt, values, gens, _ | ⟨f, fs⟩⟩ := t
    · simp [Table.assign, WF]
    · have hf : f.Logs (gens.getD · 0) := ht f List.mem_cons_self
      intro f' hf'
      simp only [Table.assign, Bool.false_eq_true, ↓reduceIte, Std.HashMap.get?_eq_getElem?,
        gen_mk] at hf' ⊢
      by_cases hk : f.logged[k]? = some (gens.getD k 0)
      · simp only [hk, ↓reduceIte] at hf'
        exact ht f' hf'
      · simp only [hk, ↓reduceIte] at hf'
        rcases List.mem_cons.mp hf' with rfl | hf'
        · exact hf.log hk _
        · exact ht f' (List.mem_cons_of_mem f hf')

/-! ## Any sequence of operations -/

theorem step_view (ht : t.WF) (op : GroupOp κ ν ι) :
    (t.step op).view = t.view.step op ∧ (t.step op).WF := by
  cases op with
  | openGroup info => exact ⟨view_openGroup info, ht.openGroup info⟩
  | closeGroup =>
    unfold step
    cases h : t.closeGroup with
    | none =>
      have hnil : t.frames = [] := List.eq_nil_of_length_eq_zero (closeGroup_eq_none_iff.mp h)
      exact ⟨by simp [view, hnil, savedViews, Snapshots.step], ht⟩
    | some r =>
      obtain ⟨info, restored, t'⟩ := r
      exact ⟨view_closeGroup h, ht.closeGroup h⟩
  | assign k v global => exact ⟨view_assign ht k v global, ht.assign k v global⟩

@[simp] theorem dflt_step (t : Table κ ν ι) (op : GroupOp κ ν ι) : (t.step op).dflt = t.dflt := by
  cases op with
  | closeGroup =>
    unfold step
    cases h : t.closeGroup with
    | none => rfl
    | some r =>
      obtain ⟨info, restored, t'⟩ := r
      show t'.dflt = t.dflt
      obtain ⟨f, fs, -, rfl, -⟩ := closeGroup_eq_some h
      exact restoreAll_dflt _ _
  | openGroup info => rfl
  | assign k v global => cases global <;> rfl

theorem run_view (ht : t.WF) (ops : List (GroupOp κ ν ι)) :
    (t.run ops).view = ops.foldl Snapshots.step t.view ∧ (t.run ops).WF ∧
      (t.run ops).dflt = t.dflt := by
  induction ops generalizing t with
  | nil => exact ⟨rfl, ht, rfl⟩
  | cons op ops ih =>
    obtain ⟨hview, hwf⟩ := step_view ht op
    obtain ⟨hview', hwf', hdflt⟩ := ih hwf
    refine ⟨?_, hwf', ?_⟩
    · rw [run, List.foldl_cons, List.foldl_cons, ← hview]
      exact hview'
    · rw [run, List.foldl_cons]
      exact hdflt.trans (dflt_step t op)

theorem view_empty (dflt : κ → ν) : (empty dflt : Table κ ν ι).view = ⟨fun _ => none, []⟩ := by
  simp [view, empty, savedViews]

theorem wf_empty (dflt : κ → ν) : (empty dflt : Table κ ν ι).WF := by
  simp [WF, empty]

/-- Closing a group in order reports exactly its entries at their key's generation, newest
first, each with the value of the copy the group stands for. -/
theorem closeGroup_restored (ht : t.WF) {info : ι} {restored : List (κ × ν)}
    {t' : Table κ ν ι} (h : t.closeGroup = some (info, restored, t')) :
    ∃ f c cs, t.frames.head? = some f ∧ t.view.saved = c :: cs ∧
      restored = (f.saved.toList.reverse.filter fun e => t.gen e.key = e.gen).map
        fun e => (e.key, (c e.key).getD (t.dflt e.key)) := by
  obtain ⟨f, fs, hfr, -, rfl⟩ := closeGroup_eq_some h
  have hf : f.Logs t.gen := ht f (hfr ▸ List.mem_cons_self)
  let c := f.restoreView t.gen fun k => t.values[k]?
  refine ⟨f, c, savedViews t.gen c fs, by rw [hfr]; rfl, by simp only [view, hfr, savedViews, c],
    ?_⟩
  rw [restoreAll_restored]
  apply List.map_congr_left
  intro e he
  obtain ⟨he, hcur⟩ := List.mem_filter.mp he
  have hcur : e.gen = t.gen e.key := (of_decide_eq_true hcur).symm
  simp only [c, Frame.restoreView, hf.entryFor_of_mem (List.mem_reverse.mp he) hcur]

end Table

/-- The table refines grouping by copies. After any sequence of operations from an empty
table: every key reads as its binding in the copies' meaning (its default when unbound),
the group level is the number of copies, the explicit values are exactly the bound keys,
each once, and closing fails exactly at the bottom level. Closing a group reports exactly
the entries logged at their key's current generation, newest first, each with the value of
the copy the group stands for. -/
theorem table_refines_snapshots {ν ι : Type} (dflt : Key → ν) (ops : List (GroupOp Key ν ι)) :
    let t := (Table.empty dflt : Table Key ν ι).run ops
    let m : Snapshots Key ν := Snapshots.run ops
    (∀ k, t.get k = (m.cur k).getD (dflt k)) ∧ t.depth = m.saved.length ∧
      (∀ k v, (k, v) ∈ t.bindings ↔ m.cur k = some v) ∧ (t.bindings.map Prod.fst).Nodup ∧
      (t.closeGroup = none ↔ t.depth = 0) ∧
      ∀ info restored t', t.closeGroup = some (info, restored, t') →
        ∃ f c cs, t.frames.head? = some f ∧ m.saved = c :: cs ∧
          restored = (f.saved.toList.reverse.filter fun e => t.gen e.key = e.gen).map
            fun e => (e.key, (c e.key).getD (dflt e.key)) := by
  intro t m
  obtain ⟨hview, hwf, hdflt⟩ := Table.run_view (Table.wf_empty (ι := ι) dflt) ops
  rw [Table.view_empty] at hview
  have hm : t.view = m := hview
  have hdflt : t.dflt = dflt := hdflt
  have hcur : m.cur = fun k => t.values[k]? := by rw [← hm]; rfl
  refine ⟨fun k => ?_, ?_, fun k v => ?_, ?_, Table.closeGroup_eq_none_iff, ?_⟩
  · rw [hcur, Table.get, Std.HashMap.getD_eq_getD_getElem?, hdflt]
  · rw [← hm]
    simp [Table.view, Table.depth, Table.savedViews_length]
  · rw [hcur, Table.bindings, Std.HashMap.mem_toList_iff_getElem?_eq_some]
  · rw [Table.bindings, List.nodup_iff_pairwise_ne, List.pairwise_map]
    exact t.values.distinct_keys_toList.imp fun h heq => by simp [heq] at h
  · intro info restored t' h
    rw [← hm, ← hdflt]
    exact Table.closeGroup_restored hwf h

end Galley.Scope
