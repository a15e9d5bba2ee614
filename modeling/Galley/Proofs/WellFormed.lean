import Mathlib
import Galley.Proofs.Soundness

/-!
# The table of equivalents stays well formed

Every key of the table holds a value of its space's kind: a meaning for a control
sequence, a category for a catcode, an integer for a count, an sfcode or an integer
parameter, a dimension for a dimen or a dimension parameter, glue for a skip or a glue
parameter, a box for a box register and a font for the current font. Every register
meaning names a `\count`, `\dimen` or `\skip` register below 256, every macro names only
the parameters it has, and every primitive meaning carries its own name. The typed
readers of the engine then always find the value they read, and a macro call always has
the argument a placeholder names.

Processing keeps that, since the engine only ever writes values of the key's kind, but
loading a snapshot does not: its entries are assigned without a look at their keys. So it
holds of every engine reached by processing texts and loading snapshots whose entries
decode to values of their keys' kinds, and may fail after any other load.
-/

namespace Galley

/-- A meaning the engine can give: a register of `\count`, `\dimen` or `\skip` numbered
`0..255`, a macro whose placeholders are its parameters, a primitive under its own name. -/
def Meaning.WellFormed : Meaning → Prop
  | .register sp n => (sp = .count ∨ sp = .dimen ∨ sp = .skip) ∧ 0 ≤ n ∧ n ≤ 255
  | .defined m => m.Numbered
  | .primitive name p => primitiveNamed? name = some p
  | _ => True

/-- A value of the kind the keys of a space hold. -/
def Equivalent.Fits : Space → Equivalent → Prop
  | .meaning, .meaning m => m.WellFormed
  | .catcode, .category _ => True
  | .sfcode, .int _ | .count, .int _ | .intpar, .int _ => True
  | .dimen, .dimen _ | .dimenpar, .dimen _ => True
  | .skip, .glue _ | .gluepar, .glue _ => True
  | .box, .box _ => True
  | .font, .font _ => True
  | .beyond _, .absent => True
  | _, _ => False

theorem Equivalent.Fits.isNumber {sp : Space} {v : Equivalent} (h : v.Fits sp)
    (hsp : sp = .count ∨ sp = .dimen ∨ sp = .skip ∨ sp = .intpar ∨ sp = .dimenpar ∨
      sp = .gluepar) : v.IsNumber := by
  rcases hsp with rfl | rfl | rfl | rfl | rfl | rfl <;> cases v <;>
    simp_all [Equivalent.Fits, Equivalent.IsNumber]

/-- Keys hold values of their space's kind. -/
def TableInvariant.fits : TableInvariant where
  holds k v := v.Fits k.space
  meaning k m hk := by rw [hk]
  undefined := trivial
  relax := rfl
  charLet _ := trivial
  fontDef _ := trivial
  charDef _ := trivial
  register sp r hsp hr := ⟨hsp, by omega, by omega⟩
  defined _ hm := hm
  named _ _ h := h
  font _ := trivial
  category _ _ := trivial
  sfcode _ _ := trivial
  box _ _ := trivial
  int k _ _ h := by cases hk : k.space <;> simp_all [Equivalent.Fits]
  dimen k _ _ h := by cases hk : k.space <;> simp_all [Equivalent.Fits]
  glue k _ _ h := by cases hk : k.space <;> simp_all [Equivalent.Fits]
  absent k v h hn hk := by
    refine absurd (h.isNumber ?_) hn
    rcases hk with hs | hs | hs | hs | hs | hs | ⟨hs | hs | hs, -⟩ <;> simp [hs]

/-- Every entry of the snapshot decodes, if at all, to a value of its key's kind. -/
def Snapshot.WellKinded (s : Snapshot) : Prop :=
  ∀ x ∈ s.entries.getD [], ∀ v, x.value = .ok v → v.Fits x.key.space

/-- A fresh engine's keys hold their initial values and the primitives, all of their kind. -/
theorem TableInvariant.fits_create (o : EngineOptions) :
    (Engine.create o).table.Holds fits.holds := by
  refine Engine.create_holds o (fun k => ?_) (fun np hnp => primitiveNamed_of_mem np hnp)
  cases hk : k.space <;> simp [fits, initialEquivalent, hk, Equivalent.Fits, Meaning.WellFormed]

/-- Every key holds a value of its space's kind, in every engine reached by processing
texts and loading snapshots whose entries have values of their keys' kinds. -/
theorem reachable_table_wellFormed {e : Engine} (hr : e.Reachable Snapshot.WellKinded)
    (k : Key) : (e.get k).Fits k.space :=
  (hr.holds TableInvariant.fits_create fun _ hs => hs).get k

/-- Each typed reader of an engine reached by processing texts and loading well-kinded
snapshots finds a value of its kind, so none of their defaults is read. -/
theorem Engine.Reachable.typed_reads {e : Engine} (hr : e.Reachable Snapshot.WellKinded) :
    (∀ name, ∃ m, e.get { space := .meaning, name } = .meaning m) ∧
    (∀ n, ∃ c, e.get { space := .catcode, n } = .category c) ∧
    (∀ k : Key, k.space = .count ∨ k.space = .sfcode ∨ k.space = .intpar →
      ∃ n, e.get k = .int n) ∧
    (∀ k : Key, k.space = .dimen ∨ k.space = .dimenpar → ∃ d, e.get k = .dimen d) ∧
    (∀ k : Key, k.space = .skip ∨ k.space = .gluepar → ∃ g, e.get k = .glue g) ∧
    (∀ n, ∃ b, e.get { space := .box, n } = .box b) ∧
    ∃ f, e.get { space := .font } = .font f := by
  have hfit : ∀ k, ∃ v, e.get k = v ∧ v.Fits k.space := fun k =>
    ⟨_, rfl, (hr.holds TableInvariant.fits_create fun _ hs => hs).get k⟩
  refine ⟨fun name => ?_, fun n => ?_, fun k hk => ?_, fun k hk => ?_, fun k hk => ?_,
    fun n => ?_, ?_⟩
  · obtain ⟨v, hv, h⟩ := hfit { space := .meaning, name }
    cases v <;> simp_all [Equivalent.Fits]
  · obtain ⟨v, hv, h⟩ := hfit { space := .catcode, n }
    cases v <;> simp_all [Equivalent.Fits]
  · obtain ⟨v, hv, h⟩ := hfit k
    rcases hk with hk | hk | hk <;> rw [hk] at h <;> cases v <;> simp_all [Equivalent.Fits]
  · obtain ⟨v, hv, h⟩ := hfit k
    rcases hk with hk | hk <;> rw [hk] at h <;> cases v <;> simp_all [Equivalent.Fits]
  · obtain ⟨v, hv, h⟩ := hfit k
    rcases hk with hk | hk <;> rw [hk] at h <;> cases v <;> simp_all [Equivalent.Fits]
  · obtain ⟨v, hv, h⟩ := hfit { space := .box, n }
    cases v <;> simp_all [Equivalent.Fits]
  · obtain ⟨v, hv, h⟩ := hfit { space := .font }
    cases v <;> simp_all [Equivalent.Fits]

theorem count_entry_wellKinded :
    Snapshot.WellKinded ⟨1, some [{ key := { space := .count, n := 5 }, kind := "int", int := 7 }]⟩ := by
  intro x hx v hv
  simp only [Option.getD_some, List.mem_singleton] at hx
  subst hx
  simp only [Entry.value, Except.ok.injEq] at hv
  subst hv
  trivial

theorem reachable_table_wellFormed_after_load :
    ((Engine.create {}).load
        ⟨1, some [{ key := { space := .count, n := 5 }, kind := "int", int := 7 }]⟩).1.Reachable
      Snapshot.WellKinded ∧
    ∀ k, (((Engine.create {}).load
        ⟨1, some [{ key := { space := .count, n := 5 }, kind := "int", int := 7 }]⟩).1.get
      k).Fits k.space :=
  ⟨.load count_entry_wellKinded (.create _),
    reachable_table_wellFormed (.load count_entry_wellKinded (.create _))⟩

theorem Engine.create_depth (o : EngineOptions) : (Engine.create o).depth = 0 := by
  simp [Engine.depth, Scope.Table.depth, Engine.create_frames]

/-- Loading one entry outside any group gives its key the value it decodes to. -/
theorem Engine.get_load_single {e : Engine} (hd : e.depth = 0) {x : Entry} {v : Equivalent}
    (hv : x.value = .ok v) (version : Int) :
    (e.load ⟨version, some [x]⟩).1.get x.key = v := by
  simp [Engine.load, hd, Engine.loadEntries, hv, Engine.get]

/-- Loading a snapshot that makes `\r` the register `\count300` leaves a key holding a
meaning no command of the engine can give. -/
theorem load_register_out_of_range :
    ((Engine.create {}).load
      ⟨1, some [{ key := { space := .meaning, name := "r" }, kind := "register",
                  register := some ⟨3, 300⟩ }]⟩).1.Reachable (fun _ => True) ∧
    ¬ (((Engine.create {}).load
      ⟨1, some [{ key := { space := .meaning, name := "r" }, kind := "register",
                  register := some ⟨3, 300⟩ }]⟩).1.get { space := .meaning, name := "r" }).Fits
      .meaning := by
  refine ⟨.load trivial (.create _), ?_⟩
  rw [Engine.get_load_single (Engine.create_depth {}) (by rfl)]
  simp [Equivalent.Fits, Meaning.WellFormed, Space.ofIndex]

end Galley
