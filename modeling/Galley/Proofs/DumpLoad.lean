import Mathlib
import Galley.Proofs.WellFormed

/-!
# What a dumped format restores

A dump writes each value the table holds explicitly as an entry, except the box registers
and the values a fresh engine is expected to have already: undefined meanings, primitives
under their own names, and no value. Loading the dump into a fresh engine assigns the
entries one after another.

So the loaded engine holds, at each key the dump records, the value the entry decodes to,
and at every other key what the fresh engine holds. An entry decodes to the value it was
written from when the value's numbers fit the fields of the snapshot: codes in 32 bits,
categories and orders in 8, each naming back the one it came from, and placeholders
numbered from 1 (the engine numbers them so). Macros come back structurally: a text
written down empty and one left out are told apart, but not how a non-empty text was read.

Hence the loaded engine agrees with the dumped one on every key the dump records, and
holds the fresh engine's value at every other key (`Engine.load_dump_restores`). It agrees
there only where the fresh engine already holds the dumped value: a primitive's name given
an undefined meaning is left out of the dump and comes back as the primitive.
-/

namespace Galley

/-! ### Values a snapshot writes back exactly -/

/-- A category its code, written in 8 bits, names back. -/
def Category.Written (c : Category) : Prop := c.code < 256 ∧ Category.ofCode c.code = c

/-- An order its rank, written in 8 bits, names back. -/
def Order.Written (o : Order) : Prop := o.rank < 256 ∧ Order.ofRank o.rank = o

/-- A token a snapshot writes back exactly: a character's code fits in 32 bits and its
category is written. -/
def Token.Written : Token → Prop
  | .char c cat => c < 4294967296 ∧ cat.Written
  | .cs _ => True

/-- An element of a macro text a snapshot writes back exactly: a written token, or a
placeholder numbered from 1. -/
def MacroElem.Written : MacroElem → Prop
  | .tok t => t.Written
  | .param n => 0 < n

/-- A value a snapshot writes back exactly, as far as its numbers go. -/
def Equivalent.Written : Equivalent → Prop
  | .meaning (.defined m) => ∀ x ∈ m.params ++ m.body, x.Written
  | .meaning (.charDef c) => c < 4294967296
  | .meaning (.charLet t) => t.Written
  | .category c => c.Written
  | .glue g => g.stretchOrder.Written ∧ g.shrinkOrder.Written
  | _ => True

/-- How a snapshot writes a macro text: left out when it is empty and was not written down. -/
def Macro.textOf (l : List MacroElem) (listed : Bool) : Option (List MacroElem) :=
  if l.isEmpty ∧ !listed then none else some l

/-- Two macros with the same texts as a snapshot writes them, and the same `\long`. -/
def Macro.Same (m m' : Macro) : Prop :=
  textOf m.params m.paramsListed = textOf m'.params m'.paramsListed ∧
    textOf m.body m.bodyListed = textOf m'.body m'.bodyListed ∧ m.long = m'.long

/-- Two values that are equal, macros compared structurally. -/
def Equivalent.Same : Equivalent → Equivalent → Prop
  | .meaning (.defined m), .meaning (.defined m') => m.Same m'
  | v, v' => v = v'

theorem codeOfWord_ofInt (i : Int) : codeOfWord (Int32.ofInt i) = (i % 4294967296).toNat := by
  change (Int32.ofInt i).toBitVec.toNat = _
  rw [Int32.toBitVec_ofInt, BitVec.toNat_ofInt]
  rfl

theorem codeOfWord_ofNat {c : Nat} (h : c < 4294967296) : codeOfWord (Int32.ofNat c) = c := by
  unfold codeOfWord
  simp only [Int32.toUInt32_ofNat', UInt32.toNat_ofNat']
  omega

theorem codeOfWord_signedCode {c : Nat} (h : c < 4294967296) :
    codeOfWord (Int32.ofInt (signedCode c)) = c := by
  rw [codeOfWord_ofInt]
  unfold signedCode
  split <;> omega

theorem Category.Written.ofCode_mod {c : Category} (h : c.Written) :
    Category.ofCode (((c.code : Int) % 256).toNat) = c := by
  have hmod : ((c.code : Int) % 256).toNat = c.code := by have := h.1; omega
  rw [hmod, h.2]

theorem Category.Written.ofCode_toUInt8 {c : Category} (h : c.Written) :
    Category.ofCode c.code.toUInt8.toNat = c := by
  have hmod : c.code.toUInt8.toNat = c.code := by simp [Nat.mod_eq_of_lt h.1]
  rw [hmod, h.2]

theorem Order.Written.ofRank_toUInt8 {o : Order} (h : o.Written) :
    Order.ofRank o.rank.toUInt8.toNat = o := by
  have hmod : o.rank.toUInt8.toNat = o.rank := by simp [Nat.mod_eq_of_lt h.1]
  rw [hmod, h.2]

namespace TokenRecord

theorem toToken_ofToken {t : Token} (h : t.Written) : (ofToken t).toToken = t := by
  cases t with
  | cs n => rfl
  | char c cat =>
    simp [ofToken, toToken, codeOfWord_ofNat h.1, Nat.mod_eq_of_lt h.2.1, h.2.2]

end TokenRecord

theorem ElemRecord.toElem_ofElem {x : MacroElem} (h : x.Written) :
    (ElemRecord.ofElem x).toElem = x := by
  cases x with
  | tok t => simp [ElemRecord.ofElem, ElemRecord.toElem, TokenRecord.toToken_ofToken h]
  | param n =>
    have hn : 0 < n := h
    simp [ElemRecord.ofElem, ElemRecord.toElem, hn]

theorem Macro.textOf_toMacro {l : List MacroElem} {listed : Bool} (h : ∀ x ∈ l, x.Written) :
    textOf (((if l.isEmpty ∧ !listed then none else some (l.map ElemRecord.ofElem)).getD []).map
        ElemRecord.toElem)
      (if l.isEmpty ∧ !listed then none else some (l.map ElemRecord.ofElem)).isSome =
      textOf l listed := by
  by_cases hc : l.isEmpty ∧ !listed
  · rw [if_pos hc]
    simp [textOf, hc]
  · rw [if_neg hc]
    have hl : (l.map ElemRecord.ofElem).map ElemRecord.toElem = l := by
      rw [List.map_map]
      exact (List.map_congr_left fun x hx => ElemRecord.toElem_ofElem (h x hx)).trans
        (List.map_id l)
    simpa [textOf, hl] using hc

theorem MacroRecord.toMacro_ofMacro {m : Macro} (h : ∀ x ∈ m.params ++ m.body, x.Written) :
    (MacroRecord.ofMacro m).toMacro.Same m :=
  ⟨Macro.textOf_toMacro fun x hx => h x (List.mem_append_left _ hx),
    Macro.textOf_toMacro fun x hx => h x (List.mem_append_right _ hx), rfl⟩

theorem GlueRecord.toGlue_ofGlue {g : Glue} (hs : g.stretchOrder.Written)
    (hh : g.shrinkOrder.Written) : (GlueRecord.ofGlue g).toGlue = g := by
  simp only [GlueRecord.ofGlue, GlueRecord.toGlue, hs.ofRank_toUInt8, hh.ofRank_toUInt8]

theorem Equivalent.Fits.meaning {sp : Space} {m : Meaning} (h : (Equivalent.meaning m).Fits sp) :
    m.WellFormed := by
  cases sp <;> first | exact h | exact h.elim

theorem Equivalent.Same.refl (v : Equivalent) : v.Same v := by
  rcases v with (_ | m | _ | _ | _ | _ | _) | _ | _ | _ | _ | _ | _ | _
  all_goals first | exact ⟨rfl, rfl, rfl⟩ | rfl

/-- An entry decodes to a value the same as the one it was written from, when that value is
of its key's kind and written back exactly. -/
theorem Entry.value_ofBinding {k : Key} {v : Equivalent} {x : Entry}
    (hx : Entry.ofBinding k v = some x) (hf : v.Fits k.space) (hw : v.Written) :
    ∃ v', x.value = .ok v' ∧ v'.Same v := by
  unfold Entry.ofBinding at hx
  split at hx
  · cases hx
  -- every kind of value but a macro comes back equal
  suffices h : x.value = .ok v ∨ ∃ d, v = .meaning (.defined d) ∧
      x.value = .ok (.meaning (.defined (MacroRecord.ofMacro d).toMacro)) by
    rcases h with h | ⟨d, rfl, h⟩
    · exact ⟨v, h, .refl v⟩
    · exact ⟨_, h, MacroRecord.toMacro_ofMacro hw⟩
  cases v with
  | meaning m =>
    cases m with
    | undefined => simp at hx
    | defined d =>
      simp only [Option.some.injEq] at hx
      subst hx
      exact .inr ⟨d, rfl, rfl⟩
    | primitive name p =>
      simp only at hx
      split at hx
      · cases hx
      · simp only [Option.some.injEq] at hx
        subst hx
        have hp : primitiveNamed? name = some p := hf.meaning
        exact .inl (by simp [Entry.value, hp])
    | charDef c =>
      simp only [Option.some.injEq] at hx
      subst hx
      have hc : c < 4294967296 := hw
      exact .inl (by simp [Entry.value, codeOfWord_signedCode hc])
    | register sp n =>
      simp only [Option.some.injEq] at hx
      subst hx
      have hsp : sp = .count ∨ sp = .dimen ∨ sp = .skip := hf.meaning.1
      rcases hsp with rfl | rfl | rfl <;> exact .inl (by simp [Entry.value, Space.index, Space.ofIndex])
    | charLet t =>
      simp only [Option.some.injEq] at hx
      subst hx
      have ht : t.Written := hw
      exact .inl (by simp [Entry.value, TokenRecord.toToken_ofToken ht])
    | fontDef f =>
      simp only [Option.some.injEq] at hx
      subst hx
      exact .inl rfl
  | category c =>
    simp only [Option.some.injEq] at hx
    subst hx
    have hc : c.Written := hw
    exact .inl (by simp [Entry.value, hc.ofCode_mod])
  | int n =>
    simp only [Option.some.injEq] at hx
    subst hx
    exact .inl (by simp [Entry.value])
  | dimen d =>
    simp only [Option.some.injEq] at hx
    subst hx
    exact .inl (by simp [Entry.value])
  | glue g =>
    simp only [Option.some.injEq] at hx
    subst hx
    have hg : g.stretchOrder.Written ∧ g.shrinkOrder.Written := hw
    exact .inl (by simp [Entry.value, GlueRecord.toGlue_ofGlue hg.1 hg.2])
  | box b => simp at hx
  | font f =>
    simp only [Option.some.injEq] at hx
    subst hx
    exact .inl rfl
  | absent => simp at hx

theorem Entry.key_ofBinding {k : Key} {v : Equivalent} {x : Entry}
    (hx : Entry.ofBinding k v = some x) : x.key = k := by
  unfold Entry.ofBinding at hx
  split at hx
  · cases hx
  rcases v with (_ | _ | ⟨name, _⟩ | _ | _ | _ | _) | _ | _ | _ | _ | _ | _ | _
  all_goals simp only [Option.some.injEq, reduceCtorEq] at hx
  all_goals first | (subst hx; rfl) | (split at hx <;> simp only [Option.some.injEq, reduceCtorEq] at hx; subst hx; rfl)

/-- The keys of the entries written from a list of bindings come from the list, in order. -/
theorem Entry.keys_filterMap_sublist (l : List (Key × Equivalent)) :
    List.Sublist ((l.filterMap fun kv => Entry.ofBinding kv.1 kv.2).map (·.key))
      (l.map Prod.fst) := by
  induction l with
  | nil => exact List.Sublist.slnil
  | cons kv l ih =>
    rw [List.filterMap_cons]
    cases hx : Entry.ofBinding kv.1 kv.2 with
    | none => exact ih.cons _
    | some x =>
      rw [List.map_cons, List.map_cons, Entry.key_ofBinding hx]
      exact ih.cons_cons _

namespace Engine

theorem loadEntries_get_of_forall_ne {e : Engine} {xs : List Entry} {k : Key}
    (h : ∀ x ∈ xs, x.key ≠ k) : (e.loadEntries xs).1.get k = e.get k := by
  induction xs generalizing e with
  | nil => rfl
  | cons x xs ih =>
    unfold loadEntries
    split
    · rfl
    · rw [ih fun y hy => h y (List.mem_cons_of_mem _ hy)]
      simp [Engine.get, Function.update_of_ne (h x List.mem_cons_self).symm]

/-- Loading entries that all decode, no key named twice, gives each entry's key its value. -/
theorem loadEntries_get_of_mem {e : Engine} {xs : List Entry}
    (hnd : (xs.map (·.key)).Nodup) (hok : ∀ x ∈ xs, ∃ v, x.value = .ok v) {x : Entry}
    (hx : x ∈ xs) {v : Equivalent} (hv : x.value = .ok v) :
    (e.loadEntries xs).1.get x.key = v := by
  induction xs generalizing e with
  | nil => cases hx
  | cons y ys ih =>
    rw [List.map_cons, List.nodup_cons] at hnd
    obtain ⟨w, hw⟩ := hok y List.mem_cons_self
    simp only [loadEntries, hw]
    rcases List.mem_cons.mp hx with rfl | hx
    · rw [loadEntries_get_of_forall_ne fun z hz hzk => hnd.1 (List.mem_map.mpr ⟨z, hz, hzk⟩)]
      rw [hv] at hw
      cases hw
      simp [Engine.get]
    · exact ih hnd.2 (fun z hz => hok z (List.mem_cons_of_mem _ hz)) hx

/-- The dump outside any group: its entries are written from the table's explicit values,
each key once. -/
theorem dump_entries {e : Engine} (hd : e.depth = 0) :
    ∃ snap, e.dump = .ok snap ∧
      (∀ x, x ∈ snap.entries.getD [] ↔
        ∃ k v, e.table.values[k]? = some v ∧ Entry.ofBinding k v = some x) ∧
      ((snap.entries.getD []).map (·.key)).Nodup := by
  unfold dump
  rw [if_neg (by omega)]
  refine ⟨_, rfl, ?_⟩
  have hget : ∀ l : List Entry, (if l.isEmpty then none else some l).getD [] = l := by
    intro l
    cases l <;> rfl
  simp only [hget]
  refine ⟨fun x => ?_, ?_⟩
  · simp [List.mem_filterMap, Scope.Table.bindings]
  · have hkeys : (e.table.bindings.map Prod.fst).Nodup := by
      rw [Scope.Table.bindings, Std.HashMap.map_fst_toList_eq_keys]
      exact Std.HashMap.nodup_keys
    exact (Entry.keys_filterMap_sublist _).nodup
      (((List.mergeSort_perm _ _).map Prod.fst).nodup_iff.mpr hkeys)

theorem loadEntries_none {e : Engine} {xs : List Entry} (hok : ∀ x ∈ xs, ∃ v, x.value = .ok v) :
    (e.loadEntries xs).2 = none := by
  induction xs generalizing e with
  | nil => rfl
  | cons x xs ih =>
    obtain ⟨v, hv⟩ := hok x List.mem_cons_self
    simp only [loadEntries, hv]
    exact ih fun y hy => hok y (List.mem_cons_of_mem _ hy)

/-- A dump taken outside any group and loaded into a fresh engine restores the dumped
engine at every key it records: the load succeeds, each such key holds the dumped value (a
macro with the same texts as written), and every other key keeps the fresh engine's value.
The dumped values must be of their keys' kinds and written back exactly. -/
theorem load_dump_restores {e : Engine} (hd : e.depth = 0)
    (hfit : ∀ k, (e.get k).Fits k.space) (hw : ∀ k, (e.get k).Written) (o : EngineOptions) :
    ∃ snap, e.dump = .ok snap ∧ ((Engine.create o).load snap).2 = none ∧
      (∀ x ∈ snap.entries.getD [],
        (((Engine.create o).load snap).1.get x.key).Same (e.get x.key)) ∧
      ∀ k, (∀ x ∈ snap.entries.getD [], x.key ≠ k) →
        ((Engine.create o).load snap).1.get k = (Engine.create o).get k := by
  obtain ⟨snap, hdump, hmem, hnd⟩ := dump_entries hd
  have hload : (Engine.create o).load snap =
      (Engine.create o).loadEntries (snap.entries.getD []) := by
    simp [Engine.load, Engine.create_depth]
  have hdecode : ∀ x ∈ snap.entries.getD [], ∃ v, x.value = .ok v ∧ v.Same (e.get x.key) := by
    intro x hx
    obtain ⟨k, v, hk, hx⟩ := (hmem x).1 hx
    have hget : e.get k = v := by
      simp [Engine.get, Scope.Table.get_eq_getD, hk]
    rw [Entry.key_ofBinding hx, hget]
    exact Entry.value_ofBinding hx (hget ▸ hfit k) (hget ▸ hw k)
  have hok : ∀ x ∈ snap.entries.getD [], ∃ v, x.value = .ok v := fun x hx =>
    (hdecode x hx).imp fun _ h => h.1
  refine ⟨snap, hdump, hload ▸ loadEntries_none hok, fun x hx => ?_, fun k hk => ?_⟩
  · obtain ⟨v, hv, hsame⟩ := hdecode x hx
    rw [hload, loadEntries_get_of_mem hnd hok hx hv]
    exact hsame
  · rw [hload, loadEntries_get_of_forall_ne hk]

end Engine

end Galley
