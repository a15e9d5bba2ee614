import Mathlib
import Galley.Format.Store

/-!
# A store in memory and a database keep the same history

The two kinds of store decide the same questions by different means. In memory a name's
versions are a list: a version's number is its position, and a put is a repeat when its digest
is that of the last version. A database keeps a table of formats and a table of versions: a
put is a repeat when its digest is that of the name's row of formats (the empty text when the
name has none), the new version is numbered one past the highest of the name, and the history
is the name's rows sorted by number.

`DatabaseTables.Mirrors m t` relates the two: every name has the same newest snapshot and
digest in both, and its rows of versions are, up to order and stamps, the versions the memory
numbers. A fresh memory and a fresh database mirror each other, and a put or a delete keeps
the relation (`Mirrors.put`, `Mirrors.delete`). Two facts make the put case go through: a
digest is never the empty text (`Snapshot.digest_ne_empty`), so a name without a row never
looks like a repeat; and the numbers of a name's rows are `1 … k`, so the highest plus one is
the position the memory gives the new version. From the relation, sorting the rows gives the
memory's history exactly (`Mirrors.history`).

The main statement, `memory_and_database_stores_agree`, runs any calls on a fresh store of each
kind, each with a clock of its own: both answer the same newest snapshot and the same history
for every name and limit, stamps aside, and in both the versions of a name are numbered
`k, k-1, …, 1`, neighbouring versions differ in digest, and a put of the newest version's
snapshot changes nothing.
-/

namespace Galley

/-! ### A digest is never empty -/

namespace Digest

theorem keccakRound_size (a : Array UInt64) (rc : UInt64) : (keccakRound a rc).size = 25 := by
  simp [keccakRound]

theorem keccakF_size (a : Array UInt64) (h : a.size = 25) : (keccakF a).size = 25 := by
  unfold keccakF
  rw [← Array.foldl_toList]
  generalize keccakRoundConstants.toList = rcs
  induction rcs generalizing a with
  | nil => exact h
  | cons rc rcs ih =>
    rw [List.foldl_cons]
    exact ih _ (keccakRound_size a rc)

theorem absorb_size (s : Array UInt64) (block : List UInt8) : (absorb s block).size = 25 := by
  unfold absorb
  exact keccakF_size _ (by simp only [Array.size_ofFn])

theorem foldl_absorb_size (bs : List (List UInt8)) (s : Array UInt64) (h : s.size = 25) :
    (bs.foldl absorb s).size = 25 := by
  induction bs generalizing s with
  | nil => exact h
  | cons b bs ih =>
    rw [List.foldl_cons]
    exact ih _ (absorb_size s b)

theorem laneBytes_length (w : UInt64) : (laneBytes w).length = 8 := by
  simp only [laneBytes, List.length_map, List.length_range]

theorem sha3_256_length (msg : List UInt8) : (sha3_256 msg).length = 32 := by
  unfold sha3_256
  generalize blocks 136 (sha3Padded 136 msg) = bs
  have h25 := foldl_absorb_size bs (Array.replicate 25 0) (by simp only [Array.size_replicate])
  generalize bs.foldl absorb (Array.replicate 25 0) = s at h25 ⊢
  simp only [List.length_flatMap, laneBytes_length, List.map_const', List.sum_replicate,
    List.length_take, Array.length_toList, h25, smul_eq_mul]
  rfl

theorem hex_length (bytes : List UInt8) : (hex bytes).length = 2 * bytes.length := by
  simp only [hex, String.length_ofList, List.length_flatMap, List.length_cons, List.length_nil]
  simp [Nat.mul_comm]

theorem sha3Hex_length (s : String) : (sha3Hex s).length = 64 := by
  rw [sha3Hex, hex_length, sha3_256_length]

end Digest

theorem Snapshot.digest_ne_empty (s : Snapshot) : s.digest ≠ "" := by
  intro h
  have hlen := Digest.sha3Hex_length s.encode
  rw [← Snapshot.digest, h] at hlen
  simp at hlen

/-! ### Versions without their stamps -/

/-- A version with its time of storing left out. -/
def FormatVersion.untimed (v : FormatVersion) : FormatVersion := { v with stamp := "" }

@[simp] theorem FormatVersion.untimed_number (v : FormatVersion) : v.untimed.number = v.number :=
  rfl

@[simp] theorem FormatVersion.untimed_digest (v : FormatVersion) : v.untimed.digest = v.digest :=
  rfl

/-! ### In memory -/

namespace MemoryFormats

variable {m : MemoryFormats} {name : String}

theorem history_eq (m : MemoryFormats) (name : String) :
    m.history name = ((m.versions name).zipIdx.map fun p =>
      (⟨p.2 + 1, p.1.digest, p.1.entries, p.1.stamp⟩ : FormatVersion)).reverse := rfl

theorem length_history : (m.history name).length = (m.versions name).length := by
  simp [history_eq]

/-- The versions of a name are numbered `k, k-1, …, 1`, newest first. -/
theorem numbers_history :
    (m.history name).map (·.number) = (List.range' 1 (m.versions name).length).reverse := by
  rw [history_eq, List.map_reverse, List.map_map]
  congr 1
  have hnum : List.range' 1 (m.versions name).length =
      ((m.versions name).zipIdx.map Prod.snd).map (· + 1) := by
    have hcomm : (fun x : Nat => x + 1) = (1 + ·) := funext fun x => Nat.add_comm x 1
    rw [List.zipIdx_map_snd, hcomm, List.map_add_range']
  rw [hnum, List.map_map]
  rfl

theorem digests_history :
    (m.history name).map (·.digest) = ((m.versions name).map (·.digest)).reverse := by
  rw [history_eq, List.map_reverse, List.map_map]
  congr 1
  conv_rhs => rw [← List.zipIdx_map_fst 0 (m.versions name), List.map_map]
  rfl

theorem head?_digest_history :
    (m.history name).head?.map (·.digest) = (m.versions name).getLast?.map (·.digest) := by
  rw [← List.head?_map, digests_history, List.head?_reverse, List.getLast?_map]

theorem history_congr {m' : MemoryFormats} (h : m'.versions name = m.versions name) :
    m'.history name = m.history name := by
  simp [history_eq, h]

theorem history_of_versions_nil (h : m.versions name = []) : m.history name = [] := by
  simp [history_eq, h]

theorem history_of_versions_concat {m' : MemoryFormats} {v : KeptVersion}
    (h : m'.versions name = m.versions name ++ [v]) :
    m'.history name =
      ⟨(m.versions name).length + 1, v.digest, v.entries, v.stamp⟩ :: m.history name := by
  simp [history_eq, h, List.zipIdx_append]

theorem put_of_newest {snap : Snapshot} {d stamp : String}
    (h : (m.versions name).getLast?.map (·.digest) = some d) : m.put name snap d stamp = m := by
  simp [put, h]

theorem versions_put {snap : Snapshot} {d stamp : String}
    (h : (m.versions name).getLast?.map (·.digest) ≠ some d) (n : String) :
    (m.put name snap d stamp).versions n =
      if n = name then m.versions name ++ [⟨snap, d, snap.size, stamp⟩] else m.versions n := by
  simp [put, h]

theorem versions_delete (n : String) :
    (m.delete name).versions n = if n = name then [] else m.versions n := rfl

/-- Neighbouring versions of every name differ in digest. -/
def DistinctNeighbours (m : MemoryFormats) : Prop :=
  ∀ name, ((m.versions name).map (·.digest)).IsChain (· ≠ ·)

theorem distinctNeighbours_empty : (({} : MemoryFormats)).DistinctNeighbours :=
  fun _ => List.IsChain.nil

theorem DistinctNeighbours.put (h : m.DistinctNeighbours) (snap : Snapshot) (d stamp : String) :
    (m.put name snap d stamp).DistinctNeighbours := by
  by_cases hnew : (m.versions name).getLast?.map (·.digest) = some d
  · rw [put_of_newest hnew]
    exact h
  intro n
  rw [versions_put hnew]
  split
  · rw [List.map_append]
    refine (h name).append (List.isChain_singleton _) fun x hx y hy => ?_
    rw [List.getLast?_map] at hx
    simp only [List.map_cons, List.map_nil, List.head?_cons, Option.mem_def,
      Option.some.injEq] at hy
    rintro rfl
    subst hy
    exact hnew (by simpa using hx)
  · exact h n

theorem DistinctNeighbours.delete (h : m.DistinctNeighbours) (name : String) :
    (m.delete name).DistinctNeighbours := by
  intro n
  rw [versions_delete]
  split
  · exact List.IsChain.nil
  · exact h n

end MemoryFormats

/-! ### A database mirroring a store in memory -/

namespace DatabaseTables

variable {t : DatabaseTables} {name : String}

theorem row?_upsert (t : DatabaseTables) (r : FormatRow) (vs : List VersionRow) (n : String) :
    ({ formats := t.upsert r, versions := vs } : DatabaseTables).row? n =
      if r.name = n then some r else t.row? n := by
  unfold row? upsert
  split
  · rename_i hany
    rw [List.find?_map]
    -- replacing the rows of `r.name` by `r` does not change which rows are named `n`
    have hp : ((fun x : FormatRow => x.name == n) ∘ fun g => if g.name == r.name then r else g) =
        fun x => x.name == n := by
      funext x
      by_cases hx : x.name = r.name
      · simp only [Function.comp_apply, hx, beq_self_eq_true, if_true]
      · simp only [Function.comp_apply, beq_iff_eq, hx, if_false]
    rw [hp]
    split
    · rename_i hrn
      subst hrn
      obtain ⟨x, hx, hxn⟩ := List.any_eq_true.mp hany
      cases hfind : t.formats.find? (·.name == r.name) with
      | none => exact absurd hfind (List.find?_isSome.mpr ⟨x, hx, hxn⟩ |> Option.isSome_iff_ne_none.mp)
      | some y =>
        have hy := List.find?_some hfind
        simp only [beq_iff_eq] at hy
        simp [hy]
    · rename_i hrn
      cases hfind : t.formats.find? (·.name == n) with
      | none => rfl
      | some y =>
        have hy : y.name = n := by simpa using List.find?_some hfind
        have hne : ¬ y.name = r.name := fun h => hrn (h.symm.trans hy)
        simp [hne]
  · rename_i hany
    rw [List.find?_append]
    split
    · rename_i hrn
      subst hrn
      have hnone : t.formats.find? (·.name == r.name) = none := by
        rw [List.find?_eq_none]
        intro x hx hxn
        exact hany (List.any_eq_true.mpr ⟨x, hx, hxn⟩)
      simp [hnone]
    · rename_i hrn
      simp [hrn]

theorem row?_delete (n : String) :
    (t.delete name).row? n = if n = name then none else t.row? n := by
  unfold row? delete
  split
  · rename_i hn
    subst hn
    rw [List.find?_eq_none]
    intro x hx hxn
    simp only [List.mem_filter, bne_iff_ne, ne_eq] at hx
    exact hx.2 (by simpa using hxn)
  · rename_i hn
    rw [List.find?_filter]
    congr 1
    funext x
    by_cases hx : x.name = n
    · simp [hx, hn]
    · simp [hx]

theorem versionsOf_delete (n : String) :
    (t.delete name).versionsOf n = if n = name then [] else t.versionsOf n := by
  unfold versionsOf delete
  split
  · rename_i hn
    subst hn
    simp
  · rename_i hn
    rw [List.filter_filter]
    congr 2
    funext x
    by_cases hx : x.name = n
    · simp [hx, hn]
    · simp [hx]

/-- A put that is no repeat writes the name's row and adds a version one past its highest. -/
theorem put_of_ne {snap : Snapshot} {d stamp : String}
    (h : ((t.row? name).map (·.digest)).getD "" ≠ d) :
    t.put name snap d stamp =
      { formats := t.upsert ⟨name, snap, d⟩,
        versions := t.versions ++
          [⟨name, ⟨((t.versionsOf name).map (·.number)).foldl max 0 + 1, d, snap.size, stamp⟩⟩] } := by
  simp [put, h]

theorem versionsOf_append (vs : List VersionRow) (v : VersionRow) (fs : List FormatRow)
    (n : String) :
    ({ formats := fs, versions := vs ++ [v] } : DatabaseTables).versionsOf n =
      ({ formats := fs, versions := vs } : DatabaseTables).versionsOf n ++
        if v.name = n then [v.version] else [] := by
  unfold versionsOf
  by_cases hv : v.name = n
  · simp [hv]
  · simp [hv]

end DatabaseTables

theorem foldl_max_of_perm_range' {l : List Nat} {k : Nat}
    (h : l.Perm (List.range' 1 k).reverse) : l.foldl max 0 = k := by
  rw [List.foldl_max]
  cases k with
  | zero =>
    have hnil : l = [] := by simpa using h
    simp [hnil]
  | succ k =>
    have hmem : ∀ x, x ∈ l ↔ 1 ≤ x ∧ x < k + 2 := by
      intro x
      rw [h.mem_iff, List.mem_reverse, List.mem_range'_1]
      omega
    have hmax : l.max? = some (k + 1) :=
      List.max?_eq_some_iff.mpr ⟨(hmem _).mpr ⟨by omega, by omega⟩,
        fun b hb => by have := (hmem b).mp hb; omega⟩
    simp [hmax]

namespace DatabaseTables

/-- A database mirrors a store in memory: each name has the same newest snapshot and digest
in both, and its rows of versions are, up to order and stamps, the versions the memory
numbers. -/
structure Mirrors (m : MemoryFormats) (t : DatabaseTables) : Prop where
  newest : ∀ name, (t.row? name).map (fun r => (r.snapshot, r.digest)) =
    (m.versions name).getLast?.map (fun v => (v.snapshot, v.digest))
  versions : ∀ name, ((t.versionsOf name).map FormatVersion.untimed).Perm
    ((m.history name).map FormatVersion.untimed)

namespace Mirrors

variable {m : MemoryFormats} {t : DatabaseTables}

theorem empty : Mirrors {} {} where
  newest _ := rfl
  versions _ := by simp [versionsOf, MemoryFormats.history_eq]

theorem digest (h : Mirrors m t) (name : String) :
    (t.row? name).map (·.digest) = (m.versions name).getLast?.map (·.digest) := by
  have h' := congrArg (Option.map Prod.snd) (h.newest name)
  simpa only [Option.map_map, Function.comp_def] using h'

theorem newest? (h : Mirrors m t) (name : String) : t.newest? name = m.newest? name := by
  have h' := congrArg (Option.map Prod.fst) (h.newest name)
  simpa only [Option.map_map, Function.comp_def, DatabaseTables.newest?,
    MemoryFormats.newest?] using h'

/-- The rows of a name are numbered `1 … k`, so the highest is the memory's count. -/
theorem highest (h : Mirrors m t) (name : String) :
    ((t.versionsOf name).map (·.number)).foldl max 0 = (m.versions name).length := by
  apply foldl_max_of_perm_range'
  have hperm := (h.versions name).map (·.number)
  simp only [List.map_map] at hperm
  rw [← MemoryFormats.numbers_history]
  exact hperm

/-- A put keeps the mirror: both sides see a repeat, or neither, and then both add the same
version under the same number. -/
theorem put (h : Mirrors m t) (name : String) (snap : Snapshot) {d : String} (hd : d ≠ "")
    (stamp₁ stamp₂ : String) : Mirrors (m.put name snap d stamp₁) (t.put name snap d stamp₂) := by
  by_cases hnew : (m.versions name).getLast?.map (·.digest) = some d
  · -- a repeat on both sides: the row's digest is the newest version's
    have hrow : ((t.row? name).map (·.digest)).getD "" = d := by rw [h.digest, hnew]; rfl
    rw [MemoryFormats.put_of_newest hnew]
    simp only [DatabaseTables.put, hrow, if_true]
    exact h
  have hrow : ((t.row? name).map (·.digest)).getD "" ≠ d := by
    rw [h.digest]
    cases hlast : (m.versions name).getLast?.map (·.digest) with
    | none => exact Ne.symm hd
    | some e => exact fun he => hnew (by rw [hlast]; exact congrArg some he)
  rw [DatabaseTables.put_of_ne hrow]
  constructor
  · intro n
    rw [row?_upsert, MemoryFormats.versions_put hnew]
    by_cases hn : n = name
    · subst hn
      simp
    · simp [hn, Ne.symm hn, h.newest n]
  · intro n
    rw [versionsOf_append]
    by_cases hn : n = name
    · subst hn
      have hconcat := MemoryFormats.history_of_versions_concat
        ((@MemoryFormats.versions_put m n snap d stamp₁ hnew n).trans (if_pos rfl))
      simp only [if_true, hconcat, List.map_append, List.map_cons, List.map_nil]
      have hver : ({ formats := t.formats, versions := t.versions } : DatabaseTables) = t := rfl
      rw [hver, h.highest n]
      exact (List.perm_append_singleton _ _).trans (List.Perm.cons _ (h.versions n))
    · have hm : (m.put name snap d stamp₁).history n = m.history n :=
        MemoryFormats.history_congr ((MemoryFormats.versions_put hnew n).trans (if_neg hn))
      simp only [Ne.symm hn, if_false, List.append_nil, hm]
      exact h.versions n

theorem delete (h : Mirrors m t) (name : String) : Mirrors (m.delete name) (t.delete name) := by
  constructor
  · intro n
    rw [row?_delete, MemoryFormats.versions_delete]
    split
    · rfl
    · exact h.newest n
  · intro n
    rw [versionsOf_delete]
    split
    · rename_i hn
      rw [MemoryFormats.history_of_versions_nil (by rw [MemoryFormats.versions_delete, if_pos hn])]
    · rename_i hn
      have hkept : (m.delete name).history n = m.history n :=
        MemoryFormats.history_congr (by rw [MemoryFormats.versions_delete, if_neg hn])
      rw [hkept]
      exact h.versions n

/-- Sorting a name's rows by number, highest first, gives the memory's history, stamps
aside: the rows are the history in some order, and both lists are sorted by numbers that
tell the versions apart. -/
theorem history (h : Mirrors m t) (name : String) :
    (t.history name).map FormatVersion.untimed = (m.history name).map FormatVersion.untimed := by
  unfold DatabaseTables.history
  rw [List.map_mergeSort (r := fun a b => decide (b.number ≤ a.number))
    (s := fun a b => decide (b.number ≤ a.number)) (f := FormatVersion.untimed)
    (fun _ _ _ _ => rfl)]
  have hnums : ((m.history name).map FormatVersion.untimed).map (·.number) =
      (List.range' 1 (m.versions name).length).reverse := by
    rw [List.map_map, ← MemoryFormats.numbers_history]
    rfl
  have hsorted : ((m.history name).map FormatVersion.untimed).Pairwise
      (fun a b => decide (b.number ≤ a.number) = true) := by
    have hr : (List.range' 1 (m.versions name).length).reverse.Pairwise (fun a b => b ≤ a) :=
      List.pairwise_reverse.mpr List.pairwise_le_range'
    rw [← hnums, List.pairwise_map] at hr
    exact hr.imp fun hle => decide_eq_true hle
  have hinj := List.inj_on_of_nodup_map
    (hnums ▸ List.nodup_reverse.mpr List.nodup_range' : (((m.history name).map
      FormatVersion.untimed).map (·.number)).Nodup)
  have hperm := (List.mergeSort_perm ((t.versionsOf name).map FormatVersion.untimed)
    fun a b => decide (b.number ≤ a.number)).trans (h.versions name)
  refine List.Perm.eq_of_pairwise (fun a b ha hb hab hba => ?_) ?_ hsorted hperm
  · exact hinj (hperm.mem_iff.mp ha) hb (by simp at hab hba; omega)
  · exact List.pairwise_mergeSort (fun a b c hab hbc => by simp at hab hbc ⊢; omega)
      (fun a b => by simp only [Bool.or_eq_true, decide_eq_true_eq]; omega) _

/-- What the memory's history shows through any view that ignores stamps, the database's
history shows too. -/
theorem map_history (h : Mirrors m t) (name : String) {β : Type} (f : FormatVersion → β)
    (hf : ∀ v, f v.untimed = f v) : (t.history name).map f = (m.history name).map f := by
  have hmap := congrArg (List.map f) (h.history name)
  simpa only [List.map_map, Function.comp_def, hf] using hmap

end Mirrors

end DatabaseTables

/-! ### Calls and their runs -/

/-- A call that changes a store: a put of a snapshot under a name, or a delete of a name. -/
inductive StoreCall where
  | put (name : String) (snap : Snapshot)
  | delete (name : String)

namespace FormatStore

/-- Performs a call at time `stamp`. -/
def perform (s : FormatStore) (stamp : String) : StoreCall → FormatStore
  | .put name snap => s.put name snap stamp
  | .delete name => s.delete name

/-- Performs calls one after another, the `i`-th at time `clock i`. -/
def run (s : FormatStore) (clock : Nat → String) : List StoreCall → FormatStore
  | [] => s
  | c :: cs => (s.perform (clock 0) c).run (fun i => clock (i + 1)) cs

/-- What the versions of every name show: they are numbered `k, k-1, …, 1`, newest first;
neighbouring versions differ in digest; and putting a snapshot whose digest is that of the
newest version changes nothing. -/
def KeepsHistory (s : FormatStore) : Prop :=
  ∀ name, (s.versions name).map (·.number) = (List.range' 1 (s.versions name).length).reverse ∧
    ((s.versions name).map (·.digest)).IsChain (· ≠ ·) ∧
    ∀ snap stamp, (s.versions name).head?.map (·.digest) = some snap.normalized.digest →
      s.put name snap stamp = s

/-- A store in memory whose neighbouring versions differ, and a database mirroring it. -/
def Paired (s₁ s₂ : FormatStore) : Prop :=
  ∃ m t, s₁.tables = .memory m ∧ m.DistinctNeighbours ∧ s₂.tables = .database t ∧
    DatabaseTables.Mirrors m t

theorem paired_fresh : Paired memory database :=
  ⟨{}, {}, rfl, MemoryFormats.distinctNeighbours_empty, rfl, DatabaseTables.Mirrors.empty⟩

namespace Paired

variable {s₁ s₂ : FormatStore}

theorem perform (h : Paired s₁ s₂) (stamp₁ stamp₂ : String) (c : StoreCall) :
    Paired (s₁.perform stamp₁ c) (s₂.perform stamp₂ c) := by
  obtain ⟨m, t, hm, hd, ht, hmir⟩ := h
  cases c with
  | put name snap =>
    refine ⟨_, _, ?_, hd.put snap.normalized snap.normalized.digest stamp₁, ?_,
      hmir.put name snap.normalized (Snapshot.digest_ne_empty _) stamp₁ stamp₂⟩
    · simp [FormatStore.perform, FormatStore.put, hm]
    · simp [FormatStore.perform, FormatStore.put, ht]
  | delete name =>
    refine ⟨_, _, ?_, hd.delete name, ?_, hmir.delete name⟩
    · simp [FormatStore.perform, FormatStore.delete, hm]
    · simp [FormatStore.perform, FormatStore.delete, ht]

theorem run (h : Paired s₁ s₂) (calls : List StoreCall) (clock₁ clock₂ : Nat → String) :
    Paired (s₁.run clock₁ calls) (s₂.run clock₂ calls) := by
  induction calls generalizing s₁ s₂ clock₁ clock₂ with
  | nil => exact h
  | cons c cs ih => exact ih (h.perform (clock₁ 0) (clock₂ 0) c) _ _

theorem get (h : Paired s₁ s₂) (name : String) : s₁.get name = s₂.get name := by
  obtain ⟨m, t, hm, -, ht, hmir⟩ := h
  have hnew : s₁.newest? name = s₂.newest? name := by
    simp only [FormatStore.newest?, hm, ht, hmir.newest? name]
  simp only [FormatStore.get, hnew]

theorem history (h : Paired s₁ s₂) (name : String) (limit : Int) :
    (s₁.history name limit).map FormatVersion.untimed =
      (s₂.history name limit).map FormatVersion.untimed := by
  obtain ⟨m, t, hm, -, ht, hmir⟩ := h
  have hvs : (s₁.versions name).map FormatVersion.untimed =
      (s₂.versions name).map FormatVersion.untimed := by
    simp only [FormatStore.versions, hm, ht, hmir.history name]
  simp only [FormatStore.history]
  split
  · rw [List.map_take, List.map_take, hvs]
  · exact hvs

theorem keepsHistory_memory (h : Paired s₁ s₂) : s₁.KeepsHistory := by
  obtain ⟨m, t, hm, hd, -, -⟩ := h
  intro name
  simp only [FormatStore.versions, hm]
  refine ⟨by rw [MemoryFormats.numbers_history, MemoryFormats.length_history], ?_, ?_⟩
  · rw [MemoryFormats.digests_history]
    exact List.isChain_reverse.mpr ((hd name).imp fun _ _ hne => Ne.symm hne)
  · intro snap stamp hhead
    rw [MemoryFormats.head?_digest_history] at hhead
    cases s₁
    simp only at hm
    simp [FormatStore.put, hm, MemoryFormats.put_of_newest hhead]

theorem keepsHistory_database (h : Paired s₁ s₂) : s₂.KeepsHistory := by
  obtain ⟨m, t, -, hd, ht, hmir⟩ := h
  intro name
  simp only [FormatStore.versions, ht]
  have hlen : (t.history name).length = (m.history name).length := by
    have hmap := congrArg List.length (hmir.history name)
    simpa only [List.length_map] using hmap
  refine ⟨?_, ?_, ?_⟩
  · rw [hmir.map_history name (·.number) fun _ => rfl, hlen, MemoryFormats.numbers_history,
      MemoryFormats.length_history]
  · rw [hmir.map_history name (·.digest) fun _ => rfl, MemoryFormats.digests_history]
    exact List.isChain_reverse.mpr ((hd name).imp fun _ _ hne => Ne.symm hne)
  · -- the newest version's digest is the digest of the name's row
    intro snap stamp hhead
    have hlast : (m.versions name).getLast?.map (·.digest) = some snap.normalized.digest := by
      rw [← MemoryFormats.head?_digest_history, ← List.head?_map,
        ← hmir.map_history name (·.digest) fun _ => rfl, List.head?_map]
      exact hhead
    have hrow : ((t.row? name).map (·.digest)).getD "" = snap.normalized.digest := by
      rw [hmir.digest, hlast]
      rfl
    cases s₂
    simp only at ht
    simp [FormatStore.put, ht, DatabaseTables.put, hrow]

end Paired

end FormatStore

/-- A store in memory and a database, each running the same calls on its own clock, answer
the same newest snapshot and the same history for every name and limit, stamps aside; and in
both, the versions of a name are numbered `k, k-1, …, 1` newest first, neighbouring versions
differ in digest, and a put of the newest version's snapshot changes nothing. -/
theorem memory_and_database_stores_agree (calls : List StoreCall) (clock₁ clock₂ : Nat → String)
    (name : String) (limit : Int) :
    (FormatStore.memory.run clock₁ calls).get name = (FormatStore.database.run clock₂ calls).get name ∧
      ((FormatStore.memory.run clock₁ calls).history name limit).map FormatVersion.untimed =
        ((FormatStore.database.run clock₂ calls).history name limit).map FormatVersion.untimed ∧
      (FormatStore.memory.run clock₁ calls).KeepsHistory ∧
      (FormatStore.database.run clock₂ calls).KeepsHistory := by
  have hpair := FormatStore.paired_fresh.run calls clock₁ clock₂
  exact ⟨hpair.get name, hpair.history name limit, hpair.keepsHistory_memory,
    hpair.keepsHistory_database⟩

end Galley
