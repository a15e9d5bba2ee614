import Mathlib
import Galley.Proofs.Journal

/-!
# Every write of the engine keeps the table's invariants, and is logged

The engine writes into its table of equivalents in a handful of ways: `assign` (which logs
the write), the two writes to a box register that leave no trace in the groups (`poke`,
logged by hand), and closing a group (which logs the restores). Everything else reads the
table, or changes parts of the engine the table knows nothing of.

A `TableInvariant` lists, once, what the engine can write given what it read: the meanings
it builds, the meanings it copies from the table, the values of the key's own kind, and the
empty value arithmetic leaves behind. For any such invariant `I`, `Engine.Sound I V T o` (the
table holds `I`, and the log since `T` replays faithfully on `V`) is kept by every function
of the engine, on both of its exits; the specs below say so, one per function, each from
the specs of the functions it calls. As in `Galley.Proofs.Shape`, the expansion family is
covered at every budget by induction on the budget.

The specs are local to this module: the expansion family already has global specs for
other invariants, and these take precedence here only.
-/

namespace Galley

open Std.Do

set_option mvcgen.warning false

/-- A macro names only the parameters it has: every placeholder of its body is in
`1..arity`. -/
def Macro.Numbered (m : Macro) : Prop := ∀ p, MacroElem.param p ∈ m.body → 1 ≤ p ∧ p ≤ m.arity

theorem Macro.Numbered.long {m : Macro} (h : m.Numbered) (long : Bool) :
    ({ m with long } : Macro).Numbered := h

/-- The values arithmetic acts on. -/
def Equivalent.IsNumber : Equivalent → Prop
  | .int _ | .dimen _ | .glue _ => True
  | _ => False

/-- A key arithmetic acts on: a register or a parameter, or the key of a register meaning
that `P` allows a control sequence. -/
def Key.Arithmetic (P : Key → Equivalent → Prop) (k : Key) : Prop :=
  k.space = .count ∨ k.space = .dimen ∨ k.space = .skip ∨ k.space = .intpar ∨
    k.space = .dimenpar ∨ k.space = .gluepar ∨
    P { space := .meaning } (.meaning (.register k.space k.n))

/-- A property of the values of keys that the engine's writes keep. The engine writes a
meaning it builds (`\relax`, a character, a font, a character code, a register of `\count`,
`\dimen` or `\skip` below 256, a macro whose placeholders it numbered) or one it read from
the table; a category, an sfcode, a font or a box into keys of their own space; a number of
the kind its key held; and no value into a key arithmetic found holding no number. Frame
keys are logged under the name a primitive meaning carries, so that name must be its own.
Whether a meaning may stand at a key does not depend on the key. -/
structure TableInvariant where
  /-- The values a key may hold. -/
  holds : Key → Equivalent → Prop
  meaning : ∀ k m, k.space = .meaning →
    (holds k (.meaning m) ↔ holds { space := .meaning } (.meaning m))
  undefined : holds { space := .meaning } (.meaning .undefined)
  relax : holds { space := .meaning } (.meaning .relax)
  charLet : ∀ t, holds { space := .meaning } (.meaning (.charLet t))
  fontDef : ∀ f, holds { space := .meaning } (.meaning (.fontDef f))
  charDef : ∀ c, holds { space := .meaning } (.meaning (.charDef c))
  register : ∀ sp (r : Nat), (sp = .count ∨ sp = .dimen ∨ sp = .skip) → r ≤ 255 →
    holds { space := .meaning } (.meaning (.register sp r))
  defined : ∀ m : Macro, m.Numbered → holds { space := .meaning } (.meaning (.defined m))
  named : ∀ n p, holds { space := .meaning } (.meaning (.primitive n p)) →
    primitiveNamed? n = some p
  font : ∀ f, holds { space := .font } (.font f)
  category : ∀ n c, holds { space := .catcode, n } (.category c)
  sfcode : ∀ n v, holds { space := .sfcode, n } (.int v)
  box : ∀ n b, holds { space := .box, n } (.box b)
  int : ∀ k a b, holds k (.int a) → holds k (.int b)
  dimen : ∀ k a b, holds k (.dimen a) → holds k (.dimen b)
  glue : ∀ k a b, holds k (.glue a) → holds k (.glue b)
  absent : ∀ k v, holds k v → ¬ v.IsNumber → k.Arithmetic holds → holds k .absent

namespace TableInvariant

/-- The meanings the invariant allows a control sequence. -/
def Allows (I : TableInvariant) (m : Meaning) : Prop := I.holds { space := .meaning } (.meaning m)

theorem meaningKey (I : TableInvariant) (t : Token) {m : Meaning} (hm : I.Allows m) :
    I.holds (EngineM.meaningKey t) (.meaning m) :=
  (I.meaning _ m (by cases t <;> rfl)).2 hm

end TableInvariant

/-- The engine runs with the options `o`; its table holds the invariant; and, when the
engine logs, the events it logged after `T`, replayed on the view `V`, give its table
faithfully. -/
def Engine.Sound (I : TableInvariant) (V : Key → Equivalent) (T : List Traced)
    (o : EngineOptions) (e : Engine) : Prop :=
  e.options = o ∧ e.table.Holds I.holds ∧ (o.tracing = true → Logs V T [] e.table e.trace.toList)

theorem primitiveNamed_mem {n : String} {p : Prim} (h : primitiveNamed? n = some p) :
    (n, p) ∈ primitives := by
  unfold primitiveNamed? at h
  obtain ⟨x, hx, rfl⟩ := Option.map_eq_some_iff.mp h
  have hn : x.1 = n := by simpa using List.find?_some hx
  exact hn ▸ List.mem_of_find?_eq_some hx

theorem primitiveNamed_prevDepth {n : String} (h : primitiveNamed? n = some .prevDepth) :
    n = "prevdepth" := by
  have hall : ∀ x ∈ primitives, x.2 = .prevDepth → x.1 = "prevdepth" := by decide +kernel
  exact hall _ (primitiveNamed_mem h) rfl

theorem primitiveNamed_spaceFactor {n : String} (h : primitiveNamed? n = some .spaceFactor) :
    n = "spacefactor" := by
  have hall : ∀ x ∈ primitives, x.2 = .spaceFactor → x.1 = "spacefactor" := by decide +kernel
  exact hall _ (primitiveNamed_mem h) rfl

theorem TableInvariant.frame_prevDepth {I : TableInvariant} {name : String}
    (hc : I.Allows (.primitive name .prevDepth)) : Key.IsFrame { space := .dimenpar, name } :=
  .inl (by rw [primitiveNamed_prevDepth (I.named _ _ hc)])

theorem TableInvariant.frame_spaceFactor {I : TableInvariant} {name : String}
    (hc : I.Allows (.primitive name .spaceFactor)) : Key.IsFrame { space := .intpar, name } :=
  .inr (by rw [primitiveNamed_spaceFactor (I.named _ _ hc)])

theorem Int32.toNat_toInt_le {r : Int32} (h : ¬ r > 255) : r.toInt.toNat ≤ 255 := by
  have h' : r.toInt ≤ 255 := by
    rw [gt_iff_lt, Int32.lt_iff_toInt_lt] at h
    simpa using h
  omega

theorem Engine.logged_trace (e : Engine) (ev : Event) (htr : e.options.tracing = true) :
    (e.logged ev).trace.toList = e.trace.toList ++ [⟨e.table.depth, ev⟩] := by
  simp [Engine.logged, htr]

/-- A box register that holds a box holds it as its value. -/
theorem Engine.get_of_boxReg {e : Engine} {r : Nat} {b : Box} (h : e.boxReg r = some b) :
    e.get { space := .box, n := r } = .box (some b) := by
  unfold Engine.boxReg at h
  split at h <;> simp_all

namespace Engine.Sound

variable {I : TableInvariant} {V : Key → Equivalent} {T : List Traced} {o : EngineOptions} {e : Engine}

theorem get (h : e.Sound I V T o) (k : Key) : I.holds k (e.get k) := h.2.1.get k

/-- A key arithmetic acts on holds a number, or may be left with no value. -/
theorem isNumber_or_absent (h : e.Sound I V T o) {k : Key} (hk : k.Arithmetic I.holds) :
    (e.get k).IsNumber ∨ I.holds k .absent := by
  by_cases hn : (e.get k).IsNumber
  · exact .inl hn
  · exact .inr (I.absent k _ (h.get k) hn hk)

theorem logged (h : e.Sound I V T o) {ev : Event} (hev : ev.sets = none) :
    (e.logged ev).Sound I V T o := by
  refine ⟨by simpa using h.1, by simpa using h.2.1, fun htr => ?_⟩
  rw [Engine.logged_trace e ev (h.1 ▸ htr), Engine.logged_table]
  exact (h.2.2 htr).push_quiet (by simp [hev]) _

theorem logged_frame (h : e.Sound I V T o) {k : Key} (hk : k.IsFrame) (old new : Equivalent)
    (global : Bool) : (e.logged (.assign k old new global)).Sound I V T o := by
  refine ⟨by simpa using h.1, by simpa using h.2.1, fun htr => ?_⟩
  rw [Engine.logged_trace e _ (h.1 ▸ htr), Engine.logged_table]
  refine (h.2.2 htr).push_quiet (fun k' v' hs => ?_) _
  simp only [Event.sets, Option.some.injEq, Prod.mk.injEq] at hs
  exact hs.1 ▸ hk

/-- An assignment of a value that holds, logged with the key's value before. -/
theorem assign (h : e.Sound I V T o) {k : Key} {v : Equivalent} (hv : I.holds k v)
    (global : Bool) :
    ({ e with table := (e.table.assign k v global).2 }.logged
      (.assign k (e.table.assign k v global).1 v global)).Sound I V T o := by
  refine ⟨by simpa using h.1, by simpa using h.2.1.assign hv global, fun htr => ?_⟩
  rw [Engine.logged_trace _ _ (h.1 ▸ htr), Engine.logged_table]
  simpa using (h.2.2 htr).push_write (Scope.Table.get_assign _ k v global) _ global

/-- A write that no group records, logged by hand with the key's value before. -/
theorem poke (h : e.Sound I V T o) {k : Key} {v old : Equivalent} (hv : I.holds k v)
    (hold : e.get k = old) :
    ({ e with table := e.table.poke k v }.logged (.assign k old v false)).Sound I V T o := by
  refine ⟨by simpa using h.1, by simpa using h.2.1.poke hv, fun htr => ?_⟩
  rw [Engine.logged_trace _ _ (h.1 ▸ htr), Engine.logged_table, ← hold]
  exact (h.2.2 htr).push_write (Scope.Table.get_poke _ k v) _ false

theorem openGroup (h : e.Sound I V T o) (g : Group) :
    ({ e with table := e.table.openGroup g } : Engine).Sound I V T o :=
  ⟨h.1, h.2.1.openGroup g, fun htr => (h.2.2 htr).congr (Scope.Table.get_openGroup _ g)⟩

end Engine.Sound

namespace EngineM

/-- `x` keeps the engine sound, whether it returns or fails, and what it returns satisfies
`R`. -/
abbrev SafeWith (I : TableInvariant) (V : Key → Equivalent) (T : List Traced) (o : EngineOptions)
    {α : Type} (R : α → Prop) (x : EngineM α) : Prop :=
  ⦃fun e => ⌜e.Sound I V T o⌝⦄ x
    ⦃post⟨fun a e => ⌜e.Sound I V T o ∧ R a⌝, fun _ e => ⌜e.Sound I V T o⌝⟩⦄

/-- The postcondition that the engine is sound, on return and on failure. -/
abbrev safePost (I : TableInvariant) (V : Key → Equivalent) (T : List Traced) (o : EngineOptions)
    {α : Type} : PostCond α (.except EngineError (.arg Engine .pure)) :=
  post⟨fun _ e => ⌜e.Sound I V T o⌝, fun _ e => ⌜e.Sound I V T o⌝⟩

/-- `x` never returns, and keeps the engine sound when it fails. -/
abbrev Fails (I : TableInvariant) (V : Key → Equivalent) (T : List Traced) (o : EngineOptions)
    {α : Type} (x : EngineM α) : Prop :=
  ⦃fun e => ⌜e.Sound I V T o⌝⦄ x ⦃post⟨fun _ _ => ⌜False⌝, fun _ e => ⌜e.Sound I V T o⌝⟩⦄

/-- `x` keeps the engine sound, whether it returns or fails. -/
abbrev Safe (I : TableInvariant) (V : Key → Equivalent) (T : List Traced) (o : EngineOptions)
    {α : Type} (x : EngineM α) : Prop :=
  ⦃fun e => ⌜e.Sound I V T o⌝⦄ x ⦃safePost I V T o⦄

-- The specs are local, so they must stay in scope to the end of the namespace: the
-- shared variables are declared at its level, and no section closes over a spec.
variable {I : TableInvariant} {V : Key → Equivalent} {T : List Traced} {o : EngineOptions}

/-- A loop over a list whose body keeps the engine sound keeps it. -/
@[local spec 20000] theorem forIn_list_safe {α β : Type} (xs : List α) (init : β)
    (f : α → β → EngineM (ForInStep β)) (h : ∀ a b, Safe I V T o (f a b)) :
    Safe I V T o (forIn xs init f) := by
  refine @Spec.forIn_list_const_inv _ _ _ _ _ _ xs init f (safePost I V T o) fun a b => ?_
  refine Triple.entails_wp_of_post (h a b)
    (PostCond.entails.mk (fun r => ?_) ExceptConds.entails.rfl)
  cases r <;> exact SPred.entails.rfl

/-- A loop over a range whose body keeps the engine sound keeps it. -/
@[local spec 20000] theorem forIn_range_safe {β : Type} (r : Std.Legacy.Range) (init : β)
    (f : Nat → β → EngineM (ForInStep β)) (h : ∀ i b, Safe I V T o (f i b)) :
    Safe I V T o (forIn r init f) := by
  rw [Std.Legacy.Range.forIn_eq_forIn_range']
  exact forIn_list_safe _ init f h

theorem Fails.safeWith {α : Type} {x : EngineM α} (h : Fails I V T o x) (R : α → Prop) :
    SafeWith I V T o R x :=
  Triple.entails_wp_of_post h
    (PostCond.entails.mk (fun _ _ => False.elim) ExceptConds.entails.rfl)

theorem Fails.safe {α : Type} {x : EngineM α} (h : Fails I V T o x) : Safe I V T o x :=
  Triple.entails_wp_of_post h
    (PostCond.entails.mk (fun _ _ => False.elim) ExceptConds.entails.rfl)

attribute [local spec 20000] emit_wp

/-! ### Reading and putting back tokens -/

@[local spec 20000] theorem fail_fails {α : Type} (k : ErrorKind) (t : Option Token) (m : String) :
    Fails I V T o (fail k t m : EngineM α) := by
  unfold fail; mvcgen

@[local spec 20000] theorem next_safe : Safe I V T o next := by
  unfold next; mvcgen
  all_goals grind

@[local spec 20000] theorem back_safe (t : Token) (frozen : Bool) : Safe I V T o (back t frozen) := by
  unfold back; mvcgen

@[local spec 20000] theorem backCmd_safe (c : Cmd) : Safe I V T o (backCmd c) := by
  unfold backCmd; mvcgen

@[local spec 20000] theorem backList_safe (l : List Token) : Safe I V T o (backList l) := by
  unfold backList; mvcgen

@[local spec 20000] theorem push_safe (l : List Token) (t : Token) : Safe I V T o (push l t) := by
  unfold push; mvcgen

@[local spec 20000] theorem nextNonBlank_safe : Safe I V T o nextNonBlank := by
  unfold nextNonBlank; mvcgen

@[local spec 20000] theorem assign_safe (k : Key) (v : Equivalent) (global : Bool) (hv : I.holds k v) :
    Safe I V T o (assign k v global) := by
  unfold assign
  mvcgen
  exact Engine.Sound.assign ‹_› hv global

@[local spec 20000] theorem meaningOf_safe (t : Token) :
    SafeWith I V T o I.Allows (meaningOf t) := by
  unfold meaningOf
  mvcgen
  · next e h m hm =>
    have hk := h.get (meaningKey t)
    rw [hm] at hk
    exact ⟨h, (I.meaning _ m (by cases t <;> rfl)).1 hk⟩
  · exact ⟨‹_›, I.undefined⟩
  · exact ⟨‹_›, I.charLet t⟩


/-! ### Macros and the skipping of conditionals -/

@[local spec 20000] theorem runaway_fails {α : Type} (t : Token) :
    Fails I V T o (runaway t : EngineM α) := by
  unfold runaway; mvcgen

@[local spec 20000] theorem parInArgument_fails {α : Type} (t : Token) :
    Fails I V T o (parInArgument t : EngineM α) := by
  unfold parInArgument; mvcgen

@[local spec 20000] theorem undelimited_safe (t : Token) (long : Bool) :
    Safe I V T o (undelimited t long) := by
  unfold undelimited; mvcgen
  all_goals grind

@[local spec 20000] theorem delimited_safe (t : Token) (delim : List Token) (long : Bool) :
    Safe I V T o (delimited t delim long) := by
  unfold delimited; mvcgen

@[local spec 20000] theorem macroCall_safe (t : Token) (m : Macro) : Safe I V T o (macroCall t m) := by
  unfold macroCall; mvcgen
  all_goals grind [Engine.Sound, Engine.Sound.logged, Event.sets]

@[local spec 20000] theorem passText_safe (t : Token) : Safe I V T o (passText t) := by
  unfold passText; mvcgen
  all_goals grind

@[local spec 20000] theorem condEnd_safe (t : Token) (op : Prim) : Safe I V T o (condEnd t op) := by
  unfold condEnd; mvcgen
  all_goals grind [Engine.Sound, Engine.Sound.logged, Event.sets]

@[local spec 20000] theorem tooDeep_fails {α : Type} : Fails I V T o (tooDeep : EngineM α) := by
  unfold tooDeep; mvcgen

@[local spec 20000] theorem missingNumber_fails {α : Type} :
    Fails I V T o (missingNumber : EngineM α) := by
  unfold missingNumber; mvcgen

@[local spec 20000] theorem notNumber_fails {α : Type} (c : Cmd) :
    Fails I V T o (notNumber c : EngineM α) := by
  unfold notNumber; mvcgen

@[local spec 20000] theorem printToken_safe (t : Token) : Safe I V T o (printToken t) := by
  unfold printToken; mvcgen

@[local spec 20000] theorem setCondLimit_safe (idx : Nat) (l : CondLimit) :
    Safe I V T o (setCondLimit idx l) := by
  unfold setCondLimit; mvcgen

@[local spec 20000] theorem truncateConds_safe (idx : Nat) : Safe I V T o (truncateConds idx) := by
  unfold truncateConds; mvcgen

@[local spec 20000] theorem attach_safe (whole frac : Int32) : Safe I V T o (attach whole frac) := by
  unfold attach; mvcgen

/-! ### The expansion family -/

/-- The commands of the answer have meanings the invariant allows. -/
abbrev AllowedCmd (I : TableInvariant) (r : Option Cmd) : Prop := ∀ c ∈ r, I.Allows c.meaning

/-- Every function of the expansion family, at budget `n`, keeps the engine sound; `getX`
and `getXNonBlank` answer commands whose meanings the invariant allows, and
`scanRegisterNum` a register number below 256. -/
structure SafeAtBudget (I : TableInvariant) (V : Key → Equivalent) (T : List Traced) (o : EngineOptions) (n : Nat) :
    Prop where
  getX : SafeWith I V T o (AllowedCmd I) (getX n)
  expand : ∀ t d, Safe I V T o (expand n t d)
  expandPrimitive : ∀ t op, Safe I V T o (expandPrimitive n t op)
  conditional : ∀ t op, Safe I V T o (conditional n t op)
  test : ∀ t op, Safe I V T o (test n t op)
  getXNonBlank : SafeWith I V T o (AllowedCmd I) (getXNonBlank n)
  scanRelation : ∀ t, Safe I V T o (scanRelation n t)
  scanSigns : Safe I V T o (scanSigns n)
  scanInt : Safe I V T o (scanInt n)
  scanIntAfter : ∀ c, Safe I V T o (scanIntAfter n c)
  scanInternal : ∀ c, Safe I V T o (scanInternal n c)
  scanRegisterNum : ∀ t, SafeWith I V T o (· ≤ 255) (scanRegisterNum n t)
  scanCharNum : ∀ t, Safe I V T o (scanCharNum n t)
  skipOptionalSpace : Safe I V T o (skipOptionalSpace n)
  scanDimenOrder : ∀ fil, Safe I V T o (scanDimenOrder n fil)
  scanDimenAfter : ∀ c neg fil, Safe I V T o (scanDimenAfter n c neg fil)
  scanDecimal : ∀ c, Safe I V T o (scanDecimal n c)
  scanUnits : ∀ whole frac fil, Safe I V T o (scanUnits n whole frac fil)
  scanKeyword : ∀ kw, Safe I V T o (scanKeyword n kw)
  theToks : Safe I V T o (theToks n)

theorem safeAtBudget_zero : SafeAtBudget I V T o 0 where
  getX := by rw [EngineM.getX]; exact Fails.safeWith tooDeep_fails _
  expand _ _ := by rw [EngineM.expand]; exact Fails.safe tooDeep_fails
  expandPrimitive _ _ := by rw [EngineM.expandPrimitive]; exact Fails.safe tooDeep_fails
  conditional _ _ := by rw [EngineM.conditional]; exact Fails.safe tooDeep_fails
  test _ _ := by rw [EngineM.test]; exact Fails.safe tooDeep_fails
  getXNonBlank := by rw [EngineM.getXNonBlank]; exact Fails.safeWith tooDeep_fails _
  scanRelation _ := by rw [EngineM.scanRelation]; exact Fails.safe tooDeep_fails
  scanSigns := by rw [EngineM.scanSigns]; exact Fails.safe tooDeep_fails
  scanInt := by rw [EngineM.scanInt]; exact Fails.safe tooDeep_fails
  scanIntAfter _ := by rw [EngineM.scanIntAfter]; exact Fails.safe tooDeep_fails
  scanInternal _ := by rw [EngineM.scanInternal]; exact Fails.safe tooDeep_fails
  scanRegisterNum _ := by rw [EngineM.scanRegisterNum]; exact Fails.safeWith tooDeep_fails _
  scanCharNum _ := by rw [EngineM.scanCharNum]; exact Fails.safe tooDeep_fails
  skipOptionalSpace := by rw [EngineM.skipOptionalSpace]; exact Fails.safe tooDeep_fails
  scanDimenOrder _ := by rw [EngineM.scanDimenOrder]; exact Fails.safe tooDeep_fails
  scanDimenAfter _ _ _ := by rw [EngineM.scanDimenAfter]; exact Fails.safe tooDeep_fails
  scanDecimal _ := by rw [EngineM.scanDecimal]; exact Fails.safe tooDeep_fails
  scanUnits _ _ _ := by rw [EngineM.scanUnits]; exact Fails.safe tooDeep_fails
  scanKeyword _ := by rw [EngineM.scanKeyword]; exact Fails.safe tooDeep_fails
  theToks := by rw [EngineM.theToks]; exact Fails.safe tooDeep_fails

namespace SafeAtBudget

variable {n : Nat} (h : SafeAtBudget I V T o n)
include h

theorem getX_succ : SafeWith I V T o (AllowedCmd I) (EngineM.getX (n + 1)) := by
  have hexpand := h.expand
  rw [EngineM.getX.eq_def]
  -- the loop carries the command it returns early, whose meaning was read from the table
  mvcgen [hexpand, -forIn_range_safe, -forIn_range_keeps, -expand_keeps] invariants
  | inv1 => post⟨fun p e => ⌜e.Sound I V T o ∧ ∀ c, p.snd.fst = some (some c) → I.Allows c.meaning⌝,
      fun _ e => ⌜e.Sound I V T o⌝⟩
  all_goals grind [TableInvariant.Allows, TableInvariant.relax, Option.mem_def]

theorem expand_succ (t : Token) (d : Meaning) : Safe I V T o (EngineM.expand (n + 1) t d) := by
  have hconditional := h.conditional
  have hexpandPrimitive := h.expandPrimitive
  rw [EngineM.expand.eq_def]
  mvcgen [hconditional, hexpandPrimitive]

theorem expandPrimitive_succ (t : Token) (op : Prim) :
    Safe I V T o (EngineM.expandPrimitive (n + 1) t op) := by
  have hgetX := h.getX
  have hexpand := h.expand
  have hscanInt := h.scanInt
  have htheToks := h.theToks
  rw [EngineM.expandPrimitive.eq_def]
  mvcgen [hgetX, hexpand, hscanInt, htheToks, -getX_keeps, -expand_keeps, -scanInt_keeps,
    -theToks_keeps]
  all_goals grind [Engine.Sound, Engine.Sound.logged, Event.sets, TableInvariant.meaningKey,
    TableInvariant.relax, TableInvariant.Allows]

theorem conditional_succ (t : Token) (op : Prim) :
    Safe I V T o (EngineM.conditional (n + 1) t op) := by
  have hscanInt := h.scanInt
  have htest := h.test
  rw [EngineM.conditional.eq_def]
  mvcgen [hscanInt, htest, -scanInt_keeps]
  all_goals grind [Engine.Sound, Engine.Sound.logged, Event.sets]

theorem test_succ (t : Token) (op : Prim) : Safe I V T o (EngineM.test (n + 1) t op) := by
  have hgetX := h.getX
  have hscanInt := h.scanInt
  have hscanRelation := h.scanRelation
  have hscanDimenOrder := h.scanDimenOrder
  have hscanRegisterNum := h.scanRegisterNum
  rw [EngineM.test.eq_def]
  mvcgen [hgetX, hscanInt, hscanRelation, hscanDimenOrder, hscanRegisterNum, -getX_keeps,
    -scanInt_keeps, -scanDimenOrder_keeps, -scanRegisterNum_keeps]
  all_goals grind

theorem getXNonBlank_succ : SafeWith I V T o (AllowedCmd I) (EngineM.getXNonBlank (n + 1)) := by
  have hgetX := h.getX
  rw [EngineM.getXNonBlank.eq_def]
  mvcgen [hgetX, -forIn_range_safe, -forIn_range_keeps, -getX_keeps] invariants
  | inv1 => post⟨fun p e => ⌜e.Sound I V T o ∧ ∀ c, p.snd.fst = some (some c) → I.Allows c.meaning⌝,
      fun _ e => ⌜e.Sound I V T o⌝⟩
  all_goals grind [Option.mem_def]

theorem scanRelation_succ (t : Token) : Safe I V T o (EngineM.scanRelation (n + 1) t) := by
  have hgetXNonBlank := h.getXNonBlank
  rw [EngineM.scanRelation.eq_def]
  mvcgen [hgetXNonBlank, -getXNonBlank_keeps]
  all_goals grind

theorem scanSigns_succ : Safe I V T o (EngineM.scanSigns (n + 1)) := by
  have hgetX := h.getX
  rw [EngineM.scanSigns.eq_def]
  mvcgen [hgetX, -getX_keeps]
  all_goals grind

theorem scanInt_succ : Safe I V T o (EngineM.scanInt (n + 1)) := by
  have hscanSigns := h.scanSigns
  have hscanIntAfter := h.scanIntAfter
  rw [EngineM.scanInt.eq_def]
  mvcgen [hscanSigns, hscanIntAfter, -scanSigns_keeps]

theorem scanIntAfter_succ (c : Cmd) : Safe I V T o (EngineM.scanIntAfter (n + 1) c) := by
  have hgetX := h.getX
  have hskipOptionalSpace := h.skipOptionalSpace
  have hscanInternal := h.scanInternal
  rw [EngineM.scanIntAfter.eq_def]
  mvcgen [hgetX, hskipOptionalSpace, hscanInternal, -getX_keeps, -scanInternal_keeps]
  all_goals grind

theorem scanInternal_succ (c : Cmd) : Safe I V T o (EngineM.scanInternal (n + 1) c) := by
  have hscanRegisterNum := h.scanRegisterNum
  have hscanCharNum := h.scanCharNum
  rw [EngineM.scanInternal.eq_def]
  mvcgen [hscanRegisterNum, hscanCharNum, -scanRegisterNum_keeps, -scanCharNum_keeps]
  all_goals grind

theorem scanRegisterNum_succ (t : Token) :
    SafeWith I V T o (· ≤ 255) (EngineM.scanRegisterNum (n + 1) t) := by
  have hscanInt := h.scanInt
  rw [EngineM.scanRegisterNum.eq_def]
  mvcgen [hscanInt, -scanInt_keeps]
  all_goals grind [Int32.toNat_toInt_le]

theorem scanCharNum_succ (t : Token) : Safe I V T o (EngineM.scanCharNum (n + 1) t) := by
  have hscanInt := h.scanInt
  rw [EngineM.scanCharNum.eq_def]
  mvcgen [hscanInt, -scanInt_keeps]

theorem skipOptionalSpace_succ : Safe I V T o (EngineM.skipOptionalSpace (n + 1)) := by
  have hgetX := h.getX
  rw [EngineM.skipOptionalSpace.eq_def]
  mvcgen [hgetX, -getX_keeps]
  all_goals grind

theorem scanDimenOrder_succ (fil : Bool) : Safe I V T o (EngineM.scanDimenOrder (n + 1) fil) := by
  have hscanSigns := h.scanSigns
  have hscanDimenAfter := h.scanDimenAfter
  rw [EngineM.scanDimenOrder.eq_def]
  mvcgen [hscanSigns, hscanDimenAfter, -scanSigns_keeps, -scanDimenAfter_keeps]

theorem scanDimenAfter_succ (c : Cmd) (neg fil : Bool) :
    Safe I V T o (EngineM.scanDimenAfter (n + 1) c neg fil) := by
  have hscanInternal := h.scanInternal
  have hscanIntAfter := h.scanIntAfter
  have hscanDecimal := h.scanDecimal
  have hscanUnits := h.scanUnits
  rw [EngineM.scanDimenAfter.eq_def]
  mvcgen [hscanInternal, hscanIntAfter, hscanDecimal, hscanUnits, -scanInternal_keeps]

theorem scanDecimal_succ (c : Cmd) : Safe I V T o (EngineM.scanDecimal (n + 1) c) := by
  have hgetX := h.getX
  rw [EngineM.scanDecimal.eq_def]
  mvcgen [hgetX, -getX_keeps]
  all_goals grind

theorem scanUnits_succ (whole frac : Int32) (fil : Bool) :
    Safe I V T o (EngineM.scanUnits (n + 1) whole frac fil) := by
  have hscanKeyword := h.scanKeyword
  have hskipOptionalSpace := h.skipOptionalSpace
  have hgetXNonBlank := h.getXNonBlank
  have hscanInternal := h.scanInternal
  rw [EngineM.scanUnits.eq_def]
  mvcgen -trivial [hscanKeyword, hskipOptionalSpace, hgetXNonBlank, hscanInternal,
    -scanKeyword_keeps, -getXNonBlank_keeps, -scanInternal_keeps]
  all_goals grind

theorem scanKeyword_succ (kw : String) : Safe I V T o (EngineM.scanKeyword (n + 1) kw) := by
  have hgetX := h.getX
  rw [EngineM.scanKeyword.eq_def]
  mvcgen [hgetX, -getX_keeps]
  all_goals grind

theorem theToks_succ : Safe I V T o (EngineM.theToks (n + 1)) := by
  have hgetX := h.getX
  have hscanInternal := h.scanInternal
  rw [EngineM.theToks.eq_def]
  mvcgen [hgetX, hscanInternal, -getX_keeps, -scanInternal_keeps]
  all_goals grind

theorem succ : SafeAtBudget I V T o (n + 1) where
  getX := h.getX_succ
  expand := h.expand_succ
  expandPrimitive := h.expandPrimitive_succ
  conditional := h.conditional_succ
  test := h.test_succ
  getXNonBlank := h.getXNonBlank_succ
  scanRelation := h.scanRelation_succ
  scanSigns := h.scanSigns_succ
  scanInt := h.scanInt_succ
  scanIntAfter := h.scanIntAfter_succ
  scanInternal := h.scanInternal_succ
  scanRegisterNum := h.scanRegisterNum_succ
  scanCharNum := h.scanCharNum_succ
  skipOptionalSpace := h.skipOptionalSpace_succ
  scanDimenOrder := h.scanDimenOrder_succ
  scanDimenAfter := h.scanDimenAfter_succ
  scanDecimal := h.scanDecimal_succ
  scanUnits := h.scanUnits_succ
  scanKeyword := h.scanKeyword_succ
  theToks := h.theToks_succ

end SafeAtBudget

/-- The expansion family keeps the engine sound at every budget. -/
theorem safeAtBudget (n : Nat) : SafeAtBudget I V T o n := by
  induction n with
  | zero => exact safeAtBudget_zero
  | succ n ih => exact ih.succ

/-! ### Scanning -/

@[local spec 20000] theorem getX_safe (n : Nat) : SafeWith I V T o (AllowedCmd I) (getX n) :=
  (safeAtBudget n).getX

@[local spec 20000] theorem getXNonBlank_safe (n : Nat) :
    SafeWith I V T o (AllowedCmd I) (getXNonBlank n) :=
  (safeAtBudget n).getXNonBlank

@[local spec 20000] theorem scanSigns_safe (n : Nat) : Safe I V T o (scanSigns n) :=
  (safeAtBudget n).scanSigns

@[local spec 20000] theorem scanInt_safe (n : Nat) : Safe I V T o (scanInt n) :=
  (safeAtBudget n).scanInt

@[local spec 20000] theorem scanInternal_safe (n : Nat) (c : Cmd) : Safe I V T o (scanInternal n c) :=
  (safeAtBudget n).scanInternal c

@[local spec 20000] theorem scanRegisterNum_safe (n : Nat) (t : Token) :
    SafeWith I V T o (· ≤ 255) (scanRegisterNum n t) :=
  (safeAtBudget n).scanRegisterNum t

@[local spec 20000] theorem scanCharNum_safe (n : Nat) (t : Token) :
    Safe I V T o (scanCharNum n t) :=
  (safeAtBudget n).scanCharNum t

@[local spec 20000] theorem scanDimenOrder_safe (n : Nat) (fil : Bool) :
    Safe I V T o (scanDimenOrder n fil) :=
  (safeAtBudget n).scanDimenOrder fil

@[local spec 20000] theorem scanDimenAfter_safe (n : Nat) (c : Cmd) (neg fil : Bool) :
    Safe I V T o (scanDimenAfter n c neg fil) :=
  (safeAtBudget n).scanDimenAfter c neg fil

@[local spec 20000] theorem scanKeyword_safe (n : Nat) (kw : String) :
    Safe I V T o (scanKeyword n kw) :=
  (safeAtBudget n).scanKeyword kw

@[local spec 20000] theorem theToks_safe (n : Nat) : Safe I V T o (theToks n) :=
  (safeAtBudget n).theToks

@[local spec 20000] theorem expand_safe (n : Nat) (t : Token) (d : Meaning) :
    Safe I V T o (expand n t d) :=
  (safeAtBudget n).expand t d

@[local spec 20000] theorem scanDimen_safe (n : Nat) : Safe I V T o (scanDimen n) := by
  unfold scanDimen; mvcgen

@[local spec 20000] theorem scanGlue_safe (n : Nat) : Safe I V T o (scanGlue n) := by
  unfold scanGlue; mvcgen

@[local spec 20000] theorem getXNonBlankNonRelax_safe (n : Nat) :
    SafeWith I V T o (AllowedCmd I) (getXNonBlankNonRelax n) := by
  unfold getXNonBlankNonRelax
  mvcgen [-forIn_range_safe, -forIn_range_keeps] invariants
  | inv1 => post⟨fun p e => ⌜e.Sound I V T o ∧ ∀ c, p.snd.fst = some (some c) → I.Allows c.meaning⌝,
      fun _ e => ⌜e.Sound I V T o⌝⟩
  all_goals grind [Option.mem_def]

@[local spec 20000] theorem scanOptionalEquals_safe (n : Nat) : Safe I V T o (scanOptionalEquals n) := by
  unfold scanOptionalEquals; mvcgen
  all_goals grind

@[local spec 20000] theorem scanLeftBrace_safe (n : Nat) (t : Token) :
    Safe I V T o (scanLeftBrace n t) := by
  unfold scanLeftBrace; mvcgen
  all_goals grind

@[local spec 20000] theorem runawayDefinition_fails {α : Type} (t : Token) :
    Fails I V T o (runawayDefinition t : EngineM α) := by
  unfold runawayDefinition; mvcgen

@[local spec 20000] theorem scanToks_safe (n : Nat) (t : Token) (expand : Bool) :
    Safe I V T o (scanToks n t expand) := by
  unfold scanToks; mvcgen
  all_goals grind

@[local spec 20000] theorem getRToken_safe (t : Token) : Safe I V T o (getRToken t) := by
  unfold getRToken; mvcgen
  all_goals grind

@[local spec 20000] theorem assignValue_safe (n : Nat) (c : Cmd) (k : Key) (global : Bool) :
    Safe I V T o (assignValue n c k global) := by
  unfold assignValue
  mvcgen
  all_goals grind [Engine.Sound.get, TableInvariant.int, TableInvariant.dimen, TableInvariant.glue]

@[local spec 20000] theorem registerOf_safe (n : Nat) (c : Cmd) (hc : I.Allows c.meaning) :
    SafeWith I V T o (Key.Arithmetic I.holds) (registerOf n c) := by
  unfold registerOf
  mvcgen
  all_goals grind [Key.Arithmetic, TableInvariant.Allows, paramKey]

@[local spec 20000] theorem overflowAt_fails {α : Type} (t : Token) :
    Fails I V T o (overflowAt t : EngineM α) := by
  unfold overflowAt; mvcgen

@[local spec 20000] theorem arithmetic_safe (n : Nat) (c : Cmd) (op : Prim) (global : Bool) :
    Safe I V T o (arithmetic n c op global) := by
  unfold arithmetic
  mvcgen
  all_goals grind [Engine.Sound.get, → Engine.Sound.isNumber_or_absent, Equivalent.IsNumber,
    TableInvariant.int, TableInvariant.dimen, TableInvariant.glue]

@[local spec 20000] theorem scanFileName_safe (n : Nat) (t : Token) :
    Safe I V T o (scanFileName n t) := by
  unfold scanFileName; mvcgen
  all_goals grind

@[local spec 20000] theorem newFont_safe (n : Nat) (c : Cmd) (global : Bool) :
    Safe I V T o (newFont n c global) := by
  unfold newFont; mvcgen
  all_goals grind [TableInvariant.meaningKey, TableInvariant.Allows, TableInvariant.relax,
    TableInvariant.fontDef]

@[local spec 20000] theorem scanRuleSpec_safe (n : Nat) (vertical : Bool) :
    Safe I V T o (scanRuleSpec n vertical) := by
  unfold scanRuleSpec; mvcgen

end EngineM

end Galley
