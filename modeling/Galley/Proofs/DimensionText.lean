import Mathlib
import Galley.Proofs.Decimals

/-!
# Reading the text of a dimension: tokens put back, keywords and units

`\the` gives a dimension as text, `12.5pt`, and glue as `12.5pt plus 1.0fil minus 2.0pt`:
characters of category other, and spaces. This module holds what the scanners need to read
such text: the reading state with a token put back, the keyword scans on it, and the unit scan.

The scanners put tokens back as they go: a unit keyword that does not match leaves the token
it stopped at in front of the input. `Engine.Ahead` is the reading state that allows that one
token put back, where `Engine.Reads` allows none. The keyword scans enter through
`scanKeyword_spec`, in two corollaries: a keyword that is there is read, and one refused at
its first letter leaves the input as it was, blanks before it aside. `UnitText` says what the
unit scan does on the text of a unit, `pt` or `fil` with up to two more `l`s; the unit scan is
followed along its one path by its runs rather than by `mvcgen`.
-/

namespace Galley

open Std.Do

set_option mvcgen.warning false

/-! ### Reading with a token put back -/

/-- `x` reads `toks` ahead of the input of `e`: as `Engine.Reads` says, or with the first
token put back in front of an engine that reads the others. -/
def Engine.Ahead (x e : Engine) (toks : List Token) (cs : List Cond) : Prop :=
  match toks with
  | [] => x.Reads e [] cs
  | u :: us => x.pendingHead? = some (u, false) ∧ x.dropPending.Reads e us cs

/-- The engine with the command `c` put back in front of its input, as `backCmd` leaves it. -/
def Engine.backed (x : Engine) (c : Cmd) : Engine :=
  { x with inputs := { toks := [c.tok], frozen := c.frozen } :: x.inputs }

theorem Engine.cmd_space_isSpace (e : Engine) : (e.cmd Token.space).isSpace = true := by
  simp [Engine.cmd, e.meaning_char, Cmd.isSpace, Token.space, Token.isCat]

theorem Engine.cmd_other_isSpace (e : Engine) (c : Nat) :
    (e.cmd (.char c .other)).isSpace = false := by
  simp [Engine.cmd, e.meaning_char, Cmd.isSpace, Token.isCat]

namespace Engine.Ahead

variable {x e : Engine} {toks us : List Token} {cs : List Cond}

theorem of_reads (h : x.Reads e toks cs) : x.Ahead e toks cs := by
  cases toks with
  | nil => exact h
  | cons u us => exact ⟨h.pendingHead, h.dropPending.1⟩

theorem putBack (h : x.Reads e us cs) (u : Token) : (x.backed (e.cmd u)).Ahead e (u :: us) cs :=
  h.putBack u

theorem of_afterNumber (h : x.ReadsAfterNumber e toks cs)
    (hsp : ∀ t ∈ toks.head?, (e.cmd t).isSpace = false) : x.Ahead e toks cs := by
  cases toks with
  | nil => exact h
  | cons u us =>
    have hu : (e.cmd u).isSpace = false := hsp u rfl
    simp only [Engine.ReadsAfterNumber, hu, Bool.false_eq_true, if_false] at h
    exact h

theorem readPlain (h : x.Ahead e toks cs) (hp : e.PlainAhead toks) :
    x.ReadsPlainly ∧ x.nextCmd? = toks.head?.map e.cmd ∧ x.dropPending.Reads e toks.tail cs := by
  cases toks with
  | nil => exact Engine.Reads.readPlain h hp
  | cons u us =>
    obtain ⟨hph, hdrop⟩ := h
    have hmean : x.meaning u = e.meaning u := by
      rw [← Engine.meaning_dropPending]
      exact hdrop.meaning_eq u
    refine ⟨.inl ⟨u, hph, ?_⟩, ?_, hdrop⟩
    · simpa [Engine.PlainAhead, Engine.Plain, hmean] using hp
    · simp [Engine.nextCmd?, hph, Engine.cmd, hmean]

/-- The run of `getX` on an engine reading `toks` ahead. -/
theorem run (h : x.Ahead e toks cs) (hp : e.PlainAhead toks) (m : Nat) :
    (EngineM.getX (m + 1)).run.run x = (.ok (toks.head?.map e.cmd), x.dropPending) ∧
      x.dropPending.Reads e toks.tail cs := by
  obtain ⟨hplain, hcmd, hdrop⟩ := h.readPlain hp
  rw [EngineM.getX_run_of_readsPlainly m hplain, hcmd]
  exact ⟨rfl, hdrop⟩

/-- Plain tokens `pre` read one by one give their commands; after at least one of them the
engine reads the rest with nothing put back. -/
theorem gives (m : Nat) {rest : List Token} :
    ∀ {x : Engine} {pre : List Token}, x.Ahead e (pre ++ rest) cs → (∀ t ∈ pre, e.Plain t) →
      ∃ y, x.Gives (m + 1) (pre.map e.cmd) y ∧ (pre = [] → y = x) ∧
        (pre ≠ [] → y.Reads e rest cs)
  | x, [], _, _ => ⟨x, .nil x, fun _ => rfl, fun h => absurd rfl h⟩
  | x, u :: pre, h, hp => by
    obtain ⟨hrun, hdrop⟩ := h.run (hp u (by simp)) m
    obtain ⟨y, hy, hnil, hcons⟩ := gives m (of_reads hdrop) fun t ht => hp t (by simp [ht])
    refine ⟨y, .cons hrun hy, fun h => absurd h (List.cons_ne_nil _ _), fun _ => ?_⟩
    by_cases hpre : pre = []
    · rw [hnil hpre]
      subst hpre
      exact hdrop
    · exact hcons hpre

/-- After plain tokens `pre` the engine reads the rest, possibly with a token put back when
`pre` is empty. -/
theorem gives_ahead (m : Nat) {rest pre : List Token} (h : x.Ahead e (pre ++ rest) cs)
    (hp : ∀ t ∈ pre, e.Plain t) :
    ∃ y, x.Gives (m + 1) (pre.map e.cmd) y ∧ y.Ahead e rest cs := by
  obtain ⟨y, hy, hnil, hcons⟩ := h.gives m hp
  refine ⟨y, hy, ?_⟩
  by_cases hpre : pre = []
  · subst hpre
    rw [hnil rfl]
    exact h
  · exact of_reads (hcons hpre)

end Engine.Ahead

namespace EngineM

/-! The unit scan is followed along its one path by its runs: each step's run is given by the
step's spec, and `run_bind_ok` goes on with what it returns. -/

/-- A loop whose body yields while rounds are left to it, counted by the invariant, and stops
when none is, returns what its last round gives. -/
theorem forIn_list_run {α β : Type} {f : α → β → EngineM (ForInStep β)}
    {I : Nat → β → Engine → Prop} {D : β → Engine → Prop}
    (hyield : ∀ a k b x, I (k + 1) b x →
      ∃ b' x', (f a b).run.run x = (.ok (.yield b'), x') ∧ I k b' x')
    (hdone : ∀ a b x, I 0 b x → ∃ b' x', (f a b).run.run x = (.ok (.done b'), x') ∧ D b' x') :
    ∀ (xs : List α) (k : Nat) (b : β) (x : Engine), k < xs.length → I k b x →
      ∃ b' x', (forIn xs b f).run.run x = (.ok b', x') ∧ D b' x'
  | [], k, _, _, hk, _ => absurd hk (Nat.not_lt_zero k)
  | a :: xs, 0, b, x, _, hI => by
    obtain ⟨b', x', hrun, hD⟩ := hdone a b x hI
    refine ⟨b', x', ?_, hD⟩
    rw [List.forIn_cons, run_bind_ok hrun]
    rfl
  | a :: xs, k + 1, b, x, hk, hI => by
    obtain ⟨b', x', hrun, hI'⟩ := hyield a k b x hI
    obtain ⟨b'', x'', hrun', hD⟩ := forIn_list_run hyield hdone xs k b' x'
      (by simp at hk; omega) hI'
    refine ⟨b'', x'', ?_, hD⟩
    rw [List.forIn_cons, run_bind_ok hrun]
    exact hrun'

theorem backCmd_run (c : Cmd) (x : Engine) : (backCmd c).run.run x = (.ok (), x.backed c) := rfl

theorem attach_run {whole : Int32} (h : ¬ whole ≥ 16384) (frac : Int32) (x : Engine) :
    (attach whole frac).run.run x = (.ok (whole * 65536 + frac), x) := by
  simp only [attach, if_neg h]
  rfl

theorem getX_ahead (m : Nat) (e : Engine) (toks : List Token) (cs : List Cond)
    (hp : e.PlainAhead toks) :
    ⦃fun x => ⌜x.Ahead e toks cs⌝⦄ getX (m + 1)
    ⦃⇓ r x => ⌜r = toks.head?.map e.cmd ∧ x.Reads e toks.tail cs⌝⦄ := by
  mvcgen [getX_plain, -getX_keeps]
  obtain ⟨hplain, hcmd, hdrop⟩ := ‹Engine.Ahead _ e toks cs›.readPlain hp
  exact ⟨hplain, hcmd, hdrop⟩

theorem getXNonBlank_ahead (m : Nat) (e : Engine) (u : Token) (us : List Token) (cs : List Cond)
    (hu : e.Plain u) (hsp : (e.cmd u).isSpace = false) :
    ⦃fun x => ⌜x.Ahead e (u :: us) cs⌝⦄ getXNonBlank (m + 2)
    ⦃⇓ r x => ⌜r = some (e.cmd u) ∧ x.Reads e us cs⌝⦄ := by
  rw [getXNonBlank]
  mvcgen [getX_plain, -getX_keeps, -forIn_range_keeps] invariants
  | inv1 => ⇓p x => ⌜(p.snd.fst = none ∧ p.fst.prefix = [] ∧ x.Ahead e (u :: us) cs) ∨
      (p.snd.fst = some (some (e.cmd u)) ∧ p.fst.suffix = [] ∧ x.Reads e us cs)⌝
  case vc1 =>
    rename_i x h
    rcases h with ⟨-, -, hx⟩ | ⟨-, hsuf, -⟩
    · obtain ⟨hplain, hcmd, hdrop⟩ := hx.readPlain hu
      refine ⟨hplain, ?_⟩
      simp only [hcmd, List.head?_cons, Option.map_some, hsp, Bool.not_false, if_true]
      exact .inr ⟨by simp, by simp, hdrop⟩
    · exact absurd hsuf (List.cons_ne_nil _ _)
  case vc2 => exact .inl ⟨by simp, by simp, ‹_›⟩
  case vc3 =>
    rename_i a ha x h
    rcases h with ⟨hnone, -⟩ | ⟨hsome, -, hx⟩
    · rw [ha] at hnone
      cases hnone
    · rw [ha, Option.some_inj] at hsome
      exact ⟨hsome, hx⟩
  case vc4 =>
    rename_i ha x h
    rcases h with ⟨-, hpre, -⟩ | ⟨hsome, -⟩
    · simp at hpre
    · rw [ha] at hsome
      cases hsome

end EngineM

/-- What reading one token gives after at most one space: the space, or the head of `toks`. -/
theorem Engine.Ahead.readBlank {x e : Engine} {bs toks : List Token} {cs : List Cond}
    (h : x.Ahead e (bs ++ toks) cs) (hbs : bs = [] ∨ bs = [Token.space]) (hp : e.PlainAhead toks) :
    x.ReadsPlainly ∧
      ((bs = [Token.space] ∧ x.nextCmd? = some (e.cmd Token.space) ∧
          x.dropPending.Reads e toks cs) ∨
        (bs = [] ∧ x.nextCmd? = toks.head?.map e.cmd ∧ x.dropPending.Reads e toks.tail cs)) := by
  rcases hbs with rfl | rfl
  · obtain ⟨hplain, hcmd, hdrop⟩ := h.readPlain hp
    exact ⟨hplain, .inr ⟨rfl, hcmd, hdrop⟩⟩
  · obtain ⟨hplain, hcmd, hdrop⟩ := h.readPlain (e.plain_char (c := 32) (by simp))
    exact ⟨hplain, .inl ⟨rfl, hcmd, hdrop⟩⟩

namespace EngineM

/-- The optional space after a unit: a space is read, the token after it is left. -/
theorem skipOptionalSpace_ahead (m : Nat) (e : Engine) (bs toks : List Token) (cs : List Cond)
    (hbs : bs = [] ∨ bs = [Token.space]) (hp : e.PlainAhead toks)
    (hsp : ∀ t ∈ toks.head?, (e.cmd t).isSpace = false) :
    ⦃fun x => ⌜x.Ahead e (bs ++ toks) cs⌝⦄ skipOptionalSpace (m + 2)
    ⦃⇓ _ x => ⌜x.Ahead e toks cs⌝⦄ := by
  have hspace := e.cmd_space_isSpace
  rw [skipOptionalSpace, getX_eq_plain]
  mvcgen [backCmd_wp, -getX_keeps, -backCmd_keeps, -back_keeps]
  case vc1 =>
    rename_i c hc hns
    obtain ⟨-, ⟨rfl, hcmd, -⟩ | ⟨rfl, hcmd, hdrop⟩⟩ :=
      ‹Engine.Ahead _ e (bs ++ toks) cs›.readBlank hbs hp
    · rw [hcmd, Option.some_inj] at hc
      subst hc
      simp [hspace] at hns
    · rw [hcmd] at hc
      cases toks with
      | nil => cases hc
      | cons u us =>
        simp only [List.head?_cons, Option.map_some, Option.some_inj] at hc
        subst hc
        exact Engine.Ahead.putBack hdrop u
  case vc2 =>
    rename_i c hc hns
    obtain ⟨-, ⟨rfl, -, hdrop⟩ | ⟨rfl, hcmd, -⟩⟩ :=
      ‹Engine.Ahead _ e (bs ++ toks) cs›.readBlank hbs hp
    · exact .of_reads hdrop
    · rw [hcmd] at hc
      cases toks with
      | nil => cases hc
      | cons u us =>
        simp only [List.head?_cons, Option.map_some, Option.some_inj] at hc
        subst hc
        simp [hsp u rfl] at hns
  case vc3 =>
    rename_i a hnone ha
    obtain ⟨-, ⟨rfl, hcmd, -⟩ | ⟨rfl, hcmd, hdrop⟩⟩ :=
      ‹Engine.Ahead _ e (bs ++ toks) cs›.readBlank hbs hp
    · rw [hcmd] at ha
      exact (hnone _ ha.symm).elim
    · rw [hcmd] at ha
      cases toks with
      | nil => exact .of_reads hdrop
      | cons u us => exact (hnone _ ha.symm).elim
  case vc4 => exact absurd (‹Engine.Ahead _ e (bs ++ toks) cs›.readBlank hbs hp).1 ‹_›

end EngineM

/-! ### Keywords in the text -/

theorem Char.le_toNat_of_isLower {k : Char} (hk : k.isLower = true) : 97 ≤ k.toNat := by
  simp only [Char.isLower, Bool.and_eq_true, decide_eq_true_eq] at hk
  have h := hk.1
  rw [ge_iff_le, UInt32.le_iff_toNat_le] at h
  exact h

theorem Engine.cmd_spells (e : Engine) (k : Char) {r : Nat} {cat : Category}
    (hcat : cat ≠ .active) :
    (e.cmd (.char r cat)).Spells k ↔ r = k.toNat ∨ r = k.toUpper.toNat := by
  simp [Cmd.Spells, Engine.cmd, hcat]

theorem Token.ofText_keyword {kw : String} (hkw : Keyword kw) :
    Token.ofText kw = kw.toList.map fun k => .char k.toNat .other := by
  simp only [Token.ofText]
  apply List.map_congr_left
  intro k hk
  have hne : k ≠ ' ' := by
    rintro rfl
    exact absurd (hkw.2 _ hk) (by decide)
  rw [if_neg hne]

theorem Keyword.spelled {kw : String} (hkw : Keyword kw) (e : Engine) :
    List.Forall₂ Cmd.Spells kw.toList ((Token.ofText kw).map e.cmd) := by
  rw [Token.ofText_keyword hkw, List.map_map, List.forall₂_map_right_iff]
  exact List.forall₂_same.2 fun k _ => (e.cmd_spells k (by simp)).2 (.inl rfl)

theorem Keyword.skips_space {kw : String} (hkw : Keyword kw) (e : Engine) :
    (e.cmd Token.space).SkippedBefore kw.toList := by
  refine ⟨e.cmd_space_isSpace, fun k hk => ?_⟩
  have hlow := hkw.2 k (List.mem_of_mem_head? hk)
  have h97 := Char.le_toNat_of_isLower hlow
  have hup := Char.toNat_toUpper_add hlow
  rw [Token.space, e.cmd_spells k (by simp)]
  omega

/-- When the first command read spells no first letter of the keyword, no letter of it is
matched. -/
theorem Engine.Gives.eq_nil_of_first {n : Nat} {y z : Engine} {F : List Cmd}
    {chars : List Char} (hF : y.Gives n F z) (hsp : List.Forall₂ Cmd.Spells (chars.take F.length) F)
    (hfirst : ∀ c y', (EngineM.getX n).run.run y = (.ok (some c), y') →
      ∀ k ∈ chars.head?, ¬ c.Spells k) :
    F = [] ∧ z = y := by
  cases F with
  | nil => exact ⟨rfl, hF.eq_of_nil.symm⟩
  | cons c F =>
    obtain ⟨y', hrun, -⟩ := hF.head
    cases chars with
    | nil => cases hsp
    | cons k chars =>
      simp only [List.length_cons, List.take_succ_cons] at hsp
      cases hsp with
      | cons hc _ => exact absurd hc (hfirst c y' hrun k rfl)

namespace EngineM

/-- A keyword refused at its first letter: after blanks `bs`, the next token is no space and
no first letter of the keyword, or the text ends. The scan answers `false` and leaves that
token to be read next; only the blanks are gone. -/
theorem scanKeyword_refuses (m : Nat) (kw : String) (e : Engine) (bs toks : List Token)
    (cs : List Cond) (hkw : Keyword kw) (hbs : ∀ b ∈ bs, b = Token.space)
    (hlen : bs.length + kw.toList.length < 1000000000) (hp : e.PlainAhead toks)
    (hstop : ∀ t ∈ toks.head?, (e.cmd t).isSpace = false ∧
      ∀ k ∈ kw.toList.head?, ¬ (e.cmd t).Spells k) :
    ⦃fun x => ⌜x.Ahead e (bs ++ toks) cs⌝⦄ scanKeyword (m + 2) kw
    ⦃⇓ r x => ⌜r = false ∧ x.Ahead e toks cs⌝⦄ := by
  intro x hx
  obtain ⟨y, hB, hy⟩ := hx.gives_ahead m fun b hb => by
    rw [hbs b hb]
    exact e.plain_char (c := 32) (by simp)
  obtain ⟨hrun, hdrop⟩ := hy.run hp m
  have hfirst : ∀ c y', (getX (m + 1)).run.run y = (.ok (some c), y') →
      c.isSpace = false ∧ ∀ k ∈ kw.toList.head?, ¬ c.Spells k := by
    intro c y' h
    rw [hrun] at h
    cases toks with
    | nil => exact absurd (Prod.mk.inj h).1 (by simp)
    | cons u us =>
      obtain ⟨h1, -⟩ := Prod.mk.inj h
      cases h1
      exact hstop u rfl
  have hspec := scanKeyword_spec (m + 1) kw x y (bs.map e.cmd) hkw hB
    (fun b hb => by
      obtain ⟨b', hb', rfl⟩ := List.mem_map.1 hb
      rw [hbs b' hb']
      exact hkw.skips_space e)
    (fun c y' h hsk => by
      have := (hfirst c y' h).1
      rw [hsk.1] at this
      cases this)
    (by simpa using hlen)
  have hnil := fun {F : List Cmd} {z : Engine} (hF : y.Gives (m + 1) F z)
      (hsp : List.Forall₂ Cmd.Spells (kw.toList.take F.length) F) =>
    hF.eq_nil_of_first hsp fun c y' h => (hfirst c y' h).2
  refine Triple.entails_wp_of_post hspec (PostCond.entails.mk ?_ ?_) x rfl
  · rintro r s ⟨htrue, hfalse⟩
    cases r with
    | true =>
      obtain ⟨k, l, hk⟩ := List.exists_cons_of_ne_nil hkw.1
      obtain ⟨c, y', hrun', hsp⟩ := (htrue rfl).next (.nil y) (by simp [hk])
      exact absurd (hsp k (by simp [hk])) ((hfirst c y' hrun').2 k (by simp [hk]))
    | false =>
      obtain ⟨F, x₂, x₃, hF, hsp, hsome | hnone⟩ := hfalse rfl
      · obtain ⟨rfl, rfl⟩ := hnil hF hsp
        obtain ⟨c, k, hrun', -, -, rfl⟩ := hsome
        rw [hrun] at hrun'
        cases toks with
        | nil => exact absurd (Prod.mk.inj hrun').1 (by simp)
        | cons u us =>
          obtain ⟨h1, rfl⟩ := Prod.mk.inj hrun'
          cases h1
          exact ⟨rfl, by
            simpa [pendingOf, Engine.cmd, Engine.backed] using Engine.Ahead.putBack hdrop u⟩
      · obtain ⟨rfl, rfl⟩ := hnil hF (by simpa using hsp)
        obtain ⟨hrun', -, rfl⟩ := hnone
        rw [hrun] at hrun'
        cases toks with
        | nil =>
          obtain ⟨-, rfl⟩ := Prod.mk.inj hrun'
          exact ⟨rfl, by simpa [Engine.Ahead, Engine.reads_iff, pendingOf] using hdrop⟩
        | cons u us => exact absurd (Prod.mk.inj hrun').1 (by simp)
  · refine ⟨fun err s hfail => ?_, trivial⟩
    obtain ⟨F, x₂, hF, hsp, -, hrun'⟩ := hfail
    obtain ⟨rfl, rfl⟩ := hnil hF hsp
    rw [hrun] at hrun'
    cases hrun'

/-- A keyword that is there: its letters, of category other, come next. The scan answers
`true` and leaves the engine reading what follows them, with nothing put back. -/
theorem scanKeyword_matches (m : Nat) (kw : String) (e : Engine) (rest : List Token)
    (cs : List Cond) (hkw : Keyword kw) (hlen : kw.toList.length < 1000000000) :
    ⦃fun x => ⌜x.Ahead e (Token.ofText kw ++ rest) cs⌝⦄ scanKeyword (m + 2) kw
    ⦃⇓ r x => ⌜r = true ∧ x.Reads e rest cs⌝⦄ := by
  intro x hx
  have hletters : ∀ t ∈ Token.ofText kw, e.Plain t := by
    rw [Token.ofText_keyword hkw]
    intro t ht
    obtain ⟨k, -, rfl⟩ := List.mem_map.1 ht
    exact e.plain_char (by simp)
  obtain ⟨y, hF, -, hy⟩ := hx.gives m hletters
  have hy := hy (by rw [Token.ofText_keyword hkw]; simpa using hkw.1)
  have hmatched : KeywordMatched (m + 1) kw.toList x y := ⟨_, hF, hkw.spelled e⟩
  have hspec := scanKeyword_spec (m + 1) kw x x [] hkw (.nil x) (by simp)
    (fun c x' h hsk => by
      obtain ⟨k, l, hk⟩ := List.exists_cons_of_ne_nil hkw.1
      obtain ⟨c', x₃, hrun', hsp⟩ := hmatched.next (.nil x) (by simp [hk])
      rw [h] at hrun'
      obtain ⟨h1, -⟩ := Prod.mk.inj hrun'
      cases h1
      exact hsk.2 k (by simp [hk]) (hsp k (by simp [hk])))
    (by simpa using hlen)
  refine Triple.entails_wp_of_post hspec (PostCond.entails.mk ?_ ?_) x rfl
  · rintro r s ⟨htrue, hfalse⟩
    cases r with
    | true => exact ⟨rfl, (KeywordMatched.unique (htrue rfl) hmatched) ▸ hy⟩
    | false => exact (KeywordRefused.not_matched (hfalse rfl) hmatched).elim
  · exact ⟨fun err s hfail => (KeywordFailed.not_matched hfail hmatched).elim, trivial⟩

end EngineM

/-! ### Units -/

/-- The unit scan, allowing infinite orders if `fil`, reads the tokens `U` as order `o` after
any number whose whole part is below `2^14` points, and leaves the engine reading `toks`. -/
def UnitText (m : Nat) (e : Engine) (fil : Bool) (U : List Token) (o : Order)
    (toks : List Token) (cs : List Cond) : Prop :=
  ∀ whole frac : Int32, ¬ whole ≥ 16384 →
    ⦃fun x => ⌜x.Ahead e U cs⌝⦄ EngineM.scanUnits (m + 3) whole frac fil
    ⦃⇓ r x => ⌜r = (whole * 65536 + frac, o) ∧ x.Ahead e toks cs⌝⦄

theorem Token.ofText_pt : Token.ofText "pt" = [.char 112 .other, .char 116 .other] := rfl

namespace EngineM

/-- Where `fil` is refused, the unit scan goes on as one that allows no infinite order. -/
theorem scanUnits_true_of_refused {n : Nat} {whole frac : Int32} {x x' : Engine}
    (h : (scanKeyword n "fil").run.run x = (.ok false, x')) :
    (scanUnits (n + 1) whole frac true).run.run x =
      (scanUnits (n + 1) whole frac false).run.run x' := by
  rw [scanUnits, scanUnits]
  simp only [if_true, Bool.false_eq_true, if_false]
  rw [run_bind_ok h]
  rfl

/-- `pt`, then at most one space: points, whether or not an infinite order may come. -/
theorem unitText_pt (m : Nat) (e : Engine) (fil : Bool) (bs toks : List Token)
    (cs : List Cond) (hbs : bs = [] ∨ bs = [Token.space]) (hp : e.PlainAhead toks)
    (hsp : ∀ t ∈ toks.head?, (e.cmd t).isSpace = false) :
    UnitText m e fil (Token.ofText "pt" ++ (bs ++ toks)) .normal toks cs := by
  intro whole frac hwhole
  apply triple_of_run
  intro x₀ hx₀
  rw [Token.ofText_pt] at hx₀
  have hP : e.Plain (.char 112 .other) := e.plain_char (by simp)
  have hPsp := e.cmd_other_isSpace 112
  have hPA : e.PlainAhead (Token.char 112 .other :: Token.char 116 .other :: (bs ++ toks)) := hP
  have hstop : ∀ kw : String, (∀ k ∈ kw.toList.head?, 112 ≠ k.toNat ∧ 112 ≠ k.toUpper.toNat) →
      ∀ t ∈ (Token.char 112 .other :: Token.char 116 .other :: (bs ++ toks)).head?,
        (e.cmd t).isSpace = false ∧ ∀ k ∈ kw.toList.head?, ¬ (e.cmd t).Spells k := by
    intro kw hkw t ht
    simp only [List.head?_cons, Option.mem_def, Option.some_inj] at ht
    subst ht
    refine ⟨hPsp, fun k hk hsp => ?_⟩
    rw [e.cmd_spells k (by simp)] at hsp
    have := hkw k hk
    omega
  obtain ⟨x, hrun₀, hx⟩ : ∃ x, (scanUnits (m + 3) whole frac fil).run.run x₀ =
      (scanUnits (m + 3) whole frac false).run.run x ∧
      x.Ahead e (Token.char 112 .other :: Token.char 116 .other :: (bs ++ toks)) cs := by
    cases fil
    · exact ⟨x₀, rfl, hx₀⟩
    · obtain ⟨x, h, hx⟩ := run_of_spec (scanKeyword_refuses m "fil" e [] _ cs
        (by simp [Keyword]) (by simp) (by simp) hPA (hstop _ (by simp))) hx₀
      exact ⟨x, scanUnits_true_of_refused h, hx⟩
  rw [hrun₀]
  obtain ⟨x1, h1, hx1⟩ := run_of_spec (getXNonBlank_ahead m e _ _ cs hP hPsp) hx
  have hx2 := Engine.Ahead.putBack hx1 (.char 112 .other)
  obtain ⟨x3, h3, hx3⟩ := run_of_spec (scanKeyword_refuses m "em" e [] _ cs (by simp [Keyword])
    (by simp) (by simp) hPA (hstop _ (by simp))) hx2
  obtain ⟨x4, h4, hx4⟩ := run_of_spec (scanKeyword_refuses m "ex" e [] _ cs (by simp [Keyword])
    (by simp) (by simp) hPA (hstop _ (by simp))) hx3
  obtain ⟨x5, h5, hx5⟩ := run_of_spec (scanKeyword_refuses m "true" e [] _ cs (by simp [Keyword])
    (by simp) (by simp) hPA (hstop _ (by simp))) hx4
  obtain ⟨x6, h6, hx6⟩ := run_of_spec (scanKeyword_matches m "pt" e (bs ++ toks) cs
    (by simp [Keyword]) (by simp)) (by rw [Token.ofText_pt]; exact hx5)
  obtain ⟨x7, h7, hx7⟩ := run_of_spec (a := ()) (triple_post
    (skipOptionalSpace_ahead m e bs toks cs hbs hp hsp) fun _ _ h => ⟨rfl, h⟩) (.of_reads hx6)
  refine ⟨_, x7, ?_, rfl, hx7⟩
  rw [scanUnits]
  simp only [Bool.false_eq_true, if_false]
  rw [run_bind_ok h1]
  simp only [e.cmd_level (show Category.other ≠ .active by simp)]
  rw [run_bind_ok (backCmd_run _ _)]
  simp only [bind_assoc, List.forIn_cons, List.forIn_nil]
  rw [run_bind_ok h3]
  simp only [Bool.false_eq_true, if_false, pure_bind, bind_assoc]
  rw [run_bind_ok h4]
  simp only [Bool.false_eq_true, if_false, pure_bind]
  rw [run_bind_ok h5, run_bind_ok h6]
  simp only [if_true]
  rw [run_bind_ok (attach_run hwhole _ _), run_bind_ok h7]
  rfl

/-- `fil` and `j` more `l`s, then blanks: the order of rank `j + 1`. -/
theorem unitText_fil (m : Nat) (e : Engine) (j : Nat) (hj : j ≤ 2) (bs toks : List Token)
    (cs : List Cond) (hbs : ∀ b ∈ bs, b = Token.space) (hlen : bs.length < 999999999)
    (hp : e.PlainAhead toks)
    (hstop : ∀ t ∈ toks.head?, (e.cmd t).isSpace = false ∧ ¬ (e.cmd t).Spells 'l') :
    UnitText m e true
      (Token.ofText "fil" ++ (List.replicate j (Token.char 108 .other) ++ (bs ++ toks)))
      (Order.ofRank (j + 1)) toks cs := by
  intro whole frac hwhole
  apply triple_of_run
  intro x hx
  obtain ⟨x1, h1, hx1⟩ := run_of_spec (scanKeyword_matches m "fil" e _ cs (by simp [Keyword])
    (by simp)) hx
  rw [scanUnits]
  simp only [if_true]
  rw [run_bind_ok h1]
  simp only [if_true]
  rw [Std.Legacy.Range.forIn_eq_forIn_range']
  refine run_bind_exists (P := fun o y => o = Order.ofRank (j + 1) ∧ y.Ahead e toks cs) ?_ ?_
  · refine forIn_list_run (I := fun k o y => o = Order.ofRank (j + 1 - k) ∧ k ≤ j ∧
      y.Ahead e (List.replicate k (Token.char 108 .other) ++ (bs ++ toks)) cs) ?_ ?_ _ j _ x1
      (by simp; omega) ⟨by simp [Order.ofRank], le_refl j, .of_reads hx1⟩
    · intro i k o y hI
      obtain ⟨ho, hk, hy⟩ := hI
      have hnext : o ≠ Order.filll ∧
          (if o = Order.fil then Order.fill else Order.filll) = Order.ofRank (j + 1 - k) := by
        rw [ho]
        obtain ⟨rfl, rfl⟩ | ⟨rfl, rfl⟩ | ⟨rfl, rfl⟩ :
            (j = 1 ∧ k = 0) ∨ (j = 2 ∧ k = 0) ∨ (j = 2 ∧ k = 1) := by omega
        all_goals decide
      obtain ⟨y', hl, hy'⟩ := run_of_spec (scanKeyword_matches m "l" e _ cs (by simp [Keyword])
        (by simp)) (show y.Ahead e (Token.ofText "l" ++
          (List.replicate k (Token.char 108 .other) ++ (bs ++ toks))) cs from hy)
      refine ⟨_, y', ?_, hnext.2, by omega, .of_reads hy'⟩
      rw [run_bind_ok hl]
      simp only [Bool.not_true, Bool.false_eq_true, if_false, if_neg hnext.1]
      rfl
    · intro i o y hI
      obtain ⟨ho, -, hy⟩ := hI
      obtain ⟨y', hl, hy'⟩ := run_of_spec (scanKeyword_refuses m "l" e bs toks cs
        (by simp [Keyword]) hbs (by simp; omega) hp fun t ht => ⟨(hstop t ht).1, fun k hk => by
          simp at hk
          subst hk
          exact (hstop t ht).2⟩) hy
      refine ⟨o, y', ?_, by simpa using ho, hy'⟩
      rw [run_bind_ok hl]
      simp only [Bool.not_false, if_true]
      rfl
  · intro o y hD
    obtain ⟨ho, hy⟩ := hD
    obtain ⟨y', hs, hy'⟩ := run_of_spec (a := ()) (triple_post (skipOptionalSpace_ahead m e []
      toks cs (.inl rfl) hp fun t ht => (hstop t ht).1) fun _ _ h => ⟨rfl, h⟩) hy
    refine ⟨(whole * 65536 + frac, o), y', ?_, by rw [ho], hy'⟩
    rw [run_bind_ok (attach_run hwhole _ _), run_bind_ok hs]
    rfl

end EngineM

end Galley
