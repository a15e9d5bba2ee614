import Mathlib
import Galley.Cli.Run

/-!
# The interactive loop neither loses nor garbles its input

A reference editor keeps a line as a zipper (`Buffer`): the characters before the cursor,
nearest first, and the characters from the cursor on. Every cursor it can express lies
within its line, and each key is a local change of the zipper. The terminal's editor keeps
the line as a list with a cursor index and changes it by slicing; `Buffer.Shows b ed` says
that the editor `ed` holds the line and the cursor of `b`. Each key keeps that relation
(`Buffer.Shows.press_editing`), so the cursor of every editor a line's keys reach stays
within its line, and the line read equals the reference editor's line over the same keys
(`Editor.readLine_follows`). The keys are read from the bytes by `readKey`, which reads the
UTF-8 bytes of any character that is not a control character as the key typing it.

The loop that joins continued lines hands each complete input on once: the lines fall into
runs of continued lines closed by one line that is not (`runsOf`), with possibly an
unfinished run at the end, and each run whose text is not blank is answered, in order.
-/

namespace Galley.Cli

/-! ### The reference editor -/

/-- A line with a cursor in it: the characters before the cursor, nearest first, and the
characters from the cursor on. -/
structure Buffer where
  before : List Char := []
  after : List Char := []
deriving DecidableEq, Repr

namespace Buffer

/-- The characters of the line. -/
def text (b : Buffer) : List Char := b.before.reverse ++ b.after

/-- What an editing key does: a character goes in before the cursor, backspace deletes
before it, `Ctrl+D` and delete at it, the cuts drop everything after or before it, and the
moves shift it within the line. -/
def edit (b : Buffer) : Keystroke → Buffer
  | .char c => ⟨c :: b.before, b.after⟩
  | .backspace => ⟨b.before.tail, b.after⟩
  | .ctrlD | .delete => ⟨b.before, b.after.tail⟩
  | .killEnd => ⟨b.before, []⟩
  | .killStart => ⟨[], b.after⟩
  | .home => ⟨[], b.text⟩
  | .toEnd => ⟨b.after.reverse ++ b.before, []⟩
  | .left =>
    match b.before with
    | c :: cs => ⟨cs, c :: b.after⟩
    | [] => b
  | .right =>
    match b.after with
    | c :: cs => ⟨c :: b.before, cs⟩
    | [] => b
  | .enter | .interrupt | .ignored => b

/-- The reference editor reading keys until its line ends: the line, whether the input
ended, and the keys after the line. Enter gives the line and `Ctrl+C` an empty one; the end
of the keys, or `Ctrl+D` on an empty line, end the input. -/
def readLine (b : Buffer) : List Keystroke → List Char × Bool × List Keystroke
  | [] => (b.text, true, [])
  | .enter :: ks => (b.text, false, ks)
  | .interrupt :: ks => ([], false, ks)
  | .ctrlD :: ks => if b.text = [] then ([], true, ks) else (b.edit .ctrlD).readLine ks
  | k :: ks => (b.edit k).readLine ks

/-- The editor `ed` holds the line of `b`, with its cursor after the characters before the
cursor of `b`. -/
def Shows (b : Buffer) (ed : Editor) : Prop := ed.line = b.text ∧ ed.cursor = b.before.length

theorem Shows.cursor_le {b : Buffer} {ed : Editor} (h : b.Shows ed) :
    ed.cursor ≤ ed.line.length := by
  rw [h.1, h.2, text, List.length_append, List.length_reverse]
  omega

end Buffer

/-! ### The editor follows the reference editor, key by key -/

namespace Editor

@[simp] theorem redraw_line (ed : Editor) : ed.redraw.line = ed.line := rfl
@[simp] theorem redraw_cursor (ed : Editor) : ed.redraw.cursor = ed.cursor := rfl
@[simp] theorem removeAt_line (ed : Editor) (i : Nat) :
    (ed.removeAt i).line = ed.line.take i ++ ed.line.drop (i + 1) := rfl
@[simp] theorem removeAt_cursor (ed : Editor) (i : Nat) : (ed.removeAt i).cursor = ed.cursor := rfl

theorem insert_line (ed : Editor) (c : Char) :
    (ed.insert c).line = ed.line.take ed.cursor ++ [c] ++ ed.line.drop ed.cursor := by
  dsimp only [insert]; split <;> rfl

theorem insert_cursor (ed : Editor) (c : Char) : (ed.insert c).cursor = ed.cursor + 1 := by
  dsimp only [insert]; split <;> rfl

end Editor

namespace Buffer

/-! The editor's slices of a line held as a zipper: the cursor splits it where the zipper
does. -/

section Slices

variable (bs as : List Char)

@[simp] theorem take_text : (bs.reverse ++ as).take bs.length = bs.reverse :=
  List.take_left' (List.length_reverse)

@[simp] theorem drop_text : (bs.reverse ++ as).drop bs.length = as :=
  List.drop_left' (List.length_reverse)

@[simp] theorem drop_text_succ : (bs.reverse ++ as).drop (bs.length + 1) = as.tail := by
  rw [← List.drop_drop, drop_text, List.drop_one]

end Slices

/-- Each key that does not end the line changes the editor as it changes the reference
editor. -/
theorem Shows.press_editing {b : Buffer} {ed ed' : Editor} {k : Keystroke} (h : b.Shows ed)
    (hp : ed.press k = .editing ed') : (b.edit k).Shows ed' := by
  obtain ⟨bs, as⟩ := b
  obtain ⟨line, cursor, echo⟩ := ed
  obtain ⟨rfl, rfl⟩ := h
  cases k with
  | backspace | left =>
    rcases bs with _ | ⟨c, bs⟩ <;> simp only [Editor.press] at hp <;> split at hp <;> cases hp <;>
      simp_all [Shows, text, edit]
  | right | toEnd =>
    rcases as with _ | ⟨c, as⟩ <;> simp only [Editor.press] at hp <;> split at hp <;> cases hp <;>
      simp_all [Shows, text, edit] <;> omega
  | _ =>
    simp only [Editor.press] at hp
    repeat' split at hp
    all_goals cases hp
    all_goals simp_all [Shows, text, edit, Editor.insert_line, Editor.insert_cursor]

theorem Shows.readLine_editing {b : Buffer} {ed ed' : Editor} {k : Keystroke} (h : b.Shows ed)
    (hp : ed.press k = .editing ed') (ks : List Keystroke) :
    b.readLine (k :: ks) = (b.edit k).readLine ks := by
  cases k with
  | enter | interrupt => simp [Editor.press] at hp
  | ctrlD =>
    have hne : b.text ≠ [] := by
      intro hb
      simp [Editor.press, h.1, hb] at hp
    simp [readLine, hne]
  | _ => rfl

theorem Shows.readLine_finished {b : Buffer} {ed ed' : Editor} {k : Keystroke} {ended : Bool}
    (h : b.Shows ed) (hp : ed.press k = .finished ed' ended) (ks : List Keystroke) :
    b.readLine (k :: ks) = (ed'.line, ended, ks) := by
  cases k with
  | enter =>
    cases hp
    simp [readLine, h.1]
  | interrupt =>
    cases hp
    simp [readLine]
  | ctrlD =>
    simp only [Editor.press] at hp
    split at hp
    · next hlen =>
      cases hp
      have hb : b.text = [] := by rw [← h.1]; exact List.eq_nil_of_length_eq_zero hlen
      simp [readLine, hb, h.1]
    · split at hp <;> cases hp
  | _ =>
    simp only [Editor.press] at hp
    repeat' split at hp
    all_goals cases hp

end Buffer

/-! ### Keys and lines -/

/-- The keys a sequence of bytes gives, read one after the other. -/
def keys (bytes : List UInt8) : List Keystroke :=
  match _hk : readKey bytes with
  | none => []
  | some (k, rest) => k :: keys rest
termination_by bytes.length
decreasing_by exact readKey_shorter _hk

theorem keys_of_readKey {bytes rest : List UInt8} {k : Keystroke}
    (h : readKey bytes = some (k, rest)) : keys bytes = k :: keys rest := by
  rw [keys]
  split <;> simp_all

theorem keys_of_readKey_none {bytes : List UInt8} (h : readKey bytes = none) : keys bytes = [] := by
  rw [keys]
  split <;> simp_all

/-- Reading a line, the editor holds at every key the line and cursor of the reference
editor reading the same keys: it ends with the reference editor's line, ends the input when
that does, and leaves the keys that one leaves. -/
theorem Editor.readLine_follows {b : Buffer} {ed : Editor} (h : b.Shows ed) (bytes : List UInt8) :
    b.readLine (keys bytes) =
      ((ed.readLine bytes).1.line, (ed.readLine bytes).2.1, keys (ed.readLine bytes).2.2) := by
  fun_induction Editor.readLine ed bytes generalizing b with
  | case1 ed bytes hk =>
    rw [keys_of_readKey_none hk, keys_of_readKey_none rfl]
    simp [Buffer.readLine, h.1]
  | case2 ed bytes k rest hk ed' hp ih =>
    rw [keys_of_readKey hk, h.readLine_editing hp]
    exact ih (h.press_editing hp)
  | case3 ed bytes k rest hk ed' ended hp =>
    rw [keys_of_readKey hk, h.readLine_finished hp]

/-- The editors the keys of a line reach from the empty line: each key that does not end the
line gives the next. -/
inductive Editor.Reached : Editor → Prop
  | start : Reached {}
  | press {ed ed' : Editor} (k : Keystroke) : Reached ed → ed.press k = .editing ed' → Reached ed'

/-- Every editor the keys reach holds the line and cursor of a reference editor. -/
theorem Editor.Reached.shows {ed : Editor} (h : ed.Reached) : ∃ b : Buffer, b.Shows ed := by
  induction h with
  | start => exact ⟨{}, rfl, rfl⟩
  | press k _ hp ih =>
    obtain ⟨b, hb⟩ := ih
    exact ⟨b.edit k, hb.press_editing hp⟩

/-! ### Characters typed in UTF-8 -/

/-- A character typed at the terminal: anything but an ASCII control character. -/
def Typeable (c : Char) : Prop := 0x20 ≤ c.toNat ∧ c.toNat ≠ 0x7f

section Bytes

theorem UInt8.forall_of_values {P : UInt8 → Prop} (h : ∀ n, n < 256 → P (UInt8.ofNat n)) :
    ∀ b, P b := by
  intro b
  have hp := h b.toNat b.toNat_lt
  rwa [UInt8.ofNat_toNat] at hp

set_option maxRecDepth 4096

theorem lead_two : ∀ x : UInt8, Editor.following (x &&& 0x1f ||| 0xc0) = 1 ∧
    ((x &&& 0x1f ||| 0xc0) &&& 0x1f).toNat = x.toNat % 32 ∧
    (x &&& 0x1f ||| 0xc0).toNat = x.toNat % 32 + 0xc0 :=
  UInt8.forall_of_values (by decide)

theorem lead_three : ∀ x : UInt8, Editor.following (x &&& 0x0f ||| 0xe0) = 2 ∧
    ((x &&& 0x0f ||| 0xe0) &&& 0x0f).toNat = x.toNat % 16 ∧
    (x &&& 0x0f ||| 0xe0).toNat = x.toNat % 16 + 0xe0 :=
  UInt8.forall_of_values (by decide)

theorem lead_four : ∀ x : UInt8, Editor.following (x &&& 0x07 ||| 0xf0) = 3 ∧
    ((x &&& 0x07 ||| 0xf0) &&& 0x07).toNat = x.toNat % 8 ∧
    (x &&& 0x07 ||| 0xf0).toNat = x.toNat % 8 + 0xf0 :=
  UInt8.forall_of_values (by decide)

theorem continuation : ∀ x : UInt8, Editor.isTail (x &&& 0x3f ||| 0x80) = true ∧
    ((x &&& 0x3f ||| 0x80) &&& 0x3f).toNat = x.toNat % 64 ∧
    (x &&& 0x3f ||| 0x80).toNat = x.toNat % 64 + 0x80 :=
  UInt8.forall_of_values (by decide)

end Bytes

theorem code_byte (c : Char) (k : UInt32) (hk : k.toNat < 32) :
    (c.val >>> k).toUInt8.toNat = c.toNat / 2 ^ k.toNat % 256 := by
  simp [UInt32.toNat_shiftRight, Nat.shiftRight_eq_div_pow, Nat.mod_eq_of_lt hk]

theorem code_low_byte (c : Char) : c.val.toUInt8.toNat = c.toNat % 256 := by
  rw [UInt32.toNat_toUInt8]
  rfl

theorem le_second {b0 b1 e l : UInt8} (he : b0.toNat = e.toNat → l.toNat ≤ b1.toNat)
    (h : 0x80 ≤ b1.toNat) : (if b0 = e then l else 0x80) ≤ b1 := by
  split
  · next hb => exact UInt8.le_iff_toNat_le.mpr (he (congrArg UInt8.toNat hb))
  · exact UInt8.le_iff_toNat_le.mpr h

theorem second_le {b0 b1 e l : UInt8} (he : b0.toNat = e.toNat → b1.toNat ≤ l.toNat)
    (h : b1.toNat ≤ 0xbf) : b1 ≤ (if b0 = e then l else 0xbf) := by
  split
  · next hb => exact UInt8.le_iff_toNat_le.mpr (he (congrArg UInt8.toNat hb))
  · exact UInt8.le_iff_toNat_le.mpr h

namespace Editor

theorem decode_pair {b0 b1 : UInt8} (h0 : 0xc2 ≤ b0.toNat ∧ b0.toNat ≤ 0xdf)
    (h1 : isTail b1 = true) :
    decode [b0, b1] = Char.ofNat ((b0 &&& 0x1f).toNat * 64 + (b1 &&& 0x3f).toNat) := by
  simp only [decode]
  rw [if_pos ⟨UInt8.le_iff_toNat_le.mpr h0.1, UInt8.le_iff_toNat_le.mpr h0.2, h1⟩]

theorem decode_triple {b0 b1 b2 : UInt8} (h0 : 0xe0 ≤ b0.toNat ∧ b0.toNat ≤ 0xef)
    (hlo : (if b0 = 0xe0 then (0xa0 : UInt8) else 0x80) ≤ b1)
    (hhi : b1 ≤ (if b0 = 0xed then (0x9f : UInt8) else 0xbf)) (h2 : isTail b2 = true) :
    decode [b0, b1, b2] =
      Char.ofNat ((b0 &&& 0x0f).toNat * 4096 + (b1 &&& 0x3f).toNat * 64 + (b2 &&& 0x3f).toNat) := by
  simp only [decode]
  rw [if_pos ⟨UInt8.le_iff_toNat_le.mpr h0.1, UInt8.le_iff_toNat_le.mpr h0.2, hlo, hhi, h2⟩]

theorem decode_quad {b0 b1 b2 b3 : UInt8} (h0 : 0xf0 ≤ b0.toNat ∧ b0.toNat ≤ 0xf4)
    (hlo : (if b0 = 0xf0 then (0x90 : UInt8) else 0x80) ≤ b1)
    (hhi : b1 ≤ (if b0 = 0xf4 then (0x8f : UInt8) else 0xbf)) (h2 : isTail b2 = true)
    (h3 : isTail b3 = true) :
    decode [b0, b1, b2, b3] =
      Char.ofNat ((b0 &&& 0x07).toNat * 262144 + (b1 &&& 0x3f).toNat * 4096 +
        (b2 &&& 0x3f).toNat * 64 + (b3 &&& 0x3f).toNat) := by
  simp only [decode]
  rw [if_pos ⟨UInt8.le_iff_toNat_le.mpr h0.1, UInt8.le_iff_toNat_le.mpr h0.2, hlo, hhi, h2, h3⟩]

theorem decode_two (c : Char) (h : c.utf8Size = 2) : decode (String.utf8EncodeChar c) = c := by
  rw [String.utf8EncodeChar_eq_cons_cons h]
  have hv : 0x80 ≤ c.toNat ∧ c.toNat ≤ 0x7ff := by
    have := Char.utf8Size_eq_two_iff.mp h
    simp only [UInt32.lt_iff_toNat_lt, UInt32.le_iff_toNat_le, UInt32.reduceToNat] at this
    exact ⟨this.1, this.2⟩
  obtain ⟨-, h0, h0'⟩ := lead_two (c.val >>> 6).toUInt8
  obtain ⟨h1, h1', -⟩ := continuation c.val.toUInt8
  rw [code_byte c 6 (by decide)] at h0 h0'
  rw [code_low_byte] at h1'
  simp only [UInt32.reduceToNat, Nat.reducePow] at h0 h0'
  rw [decode_pair (by simp only [h0']; omega) h1, h0, h1']
  conv_rhs => rw [← Char.ofNat_toNat c]
  congr 1
  omega

/-- A character of three bytes decodes to itself: its code point is at least `0x800` and no
surrogate, so its second byte is within the bounds its lead byte sets. -/
theorem decode_three (c : Char) (h : c.utf8Size = 3) : decode (String.utf8EncodeChar c) = c := by
  rw [String.utf8EncodeChar_eq_cons_cons_cons h]
  have hv : 0x800 ≤ c.toNat ∧ c.toNat ≤ 0xffff := by
    have := Char.utf8Size_eq_three_iff.mp h
    simp only [UInt32.lt_iff_toNat_lt, UInt32.le_iff_toNat_le, UInt32.reduceToNat] at this
    exact ⟨this.1, this.2⟩
  have hs : c.toNat < 0xd800 ∨ 0xdfff < c.toNat := by
    have := c.valid
    simp only [UInt32.isValidChar, Nat.isValidChar] at this
    change c.toNat < 0xd800 ∨ (0xdfff < c.toNat ∧ c.toNat < 0x110000) at this
    omega
  obtain ⟨-, h0, h0'⟩ := lead_three (c.val >>> 12).toUInt8
  obtain ⟨-, h1, h1'⟩ := continuation (c.val >>> 6).toUInt8
  obtain ⟨h2, h2', -⟩ := continuation c.val.toUInt8
  rw [code_byte c 12 (by decide)] at h0 h0'
  rw [code_byte c 6 (by decide)] at h1 h1'
  rw [code_low_byte] at h2'
  simp only [UInt32.reduceToNat, Nat.reducePow] at h0 h0' h1 h1'
  -- the lead byte `0xe0` starts code points from `0x800`, and `0xed` those below the
  -- surrogates
  rw [decode_triple (by simp only [h0']; omega)
      (le_second (fun he => by simp only [h0', UInt8.reduceToNat] at he ⊢; omega) (by omega))
      (second_le (fun he => by simp only [h0', UInt8.reduceToNat] at he ⊢; omega) (by omega)) h2,
    h0, h1, h2']
  conv_rhs => rw [← Char.ofNat_toNat c]
  congr 1
  omega

/-- A character of four bytes decodes to itself: its code point lies in
`0x10000..0x10ffff`, so its second byte is within the bounds its lead byte sets. -/
theorem decode_four (c : Char) (h : c.utf8Size = 4) : decode (String.utf8EncodeChar c) = c := by
  rw [String.utf8EncodeChar_eq_cons_cons_cons_cons h]
  have hv : 0x10000 ≤ c.toNat ∧ c.toNat < 0x110000 := by
    have h4 := Char.utf8Size_eq_four_iff.mp h
    simp only [UInt32.lt_iff_toNat_lt, UInt32.reduceToNat] at h4
    change 0xffff < c.toNat at h4
    have := c.valid
    simp only [UInt32.isValidChar, Nat.isValidChar] at this
    change c.toNat < 0xd800 ∨ (0xdfff < c.toNat ∧ c.toNat < 0x110000) at this
    omega
  obtain ⟨-, h0, h0'⟩ := lead_four (c.val >>> 18).toUInt8
  obtain ⟨-, h1, h1'⟩ := continuation (c.val >>> 12).toUInt8
  obtain ⟨h2, h2', -⟩ := continuation (c.val >>> 6).toUInt8
  obtain ⟨h3, h3', -⟩ := continuation c.val.toUInt8
  rw [code_byte c 18 (by decide)] at h0 h0'
  rw [code_byte c 12 (by decide)] at h1 h1'
  rw [code_byte c 6 (by decide)] at h2'
  rw [code_low_byte] at h3'
  simp only [UInt32.reduceToNat, Nat.reducePow] at h0 h0' h1 h1' h2'
  rw [decode_quad (by simp only [h0']; omega)
      (le_second (fun he => by simp only [h0', UInt8.reduceToNat] at he ⊢; omega) (by omega))
      (second_le (fun he => by simp only [h0', UInt8.reduceToNat] at he ⊢; omega) (by omega)) h2 h3,
    h0, h1, h2', h3']
  conv_rhs => rw [← Char.ofNat_toNat c]
  congr 1
  omega

theorem decode_utf8 (c : Char) (h : c.utf8Size ≠ 1) : decode (String.utf8EncodeChar c) = c := by
  rcases c.utf8Size_eq with h1 | h2 | h3 | h4
  · exact absurd h1 h
  · exact decode_two c h2
  · exact decode_three c h3
  · exact decode_four c h4

end Editor

/-- A character of more than one byte starts with a lead byte that counts the bytes after it. -/
theorem utf8_lead (c : Char) (h : c.utf8Size ≠ 1) :
    ∃ b bs, String.utf8EncodeChar c = b :: bs ∧ 0x80 ≤ b.toNat ∧ Editor.following b = bs.length := by
  rcases c.utf8Size_eq with h1 | h2 | h3 | h4
  · exact absurd h1 h
  · obtain ⟨hf, -, hb⟩ := lead_two (c.val >>> 6).toUInt8
    exact ⟨_, _, String.utf8EncodeChar_eq_cons_cons h2, by omega, hf⟩
  · obtain ⟨hf, -, hb⟩ := lead_three (c.val >>> 12).toUInt8
    exact ⟨_, _, String.utf8EncodeChar_eq_cons_cons_cons h3, by omega, hf⟩
  · obtain ⟨hf, -, hb⟩ := lead_four (c.val >>> 18).toUInt8
    exact ⟨_, _, String.utf8EncodeChar_eq_cons_cons_cons_cons h4, by omega, hf⟩

theorem keyAt_printable {b : UInt8} (h : 0x20 ≤ b.toNat ∧ b.toNat < 0x7f) (rest : List UInt8) :
    keyAt b rest = (.char (Char.ofNat b.toNat), rest) := by
  simp (disch := omega) only [keyAt, ← UInt8.toNat_inj, UInt8.le_iff_toNat_le, UInt8.lt_iff_toNat_lt,
    UInt8.reduceToNat, if_neg, if_pos]

theorem keyAt_lead {b : UInt8} (h : 0x80 ≤ b.toNat) (rest : List UInt8) :
    keyAt b rest =
      (.char (Editor.decode (b :: rest.take (Editor.following b))), rest.drop (Editor.following b)) := by
  simp (disch := omega) only [keyAt, ← UInt8.toNat_inj, UInt8.le_iff_toNat_le, UInt8.lt_iff_toNat_lt,
    UInt8.reduceToNat, ge_iff_le, if_neg, if_pos]

/-- The bytes of a character typed at the terminal are read as the key that types it. -/
theorem readKey_utf8 {c : Char} (hc : Typeable c) (rest : List UInt8) :
    readKey (String.utf8EncodeChar c ++ rest) = some (.char c, rest) := by
  by_cases h1 : c.utf8Size = 1
  · have hlt : c.toNat < 0x80 := by
      have := Char.utf8Size_eq_one_iff.mp h1
      simp only [UInt32.le_iff_toNat_le, UInt32.reduceToNat] at this
      change c.toNat ≤ 127 at this
      omega
    have hb : c.val.toUInt8.toNat = c.toNat := by rw [code_low_byte]; omega
    rw [String.utf8EncodeChar_eq_singleton h1, List.singleton_append, readKey,
      keyAt_printable (by rw [hb]; exact ⟨hc.1, by have := hc.2; omega⟩), hb, Char.ofNat_toNat]
  · obtain ⟨b, bs, he, hb, hf⟩ := utf8_lead c h1
    have hd : Editor.decode (b :: bs) = c := he ▸ Editor.decode_utf8 c h1
    rw [he, List.cons_append, readKey, keyAt_lead hb, hf, List.take_left, List.drop_left, hd]

theorem keys_typed {cs : List Char} (hc : ∀ c ∈ cs, Typeable c) (rest : List UInt8) :
    keys (cs.flatMap String.utf8EncodeChar ++ rest) = cs.map .char ++ keys rest := by
  induction cs with
  | nil => rfl
  | cons c cs ih =>
    rw [List.flatMap_cons, List.append_assoc, keys_of_readKey (readKey_utf8 (hc c (by simp)) _),
      ih fun d hd => hc d (by simp [hd]), List.map_cons, List.cons_append]

theorem Buffer.readLine_typed (b : Buffer) (cs : List Char) (ks : List Keystroke) :
    b.readLine (cs.map .char ++ ks) = (⟨cs.reverse ++ b.before, b.after⟩ : Buffer).readLine ks := by
  induction cs generalizing b with
  | nil => rfl
  | cons c cs ih =>
    rw [List.map_cons, List.cons_append]
    simp [readLine, edit, ih]

/-- A text typed in UTF-8 and then entered is the line read: nothing of it is lost or
changed. -/
theorem Editor.readLine_of_typed {cs : List Char} (hc : ∀ c ∈ cs, Typeable c) (rest : List UInt8) :
    ((readLine {} (cs.flatMap String.utf8EncodeChar ++ 0x0d :: rest)).1.line,
      (readLine {} (cs.flatMap String.utf8EncodeChar ++ 0x0d :: rest)).2.1) = (cs, false) := by
  have hstart : ({} : Buffer).Shows {} := ⟨rfl, rfl⟩
  have h := readLine_follows hstart (cs.flatMap String.utf8EncodeChar ++ 0x0d :: rest)
  have henter : keys (0x0d :: rest) = .enter :: keys rest := keys_of_readKey rfl
  rw [keys_typed hc, henter, Buffer.readLine_typed] at h
  simp only [Buffer.readLine, Buffer.text, List.append_nil, List.reverse_reverse, Prod.mk.injEq] at h
  rw [← h.1, ← h.2.1]

/-! ### Continued lines -/

/-- A line the loop continues on the next: it ends in a doubled backslash. -/
def Continued (line : String) : Prop := line.endsWith "\\\\" = true

/-- A run of lines the loop joins into one input: lines it continues, then one it does not. -/
structure LineRun where
  continued : List String
  last : String

namespace LineRun

/-- The lines of the run, in order. -/
def lines (r : LineRun) : List String := r.continued ++ [r.last]

/-- Continued lines closed by one that is not continued. -/
def Complete (r : LineRun) : Prop := (∀ l ∈ r.continued, Continued l) ∧ ¬ Continued r.last

/-- The input a run makes: its lines joined by line feeds, each continued line without the
doubled backslash it ends in. -/
def input (r : LineRun) : String :=
  "\n".intercalate (r.continued.map (fun l => (l.dropEnd 2).toString) ++ [r.last])

theorem input_cons (l : String) (cs : List String) (last : String) :
    input ⟨l :: cs, last⟩ = (l.dropEnd 2).toString ++ "\n" ++ input ⟨cs, last⟩ := by
  simp only [input, List.map_cons, List.cons_append]
  exact String.intercalate_cons_of_ne_nil (by simp)

end LineRun

/-- How the loop groups lines: runs of continued lines, each closed by a line that is not
continued, and the continued lines left at the end. -/
def runsOf : List String → List LineRun × List String
  | [] => ([], [])
  | l :: ls =>
    if l.endsWith "\\\\" then
      match runsOf ls with
      | (r :: rs, tail) => (⟨l :: r.continued, r.last⟩ :: rs, tail)
      | ([], tail) => ([], l :: tail)
    else (⟨[], l⟩ :: (runsOf ls).1, (runsOf ls).2)

/-- The runs and the unfinished end, in order, are the lines. -/
theorem runsOf_lines (ls : List String) :
    ((runsOf ls).1.map LineRun.lines).flatten ++ (runsOf ls).2 = ls := by
  induction ls with
  | nil => rfl
  | cons l ls ih =>
    rw [runsOf]
    split
    · rcases hr : runsOf ls with ⟨_ | ⟨r, rs⟩, tail⟩ <;> rw [hr] at ih <;>
        simpa [LineRun.lines] using ih
    · simpa [LineRun.lines] using ih

theorem runsOf_complete (ls : List String) : ∀ r ∈ (runsOf ls).1, r.Complete := by
  induction ls with
  | nil => simp [runsOf]
  | cons l ls ih =>
    rw [runsOf]
    split
    · next hl =>
      rcases hr : runsOf ls with ⟨_ | ⟨r, rs⟩, tail⟩ <;> rw [hr] at ih
      · simp
      · intro r' hr'
        rcases List.mem_cons.mp hr' with rfl | hr'
        · obtain ⟨hc, hlast⟩ := ih r List.mem_cons_self
          exact ⟨fun l' hl' => (List.mem_cons.mp hl').elim (· ▸ hl) (hc l'), hlast⟩
        · exact ih r' (List.mem_cons_of_mem r hr')
    · next hl =>
      intro r hr
      rcases List.mem_cons.mp hr with rfl | hr
      · exact ⟨by simp, hl⟩
      · exact ih r hr

theorem runsOf_tail (ls : List String) : ∀ l ∈ (runsOf ls).2, Continued l := by
  induction ls with
  | nil => simp [runsOf]
  | cons l ls ih =>
    rw [runsOf]
    split
    · next hl =>
      rcases hr : runsOf ls with ⟨_ | ⟨r, rs⟩, tail⟩ <;> rw [hr] at ih
      · intro l' hl'
        rcases List.mem_cons.mp hl' with rfl | hl'
        · exact hl
        · exact ih l' hl'
      · exact ih
    · exact ih

/-- The inputs the runs make when the loop has already gathered `pending` of the first. -/
def runInputs (pending : Option String) : List LineRun → List String
  | [] => []
  | r :: rs => (pending.getD "" ++ r.input) :: rs.map LineRun.input

theorem runInputs_none (runs : List LineRun) : runInputs none runs = runs.map LineRun.input := by
  cases runs <;> simp [runInputs]

/-- The loop answers, in order, the inputs of the runs of its lines that are not blank; what
it has gathered before them goes in front of the first. -/
theorem readLines_eq_foldl {σ : Type} (answer : σ → String → σ × String) (s : σ) (g : Gathered)
    (lines : List (String × String)) (last shown : String) :
    (readLines answer s g lines last shown).1 =
      ((runInputs g.pending (runsOf (lines.map Prod.snd)).1).filter (fun i => !i.all isBlank)).foldl
        (fun s i => (answer s i).1) s := by
  induction lines generalizing s g shown with
  | nil => simp [readLines, runsOf, runInputs]
  | cons x lines ih =>
    obtain ⟨echo, l⟩ := x
    by_cases hl : l.endsWith "\\\\" = true
    · -- a continued line goes into what is gathered
      simp only [readLines, Gathered.take, hl, if_true, List.map_cons, runsOf]
      rw [ih]
      rcases hr : runsOf (lines.map Prod.snd) with ⟨_ | ⟨r, rs⟩, tail⟩
      · simp [runInputs]
      · simp [runInputs, LineRun.input_cons, String.append_assoc]
    · -- any other line completes the input
      simp only [readLines, Gathered.take, hl, Bool.false_eq_true, if_false, List.map_cons, runsOf]
      have hin : (⟨[], l⟩ : LineRun).input = l := by simp [LineRun.input]
      by_cases hb : (g.pending.getD "" ++ l).all isBlank = true
      · simp only [hb, if_true]
        rw [ih, show ({} : Gathered).pending = none from rfl, runInputs_none]
        simp only [runInputs, hin, List.filter_cons, hb, Bool.not_true, Bool.false_eq_true, if_false]
      · simp only [hb, Bool.false_eq_true, if_false]
        rw [ih, show ({} : Gathered).pending = none from rfl, runInputs_none]
        simp only [runInputs, hin, List.filter_cons, hb, Bool.not_false, if_true, List.foldl_cons]

/-! ### The input of the interactive loop -/

/-- The interactive loop neither loses nor garbles its input. Every editor the keys of a
line reach keeps its cursor within its line, so every slice of the line is in bounds. The
line read from any bytes is the reference editor's line over the keys the bytes give, and
it ends the input exactly when that one does. The bytes of a character typed are read as
the key that types it. The lines read fall into runs of continued lines each closed by one
further line, and an unfinished run at the end; the loop answers, in order, exactly the
inputs of the runs that are not blank: their lines joined by line feeds, without the
doubled backslashes. -/
theorem interactive_input_kept :
    (∀ ed : Editor, ed.Reached → ed.cursor ≤ ed.line.length) ∧
    (∀ bytes : List UInt8,
      ({} : Buffer).readLine (keys bytes) =
        ((Editor.readLine {} bytes).1.line, (Editor.readLine {} bytes).2.1,
          keys (Editor.readLine {} bytes).2.2)) ∧
    (∀ c : Char, Typeable c → ∀ rest : List UInt8,
      readKey (String.utf8EncodeChar c ++ rest) = some (.char c, rest)) ∧
    (∀ (σ : Type) (answer : σ → String → σ × String) (s : σ) (lines : List (String × String))
        (last : String),
      ∃ runs : List LineRun, ∃ tail : List String,
        (runs.map LineRun.lines).flatten ++ tail = lines.map Prod.snd ∧
        (∀ r ∈ runs, r.Complete) ∧ (∀ l ∈ tail, Continued l) ∧
        (readLines answer s {} lines last "").1 =
          ((runs.map LineRun.input).filter (fun i => !i.all isBlank)).foldl
            (fun s i => (answer s i).1) s) := by
  refine ⟨fun ed h => ?_, fun bytes => Editor.readLine_follows ⟨rfl, rfl⟩ bytes,
    fun c hc rest => readKey_utf8 hc rest, fun σ answer s lines last => ?_⟩
  · obtain ⟨b, hb⟩ := h.shows
    exact hb.cursor_le
  · refine ⟨(runsOf (lines.map Prod.snd)).1, (runsOf (lines.map Prod.snd)).2, runsOf_lines _,
      runsOf_complete _, runsOf_tail _, ?_⟩
    rw [readLines_eq_foldl, show ({} : Gathered).pending = none from rfl, runInputs_none]

/-- The two bytes of `é` are read as the key that types it. -/
theorem interactive_input_reads_e_acute :
    Typeable 'é' ∧ readKey (String.utf8EncodeChar 'é' ++ [0x0d]) = some (.char 'é', [0x0d]) :=
  ⟨⟨by decide, by decide⟩, interactive_input_kept.2.2.1 'é' ⟨by decide, by decide⟩ [0x0d]⟩

end Galley.Cli
