/-
# `Dqrvcs.Codec` — the encodings an operation passes through

Everything here is standard library behaviour the gossip package relies on
byte for byte, written out so that the canonical bytes an operation is signed
over, and the line `ops.log` stores, can be computed:

* `decodeRune` — `utf8.DecodeRune`, including its answer `(RuneError, 1)` on
  an invalid or truncated sequence;
* `encodeString` — how `json.Marshal` writes a Go string: the escapes of
  `appendString` with HTML escaping on, and every byte that does not start a
  valid UTF-8 sequence replaced by the six characters `�`;
* `base64Encode`, `base64Decode` — `base64.StdEncoding`, whose decoder skips
  `\r` and `\n` anywhere and does not check the unused low bits of a final
  quantum;
* `formatRFC3339Nano` — `time.Time.Format(time.RFC3339Nano)` of a UTC time;
  up to the seconds its texts sort as the instants do
  (`bytesLt_formatRFC3339Nano`).

The functions that walk runes take the input's length as fuel: each round
consumes at least one byte, so the fuel never runs out first.
-/
import Dqrvcs.Bytes

namespace Dqrvcs

/-! ## `utf8.DecodeRune` -/

/-- `utf8.RuneError`, U+FFFD. -/
def runeError : Nat := 0xFFFD

/-- The first-byte table of `utf8.DecodeRune` for a multi-byte sequence: its
width and the range its second byte must fall in. -/
def leadByte (b : UInt8) : Option (Nat × UInt8 × UInt8) :=
  if b < 0xC2 then none
  else if b < 0xE0 then some (2, 0x80, 0xBF)
  else if b = 0xE0 then some (3, 0xA0, 0xBF)
  else if b < 0xED then some (3, 0x80, 0xBF)
  else if b = 0xED then some (3, 0x80, 0x9F)
  else if b < 0xF0 then some (3, 0x80, 0xBF)
  else if b = 0xF0 then some (4, 0x90, 0xBF)
  else if b < 0xF4 then some (4, 0x80, 0xBF)
  else if b = 0xF4 then some (4, 0x80, 0x8F)
  else none

/-- A UTF-8 continuation byte. -/
def isCont (b : UInt8) : Bool := 0x80 ≤ b && b ≤ 0xBF

/-- `utf8.DecodeRune`: the first rune of `p` and its width. -/
def decodeRune : Bytes → Nat × Nat
  | [] => (runeError, 0)
  | b0 :: rest =>
      if b0 < 0x80 then (b0.toNat, 1) else
      match leadByte b0, rest with
      | some (2, lo, hi), b1 :: _ =>
          if lo ≤ b1 ∧ b1 ≤ hi then (b0.toNat % 32 * 64 + b1.toNat % 64, 2)
          else (runeError, 1)
      | some (3, lo, hi), b1 :: b2 :: _ =>
          if lo ≤ b1 ∧ b1 ≤ hi ∧ isCont b2 then
            (b0.toNat % 16 * 4096 + b1.toNat % 64 * 64 + b2.toNat % 64, 3)
          else (runeError, 1)
      | some (4, lo, hi), b1 :: b2 :: b3 :: _ =>
          if lo ≤ b1 ∧ b1 ≤ hi ∧ isCont b2 ∧ isCont b3 then
            (b0.toNat % 8 * 262144 + b1.toNat % 64 * 4096 + b2.toNat % 64 * 64 + b3.toNat % 64, 4)
          else (runeError, 1)
      | _, _ => (runeError, 1)

/-- The width `decodeRune` reports for a non-empty input: between one byte and
the whole input. -/
theorem decodeRune_width {b : UInt8} {rest : Bytes} :
    1 ≤ (decodeRune (b :: rest)).2 ∧ (decodeRune (b :: rest)).2 ≤ rest.length + 1 ∧
      (decodeRune (b :: rest)).2 ≤ 4 := by
  simp only [decodeRune]
  split
  · simp
  · split <;> (try split) <;> simp

/-! ## Strings in `json.Marshal`

`appendString` copies a run of safe bytes and escapes the rest; per byte (or
per rune above ASCII) that is the following. -/

/-- What `json.Marshal` writes for one ASCII byte with HTML escaping on. -/
def escapeAscii (b : UInt8) : Bytes :=
  if b = 0x22 ∨ b = 0x5C then [0x5C, b]
  else if b = 0x08 then ascii "\\b"
  else if b = 0x0C then ascii "\\f"
  else if b = 0x0A then ascii "\\n"
  else if b = 0x0D then ascii "\\r"
  else if b = 0x09 then ascii "\\t"
  else if b < 0x20 ∨ b = 0x3C ∨ b = 0x3E ∨ b = 0x26 then
    ascii "\\u00" ++ [hexDigit (b.toNat / 16), hexDigit (b.toNat % 16)]
  else [b]

/-- The body of a JSON string, rune by rune; `fuel` bounds the rounds. -/
def encodeRunes : Nat → Bytes → Bytes
  | 0, _ => []
  | _, [] => []
  | n + 1, b :: rest =>
      if b < 0x80 then escapeAscii b ++ encodeRunes n rest
      else
        let d := decodeRune (b :: rest)
        if d.1 = runeError ∧ d.2 = 1 then ascii "\\ufffd" ++ encodeRunes n rest
        else if d.1 = 0x2028 then ascii "\\u2028" ++ encodeRunes n ((b :: rest).drop d.2)
        else if d.1 = 0x2029 then ascii "\\u2029" ++ encodeRunes n ((b :: rest).drop d.2)
        else (b :: rest).take d.2 ++ encodeRunes n ((b :: rest).drop d.2)

/-- A Go string as `json.Marshal` writes it, quotes included. -/
def encodeString (s : Bytes) : Bytes := [0x22] ++ encodeRunes s.length s ++ [0x22]

theorem length_le_escapeAscii (b : UInt8) : 1 ≤ (escapeAscii b).length := by
  have ite_len : ∀ {c : Prop} [Decidable c] {x y : Bytes}, 1 ≤ x.length → 1 ≤ y.length →
      1 ≤ (if c then x else y).length := fun hx hy => by split <;> assumption
  unfold escapeAscii
  exact ite_len (by simp) <| ite_len (by decide) <| ite_len (by decide) <| ite_len (by decide) <|
    ite_len (by decide) <| ite_len (by decide) <| ite_len (by simp) (by simp)

theorem length_le_encodeRunes : ∀ (n : Nat) (s : Bytes), s.length ≤ n →
    s.length ≤ (encodeRunes n s).length
  | 0, s, h => by simp_all
  | _ + 1, [], _ => by simp
  | n + 1, b :: rest, h => by
      have hw := (@decodeRune_width b rest).1
      have hw' := (@decodeRune_width b rest).2.1
      have hw4 := (@decodeRune_width b rest).2.2
      simp only [List.length_cons] at h
      unfold encodeRunes
      split
      · have := length_le_escapeAscii b
        have := length_le_encodeRunes n rest (by omega)
        simp only [List.length_append, List.length_cons]
        omega
      · have ih := length_le_encodeRunes n ((b :: rest).drop (decodeRune (b :: rest)).2)
          (by simp; omega)
        have ih1 := length_le_encodeRunes n rest (by omega)
        simp only [List.length_drop, List.length_cons] at ih
        dsimp only
        split_ifs
        · simp only [List.length_append, List.length_cons, show (ascii "\\ufffd").length = 6 from rfl]
          omega
        · simp only [List.length_append, List.length_cons, show (ascii "\\u2028").length = 6 from rfl]
          omega
        · simp only [List.length_append, List.length_cons, show (ascii "\\u2029").length = 6 from rfl]
          omega
        · simp only [List.length_append, List.length_take, List.length_cons]
          omega

theorem length_lt_encodeString (s : Bytes) : s.length < (encodeString s).length := by
  have := length_le_encodeRunes s.length s le_rfl
  simp [encodeString]
  omega

/-- A first byte of the table starts a sequence of two to four bytes, and its
second byte's range lies within the continuation bytes. -/
theorem leadByte_range {b : UInt8} {n : Nat} {lo hi : UInt8} (h : leadByte b = some (n, lo, hi)) :
    (n = 2 ∨ n = 3 ∨ n = 4) ∧ 0x80 ≤ lo ∧ hi ≤ 0xBF := by
  -- one row of the table at a time: `split_ifs` on the whole chain is slow
  have row : ∀ {m l u}, some (m, l, u) = some (n, lo, hi) →
      (m = 2 ∨ m = 3 ∨ m = 4) ∧ 0x80 ≤ l ∧ u ≤ 0xBF →
        (n = 2 ∨ n = 3 ∨ n = 4) ∧ 0x80 ≤ lo ∧ hi ≤ 0xBF := by
    rintro m l u ⟨⟩ h
    exact h
  unfold leadByte at h
  obtain ⟨-, h⟩ | ⟨-, h⟩ := ite_eq_iff.mp h
  · cases h
  obtain ⟨-, h⟩ | ⟨-, h⟩ := ite_eq_iff.mp h
  · exact row h (by decide)
  obtain ⟨-, h⟩ | ⟨-, h⟩ := ite_eq_iff.mp h
  · exact row h (by decide)
  obtain ⟨-, h⟩ | ⟨-, h⟩ := ite_eq_iff.mp h
  · exact row h (by decide)
  obtain ⟨-, h⟩ | ⟨-, h⟩ := ite_eq_iff.mp h
  · exact row h (by decide)
  obtain ⟨-, h⟩ | ⟨-, h⟩ := ite_eq_iff.mp h
  · exact row h (by decide)
  obtain ⟨-, h⟩ | ⟨-, h⟩ := ite_eq_iff.mp h
  · exact row h (by decide)
  obtain ⟨-, h⟩ | ⟨-, h⟩ := ite_eq_iff.mp h
  · exact row h (by decide)
  obtain ⟨-, h⟩ | ⟨-, h⟩ := ite_eq_iff.mp h
  · exact row h (by decide)
  · cases h

theorem high_of_isCont {b : UInt8} (h : isCont b = true) : ¬ b < 0x80 := by
  unfold isCont at h
  simp only [Bool.and_eq_true, decide_eq_true_eq] at h
  exact fun h' => absurd (Nat.lt_of_lt_of_le h' h.1) (Nat.lt_irrefl _)

/-- The bytes of a rune `decodeRune` reads past ASCII are all from `0x80` up:
its first byte, then bytes within the table's range or continuation bytes. -/
theorem high_of_mem_take_decodeRune {b : UInt8} {rest : Bytes} (hb : ¬ b < 0x80) {x : UInt8}
    (hx : x ∈ (b :: rest).take (decodeRune (b :: rest)).2) : ¬ x < 0x80 := by
  have above : ∀ {lo c : UInt8}, 0x80 ≤ lo → lo ≤ c → ¬ c < 0x80 := fun h₁ h₂ h₃ =>
    absurd (Nat.lt_of_lt_of_le h₃ (Nat.le_trans h₁ h₂)) (Nat.lt_irrefl _)
  have first : ∀ {l : Bytes}, x ∈ (b :: l).take (runeError, 1).2 → ¬ x < 0x80 := fun h => by
    simp only [List.take, List.mem_singleton] at h
    exact h ▸ hb
  simp only [decodeRune, if_neg hb] at hx
  split at hx
  case h_1 lo hi b1 _ hl =>
    split_ifs at hx with hc
    · simp only [List.take, List.mem_cons, List.not_mem_nil, or_false] at hx
      rcases hx with rfl | rfl
      exacts [hb, above (leadByte_range hl).2.1 hc.1]
    · exact first hx
  case h_2 lo hi b1 b2 _ hl =>
    split_ifs at hx with hc
    · simp only [List.take, List.mem_cons, List.not_mem_nil, or_false] at hx
      rcases hx with rfl | rfl | rfl
      exacts [hb, above (leadByte_range hl).2.1 hc.1, high_of_isCont hc.2.2]
    · exact first hx
  case h_3 lo hi b1 b2 b3 _ hl =>
    split_ifs at hx with hc
    · simp only [List.take, List.mem_cons, List.not_mem_nil, or_false] at hx
      rcases hx with rfl | rfl | rfl | rfl
      exacts [hb, above (leadByte_range hl).2.1 hc.1, high_of_isCont hc.2.2.1, high_of_isCont hc.2.2.2]
    · exact first hx
  case h_4 => exact first hx

theorem newline_not_mem_escapeAscii (b : UInt8) : (0x0A : UInt8) ∉ escapeAscii b := by
  unfold escapeAscii
  split_ifs with h₁ h₂ h₃ h₄ h₅ h₆ h₇
  · rcases h₁ with rfl | rfl <;> decide
  any_goals decide
  · have hex : ∀ d < 16, hexDigit d ≠ 0x0A := fun d hd e => by
      have := (graphic_hexDigit hd).1
      rw [e] at this
      exact absurd this (by decide)
    simp only [List.mem_append, List.mem_cons, List.not_mem_nil, or_false, not_or]
    exact ⟨by decide, fun e => hex _ (Nat.div_lt_of_lt_mul (by simpa using b.toNat_lt_size)) e.symm,
      fun e => hex _ (Nat.mod_lt _ (by norm_num)) e.symm⟩
  · exact fun e => h₄ (List.mem_singleton.mp e).symm

theorem newline_not_mem_encodeRunes : ∀ (n : Nat) (s : Bytes), (0x0A : UInt8) ∉ encodeRunes n s
  | 0, _ => by simp [encodeRunes]
  | _ + 1, [] => by simp [encodeRunes]
  | n + 1, b :: rest => by
    have ih := newline_not_mem_encodeRunes n
    unfold encodeRunes
    dsimp only
    split_ifs with h₁ h₂ h₃ h₄ <;> refine List.not_mem_append ?_ (ih _)
    · exact newline_not_mem_escapeAscii b
    all_goals try decide
    exact fun hm => high_of_mem_take_decodeRune h₁ hm (by decide)

/-- `json.Marshal` writes no newline inside a string: it escapes the byte and
copies only runes past ASCII. -/
theorem newline_not_mem_encodeString (s : Bytes) : (0x0A : UInt8) ∉ encodeString s :=
  List.not_mem_append (List.not_mem_append (by decide) (newline_not_mem_encodeRunes _ _)) (by decide)

/-! ## Strings read back from JSON

`json.Marshal` writes a byte that starts no valid UTF-8 sequence as `\ufffd`,
and every other rune as itself or as an escape of it; `json.Unmarshal` reads
each escape back.  So a Go string written to a JSON file and read again is the
string with each such byte replaced by the three bytes of U+FFFD
(`jsonString`).  The round trip is idempotent (`jsonString_jsonString`), and
`strings.TrimSpace` keeps what it leaves unchanged (`jsonString_trimSpace`);
it is not injective, since strings that differ only in invalid bytes read
back alike. -/

/-- The UTF-8 bytes of U+FFFD. -/
def runeErrorBytes : Bytes := [0xEF, 0xBF, 0xBD]

/-- A string through `json.Marshal` and `json.Unmarshal`, rune by rune; `fuel`
bounds the rounds. -/
def jsonRunes : Nat → Bytes → Bytes
  | 0, _ => []
  | _, [] => []
  | n + 1, b :: rest =>
    let d := decodeRune (b :: rest)
    if d.1 = runeError ∧ d.2 = 1 then runeErrorBytes ++ jsonRunes n rest
    else (b :: rest).take d.2 ++ jsonRunes n ((b :: rest).drop d.2)

/-- A Go string as `json.Unmarshal` reads back what `json.Marshal` wrote for it. -/
def jsonString (s : Bytes) : Bytes := jsonRunes s.length s

theorem jsonRunes_fuel : ∀ (n m : Nat) (s : Bytes), s.length ≤ n → s.length ≤ m →
    jsonRunes n s = jsonRunes m s
  | 0, m, s, h, _ => by
    rw [List.length_eq_zero.mp (Nat.le_zero.mp h)]
    cases m <;> rfl
  | _ + 1, 0, s, _, h => by rw [List.length_eq_zero.mp (Nat.le_zero.mp h)]; rfl
  | _ + 1, _ + 1, [], _, _ => rfl
  | n + 1, m + 1, b :: rest, h₁, h₂ => by
    have hw := (@decodeRune_width b rest).1
    simp only [List.length_cons] at h₁ h₂
    simp only [jsonRunes]
    rw [jsonRunes_fuel n m rest (by omega) (by omega),
      jsonRunes_fuel n m ((b :: rest).drop _) (by simp; omega) (by simp; omega)]

/-- One rune of `jsonString`: U+FFFD for a byte that starts no valid
sequence, the rune itself otherwise. -/
theorem jsonString_cons (b : UInt8) (rest : Bytes) :
    jsonString (b :: rest) =
      if (decodeRune (b :: rest)).1 = runeError ∧ (decodeRune (b :: rest)).2 = 1 then
        runeErrorBytes ++ jsonString rest
      else (b :: rest).take (decodeRune (b :: rest)).2 ++
        jsonString ((b :: rest).drop (decodeRune (b :: rest)).2) := by
  have hw := (@decodeRune_width b rest).1
  rw [jsonString, List.length_cons, jsonRunes,
    jsonRunes_fuel rest.length ((b :: rest).drop (decodeRune (b :: rest)).2).length _
      (by simp; omega) le_rfl]
  rfl

/-- A rune `decodeRune` reads whole from the start of `s`, not the error it
answers for an invalid byte. -/
def WholeRune (s : Bytes) : Prop :=
  s ≠ [] ∧ ¬ ((decodeRune s).1 = runeError ∧ (decodeRune s).2 = 1)

instance (s : Bytes) : Decidable (WholeRune s) := inferInstanceAs (Decidable (_ ∧ _))

/-- A rune `decodeRune` reads whole is read alike whatever follows it. -/
theorem decodeRune_take_append {s : Bytes} (hs : WholeRune s) (x : Bytes) :
    decodeRune (s.take (decodeRune s).2 ++ x) = decodeRune s := by
  obtain ⟨b, rest, rfl⟩ := List.exists_cons_of_ne_nil hs.1
  have hv := hs.2
  by_cases hb : b < 0x80
  · simp [decodeRune, hb]
  rcases hl : leadByte b with _ | ⟨n, lo, hi⟩
  · simp [decodeRune, hb, hl] at hv
  generalize hd : decodeRune (b :: rest) = d at hv ⊢
  rcases (leadByte_range hl).1 with rfl | rfl | rfl <;>
    rcases rest with _ | ⟨b1, _ | ⟨b2, _ | ⟨b3, rest⟩⟩⟩ <;>
    simp only [decodeRune, hb, hl, if_false] at hd <;> subst hd <;>
    (try split_ifs at hv ⊢) <;> simp_all [decodeRune]

/-- What follows a string cannot change how its runes read when it starts
with no continuation byte. -/
theorem decodeRune_append_of_not_cont (b : UInt8) (rest : Bytes) {c : UInt8}
    (hc : isCont c = false) (y : Bytes) :
    decodeRune (b :: rest ++ c :: y) = decodeRune (b :: rest) := by
  by_cases hb : b < 0x80
  · simp [decodeRune, hb]
  rcases hl : leadByte b with _ | ⟨n, lo, hi⟩
  · simp [decodeRune, hb, hl]
  obtain ⟨hn, hlo, hhi⟩ := leadByte_range hl
  have out : ¬ (lo ≤ c ∧ c ≤ hi) := fun h => by
    unfold isCont at hc
    simp only [Bool.and_eq_false_iff, decide_eq_false_iff_not] at hc
    rcases hc with hc | hc
    · exact hc (UInt8.le_trans hlo h.1)
    · exact hc (UInt8.le_trans h.2 hhi)
  rcases hn with rfl | rfl | rfl <;>
    rcases rest with _ | ⟨b1, _ | ⟨b2, _ | ⟨b3, rest⟩⟩⟩ <;>
    rcases y with _ | ⟨d, _ | ⟨e, y⟩⟩ <;>
    simp [decodeRune, hb, hl, hc, out] <;>
    exact fun h₁ h₂ => absurd ⟨h₁, h₂⟩ out

/-- A whole rune at the front of a string reads back as itself. -/
theorem jsonString_take_append {s : Bytes} (hs : WholeRune s) (x : Bytes) :
    jsonString (s.take (decodeRune s).2 ++ x) = s.take (decodeRune s).2 ++ jsonString x := by
  obtain ⟨b, rest, rfl⟩ := List.exists_cons_of_ne_nil hs.1
  obtain ⟨hw₁, hw₂, -⟩ := @decodeRune_width b rest
  have hlen : ((b :: rest).take (decodeRune (b :: rest)).2).length = (decodeRune (b :: rest)).2 := by
    simp only [List.length_take, List.length_cons]
    omega
  obtain ⟨c, r, e⟩ : ∃ c r, (b :: rest).take (decodeRune (b :: rest)).2 ++ x = c :: r :=
    List.exists_cons_of_ne_nil fun h => by
      have := congrArg List.length h
      simp only [List.length_append, hlen, List.length_nil] at this
      omega
  rw [e, jsonString_cons, ← e, decodeRune_take_append hs x, if_neg hs.2, List.take_left' hlen,
    List.drop_left' hlen]

theorem jsonString_rune_append {r : Bytes} (hr : WholeRune r) (hw : (decodeRune r).2 = r.length)
    (x : Bytes) : jsonString (r ++ x) = r ++ jsonString x := by
  simpa only [hw, List.take_length] using jsonString_take_append hr x

/-- Induction along the runes `jsonString` reads: from the rest after the
first byte and the rest after the first rune to the whole string. -/
theorem jsonString_induction {P : Bytes → Prop} (nil : P [])
    (cons : ∀ b rest, P rest → P ((b :: rest).drop (decodeRune (b :: rest)).2) → P (b :: rest))
    (s : Bytes) : P s := by
  suffices h : ∀ n (s : Bytes), s.length ≤ n → P s from h _ s le_rfl
  intro n
  induction n with
  | zero =>
    intro s hs
    rw [List.length_eq_zero.mp (Nat.le_zero.mp hs)]
    exact nil
  | succ n ih =>
    rintro (_ | ⟨b, rest⟩) hs
    · exact nil
    · have hw := (@decodeRune_width b rest).1
      simp only [List.length_cons] at hs
      exact cons b rest (ih rest (by omega))
        (ih _ (by simp only [List.length_drop, List.length_cons]; omega))

/-- A string joined to one that starts with no continuation byte reads back
as the two apart. -/
theorem jsonString_append (t : Bytes) {r : Bytes} (hr : ∀ c ∈ r.head?, isCont c = false) :
    jsonString (t ++ r) = jsonString t ++ jsonString r := by
  induction t using jsonString_induction with
  | nil => rfl
  | cons b rest ih₁ ih₂ =>
    have hd : decodeRune (b :: rest ++ r) = decodeRune (b :: rest) := by
      rcases r with _ | ⟨c, y⟩
      · rw [List.append_nil]
      · exact decodeRune_append_of_not_cont b rest (hr c rfl) y
    have hw := (@decodeRune_width b rest).2.1
    rw [List.cons_append, jsonString_cons, ← List.cons_append, hd, jsonString_cons]
    split_ifs
    · rw [ih₁, List.append_assoc]
    · rw [List.take_append_of_le_length (by simp only [List.length_cons]; omega),
        List.drop_append_of_le_length (by simp only [List.length_cons]; omega), ih₂,
        List.append_assoc]

theorem wholeRune_runeErrorBytes :
    WholeRune runeErrorBytes ∧ (decodeRune runeErrorBytes).2 = runeErrorBytes.length := by
  decide

theorem jsonString_jsonString (s : Bytes) : jsonString (jsonString s) = jsonString s := by
  induction s using jsonString_induction with
  | nil => rfl
  | cons b rest ih₁ ih₂ =>
    rw [jsonString_cons]
    split_ifs with h
    · rw [jsonString_rune_append wholeRune_runeErrorBytes.1 wholeRune_runeErrorBytes.2, ih₁]
    · rw [jsonString_take_append ⟨List.cons_ne_nil b rest, h⟩, ih₂]

/-- Each space rune is one whole rune that starts with no continuation byte
and reads back as itself. -/
theorem spaceRunes_whole : ∀ r ∈ spaceRunes, WholeRune r ∧ (decodeRune r).2 = r.length ∧
    (∀ c ∈ r.head?, isCont c = false) ∧ jsonString r = r := by
  decide

/-- `strings.TrimSpace` keeps a string unchanged by the round trip so. -/
theorem jsonString_trimSpace {s : Bytes} (h : jsonString s = s) :
    jsonString (trimSpace s) = trimSpace s :=
  trimSpace_induction (P := fun s => jsonString s = s)
    (fun r hr t (h : jsonString (r ++ t) = r ++ t) => by
      rw [jsonString_rune_append (spaceRunes_whole r hr).1 (spaceRunes_whole r hr).2.1] at h
      exact List.append_cancel_left h)
    (fun r hr t (h : jsonString (t ++ r) = t ++ r) => by
      rw [jsonString_append t (spaceRunes_whole r hr).2.2.1, (spaceRunes_whole r hr).2.2.2] at h
      exact List.append_cancel_right h) h

/-- A string the round trip changes reads back with a U+FFFD in it. -/
theorem mem_jsonString_of_ne {s : Bytes} : jsonString s ≠ s → (0xEF : UInt8) ∈ jsonString s := by
  induction s using jsonString_induction with
  | nil => exact fun h => absurd rfl h
  | cons b rest _ ih =>
    intro h
    rw [jsonString_cons] at h ⊢
    split_ifs at h ⊢
    · simp [runeErrorBytes]
    · refine List.mem_append_right _ (ih fun e => h ?_)
      rw [e, List.take_append_drop]

/-- A trimmed, non-empty string keeps something through the round trip and a
second trim. -/
theorem trimSpace_jsonString_ne_nil {s : Bytes} (ht : trimSpace s = s) (hs : s ≠ []) :
    trimSpace (jsonString s) ≠ [] := by
  by_cases h : jsonString s = s
  · rwa [h, ht]
  · exact List.ne_nil_of_mem (mem_trimSpace (by decide) (mem_jsonString_of_ne h))


/-! ## `base64.StdEncoding`

Three bytes make a 24-bit group and four 6-bit digits of the alphabet
`A–Z a–z 0–9 + /`; a last group of one or two bytes is padded with `=`. -/

/-- The digit of `i < 64` in the standard alphabet. -/
def b64Char (i : Nat) : UInt8 :=
  (if i < 26 then 65 + i else if i < 52 then 71 + i else if i < 62 then i - 4
    else if i = 62 then 43 else 47).toUInt8

/-- The value of a digit of the standard alphabet, if it is one. -/
def b64Index (c : UInt8) : Option Nat :=
  if 65 ≤ c.toNat ∧ c.toNat ≤ 90 then some (c.toNat - 65)
  else if 97 ≤ c.toNat ∧ c.toNat ≤ 122 then some (c.toNat - 71)
  else if 48 ≤ c.toNat ∧ c.toNat ≤ 57 then some (c.toNat + 4)
  else if c.toNat = 43 then some 62
  else if c.toNat = 47 then some 63
  else none

/-- The padding character `=`. -/
def padChar : UInt8 := 0x3D

/-- The four digits of the 24-bit value `v`. -/
def b64Quad (v : Nat) : Bytes :=
  [b64Char (v / 262144), b64Char (v / 4096 % 64), b64Char (v / 64 % 64), b64Char (v % 64)]

/-- `base64.StdEncoding.EncodeToString`. -/
def base64Encode : Bytes → Bytes
  | a :: b :: c :: rest => b64Quad (a.toNat * 65536 + b.toNat * 256 + c.toNat) ++ base64Encode rest
  | [a, b] => (b64Quad (a.toNat * 65536 + b.toNat * 256)).take 3 ++ [padChar]
  | [a] => (b64Quad (a.toNat * 65536)).take 2 ++ [padChar, padChar]
  | [] => []

/-- The three bytes of a 24-bit value. -/
def groupBytes (v : Nat) : Bytes := [(v / 65536).toUInt8, (v / 256 % 256).toUInt8, (v % 256).toUInt8]

/-- The decoder once `\r` and `\n` are gone: whole quanta, padding only in the
last one, trailing bits of a padded quantum ignored. -/
def decodeQuanta : Bytes → Option Bytes
  | c0 :: c1 :: c2 :: c3 :: rest =>
      match b64Index c0, b64Index c1, b64Index c2, b64Index c3 with
      | some i0, some i1, some i2, some i3 =>
          (groupBytes (i0 * 262144 + i1 * 4096 + i2 * 64 + i3) ++ ·) <$> decodeQuanta rest
      | some i0, some i1, some i2, none =>
          if c3 = padChar ∧ rest = [] then some ((groupBytes (i0 * 262144 + i1 * 4096 + i2 * 64)).take 2)
          else none
      | some i0, some i1, none, none =>
          if c2 = padChar ∧ c3 = padChar ∧ rest = [] then
            some ((groupBytes (i0 * 262144 + i1 * 4096)).take 1)
          else none
      | _, _, _, _ => none
  | [] => some []
  | _ => none

/-- `base64.StdEncoding.DecodeString`, `none` on any error. -/
def base64Decode (s : Bytes) : Option Bytes :=
  decodeQuanta (s.filter fun c => c != 0x0D && c != 0x0A)

theorem b64Index_b64Char {i : Nat} (h : i < 64) : b64Index (b64Char i) = some i :=
  (by decide : ∀ i < 64, b64Index (b64Char i) = some i) i h

@[simp] theorem b64Index_b64Char_mod (v : Nat) : b64Index (b64Char (v % 64)) = some (v % 64) :=
  b64Index_b64Char (Nat.mod_lt _ (by norm_num))

theorem b64Index_padChar : b64Index padChar = none := by decide

theorem b64Char_graphic {i : Nat} (h : i < 64) : Graphic (b64Char i) :=
  (by decide : ∀ i < 64, Graphic (b64Char i)) i h

theorem groupBytes_bytes (a b c : UInt8) :
    groupBytes (a.toNat * 65536 + b.toNat * 256 + c.toNat) = [a, b, c] := by
  have ha := a.toNat_lt_size
  have hb := b.toNat_lt_size
  have hc := c.toNat_lt_size
  unfold UInt8.size at ha hb hc
  exact congrArg₂ List.cons (toUInt8_of_eq_toNat (by omega)) <| congrArg₂ List.cons
    (toUInt8_of_eq_toNat (by omega)) <| congrArg₂ List.cons (toUInt8_of_eq_toNat (by omega)) rfl

theorem graphic_padChar : Graphic padChar := by decide

theorem group_lt (a b c : UInt8) : a.toNat * 65536 + b.toNat * 256 + c.toNat < 16777216 := by
  have ha := a.toNat_lt_size
  have hb := b.toNat_lt_size
  have hc := c.toNat_lt_size
  unfold UInt8.size at ha hb hc
  omega

theorem graphic_of_mem_b64Quad {v : Nat} {c : UInt8} (hv : v < 16777216)
    (h : c ∈ b64Quad v) : Graphic c := by
  simp only [b64Quad, List.mem_cons, List.not_mem_nil, or_false] at h
  rcases h with rfl | rfl | rfl | rfl <;> exact b64Char_graphic (by omega)

theorem graphic_of_mem_base64Encode : ∀ {bs : Bytes} {c : UInt8}, c ∈ base64Encode bs → Graphic c
  | a :: b :: d :: rest, c, h => by
      rcases List.mem_append.mp h with h | h
      · exact graphic_of_mem_b64Quad (group_lt a b d) h
      · exact graphic_of_mem_base64Encode h
  | [a, b], c, h => by
      rcases List.mem_append.mp h with h | h
      · exact graphic_of_mem_b64Quad (by simpa using group_lt a b 0) (List.mem_of_mem_take h)
      · rw [List.mem_singleton.mp h]; exact graphic_padChar
  | [a], c, h => by
      rcases List.mem_append.mp h with h | h
      · exact graphic_of_mem_b64Quad (by simpa using group_lt a 0 0) (List.mem_of_mem_take h)
      · rcases List.mem_pair.mp h with rfl | rfl <;> exact graphic_padChar

theorem b64_digits (v : Nat) :
    v / 262144 * 262144 + v / 4096 % 64 * 4096 + v / 64 % 64 * 64 + v % 64 = v := by
  omega

theorem b64_digits_of_mod64 {v : Nat} (h : v % 64 = 0) :
    v / 262144 * 262144 + v / 4096 % 64 * 4096 + v / 64 % 64 * 64 = v := by
  have := b64_digits v
  omega

theorem b64_digits_of_mod4096 {v : Nat} (h : v % 4096 = 0) :
    v / 262144 * 262144 + v / 4096 % 64 * 4096 = v := by
  omega

theorem decodeQuanta_base64Encode : ∀ bs : Bytes, decodeQuanta (base64Encode bs) = some bs
  | a :: b :: c :: rest => by
      have hv := group_lt a b c
      simp only [base64Encode, b64Quad, List.cons_append, List.append_eq, List.nil_append,
        decodeQuanta, b64Index_b64Char_mod, decodeQuanta_base64Encode rest, Option.map_eq_map,
        b64Index_b64Char (Nat.div_lt_of_lt_mul (by omega) :
          (a.toNat * 65536 + b.toNat * 256 + c.toNat) / 262144 < 64),
        Option.map_some', b64_digits, groupBytes_bytes, List.cons_append,
        List.nil_append]
  | [a, b] => by
      have hv := group_lt a b 0
      rw [UInt8.toNat_zero, add_zero] at hv
      have hd := b64_digits_of_mod64 (show (a.toNat * 65536 + b.toNat * 256) % 64 = 0 by omega)
      simp only [base64Encode, b64Quad, List.take, List.cons_append, List.nil_append, decodeQuanta,
        b64Index_b64Char (Nat.div_lt_of_lt_mul (by omega) :
          (a.toNat * 65536 + b.toNat * 256) / 262144 < 64),
        b64Index_b64Char_mod, b64Index_padChar, and_self, if_true, hd]
      have hg := groupBytes_bytes a b 0
      simp only [UInt8.toNat_zero, add_zero, groupBytes, List.cons.injEq] at hg
      rw [hg.1, hg.2.1]
  | [a] => by
      have hv := group_lt a 0 0
      rw [UInt8.toNat_zero, add_zero, zero_mul, add_zero] at hv
      have hd := b64_digits_of_mod4096 (show a.toNat * 65536 % 4096 = 0 by omega)
      simp only [base64Encode, b64Quad, List.take, List.cons_append, List.nil_append, decodeQuanta,
        b64Index_b64Char (Nat.div_lt_of_lt_mul (by omega) : a.toNat * 65536 / 262144 < 64),
        b64Index_b64Char_mod, b64Index_padChar, and_self, if_true, hd]
      have hg := groupBytes_bytes a 0 0
      simp only [UInt8.toNat_zero, add_zero, zero_mul, groupBytes, List.cons.injEq] at hg
      rw [hg.1]
  | [] => rfl

theorem base64Decode_base64Encode (bs : Bytes) : base64Decode (base64Encode bs) = some bs := by
  unfold base64Decode
  rw [List.filter_eq_self.mpr fun c hc => ?_, decodeQuanta_base64Encode]
  obtain ⟨h1, h2⟩ := graphic_of_mem_base64Encode hc
  have h3 : c ≠ 0x0D := fun e => absurd (e ▸ h1) (by decide)
  have h4 : c ≠ 0x0A := fun e => absurd (e ▸ h1) (by decide)
  simp [h3, h4]

/-! ## `time.RFC3339Nano` -/

/-- Days in a month of the Gregorian calendar, as `time.daysIn` counts them. -/
def daysIn (month year : Nat) : Nat :=
  if month = 2 then (if year % 4 = 0 ∧ (year % 100 ≠ 0 ∨ year % 400 = 0) then 29 else 28)
  else if month = 4 ∨ month = 6 ∨ month = 9 ∨ month = 11 then 30 else 31

/-- A UTC instant as `time.Now().UTC()` holds it: a calendar date, a time of
day and nanoseconds, with years inside the four digits RFC 3339 has. -/
structure Time where
  year : Nat
  month : Nat
  day : Nat
  hour : Nat
  minute : Nat
  second : Nat
  nanosecond : Nat
  valid : year < 10000 ∧ 1 ≤ month ∧ month ≤ 12 ∧ 1 ≤ day ∧ day ≤ daysIn month year ∧
    hour < 24 ∧ minute < 60 ∧ second < 60 ∧ nanosecond < 1000000000

/-- `n` in decimal, left-padded with zeros to `width` digits. -/
def padDecimal (width n : Nat) : Bytes :=
  List.replicate (width - (formatUint n).length) (digitByte 0) ++ formatUint n

/-- The fraction `RFC3339Nano` prints: a dot and nine digits less their trailing
zeros, nothing at all for a whole second. -/
def formatNano (ns : Nat) : Bytes :=
  if ns = 0 then [] else 0x2E :: ((padDecimal 9 ns).reverse.dropWhile (· == digitByte 0)).reverse

/-- `t.Format(time.RFC3339Nano)` for a UTC `t`. -/
def formatRFC3339Nano (t : Time) : Bytes :=
  padDecimal 4 t.year ++ ascii "-" ++ padDecimal 2 t.month ++ ascii "-" ++ padDecimal 2 t.day ++
    ascii "T" ++ padDecimal 2 t.hour ++ ascii ":" ++ padDecimal 2 t.minute ++ ascii ":" ++
    padDecimal 2 t.second ++ formatNano t.nanosecond ++ ascii "Z"

theorem graphic_of_mem_formatUint {n : Nat} {b : UInt8} (h : b ∈ formatUint n) : Graphic b := by
  have := mem_formatUint h
  exact ⟨by omega, by omega⟩

theorem graphic_of_mem_padDecimal {w n : Nat} {b : UInt8} (h : b ∈ padDecimal w n) :
    Graphic b := by
  rcases List.mem_append.mp h with h | h
  · rw [List.eq_of_mem_replicate h]; decide
  · exact graphic_of_mem_formatUint h

theorem graphic_of_mem_formatNano {ns : Nat} {b : UInt8} (h : b ∈ formatNano ns) :
    Graphic b := by
  unfold formatNano at h
  split at h
  · simp at h
  · rcases List.mem_cons.mp h with rfl | h
    · decide
    · exact graphic_of_mem_padDecimal
        (List.mem_reverse.mp ((List.dropWhile_sublist _).subset (List.mem_reverse.mp h)))

theorem graphic_of_mem_formatRFC3339Nano (t : Time) : ∀ b ∈ formatRFC3339Nano t, Graphic b := by
  simp only [formatRFC3339Nano, List.forall_mem_append, and_assoc]
  exact ⟨fun _ => graphic_of_mem_padDecimal, by decide, fun _ => graphic_of_mem_padDecimal,
    by decide, fun _ => graphic_of_mem_padDecimal, by decide, fun _ => graphic_of_mem_padDecimal,
    by decide, fun _ => graphic_of_mem_padDecimal, by decide, fun _ => graphic_of_mem_padDecimal,
    fun _ => graphic_of_mem_formatNano, by decide⟩


/-! ## The order of formatted instants

Every field up to the seconds is printed with a fixed width, so up to the
seconds `bytesLt` on the texts compares the fields in turn, as numbers. -/

/-- `n` in exactly `width` decimal digits, its low ones. -/
def fixedDigits : Nat → Nat → Bytes
  | 0, _ => []
  | w + 1, n => fixedDigits w (n / 10) ++ [digitByte (n % 10)]

theorem length_fixedDigits : ∀ w n, (fixedDigits w n).length = w
  | 0, _ => rfl
  | w + 1, n => by simp [fixedDigits, length_fixedDigits w]

theorem fixedDigits_zero : ∀ w, fixedDigits w 0 = List.replicate w (digitByte 0)
  | 0 => rfl
  | w + 1 => by rw [fixedDigits, Nat.zero_div, fixedDigits_zero w, List.replicate_succ']

theorem formatUint_of_lt_ten {n : Nat} (h : n < 10) : formatUint n = [digitByte n] := by
  rw [formatUint, formatUintAux, if_pos h]

theorem formatUint_of_ten_le {n : Nat} (h : 10 ≤ n) :
    formatUint n = formatUint (n / 10) ++ [digitByte (n % 10)] := by
  rw [formatUint_eq, formatUint_eq, if_neg (by omega), if_neg (by omega),
    Nat.digits_def' (by norm_num) (by omega)]
  simp

theorem div_ten_lt_pow {w n : Nat} (h : n < 10 ^ (w + 1)) : n / 10 < 10 ^ w :=
  (Nat.div_lt_iff_lt_mul (by norm_num)).mpr (by rwa [← pow_succ])

/-- Below `10 ^ width`, zero padding prints exactly the `width` digits. -/
theorem padDecimal_eq_fixedDigits : ∀ {w n : Nat}, 0 < w → n < 10 ^ w →
    padDecimal w n = fixedDigits w n
  | w + 1, n, _, h => by
    by_cases h10 : n < 10
    · rw [padDecimal, formatUint_of_lt_ten h10, fixedDigits, Nat.div_eq_of_lt h10,
        fixedDigits_zero, Nat.mod_eq_of_lt h10]
      simp
    · have hw : 0 < w := Nat.pos_of_ne_zero fun e => h10 (by simpa [e] using h)
      rw [padDecimal, formatUint_of_ten_le (by omega), fixedDigits,
        ← padDecimal_eq_fixedDigits hw (div_ten_lt_pow h), padDecimal]
      simp

theorem fixedDigits_injOn : ∀ {w a b : Nat}, a < 10 ^ w → b < 10 ^ w →
    fixedDigits w a = fixedDigits w b → a = b
  | 0, a, b, ha, hb, _ => by simp at ha hb; omega
  | w + 1, a, b, ha, hb, h => by
    obtain ⟨hhigh, hlow⟩ := List.append_inj h (by rw [length_fixedDigits, length_fixedDigits])
    have := fixedDigits_injOn (div_ten_lt_pow ha) (div_ten_lt_pow hb) hhigh
    have := digitByte_injOn (Nat.mod_lt a (by norm_num)) (Nat.mod_lt b (by norm_num))
      (List.singleton_inj.mp hlow)
    omega

/-- On numbers of `width` digits, the text order is the numeric order. -/
theorem bytesLt_fixedDigits : ∀ {w a b : Nat}, a < 10 ^ w → b < 10 ^ w →
    (bytesLt (fixedDigits w a) (fixedDigits w b) = true ↔ a < b)
  | 0, a, b, ha, hb => by simp at ha hb; simp [ha, hb, fixedDigits, bytesLt]
  | w + 1, a, b, ha, hb => by
    rw [fixedDigits, fixedDigits, bytesLt_append_of_length_eq _ _
      (by rw [length_fixedDigits, length_fixedDigits])]
    by_cases e : a / 10 = b / 10
    · rw [e, if_pos rfl]
      simp only [bytesLt, Bool.and_false, Bool.or_false, decide_eq_true_eq,
        digitByte_lt_iff (Nat.mod_lt a (by norm_num)) (Nat.mod_lt b (by norm_num))]
      omega
    · rw [if_neg fun h => e (fixedDigits_injOn (div_ten_lt_pow ha) (div_ten_lt_pow hb) h),
        bytesLt_fixedDigits (div_ten_lt_pow ha) (div_ten_lt_pow hb)]
      omega

/-- A padded field decides the comparison of what it starts unless the two
numbers are equal. -/
theorem bytesLt_padDecimal_append {w a b : Nat} (x y : Bytes) (hw : 0 < w) (ha : a < 10 ^ w)
    (hb : b < 10 ^ w) :
    bytesLt (padDecimal w a ++ x) (padDecimal w b ++ y) = true ↔
      a < b ∨ a = b ∧ bytesLt x y = true := by
  rw [padDecimal_eq_fixedDigits hw ha, padDecimal_eq_fixedDigits hw hb,
    bytesLt_append_of_length_eq x y (by rw [length_fixedDigits, length_fixedDigits])]
  by_cases e : a = b
  · subst e
    simp
  · rw [if_neg fun h => e (fixedDigits_injOn ha hb h), bytesLt_fixedDigits ha hb]
    simp [e]

/-- One field of a lexicographic comparison of numbers, read off the texts. -/
theorem bytesLt_padDecimal_of_cons_lt {w a b : Nat} {as bs : List Nat} {x y : Bytes}
    (hw : 0 < w) (ha : a < 10 ^ w) (hb : b < 10 ^ w) (h : a :: as < b :: bs)
    (hrest : as < bs → bytesLt x y = true) :
    bytesLt (padDecimal w a ++ x) (padDecimal w b ++ y) = true := by
  rw [bytesLt_padDecimal_append x y hw ha hb]
  cases h with
  | rel h => exact .inl h
  | cons h => exact .inr ⟨rfl, hrest h⟩

theorem daysIn_le (month year : Nat) : daysIn month year ≤ 31 := by
  unfold daysIn
  split_ifs <;> omega

/-- An instant in an earlier second formats to an earlier text. -/
theorem bytesLt_formatRFC3339Nano {t u : Time}
    (h : [t.year, t.month, t.day, t.hour, t.minute, t.second] <
      [u.year, u.month, u.day, u.hour, u.minute, u.second]) :
    bytesLt (formatRFC3339Nano t) (formatRFC3339Nano u) = true := by
  have ht := t.valid
  have hu := u.valid
  have hdt := daysIn_le t.month t.year
  have hdu := daysIn_le u.month u.year
  simp only [formatRFC3339Nano, List.append_assoc]
  refine bytesLt_padDecimal_of_cons_lt (by norm_num) (by omega) (by omega) h fun h => ?_
  rw [bytesLt_append_left]
  refine bytesLt_padDecimal_of_cons_lt (by norm_num) (by omega) (by omega) h fun h => ?_
  rw [bytesLt_append_left]
  refine bytesLt_padDecimal_of_cons_lt (by norm_num) (by omega) (by omega) h fun h => ?_
  rw [bytesLt_append_left]
  refine bytesLt_padDecimal_of_cons_lt (by norm_num) (by omega) (by omega) h fun h => ?_
  rw [bytesLt_append_left]
  refine bytesLt_padDecimal_of_cons_lt (by norm_num) (by omega) (by omega) h fun h => ?_
  rw [bytesLt_append_left]
  exact bytesLt_padDecimal_of_cons_lt (by norm_num) (by omega) (by omega) h nofun

end Dqrvcs
