/-
# `Dqrvcs.Bytes` — Go strings as byte sequences

A Go `string` is an immutable byte sequence with no promise of UTF-8, and the
gossip package never asks for one: `Operation.Type` is whatever the command
line gave.  Every string of the program is therefore a `Bytes` here, a list of
`UInt8`, and what the package takes from `strings`, `strconv`/`fmt` and
`encoding/hex` is written out over bytes:

* `bytesLt` — Go's `<` on strings, bytewise lexicographic;
* `formatUint` — `fmt.Sprintf("%d", n)` for an unsigned `n`;
* `hexEncode` — `hex.EncodeToString`, lowercase;
* `trimSpace` — `strings.TrimSpace`, which strips Unicode white space.

## `strings.TrimSpace`

Go trims the left end by decoding runes forwards and the right end by decoding
them backwards (`utf8.DecodeLastRune`).  A rune `unicode.IsSpace` accepts is one
of the twenty-five byte sequences of `spaceRunes`, all valid UTF-8.  Valid
UTF-8 is prefix-free, and a valid sequence is never a proper suffix of another
(its first byte is not a continuation byte), so both decodings see a space rune
exactly when the string starts, resp. ends, with one of these sequences.  The
model strips them in that form; `trimSpace_trimSpace` follows in a few lines.
-/
import Mathlib.Data.List.Sort
import Mathlib.Data.List.Infix
import Mathlib.Data.Nat.Digits

namespace Dqrvcs

/-- A Go `string` or `[]byte`. -/
abbrev Bytes := List UInt8

/-- An ASCII Go string literal, as its bytes. -/
def ascii (s : String) : Bytes := s.toList.map fun c => c.toNat.toUInt8

theorem toUInt8_toNat (a : UInt8) : a.toNat.toUInt8 = a :=
  UInt8.toNat.inj (UInt8.toNat_ofNat_of_lt a.toNat_lt_size)

theorem toUInt8_of_eq_toNat {n : Nat} {a : UInt8} (h : n = a.toNat) : n.toUInt8 = a :=
  h ▸ toUInt8_toNat a

/-- `Except` has no decidable equality; a success is decided through
`toOption`. -/
theorem eq_ok_of_toOption {ε α : Type} {e : Except ε α} {a : α} (h : e.toOption = some a) :
    e = .ok a := by
  cases e <;> simp_all [Except.toOption]

/-! ## Go's order on strings -/

/-- `a < b` on Go strings: bytewise lexicographic, a proper prefix first. -/
def bytesLt : Bytes → Bytes → Bool
  | [], [] => false
  | [], _ :: _ => true
  | _ :: _, [] => false
  | a :: as, b :: bs => decide (a < b) || (a == b && bytesLt as bs)

theorem bytesLt_irrefl : ∀ a : Bytes, bytesLt a a = false
  | [] => rfl
  | a :: as => by simp [bytesLt, bytesLt_irrefl as]

theorem bytesLt_trans : ∀ {a b c : Bytes}, bytesLt a b → bytesLt b c → bytesLt a c
  | [], _ :: _, _ :: _, _, _ => rfl
  | a :: as, b :: bs, c :: cs, hab, hbc => by
      simp only [bytesLt, Bool.or_eq_true, decide_eq_true_eq, Bool.and_eq_true, beq_iff_eq]
        at hab hbc ⊢
      rcases hab with hab | ⟨rfl, hab⟩ <;> rcases hbc with hbc | ⟨rfl, hbc⟩
      · exact .inl (UInt8.lt_trans hab hbc)
      · exact .inl hab
      · exact .inl hbc
      · exact .inr ⟨rfl, bytesLt_trans hab hbc⟩
  | [], [], _, h, _ => by simp [bytesLt] at h
  | _ :: _, [], _, h, _ => by simp [bytesLt] at h
  | _, _ :: _, [], _, h => by simp [bytesLt] at h

theorem bytesLt_asymm {a b : Bytes} (h : bytesLt a b) : bytesLt b a = false := by
  cases hba : bytesLt b a
  · rfl
  · simpa [bytesLt_irrefl] using bytesLt_trans h hba

theorem bytesLt_total : ∀ {a b : Bytes}, a ≠ b → bytesLt a b ∨ bytesLt b a
  | [], [], h => absurd rfl h
  | [], _ :: _, _ => .inl rfl
  | _ :: _, [], _ => .inr rfl
  | a :: as, b :: bs, h => by
      simp only [bytesLt, Bool.or_eq_true, decide_eq_true_eq, Bool.and_eq_true, beq_iff_eq]
      by_cases hab : a = b
      · subst hab
        have hne : as ≠ bs := fun e => h (by rw [e])
        rcases bytesLt_total hne with h' | h'
        · exact .inl (.inr ⟨rfl, h'⟩)
        · exact .inr (.inr ⟨rfl, h'⟩)
      · rcases UInt8.le_total a b with h' | h'
        · exact .inl (.inl (lt_of_le_of_ne' h' hab))
        · exact .inr (.inl (lt_of_le_of_ne' h' (Ne.symm hab)))
where
  lt_of_le_of_ne' {x y : UInt8} (hle : x ≤ y) (hne : x ≠ y) : x < y := by
    rcases Nat.lt_or_eq_of_le (show x.toNat ≤ y.toNat from hle) with h | h
    · exact h
    · exact absurd (UInt8.toNat.inj h) hne

theorem bytesLt_append_left : ∀ (s x y : Bytes), bytesLt (s ++ x) (s ++ y) = bytesLt x y
  | [], _, _ => rfl
  | a :: s, x, y => by simp [bytesLt, bytesLt_append_left s x y]

/-- Prefixes of one length decide the comparison unless they are equal. -/
theorem bytesLt_append_of_length_eq : ∀ {a b : Bytes} (x y : Bytes), a.length = b.length →
    bytesLt (a ++ x) (b ++ y) = if a = b then bytesLt x y else bytesLt a b
  | [], [], _, _, _ => rfl
  | c :: a, d :: b, x, y, h => by
    have ih := bytesLt_append_of_length_eq x y (show a.length = b.length by simpa using h)
    by_cases hcd : c = d
    · subst hcd
      by_cases hab : a = b
      · subst hab
        rw [if_pos rfl, bytesLt_append_left]
      · simp [bytesLt, ih, hab]
    · have hcd' : (c == d) = false := beq_false_of_ne hcd
      simp [bytesLt, hcd, hcd']

/-! ## Decimal and hexadecimal -/

/-- The ASCII digit of `d < 10`. -/
def digitByte (d : Nat) : UInt8 := (48 + d).toUInt8

/-- The loop of `strconv.FormatUint` in base 10: the digits of `n`, the least
significant found first, put before `acc`.  `fuel` bounds the divisions. -/
def formatUintAux : Nat → Nat → Bytes → Bytes
  | 0, _, acc => acc
  | fuel + 1, n, acc =>
    if n < 10 then digitByte n :: acc else formatUintAux fuel (n / 10) (digitByte (n % 10) :: acc)

/-- `fmt.Sprintf("%d", n)` for an unsigned `n`: its decimal digits, most
significant first.  `n + 1` divisions are more than `n` has digits. -/
def formatUint (n : Nat) : Bytes := formatUintAux (n + 1) n []

theorem formatUintAux_eq : ∀ (fuel n : Nat) (acc : Bytes), 0 < n → n < fuel →
    formatUintAux fuel n acc = ((Nat.digits 10 n).map digitByte).reverse ++ acc
  | 0, _, _, _, h => absurd h (Nat.not_lt_zero _)
  | fuel + 1, n, acc, hpos, h => by
    rw [formatUintAux]
    split_ifs with h10
    · rw [Nat.digits_of_lt 10 n (by omega) h10]
      rfl
    · rw [formatUintAux_eq fuel (n / 10) _ (by omega) (by omega),
        Nat.digits_def' (by norm_num) hpos]
      simp

/-- `formatUint` spelled with Mathlib's digits. -/
theorem formatUint_eq (n : Nat) :
    formatUint n = if n = 0 then [digitByte 0] else ((Nat.digits 10 n).map digitByte).reverse := by
  split_ifs with h
  · subst h
    rfl
  · rw [formatUint, formatUintAux_eq _ _ _ (Nat.pos_of_ne_zero h) (Nat.lt_succ_self n),
      List.append_nil]

theorem digitByte_toNat {d : Nat} (h : d < 10) : (digitByte d).toNat = 48 + d :=
  UInt8.toNat_ofNat_of_lt (by unfold UInt8.size; omega)

theorem digitByte_injOn {d e : Nat} (hd : d < 10) (he : e < 10)
    (h : digitByte d = digitByte e) : d = e := by
  have := congrArg UInt8.toNat h
  rw [digitByte_toNat hd, digitByte_toNat he] at this
  omega

theorem digitByte_lt_iff {d e : Nat} (hd : d < 10) (he : e < 10) :
    digitByte d < digitByte e ↔ d < e := by
  show (digitByte d).toNat < (digitByte e).toNat ↔ d < e
  rw [digitByte_toNat hd, digitByte_toNat he]
  omega

theorem mem_formatUint {n : Nat} {b : UInt8} (h : b ∈ formatUint n) :
    48 ≤ b.toNat ∧ b.toNat < 58 := by
  rw [formatUint_eq] at h
  split at h
  · simp only [List.mem_singleton] at h
    subst h
    simp [digitByte_toNat]
  · simp only [List.mem_reverse, List.mem_map] at h
    obtain ⟨d, hd, rfl⟩ := h
    have := Nat.digits_lt_base (by norm_num) hd
    rw [digitByte_toNat this]
    omega

/-- Decimal digits read back, most significant first: what `strconv.ParseUint`
makes of `formatUint`'s output. -/
def digitsValue (bs : Bytes) : Nat := bs.foldl (fun v b => 10 * v + (b.toNat - 48)) 0

theorem digitsValue_formatUint (n : Nat) : digitsValue (formatUint n) = n := by
  rw [formatUint_eq]
  unfold digitsValue
  split
  · subst_vars
    simp [digitByte_toNat]
  · rw [List.foldl_reverse, List.foldr_map]
    have fold : ∀ L : List Nat, (∀ d ∈ L, d < 10) →
        L.foldr (fun d v => 10 * v + ((digitByte d).toNat - 48)) 0 = Nat.ofDigits 10 L := by
      intro L hL
      induction L with
      | nil => rfl
      | cons d L ih =>
          simp only [List.mem_cons, forall_eq_or_imp] at hL
          simp only [List.foldr_cons, ih hL.2, digitByte_toNat hL.1, Nat.ofDigits_cons]
          omega
    rw [fold _ fun d hd => Nat.digits_lt_base (by norm_num) hd, Nat.ofDigits_digits]

theorem formatUint_injective : Function.Injective formatUint := fun a b h => by
  simpa [digitsValue_formatUint] using congrArg digitsValue h

/-- Case folding of one ASCII byte: an uppercase letter to its lowercase. -/
def foldByte (b : UInt8) : UInt8 := if 0x41 ≤ b ∧ b ≤ 0x5A then b + 0x20 else b

/-- The lowercase hex digit of `d < 16`. -/
def hexDigit (d : Nat) : UInt8 := if d < 10 then (48 + d).toUInt8 else (87 + d).toUInt8

/-- `hex.EncodeToString`: two lowercase digits a byte, high nibble first. -/
def hexEncode : Bytes → Bytes
  | [] => []
  | b :: bs => hexDigit (b.toNat / 16) :: hexDigit (b.toNat % 16) :: hexEncode bs

/-- A printable, non-space ASCII byte (`!` to `~`). -/
def Graphic (b : UInt8) : Prop := 0x21 ≤ b.toNat ∧ b.toNat ≤ 0x7E

instance (b : UInt8) : Decidable (Graphic b) := inferInstanceAs (Decidable (_ ∧ _))

theorem graphic_hexDigit {d : Nat} (h : d < 16) : Graphic (hexDigit d) := by
  unfold Graphic hexDigit
  split <;> rw [UInt8.toNat_ofNat_of_lt (by unfold UInt8.size; omega)] <;> omega

theorem graphic_of_mem_hexEncode : ∀ {bs : Bytes} {b : UInt8}, b ∈ hexEncode bs → Graphic b
  | c :: cs, b, h => by
      simp only [hexEncode, List.mem_cons] at h
      rcases h with rfl | rfl | h
      · exact graphic_hexDigit (Nat.div_lt_of_lt_mul (by simpa using c.toNat_lt_size))
      · exact graphic_hexDigit (Nat.mod_lt _ (by norm_num))
      · exact graphic_of_mem_hexEncode h

@[simp] theorem length_hexEncode : ∀ bs : Bytes, (hexEncode bs).length = 2 * bs.length
  | [] => rfl
  | _ :: bs => by simp [hexEncode, length_hexEncode bs]; omega

/-! ## `strings.TrimSpace`

A space rune is stripped while one stands at the end being trimmed.  Each
strip shortens the string, so the string's length bounds the rounds
(`trimLeftSpaceAux`, `trimRightSpaceAux` take it as fuel). -/

/-- The UTF-8 encodings of the runes `unicode.IsSpace` reports: the six ASCII
spaces, U+0085 and U+00A0, and the `White_Space` runes above Latin-1. -/
def spaceRunes : List Bytes :=
  [[0x09], [0x0A], [0x0B], [0x0C], [0x0D], [0x20], [0xC2, 0x85], [0xC2, 0xA0],
    [0xE1, 0x9A, 0x80], [0xE2, 0x80, 0x80], [0xE2, 0x80, 0x81], [0xE2, 0x80, 0x82],
    [0xE2, 0x80, 0x83], [0xE2, 0x80, 0x84], [0xE2, 0x80, 0x85], [0xE2, 0x80, 0x86],
    [0xE2, 0x80, 0x87], [0xE2, 0x80, 0x88], [0xE2, 0x80, 0x89], [0xE2, 0x80, 0x8A],
    [0xE2, 0x80, 0xA8], [0xE2, 0x80, 0xA9], [0xE2, 0x80, 0xAF], [0xE2, 0x81, 0x9F],
    [0xE3, 0x80, 0x80]]

/-- The width of the space rune `s` starts with, or `0`. -/
def leadingSpace (s : Bytes) : Nat :=
  ((spaceRunes.find? fun r => decide (r <+: s)).map List.length).getD 0

/-- The width of the space rune `s` ends with, or `0`. -/
def trailingSpace (s : Bytes) : Nat :=
  ((spaceRunes.find? fun r => decide (r <:+ s)).map List.length).getD 0

def trimLeftSpaceAux : Nat → Bytes → Bytes
  | 0, s => s
  | n + 1, s => if leadingSpace s = 0 then s else trimLeftSpaceAux n (s.drop (leadingSpace s))

def trimRightSpaceAux : Nat → Bytes → Bytes
  | 0, s => s
  | n + 1, s =>
      if trailingSpace s = 0 then s
      else trimRightSpaceAux n (s.take (s.length - trailingSpace s))

/-- `strings.TrimLeftFunc(s, unicode.IsSpace)`. -/
def trimLeftSpace (s : Bytes) : Bytes := trimLeftSpaceAux s.length s

/-- `strings.TrimRightFunc(s, unicode.IsSpace)`. -/
def trimRightSpace (s : Bytes) : Bytes := trimRightSpaceAux s.length s

/-- `strings.TrimSpace`. -/
def trimSpace (s : Bytes) : Bytes := trimRightSpace (trimLeftSpace s)

theorem spaceRunes_ne_nil : ∀ r ∈ spaceRunes, r ≠ [] := by decide

/-- A space rune starts with an ASCII space or a byte above `0x7F`, and ends
with one. -/
theorem spaceRunes_ends : ∀ r ∈ spaceRunes,
    (∀ b ∈ r.head?, ¬ Graphic b) ∧ ∀ b ∈ r.reverse.head?, ¬ Graphic b := by
  decide

theorem leadingSpace_eq_zero {s : Bytes} :
    leadingSpace s = 0 ↔ ∀ r ∈ spaceRunes, ¬ r <+: s := by
  unfold leadingSpace
  cases h : spaceRunes.find? fun r => decide (r <+: s) with
  | none => simpa using List.find?_eq_none.mp h
  | some r =>
      have hr := List.mem_of_find?_eq_some h
      have hp := List.find?_some h
      simp only [decide_eq_true_eq] at hp
      simp only [Option.map_some', Option.getD_some]
      exact ⟨fun h0 => absurd (List.eq_nil_of_length_eq_zero h0) (spaceRunes_ne_nil r hr),
        fun hall => absurd hp (hall r hr)⟩

theorem trailingSpace_eq_zero {s : Bytes} :
    trailingSpace s = 0 ↔ ∀ r ∈ spaceRunes, ¬ r <:+ s := by
  unfold trailingSpace
  cases h : spaceRunes.find? fun r => decide (r <:+ s) with
  | none => simpa using List.find?_eq_none.mp h
  | some r =>
      have hr := List.mem_of_find?_eq_some h
      have hp := List.find?_some h
      simp only [decide_eq_true_eq] at hp
      simp only [Option.map_some', Option.getD_some]
      exact ⟨fun h0 => absurd (List.eq_nil_of_length_eq_zero h0) (spaceRunes_ne_nil r hr),
        fun hall => absurd hp (hall r hr)⟩

theorem leadingSpace_le (s : Bytes) : leadingSpace s ≤ s.length := by
  unfold leadingSpace
  cases h : spaceRunes.find? fun r => decide (r <+: s) with
  | none => simp
  | some r =>
      have hp := List.find?_some h
      simp only [decide_eq_true_eq] at hp
      simpa using hp.length_le

theorem trailingSpace_le (s : Bytes) : trailingSpace s ≤ s.length := by
  unfold trailingSpace
  cases h : spaceRunes.find? fun r => decide (r <:+ s) with
  | none => simp
  | some r =>
      have hp := List.find?_some h
      simp only [decide_eq_true_eq] at hp
      simpa using hp.length_le

theorem trimLeftSpaceAux_of_leadingSpace {s : Bytes} (h : leadingSpace s = 0) :
    ∀ n, trimLeftSpaceAux n s = s
  | 0 => rfl
  | _ + 1 => by simp [trimLeftSpaceAux, h]

theorem trimRightSpaceAux_of_trailingSpace {s : Bytes} (h : trailingSpace s = 0) :
    ∀ n, trimRightSpaceAux n s = s
  | 0 => rfl
  | _ + 1 => by simp [trimRightSpaceAux, h]

theorem leadingSpace_trimLeftSpaceAux :
    ∀ (n : Nat) (s : Bytes), s.length ≤ n → leadingSpace (trimLeftSpaceAux n s) = 0
  | 0, s, h => by
      rw [List.length_eq_zero.mp (Nat.le_zero.mp h)]
      exact leadingSpace_eq_zero.mpr fun r hr hp =>
        spaceRunes_ne_nil r hr (List.prefix_nil.mp hp)
  | n + 1, s, h => by
      unfold trimLeftSpaceAux
      split
      · assumption
      · exact leadingSpace_trimLeftSpaceAux n _ (by simp; omega)

theorem trailingSpace_trimRightSpaceAux :
    ∀ (n : Nat) (s : Bytes), s.length ≤ n → trailingSpace (trimRightSpaceAux n s) = 0
  | 0, s, h => by
      rw [List.length_eq_zero.mp (Nat.le_zero.mp h)]
      exact trailingSpace_eq_zero.mpr fun r hr hp =>
        spaceRunes_ne_nil r hr (List.suffix_nil.mp hp)
  | n + 1, s, h => by
      unfold trimRightSpaceAux
      split
      · assumption
      · exact trailingSpace_trimRightSpaceAux n _ (by simp; omega)

theorem trimRightSpaceAux_isPrefix : ∀ (n : Nat) (s : Bytes), trimRightSpaceAux n s <+: s
  | 0, _ => List.prefix_refl _
  | n + 1, s => by
      unfold trimRightSpaceAux
      split
      · exact List.prefix_refl _
      · exact (trimRightSpaceAux_isPrefix n _).trans (List.take_prefix _ _)

theorem trimLeftSpace_trimRightSpace {u : Bytes} (h : leadingSpace u = 0) :
    trimLeftSpace (trimRightSpace u) = trimRightSpace u :=
  trimLeftSpaceAux_of_leadingSpace (leadingSpace_eq_zero.mpr fun r hr hp =>
    leadingSpace_eq_zero.mp h r hr (hp.trans (trimRightSpaceAux_isPrefix _ _))) _

theorem trimSpace_trimSpace (s : Bytes) : trimSpace (trimSpace s) = trimSpace s := by
  have hl : leadingSpace (trimLeftSpace s) = 0 := leadingSpace_trimLeftSpaceAux _ s le_rfl
  unfold trimSpace
  rw [trimLeftSpace_trimRightSpace hl]
  exact trimRightSpaceAux_of_trailingSpace
    (trailingSpace_trimRightSpaceAux _ _ le_rfl) _

/-- A string that starts and ends with a printable, non-space ASCII byte is
left as it is: every space rune starts and ends with another byte. -/
theorem trimSpace_of_ends {s : Bytes} (h₁ : ∀ b ∈ s.head?, Graphic b)
    (h₂ : ∀ b ∈ s.reverse.head?, Graphic b) : trimSpace s = s := by
  have head : ∀ r t : Bytes, r ≠ [] → (∀ b ∈ t.head?, Graphic b) →
      (∀ b ∈ r.head?, ¬ Graphic b) → ¬ r <+: t := fun r t hr ht hn hp => by
    obtain ⟨b, r', rfl⟩ := List.exists_cons_of_ne_nil hr
    obtain ⟨u, rfl⟩ := hp
    exact hn b rfl (ht b rfl)
  have hl : leadingSpace s = 0 := leadingSpace_eq_zero.mpr fun r hr =>
    head r s (spaceRunes_ne_nil r hr) h₁ (spaceRunes_ends r hr).1
  have hr : trailingSpace s = 0 := trailingSpace_eq_zero.mpr fun r hr hp =>
    head r.reverse s.reverse (by simpa using spaceRunes_ne_nil r hr) h₂
      (spaceRunes_ends r hr).2 (List.reverse_prefix.mpr hp)
  unfold trimSpace trimLeftSpace trimRightSpace
  rw [trimLeftSpaceAux_of_leadingSpace hl, trimRightSpaceAux_of_trailingSpace hr]

theorem trimSpace_of_graphic {s : Bytes} (h : ∀ b ∈ s, Graphic b) : trimSpace s = s :=
  trimSpace_of_ends (fun b hb => h b (List.mem_of_mem_head? hb))
    fun b hb => h b (List.mem_reverse.mp (List.mem_of_mem_head? hb))

theorem leadingSpace_spec {s : Bytes} (h : leadingSpace s ≠ 0) :
    ∃ r ∈ spaceRunes, ∃ t, s = r ++ t ∧ leadingSpace s = r.length := by
  unfold leadingSpace at h ⊢
  cases hf : spaceRunes.find? fun r => decide (r <+: s) with
  | none => simp [hf] at h
  | some r =>
    have hp := List.find?_some hf
    simp only [decide_eq_true_eq] at hp
    obtain ⟨t, rfl⟩ := hp
    exact ⟨r, List.mem_of_find?_eq_some hf, t, rfl, rfl⟩

theorem trailingSpace_spec {s : Bytes} (h : trailingSpace s ≠ 0) :
    ∃ r ∈ spaceRunes, ∃ t, s = t ++ r ∧ trailingSpace s = r.length := by
  unfold trailingSpace at h ⊢
  cases hf : spaceRunes.find? fun r => decide (r <:+ s) with
  | none => simp [hf] at h
  | some r =>
    have hp := List.find?_some hf
    simp only [decide_eq_true_eq] at hp
    obtain ⟨t, rfl⟩ := hp
    exact ⟨r, List.mem_of_find?_eq_some hf, t, rfl, rfl⟩

section TrimSpaceInduction

variable {P : Bytes → Prop} (left : ∀ r ∈ spaceRunes, ∀ t, P (r ++ t) → P t)
  (right : ∀ r ∈ spaceRunes, ∀ t, P (t ++ r) → P t)
include left right

/-- A property that survives the removal of a space rune at either end
survives `strings.TrimSpace`. -/
theorem trimSpace_induction {s : Bytes} (h : P s) : P (trimSpace s) := by
  have hl : ∀ n s, P s → P (trimLeftSpaceAux n s) := fun n => by
    induction n with
    | zero => exact fun _ h => h
    | succ n ih =>
      intro s h
      unfold trimLeftSpaceAux
      split
      · exact h
      · next h₀ =>
        obtain ⟨r, hr, t, rfl, e⟩ := leadingSpace_spec h₀
        rw [e, List.drop_left]
        exact ih t (left r hr t h)
  have hr : ∀ n s, P s → P (trimRightSpaceAux n s) := fun n => by
    induction n with
    | zero => exact fun _ h => h
    | succ n ih =>
      intro s h
      unfold trimRightSpaceAux
      split
      · exact h
      · next h₀ =>
        obtain ⟨r, hr, t, rfl, e⟩ := trailingSpace_spec h₀
        rw [e, List.length_append, Nat.add_sub_cancel, List.take_left]
        exact ih t (right r hr t h)
  exact hr _ _ (hl _ _ h)

end TrimSpaceInduction

theorem mem_trimSpace {b : UInt8} (hb : ∀ r ∈ spaceRunes, b ∉ r) {s : Bytes} (h : b ∈ s) :
    b ∈ trimSpace s :=
  trimSpace_induction (P := (b ∈ ·))
    (fun r hr _ h => (List.mem_append.mp h).resolve_left (hb r hr))
    (fun r hr _ h => (List.mem_append.mp h).resolve_right (hb r hr)) h

end Dqrvcs
