/-
# `Dqrvcs.Stdlib` — the primitives the model leaves abstract

SHA-256, Ed25519, `json.Valid`/`json.Compact` and `time.Parse` are not
written out.  The model takes them as the fields of one record, `Stdlib`, and
every theorem of the development holds for every value of it.  The record
carries the laws the gossip package relies on, each a fact about Go's
standard library:

* digests are 32 bytes, public keys 32, signatures 64;
* `ed25519.Verify` accepts what `ed25519.Sign` produced with the matching key
  (a private key is the 32-byte seed followed by its public key);
* `{}` is valid JSON and compacts to itself, empty input is not valid JSON,
  and compaction keeps validity, is idempotent and writes no newline;
* `time.Parse(time.RFC3339Nano, ·)` accepts what `Format` produced and only
  ASCII text.

`url.Parse` and `URL.String` are fields too, with no law: nothing proved
depends on how a peer address is spelled.

Nothing is assumed about collisions or forgeries.  `Stdlib.degenerate`, a
constant hash and a verifier that accepts everything, satisfies every law:
the laws are consistent, and a theorem proved for all `Stdlib` is proved for
that one too.  `Stdlib.separating` is lawful as well and tells operations
apart: its hash reads the whole input, so the concrete runs taken on it below
hold operations with distinct IDs.
-/
import Dqrvcs.Codec

namespace Dqrvcs

/-- The `{}` an empty payload stands for. -/
def emptyObject : Bytes := ascii "\x7b\x7d"

/-- A parsed `url.URL`: the fields `normalizePeer` reads, and the rest
(user information, opaque part, raw path) in one field it passes through. -/
structure URL where
  scheme : Bytes
  host : Bytes
  path : Bytes
  rawQuery : Bytes
  fragment : Bytes
  other : Bytes
deriving DecidableEq, Repr

/-- The standard library primitives of the gossip package, with their laws. -/
structure Stdlib where
  /-- `sha256.Sum256`. -/
  sha256 : Bytes → Bytes
  sha256_length : ∀ b, (sha256 b).length = 32
  /-- The public key `ed25519.NewKeyFromSeed` derives from a 32-byte seed. -/
  publicOfSeed : Bytes → Bytes
  publicOfSeed_length : ∀ seed, (publicOfSeed seed).length = 32
  /-- `ed25519.Sign(priv, message)`. -/
  sign : Bytes → Bytes → Bytes
  sign_length : ∀ priv m, (sign priv m).length = 64
  /-- `ed25519.Verify(pub, message, sig)`. -/
  verify : Bytes → Bytes → Bytes → Bool
  verify_sign : ∀ seed m, seed.length = 32 →
    verify (publicOfSeed seed) m (sign (seed ++ publicOfSeed seed) m) = true
  /-- `json.Valid`. -/
  jsonValid : Bytes → Bool
  /-- What `json.Marshal` writes for an embedded `json.RawMessage`: the
  message compacted, with HTML escaping. -/
  jsonCompact : Bytes → Bytes
  valid_braces : jsonValid emptyObject = true
  valid_nil : jsonValid [] = false
  compact_braces : jsonCompact emptyObject = emptyObject
  valid_compact : ∀ p, jsonValid p = true → jsonValid (jsonCompact p) = true
  compact_compact : ∀ p, jsonValid p = true → jsonCompact (jsonCompact p) = jsonCompact p
  newline_not_mem_compact : ∀ p, jsonValid p = true → (0x0A : UInt8) ∉ jsonCompact p
  /-- `time.Parse(time.RFC3339Nano, s)` returns no error. -/
  parsesRFC3339Nano : Bytes → Bool
  parses_format : ∀ t, parsesRFC3339Nano (formatRFC3339Nano t) = true
  parses_ascii : ∀ s, parsesRFC3339Nano s = true → ∀ b ∈ s, b.toNat < 0x80
  /-- `url.Parse`; `none` is an error. -/
  parseURL : Bytes → Option URL
  /-- `(*url.URL).String`. -/
  urlString : URL → Bytes

/-- A degenerate but lawful library: constant digests and keys, a verifier that
accepts everything, every nonempty input without a newline valid JSON. -/
def Stdlib.degenerate : Stdlib where
  sha256 _ := List.replicate 32 0
  sha256_length _ := List.length_replicate _ _
  publicOfSeed _ := List.replicate 32 0
  publicOfSeed_length _ := List.length_replicate _ _
  sign _ _ := List.replicate 64 0
  sign_length _ _ := List.length_replicate _ _
  verify _ _ _ := true
  verify_sign _ _ _ := rfl
  jsonValid p := !p.isEmpty && !decide ((0x0A : UInt8) ∈ p)
  jsonCompact p := p
  valid_braces := rfl
  valid_nil := rfl
  compact_braces := rfl
  valid_compact _ h := h
  compact_compact _ _ := rfl
  newline_not_mem_compact _ h := by simp_all
  parsesRFC3339Nano s := s.all fun b => b.toNat < 0x80
  parses_format t := List.all_eq_true.mpr fun b hb => by
    have := graphic_of_mem_formatRFC3339Nano t b hb
    exact decide_eq_true (by unfold Graphic at this; omega)
  parses_ascii _ h b hb := of_decide_eq_true (List.all_eq_true.mp h b hb)
  parseURL _ := none
  urlString u := u.host

/-- The first 32 bytes of a seed, padded with zeros. -/
def seedKey (seed : Bytes) : Bytes := (seed ++ List.replicate 32 0).take 32

theorem seedKey_length (seed : Bytes) : (seedKey seed).length = 32 := by simp [seedKey]

/-- A 32-byte digest of the whole input: the input read as a base-257
numeral of digits `b + 1`, modulo `2^256`, in big-endian bytes. -/
def mixDigest (b : Bytes) : Bytes :=
  let n := b.foldl (fun acc x => (acc * 257 + x.toNat + 1) % 2 ^ 256) 0
  (List.range 32).map fun i => UInt8.ofNat (n / 256 ^ (31 - i))

theorem mixDigest_length (b : Bytes) : (mixDigest b).length = 32 := by simp [mixDigest]

/-- A lawful library that tells operations apart: SHA-256 is `mixDigest`, a
public key is its seed's first 32 bytes, a signature is the signer's public
key twice, and `verify` accepts exactly the signature naming the key it is
given. -/
def Stdlib.separating : Stdlib :=
  { Stdlib.degenerate with
    sha256 := mixDigest
    sha256_length := mixDigest_length
    publicOfSeed := seedKey
    publicOfSeed_length := seedKey_length
    sign := fun priv _ => seedKey (priv.take 32) ++ seedKey (priv.take 32)
    sign_length := fun priv _ => by rw [List.length_append, seedKey_length]
    verify := fun pub _ sig => decide (sig = pub ++ pub)
    verify_sign := fun _ _ h => by simp [List.take_left' h] }

theorem Stdlib.compact_ne_nil (lib : Stdlib) {p : Bytes} (h : lib.jsonValid p = true) :
    lib.jsonCompact p ≠ [] := fun e => by
  have := lib.valid_compact p h
  rw [e, lib.valid_nil] at this
  cases this

end Dqrvcs
