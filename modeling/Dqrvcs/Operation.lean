/-
# `Dqrvcs.Operation` — the signed record and its checks

`store.go` lines 30–47 and 322–434: the `Operation` record, the canonical bytes
it is signed over (`canonicalOperationBytes`), its content ID
(`computeOperationID`), signing (`signOperation`), the eleven checks of
`verifyOperation`, and the index key `authorSeqKey`.

`verifyOperation` returns the first check that fails, in the source's order.
`Verified` states all of them at once, as a structure with one field a check,
and `verifyOperation_eq_ok` is the bridge: the rest of the development reads
`Verified` and never unfolds the function.

`verifyOperation_signOperation` is the property the package is built on: an
operation signed with a key pair `generateIdentity` could have produced
passes every check.
-/
import Dqrvcs.Stdlib

namespace Dqrvcs

/-- `Operation`: a signed unit replicated across peers. -/
structure Operation where
  id : Bytes
  type : Bytes
  author : Bytes
  seq : UInt64
  timestamp : Bytes
  payload : Bytes
  publicKey : Bytes
  signature : Bytes
deriving DecidableEq, Repr

/-- `Identity`: the node ID and the base64 keys of `identity.json`. -/
structure Identity where
  nodeID : Bytes
  publicKey : Bytes
  privateKey : Bytes
deriving DecidableEq, Repr

/-- The errors of `verifyOperation` and `canonicalOperationBytes`. -/
inductive VerifyError
  | idRequired
  | typeRequired
  | authorRequired
  | seqZero
  | invalidTimestamp
  | publicKeyEncoding
  | publicKeyLength
  | authorMismatch
  | signatureEncoding
  | signatureLength
  | payloadInvalid
  | badSignature
  | idMismatch
deriving DecidableEq, Repr

/-- The error text the source gives each failure. -/
def VerifyError.message : VerifyError → String
  | .idRequired => "operation ID is required"
  | .typeRequired => "operation type is required"
  | .authorRequired => "operation author is required"
  | .seqZero => "operation sequence must be > 0"
  | .invalidTimestamp => "invalid timestamp"
  | .publicKeyEncoding => "invalid public key encoding"
  | .publicKeyLength => "invalid public key length"
  | .authorMismatch => "operation author does not match public key"
  | .signatureEncoding => "invalid signature encoding"
  | .signatureLength => "invalid signature length"
  | .payloadInvalid => "operation payload must be valid JSON"
  | .badSignature => "invalid signature"
  | .idMismatch => "operation ID does not match content/signature"

variable (lib : Stdlib)

/-- `nodeIDFromPublicKey`: the first 16 bytes of SHA-256 of the key, in hex. -/
def nodeIDFromPublicKey (pub : Bytes) : Bytes := hexEncode ((lib.sha256 pub).take 16)

/-- `canonicalOperationBytes`: the JSON of the signable subset, in this field
order, with an empty payload read as `{}`. -/
def canonicalOperationBytes (op : Operation) : Except VerifyError Bytes :=
  let payload := if op.payload = [] then emptyObject else op.payload
  if lib.jsonValid payload then
    .ok (ascii "\x7b\"type\":" ++ encodeString op.type ++ ascii ",\"author\":" ++
      encodeString op.author ++ ascii ",\"seq\":" ++ formatUint op.seq.toNat ++
      ascii ",\"timestamp\":" ++ encodeString op.timestamp ++ ascii ",\"payload\":" ++
      lib.jsonCompact payload ++ ascii ",\"public_key\":" ++ encodeString op.publicKey ++
      ascii "\x7d")
  else .error .payloadInvalid

/-- `computeOperationID`: SHA-256 of the canonical bytes then the raw
signature, in hex. -/
def computeOperationID (signable signature : Bytes) : Bytes :=
  hexEncode (lib.sha256 (signable ++ signature))

/-- `signOperation`: the base64 signature over the canonical bytes, and the ID. -/
def signOperation (op : Operation) (priv : Bytes) : Except VerifyError (Bytes × Bytes) :=
  match canonicalOperationBytes lib op with
  | .error e => .error e
  | .ok signable =>
      let sig := lib.sign priv signable
      .ok (base64Encode sig, computeOperationID lib signable sig)

/-- `verifyOperation`. -/
def verifyOperation (op : Operation) : Except VerifyError Unit :=
  if trimSpace op.id = [] then .error .idRequired
  else if trimSpace op.type = [] then .error .typeRequired
  else if trimSpace op.author = [] then .error .authorRequired
  else if op.seq = 0 then .error .seqZero
  else if !lib.parsesRFC3339Nano op.timestamp then .error .invalidTimestamp
  else match base64Decode op.publicKey with
    | none => .error .publicKeyEncoding
    | some pub =>
      if pub.length ≠ 32 then .error .publicKeyLength
      else if op.author ≠ nodeIDFromPublicKey lib pub then .error .authorMismatch
      else match base64Decode op.signature with
        | none => .error .signatureEncoding
        | some sig =>
          if sig.length ≠ 64 then .error .signatureLength
          else match canonicalOperationBytes lib op with
            | .error e => .error e
            | .ok signable =>
              if !lib.verify pub signable sig then .error .badSignature
              else if op.id ≠ computeOperationID lib signable sig then .error .idMismatch
              else .ok ()

/-- Every check of `verifyOperation` passes. -/
structure Verified (op : Operation) : Prop where
  id_ne : trimSpace op.id ≠ []
  type_ne : trimSpace op.type ≠ []
  author_ne : trimSpace op.author ≠ []
  seq_ne : op.seq ≠ 0
  timestamp_parses : lib.parsesRFC3339Nano op.timestamp = true
  keys : ∃ pub sig signable, base64Decode op.publicKey = some pub ∧ pub.length = 32 ∧
    op.author = nodeIDFromPublicKey lib pub ∧ base64Decode op.signature = some sig ∧
    sig.length = 64 ∧ canonicalOperationBytes lib op = .ok signable ∧
    lib.verify pub signable sig = true ∧ op.id = computeOperationID lib signable sig

theorem ite_error_eq_ok {ε α : Type} {c : Prop} [Decidable c] {e : ε} {x : Except ε α}
    {v : α} : (if c then .error e else x) = .ok v ↔ ¬c ∧ x = .ok v := by
  split <;> simp_all

theorem verifyOperation_eq_ok {op : Operation} :
    verifyOperation lib op = .ok () ↔ Verified lib op := by
  constructor
  · intro h
    rcases hp : base64Decode op.publicKey with _ | pub <;>
    rcases hs : base64Decode op.signature with _ | sig <;>
    rcases hc : canonicalOperationBytes lib op with e | signable <;>
    simp only [verifyOperation, hp, hs, hc, ite_error_eq_ok] at h <;>
    simp at h
    obtain ⟨h1, h2, h3, h4, h5, h6, h7, h8, h9, h10⟩ := h
    exact ⟨h1, h2, h3, h4, h5, pub, sig, signable, hp, h6, h7, hs, h8, hc, h9, h10⟩
  · rintro ⟨h1, h2, h3, h4, h5, pub, sig, signable, hpub, h6, h7, hsig, h8, hc, h9, h10⟩
    simp [verifyOperation, h1, h2, h3, h4, h5, hpub, h6, ← h7, hsig, h8, hc, h9, ← h10]

/-! ## Signing with a generated key pair -/

/-- A key pair `ed25519.GenerateKey` can return: a 32-byte seed determines the
public key, and the private key is the seed followed by it. -/
structure KeyPair where
  seed : Bytes
  seed_length : seed.length = 32

/-- The public key of a key pair. -/
def KeyPair.pub (k : KeyPair) : Bytes := lib.publicOfSeed k.seed

/-- The 64-byte private key of a key pair. -/
def KeyPair.priv (k : KeyPair) : Bytes := k.seed ++ k.pub lib

/-- The identity `generateIdentity` writes for a key pair. -/
def generateIdentity (k : KeyPair) : Identity :=
  ⟨nodeIDFromPublicKey lib (k.pub lib), base64Encode (k.pub lib), base64Encode (k.priv lib)⟩

theorem trimSpace_hexEncode_ne_nil {bs : Bytes} (h : bs ≠ []) : trimSpace (hexEncode bs) ≠ [] := by
  rw [trimSpace_of_graphic fun _ => graphic_of_mem_hexEncode]
  intro e
  have := congrArg List.length e
  simp only [length_hexEncode, List.length_nil] at this
  exact h (List.eq_nil_of_length_eq_zero (by omega))

theorem sha256_ne_nil (b : Bytes) : lib.sha256 b ≠ [] := fun e => by
  simpa [e] using lib.sha256_length b

/-- An operation signed with a generated key pair, whose own fields pass their
checks, passes `verifyOperation`. -/
theorem verified_signOperation (k : KeyPair) {op : Operation} {sig id : Bytes}
    (hsign : signOperation lib op (k.priv lib) = .ok (sig, id))
    (htype : trimSpace op.type ≠ []) (hseq : op.seq ≠ 0)
    (hts : lib.parsesRFC3339Nano op.timestamp = true)
    (hauthor : op.author = nodeIDFromPublicKey lib (k.pub lib))
    (hpk : op.publicKey = base64Encode (k.pub lib)) :
    Verified lib { op with signature := sig, id := id } := by
  unfold signOperation at hsign
  split at hsign
  · cases hsign
  rename_i signable hc
  obtain ⟨rfl, rfl⟩ := Prod.mk.inj (Except.ok.inj hsign)
  refine ⟨trimSpace_hexEncode_ne_nil (sha256_ne_nil lib _), htype, ?_, hseq, hts,
    k.pub lib, lib.sign (k.priv lib) signable, signable, ?_, lib.publicOfSeed_length _, hauthor,
    base64Decode_base64Encode _, lib.sign_length _ _, hc, lib.verify_sign _ _ k.seed_length, rfl⟩
  · rw [hauthor, nodeIDFromPublicKey]
    refine trimSpace_hexEncode_ne_nil fun e => ?_
    have := congrArg List.length e
    simp [lib.sha256_length] at this
  · rw [hpk, base64Decode_base64Encode]

/-- Every seq but zero is the seq of some operation that passes
`verifyOperation`: sign one with any key pair. -/
theorem exists_verified (k : KeyPair) (t : Time) {n : UInt64} (hn : n ≠ 0) :
    ∃ op : Operation, Verified lib op ∧ op.seq = n := by
  let op : Operation := ⟨[], [0x78], nodeIDFromPublicKey lib (k.pub lib), n,
    formatRFC3339Nano t, [], base64Encode (k.pub lib), []⟩
  obtain ⟨signable, hc⟩ : ∃ signable, canonicalOperationBytes lib op = .ok signable :=
    ⟨_, by unfold canonicalOperationBytes; rw [if_pos rfl, if_pos lib.valid_braces]⟩
  have hsign : signOperation lib op (k.priv lib) =
      .ok (base64Encode (lib.sign (k.priv lib) signable),
        computeOperationID lib signable (lib.sign (k.priv lib) signable)) := by
    unfold signOperation; rw [hc]
  have htype : trimSpace op.type ≠ [] := show trimSpace [0x78] ≠ [] by decide
  exact ⟨_, verified_signOperation lib k hsign htype hn (lib.parses_format t) rfl rfl, rfl⟩

instance (op : Operation) : Decidable (Verified lib op) :=
  match h : verifyOperation lib op with
  | .ok () => isTrue ((verifyOperation_eq_ok lib).mp h)
  | .error _ => isFalse fun hv => by rw [(verifyOperation_eq_ok lib).mpr hv] at h; cases h

theorem verifyOperation_of_not_verified {op : Operation} (h : ¬ Verified lib op) :
    ∃ e, verifyOperation lib op = .error e := by
  rcases hv : verifyOperation lib op with e | ⟨⟩
  · exact ⟨e, rfl⟩
  · exact absurd ((verifyOperation_eq_ok lib).mp hv) h

/-- `authorSeqKey`: the key of `authorSeqIndex`. -/
def authorSeqKey (author : Bytes) (seq : UInt64) : Bytes :=
  author ++ ascii ":" ++ formatUint seq.toNat

/-- Splitting at the first occurrence of a separator. -/
theorem append_cons_inj_of_not_mem_left {c : UInt8} :
    ∀ {l₁ l₂ r₁ r₂ : Bytes}, c ∉ l₁ → c ∉ l₂ → l₁ ++ c :: r₁ = l₂ ++ c :: r₂ →
      l₁ = l₂ ∧ r₁ = r₂
  | [], [], _, _, _, _, h => ⟨rfl, List.cons.inj h |>.2⟩
  | [], _ :: _, _, _, _, h₂, h => absurd (List.mem_cons.mpr (.inl (List.cons.inj h).1)) h₂
  | _ :: _, [], _, _, h₁, _, h => absurd (List.mem_cons.mpr (.inl (List.cons.inj h).1.symm)) h₁
  | x :: l₁, y :: l₂, _, _, h₁, h₂, h => by
      obtain ⟨rfl, h'⟩ := List.cons.inj h
      obtain ⟨rfl, rfl⟩ := append_cons_inj_of_not_mem_left (mt (List.mem_cons.mpr ∘ .inr) h₁)
        (mt (List.mem_cons.mpr ∘ .inr) h₂) h'
      exact ⟨rfl, rfl⟩

/-- Decimal digits hold no colon, so the last colon of a key separates the
author from the seq: `authorSeqKey` is injective for every author string. -/
theorem authorSeqKey_injective {a a' : Bytes} {s s' : UInt64}
    (h : authorSeqKey a s = authorSeqKey a' s') : a = a' ∧ s = s' := by
  have nocolon : ∀ n, (58 : UInt8) ∉ (formatUint n).reverse := fun n hc => by
    exact absurd (mem_formatUint (List.mem_reverse.mp hc)).2 (by decide)
  have h' := congrArg List.reverse h
  simp only [authorSeqKey, ascii, String.toList, List.map, List.append_assoc,
    List.reverse_append, List.reverse_cons, List.reverse_nil, List.nil_append,
    List.singleton_append] at h'
  obtain ⟨hs, ha⟩ := append_cons_inj_of_not_mem_left (nocolon _) (nocolon _) h'
  refine ⟨List.reverse_injective ha, UInt64.toNat.inj ?_⟩
  exact formatUint_injective (List.reverse_injective hs)

end Dqrvcs
