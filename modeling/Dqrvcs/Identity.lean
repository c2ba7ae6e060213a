/-
# `Dqrvcs.Identity` — the checks `loadIdentity` makes on `identity.json`

`store.go` lines 484–547.  Once `identity.json` is read and decoded,
`loadIdentity` decodes both keys from base64, checks their lengths, fills an
empty node ID with the one the public key gives and requires it otherwise,
and compares the private key's public half with the public key by
`strings.EqualFold` on their base64 texts.  The handle then signs with the
private key's bytes as they are.

What holds: a file `generateIdentity` wrote loads back as it was
(`loadIdentity_generateIdentity`), and what loads has the node ID its public
key gives (`loadIdentity_eq_ok`).  What fails: `ed25519.PrivateKey.Public`
returns the stored second half of the private key and does not derive it
from the seed, so a file holding one key's seed beside another key's public
half loads, under every library (`loadIdentity_foreign_seed`).  The handle
then signs with the first key and names the second, and with signatures bound
to their seed, as Ed25519's are (`Stdlib.seedBound`), every operation it signs
fails `verifyOperation` (`loadIdentity_accepts_foreign_seed`).
-/
import Dqrvcs.Atomicity

namespace Dqrvcs

/-- The errors of `loadIdentity` once the file is read and decoded. -/
inductive IdentityError
  | publicKeyEncoding
  | privateKeyEncoding
  | keyLengths
  | nodeIDMismatch
  | keyMismatch
deriving DecidableEq, Repr

/-- The error text the source gives each failure, less the wrapped error. -/
def IdentityError.message : IdentityError → String
  | .publicKeyEncoding => "decode identity public key"
  | .privateKeyEncoding => "decode identity private key"
  | .keyLengths => "identity key lengths are invalid"
  | .nodeIDMismatch => "identity node ID does not match public key"
  | .keyMismatch => "identity private key does not match public key"

/-- `strings.EqualFold` on ASCII text, which the base64 texts it compares here
are. -/
def equalFold (a b : Bytes) : Bool := a.map foldByte == b.map foldByte

@[simp] theorem equalFold_self (a : Bytes) : equalFold a a = true := beq_self_eq_true _

variable (lib : Stdlib)

/-- `loadIdentity` from the decoded record: the identity and the private key
bytes the handle keeps, or the first check that fails. -/
def loadIdentity (identity : Identity) : Except IdentityError (Identity × Bytes) :=
  match base64Decode identity.publicKey with
  | none => .error .publicKeyEncoding
  | some pubBytes =>
    match base64Decode identity.privateKey with
    | none => .error .privateKeyEncoding
    | some privBytes =>
      if pubBytes.length ≠ 32 ∨ privBytes.length ≠ 64 then .error .keyLengths else
      let expectedID := nodeIDFromPublicKey lib pubBytes
      let identity := if identity.nodeID = [] then { identity with nodeID := expectedID }
        else identity
      if identity.nodeID ≠ expectedID then .error .nodeIDMismatch
      else if !equalFold (base64Encode (privBytes.drop 32)) (base64Encode pubBytes) then
        .error .keyMismatch
      else .ok (identity, privBytes)

variable {lib}

/-- What a successful load guarantees, and all it guarantees: both keys
decode with the right lengths, the node ID is the public key's, and the
private key's second half spells the public key up to letter case in base64.
Nothing relates the private key's seed to either. -/
theorem loadIdentity_eq_ok {identity identity' : Identity} {priv : Bytes} :
    loadIdentity lib identity = .ok (identity', priv) ↔
      ∃ pub, base64Decode identity.publicKey = some pub ∧
        base64Decode identity.privateKey = some priv ∧ pub.length = 32 ∧ priv.length = 64 ∧
        (identity.nodeID = [] ∨ identity.nodeID = nodeIDFromPublicKey lib pub) ∧
        equalFold (base64Encode (priv.drop 32)) (base64Encode pub) = true ∧
        identity' = { identity with nodeID := nodeIDFromPublicKey lib pub } := by
  unfold loadIdentity
  rcases base64Decode identity.publicKey with _ | pub <;>
    rcases base64Decode identity.privateKey with _ | q <;> try simp
  obtain ⟨nid, pk, sk⟩ := identity
  by_cases hn : nid = [] <;> simp [hn, ite_error_eq_ok]
  all_goals aesop

theorem length_priv (k : KeyPair) : (k.priv lib).length = 64 := by
  rw [KeyPair.priv, List.length_append, k.seed_length, KeyPair.pub, lib.publicOfSeed_length]

/-- A file `generateIdentity` wrote loads back as it was, with the private key
it holds. -/
theorem loadIdentity_generateIdentity (k : KeyPair) :
    loadIdentity lib (generateIdentity lib k) = .ok (generateIdentity lib k, k.priv lib) :=
  loadIdentity_eq_ok.mpr ⟨k.pub lib, base64Decode_base64Encode _, base64Decode_base64Encode _,
    lib.publicOfSeed_length _, length_priv k, .inr rfl,
    by rw [KeyPair.priv, List.drop_left' k.seed_length]; exact equalFold_self _, rfl⟩

/-- A file holding one key pair's seed beside another's public key loads, under
every library: the check reads the private key's second half, not its seed. -/
theorem loadIdentity_foreign_seed (kA kB : KeyPair) :
    loadIdentity lib ⟨nodeIDFromPublicKey lib (kB.pub lib), base64Encode (kB.pub lib),
        base64Encode (kA.seed ++ kB.pub lib)⟩ =
      .ok (⟨nodeIDFromPublicKey lib (kB.pub lib), base64Encode (kB.pub lib),
        base64Encode (kA.seed ++ kB.pub lib)⟩, kA.seed ++ kB.pub lib) :=
  loadIdentity_eq_ok.mpr ⟨kB.pub lib, base64Decode_base64Encode _, base64Decode_base64Encode _,
    lib.publicOfSeed_length _,
    by rw [List.length_append, kA.seed_length, KeyPair.pub, lib.publicOfSeed_length], .inr rfl,
    by rw [List.drop_left' kA.seed_length]; exact equalFold_self _, rfl⟩

/-- A lawful library whose signatures are bound to the seed that makes them,
as Ed25519's are: a signature names the public key of the private key's seed,
and `verify` accepts the signatures naming the key it is given. -/
def Stdlib.seedBound : Stdlib :=
  { Stdlib.degenerate with
    publicOfSeed := seedKey
    publicOfSeed_length := seedKey_length
    sign := fun priv _ => seedKey (priv.take 32) ++ seedKey (priv.take 32)
    sign_length := fun priv _ => by rw [List.length_append, seedKey_length]
    verify := fun pub _ sig => decide (sig = pub ++ pub)
    verify_sign := fun _ _ h => by simp [List.take_left' h] }

set_option maxRecDepth 4000 in
/-- The failing input: a file holding the seed `1…1` beside the public key of
the seed `2…2` loads, the key its seed gives is not its public key, and under
`Stdlib.seedBound` the handle opened on it signs `git.commit` with a signature
that `verifyOperation` rejects. -/
theorem loadIdentity_accepts_foreign_seed :
    let pub := Stdlib.seedBound.publicOfSeed (List.replicate 32 2)
    let priv := List.replicate 32 1 ++ pub
    let identity : Identity :=
      ⟨nodeIDFromPublicKey Stdlib.seedBound pub, base64Encode pub, base64Encode priv⟩
    loadIdentity Stdlib.seedBound identity = .ok (identity, priv) ∧
      Stdlib.seedBound.publicOfSeed (priv.take 32) ≠ pub ∧
      (AppendLocalOp Stdlib.seedBound ⟨1970, 1, 1, 0, 0, 0, 0, by decide⟩ .whole
        (Store.empty identity priv []) [] (ascii "git.commit") []).result =
          .error (.verify .badSignature) :=
  ⟨loadIdentity_foreign_seed ⟨List.replicate 32 1, rfl⟩ ⟨List.replicate 32 2, rfl⟩, by decide,
    rfl⟩

end Dqrvcs
