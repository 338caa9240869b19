import AttestP2P.Buffer

/-!
# Signatures and digests

What the packet and file layers call of libsodium and of Node's `crypto`, on byte strings: detached
Ed25519 signatures, SHA-256 and HMAC-SHA256.  The functions are parameters; `Primitives.Lawful` is
what their documentation promises and the code relies on: the lengths of what they return, and that
a signature made with a key is verified by it.

Nothing is said about what an attacker cannot compute.  Where a result needs that, as for what a
node may accept, it is a hypothesis about the run, that no signature was made by others and that no
two inputs in it have the same digest.
-/

set_option autoImplicit false

namespace AttestP2P

/-- Ed25519, SHA-256 and HMAC-SHA256, as functions on bytes that are not looked into. -/
structure Primitives where
  /-- Ed25519 private keys. -/
  SignKey : Type
  /-- The public half of a key pair. -/
  publicKey : SignKey → Buffer
  /-- `crypto_sign_detached`. -/
  signDetached : Buffer → SignKey → Buffer
  /-- Whether a signature of 64 bytes is one of the message under a public key of 32 bytes. -/
  verifyDetached : Buffer → Buffer → Buffer → Bool
  /-- SHA-256. -/
  sha256 : Buffer → Buffer
  /-- HMAC-SHA256 of a message under a key. -/
  hmacSha256 : Buffer → Buffer → Buffer

namespace Primitives

/-- What the documentation of the primitives promises: the lengths, and that a signature
verifies. -/
structure Lawful (P : Primitives) : Prop where
  length_publicKey : ∀ k, (P.publicKey k).length = 32
  length_signDetached : ∀ m k, (P.signDetached m k).length = 64
  verify_sign : ∀ m k, P.verifyDetached (P.signDetached m k) m (P.publicKey k) = true
  length_sha256 : ∀ m, (P.sha256 m).length = 32
  length_hmacSha256 : ∀ k m, (P.hmacSha256 k m).length = 32

/-- `crypto_sign_verify_detached`, which throws on arguments of the wrong length. -/
def cryptoSignVerifyDetached (P : Primitives) (signature message publicKey : Buffer) :
    Except String Bool :=
  if signature.length ≠ 64 then .error "invalid signature length"
  else if publicKey.length ≠ 32 then .error "invalid publicKey length"
  else .ok (P.verifyDetached signature message publicKey)

end Primitives

end AttestP2P
