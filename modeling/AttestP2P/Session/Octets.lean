import AttestP2P.Crypto.Handshake
import AttestP2P.Crypto.Primitives

/-!
# The handshake on byte strings

The instance of `Suite` the program runs on.  The primitives of libsodium and of Node's `crypto`
are parameters (`Sodium`), with what their documentation promises (`Sodium.Lawful`); the layout of
frames is that of `src/crypto/handshake.js`:

* a hello is `ePub(32) | id(32) | sig(64)`, a confirmation is `sig(64)`;
* a sealed frame is `nonce(24) | ciphertext`.

The handshake itself is in `Crypto.Handshake`, over any suite, and is run there on symbols as well,
with an attacker.  What is wanted of it here is that two honest endpoints get through.
`Suite.Lawful` is what they rely on, and `octets_lawful` derives it from the promises: shared
secrets agree, signatures verify, messages are as long as the layout says and are split where they
were joined.  From this alone `Suite.Lawful.greeted` runs the three messages, and the sessions that
come out mirror each other.
-/

set_option autoImplicit false

namespace AttestP2P

def ePubLen : ℕ := 32
def idLen : ℕ := 32
def sigLen : ℕ := 64
def msg1Len : ℕ := ePubLen + idLen + sigLen
def msg3Len : ℕ := sigLen

/-- `crypto_aead_xchacha20poly1305_ietf_NPUBBYTES`: the length of a nonce, which stands in front of
each ciphertext. -/
def npubBytes : ℕ := 24

/-- Ed25519 with X25519, HKDF-SHA256 and XChaCha20-Poly1305, as functions on bytes. -/
structure Sodium extends Primitives where
  /-- X25519 private keys. -/
  KxPriv : Type
  /-- The public half of a pair of `crypto_kx_keypair`. -/
  kxPublicKey : KxPriv → Buffer
  /-- `crypto_scalarmult`. -/
  scalarmult : KxPriv → Buffer → Except String Buffer
  /-- `hkdfSync("sha256", ikm, salt, info, 32)`. -/
  hkdfSync : Buffer → String → String → Buffer
  /-- `crypto_aead_xchacha20poly1305_ietf_encrypt` of a message with a nonce and a key. -/
  encrypt : Buffer → Buffer → Buffer → Buffer
  /-- `crypto_aead_xchacha20poly1305_ietf_decrypt` of a ciphertext with a nonce and a key. -/
  decrypt : Buffer → Buffer → Buffer → Except String Buffer

/-- What the documentation of the primitives promises: the lengths, that secrets agree, and that
what is encrypted is decrypted. -/
structure Sodium.Lawful (N : Sodium) : Prop extends N.toPrimitives.Lawful where
  length_kxPublicKey : ∀ e, (N.kxPublicKey e).length = 32
  scalarmult_comm : ∀ a b, ∃ dh, N.scalarmult a (N.kxPublicKey b) = .ok dh ∧
    N.scalarmult b (N.kxPublicKey a) = .ok dh
  length_encrypt : ∀ pt nonce key, (N.encrypt pt nonce key).length = pt.length + 16
  decrypt_encrypt : ∀ pt nonce key, N.decrypt (N.encrypt pt nonce key) nonce key = .ok pt

/-- `seal` of a `SecureSession`: the nonce comes first, and then the ciphertext. -/
def Sodium.seal (N : Sodium) (key nonce pt : Buffer) : Buffer := nonce ++ N.encrypt pt nonce key

/-- `open` of a `SecureSession`, which refuses what is shorter than a nonce. -/
def Sodium.open (N : Sodium) (key sealed : Buffer) : Except String Buffer :=
  if sealed.length < npubBytes then .error "open : message chiffré trop court"
  else N.decrypt (sealed.drop npubBytes) (sealed.take npubBytes) key

/-- The three fields of MSG1 and MSG2, if the length is that of such a message. -/
def splitHello (msg : Buffer) : Option (Buffer × Buffer × Buffer) :=
  if msg.length = msg1Len then
    some (msg.subarray 0 ePubLen, msg.subarray ePubLen (ePubLen + idLen),
      msg.subarray (ePubLen + idLen) msg1Len)
  else none

/-- The program's suite: frames are byte strings, and a signature is over the concatenation of
ephemeral keys. -/
def octets (N : Sodium) : Suite Buffer where
  Priv := N.KxPriv
  Pub := Buffer
  Ident := Buffer
  SignKey := N.SignKey
  Sig := Buffer
  Key := Buffer
  Nonce := { b : Buffer // b.length = npubBytes }
  publicKey := N.kxPublicKey
  getPublicKey := N.publicKey
  sign signKey l := N.signDetached l.flatten signKey
  verify sig l id := N.verifyDetached sig l.flatten id
  scalarmult := N.scalarmult
  hkdfSync := N.hkdfSync
  aeadSeal key nonce pt := N.seal key nonce.1 pt
  aeadOpen := N.open
  hello ePub id sig := ePub ++ id ++ sig
  splitHello := splitHello
  confirm sig := sig
  splitConfirm msg := if msg.length = msg3Len then some msg else none

variable {S : Suite Buffer}

/-- What two honest endpoints rely on.  It says nothing about attackers: only that whatever one of
them has made, the other one can use. -/
structure Suite.Lawful (S : Suite Buffer) : Prop where
  open_seal : ∀ key nonce pt, S.aeadOpen key (S.aeadSeal key nonce pt) = .ok pt
  length_seal : ∀ key nonce pt, (S.aeadSeal key nonce pt).length = 40 + pt.length
  splitHello_hello : ∀ e k l,
    S.splitHello (S.hello (S.publicKey e) (S.getPublicKey k) (S.sign k l)) =
      some (S.publicKey e, S.getPublicKey k, S.sign k l)
  length_hello : ∀ e k l,
    (S.hello (S.publicKey e) (S.getPublicKey k) (S.sign k l)).length = msg1Len
  splitConfirm_confirm : ∀ k l, S.splitConfirm (S.confirm (S.sign k l)) = some (S.sign k l)
  length_confirm : ∀ k l, (S.confirm (S.sign k l)).length = msg3Len
  verify_sign : ∀ k l, S.verify (S.sign k l) l (S.getPublicKey k) = true
  scalarmult_comm : ∀ a b, ∃ dh, S.scalarmult a (S.publicKey b) = .ok dh ∧
    S.scalarmult b (S.publicKey a) = .ok dh

/-- The nonce in front of a sealed frame is the one it was encrypted with. -/
theorem Sodium.open_seal (N : Sodium) {nonce : Buffer} (hnonce : nonce.length = npubBytes)
    (key key' pt : Buffer) :
    N.open key' (N.seal key nonce pt) = N.decrypt (N.encrypt pt nonce key) nonce key' := by
  have hlen : ¬ (nonce ++ N.encrypt pt nonce key).length < npubBytes := by
    rw [List.length_append]
    omega
  rw [Sodium.open, Sodium.seal, if_neg hlen, List.drop_left' hnonce, List.take_left' hnonce]

theorem splitHello_append {ePub id sig : Buffer} (hePub : ePub.length = ePubLen)
    (hid : id.length = idLen) (hsig : sig.length = sigLen) :
    splitHello (ePub ++ id ++ sig) = some (ePub, id, sig) := by
  have hlen : (ePub ++ id ++ sig).length = msg1Len := by
    rw [List.length_append, List.length_append, hePub, hid, hsig, msg1Len]
  have hfst : (ePub ++ id ++ sig).subarray 0 ePubLen = ePub := by
    rw [Buffer.subarray, List.drop_zero, List.append_assoc, List.take_left' hePub]
  have hsnd : (ePub ++ id ++ sig).subarray ePubLen (ePubLen + idLen) = id := by
    rw [List.append_assoc]
    exact Buffer.subarray_append hePub (by rw [hid])
  have hthd : (ePub ++ id ++ sig).subarray (ePubLen + idLen) msg1Len = sig := by
    have hstart : (ePub ++ id).length = ePubLen + idLen := by rw [List.length_append, hePub, hid]
    have hstop : ePubLen + idLen + sig.length = msg1Len := by rw [hsig, msg1Len]
    simpa only [List.append_nil] using Buffer.subarray_append (c := []) hstart hstop
  rw [splitHello, if_pos hlen, hfst, hsnd, hthd]

theorem octets_lawful {N : Sodium} (hN : N.Lawful) : (octets N).Lawful where
  open_seal key nonce pt := (N.open_seal nonce.2 key key pt).trans (hN.decrypt_encrypt _ _ _)
  length_seal key nonce pt := by
    have hnonce : nonce.1.length = 24 := nonce.2
    have hlen := hN.length_encrypt pt nonce.1 key
    show (nonce.1 ++ N.encrypt pt nonce.1 key).length = 40 + List.length pt
    rw [List.length_append]
    omega
  splitHello_hello e k l :=
    splitHello_append (hN.length_kxPublicKey e) (hN.length_publicKey k) (hN.length_signDetached _ k)
  length_hello e k l := by
    have he := hN.length_kxPublicKey e
    have hk := hN.length_publicKey k
    have hs := hN.length_signDetached l.flatten k
    show (N.kxPublicKey e ++ N.publicKey k ++ N.signDetached l.flatten k).length = msg1Len
    rw [List.length_append, List.length_append, he, hk, hs]
    rfl
  splitConfirm_confirm k l := if_pos (hN.length_signDetached _ k)
  length_confirm k l := hN.length_signDetached _ k
  verify_sign k l := hN.verify_sign _ k
  scalarmult_comm a b := hN.scalarmult_comm a b

/-- The responder has answered with MSG2: the initiator accepts it, the responder will accept MSG3,
and the two sessions mirror each other. -/
def Answered (hI hR : Handshake S) (msg2 : Buffer) : Prop :=
  ∃ hI' msg3 sI hR' sR, hI.onFrame msg2 = (hI', .ok ⟨[msg3], some sI⟩) ∧ msg3.length = msg3Len ∧
    hR.onFrame msg3 = (hR', .ok ⟨[], some sR⟩) ∧ sI.txKey = sR.rxKey ∧ sI.rxKey = sR.txKey

/-- The initiator has sent MSG1: the responder accepts it and answers. -/
def Greeted (hI hR : Handshake S) (msg1 : Buffer) : Prop :=
  ∃ hR' msg2, hR.onFrame msg1 = (hR', .ok ⟨[msg2], none⟩) ∧ msg2.length = msg1Len ∧
    Answered hI hR' msg2

/-- **An honest handshake succeeds**, and the two sessions mirror each other. -/
theorem Suite.Lawful.greeted (hS : S.Lawful) (signI signR : S.SignKey) (eI eR : S.Priv) :
    Greeted (.initiator (.new S signI eI)) (.responder 0 (.new S signR eR))
      (HandshakeInitiator.new S signI eI).createMessage1 := by
  obtain ⟨dh, hdhI, hdhR⟩ := hS.scalarmult_comm eI eR
  have hmsg1 := hS.splitHello_hello eI signI [S.publicKey eI]
  have hmsg2 := hS.splitHello_hello eR signR [S.publicKey eR, S.publicKey eI]
  have hmsg3 := hS.splitConfirm_confirm signI [S.publicKey eI, S.publicKey eR]
  let sI : SecureSession S := { txKey := kI S dh, rxKey := kR S dh, peerId := S.getPublicKey signR }
  let sR : SecureSession S := { txKey := kR S dh, rxKey := kI S dh, peerId := S.getPublicKey signI }
  let hR : HandshakeResponder S := { HandshakeResponder.new S signR eR with
    iEpub := some (S.publicKey eI), iId := some (S.getPublicKey signI), session := some sR }
  let hI : HandshakeInitiator S := { HandshakeInitiator.new S signI eI with
    session := some sI, done := true }
  have hanswer : Answered (.initiator (.new S signI eI)) (.responder 1 hR)
      (S.hello (S.publicKey eR) (S.getPublicKey signR)
        (S.sign signR [S.publicKey eR, S.publicKey eI])) := by
    refine ⟨.initiator hI, _, sI, .responder 1 { hR with done := true }, sR, ?_,
      hS.length_confirm signI [S.publicKey eI, S.publicKey eR], ?_, rfl, rfl⟩
    · simp only [Handshake.onFrame, HandshakeInitiator.consumeMessage2, HandshakeInitiator.new,
        hmsg2, hS.verify_sign, hdhI, Bool.true_eq_false, if_false]
      rfl
    · simp only [Handshake.onFrame, HandshakeResponder.consumeMessage3, hmsg3, hR,
        HandshakeResponder.new, hS.verify_sign, Bool.true_eq_false, if_false]
  refine ⟨.responder 1 hR, _, ?_, hS.length_hello eR signR [S.publicKey eR, S.publicKey eI],
    hanswer⟩
  simp only [Handshake.onFrame, HandshakeResponder.consumeMessage1, HandshakeResponder.new,
    HandshakeInitiator.createMessage1, HandshakeInitiator.new, hmsg1, hS.verify_sign, hdhR,
    Bool.true_eq_false, if_false]
  rfl

end AttestP2P
