import AttestP2P.Buffer

/-!
# The handshake and the session keys

`src/crypto/handshake.js`: an X25519 exchange of ephemeral keys, each side signing the transcript
with its Ed25519 identity, and an AEAD session keyed by HKDF of the shared secret.

* MSG1, initiator to responder: `ePubI | idI | sig_idI(ePubI)`
* MSG2, responder to initiator: `ePubR | idR | sig_idR(ePubR || ePubI)`
* MSG3, initiator to responder: `sig_idI(ePubI || ePubR)`

The code is translated once, over a `Suite`: what it calls of libsodium and of Node's `crypto`,
and the way a frame is cut into its fixed-width fields.  `Crypto/Symbolic.lean` instantiates it
with terms, to face an attacker; `Session/Octets.lean` instantiates it with byte strings, to put
it on a wire.

A method that throws returns `Except.error` with the text of the exception.  Methods that assign
to `this` before they throw return the object beside the result.
-/

set_option autoImplicit false

namespace AttestP2P

universe u

/-- What the handshake and the session call of libsodium and of `crypto`, and the fixed-width
fields they cut a frame into. -/
structure Suite (Frame : Type) where
  /-- X25519 private keys. -/
  Priv : Type
  /-- X25519 public keys. -/
  Pub : Type
  /-- Ed25519 public keys, the identities of nodes. -/
  Ident : Type
  /-- Ed25519 private keys. -/
  SignKey : Type
  /-- Ed25519 signatures. -/
  Sig : Type
  /-- Shared secrets and the symmetric keys derived from them. -/
  Key : Type
  /-- AEAD nonces. -/
  Nonce : Type
  /-- The public half of a pair made by `crypto_kx_keypair`. -/
  publicKey : Priv → Pub
  /-- `getPublicKey` of `crypto/keys.js`. -/
  getPublicKey : SignKey → Ident
  /-- `sign` of `crypto/keys.js`, applied to the concatenation of the given public keys. -/
  sign : SignKey → List Pub → Sig
  /-- `crypto_sign_verify_detached`, on the concatenation of the given public keys. -/
  verify : Sig → List Pub → Ident → Bool
  /-- `crypto_scalarmult`; throws on a point of low order. -/
  scalarmult : Priv → Pub → Except String Key
  /-- `hkdfSync("sha256", ikm, salt, info, 32)`. -/
  hkdfSync : Key → String → String → Key
  /-- A fresh nonce followed by the XChaCha20-Poly1305 ciphertext. -/
  aeadSeal : Key → Nonce → Buffer → Frame
  /-- The inverse of `aeadSeal`; throws when the frame is too short or does not authenticate. -/
  aeadOpen : Key → Frame → Except String Buffer
  /-- The 128 bytes `ePub | id | sig`. -/
  hello : Pub → Ident → Sig → Frame
  /-- The three fields of a frame of 128 bytes. -/
  splitHello : Frame → Option (Pub × Ident × Sig)
  /-- The 64 bytes of a lone signature. -/
  confirm : Sig → Frame
  /-- The signature in a frame of 64 bytes. -/
  splitConfirm : Frame → Option Sig

variable {Frame : Type} {S : Suite Frame}

/-! ## Key derivation

One secret gives a key for each direction, and each key gives the one that follows it when it is
renewed. -/

/-- The salt with which the session keys are extracted from the shared secret. -/
def hkdfSalt : String := "AttestP2P-noise-v1"

/-- The salt of the rekey chain, from which each key derives the next. -/
def rekeySalt : String := "AttestP2P-rekey-v1"

def hkdf (S : Suite Frame) (ikm : S.Key) (info : String) : S.Key := S.hkdfSync ikm hkdfSalt info

/-- One step of the one-way rekey chain: who learns a key cannot go back to the one before it. -/
def deriveRekey (S : Suite Frame) (key : S.Key) : S.Key :=
  S.hkdfSync key rekeySalt "AttestP2P rekey"

/-- The key of the initiator-to-responder direction, derived from the shared secret alone. -/
def kI (S : Suite Frame) (dh : S.Key) : S.Key := hkdf S dh "AttestP2P I->R"

/-- The key of the responder-to-initiator direction, under a label of its own. -/
def kR (S : Suite Frame) (dh : S.Key) : S.Key := hkdf S dh "AttestP2P R->I"

/-! ## The session -/

/-- The channel a handshake ends in.  `rekeyTx` and `rekeyRx` count in `txGen` and `rxGen` how
often each key has been advanced. -/
structure SecureSession (S : Suite Frame) where
  txKey : S.Key
  rxKey : S.Key
  peerId : S.Ident
  txGen : ℕ := 0
  rxGen : ℕ := 0

/-- `seal`, under the current key for sending; the random nonce is an argument. -/
def SecureSession.seal (s : SecureSession S) (nonce : S.Nonce) (plaintext : Buffer) : Frame :=
  S.aeadSeal s.txKey nonce plaintext

/-- `open`, on a sealed frame, with the current key for receiving. -/
def SecureSession.open (s : SecureSession S) (frame : Frame) : Except String Buffer :=
  S.aeadOpen s.rxKey frame

def SecureSession.rekeyTx (s : SecureSession S) : SecureSession S :=
  { s with txKey := deriveRekey S s.txKey, txGen := s.txGen + 1 }

def SecureSession.rekeyRx (s : SecureSession S) : SecureSession S :=
  { s with rxKey := deriveRekey S s.rxKey, rxGen := s.rxGen + 1 }

@[simp] theorem SecureSession.rekeyTx_txKey (s : SecureSession S) :
    s.rekeyTx.txKey = deriveRekey S s.txKey := rfl

@[simp] theorem SecureSession.rekeyTx_rxKey (s : SecureSession S) : s.rekeyTx.rxKey = s.rxKey := rfl

@[simp] theorem SecureSession.rekeyRx_rxKey (s : SecureSession S) :
    s.rekeyRx.rxKey = deriveRekey S s.rxKey := rfl

@[simp] theorem SecureSession.rekeyRx_txKey (s : SecureSession S) : s.rekeyRx.txKey = s.txKey := rfl

/-! ## The initiator -/

/-- The fields of a `HandshakeInitiator`, with the identity key that `sign` reads. -/
structure HandshakeInitiator (S : Suite Frame) where
  signKey : S.SignKey
  ePriv : S.Priv
  ePub : S.Pub
  id : S.Ident
  done : Bool
  session : Option (SecureSession S)

namespace HandshakeInitiator

/-- The constructor: `ePriv` is the ephemeral key `crypto_kx_keypair` draws. -/
def new (S : Suite Frame) (signKey : S.SignKey) (ePriv : S.Priv) : HandshakeInitiator S where
  signKey := signKey
  ePriv := ePriv
  ePub := S.publicKey ePriv
  id := S.getPublicKey signKey
  done := false
  session := none

def createMessage1 (h : HandshakeInitiator S) : Frame :=
  S.hello h.ePub h.id (S.sign h.signKey [h.ePub])

/-- `consumeMessage2`: the initiator afterwards, MSG3 and the session. -/
def consumeMessage2 (h : HandshakeInitiator S) (msg2 : Frame) :
    Except String (HandshakeInitiator S × Frame × SecureSession S) :=
  match S.splitHello msg2 with
  | none => .error "Handshake : MSG2 de taille invalide"
  | some (rEpub, rId, rSig) =>
    if S.verify rSig [rEpub, h.ePub] rId = false then
      .error "Handshake : signature du répondeur invalide"
    else
      match S.scalarmult h.ePriv rEpub with
      | .error e => .error e
      | .ok dh =>
        let session : SecureSession S := { txKey := kI S dh, rxKey := kR S dh, peerId := rId }
        .ok ({ h with session := some session, done := true },
          S.confirm (S.sign h.signKey [h.ePub, rEpub]), session)

/-- All that `consumeMessage2` can do without throwing.  The signature that it has verified is over
both ephemeral keys, and the peer is whoever the message names. -/
theorem consumeMessage2_eq_ok {h h' : HandshakeInitiator S} {msg2 msg3 : Frame}
    {session : SecureSession S} (he : h.consumeMessage2 msg2 = .ok (h', msg3, session)) :
    ∃ rEpub rId rSig dh, S.splitHello msg2 = some (rEpub, rId, rSig) ∧
      S.verify rSig [rEpub, h.ePub] rId = true ∧ S.scalarmult h.ePriv rEpub = .ok dh ∧
      session = { txKey := kI S dh, rxKey := kR S dh, peerId := rId } ∧
      h' = { h with session := some session, done := true } ∧
      msg3 = S.confirm (S.sign h.signKey [h.ePub, rEpub]) := by
  rw [consumeMessage2] at he
  split at he
  · cases he
  · next rEpub rId rSig hsplit =>
    split at he
    · cases he
    · next hverify =>
      split at he
      · cases he
      · next dh hdh =>
        cases he
        exact ⟨rEpub, rId, rSig, dh, hsplit, by simpa using hverify, hdh, rfl, rfl, rfl⟩

end HandshakeInitiator

/-! ## The responder -/

/-- The fields of a `HandshakeResponder`, with the identity key that `sign` reads. -/
structure HandshakeResponder (S : Suite Frame) where
  signKey : S.SignKey
  ePriv : S.Priv
  ePub : S.Pub
  id : S.Ident
  done : Bool
  iEpub : Option S.Pub
  iId : Option S.Ident
  session : Option (SecureSession S)

namespace HandshakeResponder

/-- The constructor: `ePriv` is the ephemeral key `crypto_kx_keypair` draws. -/
def new (S : Suite Frame) (signKey : S.SignKey) (ePriv : S.Priv) : HandshakeResponder S where
  signKey := signKey
  ePriv := ePriv
  ePub := S.publicKey ePriv
  id := S.getPublicKey signKey
  done := false
  iEpub := none
  iId := none
  session := none

/-- `consumeMessage1`: MSG2.  The peer's two keys are stored before the shared secret is
computed, so they stay when `crypto_scalarmult` throws. -/
def consumeMessage1 (h : HandshakeResponder S) (msg1 : Frame) :
    HandshakeResponder S × Except String Frame :=
  match S.splitHello msg1 with
  | none => (h, .error "Handshake : MSG1 de taille invalide")
  | some (iEpub, iId, iSig) =>
    if S.verify iSig [iEpub] iId = false then
      (h, .error "Handshake : signature de l'initiateur invalide")
    else
      let h := { h with iEpub := some iEpub, iId := some iId }
      match S.scalarmult h.ePriv iEpub with
      | .error e => (h, .error e)
      | .ok dh =>
        ({ h with session := some { txKey := kR S dh, rxKey := kI S dh, peerId := iId } },
          .ok (S.hello h.ePub h.id (S.sign h.signKey [h.ePub, iEpub])))

/-- `consumeMessage3`: the session.  `this.iEpub`, `this.iId` and `this.session` are those
`consumeMessage1` left; without them the call throws before it verifies anything. -/
def consumeMessage3 (h : HandshakeResponder S) (msg3 : Frame) :
    Except String (HandshakeResponder S × SecureSession S) :=
  match S.splitConfirm msg3 with
  | none => .error "Handshake : MSG3 de taille invalide"
  | some sig =>
    match h.iEpub, h.iId, h.session with
    | some iEpub, some iId, some session =>
      if S.verify sig [iEpub, h.ePub] iId = false then
        .error "Handshake : confirmation de l'initiateur invalide"
      else
        .ok ({ h with done := true }, session)
    | _, _, _ => .error "list[0] must be an instance of Buffer or Uint8Array"

/-- All that `consumeMessage1` can do without throwing.  The signature that it has verified is over
the ephemeral key of the initiator alone. -/
theorem consumeMessage1_eq_ok {h h' : HandshakeResponder S} {msg1 msg2 : Frame}
    (he : h.consumeMessage1 msg1 = (h', .ok msg2)) :
    ∃ iEpub iId iSig dh, S.splitHello msg1 = some (iEpub, iId, iSig) ∧
      S.verify iSig [iEpub] iId = true ∧ S.scalarmult h.ePriv iEpub = .ok dh ∧
      h' = { h with
        iEpub := some iEpub, iId := some iId,
        session := some { txKey := kR S dh, rxKey := kI S dh, peerId := iId } } ∧
      msg2 = S.hello h.ePub h.id (S.sign h.signKey [h.ePub, iEpub]) := by
  rw [consumeMessage1] at he
  split at he
  · cases he
  · next iEpub iId iSig hsplit =>
    split at he
    · cases he
    · next hverify =>
      simp only at he
      split at he
      · cases he
      · next dh hdh =>
        cases he
        exact ⟨iEpub, iId, iSig, dh, hsplit, by simpa using hverify, hdh, rfl, rfl⟩

/-- All that `consumeMessage3` can do without throwing.  The session was prepared when the first
message came; the third one confirms it, and changes neither its keys nor its peer. -/
theorem consumeMessage3_eq_ok {h h' : HandshakeResponder S} {msg3 : Frame}
    {session : SecureSession S} (he : h.consumeMessage3 msg3 = .ok (h', session)) :
    ∃ sig iEpub iId, S.splitConfirm msg3 = some sig ∧ h.iEpub = some iEpub ∧
      h.iId = some iId ∧ h.session = some session ∧ S.verify sig [iEpub, h.ePub] iId = true ∧
      h' = { h with done := true } := by
  rw [consumeMessage3] at he
  split at he
  · cases he
  · next sig hsplit =>
    split at he
    · next iEpub iId session' hEpub hId hsession =>
      split at he
      · cases he
      · next hverify =>
        cases he
        exact ⟨sig, iEpub, iId, hsplit, hEpub, hId, hsession, by simpa using hverify, rfl⟩
    · cases he

end HandshakeResponder

/-! ## One side of a handshake, as `SecureConnection` drives it

The connection asks only who begins, and what a frame leads to: frames to be written, a session, or
an exception. -/

/-- The `hs` of a `SecureConnection` with its `_step`: an initiator waits for MSG2, a responder for
MSG1 (`step = 0`) and then for MSG3. -/
inductive Handshake (S : Suite Frame) where
  | initiator (hs : HandshakeInitiator S)
  | responder (step : ℕ) (hs : HandshakeResponder S)

/-- What a frame of the handshake phase leads to: the frames written, and the session when the
handshake is over. -/
structure Handshake.Reply (S : Suite Frame) where
  writes : List Frame
  session : Option (SecureSession S)

namespace Handshake

def isInitiator : Handshake S → Bool
  | .initiator _ => true
  | .responder _ _ => false

def signKey : Handshake S → S.SignKey
  | .initiator hs => hs.signKey
  | .responder _ hs => hs.signKey

def ePriv : Handshake S → S.Priv
  | .initiator hs => hs.ePriv
  | .responder _ hs => hs.ePriv

def ePub : Handshake S → S.Pub
  | .initiator hs => hs.ePub
  | .responder _ hs => hs.ePub

def id : Handshake S → S.Ident
  | .initiator hs => hs.id
  | .responder _ hs => hs.id

/-- The handshake of a fresh connection, of either role. -/
def new (S : Suite Frame) (initiator : Bool) (signKey : S.SignKey) (ePriv : S.Priv) :
    Handshake S :=
  if initiator then .initiator (.new S signKey ePriv) else .responder 0 (.new S signKey ePriv)

/-- What the constructor of a `SecureConnection` writes: MSG1, if it is an initiator. -/
def opening : Handshake S → List Frame
  | .initiator hs => [hs.createMessage1]
  | .responder _ _ => []

/-- The handshake phase of `_handleFrame`: a frame is for the message that is expected next, and an
exception leaves the handshake where it was. -/
def onFrame : Handshake S → Frame → Handshake S × Except String (Reply S)
  | .initiator hs, frame =>
    match hs.consumeMessage2 frame with
    | .error e => (.initiator hs, .error e)
    | .ok (hs, message3, session) => (.initiator hs, .ok ⟨[message3], some session⟩)
  | .responder 0 hs, frame =>
    match hs.consumeMessage1 frame with
    | (hs, .error e) => (.responder 0 hs, .error e)
    | (hs, .ok msg2) => (.responder 1 hs, .ok ⟨[msg2], none⟩)
  | .responder (n + 1) hs, frame =>
    match hs.consumeMessage3 frame with
    | .error e => (.responder (n + 1) hs, .error e)
    | .ok (hs, session) => (.responder (n + 1) hs, .ok ⟨[], some session⟩)

/-- A frame the handshake accepts is MSG2 at an initiator, or MSG1 or MSG3 at a responder. -/
theorem onFrame_eq_ok {h h' : Handshake S} {frame : Frame} {r : Reply S}
    (he : h.onFrame frame = (h', .ok r)) :
    (∃ hs hs' message3 session, h = .initiator hs ∧ h' = .initiator hs' ∧
        hs.consumeMessage2 frame = .ok (hs', message3, session) ∧ r = ⟨[message3], some session⟩) ∨
      (∃ hs hs' msg2, h = .responder 0 hs ∧ h' = .responder 1 hs' ∧
        hs.consumeMessage1 frame = (hs', .ok msg2) ∧ r = ⟨[msg2], none⟩) ∨
      ∃ n hs hs' session, h = .responder (n + 1) hs ∧ h' = .responder (n + 1) hs' ∧
        hs.consumeMessage3 frame = .ok (hs', session) ∧ r = ⟨[], some session⟩ := by
  match h with
  | .initiator hs =>
    rw [onFrame] at he
    split at he <;> cases he
    next hs' message3 session hmsg => exact .inl ⟨hs, hs', message3, session, rfl, rfl, hmsg, rfl⟩
  | .responder 0 hs =>
    rw [onFrame] at he
    split at he <;> cases he
    next hs' msg2 hmsg => exact .inr (.inl ⟨hs, hs', msg2, rfl, rfl, hmsg, rfl⟩)
  | .responder (n + 1) hs =>
    rw [onFrame] at he
    split at he <;> cases he
    next hs' session hmsg => exact .inr (.inr ⟨n, hs, hs', session, rfl, rfl, hmsg, rfl⟩)

/-- Whatever the frame, a handshake keeps its role and its own keys. -/
theorem onFrame_keeps (h : Handshake S) (frame : Frame) :
    (h.onFrame frame).1.isInitiator = h.isInitiator ∧ (h.onFrame frame).1.signKey = h.signKey ∧
      (h.onFrame frame).1.ePriv = h.ePriv ∧ (h.onFrame frame).1.ePub = h.ePub ∧
      (h.onFrame frame).1.id = h.id := by
  match h with
  | .initiator hs =>
    rw [onFrame]
    split
    · exact ⟨rfl, rfl, rfl, rfl, rfl⟩
    · next hmsg =>
      obtain ⟨_, _, _, _, _, _, _, _, rfl, _⟩ := HandshakeInitiator.consumeMessage2_eq_ok hmsg
      exact ⟨rfl, rfl, rfl, rfl, rfl⟩
  | .responder 0 hs =>
    have hkeep : ∀ hs' r, hs.consumeMessage1 frame = (hs', r) →
        hs'.signKey = hs.signKey ∧ hs'.ePriv = hs.ePriv ∧ hs'.ePub = hs.ePub ∧ hs'.id = hs.id := by
      intro hs' r hmsg
      rw [HandshakeResponder.consumeMessage1] at hmsg
      split at hmsg
      · cases hmsg; exact ⟨rfl, rfl, rfl, rfl⟩
      · split at hmsg
        · cases hmsg; exact ⟨rfl, rfl, rfl, rfl⟩
        · simp only at hmsg
          split at hmsg <;> (cases hmsg; exact ⟨rfl, rfl, rfl, rfl⟩)
    rw [onFrame]
    split <;> next hmsg => exact ⟨rfl, hkeep _ _ hmsg⟩
  | .responder (n + 1) hs =>
    rw [onFrame]
    split
    · exact ⟨rfl, rfl, rfl, rfl, rfl⟩
    · next hmsg =>
      obtain ⟨_, _, _, _, _, _, _, _, rfl⟩ := HandshakeResponder.consumeMessage3_eq_ok hmsg
      exact ⟨rfl, rfl, rfl, rfl, rfl⟩

end Handshake

end AttestP2P
