import AttestP2P.Config
import AttestP2P.Crypto.Primitives
import AttestP2P.Lib.Framing

/-!
# Packets

`src/protocol/packet.js`: the binary format of the packet protocol,

    MAGIC(4) | type(1) | nodeId(32) | payloadLen(4) | payload | signature(64) | hmac(32)

with an Ed25519 signature of header and payload, and an HMAC of all that precedes it.

`extractPackets` cuts a buffer into packets.  It goes by the magic and the announced length alone,
and throws at a wrong magic or a length above the bound; what it returns may still be a forgery.
One step of its loop is `cutPacket`, and `packetCutter` is an instance of `Lib.Framing`, as the
frames of a session are.  `verifyPacket` looks at the HMAC, under the secret that all nodes share,
and `verifySignature` at the signature, under the identity that the packet itself names.

The lemmas at the end are about what `buildPacket` returns: it is complete, it is parsed into the
fields it was built of, and it verifies under the same secret.
-/

set_option autoImplicit false

namespace AttestP2P

open Buffer

def headerLen : ℕ := 41
def signatureLen : ℕ := 64
def hmacLen : ℕ := 32
def minPacketLen : ℕ := headerLen + signatureLen + hmacLen

/-- What `parsePacket` returns, but for the text of the magic bytes, which nothing reads. -/
structure Packet where
  type : UInt8
  nodeId : Buffer
  payloadLen : ℕ
  payload : Buffer
  signature : Buffer

/-- The bytes the signature covers: everything that comes before it. -/
def packetBody (type : UInt8) (nodeId : Buffer) (payloadLen : ℕ) (payload : Buffer) : Buffer :=
  magic ++ [type] ++ nodeId ++ uint32BE payloadLen ++ payload

def verifySignature (P : Primitives) (packet : Packet) : Except String Bool :=
  P.cryptoSignVerifyDetached packet.signature
    (packetBody packet.type packet.nodeId packet.payloadLen packet.payload) packet.nodeId

/-- `buildPacket`, with the node's identity key and the environment's HMAC secret. -/
def buildPacket (P : Primitives) (signKey : P.SignKey) (secret : HmacSecret) (type : UInt8)
    (payloadBuffer : Buffer) : Except String Buffer :=
  if payloadBuffer.length > maxPayloadSize then .error "Payload size exceeds limit"
  else
    let body := packetBody type (P.publicKey signKey) payloadBuffer.length payloadBuffer
    let signedBody := body ++ P.signDetached body signKey
    (getHmacKey secret).map fun key ↦ signedBody ++ P.hmacSha256 key signedBody

def parsePacket (buffer : Buffer) : Except String Packet :=
  if buffer.length < minPacketLen then
    .error "parsePacket : buffer trop court (< MIN_PACKET_LEN)"
  else
    let payloadLen := buffer.readUInt32BE 37
    let totalLength := headerLen + payloadLen + signatureLen + hmacLen
    if payloadLen > maxPayloadSize ∨ totalLength > buffer.length then
      .error "parsePacket : payloadLen incohérent avec la taille du buffer"
    else
      let payloadEnd := headerLen + payloadLen
      .ok {
        type := buffer.getD 4 0
        nodeId := buffer.subarray 5 37
        payloadLen := payloadLen
        payload := buffer.subarray headerLen payloadEnd
        signature := buffer.subarray payloadEnd (payloadEnd + signatureLen) }

def verifyPacket (P : Primitives) (secret : HmacSecret) (buffer : Buffer) : Except String Bool :=
  if buffer.length < minPacketLen then .ok false
  else if buffer.subarray 0 4 ≠ magic then .ok false
  else
    let body := buffer.subarray 0 (buffer.length - hmacLen)
    let receivedHmac := buffer.drop (buffer.length - hmacLen)
    (getHmacKey secret).map fun key ↦ decide (receivedHmac = P.hmacSha256 key body)

/-! ## Extraction -/

/-- One turn of the loop of `extractPackets`, at the front of what is left of the buffer. -/
def cutPacket (buffer : Buffer) : Cut String :=
  if buffer.length < headerLen then .more
  else if buffer.subarray 0 4 ≠ magic then .bad "Invalid MAGIC bytes"
  else
    let payloadLen := buffer.readUInt32BE 37
    let totalLength := headerLen + payloadLen + signatureLen + hmacLen
    if payloadLen > maxPayloadSize then .bad "Payload size exceeds limit"
    else if totalLength > maxPacketSize then .bad "Packet size exceeds limit"
    else if totalLength > buffer.length then .more
    else .item totalLength

theorem cutPacket_of_le {b : Buffer} (hlen : headerLen ≤ b.length) :
    cutPacket b =
      if b.subarray 0 4 ≠ magic then .bad "Invalid MAGIC bytes"
      else if b.readUInt32BE 37 > maxPayloadSize then .bad "Payload size exceeds limit"
      else if headerLen + b.readUInt32BE 37 + signatureLen + hmacLen > maxPacketSize then
        .bad "Packet size exceeds limit"
      else if headerLen + b.readUInt32BE 37 + signatureLen + hmacLen > b.length then .more
      else .item (headerLen + b.readUInt32BE 37 + signatureLen + hmacLen) := by
  rw [cutPacket, if_neg (by omega)]

/-- What has a verdict has a header: with fewer bytes the cutter waits. -/
theorem headerLen_le_of_cutPacket {b : Buffer} (h : cutPacket b ≠ .more) :
    headerLen ≤ b.length := by
  by_contra hlt
  exact h (by rw [cutPacket, if_pos (by omega)])

/-- All that it takes for a packet to be complete. -/
theorem cutPacket_eq_item {b : Buffer} {n : ℕ} :
    cutPacket b = .item n ↔
      b.subarray 0 4 = magic ∧ b.readUInt32BE 37 ≤ maxPayloadSize ∧
        n = headerLen + b.readUInt32BE 37 + signatureLen + hmacLen ∧ n ≤ b.length := by
  refine ⟨fun h ↦ ?_, fun ⟨hmagic, hpayload, hn, hle⟩ ↦ ?_⟩
  · rw [cutPacket_of_le (headerLen_le_of_cutPacket (by simp [h]))] at h
    by_cases hmagic : b.subarray 0 4 = magic
    · rw [if_neg (not_not.mpr hmagic)] at h
      split at h
      · cases h
      · next hpayload =>
        split at h
        · cases h
        · split at h
          · cases h
          · next hle =>
            obtain rfl := Cut.item.inj h
            exact ⟨hmagic, by omega, rfl, by omega⟩
    · rw [if_pos hmagic] at h
      cases h
  · subst hn
    have hpacket : headerLen + b.readUInt32BE 37 + signatureLen + hmacLen ≤ maxPacketSize := by
      simp only [headerLen, signatureLen, hmacLen, maxPacketSize, maxPayloadSize] at hpayload ⊢
      omega
    rw [cutPacket_of_le (by omega), if_neg (not_not.mpr hmagic), if_neg (by omega),
      if_neg (by omega), if_neg (by omega)]

/-- The header decides whether a buffer is malformed. -/
theorem cutPacket_append_of_bad {b : Buffer} {e : String} (c : Buffer)
    (h : cutPacket b = .bad e) : cutPacket (b ++ c) = .bad e := by
  have hlen := headerLen_le_of_cutPacket (b := b) (by simp [h])
  have hlen' : headerLen ≤ (b ++ c).length := by
    rw [List.length_append]
    omega
  have h41 : 41 ≤ b.length := hlen
  rw [cutPacket_of_le hlen] at h
  rw [cutPacket_of_le hlen', subarray_append_left c (by omega),
    readUInt32BE_append_left c (by omega)]
  split at h
  · next hmagic => rw [if_pos hmagic, h]
  · next hmagic =>
    rw [if_neg hmagic]
    split at h
    · next hpayload => rw [if_pos hpayload, h]
    · next hpayload =>
      rw [if_neg hpayload]
      split at h
      · next hpacket => rw [if_pos hpacket, h]
      · split at h <;> cases h

/-- The packet format, as a decoder of streams. -/
def packetCutter : Cutter UInt8 String where
  cut := cutPacket
  item_pos h := by
    have hn := (cutPacket_eq_item.mp h).2.2.1
    simp only [headerLen] at hn
    omega
  item_le h := (cutPacket_eq_item.mp h).2.2.2
  item_append {b n} c h := by
    obtain ⟨hmagic, hpayload, hn, hle⟩ := cutPacket_eq_item.mp h
    have h41 : 41 ≤ b.length := headerLen_le_of_cutPacket (by simp [h])
    rw [cutPacket_eq_item, subarray_append_left c (by omega), readUInt32BE_append_left c (by omega),
      List.length_append]
    exact ⟨hmagic, hpayload, hn, by omega⟩
  item_take {b n} h := by
    obtain ⟨hmagic, hpayload, hn, hle⟩ := cutPacket_eq_item.mp h
    have hlen : (b.take n).length = n := List.length_take_of_le hle
    have h41 : 41 ≤ n := by
      simp only [headerLen] at hn
      omega
    rw [← List.take_append_drop n b, subarray_append_left _ (by omega)] at hmagic
    rw [← List.take_append_drop n b, readUInt32BE_append_left _ (by omega)] at hpayload hn
    exact cutPacket_eq_item.mpr ⟨hmagic, hpayload, hn, hlen.ge⟩
  bad_append c h := cutPacket_append_of_bad c h

/-- `extractPackets`: the packets and `remaining`, or the error of the first header that is none. -/
def extractPackets (buffer : Buffer) : Except String (List Buffer × Buffer) :=
  let s := packetCutter.split buffer
  match cutPacket s.2 with
  | .bad e => .error e
  | _ => .ok s

/-! ## Honest packets -/

/-- A packet with its fields laid out, last field innermost. -/
theorem packetBody_append (type : UInt8) (nodeId : Buffer) (n : ℕ) (payload rest : Buffer) :
    packetBody type nodeId n payload ++ rest =
      magic ++ ([type] ++ (nodeId ++ (uint32BE n ++ (payload ++ rest)))) := by
  simp only [packetBody, List.append_assoc]

theorem length_packetBody {type : UInt8} {nodeId payload : Buffer} {n : ℕ}
    (hid : nodeId.length = 32) :
    (packetBody type nodeId n payload).length = headerLen + payload.length := by
  simp only [packetBody, List.length_append, length_uint32BE, hid, headerLen, magic,
    List.length_cons, List.length_nil]

/-- The fields of a packet, read where the format puts them. -/
theorem packet_fields (type : UInt8) {nodeId payload signature : Buffer} (mac : Buffer)
    (hid : nodeId.length = 32) (hpayload : payload.length ≤ maxPayloadSize)
    (hsig : signature.length = signatureLen) :
    let b := packetBody type nodeId payload.length payload ++ (signature ++ mac)
    b.subarray 0 4 = magic ∧ b.getD 4 0 = type ∧ b.subarray 5 37 = nodeId ∧
      b.readUInt32BE 37 = payload.length ∧
      b.subarray headerLen (headerLen + payload.length) = payload ∧
      b.subarray (headerLen + payload.length) (headerLen + payload.length + signatureLen) =
        signature := by
  intro b
  have hb := packetBody_append type nodeId payload.length payload (signature ++ mac)
  have hlt : payload.length < 2 ^ 32 := by
    simp only [maxPayloadSize] at hpayload
    omega
  refine ⟨?_, ?_, ?_, ?_, ?_, ?_⟩
  · rw [show b = _ from hb, subarray, List.drop_zero]
    exact List.take_left' rfl
  · exact congrArg (List.getD · 4 0) hb
  · rw [show b = (magic ++ [type]) ++ (nodeId ++ (uint32BE payload.length ++
      (payload ++ (signature ++ mac)))) by simpa using hb]
    exact subarray_append rfl (by rw [hid])
  · rw [show b = (magic ++ [type] ++ nodeId) ++ (uint32BE payload.length ++
      (payload ++ (signature ++ mac))) by simpa using hb]
    exact readUInt32BE_append (by simp [hid, magic]) hlt
  · rw [show b = (magic ++ [type] ++ nodeId ++ uint32BE payload.length) ++
      (payload ++ (signature ++ mac)) by simpa using hb]
    exact subarray_append (by simp [hid, magic, headerLen]) rfl
  · exact subarray_append (length_packetBody hid) (by rw [hsig])

section
variable {P : Primitives} (hP : P.Lawful) {signKey : P.SignKey} {secret : HmacSecret}
  {type : UInt8} {payload x : Buffer}

theorem buildPacket_eq_ok (h : buildPacket P signKey secret type payload = .ok x) :
    payload.length ≤ maxPayloadSize ∧ ∃ key, getHmacKey secret = .ok key ∧ ∃ body signature,
      body = packetBody type (P.publicKey signKey) payload.length payload ∧
      signature = P.signDetached body signKey ∧
      x = body ++ (signature ++ P.hmacSha256 key (body ++ signature)) := by
  rw [buildPacket] at h
  split at h
  · cases h
  · next hle =>
    cases hkey : getHmacKey secret with
    | error e => simp [hkey, Except.map] at h
    | ok key =>
      simp only [hkey, Except.map, Except.ok.injEq] at h
      exact ⟨by omega, key, rfl, _, _, rfl, rfl, by rw [← h, List.append_assoc]⟩

include hP

theorem length_buildPacket (h : buildPacket P signKey secret type payload = .ok x) :
    x.length = minPacketLen + payload.length := by
  obtain ⟨-, key, -, body, signature, hbody, hsig, rfl⟩ := buildPacket_eq_ok h
  have hlen : body.length = headerLen + payload.length := by
    rw [hbody, length_packetBody (hP.length_publicKey _)]
  have hsiglen : signature.length = 64 := by rw [hsig, hP.length_signDetached]
  simp only [List.length_append, hlen, hsiglen, hP.length_hmacSha256, minPacketLen, signatureLen,
    hmacLen]
  omega

/-- **A stream of honest packets is cut into them.** -/
theorem complete_of_buildPacket (h : buildPacket P signKey secret type payload = .ok x) :
    packetCutter.Complete x := by
  have hlen := length_buildPacket hP h
  obtain ⟨hle, key, -, body, signature, hbody, hsig, rfl⟩ := buildPacket_eq_ok h
  have hsiglen : signature.length = signatureLen := by rw [hsig, hP.length_signDetached]; rfl
  obtain ⟨hmagic, -, -, hread, -, -⟩ :=
    packet_fields type (P.hmacSha256 key (body ++ signature)) (hP.length_publicKey signKey) hle
      hsiglen
  rw [← hbody] at hmagic hread
  refine cutPacket_eq_item.mpr ⟨hmagic, by rw [hread]; exact hle, ?_, le_rfl⟩
  rw [hread, hlen]
  simp only [minPacketLen]
  omega

theorem parsePacket_of_buildPacket (h : buildPacket P signKey secret type payload = .ok x) :
    parsePacket x = .ok ⟨type, P.publicKey signKey, payload.length, payload,
      P.signDetached (packetBody type (P.publicKey signKey) payload.length payload) signKey⟩ := by
  have hlen := length_buildPacket hP h
  obtain ⟨hle, key, -, body, signature, hbody, hsig, rfl⟩ := buildPacket_eq_ok h
  have hsiglen : signature.length = signatureLen := by rw [hsig, hP.length_signDetached]; rfl
  obtain ⟨-, htype, hid, hread, hpayload, hsubsig⟩ :=
    packet_fields type (P.hmacSha256 key (body ++ signature)) (hP.length_publicKey signKey) hle
      hsiglen
  rw [← hbody] at htype hid hread hpayload hsubsig
  rw [parsePacket, if_neg (by omega)]
  simp only [hread, htype, hid, hpayload, hsubsig]
  rw [if_neg (by simp only [minPacketLen] at hlen; omega), hsig, hbody]

theorem verifyPacket_of_buildPacket (h : buildPacket P signKey secret type payload = .ok x) :
    verifyPacket P secret x = .ok true := by
  have hlen := length_buildPacket hP h
  obtain ⟨hle, key, hkey, body, signature, hbody, hsig, rfl⟩ := buildPacket_eq_ok h
  have hsiglen : signature.length = signatureLen := by rw [hsig, hP.length_signDetached]; rfl
  obtain ⟨hmagic, -, -, -, -, -⟩ :=
    packet_fields type (P.hmacSha256 key (body ++ signature)) (hP.length_publicKey signKey) hle
      hsiglen
  rw [← hbody] at hmagic
  have hsplit : (body ++ (signature ++ P.hmacSha256 key (body ++ signature))).length - hmacLen =
      (body ++ signature).length := by
    simp only [List.length_append, hP.length_hmacSha256, hmacLen]
    omega
  rw [verifyPacket, if_neg (by omega), if_neg (not_not.mpr hmagic), hsplit, hkey,
    ← List.append_assoc, subarray, List.take_left, List.drop_left, List.drop_zero]
  simp [Except.map]

theorem verifySignature_of_buildPacket (type : UInt8) (payload : Buffer) :
    verifySignature P ⟨type, P.publicKey signKey, payload.length, payload,
      P.signDetached (packetBody type (P.publicKey signKey) payload.length payload) signKey⟩ =
        .ok true := by
  rw [verifySignature, Primitives.cryptoSignVerifyDetached,
    if_neg (by rw [hP.length_signDetached]; simp), if_neg (by rw [hP.length_publicKey]; simp),
    hP.verify_sign]

end

end AttestP2P
