import AttestP2P.Protocol.Packet

/-!
# The layout of packets

Four functions find their way in a packet by offsets of their own: `extractPackets` from the length
in the header, `parsePacket` from the front, `verifyPacket` from the end, and `verifySignature` by
writing the header anew.  If one of them were to look elsewhere than the others, a packet could be
authenticated in one reading and used in another.

* A `PacketLayout` is a packet as the format describes it, and `complete_iff` says that these are
  what `extractPackets` cuts off.
* `parsePacket_bytes`, `signedBytes_eq_take` and `verifyPacket_bytes`: where the others look in one.
* `extractPackets_layout`: nothing of a buffer is lost, and nothing of a packet is left out; what
  remains begins with no complete packet.

Whether the packets are authentic plays no part in it: this is about where the bytes are.
-/

set_option autoImplicit false

namespace AttestP2P

open Buffer

/-- A packet, field after field, whose lengths are those of the format. -/
structure PacketLayout where
  type : UInt8
  nodeId : Buffer
  payload : Buffer
  signature : Buffer
  hmac : Buffer
  length_nodeId : nodeId.length = 32
  length_payload : payload.length ≤ maxPayloadSize
  length_signature : signature.length = signatureLen
  length_hmac : hmac.length = hmacLen

namespace PacketLayout

/-- Header and payload, which the signature is about. -/
def signedBytes (p : PacketLayout) : Buffer :=
  packetBody p.type p.nodeId p.payload.length p.payload

/-- `MAGIC | type | nodeId | payloadLen | payload | signature | hmac`. -/
def bytes (p : PacketLayout) : Buffer := p.signedBytes ++ (p.signature ++ p.hmac)

/-- What `parsePacket` reads of such a packet; the HMAC is not among it. -/
def packet (p : PacketLayout) : Packet :=
  ⟨p.type, p.nodeId, p.payload.length, p.payload, p.signature⟩

variable (p : PacketLayout)

theorem length_signedBytes : p.signedBytes.length = headerLen + p.payload.length :=
  length_packetBody p.length_nodeId

theorem length_bytes : p.bytes.length = minPacketLen + p.payload.length := by
  rw [bytes, List.length_append, List.length_append, length_signedBytes, p.length_signature,
    p.length_hmac, minPacketLen]
  omega

theorem fields : p.bytes.subarray 0 4 = magic ∧ p.bytes.getD 4 0 = p.type ∧
    p.bytes.subarray 5 37 = p.nodeId ∧ p.bytes.readUInt32BE 37 = p.payload.length ∧
    p.bytes.subarray headerLen (headerLen + p.payload.length) = p.payload ∧
    p.bytes.subarray (headerLen + p.payload.length)
      (headerLen + p.payload.length + signatureLen) = p.signature :=
  packet_fields p.type p.hmac p.length_nodeId p.length_payload p.length_signature

/-- A packet is cut off whole, neither a byte early nor late. -/
theorem complete_bytes : packetCutter.Complete p.bytes := by
  obtain ⟨hmagic, -, -, hread, -, -⟩ := p.fields
  refine cutPacket_eq_item.mpr ⟨hmagic, ?_, ?_, le_rfl⟩
  · rw [hread]
    exact p.length_payload
  · rw [hread, length_bytes, minPacketLen]
    omega

theorem parsePacket_bytes : parsePacket p.bytes = .ok p.packet := by
  obtain ⟨-, htype, hid, hread, hpayload, hsignature⟩ := p.fields
  have hlen := p.length_bytes
  have hle := p.length_payload
  rw [parsePacket, if_neg (by omega)]
  dsimp only
  rw [hread, if_neg (by rw [minPacketLen] at hlen; omega), htype, hid, hpayload, hsignature, packet]

/-- The signature is about all but the last 96 bytes. -/
theorem signedBytes_eq_take : p.signedBytes = p.bytes.take (p.bytes.length - 96) := by
  have hlen : p.bytes.length - 96 = p.signedBytes.length := by
    rw [length_bytes, length_signedBytes, minPacketLen, signatureLen, hmacLen]
    omega
  rw [hlen, bytes, List.take_left]

/-- The HMAC is the last 32 bytes, which is where `verifyPacket` looks for it. -/
theorem hmac_eq_drop : p.hmac = p.bytes.drop (p.bytes.length - 32) := by
  have hlen : p.bytes.length - 32 = (p.signedBytes ++ p.signature).length := by
    rw [length_bytes, List.length_append, length_signedBytes, p.length_signature, minPacketLen,
      hmacLen]
    omega
  rw [hlen, bytes, ← List.append_assoc, List.drop_left]

/-- The HMAC is about all but the last 32 bytes. -/
theorem verifyPacket_bytes (P : Primitives) (secret : HmacSecret) :
    verifyPacket P secret p.bytes = (getHmacKey secret).map fun key ↦
      decide (p.bytes.drop (p.bytes.length - 32) =
        P.hmacSha256 key (p.bytes.take (p.bytes.length - 32))) := by
  obtain ⟨hmagic, -, -, -, -, -⟩ := p.fields
  have hlen := p.length_bytes
  rw [verifyPacket, if_neg (by omega), if_neg (not_not.mpr hmagic), subarray, List.drop_zero,
    hmacLen]

/-- **What is cut off is a packet**, and nothing else is. -/
theorem complete_iff {x : Buffer} : packetCutter.Complete x ↔ ∃ p : PacketLayout, p.bytes = x := by
  refine ⟨fun h ↦ ?_, fun ⟨p, hp⟩ ↦ hp ▸ p.complete_bytes⟩
  obtain ⟨hmagic, hpayload, hlen, -⟩ := cutPacket_eq_item.mp h
  set n := x.readUInt32BE 37
  rw [headerLen, signatureLen, hmacLen] at hlen
  have hid : (x.subarray 5 37).length = 32 := length_subarray (by omega)
  have hbody : (x.subarray 41 (41 + n)).length = n := by
    rw [length_subarray (by omega)]
    omega
  have hsignature : (x.subarray (41 + n) (41 + n + 64)).length = 64 := by
    rw [length_subarray (by omega)]
    omega
  have hhmac : (x.drop (41 + n + 64)).length = 32 := by
    rw [List.length_drop]
    omega
  refine ⟨⟨x.getD 4 0, _, _, _, _, hid, hbody.trans_le hpayload, hsignature, hhmac⟩, ?_⟩
  have htype : [x.getD 4 0] = x.subarray 4 5 := singleton_getD (by omega)
  have hread : uint32BE n = x.subarray 37 41 := uint32BE_readUInt32BE (by omega)
  show magic ++ [x.getD 4 0] ++ x.subarray 5 37 ++ uint32BE (x.subarray 41 (41 + n)).length ++
    x.subarray 41 (41 + n) ++ (x.subarray (41 + n) (41 + n + 64) ++ x.drop (41 + n + 64)) = x
  rw [hbody, ← hmagic, htype, hread,
    subarray_append_subarray (by decide) (by decide),
    subarray_append_subarray (by decide) (by decide),
    subarray_append_subarray (by decide) (by decide),
    subarray_append_subarray (by decide) (by omega), ← List.append_assoc,
    subarray_append_subarray (by omega) (by omega), subarray, List.drop_zero,
    List.take_append_drop]

end PacketLayout

/-- **Extracted packets**, byte for byte: they and what remains are the buffer, and no complete
packet remains. -/
theorem extractPackets_layout {b remaining : Buffer} {packets : List Buffer}
    (h : extractPackets b = .ok (packets, remaining)) :
    packets.flatten ++ remaining = b ∧ (∀ p : PacketLayout, ¬p.bytes <+: remaining) ∧
      ∀ x ∈ packets, ∃ packet, parsePacket x = .ok packet ∧
        magic ++ [packet.type] ++ packet.nodeId ++ uint32BE packet.payloadLen ++ packet.payload ++
          packet.signature ++ x.drop (x.length - 32) = x ∧
        (∀ P, verifySignature P packet = P.cryptoSignVerifyDetached packet.signature
          (x.take (x.length - 96)) packet.nodeId) ∧
        ∀ P secret, verifyPacket P secret x = (getHmacKey secret).map fun key ↦
          decide (x.drop (x.length - 32) = P.hmacSha256 key (x.take (x.length - 32))) := by
  have hsplit : packetCutter.split b = (packets, remaining) := by
    rw [extractPackets] at h
    split at h
    · exact nomatch h
    · exact Except.ok.inj h
  have hflatten := packetCutter.flatten_split b
  have hrest := packetCutter.cut_rest_ne_item b
  rw [hsplit] at hflatten hrest
  refine ⟨hflatten, ?_, fun x hx ↦ ?_⟩
  · rintro p ⟨rest, rfl⟩
    exact hrest _ (packetCutter.item_append rest p.complete_bytes)
  · have hcomplete : packetCutter.Complete x :=
      Cutter.complete_of_mem_split (b := b) (by rw [hsplit]; exact hx)
    obtain ⟨p, rfl⟩ := PacketLayout.complete_iff.mp hcomplete
    refine ⟨p.packet, p.parsePacket_bytes, ?_, fun P ↦ ?_, p.verifyPacket_bytes⟩
    · rw [← p.hmac_eq_drop, List.append_assoc]
      rfl
    · rw [← p.signedBytes_eq_take]
      rfl

/-- A packet with a payload of one byte. -/
def samplePacket : PacketLayout where
  type := 1
  nodeId := List.replicate 32 7
  payload := [97]
  signature := List.replicate 64 0
  hmac := List.replicate 32 0
  length_nodeId := rfl
  length_payload := by decide
  length_signature := rfl
  length_hmac := rfl

theorem extractPackets_samplePacket :
    extractPackets (samplePacket.bytes ++ magic) = .ok ([samplePacket.bytes], magic) := by
  have hmore : cutPacket magic = .more := rfl
  have hsplit : packetCutter.split magic = ([], magic) := Cutter.split_of_more hmore
  rw [extractPackets, samplePacket.complete_bytes.split_append, hsplit]
  dsimp only
  rw [hmore]

theorem extractPackets_layout_samplePacket :
    [samplePacket.bytes].flatten ++ magic = samplePacket.bytes ++ magic ∧
      ∀ p : PacketLayout, ¬p.bytes <+: magic := by
  obtain ⟨hflatten, hrest, -⟩ := extractPackets_layout extractPackets_samplePacket
  exact ⟨hflatten, hrest⟩

end AttestP2P
