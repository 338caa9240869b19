import AttestP2P.Js.Json
import Mathlib.Tactic.SplitIfs

/-!
# The file protocol

`src/file/protocol.js`: the messages that file nodes exchange over their sessions.  The first byte
says which of the six kinds it is, and the rest is laid out without any separators:

    MANIFEST    json
    CHUNK_REQ   fileId(32) | idx(4)
    CHUNK_DATA  fileId(32) | idx(4) | chunkHash(32) | signature(64) | data
    ACK         idx(4) | status(1)
    HAVE        fileId(32) | bitfield
    HAVE_PIECE  fileId(32) | idx(4)

A decoder cuts the fields off by slices, which are shorter where the bytes are missing; only
integers are read with a check of the bounds, and they throw.  `JSON.parse(p.toString())` is a
parameter, `none` when it throws.  Of an acknowledgement that is too short, `status` is
`undefined`.

`decode_encode` puts the round trips of the six encoders together: a message that is well formed
is what is decoded from its encoding, with all its fields.
-/

set_option autoImplicit false

namespace AttestP2P

/-- A decoded message. -/
inductive FileMessage where
  | manifest (m : Json)
  | have (fileId : String) (bitfield : Buffer)
  | havePiece (fileId : String) (idx : ℕ)
  | chunkReq (fileId : String) (idx : ℕ)
  | chunkData (fileId : String) (idx : ℕ) (chunkHash signature data : Buffer)
  | ack (idx : ℕ) (status : Option UInt8)

namespace FileProtocol

/-! ## Types and statuses -/

def manifestType : UInt8 := 0x10
def chunkReqType : UInt8 := 0x11
def chunkDataType : UInt8 := 0x12
def ackType : UInt8 := 0x13
def haveType : UInt8 := 0x14
def havePieceType : UInt8 := 0x15

def ackOk : UInt8 := 0x00
def ackHashMismatch : UInt8 := 0x01
def ackNotFound : UInt8 := 0x02

/-! ## Encoding -/

def encManifest (manifest : Json) : Buffer :=
  manifestType :: Json.utf8 (manifest.stringify "" "")

def encHave (fileId : String) (bitfield : Buffer) : Buffer :=
  haveType :: (Json.fromHex fileId ++ bitfield)

def encHavePiece (fileId : String) (idx : ℕ) : Buffer :=
  havePieceType :: (Json.fromHex fileId ++ Buffer.uint32BE idx)

def encChunkReq (fileId : String) (idx : ℕ) : Buffer :=
  chunkReqType :: (Json.fromHex fileId ++ Buffer.uint32BE idx)

def encChunkData (fileId : String) (idx : ℕ) (chunkHash signature data : Buffer) : Buffer :=
  chunkDataType :: (Json.fromHex fileId ++ (Buffer.uint32BE idx ++
    (chunkHash ++ (signature ++ data))))

def encAck (idx : ℕ) (status : UInt8) : Buffer := ackType :: (Buffer.uint32BE idx ++ [status])

/-! ## Decoding

`Buffer.readUInt32BE` looks at the bounds and throws, with another error where the buffer is shorter
than the integer itself.  Slices do not throw, and neither does the index of a byte. -/

/-- `p.readUInt32BE(offset)`, which throws when the buffer is too short: for this offset, or for
any. -/
def readUInt32BE (p : Buffer) (offset : ℕ) : Except String ℕ :=
  if p.length < offset + 4 then
    .error (if p.length < 4 then "ERR_BUFFER_OUT_OF_BOUNDS" else "ERR_OUT_OF_RANGE")
  else .ok (p.readUInt32BE offset)

def decode (jsonParse : Buffer → Option Json) : Buffer → Except String FileMessage
  | [] => .error "message vide"
  | type :: p =>
    let fileId := (Buffer.subarray p 0 32).hex
    if type = manifestType then
      match jsonParse p with
      | some m => .ok (.manifest m)
      | none => .error "SyntaxError"
    else if type = haveType then .ok (.have fileId (p.drop 32))
    else if type = havePieceType then (readUInt32BE p 32).map fun idx ↦ .havePiece fileId idx
    else if type = chunkReqType then (readUInt32BE p 32).map fun idx ↦ .chunkReq fileId idx
    else if type = chunkDataType then
      (readUInt32BE p 32).map fun idx ↦
        .chunkData fileId idx (Buffer.subarray p 36 68) (Buffer.subarray p 68 132) (p.drop 132)
    else if type = ackType then (readUInt32BE p 0).map fun idx ↦ .ack idx p[4]?
    else .error ("type de message fichier inconnu: " ++ Nat.repr type.toNat)

/-- A manifest is what `JSON.parse` makes of the body. -/
theorem jsonParse_of_decode {jsonParse : Buffer → Option Json} {buf : Buffer} {m : Json}
    (h : decode jsonParse buf = .ok (.manifest m)) : ∃ raw, jsonParse raw = some m := by
  cases buf with
  | nil => exact absurd h (by simp [decode])
  | cons type p =>
    by_cases htype : type = manifestType
    · cases hparse : jsonParse p with
      | none => exact absurd h (by simp [decode, htype, hparse])
      | some m' =>
        obtain rfl : m' = m := by simpa [decode, htype, hparse] using h
        exact ⟨p, hparse⟩
    · -- no other type is decoded into a manifest
      simp only [decode, if_neg htype, readUInt32BE] at h
      split_ifs at h
      all_goals exact absurd h (by simp [Except.map])

/-! ## Round trips

One lemma for each encoder, and one theorem for all of them.  What a message must be for that is
what the callers see to: file ids are digests in hexadecimal, and indices fit into four bytes. -/

/-- A file id as it is written in a message: the text of 32 bytes. -/
def IsFileId (fileId : String) : Prop := ∃ id : Buffer, id.length = 32 ∧ fileId = id.hex

theorem readUInt32BE_eq_ok {p : Buffer} {offset n : ℕ} (h : readUInt32BE p offset = .ok n) :
    offset + 4 ≤ p.length ∧ n < 2 ^ 32 := by
  rw [readUInt32BE] at h
  split at h
  · exact nomatch h
  · next hlen =>
    obtain rfl := Except.ok.inj h
    exact ⟨Nat.not_lt.mp hlen, Buffer.readUInt32BE_lt p offset⟩

/-- A chunk that is received is of a file with an id, and its index has 32 bits. -/
theorem of_decode_chunkData {jsonParse : Buffer → Option Json} {buf : Buffer} {fileId : String}
    {idx : ℕ} {chunkHash signature data : Buffer}
    (h : decode jsonParse buf = .ok (.chunkData fileId idx chunkHash signature data)) :
    IsFileId fileId ∧ idx < 2 ^ 32 := by
  cases buf with
  | nil => exact nomatch h
  | cons type p =>
    by_cases htype : type = chunkDataType
    · subst htype
      have hdecode : decode jsonParse (chunkDataType :: p) =
        (readUInt32BE p 32).map fun idx ↦ .chunkData (Buffer.subarray p 0 32).hex idx
          (Buffer.subarray p 36 68) (Buffer.subarray p 68 132) (p.drop 132) := rfl
      rw [hdecode] at h
      cases hread : readUInt32BE p 32 with
      | error e => exact nomatch (congrArg (Except.map _) hread).symm.trans h
      | ok n =>
        rw [hread] at h
        obtain ⟨hid, hidx, -⟩ := FileMessage.chunkData.inj (Except.ok.inj h)
        obtain ⟨hlen, hlt⟩ := readUInt32BE_eq_ok hread
        refine ⟨⟨Buffer.subarray p 0 32, ?_, hid.symm⟩, hidx ▸ hlt⟩
        rw [Buffer.subarray, List.drop_zero, List.length_take]
        omega
    · -- no other type is decoded into chunk data
      simp only [decode, if_neg htype, readUInt32BE] at h
      split_ifs at h
      all_goals exact absurd h (by cases jsonParse p <;> simp [Except.map])

/-- What the encoders write of a message; an absent `status` is written as zero. -/
def encode : FileMessage → Buffer
  | .manifest m => encManifest m
  | .have fileId bitfield => encHave fileId bitfield
  | .havePiece fileId idx => encHavePiece fileId idx
  | .chunkReq fileId idx => encChunkReq fileId idx
  | .chunkData fileId idx chunkHash signature data =>
      encChunkData fileId idx chunkHash signature data
  | .ack idx status => encAck idx (status.getD 0)

/-- The fields have the sizes that the layout gives them, and `JSON.parse` undoes `JSON.stringify`
on a manifest. -/
def WellFormed (jsonParse : Buffer → Option Json) : FileMessage → Prop
  | .manifest m => jsonParse (Json.utf8 (m.stringify "" "")) = some m
  | .have fileId _ => IsFileId fileId
  | .havePiece fileId idx | .chunkReq fileId idx => IsFileId fileId ∧ idx < 2 ^ 32
  | .chunkData fileId idx chunkHash signature _ =>
    IsFileId fileId ∧ idx < 2 ^ 32 ∧ chunkHash.length = 32 ∧ signature.length = 64
  | .ack idx status => idx < 2 ^ 32 ∧ status.isSome

section
variable {jsonParse : Buffer → Option Json} {id : Buffer} {idx : ℕ}

theorem decode_encManifest {m : Json} (h : jsonParse (Json.utf8 (m.stringify "" "")) = some m) :
    decode jsonParse (encManifest m) = .ok (.manifest m) := by
  simp [encManifest, decode, h]

/-- The file id is the first field. -/
theorem subarray_fileId (hid : id.length = 32) (rest : Buffer) :
    Buffer.subarray (id ++ rest) 0 32 = id := by
  rw [Buffer.subarray, List.drop_zero, List.take_left' hid]

theorem decode_encHave (hid : id.length = 32) (bitfield : Buffer) :
    decode jsonParse (encHave id.hex bitfield) = .ok (.have id.hex bitfield) := by
  have hrest : (id ++ bitfield).drop 32 = bitfield := List.drop_left' hid
  rw [encHave, Json.fromHex_hex, decode, subarray_fileId hid, hrest]
  rfl

/-- The index is the second field. -/
theorem readUInt32BE_idx (hid : id.length = 32) (hidx : idx < 2 ^ 32) (rest : Buffer) :
    readUInt32BE (id ++ (Buffer.uint32BE idx ++ rest)) 32 = .ok idx := by
  have hlen : ¬ (id ++ (Buffer.uint32BE idx ++ rest)).length < 32 + 4 := by
    rw [List.length_append, List.length_append, hid, Buffer.length_uint32BE]
    omega
  rw [readUInt32BE, if_neg hlen, Buffer.readUInt32BE_append hid hidx]

theorem decode_encHavePiece (hid : id.length = 32) (hidx : idx < 2 ^ 32) :
    decode jsonParse (encHavePiece id.hex idx) = .ok (.havePiece id.hex idx) := by
  have hread := readUInt32BE_idx hid hidx []
  rw [List.append_nil] at hread
  rw [encHavePiece, Json.fromHex_hex, decode, subarray_fileId hid, hread]
  rfl

theorem decode_encChunkReq (hid : id.length = 32) (hidx : idx < 2 ^ 32) :
    decode jsonParse (encChunkReq id.hex idx) = .ok (.chunkReq id.hex idx) := by
  have hread := readUInt32BE_idx hid hidx []
  rw [List.append_nil] at hread
  rw [encChunkReq, Json.fromHex_hex, decode, subarray_fileId hid, hread]
  rfl

theorem decode_encChunkData (hid : id.length = 32) (hidx : idx < 2 ^ 32)
    {chunkHash signature : Buffer} (hhash : chunkHash.length = 32) (hsig : signature.length = 64)
    (data : Buffer) : decode jsonParse (encChunkData id.hex idx chunkHash signature data) =
      .ok (.chunkData id.hex idx chunkHash signature data) := by
  have hread := readUInt32BE_idx hid hidx (chunkHash ++ (signature ++ data))
  have hid' := subarray_fileId hid (Buffer.uint32BE idx ++ (chunkHash ++ (signature ++ data)))
  -- what stands before the hash, the signature and the data
  have hbefore : (id ++ Buffer.uint32BE idx).length = 36 := by
    rw [List.length_append, hid, Buffer.length_uint32BE]
  have hhash' : Buffer.subarray (id ++ (Buffer.uint32BE idx ++ (chunkHash ++ (signature ++ data))))
      36 68 = chunkHash := by
    rw [← List.append_assoc]
    exact Buffer.subarray_append hbefore (by rw [hhash])
  have hbefore' : (id ++ Buffer.uint32BE idx ++ chunkHash).length = 68 := by
    rw [List.length_append, hbefore, hhash]
  have hsig' : Buffer.subarray (id ++ (Buffer.uint32BE idx ++ (chunkHash ++ (signature ++ data))))
      68 132 = signature := by
    rw [← List.append_assoc, ← List.append_assoc]
    exact Buffer.subarray_append hbefore' (by rw [hsig])
  have hdata : (id ++ (Buffer.uint32BE idx ++ (chunkHash ++ (signature ++ data)))).drop 132 =
      data := by
    rw [← List.append_assoc, ← List.append_assoc, ← List.append_assoc]
    exact List.drop_left' (by rw [List.length_append, hbefore', hsig])
  rw [encChunkData, Json.fromHex_hex, decode, hid', hread, hhash', hsig', hdata]
  rfl

theorem decode_encAck (hidx : idx < 2 ^ 32) (status : UInt8) :
    decode jsonParse (encAck idx status) = .ok (.ack idx (some status)) := by
  have hread : readUInt32BE (Buffer.uint32BE idx ++ [status]) 0 = .ok idx := by
    have hlen : ¬ (Buffer.uint32BE idx ++ [status]).length < 0 + 4 := by
      rw [List.length_append, Buffer.length_uint32BE]
      omega
    rw [readUInt32BE, if_neg hlen]
    exact congrArg Except.ok (Buffer.readUInt32BE_append (a := []) rfl hidx)
  have hstatus : (Buffer.uint32BE idx ++ [status])[4]? = some status := by
    rw [List.getElem?_append_right (by rw [Buffer.length_uint32BE]), Buffer.length_uint32BE]
    rfl
  rw [encAck, decode, hread, hstatus]
  rfl

/-- **Decoding undoes encoding.** -/
theorem decode_encode {message : FileMessage} (h : WellFormed jsonParse message) :
    decode jsonParse (encode message) = .ok message := by
  cases message with
  | manifest m => exact decode_encManifest h
  | «have» fileId bitfield =>
    obtain ⟨id, hid, rfl⟩ := h
    exact decode_encHave hid bitfield
  | havePiece fileId idx =>
    obtain ⟨⟨id, hid, rfl⟩, hidx⟩ := h
    exact decode_encHavePiece hid hidx
  | chunkReq fileId idx =>
    obtain ⟨⟨id, hid, rfl⟩, hidx⟩ := h
    exact decode_encChunkReq hid hidx
  | chunkData fileId idx chunkHash signature data =>
    obtain ⟨⟨id, hid, rfl⟩, hidx, hhash, hsig⟩ := h
    exact decode_encChunkData hid hidx hhash hsig data
  | ack idx status =>
    obtain ⟨hidx, hstatus⟩ := h
    obtain ⟨status, rfl⟩ := Option.isSome_iff_exists.mp hstatus
    exact decode_encAck hidx status

/-- **The file protocol loses nothing**: a message is decoded as what it is, and no two messages
have the same encoding. -/
theorem file_protocol_round_trip (jsonParse : Buffer → Option Json) :
    (∀ message, WellFormed jsonParse message →
      decode jsonParse (encode message) = .ok message) ∧
    ∀ message message', WellFormed jsonParse message → WellFormed jsonParse message' →
      encode message = encode message' → message = message' := by
  refine ⟨fun message h ↦ decode_encode h, fun message message' h h' hencode ↦ ?_⟩
  have hdecode := decode_encode h
  rw [hencode, decode_encode h'] at hdecode
  exact (Except.ok.inj hdecode).symm

theorem file_protocol_round_trip_sample :
    decode (fun _ ↦ none) (encode (.havePiece (Buffer.hex (List.replicate 32 0xab)) 7)) =
        .ok (.havePiece (Buffer.hex (List.replicate 32 0xab)) 7) ∧
      encode (.havePiece (Buffer.hex (List.replicate 32 0xab)) 7) ≠
        encode (.chunkReq (Buffer.hex (List.replicate 32 0xab)) 7) := by
  obtain ⟨hdecode, hinj⟩ := file_protocol_round_trip fun _ ↦ none
  have hwell : IsFileId (Buffer.hex (List.replicate 32 0xab)) ∧ 7 < 2 ^ 32 :=
    ⟨⟨_, rfl, rfl⟩, by decide⟩
  refine ⟨hdecode _ hwell, fun heq ↦ ?_⟩
  exact nomatch hinj (.havePiece _ _) (.chunkReq _ _) hwell hwell heq

end

end FileProtocol

end AttestP2P
