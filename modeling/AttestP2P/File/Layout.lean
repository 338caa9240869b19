import AttestP2P.File.Protocol

/-!
# The layouts of messages

The layouts that `src/file/protocol.js` documents fix the length of a body, or bound it from below.
`decode` looks at no length: `subarray` clamps, `readUInt32BE` throws, and an index out of range
reads as `undefined`.  So a field may be cut off without notice, where it is the last to be read,
and bytes behind the last field are dropped.

* `Documented` is the documented grammar, and `Misfit` what `decode` accepts beyond it.
* `Strict` says of one message that it is refused, or has the documented layout and is what the
  encoder makes of its fields.
* `strict_iff`: `decode` is strict exactly where the length is no misfit, for every type but the
  manifest, whose body is JSON and has no layout.

The lemmas before it are one for each way of reading a field, and one for each type.
-/

set_option autoImplicit false

namespace AttestP2P

namespace FileProtocol

/-- The length of the body is that of the documented layout. -/
def Documented (type : UInt8) (n : ℕ) : Prop :=
  type = haveType ∧ 32 ≤ n ∨ (type = havePieceType ∨ type = chunkReqType) ∧ n = 36 ∨
    type = chunkDataType ∧ 132 ≤ n ∨ type = ackType ∧ n = 5

/-- A file id that is cut off, an index with something behind it, a chunk whose hash or signature is
cut off, and an acknowledgement without a status or with something behind it. -/
def Misfit (type : UInt8) (n : ℕ) : Prop :=
  type = haveType ∧ n < 32 ∨ (type = havePieceType ∨ type = chunkReqType) ∧ 36 < n ∨
    type = chunkDataType ∧ 36 ≤ n ∧ n < 132 ∨ type = ackType ∧ (n = 4 ∨ 5 < n)

@[simp] theorem documented_have (n : ℕ) : Documented haveType n ↔ 32 ≤ n := by
  simp [Documented, haveType, havePieceType, chunkReqType, chunkDataType, ackType]

theorem documented_idx {type : UInt8} (h : type = havePieceType ∨ type = chunkReqType) (n : ℕ) :
    Documented type n ↔ n = 36 := by
  rcases h with rfl | rfl
  · simp [Documented, haveType, havePieceType, chunkReqType, chunkDataType, ackType]
  · simp [Documented, haveType, havePieceType, chunkReqType, chunkDataType, ackType]

@[simp] theorem documented_chunkData (n : ℕ) : Documented chunkDataType n ↔ 132 ≤ n := by
  simp [Documented, haveType, havePieceType, chunkReqType, chunkDataType, ackType]

@[simp] theorem documented_ack (n : ℕ) : Documented ackType n ↔ n = 5 := by
  simp [Documented, haveType, havePieceType, chunkReqType, chunkDataType, ackType]

@[simp] theorem misfit_have (n : ℕ) : Misfit haveType n ↔ n < 32 := by
  simp [Misfit, haveType, havePieceType, chunkReqType, chunkDataType, ackType]

theorem misfit_idx {type : UInt8} (h : type = havePieceType ∨ type = chunkReqType) (n : ℕ) :
    Misfit type n ↔ 36 < n := by
  rcases h with rfl | rfl
  · simp [Misfit, haveType, havePieceType, chunkReqType, chunkDataType, ackType]
  · simp [Misfit, haveType, havePieceType, chunkReqType, chunkDataType, ackType]

@[simp] theorem misfit_chunkData (n : ℕ) : Misfit chunkDataType n ↔ 36 ≤ n ∧ n < 132 := by
  simp [Misfit, haveType, havePieceType, chunkReqType, chunkDataType, ackType]

@[simp] theorem misfit_ack (n : ℕ) : Misfit ackType n ↔ n = 4 ∨ 5 < n := by
  simp [Misfit, haveType, havePieceType, chunkReqType, chunkDataType, ackType]

/-- What is decoded from the message has the documented layout, and is encoded as the message. -/
def Strict (jsonParse : Buffer → Option Json) (type : UInt8) (body : Buffer) : Prop :=
  ∀ message, decode jsonParse (type :: body) = .ok message →
    Documented type body.length ∧ encode message = type :: body

variable {jsonParse : Buffer → Option Json} {type : UInt8} {body : Buffer} {offset : ℕ}

/-! ## Fields -/

theorem subarray_zero (body : Buffer) (n : ℕ) : Buffer.subarray body 0 n = body.take n := by
  simp [Buffer.subarray]

theorem readUInt32BE_of_le (h : offset + 4 ≤ body.length) :
    readUInt32BE body offset = .ok (Buffer.readUInt32BE body offset) := by
  rw [readUInt32BE, if_neg (Nat.not_lt.mpr h)]

theorem readUInt32BE_of_lt (h : body.length < offset + 4) :
    readUInt32BE body offset = .error
      (if body.length < 4 then "ERR_BUFFER_OUT_OF_BOUNDS" else "ERR_OUT_OF_RANGE") := by
  rw [readUInt32BE, if_pos h]

/-- The file id and the index, written again as they were read, are the first 36 bytes of
the body. -/
theorem rewrite_idx (h : 36 ≤ body.length) :
    Json.fromHex (Buffer.subarray body 0 32).hex ++ Buffer.uint32BE (Buffer.readUInt32BE body 32) =
      body.take 36 := by
  rw [Json.fromHex_hex, Buffer.uint32BE_readUInt32BE h,
    Buffer.subarray_append_subarray (Nat.zero_le 32) (by decide), subarray_zero]

/-! ## Each type

The six types are four layouts: a bitfield after the file id, an index after it, a chunk, and an
acknowledgement.  The misfits of each are given by its length alone. -/

theorem strict_have : Strict jsonParse haveType body ↔ 32 ≤ body.length := by
  have hdecode : decode jsonParse (haveType :: body) =
    .ok (.have (Buffer.subarray body 0 32).hex (body.drop 32)) := rfl
  constructor
  · intro h
    exact (documented_have _).mp (h _ hdecode).1
  · intro hlen message hmessage
    obtain rfl := Except.ok.inj (hdecode.symm.trans hmessage)
    refine ⟨(documented_have _).mpr hlen, ?_⟩
    rw [encode, encHave, Json.fromHex_hex, subarray_zero, List.take_append_drop]

/-- An announcement and a request have the same layout. -/
theorem strict_idx (message : String → ℕ → FileMessage)
    (htype : type = havePieceType ∨ type = chunkReqType)
    (hdecode : ∀ body, decode jsonParse (type :: body) =
      (readUInt32BE body 32).map fun idx ↦ message (Buffer.subarray body 0 32).hex idx)
    (hencode : ∀ fileId idx, encode (message fileId idx) =
      type :: (Json.fromHex fileId ++ Buffer.uint32BE idx)) :
    Strict jsonParse type body ↔ ¬36 < body.length := by
  rcases Nat.lt_or_ge body.length 36 with hshort | hlen
  · refine iff_of_true (fun m hm ↦ ?_) hshort.le.not_gt
    rw [hdecode, readUInt32BE_of_lt hshort] at hm
    exact nomatch hm
  · have hok := (hdecode body).trans (congrArg (Except.map _) (readUInt32BE_of_le hlen))
    constructor
    · intro h hlong
      have hlayout := (documented_idx htype _).mp (h _ hok).1
      omega
    · intro hnot m hm
      obtain rfl := Except.ok.inj (hok.symm.trans hm)
      refine ⟨(documented_idx htype _).mpr (by omega), ?_⟩
      rw [hencode, rewrite_idx hlen, List.take_of_length_le (Nat.not_lt.mp hnot)]

theorem strict_chunkData :
    Strict jsonParse chunkDataType body ↔ ¬(36 ≤ body.length ∧ body.length < 132) := by
  have hdecode : decode jsonParse (chunkDataType :: body) = (readUInt32BE body 32).map fun idx ↦
    .chunkData (Buffer.subarray body 0 32).hex idx (Buffer.subarray body 36 68)
      (Buffer.subarray body 68 132) (body.drop 132) := rfl
  rcases Nat.lt_or_ge body.length 36 with hshort | hlen
  · refine iff_of_true (fun m hm ↦ ?_) fun h ↦ absurd h.1 (Nat.not_le.mpr hshort)
    rw [hdecode, readUInt32BE_of_lt hshort] at hm
    exact nomatch hm
  · have hok := hdecode.trans (congrArg (Except.map _) (readUInt32BE_of_le hlen))
    constructor
    · rintro h ⟨-, hlong⟩
      have hlayout := (documented_chunkData _).mp (h _ hok).1
      omega
    · intro hnot m hm
      obtain rfl := Except.ok.inj (hok.symm.trans hm)
      refine ⟨(documented_chunkData _).mpr (by omega), ?_⟩
      have hfields : body.take 36 ++ (Buffer.subarray body 36 68 ++
          (Buffer.subarray body 68 132 ++ body.drop 132)) = body := by
        rw [← subarray_zero, ← List.append_assoc, ← List.append_assoc,
          Buffer.subarray_append_subarray (by decide) (by decide),
          Buffer.subarray_append_subarray (by decide) (by decide), subarray_zero,
          List.take_append_drop]
      rw [encode, encChunkData, ← List.append_assoc, rewrite_idx hlen, hfields]

/-- Of a shorter acknowledgement the status is `undefined`, which is written as zero. -/
theorem strict_ack : Strict jsonParse ackType body ↔ ¬(body.length = 4 ∨ 5 < body.length) := by
  have hdecode : decode jsonParse (ackType :: body) =
    (readUInt32BE body 0).map fun idx ↦ .ack idx body[4]? := rfl
  rcases Nat.lt_or_ge body.length 4 with hshort | hlen
  · refine iff_of_true (fun m hm ↦ ?_) (by omega)
    rw [hdecode, readUInt32BE_of_lt hshort] at hm
    exact nomatch hm
  · have hok := hdecode.trans (congrArg (Except.map _) (readUInt32BE_of_le hlen))
    constructor
    · intro h hlength
      have hlayout := (documented_ack _).mp (h _ hok).1
      omega
    · intro hnot m hm
      obtain rfl := Except.ok.inj (hok.symm.trans hm)
      have hfive : body.length = 5 := by omega
      have hstatus : [(body[4]?).getD 0] = body.drop 4 := by
        have hlast := Buffer.singleton_getD (b := body) (i := 4) (by omega)
        rw [List.getD_eq_getElem?_getD] at hlast
        rw [hlast, Buffer.subarray, List.take_of_length_le (by omega)]
      refine ⟨(documented_ack _).mpr hfive, ?_⟩
      rw [encode, encAck, Buffer.uint32BE_readUInt32BE hlen, hstatus, subarray_zero,
        List.take_append_drop]

/-- Other types are refused, whatever the body: there is no case for them. -/
theorem strict_unknown (hmanifest : type ≠ manifestType) (hhave : type ≠ haveType)
    (hidx : ¬(type = havePieceType ∨ type = chunkReqType)) (hdata : type ≠ chunkDataType)
    (hack : type ≠ ackType) : Strict jsonParse type body := by
  obtain ⟨hpiece, hreq⟩ := not_or.mp hidx
  intro m hm
  simp [decode, hmanifest, hhave, hpiece, hreq, hdata, hack] at hm

/-- **Only what is documented**, exactly where the length is no misfit. -/
theorem strict_iff (jsonParse : Buffer → Option Json) (type : UInt8) (body : Buffer)
    (hmanifest : type ≠ manifestType) :
    Strict jsonParse type body ↔ ¬Misfit type body.length := by
  by_cases hhave : type = haveType
  · subst hhave
    rw [strict_have, misfit_have, Nat.not_lt]
  by_cases hidx : type = havePieceType ∨ type = chunkReqType
  · rw [misfit_idx hidx]
    rcases hidx with rfl | rfl
    · exact strict_idx .havePiece (.inl rfl) (fun _ ↦ rfl) fun _ _ ↦ rfl
    · exact strict_idx .chunkReq (.inr rfl) (fun _ ↦ rfl) fun _ _ ↦ rfl
  by_cases hdata : type = chunkDataType
  · subst hdata
    rw [strict_chunkData, misfit_chunkData]
  by_cases hack : type = ackType
  · subst hack
    rw [strict_ack, misfit_ack]
  refine iff_of_true (strict_unknown hmanifest hhave hidx hdata hack) ?_
  simp [Misfit, hhave, hidx, hdata, hack]

/-- An acknowledgement without a status is accepted, and its status is `undefined`. -/
theorem not_strict : ¬Strict (fun _ ↦ none) ackType [0, 0, 0, 7] := by
  intro h
  obtain ⟨hlayout, -⟩ := h (.ack 7 none) rfl
  exact absurd ((documented_ack _).mp hlayout) (by decide)

theorem strict_sample :
    ackType ≠ manifestType ∧ Strict (fun _ ↦ none) ackType [0, 0, 0, 7, 1] :=
  ⟨by decide, (strict_iff (fun _ ↦ none) ackType [0, 0, 0, 7, 1] (by decide)).mpr (by simp)⟩

end FileProtocol

end AttestP2P
