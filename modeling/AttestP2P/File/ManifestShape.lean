import AttestP2P.File.Protocol
import AttestP2P.File.Tampering

/-!
# What `verifyManifest` makes sure of

A manifest that is accepted should be one that `buildManifest` could have written (`WellFormed`),
and no value from the network should throw, whatever strings it has.

The function looks at a handful of things.  The chunks are as many as announced and their sizes add
up to the announced size, and the signature is valid.  It does not look at the digests, the indices,
the size of the single chunk or the name, and it adds up sizes that need not be numbers.

* `isSome_totalSize_iff`: the sizes of the chunks are added up unless one of them throws.
* `Regular` is what is never looked at, and `exists_divides_iff` says that it is all that is
  missing.
* `verifyManifest_sound_iff` puts the two together.  Its condition is made of the checks themselves:
  the manifest is refused by one of them, or nothing throws and it is regular.

The definitions are over `JsonValue`, whose strings may hold lone surrogates.
-/

set_option autoImplicit false

namespace AttestP2P

namespace ParsedManifest

open Slices

/-! ## Well-formed manifests -/

/-- A SHA-256 digest as it is written: 64 hexadecimal digits in lower case. -/
def IsDigest (v : Option JsonValue) : Prop :=
  ∃ digest, v = some (.str (.of digest)) ∧ FileProtocol.IsFileId digest

/-- The chunks cut `size` bytes into pieces of `chunkSize`. -/
structure Divides (m : JsonValue) (chunks : List JsonValue) (size chunkSize : ℕ) : Prop where
  pos : 0 < chunkSize
  get_size : m.get "size" = some (.num (.finite size))
  get_chunkSize : m.get "chunk_size" = some (.num (.finite chunkSize))
  get_nbChunks : m.get "nb_chunks" = some (.num (.ofNat chunks.length))
  count : chunks.length = (size + chunkSize - 1) / chunkSize
  index : ∀ (i : ℕ) (c : JsonValue), chunks[i]? = some c → c.get "index" = some (.num (.ofNat i))
  hash : ∀ (i : ℕ) (c : JsonValue), chunks[i]? = some c → IsDigest (c.get "hash")
  length : ∀ (i : ℕ) (c : JsonValue), chunks[i]? = some c →
    c.get "size" = some (.num (.finite (min chunkSize (size - i * chunkSize) : ℕ)))

/-- The signature of the manifest is a valid one of its sender. -/
def SignedBySender (P : Primitives) (m : JsonValue) : Prop :=
  ∃ signature sender, JsonValue.bufferFrom (m.get "signature") = .ok signature ∧
    JsonValue.bufferFrom (m.get "sender_id") = .ok sender ∧ signature.length = 64 ∧
    sender.length = 32 ∧ P.verifyDetached signature (manifestHash P m) sender = true

structure WellFormed (P : Primitives) (m : JsonValue) : Prop where
  fileId : IsDigest (m.get "file_id")
  filename : ∃ name, m.get "filename" = some (.str name)
  chunks : ∃ chunks size chunkSize, m.get "chunks" = some (.arr chunks) ∧
    Divides m chunks size chunkSize
  signed : SignedBySender P m

/-! ## The checks

What each check lets pass, read off the source.  A value that is added to a number is turned into a
primitive value first, which fails for an object with a method of its own. -/

/-- The checks before the sizes are added up. -/
structure Counted (m : JsonValue) (chunks : List JsonValue) : Prop where
  fileId : (m.get "file_id").any JsonValue.truthy = true
  get_chunks : m.get "chunks" = some (.arr chunks)
  nbChunks : JsonValue.strictEq (.num (.ofNat chunks.length)) (m.get "nb_chunks") = true

/-- `a + c.size` does not throw: the chunk is no `null`, and its size can be made a
primitive value. -/
def Addable (c : JsonValue) : Prop :=
  c ≠ .null ∧ ∀ size, c.get "size" = some size → size.toText.isSome

/-- The sizes add up to that of the file. -/
def Totals (m : JsonValue) (chunks : List JsonValue) : Prop :=
  ∃ total, totalSize chunks = some total ∧ JsonValue.strictEq total (m.get "size") = true

/-- What is not checked: the texts, the index and the hash of each chunk, and that all chunks but
the last are of one length, the last no longer, and their sum not rounded. -/
structure Regular (m : JsonValue) (chunks : List JsonValue) : Prop where
  fileId : IsDigest (m.get "file_id")
  filename : ∃ name, m.get "filename" = some (.str name)
  index : ∀ (i : ℕ) (c : JsonValue), chunks[i]? = some c → c.get "index" = some (.num (.ofNat i))
  hash : ∀ (i : ℕ) (c : JsonValue), chunks[i]? = some c → IsDigest (c.get "hash")
  lengths : ∃ (chunkSize : ℕ) (lengths : ℕ → ℕ), 0 < chunkSize ∧
    m.get "chunk_size" = some (.num (.finite chunkSize)) ∧
    Pieces chunkSize chunks.length lengths ∧
    (∀ (i : ℕ) (c : JsonValue), chunks[i]? = some c →
      c.get "size" = some (.num (.finite (lengths i)))) ∧
    m.get "size" = some (.num (.finite ((List.range chunks.length).map lengths).sum))

variable {P : Primitives} {m : JsonValue} {chunks : List JsonValue}

theorem isSome_add (a : JsPrim) (v : Option JsonValue) :
    (JsonValue.add a v).isSome ↔ ∀ w, v = some w → w.toText.isSome := by
  cases v with
  | none =>
    refine ⟨fun _ w h ↦ (nomatch h), fun _ ↦ ?_⟩
    cases a <;> rfl
  | some v =>
    have hv : (∀ w, some v = some w → w.toText.isSome) ↔ v.toText.isSome :=
      ⟨fun h ↦ h v rfl, fun h w hw ↦ Option.some.inj hw ▸ h⟩
    rw [hv]
    cases a with
    | str s => simp [JsonValue.add]
    | num n => cases v <;> simp [JsonValue.add, JsonValue.toNumber, JsonValue.toText]

/-- A loop that may stop at any element gets to the end, if it stops at none. -/
theorem isSome_foldlM_iff {α β : Type} {f : β → α → Option β} {p : α → Prop}
    (hf : ∀ b a, (f b a).isSome ↔ p a) (l : List α) (b : β) :
    (l.foldlM f b).isSome ↔ ∀ a ∈ l, p a := by
  induction l generalizing b with
  | nil => simp
  | cons a l ih =>
    rw [List.foldlM_cons, List.forall_mem_cons, ← hf b a]
    cases hfa : f b a with
    | none => simp
    | some b' => simpa using ih b'

theorem isSome_totalSize_iff : (totalSize chunks).isSome ↔ ∀ c ∈ chunks, Addable c := by
  refine isSome_foldlM_iff (fun a c ↦ ?_) chunks _
  cases c with
  | null => simp [Addable]
  | _ => simp only [Addable, ne_eq, reduceCtorEq, not_false_eq_true, true_and, isSome_add]

theorem verifySignature_iff : verifySignature P m = true ↔ SignedBySender P m := by
  rw [verifySignature, SignedBySender]
  cases hsignature : JsonValue.bufferFrom (m.get "signature") with
  | error e => simp
  | ok signature =>
    cases hsender : JsonValue.bufferFrom (m.get "sender_id") with
    | error e => simp
    | ok sender =>
      simp only [Except.ok.injEq, exists_and_left, exists_eq_left',
        Primitives.cryptoSignVerifyDetached]
      split_ifs with hlen hid
      · simp [Except.toOption, hlen]
      · simp [Except.toOption, hid]
      · simp only [Except.toOption, Option.getD_some, not_not.mp hlen, not_not.mp hid, true_and]

/-- What becomes of a manifest that is counted right. -/
theorem Counted.verifyManifest_eq (h : Counted m chunks) :
    verifyManifest P m = (totalSize chunks).map fun total ↦
      JsonValue.strictEq total (m.get "size") && verifySignature P m := by
  rw [verifyManifest, if_neg (by simp [h.fileId]), h.get_chunks]
  exact if_neg (by simp [h.nbChunks])

/-- Every other manifest is refused. -/
theorem verifyManifest_of_not_counted (h : ∀ chunks, ¬Counted m chunks) :
    verifyManifest P m = some false := by
  rw [verifyManifest]
  split
  · rfl
  · next hid =>
    split
    · next chunks hchunks =>
      split
      · rfl
      · next hcount =>
        exact absurd ⟨eq_true_of_ne_false hid, hchunks, eq_true_of_ne_false hcount⟩ (h chunks)
    · rfl

theorem Counted.verifyManifest_eq_true (h : Counted m chunks) :
    verifyManifest P m = some true ↔ Totals m chunks ∧ SignedBySender P m := by
  rw [h.verifyManifest_eq, Option.map_eq_some_iff, ← verifySignature_iff, Totals]
  constructor
  · rintro ⟨total, htotal, heq⟩
    obtain ⟨hsize, hsignature⟩ := (Bool.and_eq_true_iff).mp heq
    exact ⟨⟨total, htotal, hsize⟩, hsignature⟩
  · rintro ⟨⟨total, htotal, hsize⟩, hsignature⟩
    exact ⟨total, htotal, by rw [hsize, hsignature, Bool.and_self]⟩

/-! ## What is missing

Where all checks are passed, what is left of being well formed is what none of them looks at. -/

/-- **What is not checked is all that is missing.** -/
theorem exists_divides_iff (hnb : m.get "nb_chunks" = some (.num (.ofNat chunks.length))) :
    (IsDigest (m.get "file_id") ∧ (∃ name, m.get "filename" = some (.str name)) ∧
      ∃ size chunkSize, Divides m chunks size chunkSize) ↔ Regular m chunks := by
  constructor
  · rintro ⟨hfileId, hfilename, size, chunkSize, h⟩
    have hcount : chunks.length = count (List.replicate size ()) chunkSize := by
      rw [count, List.length_replicate, h.count]
    have hlength (i : ℕ) : (slice (List.replicate size ()) chunkSize i).length =
        min chunkSize (size - i * chunkSize) := by
      rw [length_slice, List.length_replicate]
    refine ⟨hfileId, hfilename, h.index, h.hash, chunkSize,
      fun i ↦ (slice (List.replicate size ()) chunkSize i).length, h.pos, h.get_chunkSize, ?_,
      fun i c hc ↦ ?_, ?_⟩
    · rw [hcount]
      exact pieces_slice h.pos
    · dsimp only
      rw [h.length i c hc, hlength]
    · rw [hcount, sum_length_slice h.pos, List.length_replicate]
      exact h.get_size
  · rintro ⟨hfileId, hfilename, hindex, hhash, chunkSize, lengths, hpos, hchunkSize, hpieces,
      hlengths, hsize⟩
    obtain ⟨hcount, heach⟩ := hpieces.spec hpos
    refine ⟨hfileId, hfilename, _, chunkSize, hpos, hsize, hchunkSize, hnb, hcount, hindex, hhash,
      fun i c hc ↦ ?_⟩
    rw [hlengths i c hc, heach i (List.getElem?_eq_some_iff.mp hc).1]

theorem Counted.get_nbChunks (h : Counted m chunks) :
    m.get "nb_chunks" = some (.num (.ofNat chunks.length)) := by
  have hcount := h.nbChunks
  cases hnb : m.get "nb_chunks" with
  | none => exact absurd hcount (by simp [hnb, JsonValue.strictEq])
  | some nb =>
    rw [hnb] at hcount
    cases nb with
    | num q =>
      obtain ⟨-, rfl⟩ := of_decide_eq_true hcount
      rfl
    | _ => exact nomatch hcount

theorem Counted.wellFormed_iff (h : Counted m chunks) :
    WellFormed P m ↔ Regular m chunks ∧ SignedBySender P m := by
  rw [← exists_divides_iff h.get_nbChunks]
  constructor
  · rintro ⟨hfileId, hfilename, ⟨chunks', size, chunkSize, hchunks, hdivides⟩, hsigned⟩
    obtain rfl : chunks = chunks' :=
      JsonValue.arr.inj (Option.some.inj (h.get_chunks.symm.trans hchunks))
    exact ⟨⟨hfileId, hfilename, size, chunkSize, hdivides⟩, hsigned⟩
  · rintro ⟨⟨hfileId, hfilename, size, chunkSize, hdivides⟩, hsigned⟩
    exact ⟨hfileId, hfilename, ⟨chunks, size, chunkSize, h.get_chunks, hdivides⟩, hsigned⟩

/-- **`verifyManifest` returns, and accepts well-formed manifests only**, exactly if the manifest is
refused by the first checks, or its sizes are added up without an exception, and what is not checked
is as it should be unless one of the other checks fails. -/
theorem verifyManifest_sound_iff (P : Primitives) (m : JsonValue) :
    (∃ b, verifyManifest P m = some b ∧ (b = true → WellFormed P m)) ↔
      ∀ chunks, Counted m chunks →
        (∀ c ∈ chunks, Addable c) ∧ (Totals m chunks ∧ SignedBySender P m → Regular m chunks) := by
  constructor
  · rintro ⟨b, hb, hsound⟩ chunks h
    rw [← isSome_totalSize_iff]
    refine ⟨?_, fun haccepted ↦ ?_⟩
    · rw [h.verifyManifest_eq] at hb
      obtain ⟨total, htotal, -⟩ := Option.map_eq_some_iff.mp hb
      rw [htotal]
      rfl
    · have htrue := (h.verifyManifest_eq_true (P := P)).mpr haccepted
      obtain rfl := Option.some.inj (hb.symm.trans htrue)
      exact (h.wellFormed_iff.mp (hsound rfl)).1
  · intro hall
    by_cases h : ∃ chunks, Counted m chunks
    · obtain ⟨chunks, h⟩ := h
      obtain ⟨haddable, hregular⟩ := hall chunks h
      obtain ⟨total, htotal⟩ := Option.isSome_iff_exists.mp (isSome_totalSize_iff.mpr haddable)
      have hb := h.verifyManifest_eq (P := P)
      rw [htotal, Option.map_some] at hb
      refine ⟨_, hb, fun htrue ↦ ?_⟩
      rw [htrue] at hb
      have haccepted := h.verifyManifest_eq_true.mp hb
      exact h.wellFormed_iff.mpr ⟨hregular haccepted, haccepted.2⟩
    · exact ⟨false, verifyManifest_of_not_counted (not_exists.mp h), nofun⟩

/-! ## Two manifests -/

/-- A manifest whose only chunk is `null`, so that the sum of the sizes throws. -/
def nullChunk : Json :=
  .obj [("file_id", .str "x"), ("nb_chunks", .num (.ofNat 1)), ("chunks", .arr [.null])]

def parentIdSignature : String :=
  "552687c1e5d1cde8d3db453322b34bf59c53ba597779b0998446aaddfd560a88" ++
  "d6f966dd6e761eb96a162aae538228903513ca2da7333ad9bc6d2553209d1304"

/-- A manifest without chunks, with the id `..` and no name, as its sender signs it. -/
def parentId : Json :=
  .obj [("file_id", .str ".."), ("size", .num (.ofNat 0)), ("nb_chunks", .num (.ofNat 0)),
    ("chunks", .arr []), ("sender_id", .str Manifest.sampleSender.hex),
    ("signature", .str parentIdSignature)]

/-- The text that the sender of this manifest signs. -/
def parentIdText : String := (Manifest.ordered parentId).stringify "" ""

def parentIdHash : Buffer :=
  Json.fromHex "319725c6dc89837135e848ddd803762efb8aca8e1dc6b0528d92b16c149fc7ba"

/-- Functions that take the values of the real ones on this manifest. -/
def parentIdPrimitives : Primitives := { Manifest.samplePrimitives with
  sha256 := fun m ↦ if m = Json.utf8 parentIdText then parentIdHash else Manifest.sampleHash
  verifyDetached := fun signature message publicKey ↦
    signature = Json.fromHex parentIdSignature ∧ message = parentIdHash ∧
      publicKey = Manifest.sampleSender }

/-- The first throws, and the second is accepted. -/
theorem verifyManifest_not_sound :
    verifyManifest parentIdPrimitives (.ofJson nullChunk) = none ∧
      verifyManifest parentIdPrimitives (.ofJson parentId) = some true ∧
      ¬WellFormed parentIdPrimitives (.ofJson parentId) := by
  have hsha : ∀ b, b = Json.utf8 parentIdText → parentIdPrimitives.sha256 b = parentIdHash :=
    fun b h ↦ if_pos h
  have hhash : Manifest.manifestHash parentIdPrimitives parentId = parentIdHash :=
    hsha _ (by rw [parentIdText])
  have hverify : ∀ signature message publicKey, signature = Json.fromHex parentIdSignature →
      message = parentIdHash → publicKey = Manifest.sampleSender →
      parentIdPrimitives.verifyDetached signature message publicKey = true :=
    fun _ _ _ hs hm hk ↦ decide_eq_true ⟨hs, hm, hk⟩
  have hsignature : Manifest.verifySignature parentIdPrimitives parentId = true := by
    have hsignature : parentId.get "signature" = some (.str parentIdSignature) := rfl
    have hsender : parentId.get "sender_id" = some (.str Manifest.sampleSender.hex) := rfl
    rw [Manifest.verifySignature, hsignature, hsender, Json.bufferFrom, Json.bufferFrom,
      Json.fromHex_hex, hhash]
    dsimp only
    rw [Primitives.cryptoSignVerifyDetached, if_neg (by decide +kernel), if_neg (by decide),
      hverify _ _ _ rfl rfl rfl]
    rfl
  refine ⟨?_, ?_, fun h ↦ ?_⟩
  · rw [verifyManifest_ofJson]
    rfl
  · have hid : ¬(parentId.get "file_id").any Json.truthy = false := by decide +kernel
    have hchunks : parentId.get "chunks" = some (.arr []) := rfl
    have hcount : ¬Json.strictEq (.num (.ofNat 0)) (parentId.get "nb_chunks") = false := by
      decide +kernel
    have htotal : Json.strictEq (.num 0) (parentId.get "size") = true := by decide +kernel
    rw [verifyManifest_ofJson, Manifest.verifyManifest, if_neg hid, hchunks]
    dsimp only [List.length_nil]
    rw [if_neg hcount, hsignature]
    exact congrArg (fun b ↦ some (b && true)) htotal
  · obtain ⟨name, hname⟩ := h.filename
    rw [JsonValue.get_ofJson] at hname
    cases hname

end ParsedManifest

end AttestP2P
