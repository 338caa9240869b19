import AttestP2P.Crypto.Primitives
import AttestP2P.File.FileSystem
import AttestP2P.Js.Json
import AttestP2P.Lib.Slices

/-!
# Manifests

`src/file/manifest.js`: a manifest describes a file that is cut into chunks, and is signed by who
built it.

`buildManifest` reads the file, and throws if it cannot be read or is too long to be read at once.
It cuts the content into chunks of one size, but for the last one, and lists their digests; the id
of the file is the digest of all of it.  What is signed is the hash of the fields in a fixed order,
as `JSON.stringify` writes them.

`verifyManifest` is for what comes from the network, which is any JSON value.  It compares the
number of chunks and the sum of their sizes with the fields that announce them, and verifies the
signature under the key that the manifest itself names.  An exception is `none`: it throws outside
its `try` when an element of `chunks` is `null`, or has a `size` that is not converted to a
primitive value.

The results here are about manifests that have been built: their chunks tile the file
(`tiles_manifestOf`), and they are accepted.  What is accepted beyond these is the subject of
`File.ManifestShape`, and what the signature covers that of `File.Tampering`.
-/

set_option autoImplicit false

namespace AttestP2P

namespace Manifest

def defaultChunkSize : ℕ := 512 * 1024

/-- The fields that are signed, in the order in which the canonical text has them. -/
def signedFields : List String :=
  ["file_id", "filename", "size", "chunk_size", "nb_chunks", "chunks", "sender_id"]

/-- What is signed; `JSON.stringify` leaves an absent field out. -/
def ordered (m : Json) : Json :=
  .obj (signedFields.filterMap fun key ↦ (m.get key).map fun v ↦ (key, v))

variable (P : Primitives)

def manifestHash (m : Json) : Buffer := P.sha256 (Json.utf8 ((ordered m).stringify "" ""))

/-! ## Building -/

/-- An element of `chunks`: the index, the hash and the size of one slice of the file. -/
def chunk (index : ℕ) (data : Buffer) : Json :=
  .obj [("index", .num (.ofNat index)), ("hash", .str (P.sha256 data).hex),
    ("size", .num (.ofNat data.length))]

/-- The manifest of a file before it is signed. -/
def unsigned (sender : Buffer) (data : Buffer) (filename : String) (chunkSize : ℕ) :
    List (String × Json) :=
  let nbChunks := (data.length + chunkSize - 1) / chunkSize
  [("file_id", .str (P.sha256 data).hex), ("filename", .str filename),
    ("size", .num (.ofNat data.length)), ("chunk_size", .num (.ofNat chunkSize)),
    ("nb_chunks", .num (.ofNat nbChunks)),
    ("chunks", .arr ((List.range nbChunks).map fun i ↦
      chunk P i (data.subarray (i * chunkSize) (min (i * chunkSize + chunkSize) data.length)))),
    ("sender_id", .str sender.hex)]

/-- The manifest of a file with the given content and name, signed. -/
def manifestOf (key : P.SignKey) (data : Buffer) (filename : String) (chunkSize : ℕ) : Json :=
  let fields := unsigned P (P.publicKey key) data filename chunkSize
  .obj (fields ++ [("signature", .str (P.signDetached (manifestHash P (.obj fields)) key).hex)])

/-- `chunks.reduce((a, c) => a + c.size, 0)`: JavaScript's `+`, which also joins texts.  It throws
on a chunk that is `null`. -/
def totalSize (chunks : List Json) : Option Prim :=
  chunks.foldlM (fun a c ↦
    match c with
    | .null => none
    | c => Json.add a (c.get "size")) (.num 0)

/-- The signature of the manifest is one of its sender, over the canonical text; whatever throws on
the way counts as a refusal. -/
def verifySignature (m : Json) : Bool :=
  match Json.bufferFrom (m.get "signature"), Json.bufferFrom (m.get "sender_id") with
  | .ok signature, .ok sender =>
    (P.cryptoSignVerifyDetached signature (manifestHash P m) sender).toOption.getD false
  | _, _ => false

def verifyManifest (m : Json) : Option Bool :=
  if (m.get "file_id").any Json.truthy = false then some false
  else
    match m.get "chunks" with
    | some (.arr chunks) =>
      if Json.strictEq (.num (.ofNat chunks.length)) (m.get "nb_chunks") = false then some false
      else (totalSize chunks).map fun total ↦
        Json.strictEq total (m.get "size") && verifySignature P m
    | _ => some false

/-- An accepted manifest has a list of chunks, and counts them right. -/
theorem chunks_of_verifyManifest {P : Primitives} {m : Json} (h : verifyManifest P m = some true) :
    ∃ chunks, m.get "chunks" = some (.arr chunks) ∧
      Json.strictEq (.num (.ofNat chunks.length)) (m.get "nb_chunks") = true := by
  rw [verifyManifest] at h
  split at h
  · exact absurd h (by simp)
  · split at h
    · next chunks hchunks =>
      split at h
      · exact absurd h (by simp)
      · next hcount => exact ⟨chunks, hchunks, eq_true_of_ne_false hcount⟩
    · exact absurd h (by simp)

/-- An accepted manifest has a file id, which is truthy but need not be a string. -/
theorem fileId_of_verifyManifest {P : Primitives} {m : Json} (h : verifyManifest P m = some true) :
    ∃ fileId, m.get "file_id" = some fileId ∧ fileId.truthy = true := by
  rw [verifyManifest] at h
  split at h
  · exact absurd h (by simp)
  · next hid => simpa [Option.any_eq_true] using hid

section

open Slices

/-- The elements of `chunks`, one for each slice of the file in order. -/
def chunksOf (P : Primitives) (data : Buffer) (chunkSize : ℕ) : List Json :=
  (List.range (count data chunkSize)).map fun i ↦ chunk P i (slice data chunkSize i)

variable {P : Primitives} {key : P.SignKey} {data : Buffer} {filename : String} {chunkSize : ℕ}

theorem subarray_eq_slice (data : Buffer) (chunkSize i : ℕ) :
    data.subarray (i * chunkSize) (min (i * chunkSize + chunkSize) data.length) =
      slice data chunkSize i := by
  rw [Buffer.subarray, slice, ← List.take_eq_take_min, List.drop_take, Nat.add_sub_cancel_left]

theorem get_chunks_manifestOf : (manifestOf P key data filename chunkSize).get "chunks" =
    some (.arr (chunksOf P data chunkSize)) := by
  have hget : (manifestOf P key data filename chunkSize).get "chunks" =
    some (.arr ((List.range (count data chunkSize)).map fun i ↦
      chunk P i (data.subarray (i * chunkSize)
        (min (i * chunkSize + chunkSize) data.length)))) := rfl
  simp only [hget, subarray_eq_slice, chunksOf]

theorem totalSize_concat (chunks : List Json) (fields : List (String × Json)) :
    totalSize (chunks ++ [.obj fields]) =
      (totalSize chunks).bind fun a ↦ Json.add a ((Json.obj fields).get "size") := by
  rw [totalSize, List.foldlM_append]
  exact congrArg (Option.bind (totalSize chunks)) (funext fun _ ↦ bind_pure _)

/-- Sizes are added without rounding, as long as their sum is a safe integer. -/
theorem totalSize_map_range (P : Primitives) (slices : ℕ → Buffer) (k : ℕ)
    (h : ((List.range k).map fun i ↦ (slices i).length).sum ≤ 2 ^ 53) :
    totalSize ((List.range k).map fun i ↦ chunk P i (slices i)) =
      some (.num (.ofNat ((List.range k).map fun i ↦ (slices i).length).sum)) := by
  induction k with
  | zero => rfl
  | succ k ih =>
    rw [List.range_succ, List.map_append, List.sum_append, List.map_singleton,
      List.sum_singleton] at h
    rw [List.range_succ, List.map_append, List.map_append, List.map_singleton, List.map_singleton,
      chunk, totalSize_concat, ih (Nat.le_of_add_right_le h), List.sum_append, List.sum_singleton,
      ← Number.add_ofNat h]
    rfl

/-- The signature is not part of what is signed, so that it can be checked on the complete
manifest. -/
theorem manifestHash_manifestOf : manifestHash P (manifestOf P key data filename chunkSize) =
    manifestHash P (.obj (unsigned P (P.publicKey key) data filename chunkSize)) := rfl

theorem verifySignature_manifestOf (hP : P.Lawful) :
    verifySignature P (manifestOf P key data filename chunkSize) = true := by
  have hsignature : (manifestOf P key data filename chunkSize).get "signature" =
    some (.str (P.signDetached (manifestHash P (.obj (unsigned P (P.publicKey key) data filename
      chunkSize))) key).hex) := rfl
  have hsender : (manifestOf P key data filename chunkSize).get "sender_id" =
    some (.str (P.publicKey key).hex) := rfl
  rw [verifySignature, hsignature, hsender, Json.bufferFrom, Json.bufferFrom, Json.fromHex_hex,
    Json.fromHex_hex, manifestHash_manifestOf]
  dsimp only
  rw [Primitives.cryptoSignVerifyDetached, if_neg (not_not.mpr (hP.length_signDetached _ _)),
    if_neg (not_not.mpr (hP.length_publicKey _)), hP.verify_sign]
  rfl

/-- Hexadecimal text of a byte is not empty, so that a digest is never falsy. -/
theorem truthy_hex {b : Buffer} (h : b ≠ []) : (Json.str b.hex).truthy = true :=
  decide_eq_true fun hhex ↦ h (Buffer.hex_inj (b := []) hhex)

/-- A manifest that is built is accepted, if its signature is. -/
theorem verifyManifest_of_verifySignature (hid : P.sha256 data ≠ []) (hpos : 0 < chunkSize)
    (hlen : data.length ≤ Buffer.maxLength)
    (hsignature : verifySignature P (manifestOf P key data filename chunkSize) = true) :
    verifyManifest P (manifestOf P key data filename chunkSize) = some true := by
  have hlen' : data.length ≤ 2 ^ 53 := hlen.trans (Nat.sub_le _ _)
  have hfileId : (manifestOf P key data filename chunkSize).get "file_id" =
    some (.str (P.sha256 data).hex) := rfl
  have hnb : (manifestOf P key data filename chunkSize).get "nb_chunks" =
    some (.num (.ofNat (count data chunkSize))) := rfl
  have hsize : (manifestOf P key data filename chunkSize).get "size" =
    some (.num (.ofNat data.length)) := rfl
  have hcount : Json.strictEq (.num (.ofNat (count data chunkSize)))
      (some (.num (.ofNat (count data chunkSize)))) = true :=
    Number.strictEq_ofNat ((Slices.count_le hpos).trans hlen')
  have hsizes : Json.strictEq (.num (.ofNat data.length)) (some (.num (.ofNat data.length))) =
    true := Number.strictEq_ofNat hlen'
  have htotal : totalSize (chunksOf P data chunkSize) = some (.num (.ofNat data.length)) := by
    have hsum := sum_length_slice (l := data) hpos
    rw [chunksOf, totalSize_map_range, hsum]
    rwa [hsum]
  rw [verifyManifest, hfileId, get_chunks_manifestOf, hnb, hsize, hsignature, Option.any_some,
    truthy_hex hid]
  dsimp only
  rw [htotal, chunksOf, List.length_map, List.length_range, hcount, Option.map_some, hsizes]
  rfl

end

/-! ## One manifest -/

/-- The content of a file of nine bytes, which is the text `attestp2p`. -/
def sampleContent : Buffer := [97, 116, 116, 101, 115, 116, 112, 50, 112]

/-- Its SHA-256. -/
def sampleFileId : Buffer :=
  [122, 112, 239, 122, 51, 101, 0, 0, 63, 28, 82, 209, 242, 224, 96, 184, 137, 109, 86, 146, 141,
    172, 13, 21, 145, 214, 109, 237, 176, 110, 225, 192]

/-- The public key of the Ed25519 seed `9d61b19d…cae7f60`. -/
def sampleSender : Buffer :=
  [215, 90, 152, 1, 130, 177, 10, 183, 213, 75, 254, 211, 201, 100, 7, 58, 14, 225, 114, 243, 218,
    166, 35, 37, 175, 2, 26, 104, 247, 7, 81, 26]

/-- The SHA-256 of the fields that are signed. -/
def sampleHash : Buffer :=
  [14, 187, 123, 104, 71, 94, 70, 220, 234, 79, 17, 56, 167, 165, 183, 4, 110, 218, 245, 10, 173,
    144, 247, 154, 130, 162, 105, 62, 73, 191, 233, 66]

/-- Its signature. -/
def sampleSignature : Buffer :=
  [24, 26, 210, 216, 165, 236, 180, 155, 162, 94, 15, 234, 213, 189, 135, 59, 112, 155, 129, 116,
    232, 198, 219, 190, 221, 36, 34, 66, 145, 140, 200, 225, 17, 134, 157, 105, 177, 55, 205, 17,
    0, 151, 50, 163, 24, 152, 249, 6, 79, 204, 251, 249, 217, 161, 83, 6, 16, 49, 224, 51, 96, 3,
    229, 14]

/-- Functions that take the values of the real ones on the manifest below. -/
def samplePrimitives : Primitives where
  SignKey := Unit
  publicKey _ := sampleSender
  signDetached _ _ := sampleSignature
  verifyDetached signature message publicKey :=
    signature = sampleSignature ∧ message = sampleHash ∧ publicKey = sampleSender
  sha256 m := if m = sampleContent then sampleFileId else sampleHash
  hmacSha256 _ _ := List.replicate 32 0

/-- The manifest of the file `hello.txt`. -/
def sampleManifest : Json :=
  manifestOf samplePrimitives () sampleContent "hello.txt" defaultChunkSize

theorem manifestHash_sampleManifest :
    manifestHash samplePrimitives sampleManifest = sampleHash := by
  have hsha : ∀ b, b ≠ sampleContent → samplePrimitives.sha256 b = sampleHash := fun b h ↦ if_neg h
  refine hsha _ fun heq ↦ ?_
  have hhead := Json.head?_utf8_stringify_obj "" "" (signedFields.filterMap fun key ↦
    (sampleManifest.get key).map fun v ↦ (key, v))
  rw [ordered] at heq
  rw [heq] at hhead
  exact absurd hhead (by decide)

theorem verifySignature_sampleManifest :
    verifySignature samplePrimitives sampleManifest = true := by
  have hsignature : sampleManifest.get "signature" = some (.str sampleSignature.hex) := rfl
  have hsender : sampleManifest.get "sender_id" = some (.str sampleSender.hex) := rfl
  rw [verifySignature, hsignature, hsender, Json.bufferFrom, Json.bufferFrom, Json.fromHex_hex,
    Json.fromHex_hex, manifestHash_sampleManifest]
  decide

theorem verifyManifest_sampleManifest :
    verifyManifest samplePrimitives sampleManifest = some true :=
  verifyManifest_of_verifySignature (by decide) (by decide) (by decide)
    verifySignature_sampleManifest

end Manifest

end AttestP2P
