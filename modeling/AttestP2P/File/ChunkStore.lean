import AttestP2P.Crypto.Primitives
import AttestP2P.File.FileSystem
import AttestP2P.Js.PlainObject

/-!
# The chunk store

`src/file/chunkStore.js`: the chunks of each file in a directory of its own below `baseDir`, and an
index of what is there, which is saved after each change.

The index in memory is what is asked; the one on disk is read when the store is opened again.  A
file has an entry in it from the moment its manifest is registered, with the numbers of the chunks
that have been put in, in ascending order.  A chunk is written before it is listed, and listed
before the index is saved, so that after an exception the three may differ.  An operation therefore
returns the store as it leaves it, also when it throws: the index in memory and the disk keep what
was done before the exception.

The keys of the index are texts from manifests, and `index.files` is an ordinary object.  A name
such as `toString` is found on its prototype, with an entry that is not one (`Indexed.inherited`).

The sections after the operations say what each of them leaves alone, of the index and of the disk.
-/

set_option autoImplicit false

namespace AttestP2P

/-- What the index keeps of a file; a field is `none` where the manifest has none. -/
structure StoreEntry where
  filename : Option Json
  size : Option Json
  chunkSize : Option Json
  nbChunks : Option Json
  chunks : List ℕ
  replicationFactor : ℕ

/-- What `index.files[key]` is, where `files` is a plain object, so that it also has what it
inherits. -/
inductive Indexed where
  | entry (e : StoreEntry)
  /-- A property of `Object.prototype`, which has no chunks. -/
  | inherited
  | absent

structure ChunkStore where
  baseDir : Location
  /-- `index.files`. -/
  files : OrderedMap String StoreEntry
  disk : FileSystem

/-- How often `for (let i = 0; i < nb; i++)` goes round; `none` if it throws or does not end. -/
def loopCount (nb : Option Json) : Option ℕ :=
  match nb with
  | none => some 0
  | some v => v.toNumber.bind Number.countBelow

namespace ChunkStore

/-- `index.files[key]`: an own property first, then one of `Object.prototype`. -/
def lookup (s : ChunkStore) (key : String) : Indexed :=
  match s.files.get? key with
  | some e => .entry e
  | none => if key ∈ inheritedNames then .inherited else .absent

/-! ## The index on disk -/

def indexPath (s : ChunkStore) : Location := s.baseDir ++ ["index.json"]

def entryJson (e : StoreEntry) : Json :=
  let present (key : String) (v : Option Json) : List (String × Json) :=
    v.elim [] fun v ↦ [(key, v)]
  .obj (present "filename" e.filename ++ present "size" e.size ++
    present "chunk_size" e.chunkSize ++ present "nb_chunks" e.nbChunks ++
    [("chunks", .arr (e.chunks.map fun i ↦ .num (.ofNat i))),
      ("replicationFactor", .num (.ofNat e.replicationFactor))])

/-- `JSON.stringify(this.index, null, 2)`, the text that the whole index is saved as. -/
def indexText (s : ChunkStore) : Buffer :=
  Json.utf8 ((Json.obj [("files", .obj ((enumerate s.files.entries).map fun e ↦
    (e.1, entryJson e.2)))]).stringify "  " "")

/-- `_load`: what the index is when the store is opened again. -/
def load (jsonParse : Buffer → Option Json) (s : ChunkStore) : Json :=
  match s.disk.readFileSync s.indexPath with
  | .ok content => (jsonParse content).getD (.obj [("files", .obj [])])
  | .error _ => .obj [("files", .obj [])]

/-- `_save`: the index file is written anew.  Where this throws, the index in memory is ahead of the
disk. -/
def save (s : ChunkStore) : ChunkStore × Except String Unit :=
  match s.disk.writeFileSync s.indexPath s.indexText with
  | .ok disk => ({ s with disk := disk }, .ok ())
  | .error e => (s, .error e)

/-! ## Files and chunks -/

/-- `_dir`, without the slash that `path.join` may keep at the end: the path is that of a directory,
or is joined with a name. -/
def dir (s : ChunkStore) (fileId : String) : Location := s.baseDir.resolve fileId

/-- The file that a chunk is kept in, in the directory that `file_id` is joined to without being
looked at. -/
def chunkPath (s : ChunkStore) (fileId : String) (idx : ℕ) : Location :=
  (s.dir fileId).join (Nat.repr idx ++ ".chunk")

/-- The entry that a manifest makes.  Its fields are taken over as they are, also when they are
missing. -/
def newEntry (m : Json) : StoreEntry where
  filename := m.get "filename"
  size := m.get "size"
  chunkSize := m.get "chunk_size"
  nbChunks := m.get "nb_chunks"
  chunks := []
  replicationFactor := 1

/-- The file gets an entry, unless it has one: a second manifest for the same id does not change the
counts of the first. -/
def addEntry (s : ChunkStore) (key : String) (m : Json) : ChunkStore :=
  match s.lookup key with
  | .absent => { s with files := s.files.set key (newEntry m) }
  | _ => s

/-- `registerManifest(m)`, where `key` is the property that `m.file_id` names; `path.join` takes
strings only. -/
def registerManifest (s : ChunkStore) (key : String) (m : Json) :
    ChunkStore × Except String Unit :=
  let s := s.addEntry key m
  match m.get "file_id" with
  | some (.str fileId) =>
    match s.disk.mkdirSync (s.dir fileId) with
    | .ok disk => { s with disk := disk }.save
    | .error e => (s, .error e)
  | _ => (s, .error "ERR_INVALID_ARG_TYPE")

def hasChunk (s : ChunkStore) (fileId : String) (idx : ℕ) : Except String Bool :=
  match s.lookup fileId with
  | .entry e => .ok (e.chunks.contains idx)
  | .inherited => .error "Cannot read properties of undefined (reading 'includes')"
  | .absent => .ok false

def getChunk (s : ChunkStore) (fileId : String) (idx : ℕ) : Except String Buffer :=
  s.disk.readFileSync (s.chunkPath fileId idx)

/-- The index lists the chunk, in the ascending order that `sort` restores after each `push`. -/
def addChunk (e : StoreEntry) (idx : ℕ) : StoreEntry :=
  { e with chunks := (e.chunks ++ [idx]).mergeSort }

/-- `putChunk`, which returns `ok`.  The hash is compared only where one is expected; the file is
written before the index, which is saved only when a new chunk is listed. -/
def putChunk (P : Primitives) (s : ChunkStore) (fileId : String) (idx : ℕ) (data : Buffer)
    (expectedHashHex : Option Json) : ChunkStore × Except String Bool :=
  if expectedHashHex.any Json.truthy &&
      !Json.strictEq (.str (P.sha256 data).hex) expectedHashHex then (s, .ok false)
  else
    match s.disk.writeFileSync (s.chunkPath fileId idx) data with
    | .error e => (s, .error e)
    | .ok disk =>
      let s := { s with disk := disk }
      match s.lookup fileId with
      | .absent => (s, .ok true)
      | .inherited => (s, .error "Cannot read properties of undefined (reading 'includes')")
      | .entry e =>
        if e.chunks.contains idx then (s, .ok true)
        else
          let (s, saved) := { s with files := s.files.set fileId (addChunk e idx) }.save
          (s, saved.map fun _ ↦ true)

/-- `availableChunks`: the indices that the index lists, in their order. -/
def availableChunks (s : ChunkStore) (fileId : String) : Except String (List ℕ) :=
  match s.lookup fileId with
  | .entry e => .ok e.chunks
  | .inherited => .error "Cannot read properties of undefined (reading 'slice')"
  | .absent => .ok []

def isComplete (s : ChunkStore) (fileId : String) : Except String Bool :=
  match s.lookup fileId with
  | .entry e => .ok (Json.strictEq (.num (.ofNat e.chunks.length)) e.nbChunks)
  | .inherited => .error "Cannot read properties of undefined (reading 'length')"
  | .absent => .ok false

/-! ## Bitfields

The first chunk is the highest bit of the first byte.  Sending and receiving go by the same order of
bits; how many of them count, the receiver has to know from elsewhere. -/

/-- `bf[i >> 3] & (1 << (7 - (i & 7)))` is not zero. -/
def bitSet (bf : Buffer) (i : ℕ) : Bool :=
  i % 2 ^ 32 < 2 ^ 31 && (bf[i % 2 ^ 32 / 8]?).any fun b ↦ b.toNat.testBit (7 - i % 8)

/-- A byte of `bitfield`: the bits of the chunks that fall into byte `j`. -/
def bitfieldByte (chunks : List ℕ) (j : ℕ) : UInt8 :=
  chunks.foldl (fun b i ↦ if i / 8 = j then b ||| UInt8.ofNat (2 ^ (7 - i % 8)) else b) 0

/-- `Math.ceil(nb / 8)`, as the length of a buffer; `none` where `Buffer.alloc` throws on it. -/
def bitfieldLength (nb : Option Json) : Option ℕ :=
  match nb.bind Json.toNumber with
  | some (.finite q) => if -8 < q then some ⌈q / 8⌉₊ else none
  | _ => none

/-- `bitfield`, which throws when the number of chunks is none. -/
def bitfield (s : ChunkStore) (fileId : String) : Except String Buffer :=
  match s.lookup fileId with
  | .absent => .ok []
  | .inherited => .error "ERR_OUT_OF_RANGE"
  | .entry e =>
    match bitfieldLength e.nbChunks with
    | some n => .ok ((List.range n).map (bitfieldByte e.chunks))
    | none => .error "ERR_OUT_OF_RANGE"

/-- `parseBitfield`: the indices below the count whose bit is set.  It is `none` if the loop throws
or does not end. -/
def parseBitfield (bf : Buffer) (nbChunks : Option Json) : Option (List ℕ) :=
  (loopCount nbChunks).map fun n ↦ (List.range n).filter (bitSet bf)

/-! ## Putting a file together

The chunks are read and appended one by one to a file that is opened for writing first, so that its
old content is gone by then.  That matters where the output is itself one of the chunks. -/

/-- Copy chunks to the end of `out`, and return what was copied. -/
def copyChunks (s : ChunkStore) (fileId : String) (out : Location) (copied : Buffer) :
    List ℕ → ChunkStore × Except String Buffer
  | [] => (s, .ok copied)
  | i :: is =>
    match s.getChunk fileId i with
    | .error e => (s, .error e)
    | .ok d => copyChunks { s with disk := s.disk.writeSync out d } fileId out (copied ++ d) is

/-- `assemble`, which returns the digest.  The output is opened first, so that a chunk that cannot
be read leaves the beginning of the file behind. -/
def assemble (P : Primitives) (s : ChunkStore) (fileId : String) (outPath : Location) :
    ChunkStore × Except String String :=
  match s.lookup fileId with
  | .entry e =>
    if Json.strictEq (.num (.ofNat e.chunks.length)) e.nbChunks = false then
      (s, .error "fichier incomplet")
    else
      match s.disk.writeFileSync outPath [] with
      | .error e => (s, .error e)
      | .ok disk =>
        let (s, copied) :=
          { s with disk := disk }.copyChunks fileId outPath [] (List.range e.chunks.length)
        (s, copied.map fun d ↦ (P.sha256 d).hex)
  | .inherited => (s, .error "Cannot read properties of undefined (reading 'length')")
  | .absent => (s, .error "fichier incomplet")

/-! ## What the operations leave alone -/

@[simp] theorem files_save (s : ChunkStore) : s.save.1.files = s.files := by
  rw [save]
  split
  · rfl
  · rfl

@[simp] theorem files_registerManifest (s : ChunkStore) (key : String) (m : Json) :
    (s.registerManifest key m).1.files = (s.addEntry key m).files := by
  rw [registerManifest]
  split
  · split
    · exact files_save _
    · rfl
  · rfl

/-- The entries of a store, as `addEntry` writes them. -/
def entryWrites : KeyedWrites (String → Option StoreEntry) String Json (Option StoreEntry) where
  read files key := files key
  write files e key :=
    if key = e.1 then
      if key ∈ inheritedNames then files key else some ((files key).getD (newEntry e.2))
    else files key
  merge key o m := if key ∈ inheritedNames then o else some (o.getD (newEntry m))
  read_write _ _ _ := rfl
  merge_idem key o m := by split <;> rfl

theorem get?_addEntry {s : ChunkStore} {key j : String} {m : Json} :
    (s.addEntry key m).files.get? j =
      if j = key then
        if j ∈ inheritedNames then s.files.get? j else some ((s.files.get? j).getD (newEntry m))
      else s.files.get? j := by
  rw [addEntry, lookup]
  by_cases hj : j = key
  · subst hj
    cases hget : s.files.get? j with
    | some e =>
      rw [if_pos rfl, Option.getD_some, ite_self]
      exact hget
    | none =>
      by_cases hinherited : j ∈ inheritedNames
      · rw [if_pos rfl, if_pos hinherited, if_pos hinherited]
        exact hget
      · rw [if_pos rfl, if_neg hinherited, if_neg hinherited]
        exact OrderedMap.get?_set_self
  · rw [if_neg hj]
    cases hget : s.files.get? key with
    | some e => rfl
    | none =>
      by_cases hinherited : key ∈ inheritedNames
      · rw [if_pos hinherited]
      · rw [if_neg hinherited]
        exact OrderedMap.get?_set_of_ne hj

/-! ## What the index lists

The index only grows: a chunk that is listed stays listed, and a file that has an entry keeps it. -/

theorem hasChunk_iff {s : ChunkStore} {fileId : String} {idx : ℕ} :
    s.hasChunk fileId idx = .ok true ↔ ∃ e, s.files.get? fileId = some e ∧ idx ∈ e.chunks := by
  rw [hasChunk, lookup]
  cases s.files.get? fileId with
  | some e => simp
  | none => by_cases h : fileId ∈ inheritedNames <;> simp [h]

/-- The index has an entry for the file, or finds one in `Object.prototype`. -/
def Known (s : ChunkStore) (key : String) : Prop := (s.files.get? key).isSome ∨ key ∈ inheritedNames

/-- What is listed in one store is listed in the other. -/
def Grows (s s' : ChunkStore) : Prop :=
  ∀ key e, s.files.get? key = some e → ∃ e', s'.files.get? key = some e' ∧ e.chunks ⊆ e'.chunks

theorem Grows.of_files_eq {s s' : ChunkStore} (h : s'.files = s.files) : Grows s s' :=
  fun _ e he ↦ ⟨e, by rw [h, he], List.Subset.refl _⟩

theorem Grows.trans {s s' s'' : ChunkStore} (h : Grows s s') (h' : Grows s' s'') : Grows s s'' := by
  intro key e he
  obtain ⟨e', he', hsub⟩ := h key e he
  obtain ⟨e'', he'', hsub'⟩ := h' key e' he'
  exact ⟨e'', he'', List.Subset.trans hsub hsub'⟩

theorem Grows.hasChunk {s s' : ChunkStore} (h : Grows s s') {fileId : String} {idx : ℕ}
    (hchunk : s.hasChunk fileId idx = .ok true) : s'.hasChunk fileId idx = .ok true := by
  obtain ⟨e, he, hidx⟩ := hasChunk_iff.mp hchunk
  obtain ⟨e', he', hsub⟩ := h fileId e he
  exact hasChunk_iff.mpr ⟨e', he', hsub hidx⟩

theorem Grows.known {s s' : ChunkStore} (h : Grows s s') {key : String} (hknown : s.Known key) :
    s'.Known key := by
  refine hknown.imp_left fun hsome ↦ ?_
  obtain ⟨e, he⟩ := Option.isSome_iff_exists.mp hsome
  obtain ⟨e', he', -⟩ := h key e he
  rw [he']
  rfl

theorem grows_registerManifest (s : ChunkStore) (key : String) (m : Json) :
    Grows s (s.registerManifest key m).1 := by
  intro j e he
  rw [files_registerManifest, get?_addEntry, he]
  refine ⟨e, ?_, List.Subset.refl _⟩
  simp

theorem known_registerManifest (s : ChunkStore) (key : String) (m : Json) :
    (s.registerManifest key m).1.Known key := by
  rw [Known, files_registerManifest, get?_addEntry, if_pos rfl]
  by_cases hkey : key ∈ inheritedNames
  · exact .inr hkey
  · rw [if_neg hkey]
    exact .inl rfl

/-- What `putChunk` does to the index: nothing, or it lists the one chunk, which was not listed
before. -/
theorem files_putChunk (P : Primitives) (s : ChunkStore) (fileId : String) (idx : ℕ) (data : Buffer)
    (expected : Option Json) :
    ((s.putChunk P fileId idx data expected).1.files = s.files ∧
      ((s.putChunk P fileId idx data expected).2 = .ok true → s.Known fileId →
        s.hasChunk fileId idx = .ok true)) ∨
    ∃ e, s.files.get? fileId = some e ∧
      (s.putChunk P fileId idx data expected).1.files = s.files.set fileId (addChunk e idx) := by
  rw [putChunk]
  split
  · exact .inl ⟨rfl, fun h ↦ absurd h (by simp)⟩
  · split
    · exact .inl ⟨rfl, fun h ↦ absurd h (by simp)⟩
    · next disk _ =>
      dsimp only
      rw [lookup]
      cases hget : s.files.get? fileId with
      | none =>
        by_cases hinherited : fileId ∈ inheritedNames
        · rw [if_pos hinherited]
          exact .inl ⟨rfl, fun h ↦ absurd h (by simp)⟩
        · rw [if_neg hinherited]
          refine .inl ⟨rfl, fun _ hknown ↦ ?_⟩
          exact absurd hknown (by simp [Known, hget, hinherited])
      | some e =>
        dsimp only
        split
        · next hidx => exact .inl ⟨rfl, fun _ _ ↦ hasChunk_iff.mpr ⟨e, hget, by simpa using hidx⟩⟩
        · exact .inr ⟨e, rfl, files_save _⟩

theorem mem_chunks_addChunk {e : StoreEntry} {idx i : ℕ} :
    i ∈ (addChunk e idx).chunks ↔ i ∈ e.chunks ∨ i = idx := by
  rw [addChunk, List.mem_mergeSort, List.mem_append, List.mem_singleton]

theorem grows_putChunk (P : Primitives) (s : ChunkStore) (fileId : String) (idx : ℕ) (data : Buffer)
    (expected : Option Json) : Grows s (s.putChunk P fileId idx data expected).1 := by
  obtain ⟨hfiles, -⟩ | ⟨e, he, hfiles⟩ := files_putChunk P s fileId idx data expected
  · exact .of_files_eq hfiles
  · intro key e' he'
    rw [hfiles, OrderedMap.get?_set]
    split
    · next hkey =>
      obtain rfl : e' = e := by rw [hkey, he] at he'; exact (Option.some.inj he').symm
      exact ⟨_, rfl, fun i hi ↦ mem_chunks_addChunk.mpr (.inl hi)⟩
    · exact ⟨e', he', List.Subset.refl _⟩

/-- A chunk that was put is listed, if the file is. -/
theorem hasChunk_of_putChunk {P : Primitives} {s : ChunkStore} {fileId : String} {idx : ℕ}
    {data : Buffer} {expected : Option Json} (hknown : s.Known fileId)
    (h : (s.putChunk P fileId idx data expected).2 = .ok true) :
    (s.putChunk P fileId idx data expected).1.hasChunk fileId idx = .ok true := by
  obtain ⟨hfiles, hhas⟩ | ⟨e, he, hfiles⟩ := files_putChunk P s fileId idx data expected
  · exact (Grows.of_files_eq hfiles).hasChunk (hhas h hknown)
  · refine hasChunk_iff.mpr ⟨addChunk e idx, ?_, mem_chunks_addChunk.mpr (.inr rfl)⟩
    rw [hfiles, OrderedMap.get?_set_self]

theorem files_copyChunks (s : ChunkStore) (fileId : String) (out : Location) (copied : Buffer)
    (is : List ℕ) : (s.copyChunks fileId out copied is).1.files = s.files := by
  induction is generalizing s copied with
  | nil => rfl
  | cons i is ih =>
    rw [copyChunks]
    split
    · rfl
    · exact ih _ _

theorem files_assemble (P : Primitives) (s : ChunkStore) (fileId : String) (outPath : Location) :
    (s.assemble P fileId outPath).1.files = s.files := by
  rw [assemble]
  split
  · split
    · rfl
    · split
      · rfl
      · exact files_copyChunks _ fileId outPath [] _
  · rfl
  · rfl

example : parseBitfield [0xa0, 0x01] (some (.num (.finite 16))) = some [0, 2, 15] := by
  decide +kernel

end ChunkStore

end AttestP2P
