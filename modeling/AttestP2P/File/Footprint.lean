import AttestP2P.File.StoredFile

/-!
# Where the chunk store writes

Each operation of a `ChunkStore` changes the disk in a few places: the index, the directory of a
file and the directories above it, the file of one chunk, and the output of `assemble`.  Elsewhere
the disk stays as it is, whether the operation returns or throws.

* `Confined` says where the disk has changed.  It composes, so that a handler is confined to the
  places of the operations it calls.
* `RegisterPlace` are the places of `registerManifest`.
* `putChunk_cases`: a chunk is not stored, and nothing has changed, or it is `Wrote`, and its file
  has the data.
* `putChunk_eq_ok_true_iff`: a chunk with the expected hash is stored if the disk takes it, and only
  then.  `CanPut` says this of the disk alone, before the call.

These are places in the tree of files.  Which paths lead to them, when the id of a file has dots or
slashes in it, is left to `File.Tree` and `File.Containment`.
-/

set_option autoImplicit false

namespace AttestP2P

namespace ChunkStore

open FileSystem Location

variable {P : Primitives} {s s' s'' : ChunkStore} {f g : String} {i j : ℕ}

theorem chunkPath_eq_append (s : ChunkStore) (f : String) (i : ℕ) :
    s.chunkPath f i = s.dir f ++ [Nat.repr i ++ ".chunk"] := join_of_isName (isName_chunkName i) _

theorem chunkPath_eq_iff : s.chunkPath f i = s.chunkPath g j ↔ s.dir f = s.dir g ∧ i = j := by
  rw [chunkPath_eq_append, chunkPath_eq_append]
  refine ⟨fun h ↦ ?_, fun ⟨hdir, hij⟩ ↦ by rw [hdir, hij]⟩
  obtain ⟨hdir, hname⟩ := List.append_inj' h rfl
  exact ⟨hdir, chunkName_inj (List.singleton_inj.mp hname)⟩

theorem chunkPath_ne_index : s.chunkPath f i ≠ s.indexPath := by
  rw [chunkPath_eq_append, indexPath]
  intro h
  have hname := List.singleton_inj.mp (List.append_inj_right' h rfl)
  have hk : 'k' ∈ (Nat.repr i ++ ".chunk").toList := by
    rw [String.toList_append, List.mem_append]
    exact .inr (by decide)
  rw [hname] at hk
  exact absurd hk (by decide)

/-- The base directory is the same, and the disk has changed in these places only. -/
structure Confined (s s' : ChunkStore) (places : Location → Prop) : Prop where
  baseDir : s'.baseDir = s.baseDir
  disk : ∀ loc, ¬places loc → s'.disk loc = s.disk loc

theorem Confined.refl (s : ChunkStore) (places : Location → Prop) : Confined s s places :=
  ⟨rfl, fun _ _ ↦ rfl⟩

theorem Confined.trans {places : Location → Prop} (h : Confined s s' places)
    (h' : Confined s' s'' places) : Confined s s'' places where
  baseDir := h'.baseDir.trans h.baseDir
  disk loc hloc := (h'.disk loc hloc).trans (h.disk loc hloc)

theorem Confined.mono {places places' : Location → Prop} (h : Confined s s' places)
    (hplaces : ∀ loc, places loc → places' loc) : Confined s s' places' where
  baseDir := h.baseDir
  disk loc hloc := h.disk loc fun hp ↦ hloc (hplaces loc hp)

theorem get?_of_lookup {e : StoreEntry} (h : s.lookup f = .entry e) :
    s.files.get? f = some e := by
  rw [lookup] at h
  split at h
  · next e' he => exact he.trans (congrArg some (Indexed.entry.inj h))
  · split at h
    · cases h
    · cases h

/-! ## The index and the directories -/

theorem confined_save (s : ChunkStore) : Confined s s.save.1 (· = s.indexPath) := by
  rw [save]
  split
  · next disk hwrite => exact ⟨rfl, (writes_of_writeFileSync hwrite).2.others⟩
  · exact .refl ..

theorem baseDir_addEntry (s : ChunkStore) (key : String) (m : Json) :
    (s.addEntry key m).baseDir = s.baseDir ∧ (s.addEntry key m).disk = s.disk := by
  rw [addEntry]
  split
  · exact ⟨rfl, rfl⟩
  · exact ⟨rfl, rfl⟩

/-- Where registering a manifest changes the disk. -/
def RegisterPlace (s : ChunkStore) (m : Json) (loc : Location) : Prop :=
  loc = s.indexPath ∨ ∃ f, m.get "file_id" = some (.str f) ∧ loc <+: s.dir f

theorem confined_registerManifest (s : ChunkStore) (key : String) (m : Json) :
    Confined s (s.registerManifest key m).1 (s.RegisterPlace m) := by
  obtain ⟨hbase, hdisk⟩ := baseDir_addEntry s key m
  have hadd : Confined s (s.addEntry key m) (s.RegisterPlace m) := ⟨hbase, fun _ _ ↦ by rw [hdisk]⟩
  rw [registerManifest]
  split
  · next f hid =>
    have hdir : (s.addEntry key m).dir f = s.dir f := by rw [dir, dir, hbase]
    split
    · next disk hmkdir =>
      have hmade : Confined (s.addEntry key m) { s.addEntry key m with disk := disk }
          (s.RegisterPlace m) := by
        refine ⟨rfl, fun loc hloc ↦ (of_mkdirSync hmkdir).2 loc fun hprefix ↦ hloc (.inr ?_)⟩
        exact ⟨f, hid, hdir ▸ hprefix⟩
      have hsave := confined_save { s.addEntry key m with disk := disk }
      exact (hadd.trans hmade).trans
        (hsave.mono fun loc hloc ↦ .inl (hloc.trans (indexPath_congr hbase)))
    · exact hadd
  · exact hadd

/-- A file other than the index is still there when a manifest has been registered. -/
theorem file_registerManifest {key : String} {m : Json} {loc : Location} {content : Buffer}
    (hloc : loc ≠ s.indexPath) (hfile : s.disk loc = some (.file content)) :
    (s.registerManifest key m).1.disk loc = some (.file content) := by
  obtain ⟨hbase, hdisk⟩ := baseDir_addEntry s key m
  have hadd : (s.addEntry key m).disk loc = some (.file content) := by rw [hdisk, hfile]
  rw [registerManifest]
  split
  · split
    · next disk hmkdir =>
      have hnot : ¬loc <+: (s.addEntry key m).dir _ := fun hprefix ↦
        ((of_mkdirSync hmkdir).1 loc hprefix).2 content hadd
      have hsave := (confined_save { s.addEntry key m with disk := disk }).disk loc fun heq ↦
        hloc (heq.trans (indexPath_congr hbase))
      exact hsave.trans (((of_mkdirSync hmkdir).2 loc hnot).trans hadd)
    · exact hadd
  · exact hadd

/-! ## Chunks

`putChunk` writes the file of the chunk and then the index.  It may fail at either, and after a
failure at the second the file has the new content already. -/

/-- A chunk has been written, and may have been listed. -/
structure Wrote (s s' : ChunkStore) (f : String) (idx : ℕ) (data : Buffer) : Prop where
  confined : Confined s s' fun loc ↦ loc = s.indexPath ∨ loc = s.chunkPath f idx
  chunk : s'.disk (s.chunkPath f idx) = some (.file data)
  files : s'.files = s.files ∨
    ∃ e, s.files.get? f = some e ∧ s'.files = s.files.set f (addChunk e idx)

theorem wrote_of_writes {disk : FileSystem} {idx : ℕ} {data : Buffer}
    (h : Writes s.disk disk (s.chunkPath f idx) data) :
    Wrote s { s with disk := disk } f idx data where
  confined := ⟨rfl, fun loc hloc ↦ h.others loc fun heq ↦ hloc (.inr heq)⟩
  chunk := h.written
  files := .inl rfl

/-- The chunk is listed as well, and the index is saved. -/
theorem Wrote.list {idx : ℕ} {data : Buffer} {e : StoreEntry} (h : Wrote s s' f idx data)
    (he : s.files.get? f = some e) :
    Wrote s ({ s' with files := s.files.set f (addChunk e idx) } : ChunkStore).save.1
      f idx data := by
  have hsave := confined_save { s' with files := s.files.set f (addChunk e idx) }
  have hindex : ({ s' with files := s.files.set f (addChunk e idx) } : ChunkStore).indexPath =
    s.indexPath := indexPath_congr h.confined.baseDir
  rw [hindex] at hsave
  refine ⟨⟨hsave.baseDir.trans h.confined.baseDir, fun loc hloc ↦ ?_⟩, ?_, .inr ⟨e, he, ?_⟩⟩
  · exact (hsave.disk loc fun heq ↦ hloc (.inl heq)).trans (h.confined.disk loc hloc)
  · exact (hsave.disk _ chunkPath_ne_index).trans h.chunk
  · exact files_save _

/-- **What `putChunk` does**: nothing, or it writes the file of a chunk that has the expected
hash. -/
theorem putChunk_cases (P : Primitives) (s : ChunkStore) (f : String) (idx : ℕ) (data : Buffer)
    (expected : Option Json) :
    ((s.putChunk P f idx data expected).1 = s ∧ (s.putChunk P f idx data expected).2 ≠ .ok true) ∨
    (expected.any Json.truthy = true → Json.strictEq (.str (P.sha256 data).hex) expected = true) ∧
      Wrote s (s.putChunk P f idx data expected).1 f idx data := by
  rw [putChunk]
  split
  · exact .inl ⟨rfl, by simp⟩
  · next hmatch =>
    have hhash : expected.any Json.truthy = true →
        Json.strictEq (.str (P.sha256 data).hex) expected = true := by
      intro htruthy
      simpa [htruthy] using hmatch
    split
    · exact .inl ⟨rfl, by simp⟩
    · next disk hwrite =>
      have hwrote := wrote_of_writes (writes_of_writeFileSync hwrite).2
      refine .inr ⟨hhash, ?_⟩
      dsimp only
      split
      · exact hwrote
      · exact hwrote
      · next e hlookup =>
        have he : s.files.get? f = some e := get?_of_lookup hlookup
        split
        · exact hwrote
        · exact hwrote.list he

theorem baseDir_putChunk (P : Primitives) (s : ChunkStore) (f : String) (idx : ℕ) (data : Buffer)
    (expected : Option Json) : (s.putChunk P f idx data expected).1.baseDir = s.baseDir := by
  obtain ⟨hsame, -⟩ | ⟨-, hwrote⟩ := putChunk_cases P s f idx data expected
  · rw [hsame]
  · exact hwrote.confined.baseDir

/-- The chunk can be put into the file's directory, and, unless it is listed, into the index. -/
def CanPut (s : ChunkStore) (f : String) (idx : ℕ) : Prop :=
  ∃ e, s.files.get? f = some e ∧ s.disk.Writable (s.chunkPath f idx) ∧
    (idx ∈ e.chunks ∨ s.disk.Writable s.indexPath)

theorem save_eq_ok_iff : s.save.2 = .ok () ↔ s.disk.Writable s.indexPath := by
  rw [writable_iff s.indexText, save]
  split
  · next disk hwrite => exact iff_of_true rfl ⟨disk, hwrite⟩
  · next e hwrite =>
    refine iff_of_false (fun h ↦ by cases h) ?_
    rintro ⟨disk, hok⟩
    cases hwrite.symm.trans hok

/-- The disk takes the directory of the file, and the index. -/
def CanRegister (s : ChunkStore) (f : String) : Prop :=
  ∃ disk, s.disk.mkdirSync (s.dir f) = .ok disk ∧ disk.Writable s.indexPath

theorem registerManifest_eq_ok_iff {m : Json} (hid : m.get "file_id" = some (.str f)) :
    (s.registerManifest f m).2 = .ok () ↔ s.CanRegister f := by
  obtain ⟨hbase, hdisk⟩ := baseDir_addEntry s f m
  rw [registerManifest, hid]
  dsimp only
  rw [CanRegister, dir, hdisk, hbase, dir]
  cases s.disk.mkdirSync (s.baseDir.resolve f) with
  | error err =>
    refine iff_of_false (fun h ↦ by cases h) ?_
    rintro ⟨disk, hok, -⟩
    cases hok
  | ok disk =>
    have hindex (files : OrderedMap String StoreEntry) :
        (⟨s.baseDir, files, disk⟩ : ChunkStore).indexPath = s.indexPath := rfl
    dsimp only
    rw [save_eq_ok_iff, hindex]
    refine ⟨fun h ↦ ⟨disk, rfl, h⟩, ?_⟩
    rintro ⟨disk', hok, h⟩
    exact Except.ok.inj hok ▸ h

/-- The index can be written, or not, whatever is written to a chunk. -/
theorem writable_index_of_writes {disk : FileSystem} {data : Buffer}
    (h : Writes s.disk disk (s.chunkPath f i) data) (hfree : s.disk (s.chunkPath f i) ≠ some .dir) :
    disk.Writable s.indexPath ↔ s.disk.Writable s.indexPath := by
  have hindex : disk s.indexPath = s.disk s.indexPath :=
    h.others _ chunkPath_ne_index.symm
  have hbase : disk s.indexPath.dropLast = some .dir ↔ s.disk s.indexPath.dropLast = some .dir := by
    by_cases hloc : s.indexPath.dropLast = s.chunkPath f i
    · rw [hloc, h.written]
      exact iff_of_false nofun hfree
    · rw [h.others _ hloc]
  exact ⟨fun hw ↦ ⟨hw.accepts, hw.named, hindex ▸ hw.free, hbase.mp hw.parent⟩,
    fun hw ↦ ⟨hw.accepts, hw.named, hindex ▸ hw.free, hbase.mpr hw.parent⟩⟩

/-- **A chunk that has the expected hash is stored** if the disk takes it, and only then. -/
theorem putChunk_eq_ok_true_iff {idx : ℕ} {data : Buffer} {expected : Option Json}
    (hknown : s.Known f) (hhash : Json.strictEq (.str (P.sha256 data).hex) expected = true) :
    (s.putChunk P f idx data expected).2 = .ok true ↔ s.CanPut f idx := by
  rw [putChunk, if_neg (by simp [hhash])]
  cases hwrite : s.disk.writeFileSync (s.chunkPath f idx) data with
  | error err =>
    refine iff_of_false (fun h ↦ by cases h) ?_
    rintro ⟨e, -, hwritable, -⟩
    obtain ⟨disk, hok⟩ := (writable_iff data).mp hwritable
    cases hwrite.symm.trans hok
  | ok disk =>
    have hwritable := (writable_iff data).mpr ⟨disk, hwrite⟩
    have hindex := writable_index_of_writes (writes_of_writeFileSync hwrite).2 hwritable.free
    have hsame : ({ s with disk := disk } : ChunkStore).lookup f = s.lookup f := rfl
    dsimp only
    rw [hsame, lookup]
    cases hget : s.files.get? f with
    | none =>
      have hinherited : f ∈ inheritedNames := hknown.resolve_left (by simp [hget])
      rw [if_pos hinherited]
      refine iff_of_false (fun h ↦ by cases h) ?_
      rintro ⟨e, he, -⟩
      cases hget.symm.trans he
    | some e =>
      have hcan : s.CanPut f idx ↔ idx ∈ e.chunks ∨ s.disk.Writable s.indexPath := by
        refine ⟨fun h ↦ ?_, fun h ↦ ⟨e, hget, hwritable, h⟩⟩
        obtain ⟨e', he', -, h⟩ := h
        obtain rfl := Option.some.inj (hget.symm.trans he')
        exact h
      rw [hcan]
      dsimp only
      split
      · next hlisted => exact iff_of_true rfl (.inl (List.contains_iff_mem.mp hlisted))
      · next hlisted =>
        have hnot : idx ∉ e.chunks := fun hmem ↦ hlisted (List.contains_iff_mem.mpr hmem)
        have hsave : (ChunkStore.save { s with
            disk := disk, files := s.files.set f (addChunk e idx) }).2 = .ok () ↔
            disk.Writable s.indexPath := save_eq_ok_iff
        rw [or_iff_right hnot, ← hindex, ← hsave]
        cases (ChunkStore.save { s with
            disk := disk, files := s.files.set f (addChunk e idx) }).2 with
        | error err => exact iff_of_false (fun h ↦ by cases h) (fun h ↦ by cases h)
        | ok _ => exact iff_of_true rfl rfl

/-! ## The output -/

theorem confined_copyChunks (s : ChunkStore) (f : String) (out : Location) (copied : Buffer)
    (is : List ℕ) : Confined s (s.copyChunks f out copied is).1 (· = out) := by
  induction is generalizing s copied with
  | nil => exact .refl ..
  | cons i is ih =>
    rw [copyChunks]
    split
    · exact .refl ..
    · next d _ =>
      have hwrite : Confined s { s with disk := s.disk.writeSync out d } (· = out) :=
        ⟨rfl, fun loc hloc ↦ writeSync_of_ne hloc⟩
      exact hwrite.trans (ih _ _)

theorem confined_assemble (P : Primitives) (s : ChunkStore) (f : String) (out : Location) :
    Confined s (s.assemble P f out).1 (· = out) := by
  rw [assemble]
  split
  · split
    · exact .refl ..
    · split
      · exact .refl ..
      · next disk hopen =>
        have hwrite : Confined s { s with disk := disk } (· = out) :=
          ⟨rfl, fun loc hloc ↦ (writes_of_writeFileSync hopen).2.others loc hloc⟩
        exact hwrite.trans (confined_copyChunks _ f out [] _)
  · exact .refl ..
  · exact .refl ..

end ChunkStore

end AttestP2P
