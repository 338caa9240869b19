import AttestP2P.File.Footprint

/-!
# Directories and what is in them

A `FileSystem` is any map from locations to entries.  On a real disk more is true of it: an entry is
always in a directory, so that no file stands on the way to another entry, and no file has a name
that `fs` would refuse.  This module is about the disks of which this holds.

* `FileSystem.IsTree` says so.  `IsTree.above` is its use: whatever lies on the way to an entry is a
  directory.
* `FileSystem.Evolves` relates the disk before and after some operations of `fs`.  Nothing that the
  program calls removes an entry, or turns a file into a directory; and a tree stays one.
* Each operation of the chunk store evolves the disk: saving the index, registering a manifest,
  storing a chunk, putting a file together.
* `ChunkStore.Housed` is what a manifest that was registered without an exception leaves behind: its
  directory and an index.  Both are there for good, since the disk only evolves.
-/

set_option autoImplicit false

namespace AttestP2P

namespace FileSystem

open Location

variable {fs fs' fs'' : FileSystem} {loc l : Location} {content : Buffer}

/-- Every entry is in a directory, and every file has a name that can be written to. -/
structure IsTree (fs : FileSystem) : Prop where
  parent : ∀ dir name, fs (dir ++ [name]) ≠ none → fs dir = some .dir
  file : ∀ loc content, fs loc = some (.file content) →
    accepts loc = true ∧ loc.getLast? ≠ some ""

/-- Whatever lies on the way to an entry is a directory. -/
theorem IsTree.above (h : fs.IsTree) (hentry : fs loc ≠ none) (hway : l <+: loc) (hne : l ≠ loc) :
    fs l = some .dir := by
  obtain ⟨names, rfl⟩ := hway
  -- from the last name upwards
  induction names using List.reverseRecOn with
  | nil => exact absurd (List.append_nil l).symm hne
  | append_singleton names name ih =>
    have hdir : fs (l ++ names) = some .dir :=
      h.parent _ name (by rwa [List.append_assoc])
    cases names with
    | nil => rwa [List.append_nil] at hdir
    | cons first rest =>
      refine ih (by rw [hdir]; exact nofun) fun heq ↦ ?_
      exact absurd (List.self_eq_append_right.mp heq) (List.cons_ne_nil first rest)

/-- A directory is in directories only: whatever is on the way to it from the root is one too. -/
theorem IsTree.above_dir (h : fs.IsTree) (hdir : fs loc = some .dir) (hway : l <+: loc) :
    fs l = some .dir := by
  by_cases hne : l = loc
  · rw [hne, hdir]
  · exact h.above (by rw [hdir]; exact nofun) hway hne

/-- A file is not on the way to a directory, so that making one inside the other is an error. -/
theorem IsTree.not_above (h : fs.IsTree) (hfile : fs l = some (.file content))
    (hdir : fs loc = some .dir) : ¬l <+: loc := fun hway ↦ by
  have habove := h.above_dir hdir hway
  rw [hfile] at habove
  cases habove

/-- Directories stay directories and files stay files, and a tree stays a tree. -/
structure Evolves (fs fs' : FileSystem) : Prop where
  dir : ∀ loc, fs loc = some .dir → fs' loc = some .dir
  file : ∀ loc content, fs loc = some (.file content) → ∃ content', fs' loc = some (.file content')
  tree : fs.IsTree → fs'.IsTree

theorem Evolves.refl (fs : FileSystem) : fs.Evolves fs :=
  ⟨fun _ h ↦ h, fun _ content h ↦ ⟨content, h⟩, fun h ↦ h⟩

theorem Evolves.trans (h : fs.Evolves fs') (h' : fs'.Evolves fs'') : fs.Evolves fs'' where
  dir loc hdir := h'.dir loc (h.dir loc hdir)
  file loc content hfile := by
    obtain ⟨content', hfile'⟩ := h.file loc content hfile
    exact h'.file loc content' hfile'
  tree htree := h'.tree (h.tree htree)

theorem evolves_mkdirSync (h : fs.mkdirSync loc = .ok fs') : fs.Evolves fs' := by
  obtain ⟨hmade, hothers⟩ := of_mkdirSync h
  have hdir : ∀ l, fs l = some .dir → fs' l = some .dir := by
    intro l hdir
    by_cases hl : l <+: loc
    · exact (hmade l hl).1
    · rw [hothers l hl, hdir]
  refine ⟨hdir, fun l content hfile ↦ ?_, fun htree ↦ ⟨fun dir name hentry ↦ ?_, ?_⟩⟩
  · have hl : ¬l <+: loc := fun hl ↦ (hmade l hl).2 content hfile
    exact ⟨content, (hothers l hl).trans hfile⟩
  · by_cases hl : dir ++ [name] <+: loc
    · exact (hmade dir ((List.prefix_append dir [name]).trans hl)).1
    · rw [hothers _ hl] at hentry
      exact hdir dir (htree.parent dir name hentry)
  · intro l content hfile
    by_cases hl : l <+: loc
    · rw [(hmade l hl).1] at hfile
      cases hfile
    · rw [hothers l hl] at hfile
      exact htree.file l content hfile

/-- A file is written in a directory, where no directory is: the disk stays a tree, and keeps every
directory. -/
theorem Writes.evolves (h : Writes fs fs' loc content) (hfree : fs loc ≠ some .dir)
    (hplace : fs.IsTree → (∀ dir name, loc = dir ++ [name] → fs dir = some .dir) ∧
      accepts loc = true ∧ loc.getLast? ≠ some "") : fs.Evolves fs' := by
  have hdir : ∀ l, fs l = some .dir → fs' l = some .dir := by
    intro l hdir
    rw [h.others l fun heq ↦ hfree (heq ▸ hdir), hdir]
  refine ⟨hdir, fun l content' hfile ↦ ?_, fun htree ↦ ⟨fun dir name hentry ↦ ?_, ?_⟩⟩
  · by_cases hl : l = loc
    · exact ⟨content, by rw [hl, h.written]⟩
    · exact ⟨content', by rw [h.others l hl, hfile]⟩
  · by_cases hl : dir ++ [name] = loc
    · exact hdir dir ((hplace htree).1 dir name hl.symm)
    · rw [h.others _ hl] at hentry
      exact hdir dir (htree.parent dir name hentry)
  · intro l content' hfile
    by_cases hl : l = loc
    · exact hl ▸ (hplace htree).2
    · rw [h.others l hl] at hfile
      exact htree.file l content' hfile

theorem evolves_writeFileSync (h : fs.writeFileSync loc content = .ok fs') : fs.Evolves fs' := by
  obtain ⟨hwritable, hwrites⟩ := of_writeFileSync h
  refine hwrites.evolves hwritable.free fun _ ↦ ⟨?_, hwritable.accepts, hwritable.named⟩
  rintro dir name rfl
  have hparent := hwritable.parent
  rwa [List.dropLast_concat] at hparent

theorem evolves_writeSync (fs : FileSystem) (loc : Location) (data : Buffer) :
    fs.Evolves (fs.writeSync loc data) := by
  cases hentry : fs loc with
  | none =>
    rw [writeSync, hentry]
    exact .refl fs
  | some entry =>
    cases entry with
    | dir =>
      rw [writeSync, hentry]
      exact .refl fs
    | file content =>
      refine (writes_writeSync hentry data).evolves (by simp [hentry]) fun htree ↦
        ⟨?_, htree.file loc content hentry⟩
      rintro dir name rfl
      exact htree.parent dir name (by simp [hentry])

end FileSystem

namespace ChunkStore

open FileSystem Location

variable {P : Primitives} {s s' : ChunkStore} {f : String} {m : Json}

/-! ## The operations of the store

Each of them is a few calls of `fs`, one after the other. -/

theorem evolves_save (s : ChunkStore) : s.disk.Evolves s.save.1.disk := by
  rw [save]
  split
  · next disk hwrite => exact evolves_writeFileSync hwrite
  · exact .refl _

theorem evolves_registerManifest (s : ChunkStore) (key : String) (m : Json) :
    s.disk.Evolves (s.registerManifest key m).1.disk := by
  have hadd : s.disk.Evolves (s.addEntry key m).disk := by
    rw [(baseDir_addEntry s key m).2]
    exact .refl _
  rw [registerManifest]
  split
  · split
    · next disk hmkdir =>
      have hmade : s.disk.Evolves { s.addEntry key m with disk := disk }.disk :=
        hadd.trans (evolves_mkdirSync hmkdir)
      exact hmade.trans (evolves_save _)
    · exact hadd
  · exact hadd

theorem evolves_putChunk (P : Primitives) (s : ChunkStore) (f : String) (idx : ℕ) (data : Buffer)
    (expected : Option Json) : s.disk.Evolves (s.putChunk P f idx data expected).1.disk := by
  rw [putChunk]
  split
  · exact .refl _
  · split
    · exact .refl _
    · next disk hwrite =>
      have hchunk : s.disk.Evolves disk := evolves_writeFileSync hwrite
      dsimp only
      split
      · exact hchunk
      · exact hchunk
      · split
        · exact hchunk
        · exact hchunk.trans (evolves_save { s with disk := disk, files := _ })

theorem evolves_copyChunks (s : ChunkStore) (f : String) (out : Location) (copied : Buffer)
    (is : List ℕ) : s.disk.Evolves (s.copyChunks f out copied is).1.disk := by
  induction is generalizing s copied with
  | nil => exact .refl _
  | cons i is ih =>
    rw [copyChunks]
    split
    · exact .refl _
    · next d _ => exact (evolves_writeSync s.disk out d).trans (ih { s with disk := _ } _)

/-- A file is put together in a file, or not at all. -/
theorem assemble_cases (P : Primitives) (s : ChunkStore) (f : String) (out : Location) :
    (s.assemble P f out).1.disk = s.disk ∨
      s.disk.Writable out ∧ s.disk.Evolves (s.assemble P f out).1.disk ∧
        ∃ content, (s.assemble P f out).1.disk out = some (.file content) := by
  rw [assemble]
  split
  · next e _ =>
    split
    · exact .inl rfl
    · split
      · exact .inl rfl
      · next disk hopen =>
        obtain ⟨hwritable, hwrites⟩ := of_writeFileSync hopen
        have hcopied := evolves_copyChunks { s with disk := disk } f out []
          (List.range e.chunks.length)
        exact .inr ⟨hwritable, (evolves_writeFileSync hopen).trans hcopied,
          hcopied.file out [] hwrites.written⟩
  · exact .inl rfl
  · exact .inl rfl

/-- A file whose chunks are all listed is put together where one can be written, even if a chunk
cannot be read. -/
theorem file_assemble {e : StoreEntry} {out : Location} (he : s.files.get? f = some e)
    (hcomplete : Json.strictEq (.num (.ofNat e.chunks.length)) e.nbChunks = true)
    (hwritable : s.disk.Writable out) :
    ∃ content, (s.assemble P f out).1.disk out = some (.file content) := by
  obtain ⟨disk, hopen, hwrites⟩ := hwritable.write []
  have hlookup : s.lookup f = .entry e := by rw [lookup, he]
  rw [assemble, hlookup]
  dsimp only
  rw [if_neg (by rw [hcomplete]; decide), hopen]
  exact (evolves_copyChunks { s with disk := disk } f out [] (List.range e.chunks.length)).file
    out [] hwrites.written

theorem evolves_assemble (P : Primitives) (s : ChunkStore) (f : String) (out : Location) :
    s.disk.Evolves (s.assemble P f out).1.disk := by
  obtain hsame | ⟨-, hevolves, -⟩ := assemble_cases P s f out
  · rw [hsame]
    exact .refl _
  · exact hevolves

/-! ## What a registered manifest leaves behind

The directory of the file is there, and so are all directories above it.  No other entry has been
created but the index. -/

/-- The directory of a file is there, and the index; from then on only a chunk or an output is
written. -/
structure Housed (s : ChunkStore) (f : String) : Prop where
  accepts : FileSystem.accepts (s.dir f) = true
  dir : s.disk (s.dir f) = some .dir
  index : ∃ content, s.disk s.indexPath = some (.file content)

theorem Housed.evolve (h : s.Housed f) (hbase : s'.baseDir = s.baseDir)
    (hdisk : s.disk.Evolves s'.disk) : s'.Housed f := by
  have hdir : s'.dir f = s.dir f := by rw [ChunkStore.dir, ChunkStore.dir, hbase]
  obtain ⟨content, hindex⟩ := h.index
  refine ⟨hdir ▸ h.accepts, ?_, ?_⟩
  · rw [hdir]
    exact hdisk.dir _ h.dir
  · rw [indexPath_congr hbase]
    exact hdisk.file _ content hindex

/-- A directory is made, or the path to it is refused. -/
theorem accepts_of_mkdirSync {fs fs' : FileSystem} {loc : Location}
    (h : fs.mkdirSync loc = .ok fs') : FileSystem.accepts loc = true := by
  rw [mkdirSync] at h
  split at h
  · cases h
  · next haccepts => exact eq_true_of_ne_false haccepts

/-- **What registering a manifest does to the disk**: nothing; or the directory of the file is there
afterwards with everything on the way to it, and the index has been written or nothing else. -/
theorem registerManifest_cases (s : ChunkStore) (key : String) (m : Json) :
    ((s.registerManifest key m).1.disk = s.disk ∧ (s.registerManifest key m).2 ≠ .ok () ∧
        ∀ f disk, m.get "file_id" = some (.str f) → s.disk.mkdirSync (s.dir f) ≠ .ok disk) ∨
    ∃ f, m.get "file_id" = some (.str f) ∧ FileSystem.accepts (s.dir f) = true ∧
      (∀ l, l <+: s.dir f → (s.registerManifest key m).1.disk l = some .dir) ∧
      ((s.registerManifest key m).1.Housed f ∨ (s.registerManifest key m).2 ≠ .ok () ∧
        ∀ l, ¬l <+: s.dir f → (s.registerManifest key m).1.disk l = s.disk l) := by
  obtain ⟨hbase, hdisk⟩ := baseDir_addEntry s key m
  rw [registerManifest]
  split
  · next f hid =>
    have hdir : (s.addEntry key m).dir f = s.dir f := by rw [ChunkStore.dir, ChunkStore.dir, hbase]
    rw [hdir, hdisk]
    split
    · next disk hmkdir =>
      have haccepts := accepts_of_mkdirSync hmkdir
      obtain ⟨hmade, hothers⟩ := of_mkdirSync hmkdir
      have hdirs : ∀ l, l <+: s.dir f →
          ({ s.addEntry key m with disk := disk } : ChunkStore).save.1.disk l = some .dir :=
        fun l hl ↦ (evolves_save { s.addEntry key m with disk := disk }).dir l (hmade l hl).1
      refine .inr ⟨f, hid, haccepts, hdirs, ?_⟩
      have hhome := hdirs (s.dir f) (List.prefix_refl _)
      rw [save] at hhome ⊢
      split
      · next disk' hwrite =>
        rw [hwrite] at hhome
        exact .inl ⟨hdir ▸ haccepts, hdir ▸ hhome, _, (of_writeFileSync hwrite).2.written⟩
      · exact .inr ⟨by simp, hothers⟩
    · next err hmkdir =>
      refine .inl ⟨hdisk, by simp, fun f' disk hid' hok ↦ ?_⟩
      obtain rfl := Json.str.inj (Option.some.inj (hid.symm.trans hid'))
      cases hmkdir.symm.trans hok
  · next hid => exact .inl ⟨hdisk, by simp, fun f _ hid' ↦ absurd hid' (hid f)⟩

/-- A manifest that was registered has been given its directory, and the index has been saved. -/
theorem housed_of_registerManifest {key : String} (hid : m.get "file_id" = some (.str f))
    (hok : (s.registerManifest key m).2 = .ok ()) : (s.registerManifest key m).1.Housed f := by
  obtain ⟨-, hfailed, -⟩ | ⟨f', hid', -, -, hhoused | ⟨hfailed, -⟩⟩ :=
    registerManifest_cases s key m
  · exact absurd hok hfailed
  · obtain rfl := Json.str.inj (Option.some.inj (hid'.symm.trans hid))
    exact hhoused
  · exact absurd hok hfailed

end ChunkStore

end AttestP2P
