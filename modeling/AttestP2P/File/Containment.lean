import AttestP2P.File.Effects
import AttestP2P.File.Promises
import AttestP2P.File.RoundTrip
import AttestP2P.File.Tree

/-!
# Where a manifest leads

A manifest names a directory below that of the chunk store (`file_id`) and a file in the download
directory (`filename`).  `verifyManifest` does not look at either name, and `path.join` follows it
wherever it leads.

The subject of this module is a run of a new node that has to do with one manifest only: it is
received, announced by others, downloaded, and its chunks come in, in any order and as often as one
likes.  Before the run the disk is `Prepared`: a tree, with the two directories in it.

* `Contained` compares the disk before and after.  What is downloaded has been written below the
  download directory, and whatever else has been created or written is below that of the store.
* `HarmlessNames` is about the two names.  It is not enough to ask where they lead: a path that
  leads out does no harm if it leads to a directory that is there already, or if nothing can be
  written there whatever the disk.  `Openable` says what has to be the case for a file to be written
  at all.
* `Reasoned` says why an entry has changed, which is one of four reasons.  Each effect of an event
  has such a reason (`Effect.reasoned`), and so has a run (`Mine.run`).
* `contained_iff` puts these together.  In the one direction it goes through the reasons; in the
  other, a manifest that is not harmless is received or downloaded on a `bare` disk.
-/

set_option autoImplicit false

namespace AttestP2P

/-- `AttestP2PNode.download` of a manifest: what it asks of its `FileNode`, unless `path.join`
throws. -/
def AttestP2PNode.download (downloadDir : Location) (m : Json) (rank : ℕ → ℕ) : Option FileEvent :=
  match m.get "filename" with
  | some (.str filename) => some (.download m (downloadDir.join filename) (some 16) rank)
  | _ => none

namespace FileNode

open FileSystem Location ChunkStore

variable {P : Primitives} {s s' : FileNode P} {m : Json} {store store' store'' : ChunkStore}
  {baseDir downloadDir loc : Location} {disk before after : FileSystem} {f : String}

/-! ## Containment

What a run may change is stated of the disk itself.  Whatever is another entry after the run than
before lies strictly below the base directory, unless it is the output of the download, which has
to lie strictly below the directory for downloads. -/

/-- The disk on which a node is started: the directories of the store and of the downloads have been
made. -/
structure Prepared (disk : FileSystem) (baseDir downloadDir : Location) : Prop where
  tree : disk.IsTree
  base : disk baseDir = some .dir
  downloads : disk downloadDir = some .dir

/-- The location is where the manifest is downloaded to, and a file is there. -/
def IsOutput (downloadDir : Location) (m : Json) (disk : FileSystem) (loc : Location) : Prop :=
  (∃ filename, m.get "filename" = some (.str filename) ∧ loc = downloadDir.join filename) ∧
    ∃ content, disk loc = some (.file content)

/-- What has been downloaded is below the download directory, and everything else that has been
created or written is below the directory of the store. -/
structure Contained (baseDir downloadDir : Location) (m : Json) (before after : FileSystem) :
    Prop where
  output : ∀ loc, after loc ≠ before loc → IsOutput downloadDir m after loc →
    StrictlyBelow downloadDir loc
  others : ∀ loc, after loc ≠ before loc → ¬IsOutput downloadDir m after loc →
    StrictlyBelow baseDir loc

/-- The file of the index, which every registration writes. -/
def indexOf (baseDir : Location) : Location := baseDir ++ ["index.json"]

/-- With the chunks in `dir`, a file can be put together at `out` on some disk: `fs` takes both
paths, the index is not in the way of a directory or of the file, and no directory is in the place
of the file. -/
structure Openable (baseDir downloadDir dir out : Location) : Prop where
  acceptsDir : FileSystem.accepts dir = true
  acceptsOut : FileSystem.accepts out = true
  named : out.getLast? ≠ some ""
  index : ¬indexOf baseDir <+: dir ∧ ¬indexOf baseDir <+: downloadDir ∧
    ¬StrictlyBelow (indexOf baseDir) out
  free : ¬out <+: baseDir ∧ ¬out <+: downloadDir ∧ ¬out <+: dir

/-- The names of the manifest lead further down, or nowhere: what they make the node write is inside
its directories, or is not written at all. -/
structure HarmlessNames (baseDir downloadDir : Location) (m : Json) : Prop where
  /-- The directory of the chunks is below that of the store, unless it is there already. -/
  chunkDir : ∀ f, m.get "file_id" = some (.str f) →
    FileSystem.accepts (baseDir.resolve f) = true →
      baseDir.resolve f <+: baseDir ∨ baseDir.resolve f <+: downloadDir ∨
        StrictlyBelow baseDir (baseDir.resolve f)
  /-- The download is below the download directory, unless nothing can be written to it. -/
  output : ∀ f filename, m.get "file_id" = some (.str f) →
    m.get "filename" = some (.str filename) →
      Openable baseDir downloadDir (baseDir.resolve f) (downloadDir.join filename) →
        StrictlyBelow downloadDir (downloadDir.join filename)

/-! ## Why an entry changes

Every change of the disk has a reason: a directory that is made on the way to another, a file that
is written.  A run is a sequence of such changes, and the reasons add up. -/

/-- What a manifest can have to do with an entry of the disk: it is a directory on the way to that
of the chunks; or, once the manifest has been registered, the index, a chunk, or the output. -/
inductive Reason (store : ChunkStore) (downloadDir : Location) (m : Json) (loc : Location) : Prop
  | dir {f : String} (hid : m.get "file_id" = some (.str f))
    (haccepts : FileSystem.accepts (store.dir f) = true) (hway : loc <+: store.dir f)
    (hdir : store.disk loc = some .dir)
  | index {f : String} (hid : m.get "file_id" = some (.str f)) (hhoused : store.Housed f)
    (hloc : loc = store.indexPath)
  | chunk {f : String} {idx : ℕ} (hid : m.get "file_id" = some (.str f)) (hhoused : store.Housed f)
    (hname : FileProtocol.IsFileId f) (hloc : loc = store.chunkPath f idx)
  | output {f filename : String} (hid : m.get "file_id" = some (.str f)) (hhoused : store.Housed f)
    (hname : m.get "filename" = some (.str filename)) (hloc : loc = downloadDir.join filename)
    (hfile : ∃ content, store.disk loc = some (.file content))

/-- The disk has evolved, and every entry that has changed has a reason. -/
structure Reasoned (downloadDir : Location) (m : Json) (store store' : ChunkStore) : Prop where
  baseDir : store'.baseDir = store.baseDir
  evolves : store.disk.Evolves store'.disk
  reason : ∀ loc, store'.disk loc ≠ store.disk loc → Reason store' downloadDir m loc

theorem Reason.evolve (h : Reason store downloadDir m loc) (hbase : store'.baseDir = store.baseDir)
    (hdisk : store.disk.Evolves store'.disk) : Reason store' downloadDir m loc := by
  have hstay (f : String) : store'.dir f = store.dir f := by
    rw [ChunkStore.dir, ChunkStore.dir, hbase]
  cases h with
  | dir hid haccepts hway hdir =>
    exact .dir hid (hstay _ ▸ haccepts) (hstay _ ▸ hway) (hdisk.dir loc hdir)
  | index hid hhoused hloc =>
    exact .index hid (hhoused.evolve hbase hdisk) (hloc.trans (indexPath_congr hbase).symm)
  | chunk hid hhoused hname hloc =>
    exact .chunk hid (hhoused.evolve hbase hdisk) hname
      (hloc.trans (chunkPath_congr hbase _ _).symm)
  | output hid hhoused hname hloc hfile =>
    obtain ⟨content, hfile⟩ := hfile
    exact .output hid (hhoused.evolve hbase hdisk) hname hloc (hdisk.file loc content hfile)

theorem Reasoned.refl (downloadDir : Location) (m : Json) (store : ChunkStore) :
    Reasoned downloadDir m store store := ⟨rfl, .refl _, fun _ hne ↦ absurd rfl hne⟩

theorem Reasoned.trans (h : Reasoned downloadDir m store store')
    (h' : Reasoned downloadDir m store' store'') : Reasoned downloadDir m store store'' where
  baseDir := h'.baseDir.trans h.baseDir
  evolves := h.evolves.trans h'.evolves
  reason loc hne := by
    by_cases hlater : store''.disk loc = store'.disk loc
    · exact (h.reason loc (hlater ▸ hne)).evolve h'.baseDir h'.evolves
    · exact h'.reason loc hlater

/-- A manifest is registered: the only directory that can be new is that of its `file_id`. -/
theorem reasoned_registerManifest (downloadDir : Location) (store : ChunkStore) (key : String)
    (m : Json) : Reasoned downloadDir m store (store.registerManifest key m).1 := by
  have hconfined := confined_registerManifest store key m
  have hdir (f : String) : (store.registerManifest key m).1.dir f = store.dir f := by
    rw [ChunkStore.dir, ChunkStore.dir, hconfined.baseDir]
  refine ⟨hconfined.baseDir, evolves_registerManifest store key m, fun loc hne ↦ ?_⟩
  obtain ⟨hsame, -, -⟩ | ⟨f, hid, haccepts, hmade, hindex⟩ := registerManifest_cases store key m
  · exact absurd (congrFun hsame loc) hne
  · by_cases hway : loc <+: store.dir f
    · exact .dir hid (hdir f ▸ haccepts) (hdir f ▸ hway) (hmade loc hway)
    · obtain hhoused | ⟨-, hothers⟩ := hindex
      · have hplace : store.RegisterPlace m loc :=
          Classical.byContradiction fun hloc ↦ hne (hconfined.disk loc hloc)
        obtain hloc | ⟨f', hid', hway'⟩ := hplace
        · exact .index hid hhoused (hloc.trans (indexPath_congr hconfined.baseDir).symm)
        · obtain rfl := Json.str.inj (Option.some.inj (hid'.symm.trans hid))
          exact absurd hway' hway
      · exact absurd (hothers loc hway) hne

/-- All downloads are of the manifest, which has been registered, and each writes to the `filename`
of the manifest in the directory of downloads. -/
def Mine (s : FileNode P) (downloadDir : Location) (m : Json) : Prop :=
  ∀ f d, s.downloads.get? f = some d → m.get "file_id" = some (.str f) ∧ s.store.Housed f ∧
    ∃ filename, m.get "filename" = some (.str filename) ∧ d.outPath = downloadDir.join filename

/-- A chunk of a download is written into the directory that the registration has made. -/
theorem Mine.reasoned_put (h : s.Mine downloadDir m) {d : Download}
    (hd : s.downloads.get? f = some d) (hname : FileProtocol.IsFileId f) (idx : ℕ) (data : Buffer) :
    Reasoned downloadDir m s.store (s.put f idx data).1 := by
  obtain ⟨hid, hhoused, -⟩ := h f d hd
  have hbase : (s.put f idx data).1.baseDir = s.store.baseDir := baseDir_putChunk ..
  have hevolves : s.store.disk.Evolves (s.put f idx data).1.disk := evolves_putChunk ..
  have hhoused' := hhoused.evolve hbase hevolves
  refine ⟨hbase, hevolves, fun loc hne ↦ ?_⟩
  obtain ⟨hsame, -⟩ | ⟨-, hwrote⟩ := putChunk_cases P s.store f idx data _
  · rw [FileNode.put, hsame] at hne
    exact absurd rfl hne
  · have hplace : loc = s.store.indexPath ∨ loc = s.store.chunkPath f idx :=
      Classical.byContradiction fun hloc ↦ hne (hwrote.confined.disk loc hloc)
    obtain hloc | hloc := hplace
    · exact .index hid hhoused' (hloc.trans (indexPath_congr hbase).symm)
    · exact .chunk hid hhoused' hname (hloc.trans (chunkPath_congr hbase _ _).symm)

/-- The output of a download is written where the filename of the manifest leads, and the index is
left alone. -/
theorem Mine.reasoned_finish (h : s.Mine downloadDir m) {d : Download}
    (hd : s.downloads.get? f = some d) :
    Reasoned downloadDir m s.store (s.finish f d).store := by
  obtain ⟨hid, hhoused, filename, hname, hout⟩ := h f d hd
  rw [store_finish]
  have hconfined := confined_assemble P s.store f d.outPath
  have hevolves := evolves_assemble P s.store f d.outPath
  refine ⟨hconfined.baseDir, hevolves, fun loc hne ↦ ?_⟩
  obtain rfl : loc = d.outPath :=
    Classical.byContradiction fun hloc ↦ hne (hconfined.disk loc hloc)
  obtain hsame | ⟨-, -, hfile⟩ := assemble_cases P s.store f d.outPath
  · exact absurd (congrFun hsame _) hne
  · exact .output hid (hhoused.evolve hconfined.baseDir hevolves) hname hout hfile

theorem reasoned_register {m' : Json} (h : m' = m) :
    Reasoned downloadDir m s.store (s.registerManifest m').1.store := by
  rw [registerManifest]
  split
  · exact .refl ..
  · rw [h]
    exact reasoned_registerManifest downloadDir s.store _ m

/-! ## Events that have to do with one manifest

The node is told of no file but one.  Then all reasons for changes are about the directory of that
file, the index, and the outputs. -/

/-- The event has to do with one manifest only: no other is registered, and it is downloaded to
where `AttestP2PNode.download` puts it. -/
structure Only (P : Primitives) (jsonParse : Buffer → Option Json) (downloadDir : Location)
    (m : Json) (e : FileEvent) : Prop where
  registers : ∀ m', e.Registers P jsonParse m' → m' = m
  downloads : ∀ m' outPath parallel rank, e = .download m' outPath parallel rank →
    some e = AttestP2PNode.download downloadDir m rank
  seeds : ∀ m' filePath, e ≠ .seed m' filePath

section
variable {jsonParse : Buffer → Option Json} {s₀ : FileNode P} {e : FileEvent}

theorem eq_of_download {rank : ℕ → ℕ}
    (h : some e = AttestP2PNode.download downloadDir m rank) :
    ∃ filename, m.get "filename" = some (.str filename) ∧
      e = .download m (downloadDir.join filename) (some 16) rank := by
  rw [AttestP2PNode.download] at h
  split at h
  · next filename hname => exact ⟨filename, hname, Option.some.inj h⟩
  · exact nomatch h

/-- What an effect does to the disk: every location that it changes has one of the reasons. -/
theorem Effect.reasoned (honly : Only P jsonParse downloadDir m e)
    (h : Effect jsonParse s₀ e s s') (hmine : s.Mine downloadDir m) :
    Reasoned downloadDir m s.store s'.store := by
  cases h with
  | quiet h =>
    rw [h.store]
    exact .refl ..
  | register h => exact reasoned_register (honly.registers _ h)
  | refused h hdata hput => exact hmine.reasoned_put h.get (FileEvent.of_carries hdata).1 _ _
  | received h hdata hput hd' => exact hmine.reasoned_put h.get (FileEvent.of_carries hdata).1 _ _
  | start | promise => exact .refl ..
  | reject =>
    rw [store_settle]
    exact .refl ..
  | finish hd hneeded => exact hmine.reasoned_finish hd
  | seeded he => exact absurd he (honly.seeds _ _)

theorem Mine.evolve (h : s.Mine downloadDir m) (ht : Reasoned downloadDir m s.store s'.store)
    (hd : ∀ f d', s'.downloads.get? f = some d' →
      ∃ d, s.downloads.get? f = some d ∧ d'.outPath = d.outPath) : s'.Mine downloadDir m := by
  intro f d' hd'
  obtain ⟨d, hget, hout⟩ := hd f d' hd'
  obtain ⟨hid, hhoused, filename, hname, hold⟩ := h f d hget
  exact ⟨hid, hhoused.evolve ht.baseDir ht.evolves, filename, hname, hout.trans hold⟩

/-- What an effect does to the downloads: they stay downloads of the one manifest. -/
theorem Effect.mine (honly : Only P jsonParse downloadDir m e)
    (h : Effect jsonParse s₀ e s s') (hmine : s.Mine downloadDir m) : s'.Mine downloadDir m := by
  have hreasoned := h.reasoned honly hmine
  cases h with
  | quiet h =>
    refine hmine.evolve hreasoned fun f d hd ↦ ?_
    obtain ⟨d₀, hd₀, htask⟩ := h.get? hd
    exact ⟨d₀, hd₀, (congrArg DownloadTask.outPath htask).symm⟩
  | register h =>
    refine hmine.evolve hreasoned fun f d hd ↦ ⟨d, ?_, rfl⟩
    rwa [downloads_registerManifest] at hd
  | refused | promise => exact hmine.evolve hreasoned fun f d hd ↦ ⟨d, hd, rfl⟩
  | received h hdata hput hd' =>
    refine hmine.evolve hreasoned fun f d hd ↦ ?_
    rw [OrderedMap.get?_set] at hd
    split at hd
    · next hf =>
      subst hf
      obtain rfl := Option.some.inj hd
      exact ⟨_, h.get, congrArg DownloadTask.outPath hd'⟩
    · exact ⟨d, hd, rfl⟩
  | start he hid hok hn hneeded hd' =>
    intro f d hd
    obtain ⟨filename, hname, hevent⟩ := eq_of_download (honly.downloads _ _ _ _ he)
    obtain ⟨rfl, hout, -, -⟩ := FileEvent.download.inj (he.symm.trans hevent)
    rw [OrderedMap.get?_set] at hd
    split at hd
    · next hf =>
      subst hf
      obtain rfl := Option.some.inj hd
      rw [registerManifest_eq_of_get hid] at hok ⊢
      exact ⟨hid, housed_of_registerManifest hid hok, filename, hname,
        (congrArg DownloadTask.outPath hd').trans hout⟩
    · refine hmine f d ?_
      rwa [downloads_registerManifest]
  | reject =>
    refine hmine.evolve hreasoned fun f d hd ↦ ⟨d, ?_, rfl⟩
    rwa [downloads_settle] at hd
  | finish =>
    refine hmine.evolve hreasoned fun f d hd ↦ ?_
    rw [downloads_finish, OrderedMap.get?_delete] at hd
    split at hd
    · cases hd
    · exact ⟨d, hd, rfl⟩
  | seeded => exact hmine.evolve hreasoned fun f d hd ↦ ⟨d, hd, rfl⟩

/-- What the effects of an event do to both. -/
theorem Effects.reasoned (honly : Only P jsonParse downloadDir m e)
    (h : Effects jsonParse s₀ e s s') (hmine : s.Mine downloadDir m) :
    s'.Mine downloadDir m ∧ Reasoned downloadDir m s.store s'.store := by
  induction h with
  | refl => exact ⟨hmine, .refl ..⟩
  | tail _ h ih =>
    obtain ⟨hmine', hreasoned⟩ := ih
    exact ⟨h.mine honly hmine', hreasoned.trans (h.reasoned honly hmine')⟩

/-- **A run of events that have to do with one manifest only.** -/
theorem Mine.run (hmine : s.Mine downloadDir m) (hk : s.Keyed) {es : List FileEvent}
    (honly : ∀ e ∈ es, Only P jsonParse downloadDir m e) :
    Reasoned downloadDir m s.store (es.foldl (FileNode.next jsonParse) s).store := by
  induction es generalizing s with
  | nil => exact .refl ..
  | cons e es ih =>
    obtain ⟨he, hes⟩ := List.forall_mem_cons.mp honly
    have hnext := effects_next hk jsonParse e
    obtain ⟨hmine', hreasoned⟩ := hnext.reasoned he hmine
    exact hreasoned.trans (ih hmine' (hnext.keyed hk) hes)

end

/-! ## A harmless manifest

If no path that is made of the file id leaves the base directory, no change does.  If one does,
there is a store and a run in which something outside is created or written: a directory for a new
manifest, or a file where the directory is there already. -/

/-- Where a file has been put together one could be. -/
theorem Housed.openable {out : Location} {content : Buffer} (h : store.Housed f)
    (hdisk : Prepared store.disk store.baseDir downloadDir)
    (hfile : store.disk out = some (.file content)) :
    Openable store.baseDir downloadDir (store.dir f) out := by
  obtain ⟨text, hindex⟩ := h.index
  obtain ⟨haccepts, hnamed⟩ := hdisk.tree.file out content hfile
  refine ⟨h.accepts, haccepts, hnamed, ⟨?_, ?_, ?_⟩, ?_, ?_, ?_⟩
  · exact hdisk.tree.not_above hindex h.dir
  · exact hdisk.tree.not_above hindex hdisk.downloads
  · rintro ⟨names, hne, rfl⟩
    have habove := hdisk.tree.above (by rw [hfile]; exact nofun)
      (List.prefix_append (indexOf store.baseDir) names)
      fun heq ↦ hne (List.self_eq_append_right.mp heq)
    cases hindex.symm.trans habove
  · exact hdisk.tree.not_above hfile hdisk.base
  · exact hdisk.tree.not_above hfile hdisk.downloads
  · exact hdisk.tree.not_above hfile h.dir

theorem Prepared.evolve (h : Prepared before baseDir downloadDir) (hdisk : before.Evolves after) :
    Prepared after baseDir downloadDir :=
  ⟨hdisk.tree h.tree, hdisk.dir _ h.base, hdisk.dir _ h.downloads⟩

/-- A directory that was made on the way to that of the chunks is below that of the store. -/
theorem HarmlessNames.below (h : HarmlessNames baseDir downloadDir m)
    (hdisk : Prepared before baseDir downloadDir) (hid : m.get "file_id" = some (.str f))
    (haccepts : FileSystem.accepts (baseDir.resolve f) = true)
    (hway : loc <+: baseDir.resolve f) (hnew : before loc ≠ some .dir) :
    StrictlyBelow baseDir loc := by
  have hout {l : Location} (hl : before l = some .dir) : ¬baseDir.resolve f <+: l := fun hdir ↦
    hnew (hdisk.tree.above_dir hl (hway.trans hdir))
  obtain hdir | hdir | ⟨names, -, hdir⟩ := h.chunkDir f hid haccepts
  · exact absurd hdir (hout hdisk.base)
  · exact absurd hdir (hout hdisk.downloads)
  · -- both are on the way to the same directory
    obtain hup | ⟨rest, rfl⟩ := List.prefix_or_prefix_of_prefix hway
      (hdir ▸ List.prefix_append baseDir names)
    · exact absurd (hdisk.tree.above_dir hdisk.base hup) hnew
    · refine ⟨rest, ?_, rfl⟩
      rintro rfl
      rw [List.append_nil] at hnew
      exact hnew hdisk.base

/-- **A change that has a reason is where it belongs.** -/
theorem Reasoned.contained (h : Reasoned downloadDir m store store')
    (hdisk : Prepared store.disk store.baseDir downloadDir)
    (hharmless : HarmlessNames store.baseDir downloadDir m) :
    Contained store.baseDir downloadDir m store.disk store'.disk := by
  have hafter := hdisk.evolve h.evolves
  have hopen {f : String} {loc : Location} (hhoused : store'.Housed f)
      (hid : m.get "file_id" = some (.str f)) (hout : IsOutput downloadDir m store'.disk loc) :
      StrictlyBelow downloadDir loc := by
    obtain ⟨⟨filename, hname, rfl⟩, content, hfile⟩ := hout
    refine hharmless.output f filename hid hname ?_
    have hopenable := Housed.openable hhoused (h.baseDir ▸ hafter) hfile
    rwa [h.baseDir, ChunkStore.dir, h.baseDir] at hopenable
  refine ⟨fun loc hne hout ↦ ?_, fun loc hne hout ↦ ?_⟩
  · cases h.reason loc hne with
    | dir hid haccepts hway hdir =>
      obtain ⟨-, content, hfile⟩ := hout
      cases hfile.symm.trans hdir
    | index hid hhoused hloc => exact hopen hhoused hid hout
    | chunk hid hhoused hname hloc => exact hopen hhoused hid hout
    | output hid hhoused hname hloc hfile => exact hopen hhoused hid hout
  · cases h.reason loc hne with
    | dir hid haccepts hway hdir =>
      rw [ChunkStore.dir, h.baseDir] at haccepts hway
      refine hharmless.below hdisk hid haccepts hway fun hbefore ↦ ?_
      rw [hdir, hbefore] at hne
      exact hne rfl
    | index hid hhoused hloc =>
      exact ⟨["index.json"], List.cons_ne_nil _ _, by rw [hloc, indexPath, h.baseDir]⟩
    | chunk hid hhoused hname hloc =>
      obtain ⟨id, hlength, rfl⟩ := hname
      have hbelow := strictlyBelow_resolve.mpr
        (inside_of_isName (isName_hex (List.ne_nil_of_length_eq_add_one hlength)) store.baseDir)
      rw [hloc, chunkPath_eq_append, ChunkStore.dir, h.baseDir]
      exact hbelow.append _
    | output hid hhoused hname hloc hfile => exact absurd ⟨⟨_, hname, hloc⟩, hfile⟩ hout

/-! ## A manifest that is not harmless

The node is started on a disk that has no files, only directories. -/

/-- The directories on the way to the given ones. -/
def bare (dirs : List Location) : FileSystem := fun loc ↦
  if ∃ d ∈ dirs, loc <+: d then some .dir else none

theorem bare_of_mem {dirs : List Location} {d : Location} (hd : d ∈ dirs) (hway : loc <+: d) :
    bare dirs loc = some .dir := if_pos ⟨d, hd, hway⟩

theorem bare_ne_file (dirs : List Location) (loc : Location) (content : Buffer) :
    bare dirs loc ≠ some (.file content) := by
  rw [bare]
  split_ifs <;> exact nofun

theorem prepared_bare {dirs : List Location} (hbase : baseDir ∈ dirs)
    (hdownload : downloadDir ∈ dirs) : Prepared (bare dirs) baseDir downloadDir := by
  refine ⟨⟨fun dir name hentry ↦ ?_, fun loc content hfile ↦ ?_⟩, ?_, ?_⟩
  · have hsome : ∃ d ∈ dirs, dir ++ [name] <+: d :=
      Classical.byContradiction fun hnone ↦ hentry (if_neg hnone)
    obtain ⟨d, hd, hway⟩ := hsome
    exact bare_of_mem hd ((List.prefix_append dir [name]).trans hway)
  · exact absurd hfile (bare_ne_file dirs loc content)
  · exact bare_of_mem hbase (List.prefix_refl baseDir)
  · exact bare_of_mem hdownload (List.prefix_refl downloadDir)

/-- A store on a disk that has only directories. -/
def bareStore (baseDir : Location) (files : OrderedMap String StoreEntry) (dirs : List Location) :
    ChunkStore := ⟨baseDir, files, bare dirs⟩

variable {files : OrderedMap String StoreEntry} {dirs : List Location}

theorem mkdirSync_bare (dirs : List Location) (haccepts : FileSystem.accepts loc = true) :
    ∃ disk, (bare dirs).mkdirSync loc = .ok disk ∧ (∀ l, l <+: loc → disk l = some .dir) ∧
      ∀ l, ¬l <+: loc → disk l = bare dirs l :=
  mkdirSync_of_free haccepts fun l _ content ↦ bare_ne_file dirs l content

/-- The index can be written next to these directories. -/
theorem canRegister_bare (hbase : FileSystem.accepts baseDir = true)
    (haccepts : FileSystem.accepts (baseDir.resolve f) = true) (hmem : baseDir ∈ dirs)
    (hdir : ¬indexOf baseDir <+: baseDir.resolve f) (hdirs : ∀ d ∈ dirs, ¬indexOf baseDir <+: d) :
    (bareStore baseDir files dirs).CanRegister f := by
  obtain ⟨disk, hmkdir, hmade, hothers⟩ := mkdirSync_bare dirs haccepts
  refine ⟨disk, hmkdir, ?_, ?_, ?_, ?_⟩
  · have hindex : FileSystem.accepts (indexOf baseDir) = true := by
      rw [indexOf, FileSystem.accepts, List.all_append, Bool.and_eq_true]
      exact ⟨hbase, by decide⟩
    exact hindex
  · rw [indexPath, List.getLast?_concat]
    decide
  · intro hentry
    have hnone : disk (indexOf baseDir) = none := by
      refine (hothers _ hdir).trans (if_neg ?_)
      rintro ⟨d, hd, hway⟩
      exact hdirs d hd hway
    cases hnone.symm.trans hentry
  · rw [indexPath, List.dropLast_concat]
    exact (evolves_mkdirSync hmkdir).dir baseDir (bare_of_mem hmem (List.prefix_refl baseDir))

section
variable {jsonParse : Buffer → Option Json}

/-- The manifest is received from some peer, in the text that it was sent as. -/
def receives (text : Buffer) : FileEvent :=
  .message ⟨"", []⟩ (FileProtocol.manifestType :: text) fun i ↦ i

theorem decode_receives {text : Buffer} (hparse : jsonParse text = some m) :
    FileProtocol.decode jsonParse (FileProtocol.manifestType :: text) = .ok (.manifest m) := by
  rw [FileProtocol.decode, if_pos rfl, hparse]

theorem only_receives {text : Buffer} (hparse : jsonParse text = some m) :
    Only P jsonParse downloadDir m (receives text) where
  registers m' h := by
    have hdecode := (decode_receives hparse).symm.trans h.1
    exact (FileMessage.manifest.inj (Except.ok.inj hdecode)).symm
  downloads _ _ _ _ := nofun
  seeds _ _ := nofun

theorem next_receives {text : Buffer} (hparse : jsonParse text = some m)
    (hverify : Manifest.verifyManifest P m = some true)
    (hok : (s.registerManifest m).2 = .ok ()) :
    s.next jsonParse (receives text) = (s.registerManifest m).1.emit (.manifest m) := by
  rw [receives, next, handleMessage, decode_receives hparse]
  dsimp only
  rw [onManifest, hverify]
  dsimp only
  rw [hok]

theorem store_receives {text : Buffer} (hparse : jsonParse text = some m)
    (hverify : Manifest.verifyManifest P m = some true) (hid : m.get "file_id" = some (.str f)) :
    (s.next jsonParse (receives text)).store = (s.store.registerManifest f m).1 := by
  rw [receives, next, handleMessage, decode_receives hparse]
  dsimp only
  rw [onManifest, hverify]
  dsimp only
  rw [registerManifest_eq_of_get hid]
  split
  · rfl
  · rfl

/-- Receiving the manifest makes the directory of its chunks. -/
theorem chunkDir_received (jsonParse : Buffer → Option Json) (text : Buffer)
    (files : OrderedMap String StoreEntry) (dirs : List Location) (signKey : P.SignKey)
    (parallel : ℕ) (hparse : jsonParse text = some m)
    (hverify : Manifest.verifyManifest P m = some true) (hid : m.get "file_id" = some (.str f))
    (haccepts : FileSystem.accepts (baseDir.resolve f) = true) :
    ([receives text].foldl (next jsonParse)
      (new signKey (bareStore baseDir files dirs) parallel)).store.disk (baseDir.resolve f) =
        some .dir := by
  rw [List.foldl_cons, List.foldl_nil, store_receives hparse hverify hid]
  obtain ⟨-, -, hrefused⟩ | ⟨f', hid', -, hmade, -⟩ :=
    registerManifest_cases (bareStore baseDir files dirs) f m
  · obtain ⟨disk, hmkdir, -⟩ := mkdirSync_bare dirs haccepts
    exact absurd hmkdir (hrefused f disk hid)
  · obtain rfl := Json.str.inj (Option.some.inj (hid'.symm.trans hid))
    exact hmade _ (List.prefix_refl _)

/-- A store that has all chunks of a file. -/
def completeEntry (n : ℕ) : StoreEntry where
  filename := none
  size := none
  chunkSize := none
  nbChunks := some (.num (.ofNat n))
  chunks := List.range n
  replicationFactor := 1

theorem broadcastHave_of_alone (h : s.sessions.entries = []) (f : String) :
    s.broadcastHave f = (s, .ok ()) := by rw [broadcastHave, if_pos h]

theorem store_complete {d : Download} (hd : s.downloads.get? f = some d) (hdone : d.done = false) :
    (s.complete f).store = (s.store.assemble P f d.outPath).1 := by
  obtain ⟨-, hnone⟩ | ⟨d', s₁, hd', hquiet, -, heq⟩ := complete_cases s f
  · cases (hnone d hd).symm.trans hdone
  · obtain rfl := Option.some.inj (hd.symm.trans hd')
    rw [heq, store_finish, hquiet.store]

/-- With no session and no chunk to wait for, a download is finished at once. -/
theorem store_startDownload {n : ℕ} (hsessions : s.sessions.entries = [])
    (hn : loopCount (m.get "nb_chunks") = some n) (hmissing : missing s.store f n = .ok ∅)
    (out : Location) (parallel promise : ℕ) (rank : ℕ → ℕ) :
    (s.startDownload m f out parallel promise rank).store = (s.store.assemble P f out).1 := by
  let d : Download :=
    { manifest := m, fileId := f, outPath := out, needed := ∅
      inFlight := .empty, badPeerForChunk := .empty, parallel := parallel
      promise := promise, done := false, received := n - Finset.card (∅ : Finset ℕ), tick := none }
  have halone : (s.putDownload d).broadcastHave f = (s.putDownload d, .ok ()) :=
    broadcastHave_of_alone (s := s.putDownload d) hsessions f
  have hcomplete : ((s.putDownload d).complete f).store = (s.store.assemble P f out).1 :=
    store_complete (get?_putDownload_self s d) rfl
  rw [startDownload, hn]
  dsimp only
  rw [hmissing]
  dsimp only
  rw [halone]
  dsimp only
  rw [if_pos rfl, hcomplete]

/-- The manifest is downloaded, as a user asks for it, to its own name in the directory of
downloads. -/
def fetches (downloadDir : Location) (m : Json) (filename : String) : FileEvent :=
  .download m (downloadDir.join filename) (some 16) fun i ↦ i

theorem only_fetches {filename : String} (hname : m.get "filename" = some (.str filename)) :
    Only P jsonParse downloadDir m (fetches downloadDir m filename) where
  registers m' h := h
  downloads m' outPath parallel rank heq := by
    obtain ⟨-, -, -, rfl⟩ := FileEvent.download.inj heq
    rw [AttestP2PNode.download, hname]
    rfl
  seeds _ _ := nofun

/-- Where a file can be put together, a download puts it. -/
theorem file_fetched (signKey : P.SignKey) (parallel : ℕ) {n : ℕ} {filename : String}
    (hid : m.get "file_id" = some (.str f)) (hn : loopCount (m.get "nb_chunks") = some n)
    (hle : n ≤ 2 ^ 53) (hregister : store.CanRegister f)
    (hfiles : store.files.get? f = some (completeEntry n))
    (hwritable : (store.registerManifest f m).1.disk.Writable (downloadDir.join filename)) :
    ∃ content, ([fetches downloadDir m filename].foldl (next jsonParse)
      (new signKey store parallel)).store.disk (downloadDir.join filename) =
        some (.file content) := by
  have hentry : (store.registerManifest f m).1.files.get? f = some (completeEntry n) := by
    rw [files_registerManifest, get?_addEntry, hfiles]
    simp
  have hmissing : missing (store.registerManifest f m).1 f n = .ok ∅ := by
    rw [missing, lookup, hentry]
    refine congrArg Except.ok (Finset.filter_eq_empty_iff.mpr fun i hi ↦ ?_)
    exact not_not.mpr (List.mem_range.mpr (Finset.mem_range.mp hi))
  have hcount : Json.strictEq (.num (.ofNat (completeEntry n).chunks.length))
      (completeEntry n).nbChunks = true := by
    rw [completeEntry, List.length_range]
    exact Number.strictEq_ofNat hle
  obtain ⟨parallel', hdownload⟩ := download_eq (s := new (P := P) signKey store parallel)
    (downloadDir.join filename) (some 16) (fun i ↦ i) hid hregister
  rw [List.foldl_cons, List.foldl_nil, fetches, next, hdownload]
  dsimp only
  rw [registerManifest_eq_of_get hid, store_startDownload rfl hn hmissing]
  exact file_assemble hentry hcount hwritable

/-- An array of JavaScript has less than `2 ^ 32` elements, and is counted by its number. -/
theorem loopCount_of_verifyManifest (hverify : Manifest.verifyManifest P m = some true)
    (hlength : ∀ chunks, m.get "chunks" = some (.arr chunks) → chunks.length < 2 ^ 32) :
    ∃ n ≤ 2 ^ 53, loopCount (m.get "nb_chunks") = some n := by
  obtain ⟨chunks, hchunks, hcount⟩ := Manifest.chunks_of_verifyManifest hverify
  have hle : chunks.length ≤ 2 ^ 53 := (hlength chunks hchunks).le.trans (by decide)
  cases hnb : m.get "nb_chunks" with
  | none => exact absurd hcount (by simp [hnb, Json.strictEq])
  | some nb =>
    rw [hnb] at hcount
    cases nb with
    | num q =>
      obtain ⟨-, rfl⟩ := of_decide_eq_true hcount
      exact ⟨chunks.length, hle, Number.countBelow_ofNat hle⟩
    | _ => exact nomatch hcount

/-- Registering a manifest is not in the way of the output. -/
theorem writable_registered {out : Location} (hid : m.get "file_id" = some (.str f))
    (hregister : store.CanRegister f) (hwritable : store.disk.Writable out)
    (hdir : ¬out <+: store.dir f) : (store.registerManifest f m).1.disk.Writable out := by
  have hparent := (evolves_registerManifest store f m).dir _ hwritable.parent
  refine ⟨hwritable.accepts, hwritable.named, fun hentry ↦ ?_, hparent⟩
  have hconfined := confined_registerManifest store f m
  have hplace : store.RegisterPlace m out := by
    refine Classical.byContradiction fun hloc ↦ hwritable.free ?_
    rw [← hconfined.disk out hloc, hentry]
  obtain hloc | ⟨f', hid', hway⟩ := hplace
  · have hok := (ChunkStore.registerManifest_eq_ok_iff hid).mpr hregister
    obtain ⟨content, hindex⟩ := (housed_of_registerManifest hid hok).index
    rw [indexPath_congr hconfined.baseDir, ← hloc, hentry] at hindex
    cases hindex
  · obtain rfl := Json.str.inj (Option.some.inj (hid'.symm.trans hid))
    exact hdir hway

theorem indexOf_not_above (baseDir : Location) : ¬indexOf baseDir <+: baseDir := fun h ↦ by
  have hlength := h.length_le
  rw [indexOf, List.length_append, List.length_singleton] at hlength
  omega

/-- Where a file could be put together one is put, on a disk that has only the directories for
it. -/
theorem output_fetched (jsonParse : Buffer → Option Json) (signKey : P.SignKey) (parallel : ℕ)
    {n : ℕ} {filename : String} (hbase : FileSystem.accepts baseDir = true)
    (hid : m.get "file_id" = some (.str f)) (hn : loopCount (m.get "nb_chunks") = some n)
    (hle : n ≤ 2 ^ 53)
    (hopen : Openable baseDir downloadDir (baseDir.resolve f) (downloadDir.join filename)) :
    ∃ store : ChunkStore, store.baseDir = baseDir ∧ Prepared store.disk baseDir downloadDir ∧
      store.disk (downloadDir.join filename) = none ∧
        ∃ content, ([fetches downloadDir m filename].foldl (next jsonParse)
          (new signKey store parallel)).store.disk (downloadDir.join filename) =
            some (.file content) := by
  obtain ⟨hdir, hout, hnamed, ⟨hindex, hindex', hindex''⟩, hfree, hfree', hfree''⟩ := hopen
  let dirs : List Location := [baseDir, downloadDir, (downloadDir.join filename).dropLast]
  let store := bareStore baseDir (OrderedMap.empty.set f (completeEntry n)) dirs
  have hne : downloadDir.join filename ≠ [] := fun hnil ↦ hfree (hnil ▸ List.nil_prefix)
  have hnone : store.disk (downloadDir.join filename) = none := by
    refine if_neg ?_
    rintro ⟨d, hd, hway⟩
    obtain rfl | rfl | rfl : d = baseDir ∨ d = downloadDir ∨ d = _ := by simpa [dirs] using hd
    · exact hfree hway
    · exact hfree' hway
    · have hlength := hway.length_le
      rw [List.length_dropLast] at hlength
      have hpos := List.length_pos_iff.mpr hne
      omega
  have hdirs : ∀ d ∈ dirs, ¬indexOf baseDir <+: d := by
    refine List.forall_mem_cons.mpr ⟨indexOf_not_above baseDir,
      List.forall_mem_cons.mpr ⟨hindex', List.forall_mem_singleton.mpr ?_⟩⟩
    rintro ⟨names, hnames⟩
    refine hindex'' ⟨names ++ [(downloadDir.join filename).getLast hne],
      List.append_ne_nil_of_right_ne_nil _ (List.cons_ne_nil _ _), ?_⟩
    rw [← List.append_assoc, hnames, List.dropLast_append_getLast hne]
  have hregister : store.CanRegister f :=
    canRegister_bare hbase hdir (List.mem_cons_self ..) hindex hdirs
  have hwritable : store.disk.Writable (downloadDir.join filename) :=
    ⟨hout, hnamed, by rw [hnone]; exact nofun, bare_of_mem (by simp [dirs]) (List.prefix_refl _)⟩
  refine ⟨store, rfl, prepared_bare (by simp [dirs]) (by simp [dirs]), hnone, ?_⟩
  exact file_fetched signKey parallel hid hn hle hregister OrderedMap.get?_set_self
    (writable_registered hid hregister hwritable hfree'')

/-- **The writes of a manifest.**  In every run of a new node that has to do with this manifest
only, what is created and written is where it belongs, if and only if its names lead further down or
nowhere. -/
theorem contained_iff (signKey : P.SignKey) (parallel : ℕ) (jsonParse : Buffer → Option Json)
    (text : Buffer) (hbase : FileSystem.accepts baseDir = true)
    (hparse : jsonParse text = some m)
    (hlength : ∀ chunks, m.get "chunks" = some (.arr chunks) → chunks.length < 2 ^ 32)
    (hverify : Manifest.verifyManifest P m = some true) :
    (∀ (store : ChunkStore) (es : List FileEvent), store.baseDir = baseDir →
        Prepared store.disk baseDir downloadDir → (∀ e ∈ es, Only P jsonParse downloadDir m e) →
          Contained baseDir downloadDir m store.disk
            (es.foldl (next jsonParse) (new signKey store parallel)).store.disk) ↔
      HarmlessNames baseDir downloadDir m := by
  constructor
  · intro h
    refine ⟨fun f hid haccepts ↦ ?_, fun f filename hid hname hopen ↦ ?_⟩
    · by_contra hout
      obtain ⟨hnotBase, hnotDownload, hnotBelow⟩ := by simpa only [not_or] using hout
      have hrun := h (bareStore baseDir .empty [baseDir, downloadDir]) [receives text] rfl
        (prepared_bare (by simp) (by simp)) (List.forall_mem_singleton.mpr (only_receives hparse))
      have hmade := chunkDir_received jsonParse text .empty [baseDir, downloadDir] signKey parallel
        hparse hverify hid haccepts
      have hnone : bare [baseDir, downloadDir] (baseDir.resolve f) = none := by
        refine if_neg ?_
        rintro ⟨d, hd, hway⟩
        obtain rfl | rfl : d = baseDir ∨ d = downloadDir := by simpa using hd
        · exact hnotBase hway
        · exact hnotDownload hway
      refine hnotBelow (hrun.others _ ?_ ?_)
      · rw [hmade]
        exact fun heq ↦ by cases heq.trans hnone
      · rintro ⟨-, content, hfile⟩
        cases hmade.symm.trans hfile
    · obtain ⟨n, hle, hn⟩ := loopCount_of_verifyManifest hverify hlength
      obtain ⟨store, hstore, hdisk, hnone, content, hfile⟩ :=
        output_fetched jsonParse signKey parallel hbase hid hn hle hopen
      have hrun := h store [fetches downloadDir m filename] hstore hdisk
        (List.forall_mem_singleton.mpr (only_fetches hname))
      refine hrun.output _ ?_ ⟨⟨filename, hname, rfl⟩, content, hfile⟩
      rw [hfile, hnone]
      exact nofun
  · rintro h store es rfl hdisk honly
    have hmine : (new signKey store parallel).Mine downloadDir m := fun f d hd ↦ nomatch hd
    have hkeyed : (new signKey store parallel).Keyed := fun f d hd ↦ nomatch hd
    exact (hmine.run hkeyed honly).contained hdisk h

end

/-! ### Manifests of one file -/

/-- A manifest that is built with a plain name is harmless. -/
theorem harmlessNames_manifestOf {key : P.SignKey} {data : Buffer} {filename : String}
    {chunkSize : ℕ} (hid : P.sha256 data ≠ []) (hname : IsName filename) :
    HarmlessNames baseDir downloadDir (Manifest.manifestOf P key data filename chunkSize) where
  chunkDir f hf _ := by
    obtain rfl := Json.str.inj (Option.some.inj hf)
    exact .inr (.inr (strictlyBelow_resolve.mpr (inside_of_isName (isName_hex hid) baseDir)))
  output f name _ hn _ := by
    obtain rfl := Json.str.inj (Option.some.inj hn)
    rw [join_of_isName hname]
    exact ⟨[filename], List.cons_ne_nil filename [], rfl⟩

namespace SampleFile

open Manifest

/-- A store without files, and an empty download directory. -/
def emptyStore : ChunkStore := bareStore ["store"] .empty [["store"], ["downloads"]]

/-- A manifest with the given name of the file. -/
def named (filename : String) : Json :=
  manifestOf primitives () sampleContent filename defaultChunkSize

/-- A manifest of no chunks, with the given id. -/
def identified (fileId : String) : Json :=
  .obj [("file_id", .str fileId), ("filename", .str "empty.txt"), ("size", .num (.ofNat 0)),
    ("nb_chunks", .num (.ofNat 0)), ("chunks", .arr []), ("sender_id", .str sampleSender.hex),
    ("signature", .str sampleSignature.hex)]

theorem verifyManifest_named (filename : String) :
    verifyManifest primitives (named filename) = some true :=
  verifyManifest_of_verifySignature (by decide) (by decide) (by decide)
    (verifySignature_manifestOf lawful)

theorem verifyManifest_identified :
    verifyManifest primitives (identified "../evil") = some true := by decide +kernel

/-- The peer delivers the only chunk of the sample, with its hash and its signature. -/
def delivers : FileEvent :=
  .message ⟨"00#1", sampleSender⟩
    (FileProtocol.encChunkData sampleFileId.hex 0 sampleFileId sampleSignature sampleContent)
    fun i ↦ i

/-- The manifest is received and downloaded, and the chunk comes in. -/
def events (filename : String) : List FileEvent :=
  [receives [], fetches ["downloads"] (named filename) filename, delivers]

theorem only_events (filename : String) : ∀ e ∈ events filename,
    Only primitives (fun _ ↦ some (named filename)) ["downloads"] (named filename) e := by
  refine List.forall_mem_cons.mpr ⟨only_receives rfl,
    List.forall_mem_cons.mpr ⟨only_fetches rfl, List.forall_mem_singleton.mpr ⟨?_, nofun, nofun⟩⟩⟩
  rintro m' ⟨hdecode, -⟩
  rw [FileProtocol.decode_encChunkData (by decide) (by decide) (by decide) (by decide)] at hdecode
  cases hdecode

/-- The disk when `es` have happened to a node with the empty store. -/
def diskAfter (m : Json) (es : List FileEvent) : FileSystem :=
  (es.foldl (next fun _ ↦ some m) (new (P := primitives) () emptyStore 8)).store.disk

theorem prepared : Prepared emptyStore.disk ["store"] ["downloads"] :=
  prepared_bare (by simp) (by simp)

/-- The node when the manifest has been registered. -/
def registered (m : Json) : FileNode primitives :=
  ((new () emptyStore 8).registerManifest m).1.emit (.manifest m)

theorem diskAfter_events {filename : String} : diskAfter (named filename) (events filename) =
    ([fetches ["downloads"] (named filename) filename, delivers].foldl
      (next fun _ ↦ some (named filename)) (registered (named filename))).store.disk := by
  have hok : ((new (P := primitives) () emptyStore 8).registerManifest (named filename)).2 =
      .ok () := by
    rfl
  rw [diskAfter, events, List.foldl_cons, next_receives rfl (verifyManifest_named filename) hok,
    registered]

end SampleFile

open SampleFile Manifest in
/-- A file is downloaded: its chunk is below the directory of the store, and the file is below the
download directory. -/
theorem contained_sample :
    diskAfter (named "hello.txt") (events "hello.txt") ["store", sampleFileId.hex, "0.chunk"] =
        some (.file sampleContent) ∧
      diskAfter (named "hello.txt") (events "hello.txt") ["downloads", "hello.txt"] =
        some (.file sampleContent) ∧
      Contained ["store"] ["downloads"] (named "hello.txt") emptyStore.disk
        (diskAfter (named "hello.txt") (events "hello.txt")) := by
  have hwritten : diskAfter (named "hello.txt") (events "hello.txt")
        ["store", sampleFileId.hex, "0.chunk"] = some (.file sampleContent) ∧
      diskAfter (named "hello.txt") (events "hello.txt") ["downloads", "hello.txt"] =
        some (.file sampleContent) := by
    rw [diskAfter_events]
    decide +kernel
  refine ⟨hwritten.1, hwritten.2, ?_⟩
  have hname : IsName "hello.txt" := ⟨by decide, by decide, by decide, by decide⟩
  have hlength : ∀ chunks, (named "hello.txt").get "chunks" = some (.arr chunks) →
      chunks.length < 2 ^ 32 := by
    intro chunks h
    obtain rfl := Json.arr.inj (Option.some.inj h)
    decide
  exact (contained_iff (P := primitives) () 8 (fun _ ↦ some (named "hello.txt")) [] (by decide) rfl
    hlength (verifyManifest_named _)).mpr (harmlessNames_manifestOf (by decide) hname) emptyStore
    (events "hello.txt") rfl prepared (only_events _)

open SampleFile Manifest in
/-- The download of a manifest that is accepted is written outside of the download directory, and
the directory for its chunks is made outside of that of the store. -/
theorem not_contained :
    (verifyManifest primitives (named "../evil.txt") = some true ∧
      (∀ e ∈ events "../evil.txt", Only primitives (fun _ ↦ some (named "../evil.txt"))
        ["downloads"] (named "../evil.txt") e) ∧
      diskAfter (named "../evil.txt") (events "../evil.txt") ["evil.txt"] =
        some (.file sampleContent) ∧
      ¬Contained ["store"] ["downloads"] (named "../evil.txt") emptyStore.disk
        (diskAfter (named "../evil.txt") (events "../evil.txt"))) ∧
    verifyManifest primitives (identified "../evil") = some true ∧
      Only primitives (fun _ ↦ some (identified "../evil")) ["downloads"] (identified "../evil")
        (receives []) ∧
      diskAfter (identified "../evil") [receives []] ["evil"] = some .dir ∧
      ¬Contained ["store"] ["downloads"] (identified "../evil") emptyStore.disk
        (diskAfter (identified "../evil") [receives []]) := by
  have hwritten : diskAfter (named "../evil.txt") (events "../evil.txt") ["evil.txt"] =
      some (.file sampleContent) :=
    (congrFun diskAfter_events _).trans (by decide +kernel)
  have hdir : Location.resolve ["store"] "../evil" = ["evil"] := by decide
  have hid : (identified "../evil").get "file_id" = some (.str "../evil") := rfl
  have hmade : diskAfter (identified "../evil") [receives []] ["evil"] = some .dir := by
    have haccepts : FileSystem.accepts (Location.resolve ["store"] "../evil") = true := by decide
    have h := chunkDir_received (P := primitives) (fun _ ↦ some (identified "../evil")) [] .empty
      [["store"], ["downloads"]] () 8 rfl verifyManifest_identified hid haccepts
    rw [hdir] at h
    rw [diskAfter, emptyStore]
    exact h
  have honly : Only primitives (fun _ ↦ some (identified "../evil")) ["downloads"]
      (identified "../evil") (receives []) := only_receives rfl
  have hout : Location.join ["downloads"] "../evil.txt" = ["evil.txt"] := by decide
  have hleaves {dir loc : Location} (hdir : dir.head? ≠ loc.head?) (hne : dir ≠ []) :
      ¬StrictlyBelow dir loc := by
    rintro ⟨names, -, rfl⟩
    exact hdir (List.head?_append_of_ne_nil dir hne).symm
  refine ⟨⟨verifyManifest_named _, only_events _, hwritten, fun h ↦ ?_⟩,
    verifyManifest_identified, honly, hmade, fun h ↦ ?_⟩
  · refine hleaves (by decide) (by decide) (h.output ["evil.txt"] ?_ ?_)
    · rw [hwritten]
      exact nofun
    · exact ⟨⟨"../evil.txt", rfl, hout.symm⟩, sampleContent, hwritten⟩
  · refine hleaves (by decide) (by decide) (h.others ["evil"] ?_ ?_)
    · rw [hmade]
      exact nofun
    · rintro ⟨-, content, hfile⟩
      cases hmade.symm.trans hfile

end FileNode

end AttestP2P
