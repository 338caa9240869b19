import AttestP2P.File.Progress
import AttestP2P.File.Promises
import AttestP2P.File.RoundTrip
import AttestP2P.File.StoreIndex

/-!
# What a download delivers

A peer may send anything: manifests of the same file, lists of chunks that it does not have, chunks
that nobody has asked for.  What a download writes is the file nevertheless, since the store lists a
chunk of the file only together with its content.

* `Listed` says so of the store, and `Sound` of a node with a download of the file.
* `Job` is the file, built by somebody, with the call of `download` that asks for it; `Spared` and
  `Allows` say what else the node may be told to do.
* `Sound.next`: an event keeps it, unless it seeds into the directory of the file, or writes an
  output over a chunk.
* `Sound.delivers`: when the promise is resolved, the output is the file.  `download_intact`
  follows.

A chunk that arrives is checked against the manifest with which the download began, which is the one
that was built for the file, whatever manifests have been heard of since.  About the digests it is
assumed only that no other data in the run has the digest of one of the chunks.
-/

set_option autoImplicit false

namespace AttestP2P

open Slices

/-! ## The store -/

namespace ChunkStore

open FileSystem Location

variable {P : Primitives} {s s' : ChunkStore} {b data d : Buffer} {chunkSize i : ℕ} {f : String}

/-- What the store lists of the file is there. -/
def Listed (s : ChunkStore) (b data : Buffer) (chunkSize : ℕ) : Prop :=
  ∀ e, s.files.get? b.hex = some e → e.chunks.Nodup ∧ ∀ i ∈ e.chunks, i < count data chunkSize ∧
    s.disk (s.chunkPath b.hex i) = some (.file (slice data chunkSize i))

/-- What is listed stays listed, and there: the store grows, and the chunks of the file keep their
bytes. -/
structure Keeps (s s' : ChunkStore) (b data : Buffer) (chunkSize : ℕ) : Prop where
  baseDir : s'.baseDir = s.baseDir
  grows : Grows s s'
  listed : s.Listed b data chunkSize → s'.Listed b data chunkSize

theorem Keeps.refl (s : ChunkStore) (b data : Buffer) (chunkSize : ℕ) :
    s.Keeps s b data chunkSize :=
  ⟨rfl, .of_files_eq rfl, id⟩

/-- The chunks have been left alone, and none has been added. -/
theorem Listed.of_files (h : s.Listed b data chunkSize) (hbase : s'.baseDir = s.baseDir)
    (hentry : ∀ e, s'.files.get? b.hex = some e → e.chunks = [] ∨ s.files.get? b.hex = some e)
    (hdisk : ∀ i < count data chunkSize, ∀ content,
      s.disk (s.chunkPath b.hex i) = some (.file content) →
        s'.disk (s.chunkPath b.hex i) = some (.file content)) : s'.Listed b data chunkSize := by
  intro e he
  obtain hnil | hold := hentry e he
  · rw [hnil]
    exact ⟨List.nodup_nil, nofun⟩
  · obtain ⟨hnodup, hchunks⟩ := h e hold
    refine ⟨hnodup, fun i hi ↦ ?_⟩
    obtain ⟨hlt, hfile⟩ := hchunks i hi
    rw [chunkPath_congr hbase]
    exact ⟨hlt, hdisk i hlt _ hfile⟩

/-- A manifest is registered, whichever it is, and no chunk is touched. -/
theorem keeps_registerManifest (s : ChunkStore) (key : String) (m : Json) :
    s.Keeps (s.registerManifest key m).1 b data chunkSize := by
  have hbase := (confined_registerManifest s key m).baseDir
  refine ⟨hbase, grows_registerManifest s key m, fun h ↦ h.of_files hbase (fun e he ↦ ?_)
    fun i _ content hfile ↦ file_registerManifest chunkPath_ne_index hfile⟩
  rw [files_registerManifest, get?_addEntry] at he
  split_ifs at he
  · exact .inr he
  · cases hold : s.files.get? b.hex with
    | none =>
      rw [hold] at he
      obtain rfl := Option.some.inj he
      exact .inl rfl
    | some e' =>
      rw [hold] at he
      exact .inr he
  · exact .inr he

/-- A chunk is put into another directory, and those of the file keep their bytes. -/
theorem keeps_putChunk_of_ne (P : Primitives) (idx : ℕ) (d : Buffer) (expected : Option Json)
    (hdir : s.dir f ≠ s.dir b.hex) :
    s.Keeps (s.putChunk P f idx d expected).1 b data chunkSize := by
  refine ⟨baseDir_putChunk .., grows_putChunk P s f idx d expected, fun h ↦ ?_⟩
  obtain ⟨hsame, -⟩ | ⟨-, hwrote⟩ := putChunk_cases P s f idx d expected
  · rwa [hsame]
  · refine h.of_files hwrote.confined.baseDir (fun e he ↦ .inr ?_) fun j _ content hfile ↦ ?_
    · obtain hfiles | ⟨e', -, hfiles⟩ := hwrote.files
      · rwa [hfiles] at he
      · rwa [hfiles, OrderedMap.get?_set_of_ne fun heq ↦ hdir (congrArg s.dir heq.symm)] at he
    · rw [hwrote.confined.disk _ ?_, hfile]
      rintro (hindex | hsame)
      · exact chunkPath_ne_index hindex
      · exact hdir (chunkPath_eq_iff.mp hsame).1.symm

theorem nodup_chunks_addChunk {e : StoreEntry} (h : e.chunks.Nodup) (hi : i ∉ e.chunks) :
    (addChunk e i).chunks.Nodup := by
  rw [addChunk, (List.mergeSort_perm _ _).nodup_iff, List.nodup_append]
  refine ⟨h, List.nodup_singleton i, fun j hj k hk ↦ ?_⟩
  rw [List.mem_singleton.mp hk]
  rintro rfl
  exact hi hj

/-- A chunk of the file is put, with the hash that its manifest expects. -/
theorem keeps_putChunk (P : Primitives) (s : ChunkStore) (b : Buffer)
    (hi : i < count data chunkSize) :
    s.Keeps (s.putChunk P b.hex i (slice data chunkSize i)
      (some (.str (P.sha256 (slice data chunkSize i)).hex))).1 b data chunkSize := by
  refine ⟨baseDir_putChunk .., grows_putChunk P s b.hex i _ _, fun h ↦ ?_⟩
  have hexpected : ¬Refuses P (slice data chunkSize i)
      (some (.str (P.sha256 (slice data chunkSize i)).hex)) := by
    rintro ⟨-, hne⟩
    exact absurd (of_decide_eq_false hne) (by simp)
  obtain ⟨hsame, -⟩ | ⟨-, hwrote⟩ := putChunk_cases P s b.hex i (slice data chunkSize i)
    (some (.str (P.sha256 (slice data chunkSize i)).hex))
  · rwa [hsame]
  · have hfile : ∀ j < count data chunkSize, j = i ∨ s.disk (s.chunkPath b.hex j) =
        some (.file (slice data chunkSize j)) →
        (s.putChunk P b.hex i (slice data chunkSize i)
          (some (.str (P.sha256 (slice data chunkSize i)).hex))).1.disk (s.chunkPath b.hex j) =
            some (.file (slice data chunkSize j)) := by
      intro j hj hold
      by_cases hji : j = i
      · rw [hji]
        exact hwrote.chunk
      · rw [hwrote.confined.disk _ ?_, hold.resolve_left hji]
        rintro (hindex | hsame)
        · exact chunkPath_ne_index hindex
        · exact hji (chunkPath_eq_iff.mp hsame).2
    have hpath := chunkPath_congr hwrote.confined.baseDir b.hex
    intro e he
    simp only [hpath]
    obtain hold | ⟨-, e', he', hnew, rfl⟩ := (put_putChunk hexpected).entry he
    · obtain ⟨hnodup, hchunks⟩ := h e hold
      refine ⟨hnodup, fun j hj ↦ ?_⟩
      obtain ⟨hlt, hcontent⟩ := hchunks j hj
      exact ⟨hlt, hfile j hlt (.inr hcontent)⟩
    · obtain ⟨hnodup, hchunks⟩ := h e' he'
      refine ⟨nodup_chunks_addChunk hnodup hnew, fun j hj ↦ ?_⟩
      obtain hold | rfl := mem_chunks_addChunk.mp hj
      · obtain ⟨hlt, hcontent⟩ := hchunks j hold
        exact ⟨hlt, hfile j hlt (.inr hcontent)⟩
      · exact ⟨hi, hfile j hi (.inl rfl)⟩

/-- A file is put together elsewhere, at a location that no chunk has. -/
theorem keeps_assemble (P : Primitives) (s : ChunkStore) (f : String) {out : Location}
    (hout : ∀ i < count data chunkSize, out ≠ s.chunkPath b.hex i) :
    s.Keeps (s.assemble P f out).1 b data chunkSize := by
  have hfiles := files_assemble P s f out
  have hconfined := confined_assemble P s f out
  refine ⟨hconfined.baseDir, .of_files_eq hfiles, fun h ↦ h.of_files hconfined.baseDir
    (fun e he ↦ .inr (hfiles ▸ he)) fun i hi content hfile ↦ ?_⟩
  exact (hconfined.disk _ (hout i hi).symm).trans hfile

/-! ### The output -/

/-- What is copied, if nothing goes wrong: the chunks in their order, after what was there
already. -/
theorem copyChunks_of_ok {slices : ℕ → Buffer} {out : Location} {is : List ℕ}
    (hfile : ∀ i ∈ is, s.disk (s.chunkPath f i) = some (.file (slices i)))
    (hout : ∀ i ∈ is, s.chunkPath f i ≠ out) {copied : Buffer}
    (hcopied : s.disk out = some (.file copied))
    (h : (s.copyChunks f out copied is).2 = .ok d) : d = copied ++ is.flatMap slices ∧
      (s.copyChunks f out copied is).1.disk out = some (.file d) := by
  induction is generalizing s copied with
  | nil =>
    obtain rfl := Except.ok.inj h
    exact ⟨by simp, hcopied⟩
  | cons i is ih =>
    obtain ⟨hslice, hfile⟩ := List.forall_mem_cons.mp hfile
    obtain ⟨-, hout⟩ := List.forall_mem_cons.mp hout
    rw [copyChunks] at h ⊢
    cases hget : s.getChunk f i with
    | error err =>
      rw [hget] at h
      cases h
    | ok part =>
      have hpart := (readFileSync_eq_ok hget).2
      rw [hslice, Option.some.injEq, FsEntry.file.injEq] at hpart
      subst hpart
      rw [hget] at h
      have hwrites := writes_writeSync hcopied (slices i)
      obtain ⟨hd, hdisk⟩ := ih (s := { s with disk := s.disk.writeSync out (slices i) })
        (fun j hj ↦ (hwrites.others _ (hout j hj)).trans (hfile j hj)) hout hwrites.written h
      exact ⟨hd.trans (by simp), hdisk⟩

/-- **What is put together** from a store that lists all chunks is the file, unless it is written
over one of them. -/
theorem Listed.assemble (h : s.Listed b data chunkSize) (hpos : 0 < chunkSize)
    (hall : ∀ i < count data chunkSize, s.hasChunk b.hex i = .ok true) {out : Location}
    (hout : ∀ i < count data chunkSize, out ≠ s.chunkPath b.hex i) {sha : String}
    (hok : (s.assemble P b.hex out).2 = .ok sha) : sha = (P.sha256 data).hex ∧
      (s.assemble P b.hex out).1.disk.readFileSync out = .ok data := by
  obtain ⟨e, hget⟩ : ∃ e, s.files.get? b.hex = some e := by
    cases hget : s.files.get? b.hex with
    | none =>
      rw [ChunkStore.assemble, lookup, hget, if_neg (hex_notMem_inheritedNames b)] at hok
      cases hok
    | some e => exact ⟨e, rfl⟩
  have hmem : ∀ i < count data chunkSize, i ∈ e.chunks := by
    intro i hi
    obtain ⟨e', he', hlisted⟩ := hasChunk_iff.mp (hall i hi)
    obtain rfl := Option.some.inj (hget.symm.trans he')
    exact hlisted
  obtain ⟨hnodup, hchunks⟩ := h e hget
  have hlength : e.chunks.length = count data chunkSize := by
    have hperm : e.chunks.Perm (List.range (count data chunkSize)) :=
      (List.perm_ext_iff_of_nodup hnodup List.nodup_range).mpr fun i ↦
        ⟨fun hi ↦ List.mem_range.mpr (hchunks i hi).1, fun hi ↦ hmem i (List.mem_range.mp hi)⟩
    rw [hperm.length_eq, List.length_range]
  rw [ChunkStore.assemble, lookup_of_get? hget] at hok ⊢
  dsimp only at hok ⊢
  split at hok
  · cases hok
  · next hcount =>
    rw [if_neg hcount]
    cases hopen : s.disk.writeFileSync out [] with
    | error err =>
      rw [hopen] at hok
      cases hok
    | ok disk =>
      rw [hopen] at hok
      dsimp only at hok ⊢
      obtain ⟨haccepts, hwrites⟩ := writes_of_writeFileSync hopen
      rw [hlength] at hok ⊢
      cases hcopy : (({ s with disk := disk } : ChunkStore).copyChunks b.hex out []
          (List.range (count data chunkSize))).2 with
      | error err =>
        rw [hcopy] at hok
        cases hok
      | ok d =>
        rw [hcopy] at hok
        have hfile : ∀ i ∈ List.range (count data chunkSize),
            disk (s.chunkPath b.hex i) = some (.file (slice data chunkSize i)) := by
          intro i hi
          have hlt := List.mem_range.mp hi
          exact (hwrites.others _ (hout i hlt).symm).trans (hchunks i (hmem i hlt)).2
        obtain ⟨hd, hdisk⟩ := copyChunks_of_ok (s := { s with disk := disk }) hfile
          (fun i hi ↦ (hout i (List.mem_range.mp hi)).symm) hwrites.written hcopy
        rw [List.nil_append, flatMap_slice_count hpos] at hd
        subst hd
        exact ⟨(Except.ok.inj hok).symm, readFileSync_of_file haccepts hdisk⟩

end ChunkStore

/-! ## Jobs

The file is one that somebody has built a manifest of, and a job is one call of `download` for it.
Everything else that happens to the node is left open, but for what would destroy any file: to seed
into its directory, or to write outputs over its chunks. -/

open FileNode

/-- A file that somebody has built the manifest of, where it is downloaded to, and the promise of
that call. -/
structure Job (P : Primitives) where
  key : P.SignKey
  content : Buffer
  filename : String
  chunkSize : ℕ
  outPath : Location
  promise : ℕ
  pos : 0 < chunkSize
  fits : content.length ≤ Buffer.maxLength
  length_digest : (P.sha256 content).length = 32

namespace Job

variable {P : Primitives} (j : Job P)

def manifest : Json := Manifest.manifestOf P j.key j.content j.filename j.chunkSize

abbrev digest : Buffer := P.sha256 j.content

/-- The location is that of a chunk of the file, which no output may be written to. -/
def IsChunk (store : ChunkStore) (loc : Location) : Prop :=
  ∃ i < count j.content j.chunkSize, loc = store.chunkPath j.digest.hex i

/-- The event neither seeds nor downloads the file, nor writes into its place otherwise; and the
data that it brings is a chunk of the file if it has the hash of one. -/
structure Spared (jsonParse : Buffer → Option Json) (store : ChunkStore) (e : FileEvent) :
    Prop where
  seed : ∀ m filePath f, e = .seed m filePath → m.get "file_id" = some (.str f) →
    store.dir f ≠ store.dir j.digest.hex
  download : ∀ m outPath parallel rank, e = .download m outPath parallel rank →
    m.get "file_id" ≠ some (.str j.digest.hex) ∧ ¬j.IsChunk store outPath
  collision : ∀ idx data, e.Carries jsonParse j.digest.hex idx data →
    ∀ i < count j.content j.chunkSize, P.sha256 data = P.sha256 (slice j.content j.chunkSize i) →
      data = slice j.content j.chunkSize i

/-- The event is the call, or spares the file. -/
inductive Allows (jsonParse : Buffer → Option Json) (s : FileNode P) : FileEvent → Prop
  | own {parallel rank} (hp : s.nextPromise = j.promise) :
    Allows jsonParse s (.download j.manifest j.outPath parallel rank)
  | other {e} (hp : s.nextPromise ≠ j.promise) (h : j.Spared jsonParse s.store e) :
    Allows jsonParse s e

/-- The download is the job; the chunks that it no longer needs are there. -/
structure Own (store : ChunkStore) (d : DownloadTask) : Prop where
  manifest : d.manifest = j.manifest
  outPath : d.outPath = j.outPath
  promise : d.promise = j.promise
  known : store.Known j.digest.hex
  kept : ∀ i < count j.content j.chunkSize, i ∉ d.needed →
    store.hasChunk j.digest.hex i = .ok true

/-- The download is another, and writes its output elsewhere. -/
structure Other (store : ChunkStore) (d : DownloadTask) : Prop where
  promise : d.promise ≠ j.promise
  outPath : ¬j.IsChunk store d.outPath

/-- Nothing is wrong with the chunks of the file, and nothing will be. -/
structure Sound (s : FileNode P) : Prop where
  keyed : s.Keyed
  listed : s.store.Listed j.digest j.content j.chunkSize
  outPath : ¬j.IsChunk s.store j.outPath
  own : ∀ d, s.downloads.get? j.digest.hex = some d → j.Own s.store d.task
  other : ∀ f d, s.downloads.get? f = some d → f ≠ j.digest.hex → j.Other s.store d.task

variable {j} {s s' s₀ t : FileNode P} {f : String} {jsonParse : Buffer → Option Json}
  {e : FileEvent}

theorem describes : Describes P j.manifest j.digest j.content j.chunkSize :=
  ⟨rfl, rfl, rfl, Manifest.get_chunks_manifestOf⟩

theorem digest_ne_nil : j.digest ≠ [] := List.ne_nil_of_length_eq_add_one j.length_digest

theorem isChunk_congr {store store' : ChunkStore} (h : store'.baseDir = store.baseDir)
    {loc : Location} : j.IsChunk store' loc ↔ j.IsChunk store loc := by
  simp only [IsChunk, ChunkStore.chunkPath_congr h]

theorem Own.of_keeps {store store' : ChunkStore} {d : DownloadTask} (h : j.Own store d)
    (hkeeps : store.Keeps store' j.digest j.content j.chunkSize) : j.Own store' d where
  manifest := h.manifest
  outPath := h.outPath
  promise := h.promise
  known := hkeeps.grows.known h.known
  kept i hi hneeded := hkeeps.grows.hasChunk (h.kept i hi hneeded)

theorem Other.of_keeps {store store' : ChunkStore} {d : DownloadTask} (h : j.Other store d)
    (hkeeps : store.Keeps store' j.digest j.content j.chunkSize) : j.Other store' d where
  promise := h.promise
  outPath := (isChunk_congr hkeeps.baseDir).not.mpr h.outPath

/-- The chunks are kept, and every download has the task of one before. -/
theorem Sound.of_keeps (h : j.Sound s)
    (hkeeps : s.store.Keeps s'.store j.digest j.content j.chunkSize)
    (htasks : ∀ f d', s'.downloads.get? f = some d' →
      ∃ d, s.downloads.get? f = some d ∧ d.task = d'.task) : j.Sound s' where
  keyed f d' hd' := by
    obtain ⟨d, hd, htask⟩ := htasks f d' hd'
    exact (congrArg DownloadTask.fileId htask).symm.trans (h.keyed f d hd)
  listed := hkeeps.listed h.listed
  outPath := (isChunk_congr hkeeps.baseDir).not.mpr h.outPath
  own d' hd' := by
    obtain ⟨d, hd, htask⟩ := htasks _ d' hd'
    exact htask ▸ (h.own d hd).of_keeps hkeeps
  other f d' hd' hf := by
    obtain ⟨d, hd, htask⟩ := htasks f d' hd'
    exact htask ▸ (h.other f d hd hf).of_keeps hkeeps

/-! ### The store, effect by effect -/

theorem ne_chunkPath {store : ChunkStore} {loc : Location} (h : ¬j.IsChunk store loc) :
    ∀ i < count j.content j.chunkSize, loc ≠ store.chunkPath j.digest.hex i :=
  fun i hi heq ↦ h ⟨i, hi, heq⟩

/-- No output is written over a chunk, whichever download finishes. -/
theorem Sound.not_isChunk (h : j.Sound s) {d : Download} (hd : s.downloads.get? f = some d) :
    ¬j.IsChunk s.store d.outPath := by
  by_cases hf : f = j.digest.hex
  · subst hf
    have hout : d.outPath = j.outPath := (h.own d hd).outPath
    exact hout ▸ h.outPath
  · exact (h.other f d hd hf).outPath

/-- The hash that the manifest tells is that of the chunk. -/
theorem Own.hash {store : ChunkStore} {d : Download} {idx : ℕ} {digest : Buffer}
    (h : j.Own store d.task) (hhash : d.expectedHash idx = .ok (some (.str digest.hex))) :
    idx < count j.content j.chunkSize ∧ digest = P.sha256 (slice j.content j.chunkSize idx) := by
  have hmanifest : d.manifest = j.manifest := h.manifest
  rw [Download.expectedHash, hmanifest, describes.chunks] at hhash
  simp only [Except.ok.injEq] at hhash
  by_cases hidx : idx < count j.content j.chunkSize
  · have hchunk : (Manifest.chunksOf P j.content j.chunkSize)[idx]? =
        some (Manifest.chunk P idx (slice j.content j.chunkSize idx)) := by
      rw [Manifest.chunksOf, List.getElem?_map, List.getElem?_range hidx]
      rfl
    have hget : (Manifest.chunk P idx (slice j.content j.chunkSize idx)).get "hash" =
      some (.str (P.sha256 (slice j.content j.chunkSize idx)).hex) := rfl
    have htruthy : (Manifest.chunk P idx (slice j.content j.chunkSize idx)).truthy = true := rfl
    rw [hchunk, Option.filter_some, if_pos htruthy, Option.bind_some, hget] at hhash
    simp only [Option.some.injEq, Json.str.injEq] at hhash
    exact ⟨hidx, Buffer.hex_inj hhash.symm⟩
  · rw [List.getElem?_eq_none (by simpa [Manifest.chunksOf] using hidx)] at hhash
    cases hhash

theorem dir_ne {store : ChunkStore} (hf : FileProtocol.IsFileId f) (hne : f ≠ j.digest.hex) :
    store.dir f ≠ store.dir j.digest.hex := by
  obtain ⟨id, hid, rfl⟩ := hf
  rw [ChunkStore.dir_eq (List.ne_nil_of_length_eq_add_one hid), ChunkStore.dir_eq digest_ne_nil]
  intro heq
  exact hne (List.singleton_inj.mp (List.append_cancel_left heq))

theorem Allows.collision (h : j.Allows jsonParse s₀ e) {idx : ℕ} {data : Buffer}
    (hdata : e.Carries jsonParse j.digest.hex idx data) {i : ℕ}
    (hi : i < count j.content j.chunkSize)
    (hhash : P.sha256 data = P.sha256 (slice j.content j.chunkSize i)) :
    data = slice j.content j.chunkSize i := by
  cases h with
  | own => exact hdata.elim
  | other hp h => exact h.collision idx data hdata i hi hhash

/-- A chunk that a download expects is put into its own directory, with its content. -/
theorem Sound.keeps_put (h : j.Sound s) (hallows : j.Allows jsonParse s₀ e) {idx : ℕ}
    {data : Buffer} {d : Download} (hexpects : s.Expects f idx data d)
    (hdata : e.Carries jsonParse f idx data) :
    s.store.Keeps (s.put f idx data).1 j.digest j.content j.chunkSize := by
  by_cases hf : f = j.digest.hex
  · subst hf
    obtain ⟨hidx, hhash⟩ := (h.own d hexpects.get).hash hexpects.hash
    obtain rfl := hallows.collision hdata hidx hhash
    exact ChunkStore.keeps_putChunk P s.store j.digest hidx
  · exact ChunkStore.keeps_putChunk_of_ne P idx data _ (dir_ne (FileEvent.of_carries hdata).1 hf)

theorem keeps_registerManifest (s : FileNode P) (m : Json) :
    s.store.Keeps (s.registerManifest m).1.store j.digest j.content j.chunkSize := by
  rw [FileNode.registerManifest]
  split
  · exact .refl ..
  · exact ChunkStore.keeps_registerManifest ..

/-- **Every effect keeps the chunks** of the file, if the event is one that the job allows. -/
theorem Sound.keeps (h : j.Sound s) (hallows : j.Allows jsonParse s₀ e)
    (hbase : s.store.baseDir = s₀.store.baseDir) (heffect : Effect jsonParse s₀ e s s') :
    s.store.Keeps s'.store j.digest j.content j.chunkSize := by
  cases heffect with
  | quiet hquiet =>
    rw [hquiet.store]
    exact .refl ..
  | register => exact keeps_registerManifest ..
  | refused hexpects hdata => exact h.keeps_put hallows hexpects hdata
  | received hexpects hdata => exact h.keeps_put hallows hexpects hdata
  | start => exact .refl ..
  | promise => exact .refl ..
  | reject =>
    rw [store_settle]
    exact .refl ..
  | finish hd =>
    rw [store_finish]
    exact ChunkStore.keeps_assemble P s.store _ (ne_chunkPath (h.not_isChunk hd))
  | seeded he hid =>
    subst he
    cases hallows with
    | other hp hspared =>
      have hdir := hspared.seed _ _ _ rfl hid
      refine ChunkStore.keeps_putChunk_of_ne P _ _ _ ?_
      rwa [ChunkStore.dir, ChunkStore.dir, hbase]

/-! ### The downloads -/

/-- A download takes the place of what is there under its file's id. -/
theorem Sound.set (h : j.Sound s) {d : Download} (hid : d.fileId = f)
    (hown : f = j.digest.hex → j.Own s.store d.task)
    (hother : f ≠ j.digest.hex → j.Other s.store d.task) (hstore : s'.store = s.store)
    (hdownloads : s'.downloads = s.downloads.set f d) : j.Sound s' where
  keyed g d' hd' := h.keyed.set hid (hdownloads ▸ hd')
  listed := hstore ▸ h.listed
  outPath := hstore ▸ h.outPath
  own d' hd' := by
    rw [hdownloads, OrderedMap.get?_set] at hd'
    rw [hstore]
    split at hd'
    · next hf =>
      obtain rfl := Option.some.inj hd'
      exact hown hf.symm
    · exact h.own d' hd'
  other g d' hd' hg := by
    rw [hdownloads, OrderedMap.get?_set] at hd'
    rw [hstore]
    split at hd'
    · next hf =>
      obtain rfl := Option.some.inj hd'
      exact hother (hf ▸ hg)
    · exact h.other g d' hd' hg

theorem Own.receive {store store' : ChunkStore} {d : DownloadTask} {idx : ℕ} (h : j.Own store d)
    (hkeeps : store.Keeps store' j.digest j.content j.chunkSize)
    (hchunk : store'.hasChunk j.digest.hex idx = .ok true) :
    j.Own store' { d with needed := d.needed.erase idx } where
  manifest := h.manifest
  outPath := h.outPath
  promise := h.promise
  known := hkeeps.grows.known h.known
  kept i hi hneeded := by
    by_cases hidx : i = idx
    · exact hidx ▸ hchunk
    · exact hkeeps.grows.hasChunk
        (h.kept i hi fun hmem ↦ hneeded (Finset.mem_erase.mpr ⟨hidx, hmem⟩))

theorem loopCount_nbChunks : loopCount (j.manifest.get "nb_chunks") =
    some (count j.content j.chunkSize) := by
  rw [describes.nbChunks]
  exact Number.countBelow_ofNat ((count_le j.pos).trans (j.fits.trans (Nat.sub_le _ _)))

/-- **Every effect keeps** what is said of the node. -/
theorem Sound.effect (h : j.Sound s) (hallows : j.Allows jsonParse s₀ e)
    (hbase : s.store.baseDir = s₀.store.baseDir) (heffect : Effect jsonParse s₀ e s s') :
    j.Sound s' := by
  have hkeeps := h.keeps hallows hbase heffect
  cases heffect with
  | quiet hquiet => exact h.of_keeps hkeeps fun f d' hd' ↦ hquiet.get? hd'
  | register =>
    refine h.of_keeps hkeeps fun f d' hd' ↦ ⟨d', ?_, rfl⟩
    rwa [downloads_registerManifest] at hd'
  | refused => exact h.of_keeps hkeeps fun f d' hd' ↦ ⟨d', hd', rfl⟩
  | @received _ f idx data d d' hexpects hdata hput hd' =>
    have hstored : j.Sound { s with store := (s.put f idx data).1 } :=
      h.of_keeps hkeeps fun f d' hd' ↦ ⟨d', hd', rfl⟩
    have hid : d'.fileId = f :=
      (congrArg DownloadTask.fileId hd').trans (h.keyed f d hexpects.get)
    refine hstored.set hid (fun hf ↦ ?_) (fun hf ↦ ?_) rfl rfl
    · subst hf
      have hown := h.own d hexpects.get
      rw [hd', task_receive]
      exact hown.receive hkeeps (ChunkStore.hasChunk_of_putChunk hown.known hput)
    · obtain ⟨hpromise, hout⟩ := (h.other f d hexpects.get hf).of_keeps hkeeps
      rw [hd', task_receive]
      exact ⟨hpromise, hout⟩
  | @start m outPath parallel rank f n needed d he hid hok hn hneeded hd =>
    have hdownloads := downloads_registerManifest s₀ m
    refine h.set (congrArg DownloadTask.fileId hd) (fun hf ↦ ?_) (fun hf ↦ ?_) rfl
      (by rw [hdownloads])
    · subst hf he
      rw [hd]
      cases hallows with
      | own hp =>
        obtain rfl := Option.some.inj (hn.symm.trans loopCount_nbChunks)
        refine ⟨rfl, rfl, hp, ?_, fun i hi hmem ↦ ?_⟩
        · rw [registerManifest_eq_of_get hid]
          exact ChunkStore.known_registerManifest ..
        · exact by_contra fun hlack ↦ hmem (mem_missing hneeded hi hlack)
      | other hp hspared => exact absurd hid (hspared.download _ _ _ _ rfl).1
    · subst he
      rw [hd]
      cases hallows with
      | own hp => exact absurd (Json.str.inj (Option.some.inj (hid.symm.trans describes.fileId))) hf
      | other hp hspared =>
        exact ⟨hp, (isChunk_congr hbase).not.mpr (hspared.download _ _ _ _ rfl).2⟩
  | promise => exact h.of_keeps hkeeps fun f d' hd' ↦ ⟨d', hd', rfl⟩
  | reject =>
    refine h.of_keeps hkeeps fun f d' hd' ↦ ⟨d', ?_, rfl⟩
    rwa [downloads_settle] at hd'
  | finish =>
    refine h.of_keeps hkeeps fun g d' hd' ↦ ⟨d', ?_, rfl⟩
    rw [downloads_finish, OrderedMap.get?_delete] at hd'
    split at hd'
    · cases hd'
    · exact hd'
  | seeded => exact h.of_keeps hkeeps fun f d' hd' ↦ ⟨d', hd', rfl⟩

theorem Sound.effects (h : j.Sound s₀) (hallows : j.Allows jsonParse s₀ e)
    (heffects : Effects jsonParse s₀ e s₀ s) :
    j.Sound s ∧ s.store.baseDir = s₀.store.baseDir := by
  induction heffects with
  | refl => exact ⟨h, rfl⟩
  | tail _ heffect ih =>
    obtain ⟨hsound, hbase⟩ := ih
    exact ⟨hsound.effect hallows hbase heffect,
      (hsound.keeps hallows hbase heffect).baseDir.trans hbase⟩

/-- **Every event keeps** what is said of the node. -/
theorem Sound.next (h : j.Sound s) (hallows : j.Allows jsonParse s e) :
    j.Sound (s.next jsonParse e) ∧ (s.next jsonParse e).store.baseDir = s.store.baseDir :=
  h.effects hallows (effects_next h.keyed jsonParse e)

/-! ### The promise

A promise is resolved in one place of the source, after the file has been put together and its
digest compared. -/

/-- If the promise of the job is resolved, it is for the file, which has then been written. -/
def Delivers (j : Job P) (s s' : FileNode P) : Prop :=
  ∀ sha good out, (j.promise, .resolved sha good out) ∈ s'.settled →
    (j.promise, .resolved sha good out) ∈ s.settled ∨
      good = true ∧ out = j.outPath ∧ s'.store.disk.readFileSync j.outPath = .ok j.content

theorem mem_settle {p q : ℕ} {r r' : Settlement} (h : (q, r') ∈ (s.settle p r).settled) :
    (q, r') ∈ s.settled ∨ q = p ∧ r' = r := by
  rw [settle] at h
  split at h
  · exact .inl h
  · obtain hold | hnew := List.mem_append.mp h
    · exact .inl hold
    · exact .inr (Prod.mk.inj (List.mem_singleton.mp hnew))

/-- What a download that is finished delivers: the content of the file, under the digest that names
it. -/
theorem Sound.delivers_finish (h : j.Sound s) {d : Download} (hd : s.downloads.get? f = some d)
    (hneeded : d.needed = ∅) : j.Delivers s (s.finish f d) := by
  intro sha good out hmem
  rw [store_finish]
  rw [finish] at hmem
  dsimp only at hmem
  split at hmem
  · next digest hok =>
    obtain hold | ⟨hp, hresolved⟩ := mem_settle hmem
    · exact .inl hold
    · right
      by_cases hf : f = j.digest.hex
      · subst hf
        obtain ⟨hmanifest, hout, -, -, hkept⟩ := h.own d hd
        have hmanifest : d.manifest = j.manifest := hmanifest
        have hout : d.outPath = j.outPath := hout
        obtain ⟨rfl, rfl, rfl⟩ := Settlement.resolved.inj hresolved
        have hall : ∀ i < count j.content j.chunkSize,
            s.store.hasChunk j.digest.hex i = .ok true := by
          refine fun i hi ↦ hkept i hi ?_
          rw [Download.task, hneeded]
          exact Finset.notMem_empty i
        rw [hout] at hok ⊢
        obtain ⟨rfl, hread⟩ :=
          h.listed.assemble (P := P) j.pos hall (ne_chunkPath h.outPath) hok
        refine ⟨?_, rfl, hread⟩
        rw [matchesFileId, hmanifest, describes.fileId]
        simp [Json.strictEq]
      · exact absurd hp.symm (h.other f d hd hf).promise
  · obtain hold | ⟨-, hrejected⟩ := mem_settle hmem
    · exact .inl hold
    · cases hrejected

theorem Delivers.refl (j : Job P) (s : FileNode P) : j.Delivers s s :=
  fun _ _ _ hmem ↦ .inl hmem

theorem Delivers.of_settled (h : j.Delivers t s') (hsettled : t.settled = s.settled) :
    j.Delivers s s' := by
  intro sha good out hmem
  rw [← hsettled]
  exact h sha good out hmem

theorem Sound.delivers_complete (h : j.Sound s)
    (hneeded : ∀ d, s.downloads.get? f = some d → d.needed = ∅) : j.Delivers s (s.complete f) := by
  obtain ⟨hsame, -⟩ | ⟨d, s₁, hd, hquiet, hdownloads, heq⟩ := complete_cases s f
  · rw [hsame]
    exact .refl j s
  · have hsound : j.Sound s₁ :=
      h.of_keeps (by rw [hquiet.store]; exact .refl ..) fun f d' hd' ↦ hquiet.get? hd'
    rw [heq]
    exact (hsound.delivers_finish (hdownloads ▸ hd) (hneeded d hd)).of_settled hquiet.settled

/-- **Every event delivers the file**, if it delivers anything. -/
theorem Sound.delivers (h : j.Sound s) (hallows : j.Allows jsonParse s e)
    (hends : Ends jsonParse s e s s') : j.Delivers s s' := by
  cases hends with
  | silent hsilent => exact (Delivers.refl j s').of_settled hsilent.settled
  | reject hsilent =>
    intro sha good out hmem
    obtain hold | ⟨-, hrejected⟩ := mem_settle hmem
    · exact .inl (hsilent.settled ▸ hold)
    · exact nomatch hrejected
  | complete hsilent hneeded =>
    obtain ⟨hsound, -⟩ := h.effects hallows hsilent.effects
    exact (hsound.delivers_complete hneeded).of_settled hsilent.settled

/-! ### Runs -/

/-- None of the chunks is listed, nobody downloads the file, and no output goes over a chunk. -/
structure Fresh (j : Job P) (s : FileNode P) : Prop where
  absent : ∀ i, s.store.hasChunk j.digest.hex i ≠ .ok true
  idle : s.downloads.get? j.digest.hex = none
  outPath : ¬j.IsChunk s.store j.outPath
  outPaths : ∀ f d, s.downloads.get? f = some d → ¬j.IsChunk s.store d.outPath

theorem Fresh.sound (h : j.Fresh s) (hk : s.Keyed) (hs : s.Numbered)
    (hp : j.promise = s.nextPromise) : j.Sound s where
  keyed := hk
  listed e he := by
    have hnil : e.chunks = [] := List.eq_nil_iff_forall_not_mem.mpr fun i hi ↦
      h.absent i (ChunkStore.hasChunk_iff.mpr ⟨e, he, hi⟩)
    rw [hnil]
    exact ⟨List.nodup_nil, nofun⟩
  outPath := h.outPath
  own d hd := nomatch h.idle.symm.trans hd
  other f d hd _ := by
    have hlt : d.promise < s.nextPromise := hs.active f d.promise (congrArg (Option.map _) hd)
    exact ⟨by rw [hp]; exact hlt.ne, h.outPaths f d hd⟩

theorem Spared.congr {store store' : ChunkStore} (h : j.Spared jsonParse store e)
    (hbase : store'.baseDir = store.baseDir) : j.Spared jsonParse store' e where
  seed m filePath f he hid := by
    rw [ChunkStore.dir, ChunkStore.dir, hbase]
    exact h.seed m filePath f he hid
  download m outPath parallel rank he :=
    (h.download m outPath parallel rank he).imp_right (isChunk_congr hbase).not.mpr
  collision := h.collision

/-- **Every event of a run delivers the file**, if it delivers anything. -/
theorem Sound.run (h : j.Sound s) (hs : s.Numbered) (hp : j.promise < s.nextPromise)
    {es : List FileEvent} (hes : ∀ e ∈ es, j.Spared jsonParse s.store e) :
    Machine.Feasible (fun s e ↦ j.Delivers s (s.next jsonParse e))
      (FileNode.next jsonParse) s es := by
  induction es generalizing s with
  | nil => trivial
  | cons e es ih =>
    obtain ⟨he, hes⟩ := List.forall_mem_cons.mp hes
    have hallows : j.Allows jsonParse s e := .other hp.ne' he
    obtain ⟨hsound, hbase⟩ := h.next hallows
    obtain ⟨hle, hnumbered⟩ := hs.next h.keyed jsonParse e
    exact ⟨h.delivers hallows (ends_next h.keyed jsonParse e),
      ih hsound hnumbered (hp.trans_le hle) fun e' he' ↦ (hes e' he').congr hbase⟩

end Job

/-- **A download delivers the file**, whatever the peers send.  Where the store lists none of its
chunks, where nothing else seeds into its directory or downloads it, and where no output is written
over one of its chunks, the promise of a call is settled later than the call, and by no event
resolved but for the file, which has then been written. -/
theorem download_intact {P : Primitives} {jsonParse : Buffer → Option Json} (j : Job P)
    {s : FileNode P} (hs : (machine jsonParse).Reachable s) (hfresh : j.Fresh s)
    {parallel : Option ℕ} {rank : ℕ → ℕ}
    (hp : (s.download j.manifest j.outPath parallel rank).2 = .ok j.promise)
    {es : List FileEvent} (hes : ∀ e ∈ es, j.Spared jsonParse s.store e) :
    ¬s.HasSettled j.promise ∧
      ∀ es₁ e es₂, .download j.manifest j.outPath parallel rank :: es = es₁ ++ e :: es₂ →
        j.Delivers (es₁.foldl (next jsonParse) s) ((es₁ ++ [e]).foldl (next jsonParse) s) := by
  obtain ⟨hk, hnumbered⟩ := numbered_of_reachable hs
  obtain ⟨heq, hlt⟩ := promise_of_download _ parallel rank hk hp
  refine ⟨fun hsettled ↦ (hnumbered.settled _ hsettled).ne heq, ?_⟩
  have hsound := hfresh.sound hk hnumbered heq
  have hallows : j.Allows jsonParse s (.download j.manifest j.outPath parallel rank) :=
    .own heq.symm
  obtain ⟨hsound', hbase⟩ := hsound.next hallows
  have hrun : Machine.Feasible (fun s e ↦ j.Delivers s (s.next jsonParse e)) (next jsonParse) s
      (.download j.manifest j.outPath parallel rank :: es) :=
    ⟨hsound.delivers hallows (ends_next hk jsonParse _),
      hsound'.run (hnumbered.next hk jsonParse _).2 hlt fun e he ↦ (hes e he).congr hbase⟩
  intro es₁ e es₂ hsplit
  rw [List.foldl_append]
  exact Machine.feasible_iff.mp hrun es₁ e es₂ hsplit

/-! ### A file in two parts -/

namespace SampleJob

open Manifest SampleParts

/-- The signature of the second chunk, by the key of the sender. -/
def restSignature : Buffer :=
  [207, 247, 100, 92, 88, 124, 178, 73, 16, 172, 226, 67, 240, 44, 203, 179, 40, 79, 211, 188, 121,
    37, 129, 180, 83, 20, 139, 130, 145, 123, 220, 130, 243, 24, 60, 183, 62, 102, 113, 137, 3, 196,
    92, 216, 166, 140, 6, 199, 210, 4, 47, 64, 242, 80, 58, 186, 93, 164, 62, 9, 102, 83, 244, 5]

/-- Functions that take the values of the real ones on both chunks. -/
def primitives : Primitives := { SampleParts.primitives with
  verifyDetached := fun signature message publicKey ↦
    (message = chunkSigMessage sampleFileId.hex 0 partHash ∧ signature = partSignature ∨
      message = chunkSigMessage sampleFileId.hex 1 restHash ∧ signature = restSignature) ∧
        publicKey = sampleSender
  sha256 := fun m ↦ if m = [] then SampleFile.emptyHash else SampleParts.primitives.sha256 m }

/-- The file is downloaded to `outPath`, by the first call. -/
def job (outPath : Location) : Job primitives where
  key := ()
  content := sampleContent
  filename := "hello.txt"
  chunkSize := 5
  outPath := outPath
  promise := 0
  pos := by decide
  fits := by decide
  length_digest := by decide

/-- A node with a peer, whose identity is the sender of the manifest. -/
def start : FileNode primitives :=
  (new () ⟨["store"], .empty, SampleFile.disk ["hello.txt"]⟩ 8).next (fun _ ↦ none)
    (.attach sampleSender)

theorem reachable : (machine fun _ ↦ none).Reachable start :=
  ⟨_, [.attach sampleSender], ⟨(), ⟨["store"], .empty, SampleFile.disk ["hello.txt"]⟩, 8, rfl⟩,
    Machine.run_foldl (fun _ _ _ ↦ Machine.step_ofFun trivial) Machine.feasible_true⟩

/-- The call of `download`, with the manifest of the job. -/
def call (outPath : Location) : FileEvent := .download (job outPath).manifest outPath none fun i ↦ i

/-- The peer delivers a chunk, with the hash and signature that are given. -/
def deliver (idx : ℕ) (chunkHash signature data : Buffer) : FileEvent :=
  .message ⟨sampleSender.hex ++ "#1", sampleSender⟩
    (FileProtocol.encChunkData sampleFileId.hex idx chunkHash signature data) fun i ↦ i

def first : FileEvent := deliver 0 partHash partSignature part
def second : FileEvent := deliver 1 restHash restSignature (sampleContent.drop 5)

/-- The call, the first chunk, and something else. -/
def before (outPath : Location) (others : List FileEvent) : FileNode primitives :=
  (call outPath :: first :: others).foldl (next fun _ ↦ none) start

/-- And the second chunk, which completes the download. -/
def after (outPath : Location) (others : List FileEvent) : FileNode primitives :=
  (call outPath :: first :: (others ++ [second])).foldl (next fun _ ↦ none) start

theorem after_eq (outPath : Location) (others : List FileEvent) :
    after outPath others = (before outPath others).next (fun _ ↦ none) second := by
  simp only [after, before, List.foldl_cons, List.foldl_append, List.foldl_nil]

/-- How the promises have been settled, without the texts of the errors. -/
def outcomes (s : FileNode primitives) : List (ℕ × Option (String × Bool × Location)) :=
  s.settled.map fun e ↦ (e.1, match e.2 with
    | .resolved sha good outPath => some (sha, good, outPath)
    | .rejected _ => none)

theorem mem_settled_of_outcomes {s : FileNode primitives} {p : ℕ} {sha : String} {good : Bool}
    {out : Location} (h : (p, some (sha, good, out)) ∈ outcomes s) :
    (p, .resolved sha good out) ∈ s.settled := by
  obtain ⟨⟨q, r⟩, hmem, heq⟩ := List.mem_map.mp h
  cases r with
  | resolved sha' good' out' =>
    simp only [Prod.mk.injEq, Option.some.injEq] at heq
    obtain ⟨rfl, rfl, rfl, rfl⟩ := heq
    exact hmem
  | rejected err => simp at heq

/-- A sort that can be computed with: on these lists insertion sort gives what merge sort does. -/
theorem addChunk_eq (e : StoreEntry) (idx : ℕ) : ChunkStore.addChunk e idx =
    { e with chunks := (e.chunks ++ [idx]).insertionSort (· ≤ ·) } := by
  rw [ChunkStore.addChunk, List.mergeSort_eq_insertionSort]

/-- Where the store keeps the first chunk, which an output could be written to as well. -/
def firstChunk : Location := ["store", sampleFileId.hex, "0.chunk"]

/-- An empty file is downloaded over the first chunk. -/
def overFirst : FileEvent :=
  .download (manifestOf primitives () [] "empty.txt" 5) firstChunk none fun i ↦ i

/-- A file whose id leads to the same directory is seeded, with an empty first chunk. -/
def sameDirectory : FileEvent :=
  .seed (.obj [("file_id", .str ("./" ++ sampleFileId.hex)), ("chunk_size", .num (.ofNat 5)),
    ("nb_chunks", .num (.ofNat 1)), ("chunks", .arr [chunk primitives 0 []])]) ["hello.txt"]

-- the steps of the second chunk make a large instance
set_option synthInstance.maxSize 1000 in
theorem outcomes_runs : outcomes (before ["out.txt"] []) = [] ∧
    outcomes (after ["out.txt"] []) = [(0, some (sampleFileId.hex, true, ["out.txt"]))] ∧
    outcomes (after firstChunk []) = [(0, some (restHash.hex, false, firstChunk))] ∧
    outcomes (after ["out.txt"] [overFirst]) =
      [(1, some (SampleFile.emptyHash.hex, true, firstChunk)),
        (0, some (restHash.hex, false, ["out.txt"]))] ∧
    outcomes (after ["out.txt"] [sameDirectory]) =
      [(0, some (restHash.hex, false, ["out.txt"]))] := by
  have hruns : [before ["out.txt"] [], after ["out.txt"] [], after firstChunk [],
      after ["out.txt"] [overFirst], after ["out.txt"] [sameDirectory]].map outcomes =
    [[], [(0, some (sampleFileId.hex, true, ["out.txt"]))],
      [(0, some (restHash.hex, false, firstChunk))],
      [(1, some (SampleFile.emptyHash.hex, true, firstChunk)),
        (0, some (restHash.hex, false, ["out.txt"]))],
      [(0, some (restHash.hex, false, ["out.txt"]))]] := by
    simp only [after_eq, second, SampleJob.deliver, next, handleMessage, onChunkData,
      ChunkStore.putChunk, addChunk_eq]
    decide +kernel
  simpa only [List.map_cons, List.map_nil, List.cons.injEq, and_true] using hruns

theorem start_eq : start.store = ⟨["store"], .empty, SampleFile.disk ["hello.txt"]⟩ ∧
    start.downloads = .empty := by
  obtain ⟨sent, hattach⟩ := attachSession_eq
    (new (P := primitives) () ⟨["store"], .empty, SampleFile.disk ["hello.txt"]⟩ 8) sampleSender
  rw [start, next, hattach]
  exact ⟨rfl, rfl⟩

theorem absent (i : ℕ) : start.store.hasChunk sampleFileId.hex i ≠ .ok true := by
  rw [Ne, ChunkStore.hasChunk_iff, start_eq.1]
  simp

theorem fresh : (job ["out.txt"]).Fresh start where
  absent := absent
  idle := by rw [start_eq.2, OrderedMap.get?_empty]
  outPath := by
    rintro ⟨i, -, heq⟩
    have hlength := congrArg List.length heq
    rw [ChunkStore.length_chunkPath Job.digest_ne_nil, start_eq.1] at hlength
    exact absurd hlength (by decide)
  outPaths f d hd := by
    rw [start_eq.2, OrderedMap.get?_empty] at hd
    cases hd

theorem hash_injective : ∀ i < 2, ∀ j < 2,
    primitives.sha256 (slice sampleContent 5 i) = primitives.sha256 (slice sampleContent 5 j) →
      slice sampleContent 5 i = slice sampleContent 5 j := by decide +kernel

theorem spared_deliver {idx : ℕ} (hidx : idx < 2) {chunkHash signature : Buffer}
    (hhash : chunkHash.length = 32) (hsignature : signature.length = 64) :
    (job ["out.txt"]).Spared (fun _ ↦ none) start.store
      (deliver idx chunkHash signature (slice sampleContent 5 idx)) where
  seed := nofun
  download := nofun
  collision := by
    rintro idx' data ⟨chunkHash', signature', hdecode⟩ i hi hsame
    rw [FileProtocol.decode_encChunkData (by decide) (by omega) hhash hsignature] at hdecode
    obtain ⟨-, -, -, -, rfl⟩ := FileMessage.chunkData.inj (Except.ok.inj hdecode)
    exact hash_injective idx hidx i hi hsame

end SampleJob

open SampleJob Manifest in
theorem download_intact_sample :
    (0, .resolved sampleFileId.hex true ["out.txt"]) ∈ (after ["out.txt"] []).settled ∧
      (after ["out.txt"] []).store.disk.readFileSync ["out.txt"] = .ok sampleContent := by
  obtain ⟨hpending, hresolved, -⟩ := outcomes_runs
  have hp : (start.download (job ["out.txt"]).manifest ["out.txt"] none fun i ↦ i).2 = .ok 0 := by
    decide +kernel
  have hes : ∀ e ∈ [first, second], (job ["out.txt"]).Spared (fun _ ↦ none) start.store e :=
    List.forall_mem_cons.mpr ⟨spared_deliver (by decide) (by decide) (by decide),
      List.forall_mem_singleton.mpr (spared_deliver (by decide) (by decide) (by decide))⟩
  obtain ⟨-, hrun⟩ := download_intact (job ["out.txt"]) reachable fresh hp hes
  have hdelivers : (job ["out.txt"]).Delivers (before ["out.txt"] []) (after ["out.txt"] []) :=
    hrun [call ["out.txt"], first] second [] rfl
  have hmem : (0, .resolved sampleFileId.hex true ["out.txt"]) ∈
      (after ["out.txt"] []).settled := by
    refine mem_settled_of_outcomes ?_
    rw [hresolved]
    exact List.mem_singleton_self _
  obtain hold | ⟨-, -, hread⟩ := hdelivers _ _ _ hmem
  · rw [List.map_eq_nil_iff.mp hpending] at hold
    simp at hold
  · exact ⟨hmem, hread⟩

open SampleJob SampleParts Manifest in
/-- The output is written over the first chunk; or another download's is, or a chunk of a file that
has the same directory, before the second chunk arrives: what is resolved is not the file. -/
theorem not_download_intact : (machine fun _ ↦ none).Reachable start ∧
    (∀ i, start.store.hasChunk sampleFileId.hex i ≠ .ok true) ∧
    start.downloads.get? sampleFileId.hex = none ∧
    (0, .resolved restHash.hex false firstChunk) ∈ (after firstChunk []).settled ∧
    (0, .resolved restHash.hex false ["out.txt"]) ∈ (after ["out.txt"] [overFirst]).settled ∧
    (0, .resolved restHash.hex false ["out.txt"]) ∈
      (after ["out.txt"] [sameDirectory]).settled := by
  obtain ⟨-, -, hover, hother, hseed⟩ := outcomes_runs
  refine ⟨reachable, absent, fresh.idle, ?_, ?_, ?_⟩
  · refine mem_settled_of_outcomes ?_
    rw [hover]
    exact List.mem_singleton_self _
  · refine mem_settled_of_outcomes ?_
    rw [hother]
    exact List.mem_cons_of_mem _ (List.mem_singleton_self _)
  · refine mem_settled_of_outcomes ?_
    rw [hseed]
    exact List.mem_singleton_self _

end AttestP2P
