import AttestP2P.File.Effects
import AttestP2P.File.Footprint
import AttestP2P.File.RoundTrip

/-!
# Manifests and the index of the store

What a `FileNode` knows of a file is in two places: the manifest that was registered last, and the
entry of the store, which keeps the fields of the manifest that was registered first.  Nothing makes
sure that they are about the same chunks, when two manifests have one file id.

* `Coherent`: the two say the same, and the chunks that are listed have the hashes of the manifest.
* `Fits` is what an event must not do: register a manifest that contradicts the entry of its file,
  or have two files or an output share a place on the disk.
* `Kept` is the invariant.  It speaks of the downloads as well, since a chunk that arrives is
  checked against the manifest with which its download began, and of the places on the disk.
* `Kept` is kept by every effect of an event that fits, and `coherent_of_reachable` follows.

The proof has one lemma for each effect of `File.Effects`, and needs no other knowledge of the
handlers.
-/

set_option autoImplicit false

namespace AttestP2P

namespace Manifest

/-- `m.chunks[idx].hash`, of a manifest whose `chunks` are an array. -/
def hashAt (m : Json) (idx : ℕ) : Option Json :=
  match m.get "chunks" with
  | some (.arr chunks) => (chunks[idx]?).bind (·.get "hash")
  | _ => none

/-- `chunks` is an array, and `nb_chunks` is its length. -/
def Counts (m : Json) : Prop :=
  ∃ chunks, m.get "chunks" = some (.arr chunks) ∧
    Json.strictEq (.num (.ofNat chunks.length)) (m.get "nb_chunks") = true

/-- `idx < nb`, where `nb` is a number, and may also be one that no loop reaches. -/
def Below (idx : ℕ) (nb : Option Json) : Prop :=
  ∃ q, nb = some (.num q) ∧ ∀ n, q.countBelow = some n → idx < n

theorem below_of_hashAt {m v : Json} {idx : ℕ} (hm : Counts m) (hidx : idx < 2 ^ 32)
    (h : hashAt m idx = some v) : Below idx (m.get "nb_chunks") := by
  obtain ⟨chunks, hchunks, hcount⟩ := hm
  have hlt : idx < chunks.length := by
    rw [hashAt, hchunks] at h
    obtain ⟨c, hc, -⟩ := Option.bind_eq_some_iff.mp h
    exact (List.getElem?_eq_some_iff.mp hc).1
  cases hnb : m.get "nb_chunks" with
  | none => exact absurd hcount (by simp [hnb, Json.strictEq])
  | some nb =>
    rw [hnb] at hcount
    cases nb with
    | num q =>
      obtain ⟨-, rfl⟩ := of_decide_eq_true hcount
      exact ⟨_, rfl, fun n hn ↦ Number.lt_countBelow_ofNat hlt (hidx.trans (by decide)) hn⟩
    | _ => exact nomatch hcount

theorem below_of_loopCount {m : Json} {n i : ℕ} (hm : Counts m)
    (hn : loopCount (m.get "nb_chunks") = some n) (hi : i < n) : Below i (m.get "nb_chunks") := by
  obtain ⟨chunks, hchunks, hcount⟩ := hm
  cases hnb : m.get "nb_chunks" with
  | none => exact absurd hcount (by simp [hnb, Json.strictEq])
  | some nb =>
    rw [hnb] at hcount hn
    cases nb with
    | num q =>
      refine ⟨q, rfl, fun k hk ↦ ?_⟩
      obtain rfl : n = k := Option.some.inj (hn.symm.trans hk)
      exact hi
    | _ => exact nomatch hcount

end Manifest

/-- The hash that a download expects is the one of its manifest. -/
theorem Download.hashAt_of_expectedHash {d : Download} {idx : ℕ} {v : Json}
    (hm : Manifest.Counts d.manifest) (h : d.expectedHash idx = .ok (some v)) :
    Manifest.hashAt d.manifest idx = some v := by
  obtain ⟨chunks, hchunks, -⟩ := hm
  rw [expectedHash, hchunks] at h
  rw [Manifest.hashAt, hchunks]
  obtain ⟨c, hc, hhash⟩ := Option.bind_eq_some_iff.mp (Except.ok.inj h)
  exact Option.bind_eq_some_iff.mpr ⟨c, Option.eq_some_of_filter_eq_some hc, hhash⟩

namespace FileNode

open ChunkStore Manifest

variable {P : Primitives} {s s' s₀ : FileNode P} {m : Json} {f g : String}
  {store store' : ChunkStore} {entry : StoreEntry} {idx : ℕ} {data : Buffer}

/-! ## Agreement

An entry keeps four fields of the manifest that has made it.  A manifest that comes later agrees
with the entry if it has the same values in them, and if the chunks that are listed have the hashes
that it gives. -/

/-- The entry of a file says what the manifest says, and the chunks that it lists are there. -/
structure Agrees (P : Primitives) (store : ChunkStore) (m : Json) (f : String)
    (entry : StoreEntry) : Prop where
  size : entry.size = m.get "size"
  chunkSize : entry.chunkSize = m.get "chunk_size"
  nbChunks : entry.nbChunks = m.get "nb_chunks"
  chunks : ∀ idx ∈ entry.chunks, Below idx (m.get "nb_chunks") ∧
    ∃ data, store.disk (store.chunkPath f idx) = some (.file data) ∧
      hashAt m idx = some (.str (P.sha256 data).hex)

/-- Manifests and store agree: every manifest that is registered has an entry in the index, with its
counts and its chunks. -/
def Coherent (s : FileNode P) : Prop :=
  ∀ f m, s.manifests.get f = some m →
    ∃ entry, s.store.files.get? f = some entry ∧ Agrees P s.store m f entry

theorem Agrees.of_files (h : Agrees P store m f entry) (hbase : store'.baseDir = store.baseDir)
    (hfiles : ∀ idx data, store.disk (store.chunkPath f idx) = some (.file data) →
      store'.disk (store.chunkPath f idx) = some (.file data)) : Agrees P store' m f entry where
  size := h.size
  chunkSize := h.chunkSize
  nbChunks := h.nbChunks
  chunks idx hidx := by
    obtain ⟨hbelow, data, hfile, hhash⟩ := h.chunks idx hidx
    rw [chunkPath_congr hbase]
    exact ⟨hbelow, data, hfiles idx data hfile, hhash⟩

/-- A chunk is written over, or new: in both cases what the manifest expects is what the store
holds. -/
theorem Agrees.put (h : Agrees P store m f entry) (hwrote : Wrote store store' f idx data)
    (hbelow : Below idx (m.get "nb_chunks"))
    (hhash : hashAt m idx = some (.str (P.sha256 data).hex)) :
    Agrees P store' m f entry ∧ Agrees P store' m f (addChunk entry idx) := by
  have hpath := chunkPath_congr hwrote.confined.baseDir f
  have hchunk (i : ℕ) (hi : i ∈ entry.chunks ∨ i = idx) : Below i (m.get "nb_chunks") ∧
      ∃ data, store'.disk (store'.chunkPath f i) = some (.file data) ∧
        hashAt m i = some (.str (P.sha256 data).hex) := by
    rw [hpath]
    by_cases hnew : i = idx
    · rw [hnew]
      exact ⟨hbelow, data, hwrote.chunk, hhash⟩
    · obtain ⟨hbelow', data', hfile, hhash'⟩ := h.chunks i (hi.resolve_right hnew)
      refine ⟨hbelow', data', ?_, hhash'⟩
      rw [hwrote.confined.disk _ ?_, hfile]
      rintro (hindex | hsame)
      · exact chunkPath_ne_index hindex
      · exact hnew (chunkPath_eq_iff.mp hsame).2
  exact ⟨⟨h.size, h.chunkSize, h.nbChunks, fun i hi ↦ hchunk i (.inl hi)⟩,
    ⟨h.size, h.chunkSize, h.nbChunks, fun i hi ↦ hchunk i (mem_chunks_addChunk.mp hi)⟩⟩

/-- A chunk of another file is written, into another directory, and this file keeps its own. -/
theorem Agrees.put_other (h : Agrees P store m g entry) (hwrote : Wrote store store' f idx data)
    (hdir : store.dir g ≠ store.dir f) : Agrees P store' m g entry := by
  refine h.of_files hwrote.confined.baseDir fun i data' hfile ↦ ?_
  rw [hwrote.confined.disk _ ?_, hfile]
  rintro (hindex | hsame)
  · exact chunkPath_ne_index hindex
  · exact hdir (chunkPath_eq_iff.mp hsame).1

/-! ## What is kept -/

/-- Manifests and store agree, also with the downloads that go on, and no two files, and no file and
an output, share a place on the disk. -/
structure Kept (s : FileNode P) : Prop where
  keyed : s.Keyed
  proto : s.manifests.proto = none
  counts : ∀ f m, s.manifests.own.get? f = some m → Counts m
  agrees : ∀ f m, s.manifests.own.get? f = some m →
    ∃ entry, s.store.files.get? f = some entry ∧ Agrees P s.store m f entry
  apart : ∀ f m g m', s.manifests.own.get? f = some m → s.manifests.own.get? g = some m' →
    f ≠ g → s.store.dir f ≠ s.store.dir g
  downloads : ∀ f d, s.downloads.get? f = some d → ∃ m, s.manifests.own.get? f = some m ∧
    Counts d.manifest ∧ ∀ idx, hashAt m idx = hashAt d.manifest idx
  outputs : ∀ f d g m idx, s.downloads.get? f = some d → s.manifests.own.get? g = some m →
    d.outPath ≠ s.store.chunkPath g idx

/-- The manifest may be registered under the key: it fits the entry, the directories and the
download that are there already. -/
structure Admits (s : FileNode P) (m : Json) (key : String) : Prop where
  own : key ∉ inheritedNames
  counts : Counts m
  entry : ∀ entry, s.store.files.get? key = some entry → Agrees P s.store m key entry
  apart : ∀ f m', s.manifests.own.get? f = some m' → f ≠ key → s.store.dir f ≠ s.store.dir key
  download : ∀ d, s.downloads.get? key = some d → ∀ idx, hashAt m idx = hashAt d.manifest idx
  outputs : ∀ f d idx, s.downloads.get? f = some d → d.outPath ≠ s.store.chunkPath key idx

/-- The event does nothing that makes manifests and store disagree. -/
structure Fits (jsonParse : Buffer → Option Json) (s : FileNode P) (e : FileEvent) : Prop where
  registers : ∀ m key, e.Registers P jsonParse m → fileKey m = .ok key → s.Admits m key
  output : ∀ m outPath parallel rank, e = .download m outPath parallel rank → ∀ f idx,
    (s.manifests.own.get? f).isSome ∨ fileKey m = .ok f → outPath ≠ s.store.chunkPath f idx
  seeds : ∀ m filePath chunks c, e = .seed m filePath → m.get "chunks" = some (.arr chunks) →
    c ∈ chunks → (c.get "hash").any Json.truthy = true

theorem Kept.coherent (h : s.Kept) : s.Coherent := by
  intro f m hget
  refine h.agrees f m ?_
  rw [JsonTable.get, h.proto] at hget
  split at hget
  · cases hget
  · rwa [Option.bind_none, Option.or_none] at hget

/-! ## Each effect

A case for each effect of `File.Effects`.  The two that matter are the registration of a manifest,
which must not contradict the entry, and a chunk that is put, whose hash was checked against a
manifest. -/

theorem dir_congr (h : store'.baseDir = store.baseDir) (f : String) :
    store'.dir f = store.dir f := by
  rw [dir, dir, h]

/-- The store has changed, and agrees with the manifests again; the downloads are the ones that were
there. -/
theorem Kept.of_store (h : s.Kept) (hkeyed : s'.Keyed) (hmanifests : s'.manifests = s.manifests)
    (hbase : s'.store.baseDir = s.store.baseDir)
    (hagrees : ∀ f m, s.manifests.own.get? f = some m →
      ∃ entry, s'.store.files.get? f = some entry ∧ Agrees P s'.store m f entry)
    (hdownloads : ∀ f d, s'.downloads.get? f = some d → ∃ d₀, s.downloads.get? f = some d₀ ∧
      d₀.manifest = d.manifest ∧ d₀.outPath = d.outPath) : s'.Kept := by
  refine ⟨hkeyed, ?_, ?_, ?_, fun f m g m' hf hg hne ↦ ?_, fun f d hd ↦ ?_,
    fun f d g m idx hd hg ↦ ?_⟩
  · rw [hmanifests]
    exact h.proto
  · rw [hmanifests]
    exact h.counts
  · rw [hmanifests]
    exact hagrees
  · rw [hmanifests] at hf hg
    rw [dir_congr hbase, dir_congr hbase]
    exact h.apart f m g m' hf hg hne
  · obtain ⟨d₀, hd₀, hmanifest, -⟩ := hdownloads f d hd
    rw [hmanifests, ← hmanifest]
    exact h.downloads f d₀ hd₀
  · obtain ⟨d₀, hd₀, -, hout⟩ := hdownloads f d hd
    rw [hmanifests] at hg
    rw [chunkPath_congr hbase, ← hout]
    exact h.outputs f d₀ g m idx hd₀ hg

theorem Kept.of_quiet (h : s.Kept) (hquiet : s.Quiet s') : s'.Kept := by
  have hbase : s'.store.baseDir = s.store.baseDir := by rw [hquiet.store]
  refine h.of_store (hquiet.keyed h.keyed) hquiet.manifests hbase ?_ fun f d hd ↦ ?_
  · rw [hquiet.store]
    exact h.agrees
  · obtain ⟨d₀, hd₀, htask⟩ := hquiet.get? hd
    exact ⟨d₀, hd₀, congrArg DownloadTask.manifest htask, congrArg DownloadTask.outPath htask⟩

theorem Kept.register (h : s.Kept) {key : String} (hkey : fileKey m = .ok key)
    (hadmits : s.Admits m key) : (s.registerManifest m).1.Kept := by
  have hproto : key ≠ "__proto__" := fun heq ↦ hadmits.own (by rw [heq]; decide)
  have hset : (s.manifests.set key m) = { s.manifests with own := s.manifests.own.set key m } :=
    if_neg hproto
  have hregister : (s.registerManifest m).1 = { s with
      manifests := { s.manifests with own := s.manifests.own.set key m }
      store := (s.store.registerManifest key m).1 } := by
    rw [registerManifest, hkey, ← hset]
  have hbase := (confined_registerManifest s.store key m).baseDir
  have hfile (g : String) (idx : ℕ) (data : Buffer)
      (hdisk : s.store.disk (s.store.chunkPath g idx) = some (.file data)) :
      (s.store.registerManifest key m).1.disk (s.store.chunkPath g idx) = some (.file data) :=
    file_registerManifest chunkPath_ne_index hdisk
  have hget (g : String) : (s.store.registerManifest key m).1.files.get? g =
      if g = key then some ((s.store.files.get? key).getD (newEntry m))
      else s.store.files.get? g := by
    rw [files_registerManifest, get?_addEntry]
    split
    · next hg => rw [hg, if_neg hadmits.own]
    · rfl
  rw [hregister]
  refine ⟨h.keyed, h.proto, fun f m' hf ↦ ?_, fun f m' hf ↦ ?_, fun f m₁ g m₂ hf hg hne ↦ ?_,
    fun f d hd ↦ ?_, fun f d g m' idx hd hg ↦ ?_⟩
  · rw [OrderedMap.get?_set] at hf
    split at hf
    · rw [← Option.some.inj hf]
      exact hadmits.counts
    · exact h.counts f m' hf
  · rw [OrderedMap.get?_set] at hf
    rw [hget]
    split at hf
    · next heq =>
      subst heq
      obtain rfl := Option.some.inj hf
      rw [if_pos rfl]
      refine ⟨_, rfl, ?_⟩
      cases hentry : s.store.files.get? f with
      | none => exact ⟨rfl, rfl, rfl, fun idx hidx ↦ absurd hidx List.not_mem_nil⟩
      | some entry => exact (hadmits.entry entry hentry).of_files hbase (hfile f)
    · next hne =>
      rw [if_neg hne]
      obtain ⟨entry, hentry, hagrees⟩ := h.agrees f m' hf
      exact ⟨entry, hentry, hagrees.of_files hbase (hfile f)⟩
  · rw [OrderedMap.get?_set] at hf hg
    rw [dir_congr hbase, dir_congr hbase]
    split at hf
    · next heq =>
      subst heq
      rw [if_neg (Ne.symm hne)] at hg
      exact (hadmits.apart g m₂ hg (Ne.symm hne)).symm
    · split at hg
      · next heq =>
        subst heq
        exact hadmits.apart f m₁ hf hne
      · exact h.apart f m₁ g m₂ hf hg hne
  · rw [OrderedMap.get?_set]
    obtain ⟨m', hm', hcounts, hhash⟩ := h.downloads f d hd
    split
    · next heq =>
      subst heq
      exact ⟨m, rfl, hcounts, hadmits.download d hd⟩
    · exact ⟨m', hm', hcounts, hhash⟩
  · rw [OrderedMap.get?_set] at hg
    rw [chunkPath_congr hbase]
    split at hg
    · next heq =>
      subst heq
      exact hadmits.outputs f d idx hd
    · exact h.outputs f d g m' idx hd hg

/-- A chunk with the hash of its manifest is put. -/
theorem Kept.agrees_put (h : s.Kept) (hf : s.manifests.own.get? f = some m)
    (hwrote : Wrote s.store store' f idx data) (hbelow : Below idx (m.get "nb_chunks"))
    (hhash : hashAt m idx = some (.str (P.sha256 data).hex)) (m' : Json)
    (hg : s.manifests.own.get? g = some m') :
    ∃ entry, store'.files.get? g = some entry ∧ Agrees P store' m' g entry := by
  obtain ⟨entry, hentry, hagrees⟩ := h.agrees g m' hg
  by_cases hfg : g = f
  · subst hfg
    obtain rfl : m = m' := Option.some.inj (hf.symm.trans hg)
    obtain ⟨hold, hnew⟩ := hagrees.put hwrote hbelow hhash
    obtain hfiles | ⟨e, he, hfiles⟩ := hwrote.files
    · exact ⟨entry, by rw [hfiles, hentry], hold⟩
    · obtain rfl : entry = e := Option.some.inj (hentry.symm.trans he)
      exact ⟨_, by rw [hfiles, OrderedMap.get?_set_self], hnew⟩
  · refine ⟨entry, ?_, hagrees.put_other hwrote (h.apart g m' f m hg hf hfg)⟩
    obtain hfiles | ⟨e, he, hfiles⟩ := hwrote.files
    · rw [hfiles, hentry]
    · rw [hfiles, OrderedMap.get?_set_of_ne hfg, hentry]

section
variable {jsonParse : Buffer → Option Json} {e : FileEvent} {d : Download}

theorem Kept.put (h : s.Kept) (hexpects : s.Expects f idx data d)
    (hdata : e.Carries jsonParse f idx data) (g : String) (m' : Json)
    (hg : s.manifests.own.get? g = some m') :
    ∃ entry, (s.put f idx data).1.files.get? g = some entry ∧
      Agrees P (s.put f idx data).1 m' g entry := by
  obtain ⟨m, hm, hcounts, hsame⟩ := h.downloads f d hexpects.get
  have hhash : hashAt m idx = some (.str (P.sha256 data).hex) :=
    (hsame idx).trans (Download.hashAt_of_expectedHash hcounts hexpects.hash)
  obtain ⟨hsame, -⟩ | ⟨-, hwrote⟩ := putChunk_cases P s.store f idx data _
  · rw [FileNode.put, hsame]
    exact h.agrees g m' hg
  · have hbelow := below_of_hashAt (h.counts f m hm) (FileEvent.of_carries hdata).2 hhash
    exact h.agrees_put hm hwrote hbelow hhash m' hg

/-- A seeded chunk that is stored has the hash of its manifest. -/
theorem Kept.seeded (h : s.Kept) (hf : s.manifests.own.get? f = some m) {n i : ℕ}
    {chunks : List Json} {c : Json} (hn : loopCount (m.get "nb_chunks") = some n) (hi : i < n)
    (hchunks : m.get "chunks" = some (.arr chunks)) (hc : chunks[i]? = some c)
    (htruthy : (c.get "hash").any Json.truthy = true) (m' : Json)
    (hg : s.manifests.own.get? g = some m') :
    ∃ entry, (s.store.putChunk P f i data (c.get "hash")).1.files.get? g = some entry ∧
      Agrees P (s.store.putChunk P f i data (c.get "hash")).1 m' g entry := by
  obtain ⟨hsame, -⟩ | ⟨hmatch, hwrote⟩ := putChunk_cases P s.store f i data (c.get "hash")
  · rw [hsame]
    exact h.agrees g m' hg
  · have hhash : hashAt m i = some (.str (P.sha256 data).hex) := by
      rw [hashAt, hchunks]
      exact Option.bind_eq_some_iff.mpr ⟨c, hc, Json.eq_of_strictEq (hmatch htruthy)⟩
    exact h.agrees_put hf hwrote (below_of_loopCount (h.counts f m hf) hn hi) hhash m' hg

theorem Kept.finish (h : s.Kept) (hd : s.downloads.get? f = some d) : (s.finish f d).Kept := by
  have hconfined := confined_assemble P s.store f d.outPath
  refine h.of_store ?_ (manifests_finish s f d) ?_ (fun g m hg ↦ ?_) fun g d' hd' ↦ ?_
  · intro g d' hd'
    rw [downloads_finish, OrderedMap.get?_delete] at hd'
    split at hd'
    · cases hd'
    · exact h.keyed g d' hd'
  · rw [store_finish]
    exact hconfined.baseDir
  · rw [store_finish, files_assemble]
    obtain ⟨entry, hentry, hagrees⟩ := h.agrees g m hg
    refine ⟨entry, hentry, hagrees.of_files hconfined.baseDir fun idx data hfile ↦ ?_⟩
    rw [hconfined.disk _ (h.outputs f d g m idx hd hg).symm, hfile]
  · rw [downloads_finish, OrderedMap.get?_delete] at hd'
    split at hd'
    · cases hd'
    · exact ⟨d', hd', rfl, rfl⟩

theorem own_set_register (hid : m.get "file_id" = some (.str f)) (hf : f ∉ inheritedNames) :
    (s.registerManifest m).1.manifests.own = s.manifests.own.set f m := by
  have hproto : f ≠ "__proto__" := fun heq ↦ hf (by rw [heq]; decide)
  rw [registerManifest_eq_of_get hid]
  dsimp only
  rw [JsonTable.set, if_neg hproto]

theorem own_register (hid : m.get "file_id" = some (.str f)) (hf : f ∉ inheritedNames) :
    (s.registerManifest m).1.manifests.own.get? f = some m := by
  rw [own_set_register hid hf, OrderedMap.get?_set_self]

theorem baseDir_register (s : FileNode P) (m : Json) :
    (s.registerManifest m).1.store.baseDir = s.store.baseDir := by
  rw [registerManifest]
  split
  · rfl
  · exact (confined_registerManifest s.store _ m).baseDir

/-- A download begins, of a manifest that has just been registered. -/
theorem Kept.start (h₀ : s₀.Kept) (hfits : Fits jsonParse s₀ e)
    (hs : (s₀.registerManifest m).1.Kept) {outPath : Location} {parallel : Option ℕ}
    {rank : ℕ → ℕ} (he : e = .download m outPath parallel rank)
    (hid : m.get "file_id" = some (.str f)) {needed : Finset ℕ}
    (hd : d.task = ⟨m, f, outPath, s₀.nextPromise, needed, false⟩) (nextPromise : ℕ) :
    Kept { (s₀.registerManifest m).1 with
      nextPromise := nextPromise, downloads := s₀.downloads.set f d } := by
  have hadmits := hfits.registers m f (he ▸ rfl) (fileKey_of_get hid)
  have hown : (s₀.registerManifest m).1.manifests.own.get? f = some m :=
    own_register hid hadmits.own
  have hdownloads := downloads_registerManifest s₀ m
  have hid' : d.fileId = f := congrArg DownloadTask.fileId hd
  have hmanifest : d.manifest = m := congrArg DownloadTask.manifest hd
  have hout : d.outPath = outPath := congrArg DownloadTask.outPath hd
  refine ⟨fun g d' hd' ↦ h₀.keyed.set hid' hd', hs.proto, hs.counts, hs.agrees, hs.apart,
    fun g d' hd' ↦ ?_, fun g d' g' m' idx hd' hg' ↦ ?_⟩
  · rw [OrderedMap.get?_set] at hd'
    split at hd'
    · next hg =>
      subst hg
      obtain rfl := Option.some.inj hd'
      refine ⟨m, hown, ?_, fun idx ↦ by rw [hmanifest]⟩
      rw [hmanifest]
      exact hadmits.counts
    · exact hs.downloads g d' (by rw [hdownloads, hd'])
  · rw [OrderedMap.get?_set] at hd'
    split at hd'
    · obtain rfl := Option.some.inj hd'
      rw [hout, chunkPath_congr (baseDir_register s₀ m)]
      refine hfits.output m outPath parallel rank he g' idx ?_
      rw [own_set_register hid hadmits.own, OrderedMap.get?_set] at hg'
      split at hg'
      · next hg =>
        rw [hg]
        exact .inr (fileKey_of_get hid)
      · rw [hg']
        exact .inl rfl
    · exact hs.outputs g d' g' m' idx (by rw [hdownloads, hd']) hg'

/-- **An effect of an event that fits** keeps manifests and store in agreement. -/
theorem Effect.kept (h₀ : s₀.Kept) (hfits : Fits jsonParse s₀ e) (h : Effect jsonParse s₀ e s s')
    (hs : s.Kept) : s'.Kept := by
  have hkeyed := h.keyed hs.keyed
  cases h with
  | quiet h => exact hs.of_quiet h
  | @register m h =>
    cases hkey : fileKey m with
    | error err =>
      rw [registerManifest, hkey]
      exact hs
    | ok key => exact h₀.register hkey (hfits.registers m key h hkey)
  | refused hexpects hdata hput =>
    refine hs.of_store hkeyed rfl ?_ (hs.put hexpects hdata) fun f d hd ↦ ⟨d, hd, rfl, rfl⟩
    exact baseDir_putChunk ..
  | received hexpects hdata hput hd' =>
    refine hs.of_store hkeyed rfl ?_ (hs.put hexpects hdata) fun g d₁ hd₁ ↦ ?_
    · exact baseDir_putChunk ..
    · rw [OrderedMap.get?_set] at hd₁
      split at hd₁
      · next hg =>
        subst hg
        obtain rfl := Option.some.inj hd₁
        exact ⟨_, hexpects.get, (congrArg DownloadTask.manifest hd').symm,
          (congrArg DownloadTask.outPath hd').symm⟩
      · exact ⟨d₁, hd₁, rfl, rfl⟩
  | start he hid hok hn hneeded hd' => exact h₀.start hfits hs he hid hd' _
  | promise => exact hs.of_store hkeyed rfl rfl hs.agrees fun f d hd ↦ ⟨d, hd, rfl, rfl⟩
  | reject =>
    refine hs.of_store hkeyed (manifests_settle ..) (by rw [store_settle]) ?_ fun f d hd ↦ ?_
    · rw [store_settle]
      exact hs.agrees
    · rw [downloads_settle] at hd
      exact ⟨d, hd, rfl, rfl⟩
  | finish hd hneeded => exact hs.finish hd
  | @seeded _ m filePath f n i c data he hid hok hmanifests hn hi hc =>
    have hown : s.manifests.own.get? f = some m := by
      rw [hmanifests]
      exact own_register hid (hfits.registers m f (he ▸ rfl) (fileKey_of_get hid)).own
    obtain ⟨chunks, hchunks, -⟩ := hs.counts f m hown
    rw [chunkAt, hchunks] at hc
    have htruthy := hfits.seeds m filePath chunks c he hchunks (List.mem_of_getElem? hc)
    refine hs.of_store hkeyed rfl (baseDir_putChunk ..) ?_ fun f d hd ↦ ⟨d, hd, rfl, rfl⟩
    exact fun g m' hg ↦ hs.seeded hown hn hi hchunks hc htruthy m' hg

theorem Effects.kept (h₀ : s₀.Kept) (hfits : Fits jsonParse s₀ e)
    (h : Effects jsonParse s₀ e s s') (hs : s.Kept) : s'.Kept := by
  induction h with
  | refl => exact hs
  | tail _ h ih => exact h.kept h₀ hfits ih

/-- **Whatever happens**, manifests and store agree afterwards, if all of it fits. -/
theorem Kept.next (h : s.Kept) (hfits : Fits jsonParse s e) : (s.next jsonParse e).Kept :=
  Effects.kept h hfits (effects_next h.keyed jsonParse e) h

/-- **Manifest and store agree** in every reachable state of a node to which nothing has happened
but what fits. -/
theorem coherent_of_reachable (jsonParse : Buffer → Option Json) (s : FileNode P)
    (hs : ((machine jsonParse).guard (Fits jsonParse)).Reachable s) : s.Coherent := by
  have hkept : s.Kept := by
    refine hs.invariant ?_ ?_
    · rintro _ ⟨signKey, store, parallel, rfl⟩
      exact ⟨nofun, rfl, nofun, nofun, nofun, nofun, nofun⟩
    · rintro s e _ _ hkept ⟨hfits, -, rfl⟩
      exact hkept.next hfits
  exact hkept.coherent

/-- The hashes of the manifest of a file are texts. -/
theorem Describes.hash_truthy {b content : Buffer} {chunkSize : ℕ} {chunks : List Json} {c : Json}
    (h : Describes P m b content chunkSize) (hP : P.Lawful)
    (hchunks : m.get "chunks" = some (.arr chunks)) (hc : c ∈ chunks) :
    (c.get "hash").any Json.truthy = true := by
  rw [h.chunks] at hchunks
  obtain rfl := Json.arr.inj (Option.some.inj hchunks)
  obtain ⟨i, -, rfl⟩ := List.mem_map.mp hc
  exact truthy_hex (List.ne_nil_of_length_eq_add_one (hP.length_sha256 _))

theorem of_onManifest (h : verifyManifest P m = some true) :
    (s.onManifest m).1.manifests = (s.registerManifest m).1.manifests ∧
      (s.onManifest m).1.store = (s.registerManifest m).1.store := by
  rw [onManifest, h]
  dsimp only
  split
  · exact ⟨rfl, rfl⟩
  · exact ⟨rfl, rfl⟩

/-- The entry of a file is the one of its first manifest. -/
theorem entry_onManifest {b : Buffer} (h : verifyManifest P m = some true)
    (hid : m.get "file_id" = some (.str b.hex)) :
    (s.onManifest m).1.store.files.get? b.hex =
      some ((s.store.files.get? b.hex).getD (newEntry m)) := by
  rw [(of_onManifest h).2, registerManifest_eq_of_get hid]
  dsimp only
  rw [files_registerManifest, get?_addEntry, if_pos rfl, if_neg (hex_notMem_inheritedNames b)]

end

namespace SampleFile

/-- A text that is empty, or not, stands for a manifest of the file. -/
def parse (raw : Buffer) : Option Json := some (manifest (if raw = [] then 4 else defaultChunkSize))

/-- The manifest is received from the peer, in whatever text it was sent. -/
def receive (raw : Buffer) : FileEvent := .message ⟨"00#1", [0]⟩ (0x10 :: raw) fun i ↦ i

theorem verifyManifest_manifest {chunkSize : ℕ} (hpos : 0 < chunkSize) :
    verifyManifest primitives (manifest chunkSize) = some true :=
  verifyManifest_of_verifySignature (by decide) hpos (by decide)
    (verifySignature_manifestOf lawful)

theorem next_receive (s : FileNode primitives) (raw : Buffer) : s.next parse (receive raw) =
    (s.onManifest (manifest (if raw = [] then 4 else defaultChunkSize))).1 := rfl

theorem fits_receive (raw : Buffer) : Fits parse (node ["hello.txt"]) (receive raw) where
  registers m key hregisters hkey := by
    have hm : manifest (if raw = [] then 4 else defaultChunkSize) = m :=
      FileMessage.manifest.inj (Except.ok.inj hregisters.1)
    have hfileId : m.get "file_id" = some (.str sampleFileId.hex) := by
      rw [← hm]
      exact (describes _).fileId
    obtain rfl : sampleFileId.hex = key := Except.ok.inj ((fileKey_of_get hfileId).symm.trans hkey)
    exact ⟨hex_notMem_inheritedNames _, chunks_of_verifyManifest hregisters.2, nofun, nofun, nofun,
      nofun⟩
  output := nofun
  seeds := nofun

theorem reachable_receive :
    ((machine parse).guard (Fits parse)).Reachable
      ((node ["hello.txt"]).next parse (receive [])) := by
  have hinit : ((machine parse).guard (Fits parse)).Reachable (node ["hello.txt"]) :=
    .init ⟨_, _, _, rfl⟩
  exact hinit.step (e := receive []) ⟨fits_receive [], trivial, rfl⟩

/-- The manifest of a file of one byte, which has one chunk. -/
def otherManifest : Json := manifestOf primitives () [10] "other.txt" 9

theorem describes_other : Describes primitives otherManifest sampleHash [10] 9 :=
  ⟨rfl, rfl, rfl, get_chunks_manifestOf⟩

theorem verifyManifest_other : verifyManifest primitives otherManifest = some true :=
  verifyManifest_of_verifySignature (by decide) (by decide) (by decide)
    (verifySignature_manifestOf lawful)

theorem fileKey_other : fileKey otherManifest = .ok sampleHash.hex :=
  fileKey_of_get describes_other.fileId

/-- The text of a message is read as that manifest. -/
def parseOther (_ : Buffer) : Option Json := some otherManifest

/-- The manifest has been received, and nothing else has happened. -/
def told : FileNode primitives := (node ["hello.txt"]).next parseOther (receive [])

/-- The file is being downloaded, too, to a name of its own. -/
def fetching : FileNode primitives :=
  told.next parseOther (.download otherManifest ["other.txt"] none fun i ↦ i)

/-- The node also seeds its own file, so that it has two manifests and stored chunks. -/
def sharing : FileNode primitives :=
  fetching.next parseOther (.seed (manifest 9) ["hello.txt"])

/-- The output is beside the chunks: no chunk of any file is stored at its location. -/
theorem output_ne_chunkPath {s : ChunkStore} (hbase : s.baseDir = ["store"]) {b : Buffer}
    (hb : b ≠ []) {name : String} (i : ℕ) : [name] ≠ s.chunkPath b.hex i := by
  intro heq
  have hlength := congrArg List.length heq
  rw [length_chunkPath hb, hbase] at hlength
  cases hlength

theorem fits_told : Fits parseOther (node ["hello.txt"]) (receive []) where
  registers m key hregisters hkey := by
    obtain rfl : otherManifest = m := FileMessage.manifest.inj (Except.ok.inj hregisters.1)
    obtain rfl : sampleHash.hex = key := Except.ok.inj (fileKey_other.symm.trans hkey)
    exact ⟨hex_notMem_inheritedNames _, chunks_of_verifyManifest hregisters.2, nofun, nofun, nofun,
      nofun⟩
  output := nofun
  seeds := nofun

theorem facts_told : told.store.baseDir = ["store"] ∧
    told.manifests.own.keys = [sampleHash.hex] ∧ told.downloads.entries.length = 0 := by
  decide +kernel

/-- The manifest is the one that was received, so that the download fits. -/
theorem fits_fetching :
    Fits parseOther told (.download otherManifest ["other.txt"] none fun i ↦ i) where
  registers m key hregisters hkey := by
    obtain rfl : otherManifest = m := hregisters.symm
    obtain rfl : sampleHash.hex = key := Except.ok.inj (fileKey_other.symm.trans hkey)
    have hidle := facts_told.2.2
    have hnone (f : String) (d : Download) : told.downloads.get? f ≠ some d := by
      intro hd
      have hmem : (f, d) ∈ told.downloads.entries := OrderedMap.mem_entries_iff.mpr hd
      rw [List.eq_nil_of_length_eq_zero hidle] at hmem
      cases hmem
    refine ⟨hex_notMem_inheritedNames _, chunks_of_verifyManifest verifyManifest_other,
      fun entry h ↦ ?_, fun f m' hf hne ↦ absurd ?_ hne, fun d hd ↦ absurd hd (hnone _ d),
      fun f d _ hd ↦ absurd hd (hnone f d)⟩
    · have hentry := entry_onManifest (s := node ["hello.txt"]) verifyManifest_other
        describes_other.fileId
      obtain rfl := Option.some.inj (hentry.symm.trans h)
      exact ⟨rfl, rfl, rfl, nofun⟩
    · have hmem := OrderedMap.has_iff.mp (Option.isSome_of_eq_some hf)
      rw [facts_told.2.1] at hmem
      exact List.mem_singleton.mp hmem
  output m outPath parallel rank heq f idx hknown := by
    obtain ⟨rfl, rfl, -, -⟩ := FileEvent.download.inj heq
    obtain rfl : f = sampleHash.hex := by
      rcases hknown with hknown | hknown
      · have hmem := OrderedMap.has_iff.mp hknown
        rw [facts_told.2.1] at hmem
        exact List.mem_singleton.mp hmem
      · exact Except.ok.inj (hknown.symm.trans fileKey_other)
    exact output_ne_chunkPath facts_told.1 (by decide) idx
  seeds := nofun

theorem facts_fetching : fetching.store.baseDir = ["store"] ∧
    fetching.manifests.own.keys = [sampleHash.hex] ∧
    (fetching.store.files.get? sampleFileId.hex).isNone = true ∧
    fetching.downloads.entries.map (fun e ↦ (e.1, e.2.outPath)) =
      [(sampleHash.hex, ["other.txt"])] := by
  decide +kernel

theorem fits_sharing : Fits parseOther fetching (.seed (manifest 9) ["hello.txt"]) where
  registers m key hregisters hkey := by
    obtain rfl : manifest 9 = m := hregisters.symm
    obtain rfl : sampleFileId.hex = key :=
      Except.ok.inj ((fileKey_of_get (describes 9).fileId).symm.trans hkey)
    obtain ⟨hbase, hkeys, hnew, houts⟩ := facts_fetching
    have hfetched {f : String} {d : Download} (hd : fetching.downloads.get? f = some d) :
        f = sampleHash.hex ∧ d.outPath = ["other.txt"] := by
      have hentry : (f, d) ∈ fetching.downloads.entries := OrderedMap.mem_entries_iff.mpr hd
      have hmem := List.mem_map_of_mem (f := fun e : String × Download ↦ (e.1, e.2.outPath)) hentry
      rw [houts] at hmem
      exact Prod.mk.inj (List.mem_singleton.mp hmem)
    refine ⟨hex_notMem_inheritedNames _,
      chunks_of_verifyManifest (verifyManifest_manifest (by decide)), fun entry h ↦ ?_,
      fun f m' hf _ ↦ ?_, fun d hd ↦ absurd (hfetched hd).1 (by decide), fun f d idx hd ↦ ?_⟩
    · rw [Option.isNone_iff_eq_none.mp hnew] at h
      cases h
    · have hmem := OrderedMap.has_iff.mp (Option.isSome_of_eq_some hf)
      rw [hkeys] at hmem
      rw [List.mem_singleton.mp hmem, ChunkStore.dir, ChunkStore.dir, hbase]
      decide
    · rw [(hfetched hd).2]
      exact output_ne_chunkPath hbase (by decide) idx
  output := nofun
  seeds m filePath chunks c heq hchunks hc := by
    obtain ⟨rfl, -⟩ := FileEvent.seed.inj heq
    exact (describes 9).hash_truthy lawful hchunks hc

theorem facts_sharing : sharing.store.hasChunk sampleFileId.hex 0 = .ok true ∧
    sharing.manifests.own.size = 2 ∧ sharing.downloads.has sampleHash.hex = true := by
  decide +kernel

theorem reachable_sharing : ((machine parseOther).guard (Fits parseOther)).Reachable sharing := by
  have hinit : ((machine parseOther).guard (Fits parseOther)).Reachable (node ["hello.txt"]) :=
    .init ⟨_, _, _, rfl⟩
  have htold : ((machine parseOther).guard (Fits parseOther)).Reachable told :=
    hinit.step ⟨fits_told, trivial, rfl⟩
  have hfetching : ((machine parseOther).guard (Fits parseOther)).Reachable fetching :=
    htold.step ⟨fits_fetching, trivial, rfl⟩
  exact hfetching.step ⟨fits_sharing, trivial, rfl⟩

end SampleFile

open SampleFile in
/-- A file is seeded, and another one is downloaded, whose manifest had been received before. -/
theorem coherent_sample : sharing.store.hasChunk sampleFileId.hex 0 = .ok true ∧
    sharing.manifests.own.size = 2 ∧ sharing.downloads.has sampleHash.hex = true ∧
      sharing.Coherent :=
  ⟨facts_sharing.1, facts_sharing.2.1, facts_sharing.2.2,
    coherent_of_reachable parseOther _ reachable_sharing⟩

open SampleFile in
/-- A second manifest of the same file, with chunks of another size, is registered next to the entry
of the first. -/
theorem not_coherent : ∃ s : FileNode primitives, (machine parse).Reachable s ∧ ¬s.Coherent := by
  obtain ⟨s, hs⟩ : ∃ s, s = (node ["hello.txt"]).next parse (receive []) := ⟨_, rfl⟩
  have hreachable : (machine parse).Reachable s := hs ▸ reachable_receive.of_guard
  refine ⟨s.next parse (receive [0]), hreachable.step (e := receive [0]) ⟨trivial, rfl⟩, fun h ↦ ?_⟩
  have hinherited := hex_notMem_inheritedNames sampleFileId
  rw [next_receive, if_pos rfl] at hs
  have hentry (s : FileNode primitives) {chunkSize : ℕ} (hpos : 0 < chunkSize) :
      (s.onManifest (manifest chunkSize)).1.store.files.get? sampleFileId.hex =
        some ((s.store.files.get? sampleFileId.hex).getD (newEntry (manifest chunkSize))) :=
    entry_onManifest (verifyManifest_manifest hpos) (describes chunkSize).fileId
  -- the entry is the one of the first manifest
  have hfirst : s.store.files.get? sampleFileId.hex = some (newEntry (manifest 4)) := by
    rw [hs]
    exact hentry (node ["hello.txt"]) (by decide)
  have hsecond := hentry s (by decide : 0 < defaultChunkSize)
  rw [hfirst, Option.getD_some] at hsecond
  have hown : (s.onManifest (manifest defaultChunkSize)).1.manifests.own.get? sampleFileId.hex =
      some (manifest defaultChunkSize) := by
    rw [(of_onManifest (verifyManifest_manifest (by decide))).1]
    exact own_register (describes _).fileId hinherited
  have hget : (s.onManifest (manifest defaultChunkSize)).1.manifests.get sampleFileId.hex =
      some (manifest defaultChunkSize) := by
    rw [JsonTable.get_eq_stored, JsonTable.stored, if_neg, hown, Option.some_or]
    exact fun heq ↦ hinherited (by rw [heq]; decide)
  rw [next_receive, if_neg (by decide)] at h
  obtain ⟨entry, hsame, hagrees⟩ := h _ _ hget
  obtain rfl := Option.some.inj (hsecond.symm.trans hsame)
  have hsize : some (Json.num (.ofNat 4)) = some (.num (.ofNat defaultChunkSize)) :=
    (describes 4).chunkLength.symm.trans (hagrees.chunkSize.trans (describes _).chunkLength)
  rw [Number.ofNat_of_le (by decide), Number.ofNat_of_le (by decide)] at hsize
  exact absurd (Number.finite.inj (Json.num.inj (Option.some.inj hsize))) (by decide)

end FileNode

end AttestP2P
