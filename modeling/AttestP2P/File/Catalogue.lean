import AttestP2P.File.Saturation
import AttestP2P.File.StoreIndex
import AttestP2P.File.Terms

/-!
# Nodes that share files

A catalogue is a set of files, each with a manifest that verifies.  A node that shares them
registers no other manifests, writes its outputs beside the store, and is sent nothing but what such
nodes send.

Among strangers little can be promised: anybody can sign a manifest for a file that does not exist,
announce chunks, and never answer.  Among nodes that share a catalogue the program should do what it
is for, and that is what the modules from here on are about.

* `Catalogue.Genuine` is what a message of theirs may say.  Data in it is signed by its sender and
  is the data of the chunk.
* `Catalogue.Permits` is what may happen to such a node; the disk does not fail.
* `Catalogue.Honest` is what then holds of it, and `Honest.next` that every event keeps it: what is
  registered is in the catalogue, what is stored is the chunk, nobody is taken for bad, and what is
  remembered of others was said.
-/

set_option autoImplicit false

namespace AttestP2P

open Slices

/-- A file with its manifest, which describes its content cut into chunks of one size. -/
structure SharedFile (P : Primitives) where
  manifest : Json
  digest : Buffer
  content : Buffer
  chunkSize : ℕ
  describes : FileNode.Describes P manifest digest content chunkSize
  verified : Manifest.verifyManifest P manifest = some true
  length_digest : digest.length = 32
  count_lt : count content chunkSize < 2 ^ 31

/-- The files that are shared, by their ids.  No two have one id, since the id is the digest. -/
structure Catalogue (P : Primitives) (jsonParse : Buffer → Option Json) where
  file : String → Option (SharedFile P)
  key : ∀ f x, file f = some x → x.digest.hex = f
  /-- `JSON.parse` undoes `JSON.stringify`. -/
  parses : ∀ f x, file f = some x →
    jsonParse (Json.utf8 (x.manifest.stringify "" "")) = some x.manifest

namespace Catalogue

open FileNode ChunkStore

variable {P : Primitives} {jsonParse : Buffer → Option Json} (C : Catalogue P jsonParse)
  {s s' : FileNode P} {f g : String} {x y : SharedFile P} {e : FileEvent}

/-- The message is one of a node that shares the files and signs as `peerId`. -/
def Genuine (peerId buf : Buffer) : Prop :=
  ∃ message, FileProtocol.decode jsonParse buf = .ok message ∧
    match message with
    | .manifest m => ∃ f x, C.file f = some x ∧ x.manifest = m
    | .chunkData f idx chunkHash signature data => ∃ x, C.file f = some x ∧
      goodChunk P ⟨"", peerId⟩ f idx chunkHash signature data
        (Manifest.hashAt x.manifest idx) = true
    | _ => True

/-- What may happen to a node that shares the files. -/
inductive Permits (s : FileNode P) : FileEvent → Prop
  | attach (peerId : Buffer) : Permits s (.attach peerId)
  | message {session : FileSession} {buf : Buffer} {rank : ℕ → ℕ}
    (hsession : s.sessions.get? session.peerHex = some session.peerId)
    (hgenuine : C.Genuine session.peerId buf)
    (hok : (s.handleMessage jsonParse session buf rank).2 = .ok ()) :
    Permits s (.message session buf rank)
  | close (peerHex : String) (rank : String → ℕ → ℕ) : Permits s (.close peerHex rank)
  | timer (t : ℕ) (rank : ℕ → ℕ) : Permits s (.timer t rank)
  | download {f : String} {x : SharedFile P} {outPath : Location} {parallel : Option ℕ}
    {rank : ℕ → ℕ} (hx : C.file f = some x)
    (hok : ∃ promise, (s.download x.manifest outPath parallel rank).2 = .ok promise)
    (houtput : ∀ g i, (C.file g).isSome → outPath ≠ s.store.chunkPath g i) :
    Permits s (.download x.manifest outPath parallel rank)
  | seed {f : String} {x : SharedFile P} {filePath : Location} (hx : C.file f = some x)
    (hok : (s.seed x.manifest filePath).2 = .ok ()) : Permits s (.seed x.manifest filePath)

/-! ## Files and manifests

A manifest of the catalogue is told by its file id, the digest of the content in hexadecimal.  Such
a text is the name of a directory and nothing else: no path, and no property of `Object.prototype`.
-/

/-- The file has the chunk: it is in the catalogue, and the index is below its count. -/
def Has (f : String) (i : ℕ) : Prop := ∃ x, C.file f = some x ∧ i < count x.content x.chunkSize

variable {C}

theorem hex_eq (hx : C.file f = some x) : f = x.digest.hex := (C.key f x hx).symm

theorem digest_ne_nil : x.digest ≠ [] := List.ne_nil_of_length_eq_add_one x.length_digest

theorem get_fileId (hx : C.file f = some x) : x.manifest.get "file_id" = some (.str f) := by
  rw [hex_eq hx]
  exact x.describes.fileId

theorem fileKey_manifest (hx : C.file f = some x) : fileKey x.manifest = .ok f :=
  fileKey_of_get (get_fileId hx)

theorem notMem_inheritedNames (hx : C.file f = some x) : f ∉ inheritedNames := by
  rw [hex_eq hx]
  exact hex_notMem_inheritedNames _

theorem ne_proto (hx : C.file f = some x) : f ≠ "__proto__" := by
  rintro rfl
  exact notMem_inheritedNames hx (by decide)

theorem dir_ne {store : ChunkStore} (hx : C.file f = some x) (hy : C.file g = some y)
    (hne : f ≠ g) : store.dir f ≠ store.dir g := by
  rw [hex_eq hx, hex_eq hy, ChunkStore.dir_eq digest_ne_nil, ChunkStore.dir_eq digest_ne_nil]
  intro h
  have hsame := List.singleton_inj.mp (List.append_cancel_left h)
  exact hne (by rw [hex_eq hx, hex_eq hy, hsame])

theorem loopCount_manifest (x : SharedFile P) :
    loopCount (x.manifest.get "nb_chunks") = some (count x.content x.chunkSize) := by
  have hle := x.count_lt
  rw [x.describes.nbChunks]
  exact Number.countBelow_ofNat (by omega)

theorem counts_manifest (x : SharedFile P) : Manifest.Counts x.manifest := by
  have hle := x.count_lt
  refine ⟨_, x.describes.chunks, ?_⟩
  rw [x.describes.nbChunks, Manifest.chunksOf, List.length_map, List.length_range,
    Number.ofNat_of_le (by omega)]
  simp [Json.strictEq, Number.strictEq]

end Catalogue

namespace Catalogue

open FileNode ChunkStore

variable {P : Primitives} {jsonParse : Buffer → Option Json} {C : Catalogue P jsonParse}
  {s s' : FileNode P} {f g : String} {x y : SharedFile P} {e : FileEvent}

/-! ## A node that shares files -/

/-- A download follows the manifest of the catalogue, nobody is known to be bad, and the output is
beside the store. -/
def Fair (C : Catalogue P jsonParse) (place : String → ℕ → Location) (d : DownloadTerms) : Prop :=
  (∃ x, C.file d.fileId = some x ∧ x.manifest = d.manifest) ∧ d.badPeerForChunk = .empty ∧
    ∀ g i, (C.file g).isSome → d.outPath ≠ place g i

variable (C) in
/-- What holds of a node that shares the files. -/
structure Honest (s : FileNode P) : Prop where
  active : s.AllActive
  saturated : s.Saturated
  timed : s.Timed
  proper : s.knowledge.Proper
  kept : s.Kept
  used : ∀ peerHex, s.sessions.has peerHex = true → s.knowledge.Used peerHex
  catalogued : ∀ f m, s.manifests.own.get? f = some m → ∃ x, C.file f = some x ∧ x.manifest = m
  entries : ∀ f e, s.store.files.get? f = some e → (s.manifests.own.get? f).isSome
  fair : s.OnTerms (C.Fair s.store.chunkPath)
  needs : s.Needs C.Has

/-! ### What is registered -/

/-- Only manifests of the catalogue are registered by an event that is permitted. -/
theorem Permits.registers {m : Json} (h : C.Permits s e) (hm : e.Registers P jsonParse m) :
    ∃ f x, C.file f = some x ∧ x.manifest = m := by
  cases h with
  | message _ hgenuine _ =>
    obtain ⟨message, hdecode, hmessage⟩ := hgenuine
    obtain rfl := Except.ok.inj (hdecode.symm.trans hm.1)
    exact hmessage
  | download hx => exact ⟨_, _, hx, hm.symm⟩
  | seed hx => exact ⟨_, _, hx, hm.symm⟩
  | _ => exact hm.elim

theorem Honest.own_eq (h : C.Honest s) {m : Json} (hm : s.manifests.own.get? f = some m)
    (hx : C.file f = some x) : m = x.manifest := by
  obtain ⟨y, hy, hmanifest⟩ := h.catalogued f m hm
  obtain rfl := Option.some.inj (hx.symm.trans hy)
  exact hmanifest.symm

theorem Honest.admits (h : C.Honest s) (hx : C.file f = some x) : s.Admits x.manifest f where
  own := notMem_inheritedNames hx
  counts := counts_manifest x
  entry entry hentry := by
    obtain ⟨m, hm⟩ := Option.isSome_iff_exists.mp (h.entries f entry hentry)
    obtain ⟨entry', hentry', hagrees⟩ := h.kept.agrees f m hm
    obtain rfl := Option.some.inj (hentry.symm.trans hentry')
    rwa [h.own_eq hm hx] at hagrees
  apart g m hm hne := by
    obtain ⟨y, hy, -⟩ := h.catalogued g m hm
    exact dir_ne hy hx hne
  download d hd idx := by
    obtain ⟨m, hm, -, hhash⟩ := h.kept.downloads f d hd
    rw [← h.own_eq hm hx, hhash]
  outputs g d idx hd := (h.fair g d hd).2.2 f idx (Option.isSome_of_eq_some hx)

theorem Honest.fits (hP : P.Lawful) (h : C.Honest s) (he : C.Permits s e) :
    s.Fits jsonParse e where
  registers m key hm hkey := by
    obtain ⟨f, x, hx, rfl⟩ := he.registers hm
    obtain rfl := Except.ok.inj ((fileKey_manifest hx).symm.trans hkey)
    exact h.admits hx
  output m outPath parallel rank hdownload g idx hg := by
    subst hdownload
    cases he with
    | download hx _ houtput =>
      refine houtput g idx ?_
      rcases hg with hown | hkey
      · obtain ⟨m, hm⟩ := Option.isSome_iff_exists.mp hown
        obtain ⟨y, hy, -⟩ := h.catalogued g m hm
        exact Option.isSome_of_eq_some hy
      · obtain rfl := Except.ok.inj ((fileKey_manifest hx).symm.trans hkey)
        exact Option.isSome_of_eq_some hx
  seeds m filePath chunks c hseed hchunks hc := by
    subst hseed
    cases he with
    | @seed f x _ hx _ => exact x.describes.hash_truthy hP hchunks hc

/-! ### What is said is true

Data that is answered is the data of the chunk, so that it has the expected hash and nobody is taken
for bad; and a bitfield has the bits of chunks that are there. -/

/-- The hash that a download expects is that of the file. -/
theorem Honest.expectedHash_eq (h : C.Honest s) (hx : C.file f = some x) {d : Download} {idx : ℕ}
    {expected : Option Json} {v : Json} (hd : s.downloads.get? f = some d)
    (hexpected : d.expectedHash idx = .ok expected)
    (hhash : Manifest.hashAt x.manifest idx = some v) : expected = some v := by
  obtain ⟨m, hm, ⟨chunks, hchunks, -⟩, hsame⟩ := h.kept.downloads f d hd
  rw [← h.own_eq hm hx, hsame, Manifest.hashAt, hchunks] at hhash
  obtain ⟨c, hc, hhash⟩ := Option.bind_eq_some_iff.mp hhash
  have htruthy : (chunks[idx]?).filter Json.truthy = some c := by
    rw [hc]
    exact Option.filter_eq_some_iff.mpr ⟨rfl, Json.truthy_of_get hhash⟩
  rw [Download.expectedHash, hchunks] at hexpected
  dsimp only at hexpected
  rw [htruthy, Option.bind_some, hhash] at hexpected
  exact (Except.ok.inj hexpected).symm

theorem hash_isSome_of_goodChunk {session : FileSession} {idx : ℕ}
    {chunkHash signature data : Buffer} {expected : Option Json}
    (h : goodChunk P session f idx chunkHash signature data expected = true) :
    ∃ v, expected = some v := ⟨_, eq_of_goodChunk (by rw [h]; decide)⟩

/-- Chunk data that arrives is good: it passes every check, since it is genuine and SHA-256 does not
collide. -/
theorem Honest.goodChunk (h : C.Honest s) {session : FileSession} {buf : Buffer} {rank : ℕ → ℕ}
    (he : C.Permits s (.message session buf rank)) {idx : ℕ} {chunkHash signature data : Buffer}
    (hdecode : FileProtocol.decode jsonParse buf = .ok (.chunkData f idx chunkHash signature data))
    {d : Download} {expected : Option Json} (hd : s.downloads.get? f = some d)
    (hexpected : d.expectedHash idx = .ok expected) :
    FileNode.goodChunk P session f idx chunkHash signature data expected = true := by
  cases he with
  | message _ hgenuine _ =>
    obtain ⟨message, hdecode', hmessage⟩ := hgenuine
    obtain rfl := Except.ok.inj (hdecode'.symm.trans hdecode)
    obtain ⟨x, hx, hgood⟩ := hmessage
    obtain ⟨v, hv⟩ := hash_isSome_of_goodChunk hgood
    rw [h.expectedHash_eq hx hd hexpected hv, ← hv]
    exact hgood

/-- What a store that counts the chunks of the file as the manifest does says of it. -/
theorem bitfield_eq {store : ChunkStore} (x : SharedFile P) (entry : StoreEntry)
    (hentry : store.files.get? f = some entry)
    (hnb : entry.nbChunks = x.manifest.get "nb_chunks") :
    store.bitfield f = .ok ((List.range ⌈(count x.content x.chunkSize : ℚ) / 8⌉₊).map
      (bitfieldByte entry.chunks)) := by
  have hle := x.count_lt
  rw [ChunkStore.bitfield, lookup_of_get? hentry]
  dsimp only
  rw [hnb, x.describes.nbChunks, bitfieldLength_ofNat (by omega)]

/-- The announcement of a download does not throw, since the count of its chunks is a number. -/
theorem Honest.announces (h : C.Honest s) (hx : C.file f = some x) : s.Announces x.manifest := by
  intro g hg
  obtain rfl : f = g := Json.str.inj (Option.some.inj ((get_fileId hx).symm.trans hg))
  refine .inr ⟨_, bitfield_eq x ((s.store.files.get? f).getD (newEntry x.manifest)) ?_ ?_⟩
  · rw [registerManifest_eq_of_get (get_fileId hx)]
    dsimp only
    rw [files_registerManifest, get?_addEntry, if_pos rfl, if_neg (notMem_inheritedNames hx)]
  · cases hentry : s.store.files.get? f with
    | none => rfl
    | some entry => exact ((h.admits hx).entry entry hentry).nbChunks

/-- No exception interrupts the event, so that it has all the effects that its handler describes. -/
theorem Honest.uninterrupted (h : C.Honest s) (he : C.Permits s e) :
    s.Uninterrupted jsonParse e := by
  cases he with
  | message _ _ hok =>
    intro f idx chunkHash signature data hdecode
    rw [FileNode.handleMessage, hdecode] at hok
    exact hok
  | download hx => exact h.announces hx
  | _ => trivial

/-! ### What is remembered

Only manifests of the catalogue are registered, so all that a node remembers of files it remembers
of these. -/

/-- What registering a manifest of the catalogue does: it becomes an own property under its
file id. -/
theorem own_register_file (hx : C.file f = some x) (k : Knowledge) :
    (k.register x.manifest).manifests.own = k.manifests.own.set f x.manifest := by
  rw [Knowledge.register, fileKey_manifest hx]
  dsimp only
  rw [JsonTable.set, if_neg (ne_proto hx)]

theorem Honest.catalogued_next (h : C.Honest s) (he : C.Permits s e) (m : Json)
    (hm : (s.next jsonParse e).manifests.own.get? f = some m) :
    ∃ x, C.file f = some x ∧ x.manifest = m := by
  have hknowledge := congrArg Knowledge.manifests (knowledge_next jsonParse s e)
  rw [show (s.next jsonParse e).manifests = _ from hknowledge] at hm
  obtain ⟨m', hm', hmanifests, -⟩ | ⟨hmanifests, -⟩ :=
    Knowledge.files_learn P jsonParse s.knowledge e
  · obtain ⟨g, x, hx, rfl⟩ := he.registers hm'
    rw [hmanifests, own_register_file hx, OrderedMap.get?_set] at hm
    split at hm
    · next hf =>
      subst hf
      exact ⟨x, hx, Option.some.inj hm⟩
    · exact h.catalogued f m hm
  · rw [hmanifests] at hm
    exact h.catalogued f m hm

theorem Honest.entries_next (h : C.Honest s) (he : C.Permits s e) (entry : StoreEntry)
    (hentry : (s.next jsonParse e).store.files.get? f = some entry) :
    ((s.next jsonParse e).manifests.own.get? f).isSome := by
  have hknowledge := knowledge_next jsonParse s e
  have hcount : ((s.knowledge.learn P jsonParse e).counts f).isSome := by
    rw [← hknowledge, knowledge]
    dsimp only
    rw [hentry]
    rfl
  have hold (hcount : (s.knowledge.counts f).isSome) : (s.manifests.own.get? f).isSome := by
    rw [knowledge, Option.isSome_map] at hcount
    obtain ⟨entry, hentry⟩ := Option.isSome_iff_exists.mp hcount
    exact h.entries f entry hentry
  have hmanifests := congrArg Knowledge.manifests hknowledge
  rw [show (s.next jsonParse e).manifests = _ from hmanifests]
  obtain ⟨m, hm, hmanifests, hcounts⟩ | ⟨hmanifests, hcounts⟩ :=
    Knowledge.files_learn P jsonParse s.knowledge e
  · obtain ⟨g, x, hx, rfl⟩ := he.registers hm
    rw [hmanifests, own_register_file hx, OrderedMap.get?_set]
    rw [hcounts, Knowledge.register, fileKey_manifest hx] at hcount
    by_cases hf : f = g
    · rw [if_pos hf]
      rfl
    · rw [if_neg hf]
      dsimp only at hcount
      rw [if_neg fun heq ↦ hf heq.1] at hcount
      exact hold hcount
  · rw [hmanifests]
    rw [hcounts] at hcount
    exact hold hcount

theorem Honest.used_next (h : C.Honest s) (peerHex : String)
    (hopen : (s.next jsonParse e).sessions.has peerHex = true) :
    (s.next jsonParse e).knowledge.Used peerHex := by
  have hknowledge := knowledge_next jsonParse s e
  rw [hknowledge]
  have hsessions : (s.next jsonParse e).sessions = _ :=
    (congrArg Knowledge.sessions hknowledge).trans Knowledge.sessions_learn
  rw [hsessions] at hopen
  cases e with
  | attach peerId =>
    dsimp only at hopen
    rw [OrderedMap.has, OrderedMap.get?_set] at hopen
    split at hopen
    · next heq => exact ⟨peerId, _, le_rfl, heq⟩
    · exact (h.used peerHex hopen).learn
  | close p rank =>
    dsimp only at hopen
    rw [OrderedMap.has, OrderedMap.get?_delete] at hopen
    split at hopen
    · cases hopen
    · exact (h.used peerHex hopen).learn
  | _ => exact (h.used peerHex hopen).learn

/-! ### Every event keeps that -/

theorem Honest.fair_next (h : C.Honest s) (he : C.Permits s e) :
    (s.next jsonParse e).OnTerms (C.Fair (s.next jsonParse e).store.chunkPath) := by
  have hplaces : (s.next jsonParse e).store.chunkPath = s.store.chunkPath :=
    funext fun g ↦ funext fun i ↦ chunkPath_congr (store_next h.kept.keyed jsonParse e).1 g i
  rw [hplaces]
  refine h.fair.next (fun session buf rank g idx chunkHash signature data d expected hmessage
    hdecode hd hexpected ↦ ?_) fun m outPath parallel rank f hdownload hid ↦ ?_
  · subst hmessage
    exact h.goodChunk he hdecode hd hexpected
  · subst hdownload
    cases he with
    | download hx _ houtput =>
      obtain rfl := Json.str.inj (Option.some.inj ((get_fileId hx).symm.trans hid))
      exact ⟨⟨_, hx, rfl⟩, rfl, houtput⟩

/-- **A node that shares files stays honest**, whatever may happen to it. -/
theorem Honest.next (hP : P.Lawful) (h : C.Honest s) (he : C.Permits s e) :
    C.Honest (s.next jsonParse e) where
  active := h.active.next jsonParse e
  saturated := h.saturated.next h.proper (h.uninterrupted he)
  timed := (h.kept.keyed.moves_next jsonParse e).timed h.timed
  proper := by
    rw [knowledge_next]
    refine h.proper.learn fun session buf rank hmessage ↦ ?_
    subst hmessage
    cases he with
    | message hsession => exact h.used _ (Option.isSome_of_eq_some hsession)
  kept := h.kept.next (h.fits hP he)
  used := h.used_next
  catalogued := fun _ m ↦ h.catalogued_next he m
  entries := fun _ entry ↦ h.entries_next he entry
  fair := h.fair_next he
  needs := h.needs.next h.kept.keyed fun m outPath parallel rank f n hdownload hid hn i hi ↦ by
    subst hdownload
    cases he with
    | @download _ x _ _ _ hx =>
      obtain rfl := Json.str.inj (Option.some.inj ((get_fileId hx).symm.trans hid))
      obtain rfl := Option.some.inj ((loopCount_manifest x).symm.trans hn)
      exact ⟨x, hx, hi⟩

/-- A node that is new, over an empty store, is honest. -/
theorem Honest.new (signKey : P.SignKey) (baseDir : Location) (disk : FileSystem) (parallel : ℕ) :
    C.Honest (.new signKey ⟨baseDir, .empty, disk⟩ parallel) where
  active f d hd := by cases hd
  saturated f d hd := by cases hd
  timed := by
    constructor
    · intro t x hx
      cases hx
    · rintro f idx r ⟨d, hd, -⟩
      cases hd
    · intro f d t hd
      cases hd
  proper := by
    constructor
    · intro peerHex f set hrecord
      cases hrecord
    · intro peerHex f set hrecord
      cases hrecord
  kept := by
    constructor
    · intro f d hd
      cases hd
    · rfl
    · intro f m hm
      cases hm
    · intro f m hm
      cases hm
    · intro f m g m' hm
      cases hm
    · intro f d hd
      cases hd
    · intro f d g m idx hd
      cases hd
  used peerHex h := by cases h
  catalogued f m hm := by cases hm
  entries f entry hentry := by cases hentry
  fair f d hd := by cases hd
  needs f d hd := by cases hd

end Catalogue

end AttestP2P
