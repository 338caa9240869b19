import AttestP2P.File.FileNode

/-!
# What a node learns from its peers

`MANIFEST` tells a node about a file, `HAVE` and `HAVE_PIECE` about the chunks that a peer has.  The
sessions deliver their messages independently of each other, and the order between them is up to the
network.  Does what the node ends up knowing depend on it?

* A `HAVE` is a bitfield, and is read with the number of chunks of the file: when the node does not
  know the file yet, the message is dropped (`announced_of_unknown`).
* `Learned`: what one message does to what the node knows.
* `ManifestsFirst`: no `HAVE` comes before a manifest that it is read with.  Then every message is
  read, when it arrives, as it would be read in the end (`settled_of_manifestsFirst`).
* `knowledge_order_independent`: any two such orders of the same messages leave the node with the
  same manifests and the same availability.
-/

set_option autoImplicit false

namespace AttestP2P

/-- A message that a session delivers, and the `rank` it meets. -/
structure Delivery where
  session : FileSession
  buf : Buffer
  rank : ℕ → ℕ

namespace FileNode

variable {P : Primitives} {jsonParse : Buffer → Option Json}

/-! ## What a message says

A bitfield is read up to the number of chunks that the node knows at that moment.  So what a message
says to a node depends on what the node has heard before. -/

variable (P jsonParse) in
/-- The manifest that a message registers, under the property that its `file_id` names. -/
def registered (buf : Buffer) : Option (String × Json) :=
  match FileProtocol.decode jsonParse buf with
  | .ok (.manifest m) =>
    if Manifest.verifyManifest P m = some true then (fileKey m).toOption.map fun key ↦ (key, m)
    else none
  | _ => none

/-- The chunks that a `HAVE` is read as: those of its bit field below the count, or none where the
file is unknown. -/
def haveChunks (s : FileNode P) (fileId : String) (bitfield : Buffer) : Finset ℕ :=
  match s.chunkCount fileId with
  | none => ∅
  | some nb => ((ChunkStore.parseBitfield bitfield (some nb)).getD []).toFinset

variable (jsonParse) in
/-- The chunks of a file that a message announces to the node. -/
def announced (s : FileNode P) (buf : Buffer) (fileId : String) : Finset ℕ :=
  match FileProtocol.decode jsonParse buf with
  | .ok (.have f bitfield) => if f = fileId then s.haveChunks f bitfield else ∅
  | .ok (.havePiece f idx) => if f = fileId then {idx} else ∅
  | _ => ∅

theorem announced_of_have {s : FileNode P} {buf bitfield : Buffer} {f : String}
    (hdecode : FileProtocol.decode jsonParse buf = .ok (.have f bitfield)) :
    s.announced jsonParse buf f = s.haveChunks f bitfield := by
  simp [announced, hdecode]

/-- **A `HAVE` about an unknown file says nothing**, and is not read again when the manifest
arrives. -/
theorem announced_of_unknown {s : FileNode P} {buf bitfield : Buffer} {fileId f : String}
    (hdecode : FileProtocol.decode jsonParse buf = .ok (.have f bitfield))
    (hunknown : s.chunkCount f = none) : s.announced jsonParse buf fileId = ∅ := by
  simp [announced, hdecode, haveChunks, hunknown]

/-! ## What a message does, when nothing is being downloaded -/

/-- The node after a message, apart from what it sends and what is on its disk. -/
structure Learned (jsonParse : Buffer → Option Json) (s : FileNode P) (peerHex : String)
    (buf : Buffer) (s' : FileNode P) : Prop where
  downloads : s'.downloads = s.downloads
  manifests : s'.manifests =
    (registered P jsonParse buf).elim s.manifests fun e ↦ s.manifests.set e.1 e.2
  files : s'.store.files =
    (registered P jsonParse buf).elim s.store.files fun e ↦ (s.store.addEntry e.1 e.2).files
  knownChunks : ∀ peer fileId, s'.knownChunks peer fileId =
    if peer = peerHex then s.knownChunks peer fileId ∪ s.announced jsonParse buf fileId
    else s.knownChunks peer fileId

theorem schedule_of_empty (s : FileNode P) (fileId : String) (rank : ℕ → ℕ)
    (h : s.downloads = .empty) : s.schedule fileId rank = s := by
  rw [schedule, h, OrderedMap.get?_empty]

/-- A message that registers no manifest and announces the given chunks of a file. -/
theorem Learned.of_addHave {s : FileNode P} {peerHex f : String} {buf : Buffer} {chunks : Finset ℕ}
    (hregistered : registered P jsonParse buf = none)
    (hannounced : ∀ fileId, s.announced jsonParse buf fileId = if f = fileId then chunks else ∅) :
    Learned jsonParse s peerHex buf (s.addHave peerHex f chunks) where
  downloads := rfl
  manifests := by rw [hregistered]; rfl
  files := by rw [hregistered]; rfl
  knownChunks peer fileId := by
    rw [knownChunks_addHave, hannounced]
    by_cases hpeer : peer = peerHex
    · by_cases hfile : fileId = f
      · rw [if_pos ⟨hpeer, hfile⟩, if_pos hpeer, if_pos hfile.symm]
      · rw [if_neg (not_and_of_not_right _ hfile), if_pos hpeer, if_neg (Ne.symm hfile),
          Finset.union_empty]
    · rw [if_neg (not_and_of_not_left _ hpeer), if_neg hpeer]

/-- A message that registers no manifest and announces nothing. -/
theorem Learned.of_same {s s' : FileNode P} {peerHex : String} {buf : Buffer}
    (hregistered : registered P jsonParse buf = none)
    (hannounced : ∀ fileId, s.announced jsonParse buf fileId = ∅)
    (hdownloads : s'.downloads = s.downloads) (hmanifests : s'.manifests = s.manifests)
    (hfiles : s'.store.files = s.store.files) (hpeerHave : s'.peerHave = s.peerHave) :
    Learned jsonParse s peerHex buf s' where
  downloads := hdownloads
  manifests := by rw [hregistered, hmanifests]; rfl
  files := by rw [hregistered, hfiles]; rfl
  knownChunks peer fileId := by
    rw [hannounced, Finset.union_empty, ite_self, FileNode.knownChunks, hpeerHave]
    rfl

/-- An accepted manifest is registered, whatever becomes of the disk. -/
theorem learned_registerManifest {s : FileNode P} {peerHex : String} {buf : Buffer} {m : Json}
    (hregistered : registered P jsonParse buf = (fileKey m).toOption.map fun key ↦ (key, m))
    (hannounced : ∀ fileId, s.announced jsonParse buf fileId = ∅) :
    Learned jsonParse s peerHex buf (s.registerManifest m).1 := by
  rw [registerManifest]
  cases hkey : fileKey m with
  | error e =>
    rw [hkey] at hregistered
    exact .of_same hregistered hannounced rfl rfl rfl rfl
  | ok key =>
    rw [hkey] at hregistered
    exact
      { downloads := rfl
        manifests := by rw [hregistered]; rfl
        files := by
          rw [hregistered]
          exact ChunkStore.files_registerManifest s.store key m
        knownChunks := fun peer fileId ↦ by
          rw [hannounced, Finset.union_empty, ite_self]
          rfl }

theorem Learned.emit {s s' : FileNode P} {peerHex : String} {buf : Buffer}
    (h : Learned jsonParse s peerHex buf s') (n : FileNotice) :
    Learned jsonParse s peerHex buf (s'.emit n) :=
  ⟨h.downloads, h.manifests, h.files, h.knownChunks⟩

theorem learned_onManifest {s : FileNode P} {peerHex : String} {buf : Buffer} {m : Json}
    (hdecode : FileProtocol.decode jsonParse buf = .ok (.manifest m)) :
    Learned jsonParse s peerHex buf (s.onManifest m).1 := by
  have hannounced : ∀ fileId, s.announced jsonParse buf fileId = ∅ := fun fileId ↦ by
    rw [announced, hdecode]
  rw [onManifest]
  cases hverify : Manifest.verifyManifest P m with
  | none =>
    have hregistered : registered P jsonParse buf = none := by
      rw [registered, hdecode]
      exact if_neg (by rw [hverify]; simp)
    exact .of_same hregistered hannounced rfl rfl rfl rfl
  | some accepted =>
    cases accepted with
    | false =>
      have hregistered : registered P jsonParse buf = none := by
        rw [registered, hdecode]
        exact if_neg (by rw [hverify]; simp)
      exact .of_same hregistered hannounced rfl rfl rfl rfl
    | true =>
      have hregistered : registered P jsonParse buf =
          (fileKey m).toOption.map fun key ↦ (key, m) := by
        rw [registered, hdecode]
        exact if_pos hverify
      have hlearned : Learned jsonParse s peerHex buf (s.registerManifest m).1 :=
        learned_registerManifest hregistered hannounced
      dsimp only
      split
      · exact hlearned
      · exact hlearned.emit _

theorem learned_onHave {s : FileNode P} (hempty : s.downloads = .empty) {session : FileSession}
    {buf bitfield : Buffer} {fileId : String} (rank : ℕ → ℕ)
    (hdecode : FileProtocol.decode jsonParse buf = .ok (.have fileId bitfield)) :
    Learned jsonParse s session.peerHex buf (s.onHave session fileId bitfield rank).1 := by
  have hregistered : registered P jsonParse buf = none := by rw [registered, hdecode]
  have hannounced : ∀ f, s.announced jsonParse buf f =
      if fileId = f then s.haveChunks fileId bitfield else ∅ := fun f ↦ by rw [announced, hdecode]
  rw [onHave]
  cases hcount : s.chunkCount fileId with
  | none =>
    refine .of_same hregistered (fun f ↦ ?_) rfl rfl rfl rfl
    exact announced_of_unknown hdecode hcount
  | some nb =>
    have hread : s.haveChunks fileId bitfield =
        ((ChunkStore.parseBitfield bitfield (some nb)).getD []).toFinset := by
      rw [haveChunks, hcount]
    rw [hread] at hannounced
    dsimp only
    cases hparse : ChunkStore.parseBitfield bitfield (some nb) with
    | none =>
      rw [hparse] at hannounced
      exact .of_addHave hregistered hannounced
    | some chunks =>
      rw [hparse] at hannounced
      have hschedule : (s.addHave session.peerHex fileId chunks.toFinset).schedule fileId rank =
          s.addHave session.peerHex fileId chunks.toFinset :=
        schedule_of_empty (s.addHave _ _ _) fileId rank hempty
      dsimp only
      rw [hschedule]
      exact .of_addHave hregistered hannounced

/-- **What a message does**, whatever it is, to a node without downloads: it registers, announces,
or changes nothing. -/
theorem learned_handleMessage {s : FileNode P} (hempty : s.downloads = .empty)
    (session : FileSession) (buf : Buffer) (rank : ℕ → ℕ) :
    Learned jsonParse s session.peerHex buf (s.handleMessage jsonParse session buf rank).1 := by
  rw [handleMessage]
  have hother : (∀ m, FileProtocol.decode jsonParse buf ≠ .ok (.manifest m)) →
      (∀ f b, FileProtocol.decode jsonParse buf ≠ .ok (.have f b)) →
      (∀ f i, FileProtocol.decode jsonParse buf ≠ .ok (.havePiece f i)) →
      registered P jsonParse buf = none ∧ ∀ fileId, s.announced jsonParse buf fileId = ∅ := by
    intro hmanifest hhave hpiece
    refine ⟨?_, fun fileId ↦ ?_⟩
    · rw [registered]
      split
      · next h => exact absurd h (hmanifest _)
      · rfl
    · rw [announced]
      split
      · next h => exact absurd h (hhave _ _)
      · next h => exact absurd h (hpiece _ _)
      · rfl
  cases hdecode : FileProtocol.decode jsonParse buf with
  | error e =>
    obtain ⟨hregistered, hannounced⟩ := hother (by simp [hdecode]) (by simp [hdecode])
      (by simp [hdecode])
    exact .of_same hregistered hannounced rfl rfl rfl rfl
  | ok message =>
    cases message with
    | manifest m => exact learned_onManifest hdecode
    | «have» fileId bitfield => exact learned_onHave hempty rank hdecode
    | havePiece fileId idx =>
      have hschedule : (s.addHave session.peerHex fileId {idx}).schedule fileId rank =
          s.addHave session.peerHex fileId {idx} :=
        schedule_of_empty (s.addHave _ _ _) fileId rank hempty
      dsimp only
      rw [hschedule]
      refine .of_addHave (by rw [registered, hdecode]) fun f ↦ ?_
      rw [announced, hdecode]
    | chunkReq fileId idx =>
      obtain ⟨hregistered, hannounced⟩ := hother (by simp [hdecode]) (by simp [hdecode])
        (by simp [hdecode])
      dsimp only
      rw [serveChunk]
      split
      · exact .of_same hregistered hannounced rfl rfl rfl rfl
      · exact .of_same hregistered hannounced rfl rfl rfl rfl
      · split
        · exact .of_same hregistered hannounced rfl rfl rfl rfl
        · exact .of_same hregistered hannounced rfl rfl rfl rfl
    | chunkData fileId idx chunkHash signature data =>
      obtain ⟨hregistered, hannounced⟩ := hother (by simp [hdecode]) (by simp [hdecode])
        (by simp [hdecode])
      dsimp only
      rw [onChunkData, hempty, OrderedMap.get?_empty]
      exact .of_same hregistered hannounced rfl rfl rfl rfl
    | ack idx status =>
      obtain ⟨hregistered, hannounced⟩ := hother (by simp [hdecode]) (by simp [hdecode])
        (by simp [hdecode])
      exact .of_same hregistered hannounced rfl rfl rfl rfl

/-! ## Runs -/

variable (jsonParse) in
/-- A session delivers a message to the node, which handles it to its end. -/
def deliver (s : FileNode P) (e : Delivery) : FileNode P :=
  (s.handleMessage jsonParse e.session e.buf e.rank).1

theorem downloads_deliveries {s : FileNode P} (hempty : s.downloads = .empty)
    (es : List Delivery) : (es.foldl (deliver jsonParse) s).downloads = .empty := by
  induction es generalizing s with
  | nil => exact hempty
  | cons e es ih =>
    exact ih ((learned_handleMessage hempty e.session e.buf e.rank).downloads.trans hempty)

variable (P jsonParse) in
/-- The manifests that a list of messages registers, in order. -/
def allRegistered (es : List Delivery) : List (String × Json) :=
  es.filterMap fun e ↦ registered P jsonParse e.buf

theorem manifests_deliveries {s : FileNode P} (hempty : s.downloads = .empty)
    (es : List Delivery) : (es.foldl (deliver jsonParse) s).manifests =
      (allRegistered P jsonParse es).foldl JsonTable.writes.write s.manifests := by
  induction es generalizing s with
  | nil => rfl
  | cons e es ih =>
    have hlearned : Learned jsonParse s e.session.peerHex e.buf (s.deliver jsonParse e) :=
      learned_handleMessage hempty e.session e.buf e.rank
    rw [List.foldl_cons, ih (hlearned.downloads.trans hempty), hlearned.manifests, allRegistered,
      allRegistered, List.filterMap_cons]
    cases registered P jsonParse e.buf with
    | none => rfl
    | some r => rfl

theorem files_deliveries {s : FileNode P} (hempty : s.downloads = .empty) (es : List Delivery) :
    (es.foldl (deliver jsonParse) s).store.files.get? =
      (allRegistered P jsonParse es).foldl ChunkStore.entryWrites.write s.store.files.get? := by
  induction es generalizing s with
  | nil => rfl
  | cons e es ih =>
    have hlearned : Learned jsonParse s e.session.peerHex e.buf (s.deliver jsonParse e) :=
      learned_handleMessage hempty e.session e.buf e.rank
    rw [List.foldl_cons, ih (hlearned.downloads.trans hempty), hlearned.files, allRegistered,
      allRegistered, List.filterMap_cons]
    cases registered P jsonParse e.buf with
    | none => rfl
    | some r =>
      have hwrite : (s.store.addEntry r.1 r.2).files.get? =
          ChunkStore.entryWrites.write s.store.files.get? r :=
        funext fun key ↦ ChunkStore.get?_addEntry
      rw [Option.elim_some, hwrite]
      rfl

theorem mem_knownChunks_deliveries {s : FileNode P} (hempty : s.downloads = .empty)
    {es : List Delivery} {peer fileId : String} {idx : ℕ} :
    idx ∈ (es.foldl (deliver jsonParse) s).knownChunks peer fileId ↔
      idx ∈ s.knownChunks peer fileId ∨ ∃ es₁ e es₂, es = es₁ ++ e :: es₂ ∧
        e.session.peerHex = peer ∧
        idx ∈ (es₁.foldl (deliver jsonParse) s).announced jsonParse e.buf fileId := by
  induction es generalizing s with
  | nil => simp
  | cons e es ih =>
    have hlearned : Learned jsonParse s e.session.peerHex e.buf (s.deliver jsonParse e) :=
      learned_handleMessage hempty e.session e.buf e.rank
    have hfirst : idx ∈ (s.deliver jsonParse e).knownChunks peer fileId ↔
        idx ∈ s.knownChunks peer fileId ∨
          e.session.peerHex = peer ∧ idx ∈ s.announced jsonParse e.buf fileId := by
      rw [hlearned.knownChunks]
      by_cases hpeer : peer = e.session.peerHex
      · rw [if_pos hpeer, Finset.mem_union, and_iff_right hpeer.symm]
      · rw [if_neg hpeer, or_iff_left fun h ↦ hpeer h.1.symm]
    rw [List.foldl_cons, ih (hlearned.downloads.trans hempty), hfirst, or_assoc]
    refine or_congr_right ⟨?_, ?_⟩
    · rintro (⟨hpeer, hidx⟩ | ⟨es₁, e', es₂, rfl, hpeer, hidx⟩)
      · exact ⟨[], e, es, rfl, hpeer, hidx⟩
      · exact ⟨e :: es₁, e', es₂, rfl, hpeer, hidx⟩
    · rintro ⟨es₁, e', es₂, hes, hpeer, hidx⟩
      rcases List.cons_eq_append_iff.mp hes with ⟨rfl, hes⟩ | ⟨es₁, rfl, rfl⟩
      · obtain ⟨rfl, -⟩ := List.cons.inj hes
        exact .inl ⟨hpeer, hidx⟩
      · exact .inr ⟨es₁, e', es₂, rfl, hpeer, hidx⟩

/-! ## Order

Two orders of the same messages, each session's own order being kept, leave the same knowledge
behind if in both of them the manifests come before whatever is read with their help. -/

/-- The two nodes know the same: the same manifests under the same keys, and the same chunks of
every peer. -/
structure SameKnowledge (s t : FileNode P) : Prop where
  manifests : ∀ key, s.manifests.stored key = t.manifests.stored key
  knownChunks : ∀ peer fileId, s.knownChunks peer fileId = t.knownChunks peer fileId

/-- The messages of a session, in the order in which they were delivered. -/
def messagesOf (session : FileSession) (es : List Delivery) : List Buffer :=
  (es.filter fun e ↦ e.session = session).map Delivery.buf

variable (P jsonParse) in
/-- No file has two manifests among the messages, so that it does not matter which comes last. -/
def OneManifest (es : List Delivery) : Prop :=
  ∀ key m m', (key, m) ∈ allRegistered P jsonParse es →
    (key, m') ∈ allRegistered P jsonParse es → m' = m

variable (jsonParse) in
/-- No manifest that a `HAVE` is read with comes after it, unless the node has got it already.  Next
to the manifest of the file this is one that goes by the name of `__proto__`. -/
def ManifestsFirst (s : FileNode P) (es : List Delivery) : Prop :=
  ∀ es₁ e es₂, es = es₁ ++ e :: es₂ → ∀ f bitfield,
    FileProtocol.decode jsonParse e.buf = .ok (.have f bitfield) →
    ∀ key m, key = f ∨ key = "__proto__" → (key, m) ∈ allRegistered P jsonParse es₂ →
      (key, m) ∈ allRegistered P jsonParse es₁ ∨ s.manifests.stored key = some m

variable (jsonParse) in
/-- Every message is read, when it arrives, as it would be read in the end. -/
def Settled (s : FileNode P) (es : List Delivery) : Prop :=
  ∀ es₁ e es₂, es = es₁ ++ e :: es₂ → ∀ fileId,
    (es₁.foldl (deliver jsonParse) s).announced jsonParse e.buf fileId =
      (es.foldl (deliver jsonParse) s).announced jsonParse e.buf fileId

/-! ### What a manifest leaves behind -/

theorem of_mem_allRegistered {es : List Delivery} {key : String} {m : Json}
    (h : (key, m) ∈ allRegistered P jsonParse es) : ∃ e ∈ es,
      FileProtocol.decode jsonParse e.buf = .ok (.manifest m) ∧
        Manifest.verifyManifest P m = some true := by
  obtain ⟨e, hmem, he⟩ := List.mem_filterMap.mp h
  rw [registered] at he
  split at he
  · next m' hdecode =>
    split at he
    · next hverify =>
      obtain ⟨key', -, heq⟩ := Option.map_eq_some_iff.mp he
      obtain ⟨-, rfl⟩ := Prod.mk.inj heq
      exact ⟨e, hmem, hdecode, hverify⟩
    · exact absurd he (by simp)
  · exact absurd he (by simp)

/-- What is registered is an object, which counts as true where the source asks for a manifest. -/
theorem truthy_of_mem_allRegistered {es : List Delivery} {key : String} {m : Json}
    (h : (key, m) ∈ allRegistered P jsonParse es) : m.truthy = true := by
  obtain ⟨e, -, -, hverify⟩ := of_mem_allRegistered h
  obtain ⟨fileId, hfile, -⟩ := Manifest.fileId_of_verifyManifest hverify
  exact Json.truthy_of_get hfile

/-- Manifests that are there already leave what is there. -/
theorem stored_deliveries_of_absorbed {s : FileNode P} (hempty : s.downloads = .empty)
    {es : List Delivery} {key : String}
    (h : ∀ m, (key, m) ∈ allRegistered P jsonParse es → s.manifests.stored key = some m) :
    (es.foldl (deliver jsonParse) s).manifests.stored key = s.manifests.stored key := by
  rw [manifests_deliveries hempty]
  exact JsonTable.writes.read_foldl_of_absorbed fun m hm ↦ (h m hm).symm

/-- A manifest that has come, or that was there and is the only one to come, is there. -/
theorem stored_deliveries {s : FileNode P} (hempty : s.downloads = .empty) {es : List Delivery}
    {key : String} {m : Json}
    (h : (key, m) ∈ allRegistered P jsonParse es ∨ s.manifests.stored key = some m)
    (hone : ∀ m', (key, m') ∈ allRegistered P jsonParse es → m' = m) :
    (es.foldl (deliver jsonParse) s).manifests.stored key = some m := by
  by_cases hmem : (key, m) ∈ allRegistered P jsonParse es
  · rw [manifests_deliveries hempty]
    exact JsonTable.writes.read_foldl_of_mem hmem hone
  · have hstart : s.manifests.stored key = some m := h.resolve_left hmem
    rw [stored_deliveries_of_absorbed hempty fun m' hm' ↦ by rw [hstart, hone m' hm'], hstart]

/-- Manifests of other files leave the entry of a file. -/
theorem files_deliveries_of_notMem {s : FileNode P} (hempty : s.downloads = .empty)
    {es : List Delivery} {key : String} (h : ∀ m, (key, m) ∉ allRegistered P jsonParse es) :
    (es.foldl (deliver jsonParse) s).store.files.get? key = s.store.files.get? key := by
  rw [files_deliveries hempty]
  exact ChunkStore.entryWrites.read_foldl_of_absorbed fun m hm ↦ absurd hm (h m)

/-! ### What a `HAVE` is read with

The number of chunks comes from the manifest that was registered last, or from the entry that the
first one has made. -/

theorem chunkCount_congr {s t : FileNode P} {fileId : String}
    (hmanifests : s.manifests.get fileId = t.manifests.get fileId)
    (hfiles : (s.manifests.get fileId).filter Json.truthy = none →
      s.store.files.get? fileId = t.store.files.get? fileId) :
    s.chunkCount fileId = t.chunkCount fileId := by
  rw [chunkCount, chunkCount, ← hmanifests]
  cases hget : (s.manifests.get fileId).filter Json.truthy with
  | some m => rfl
  | none =>
    rw [ChunkStore.lookup, ChunkStore.lookup, hfiles hget]

/-- What a message announces depends on the number of chunks of the file that it is about. -/
theorem announced_congr {s t : FileNode P} {buf : Buffer}
    (h : ∀ f bitfield, FileProtocol.decode jsonParse buf = .ok (.have f bitfield) →
      s.chunkCount f = t.chunkCount f) (fileId : String) :
    s.announced jsonParse buf fileId = t.announced jsonParse buf fileId := by
  rw [announced, announced]
  split
  · next f bitfield hdecode => rw [haveChunks, haveChunks, h f bitfield hdecode]
  · rfl
  · rfl

/-- **Manifests first, and every message is read as in the end.** -/
theorem settled_of_manifestsFirst {s : FileNode P} (hempty : s.downloads = .empty)
    {es : List Delivery} (hone : OneManifest P jsonParse es) (h : ManifestsFirst jsonParse s es) :
    Settled jsonParse s es := by
  intro es₁ e es₂ hes fileId
  refine announced_congr (fun f bitfield hdecode ↦ ?_) fileId
  have hempty₁ : (es₁.foldl (deliver jsonParse) s).downloads = .empty :=
    downloads_deliveries hempty es₁
  have hrun : es.foldl (deliver jsonParse) s =
      (e :: es₂).foldl (deliver jsonParse) (es₁.foldl (deliver jsonParse) s) := by
    rw [hes, List.foldl_append]
  have hrest : allRegistered P jsonParse (e :: es₂) = allRegistered P jsonParse es₂ :=
    List.filterMap_cons_none (by rw [registered, hdecode])
  have hsplit : allRegistered P jsonParse es =
      allRegistered P jsonParse es₁ ++ allRegistered P jsonParse es₂ := by
    rw [hes, ← hrest]
    exact List.filterMap_append
  -- what is still to come is there already
  have hthere : ∀ key m, key = f ∨ key = "__proto__" → (key, m) ∈ allRegistered P jsonParse es₂ →
      (es₁.foldl (deliver jsonParse) s).manifests.stored key = some m := fun key m hkey hm ↦ by
    refine stored_deliveries hempty (h es₁ e es₂ hes f bitfield hdecode key m hkey hm)
      fun m' hm' ↦ ?_
    refine hone key m m' ?_ ?_
    · rw [hsplit]
      exact List.mem_append_right _ hm
    · rw [hsplit]
      exact List.mem_append_left _ hm'
  have hstored : ∀ key, key = f ∨ key = "__proto__" →
      (es.foldl (deliver jsonParse) s).manifests.stored key =
        (es₁.foldl (deliver jsonParse) s).manifests.stored key := fun key hkey ↦ by
    rw [hrun]
    refine stored_deliveries_of_absorbed hempty₁ fun m hm ↦ hthere key m hkey ?_
    rwa [hrest] at hm
  have hget : (es₁.foldl (deliver jsonParse) s).manifests.get f =
      (es.foldl (deliver jsonParse) s).manifests.get f := by
    rw [JsonTable.get_eq_stored, JsonTable.get_eq_stored, hstored f (.inl rfl),
      hstored "__proto__" (.inr rfl)]
  refine chunkCount_congr hget fun hnone ↦ ?_
  rw [hrun]
  -- a manifest of the file that is still to come would be there, and would be read
  refine (files_deliveries_of_notMem hempty₁ fun m hm ↦ ?_).symm
  have hfound : (es₁.foldl (deliver jsonParse) s).manifests.get f = some m := by
    rw [JsonTable.get_eq_stored, hthere f m (.inl rfl) (by rwa [hrest] at hm), Option.some_or]
  rw [hfound, Option.filter_some, if_pos (truthy_of_mem_allRegistered hm)] at hnone
  exact absurd hnone (by simp)

/-! ### Two orders -/

theorem mem_messagesOf {es : List Delivery} {session : FileSession} {buf : Buffer} :
    buf ∈ messagesOf session es ↔ ∃ e ∈ es, e.session = session ∧ e.buf = buf := by
  simp [messagesOf, and_assoc]

/-- Every message of one order is in the other. -/
theorem exists_of_messagesOf {es es' : List Delivery}
    (hsame : ∀ session, messagesOf session es = messagesOf session es') {e : Delivery}
    (he : e ∈ es) : ∃ e' ∈ es', e'.session = e.session ∧ e'.buf = e.buf :=
  mem_messagesOf.mp (hsame e.session ▸ mem_messagesOf.mpr ⟨e, he, rfl, rfl⟩)

theorem mem_allRegistered_of_messagesOf {es es' : List Delivery}
    (hsame : ∀ session, messagesOf session es = messagesOf session es') {r : String × Json}
    (h : r ∈ allRegistered P jsonParse es) : r ∈ allRegistered P jsonParse es' := by
  obtain ⟨e, he, hr⟩ := List.mem_filterMap.mp h
  obtain ⟨e', he', -, hbuf⟩ := exists_of_messagesOf hsame he
  exact List.mem_filterMap.mpr ⟨e', he', by rw [hbuf, hr]⟩

/-- A chunk that is known in one order is known in the other, when the messages are read alike. -/
theorem mem_knownChunks_of_settled {s : FileNode P} (hempty : s.downloads = .empty)
    {es es' : List Delivery} (hsame : ∀ session, messagesOf session es = messagesOf session es')
    (h : Settled jsonParse s es) (h' : Settled jsonParse s es')
    (hread : ∀ buf fileId, (es.foldl (deliver jsonParse) s).announced jsonParse buf fileId =
      (es'.foldl (deliver jsonParse) s).announced jsonParse buf fileId)
    {peer fileId : String} {idx : ℕ}
    (hidx : idx ∈ (es.foldl (deliver jsonParse) s).knownChunks peer fileId) :
    idx ∈ (es'.foldl (deliver jsonParse) s).knownChunks peer fileId := by
  refine (mem_knownChunks_deliveries hempty).mpr ?_
  refine ((mem_knownChunks_deliveries hempty).mp hidx).imp_right ?_
  rintro ⟨es₁, e, es₂, hes, hpeer, hidx⟩
  obtain ⟨e', he', hsession, hbuf⟩ := exists_of_messagesOf hsame (e := e) (by rw [hes]; simp)
  obtain ⟨es₁', es₂', hes'⟩ := List.append_of_mem he'
  refine ⟨es₁', e', es₂', hes', by rw [hsession, hpeer], ?_⟩
  rw [h' es₁' e' es₂' hes', hbuf, ← hread, ← h es₁ e es₂ hes]
  exact hidx

/-- **What a node knows does not depend on the order of arrival**, when the manifests come first.
Two orders that deliver the messages of each session in its own order, and in which no file has two
manifests and no `HAVE` comes before a manifest that it is read with, lead to the same manifests and
to the same availability. -/
theorem knowledge_order_independent {s : FileNode P} (hempty : s.downloads = .empty)
    {es es' : List Delivery}
    (hsame : ∀ session, messagesOf session es = messagesOf session es')
    (hone : OneManifest P jsonParse es)
    (h : ManifestsFirst jsonParse s es) (h' : ManifestsFirst jsonParse s es') :
    SameKnowledge (es.foldl (deliver jsonParse) s) (es'.foldl (deliver jsonParse) s) := by
  have hmem : ∀ r, r ∈ allRegistered P jsonParse es ↔ r ∈ allRegistered P jsonParse es' := fun r ↦
    ⟨mem_allRegistered_of_messagesOf hsame,
      mem_allRegistered_of_messagesOf fun session ↦ (hsame session).symm⟩
  have hone' : OneManifest P jsonParse es' := fun key m m' hm hm' ↦
    hone key m m' ((hmem _).mpr hm) ((hmem _).mpr hm')
  have hstored : ∀ key, (es.foldl (deliver jsonParse) s).manifests.stored key =
      (es'.foldl (deliver jsonParse) s).manifests.stored key := fun key ↦ by
    rw [manifests_deliveries hempty, manifests_deliveries hempty]
    exact JsonTable.writes.read_foldl_congr hmem hone s.manifests key
  have hfiles : ∀ key, (es.foldl (deliver jsonParse) s).store.files.get? key =
      (es'.foldl (deliver jsonParse) s).store.files.get? key := fun key ↦ by
    rw [files_deliveries hempty, files_deliveries hempty]
    exact ChunkStore.entryWrites.read_foldl_congr hmem hone s.store.files.get? key
  have hread : ∀ buf fileId,
      (es.foldl (deliver jsonParse) s).announced jsonParse buf fileId =
        (es'.foldl (deliver jsonParse) s).announced jsonParse buf fileId := fun buf ↦
    announced_congr fun f _ _ ↦ chunkCount_congr
      (by rw [JsonTable.get_eq_stored, JsonTable.get_eq_stored, hstored, hstored])
      fun _ ↦ hfiles f
  have hsettled : Settled jsonParse s es := settled_of_manifestsFirst hempty hone h
  have hsettled' : Settled jsonParse s es' := settled_of_manifestsFirst hempty hone' h'
  refine ⟨hstored, fun peer fileId ↦ Finset.ext fun idx ↦ ⟨?_, ?_⟩⟩
  · exact mem_knownChunks_of_settled hempty hsame hsettled hsettled' hread
  · exact mem_knownChunks_of_settled hempty (fun session ↦ (hsame session).symm) hsettled' hsettled
      fun buf f ↦ (hread buf f).symm

/-! ### A bitfield that comes too early -/

open Manifest in
/-- `JSON.parse`, as far as it goes here: it reads the one manifest of the sample. -/
def sampleParse (raw : Buffer) : Option Json :=
  if raw = Json.utf8 (sampleManifest.stringify "" "") then some sampleManifest else none

/-- A node that has just started, without files and without anything on its disk. -/
def sampleStart : FileNode Manifest.samplePrimitives :=
  new () { baseDir := ["data", "chunks"], files := .empty, disk := fun _ ↦ none } 8

/-- The node with two sessions, of two different peers. -/
def sampleNode : FileNode Manifest.samplePrimitives :=
  ((sampleStart.attachSession [1]).1.attachSession [2]).1

/-- A peer that has the file says so, in a `HAVE` with its only bit set. -/
def sampleHave : Delivery :=
  ⟨⟨"01#1", [1]⟩, FileProtocol.encHave Manifest.sampleFileId.hex [0x80], fun _ ↦ 0⟩

/-- Another peer tells about the file, and sends its manifest. -/
def sampleTold : Delivery :=
  ⟨⟨"02#2", [2]⟩, FileProtocol.encManifest Manifest.sampleManifest, fun _ ↦ 0⟩

theorem downloads_sampleNode : sampleNode.downloads = .empty := by
  obtain ⟨_, hattach⟩ := attachSession_eq (sampleStart.attachSession [1]).1 [2]
  obtain ⟨_, hattach'⟩ := attachSession_eq sampleStart [1]
  rw [sampleNode, hattach, hattach']
  rfl

theorem knownChunks_sampleNode {peer fileId : String} :
    sampleNode.knownChunks peer fileId = ∅ := by
  rw [sampleNode, knownChunks_attachSession, knownChunks_attachSession]
  rfl

theorem chunkCount_sampleNode : sampleNode.chunkCount Manifest.sampleFileId.hex = none := by
  have hget : ∀ key, JsonTable.empty.get key = none := fun key ↦ by
    rw [JsonTable.get]
    split <;> rfl
  have hlookup : sampleStart.store.lookup Manifest.sampleFileId.hex = .absent := by
    have hfiles : sampleStart.store.files = .empty := rfl
    rw [ChunkStore.lookup, hfiles, OrderedMap.get?_empty]
    exact if_neg (hex_notMem_inheritedNames _)
  obtain ⟨_, hattach⟩ := attachSession_eq (sampleStart.attachSession [1]).1 [2]
  obtain ⟨_, hattach'⟩ := attachSession_eq sampleStart [1]
  have hcount : sampleNode.chunkCount Manifest.sampleFileId.hex =
      sampleStart.chunkCount Manifest.sampleFileId.hex := by
    rw [sampleNode, hattach, hattach']
    rfl
  have hmanifests : sampleStart.manifests = .empty := rfl
  rw [hcount, chunkCount, hmanifests, hget, hlookup]
  rfl

theorem decode_sampleHave : FileProtocol.decode sampleParse sampleHave.buf =
    .ok (.have Manifest.sampleFileId.hex [0x80]) := FileProtocol.decode_encHave rfl _

theorem decode_sampleTold : FileProtocol.decode sampleParse sampleTold.buf =
    .ok (.manifest Manifest.sampleManifest) :=
  FileProtocol.decode_encManifest (by rw [sampleParse, if_pos rfl])

theorem registered_sampleTold : registered Manifest.samplePrimitives sampleParse sampleTold.buf =
    some (Manifest.sampleFileId.hex, Manifest.sampleManifest) := by
  rw [registered, decode_sampleTold]
  dsimp only
  rw [if_pos Manifest.verifyManifest_sampleManifest]
  rfl

theorem oneManifest_sample (es : List Delivery) :
    OneManifest Manifest.samplePrimitives sampleParse es := by
  have hsample : ∀ key m, (key, m) ∈ allRegistered Manifest.samplePrimitives sampleParse es →
      m = Manifest.sampleManifest := fun key m h ↦ by
    obtain ⟨e, -, hdecode, -⟩ := of_mem_allRegistered h
    obtain ⟨raw, hraw⟩ := FileProtocol.jsonParse_of_decode hdecode
    rw [sampleParse] at hraw
    split at hraw
    · exact (Option.some.inj hraw).symm
    · exact absurd hraw (by simp)
  exact fun key m m' hm hm' ↦ (hsample key m' hm').trans (hsample key m hm).symm

theorem chunkCount_sampleTold :
    ([sampleTold].foldl (deliver sampleParse) sampleNode).chunkCount Manifest.sampleFileId.hex =
      some (.num (.ofNat 1)) := by
  have hmem : (Manifest.sampleFileId.hex, Manifest.sampleManifest) ∈
      allRegistered Manifest.samplePrimitives sampleParse [sampleTold] :=
    List.mem_filterMap.mpr ⟨sampleTold, List.mem_singleton_self _, registered_sampleTold⟩
  have hstored := stored_deliveries downloads_sampleNode (.inl hmem)
    fun m' hm' ↦ oneManifest_sample _ _ _ _ hmem hm'
  have htruthy : Json.truthy Manifest.sampleManifest = true := rfl
  rw [chunkCount, JsonTable.get_eq_stored, hstored, Option.some_or, Option.filter_some,
    if_pos htruthy]
  rfl

/-- The orders in which two messages of two sessions arrive. -/
theorem messagesOf_swap {e e' : Delivery} (hne : e.session ≠ e'.session) (session : FileSession) :
    messagesOf session [e, e'] = messagesOf session [e', e] := by
  by_cases h : e.session = session
  · subst h
    simp [messagesOf, Ne.symm hne]
  · simp [messagesOf, List.filter_cons, h]

/-- A message that says nothing, and one of another peer, leave a chunk unknown. -/
theorem notMem_knownChunks_of_early {s : FileNode P} (hempty : s.downloads = .empty)
    {e e' : Delivery} {fileId : String} {idx : ℕ} (hne : e.session.peerHex ≠ e'.session.peerHex)
    (hstart : idx ∉ s.knownChunks e.session.peerHex fileId)
    (he : s.announced jsonParse e.buf fileId = ∅) :
    idx ∉ ([e, e'].foldl (deliver jsonParse) s).knownChunks e.session.peerHex fileId := by
  have hlearned : Learned jsonParse s e.session.peerHex e.buf (s.deliver jsonParse e) :=
    learned_handleMessage hempty e.session e.buf e.rank
  have hlearned' : Learned jsonParse (s.deliver jsonParse e) e'.session.peerHex e'.buf
      ((s.deliver jsonParse e).deliver jsonParse e') :=
    learned_handleMessage (hlearned.downloads.trans hempty) e'.session e'.buf e'.rank
  rw [List.foldl_cons, List.foldl_cons, List.foldl_nil, hlearned'.knownChunks, if_neg hne,
    hlearned.knownChunks, if_pos rfl, he, Finset.union_empty]
  exact hstart

/-- In one of the two orders, nobody is known to have the file. -/
theorem early_have_lost :
    sampleNode.downloads = .empty ∧
    (∀ session, messagesOf session [sampleHave, sampleTold] =
      messagesOf session [sampleTold, sampleHave]) ∧
    OneManifest Manifest.samplePrimitives sampleParse [sampleHave, sampleTold] ∧
    ¬ SameKnowledge ([sampleHave, sampleTold].foldl (deliver sampleParse) sampleNode)
      ([sampleTold, sampleHave].foldl (deliver sampleParse) sampleNode) := by
  refine ⟨downloads_sampleNode, messagesOf_swap (by decide), oneManifest_sample _, fun hsame ↦ ?_⟩
  have hne : sampleHave.session.peerHex ≠ sampleTold.session.peerHex := by decide
  have hstart : 0 ∉ sampleNode.knownChunks sampleHave.session.peerHex
      Manifest.sampleFileId.hex := by
    rw [knownChunks_sampleNode]
    exact Finset.notMem_empty 0
  refine notMem_knownChunks_of_early downloads_sampleNode hne hstart
    (announced_of_unknown decode_sampleHave chunkCount_sampleNode) ?_
  rw [hsame.knownChunks, mem_knownChunks_deliveries downloads_sampleNode]
  refine .inr ⟨[sampleTold], sampleHave, [], rfl, rfl, ?_⟩
  rw [announced_of_have decode_sampleHave, haveChunks, chunkCount_sampleTold]
  decide +kernel

/-- The peer that tells about the file has it, too. -/
def sampleOther : Delivery := { sampleHave with session := sampleTold.session }

theorem manifestsFirst_sample {e e' : Delivery}
    (he : registered Manifest.samplePrimitives sampleParse e.buf = none)
    (he' : registered Manifest.samplePrimitives sampleParse e'.buf = none) :
    ManifestsFirst sampleParse sampleNode [sampleTold, e, e'] := by
  intro es₁ d es₂ hes f bitfield hdecode key m _ hm
  rcases List.cons_eq_append_iff.mp hes with ⟨rfl, hhead⟩ | ⟨es₁, rfl, htail⟩
  · obtain ⟨rfl, -⟩ := List.cons.inj hhead
    rw [decode_sampleTold] at hdecode
    exact absurd hdecode (by simp)
  · have hes₂ : es₂.Sublist [e, e'] := by
      rw [htail]
      exact (List.sublist_cons_self d es₂).trans (List.sublist_append_right es₁ _)
    obtain ⟨a, ha, hreg⟩ := List.mem_filterMap.mp hm
    rcases List.mem_pair.mp (hes₂.subset ha) with rfl | rfl
    · rw [he] at hreg
      exact absurd hreg (by simp)
    · rw [he'] at hreg
      exact absurd hreg (by simp)

theorem knowledge_sample :
    SameKnowledge ([sampleTold, sampleHave, sampleOther].foldl (deliver sampleParse) sampleNode)
      ([sampleTold, sampleOther, sampleHave].foldl (deliver sampleParse) sampleNode) := by
  have hnone : registered Manifest.samplePrimitives sampleParse sampleHave.buf = none := by
    rw [registered, decode_sampleHave]
  refine knowledge_order_independent downloads_sampleNode (fun session ↦ ?_) (oneManifest_sample _)
    (manifestsFirst_sample hnone hnone) (manifestsFirst_sample hnone hnone)
  have hcons : ∀ e es, messagesOf session (e :: es) =
      messagesOf session [e] ++ messagesOf session es := fun e es ↦ by
    rw [messagesOf, messagesOf, messagesOf, ← List.map_append, ← List.filter_append]
    rfl
  have hswap : messagesOf session [sampleHave, sampleOther] =
      messagesOf session [sampleOther, sampleHave] := messagesOf_swap (by decide) session
  rw [hcons, hswap, ← hcons]

end FileNode

end AttestP2P
