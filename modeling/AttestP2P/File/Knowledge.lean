import AttestP2P.File.Effects
import AttestP2P.File.Scheduler
import AttestP2P.File.StoredFile

/-!
# What a node remembers of its peers

Which files a node knows, and which of their chunks it takes its peers to have, can be told without
its downloads, timers and disk.

* `Knowledge` is what there is to remember: the sessions, the manifests, the numbers of chunks in
  the index, and the record of each peer.  `Knowledge.learn` is what an event adds.
* `knowledge_next`: the node does with its knowledge what `learn` says.  All handlers are gone
  through for that, and nothing after it looks into them again.
* `bounded_iff`: what is remembered of the peers stays within the known files, exactly if no peer
  announces a chunk that there is not and no manifest takes chunks away.

The condition of the last one is on each event and the state before it.  A HAVE cannot break it,
since the bitfield is read up to the number of chunks that is known; a HAVE_PIECE names any file and
any chunk, and is believed.  A manifest that replaces another one of the same file can announce
fewer chunks than peers are recorded with.
-/

set_option autoImplicit false

namespace AttestP2P

/-- `i < n`, JavaScript's comparison of an index with any number. -/
def Number.exceeds : Number → ℕ → Bool
  | .nan, _ => false
  | .infinity negative, _ => !negative
  | .finite q, i => decide ((i : ℚ) < q)

/-- `i < nb`, where `nb` is any value of a manifest, which the comparison makes a number first. -/
def Json.exceeds (nb : Json) (i : ℕ) : Bool := nb.toNumber.any fun n ↦ n.exceeds i

theorem exceeds_of_loopCount {nb : Json} {n i : ℕ} (hn : loopCount (some nb) = some n)
    (hi : i < n) : nb.exceeds i = true := by
  obtain ⟨v, hv, hcount⟩ := Option.bind_eq_some_iff.mp hn
  rw [Json.exceeds, hv, Option.any_some]
  cases v with
  | nan =>
    obtain rfl := Option.some.inj hcount
    exact absurd hi (Nat.not_lt_zero i)
  | infinity negative =>
    cases negative with
    | false => rfl
    | true =>
      obtain rfl := Option.some.inj hcount
      exact absurd hi (Nat.not_lt_zero i)
  | finite q =>
    obtain rfl := Option.some.inj hcount
    exact decide_eq_true (Nat.lt_ceil.mp hi)

/-- What a node remembers of files and peers, apart from its downloads: the part of its state that
an announcement changes. -/
structure Knowledge where
  sessions : OrderedMap String Buffer
  seq : ℕ
  peerHave : Availability
  manifests : JsonTable
  /-- The `nb_chunks` of the files in the index. -/
  counts : String → Option (Option Json)

namespace Knowledge

/-- The number of chunks of a file that has the given manifest and the given entry. -/
def countOf (manifest : Option Json) (entry : Option (Option Json)) : Option Json :=
  ((manifest.filter Json.truthy).elim entry.join (·.get "nb_chunks")).filter
    fun v ↦ !(v matches .null)

def chunkCount (k : Knowledge) (f : String) : Option Json :=
  countOf (k.manifests.get f) (k.counts f)

/-- `peerHave.get(peerHex).get(f)`: the set of a peer and a file, if there is one. -/
def record (k : Knowledge) (peerHex f : String) : Option (Finset ℕ) :=
  (k.peerHave.get? peerHex).bind (·.get? f)

/-! ## What is learned

One function for each kind of event, on the part of the state that they are about.  A manifest is
registered, a bitfield or a piece is added to the record of a peer, a session comes and goes. -/

def attach (k : Knowledge) (peerId : Buffer) : Knowledge :=
  let peerHex := peerId.hex ++ "#" ++ Nat.repr (k.seq + 1)
  { k with
    seq := k.seq + 1
    sessions := k.sessions.set peerHex peerId
    peerHave := k.peerHave.set peerHex ((k.peerHave.get? peerHex).getD .empty) }

def close (k : Knowledge) (peerHex : String) : Knowledge :=
  { k with sessions := k.sessions.delete peerHex, peerHave := k.peerHave.delete peerHex }

def addHave (k : Knowledge) (peerHex f : String) (chunks : Finset ℕ) : Knowledge :=
  let byFile := (k.peerHave.get? peerHex).getD .empty
  { k with peerHave := k.peerHave.set peerHex (byFile.set f ((byFile.get? f).getD ∅ ∪ chunks)) }

def onHave (k : Knowledge) (peerHex f : String) (bitfield : Buffer) : Knowledge :=
  match k.chunkCount f with
  | none => k
  | some nb =>
    k.addHave peerHex f ((ChunkStore.parseBitfield bitfield (some nb)).getD []).toFinset

def register (k : Knowledge) (m : Json) : Knowledge :=
  match FileNode.fileKey m with
  | .error _ => k
  | .ok key =>
    { k with
      manifests := k.manifests.set key m
      counts := fun f ↦
        if f = key ∧ f ∉ inheritedNames then some ((k.counts f).getD (m.get "nb_chunks"))
        else k.counts f }

/-- What an event adds to the knowledge of a node, computed from the event and the knowledge
alone. -/
def learn (P : Primitives) (jsonParse : Buffer → Option Json) (k : Knowledge) :
    FileEvent → Knowledge
  | .attach peerId => k.attach peerId
  | .message session buf _ =>
    match FileProtocol.decode jsonParse buf with
    | .ok (.manifest m) => if Manifest.verifyManifest P m = some true then k.register m else k
    | .ok (.have f bitfield) => k.onHave session.peerHex f bitfield
    | .ok (.havePiece f idx) => k.addHave session.peerHex f {idx}
    | _ => k
  | .close peerHex _ => k.close peerHex
  | .timer _ _ => k
  | .download m _ _ _ | .seed m _ => k.register m

end Knowledge

namespace FileNode

variable {P : Primitives} {s s' : FileNode P}

/-! ## The node learns that, and nothing else

Downloads, timers and the disk take no part in it: whatever a handler does to these, what is
remembered is the same before and after. -/

def knowledge (s : FileNode P) : Knowledge where
  sessions := s.sessions
  seq := s.seq
  peerHave := s.peerHave
  manifests := s.manifests
  counts f := (s.store.files.get? f).map StoreEntry.nbChunks

theorem chunkCount_knowledge (s : FileNode P) (f : String) :
    s.knowledge.chunkCount f = s.chunkCount f := by
  rw [Knowledge.chunkCount, Knowledge.countOf, FileNode.chunkCount]
  dsimp only [knowledge]
  cases (s.manifests.get f).filter Json.truthy with
  | some m => rfl
  | none =>
    dsimp only
    rw [ChunkStore.lookup]
    cases s.store.files.get? f with
    | some e => rfl
    | none => by_cases hinherited : f ∈ inheritedNames <;> simp [hinherited]

theorem knowledge_of_store (s : FileNode P) (store : ChunkStore)
    (h : ∀ f, (store.files.get? f).map StoreEntry.nbChunks =
      (s.store.files.get? f).map StoreEntry.nbChunks) :
    knowledge { s with store := store } = s.knowledge := by
  rw [knowledge, knowledge, Knowledge.mk.injEq]
  exact ⟨rfl, rfl, rfl, rfl, funext h⟩

theorem knowledge_clearTimers {α : Type} (s : FileNode P) (timer : α → ℕ) (l : List α) :
    (l.foldl (fun s a ↦ s.clearTimer (timer a)) s).knowledge = s.knowledge := by
  induction l generalizing s with
  | nil => rfl
  | cons a l ih => exact ih (s.clearTimer (timer a))

theorem knowledge_requestAll (s : FileNode P) (d : Download) (idxs : List ℕ) :
    (s.requestAll d idxs).knowledge = s.knowledge := by
  induction idxs generalizing s d with
  | nil => rfl
  | cons idx idxs ih =>
    rw [requestAll]
    split
    · rfl
    · split
      · exact ih s d
      · split
        · exact ih s d
        · exact ih _ _

@[simp] theorem knowledge_schedule (s : FileNode P) (f : String) (rank : ℕ → ℕ) :
    (s.schedule f rank).knowledge = s.knowledge := by
  rw [schedule]
  split
  · rfl
  · split
    · rfl
    · exact knowledge_requestAll ..

theorem knowledge_release (s : FileNode P) (d : Download) (idx : ℕ) :
    (s.release d idx).knowledge = s.knowledge := by
  rw [release]
  split
  · rfl
  · rfl

theorem knowledge_fire (s : FileNode P) (t : ℕ) (rank : ℕ → ℕ) :
    (s.fire t rank).knowledge = s.knowledge := by
  rw [fire]
  split
  · rfl
  · rw [onTimeout]
    split
    · rfl
    · split
      · rw [knowledge_schedule, knowledge_release]
        rfl
      · rfl
  · exact knowledge_schedule ..

theorem knowledge_settle (s : FileNode P) (p : ℕ) (r : Settlement) :
    (s.settle p r).knowledge = s.knowledge := by
  rw [settle]
  split
  · rfl
  · rfl

@[simp] theorem knowledge_complete (s : FileNode P) (f : String) :
    (s.complete f).knowledge = s.knowledge := by
  rw [complete]
  split
  · rfl
  · next d _ =>
    split
    · rfl
    · have htick : (d.tick.elim s s.clearTimer).knowledge = s.knowledge := by
        cases d.tick with
        | none => rfl
        | some t => rfl
      have hclear : ((d.tick.elim s s.clearTimer).clearRequests d).knowledge = s.knowledge :=
        (knowledge_clearTimers ..).trans htick
      have hassemble := knowledge_of_store ((d.tick.elim s s.clearTimer).clearRequests d)
        (((d.tick.elim s s.clearTimer).clearRequests d).store.assemble P f d.outPath).1
        fun g ↦ by rw [ChunkStore.files_assemble]
      dsimp only
      split
      · exact (knowledge_settle ..).trans (hassemble.trans hclear)
      · exact (knowledge_settle ..).trans (hassemble.trans hclear)

/-- A chunk that is put leaves the number of chunks. -/
theorem knowledge_putChunk (s : FileNode P) (f : String) (idx : ℕ) (data : Buffer)
    (expected : Option Json) :
    knowledge { s with store := (s.store.putChunk P f idx data expected).1 } = s.knowledge := by
  refine knowledge_of_store s _ fun g ↦ ?_
  obtain ⟨hfiles, -⟩ | ⟨e, he, hfiles⟩ := ChunkStore.files_putChunk P s.store f idx data expected
  · rw [hfiles]
  · rw [hfiles, OrderedMap.get?_set]
    split
    · next hg =>
      rw [hg, he]
      rfl
    · rfl

theorem knowledge_onChunkData (s : FileNode P) (session : FileSession) (f : String) (idx : ℕ)
    (chunkHash signature data : Buffer) (rank : ℕ → ℕ) :
    (s.onChunkData session f idx chunkHash signature data rank).1.knowledge = s.knowledge := by
  rw [onChunkData]
  split
  · rfl
  · next d _ =>
    cases d.expectedHash idx with
    | error err => rfl
    | ok expected =>
      have hrelease := knowledge_release s d idx
      have hput := (knowledge_putChunk (s.release d idx) f idx data expected).trans hrelease
      dsimp only
      split
      · rw [knowledge_schedule]
        exact hrelease
      · split
        · exact hput
        · rw [knowledge_schedule]
          exact hput
        · split
          · rw [knowledge_complete]
            exact hput
          · rw [knowledge_schedule]
            exact hput

theorem knowledge_serveChunk (s : FileNode P) (session : FileSession) (f : String) (idx : ℕ) :
    (s.serveChunk session f idx).1.knowledge = s.knowledge := by
  rw [serveChunk]
  split
  · rfl
  · rfl
  · split
    · rfl
    · rfl

theorem knowledge_registerManifest (s : FileNode P) (m : Json) :
    (s.registerManifest m).1.knowledge = s.knowledge.register m := by
  rw [registerManifest, Knowledge.register]
  cases fileKey m with
  | error err => rfl
  | ok key =>
    dsimp only
    rw [knowledge, Knowledge.mk.injEq]
    refine ⟨rfl, rfl, rfl, rfl, funext fun f ↦ ?_⟩
    rw [ChunkStore.files_registerManifest, ChunkStore.get?_addEntry]
    by_cases hf : f = key
    · by_cases hinherited : f ∈ inheritedNames
      · rw [if_pos hf, if_pos hinherited, if_neg fun h ↦ h.2 hinherited]
        rfl
      · rw [if_pos hf, if_neg hinherited, if_pos ⟨hf, hinherited⟩]
        dsimp only [knowledge]
        cases s.store.files.get? f with
        | some e => rfl
        | none => rfl
    · rw [if_neg hf, if_neg fun h ↦ hf h.1]
      rfl

theorem knowledge_onHave (s : FileNode P) (session : FileSession) (f : String) (bitfield : Buffer)
    (rank : ℕ → ℕ) : (s.onHave session f bitfield rank).1.knowledge =
      s.knowledge.onHave session.peerHex f bitfield := by
  rw [onHave, Knowledge.onHave, chunkCount_knowledge]
  cases s.chunkCount f with
  | none => rfl
  | some nb =>
    dsimp only
    cases ChunkStore.parseBitfield bitfield (some nb) with
    | none => rfl
    | some chunks =>
      dsimp only
      rw [knowledge_schedule]
      rfl

theorem knowledge_fallBack (s : FileNode P) (peerHex : String) (rank : String → ℕ → ℕ)
    (fileIds : List String) : (s.fallBack peerHex rank fileIds).knowledge = s.knowledge := by
  induction fileIds generalizing s with
  | nil => rfl
  | cons f fileIds ih =>
    have hrelease : (s.releasePeer f peerHex).knowledge = s.knowledge := by
      rw [releasePeer]
      split
      · rfl
      · exact knowledge_clearTimers ..
    rw [fallBack, ih, knowledge_schedule, hrelease]

theorem knowledge_startDownload (s : FileNode P) (m : Json) (f : String) (outPath : Location)
    (parallel p : ℕ) (rank : ℕ → ℕ) :
    (s.startDownload m f outPath parallel p rank).knowledge = s.knowledge := by
  have hhave (s : FileNode P) : (s.broadcastHave f).1.knowledge = s.knowledge := by
    rw [broadcastHave]
    split
    · rfl
    · split
      · rfl
      · rfl
  rw [startDownload]
  split
  · exact knowledge_settle ..
  · split
    · exact knowledge_settle ..
    · dsimp only
      split
      · exact (knowledge_settle ..).trans (hhave _)
      · split
        · rw [knowledge_complete]
          exact hhave _
        · rw [knowledge_schedule]
          exact hhave _

theorem knowledge_download (s : FileNode P) (m : Json) (outPath : Location) (parallel : Option ℕ)
    (rank : ℕ → ℕ) : (s.download m outPath parallel rank).1.knowledge =
      s.knowledge.register m := by
  rw [download, ← knowledge_registerManifest]
  dsimp only
  split
  · rfl
  · split
    · exact knowledge_startDownload ..
    · rfl

theorem knowledge_seedChunks (s : FileNode P) (m : Json) (f : String) (filePath : Location)
    (buf : Buffer) (is : List ℕ) :
    (s.seedChunks m f filePath buf is).1.knowledge = s.knowledge := by
  have hchunk (s : FileNode P) (buf : Buffer) (i : ℕ) :
      (s.seedChunk m f filePath buf i).1.knowledge = s.knowledge := by
    obtain h | ⟨c, data, -, h⟩ := seedChunk_cases s m f filePath buf i
    · rw [h]
    · rw [h]
      exact knowledge_putChunk ..
  induction is generalizing s buf with
  | nil => rfl
  | cons i is ih =>
    rw [seedChunks]
    dsimp only
    split
    · exact hchunk s buf i
    · exact (ih _ _).trans (hchunk s buf i)

theorem knowledge_seed (s : FileNode P) (m : Json) (filePath : Location) :
    (s.seed m filePath).1.knowledge = s.knowledge.register m := by
  rw [seed, ← knowledge_registerManifest]
  dsimp only
  split
  · rfl
  · split
    · rfl
    · rfl
    · next length _ _ =>
      have hchunks (f : String) (n : ℕ) :=
        knowledge_seedChunks (s.registerManifest m).1 m f filePath (List.replicate length 0)
          (List.range n)
      split
      · exact hchunks _ _
      · split
        · exact hchunks _ _
        · split
          · exact hchunks _ _
          · exact hchunks _ _
  · rfl

/-- **The node does with its knowledge what `learn` says.** -/
theorem knowledge_next (jsonParse : Buffer → Option Json) (s : FileNode P) (e : FileEvent) :
    (s.next jsonParse e).knowledge = s.knowledge.learn P jsonParse e := by
  cases e with
  | attach peerId =>
    obtain ⟨sent, hattach⟩ := attachSession_eq s peerId
    rw [next, hattach]
    rfl
  | message session buf rank =>
    rw [next, handleMessage, Knowledge.learn]
    split
    · next hdecode => rw [hdecode]
    · next m hdecode =>
      rw [hdecode, onManifest]
      dsimp only
      split
      · next hverify => rw [if_neg (by simp [hverify])]
      · next hverify => rw [if_neg (by simp [hverify])]
      · next hverify =>
        rw [if_pos hverify, ← knowledge_registerManifest]
        split
        · rfl
        · rfl
    · next hdecode =>
      rw [hdecode]
      exact knowledge_onHave ..
    · next hdecode =>
      rw [hdecode]
      exact knowledge_schedule ..
    · next hdecode =>
      rw [hdecode]
      exact knowledge_serveChunk ..
    · next hdecode =>
      rw [hdecode]
      exact knowledge_onChunkData ..
    · next hdecode => rw [hdecode]
  | close peerHex rank => exact knowledge_fallBack ..
  | timer t rank => exact knowledge_fire s t rank
  | download m outPath parallel rank => exact knowledge_download s m outPath parallel rank
  | seed m filePath => exact knowledge_seed s m filePath

end FileNode

namespace Knowledge

variable {P : Primitives} {jsonParse : Buffer → Option Json} {k : Knowledge} {f : String} {i : ℕ}
  {set : Finset ℕ} {peerHex : String} {m : Json} {e : FileEvent}

/-- A file with this manifest and this entry is known, and has all of the chunks. -/
structure Covers (manifest : Option Json) (entry : Option (Option Json)) (set : Finset ℕ) :
    Prop where
  known : (manifest.filter Json.truthy).isSome ∨ entry.isSome
  below : ∀ i ∈ set, (countOf manifest entry).any (·.exceeds i) = true

/-- **What is remembered of attached peers stays within the known files**: they are in `manifests`
or in the index, and the chunks are below their `nb_chunks`. -/
def Bounded (k : Knowledge) : Prop := ∀ peerHex f set, k.sessions.has peerHex = true →
  k.record peerHex f = some set → Covers (k.manifests.get f) (k.counts f) set

/-- A manifest that is registered takes no chunks from the files that are remembered.  By the name
of `__proto__` it stands in for the manifests that there are not. -/
structure Admits (k : Knowledge) (key : String) (m : Json) : Prop where
  own : ∀ peerHex set, k.sessions.has peerHex = true → k.record peerHex key = some set →
    ∀ i ∈ set, (m.get "nb_chunks").any (·.exceeds i) = true
  proto : key = "__proto__" → ∀ peerHex f set, k.sessions.has peerHex = true →
    k.record peerHex f = some set → k.manifests.own.get? f = none →
      Covers (m.get f) (k.counts f) set

/-- The event announces no chunk that there is not, and takes none away. -/
structure Respects (P : Primitives) (jsonParse : Buffer → Option Json) (k : Knowledge)
    (e : FileEvent) : Prop where
  pieces : ∀ session buf rank f i, e = .message session buf rank →
    k.sessions.has session.peerHex = true →
    FileProtocol.decode jsonParse buf = .ok (.havePiece f i) →
      (k.chunkCount f).any (·.exceeds i) = true
  manifests : ∀ m key, e.Registers P jsonParse m → FileNode.fileKey m = .ok key → k.Admits key m

/-- A session has got the key, now or before: its number is not beyond the last one that was
given. -/
def Used (k : Knowledge) (peerHex : String) : Prop :=
  ∃ (peerId : Buffer) (n : ℕ), n ≤ k.seq ∧ peerHex = peerId.hex ++ "#" ++ Nat.repr n

/-- Messages come from sessions that have been attached, whether they are still open or have been
closed. -/
def FromSession (k : Knowledge) (e : FileEvent) : Prop :=
  ∀ session buf rank, e = .message session buf rank → k.Used session.peerHex

/-- What holds of all records, on top of their being bounded. -/
structure Proper (k : Knowledge) : Prop where
  used : ∀ peerHex f set, k.record peerHex f = some set → k.Used peerHex
  hex : ∀ peerHex f set, k.record peerHex f = some set → ∃ b : Buffer, f = b.hex

/-! ## Records -/

theorem sessionKey_inj {peerId peerId' : Buffer} {n n' : ℕ}
    (h : peerId.hex ++ "#" ++ Nat.repr n = peerId'.hex ++ "#" ++ Nat.repr n') : n = n' := by
  have hlist : peerId.hexChars ++ '#' :: Nat.toDigits 10 n =
      peerId'.hexChars ++ '#' :: Nat.toDigits 10 n' := by
    simpa [Buffer.hex, String.toList_append, Nat.toList_repr] using congrArg String.toList h
  have hhex : '#' ∉ peerId.hexChars := Buffer.notMem_hexChars (by decide) peerId
  have hnumber : '#' ∉ Nat.toDigits 10 n := fun h ↦
    absurd (Nat.isDigit_of_mem_toDigits (by decide) (by decide) h) (by decide)
  obtain ⟨-, -, hdigits⟩ := (List.append_cons_inj_of_notMem hhex hnumber).mp hlist
  have hvalue := congrArg (fun cs ↦ Nat.ofDigitChars 10 cs 0) hdigits
  simpa only [Nat.ofDigitChars_ten_toDigits] using hvalue

/-- A new session has a key of its own. -/
theorem not_used_sessionKey (k : Knowledge) (peerId : Buffer) :
    ¬k.Used (peerId.hex ++ "#" ++ Nat.repr (k.seq + 1)) := by
  rintro ⟨peerId', n, hn, heq⟩
  have hsame := sessionKey_inj heq
  omega

theorem record_addHave {chunks : Finset ℕ} {peer g : String} :
    (k.addHave peerHex f chunks).record peer g =
      if peer = peerHex ∧ g = f then some ((k.record peer g).getD ∅ ∪ chunks)
      else k.record peer g := by
  rw [record, addHave, OrderedMap.get?_set]
  by_cases hpeer : peer = peerHex
  · rw [if_pos hpeer, Option.bind_some, OrderedMap.get?_set, hpeer]
    by_cases hg : g = f
    · rw [if_pos hg, if_pos ⟨rfl, hg⟩, hg, record]
      cases k.peerHave.get? peerHex with
      | none => rfl
      | some byFile => rfl
    · rw [if_neg hg, if_neg fun h ↦ hg h.2, record]
      cases k.peerHave.get? peerHex with
      | none => rfl
      | some byFile => rfl
  · rw [if_neg hpeer, if_neg fun h ↦ hpeer h.1, record]

theorem record_attach {peerId : Buffer} {peer g : String} :
    (k.attach peerId).record peer g = k.record peer g := by
  rw [record, attach, OrderedMap.get?_set]
  split
  · next hpeer =>
    rw [record, hpeer]
    cases k.peerHave.get? (peerId.hex ++ "#" ++ Nat.repr (k.seq + 1)) with
    | none => rfl
    | some byFile => rfl
  · rfl

theorem record_close {peer g : String} (h : (k.close peerHex).record peer g = some set) :
    peer ≠ peerHex ∧ k.record peer g = some set := by
  rw [record, close, OrderedMap.get?_delete] at h
  split at h
  · cases h
  · next hpeer => exact ⟨hpeer, h⟩

theorem record_register {peer g : String} : (k.register m).record peer g = k.record peer g := by
  rw [register]
  split
  · rfl
  · rfl

/-! ## What is learned stays within the known files -/

theorem covers_union {manifest : Option Json} {entry : Option (Option Json)} {set' : Finset ℕ} :
    Covers manifest entry (set ∪ set') ↔
      Covers manifest entry set ∧ Covers manifest entry set' := by
  refine ⟨fun h ↦ ⟨⟨h.known, fun i hi ↦ h.below i (Finset.mem_union_left _ hi)⟩,
    ⟨h.known, fun i hi ↦ h.below i (Finset.mem_union_right _ hi)⟩⟩, fun ⟨h, h'⟩ ↦ ⟨h.known, ?_⟩⟩
  exact fun i hi ↦ (Finset.mem_union.mp hi).elim (h.below i) (h'.below i)

/-- A file whose chunks can be counted is known. -/
theorem covers_of_countOf {manifest : Option Json} {entry : Option (Option Json)} {nb : Json}
    (hnb : countOf manifest entry = some nb) (h : ∀ i ∈ set, nb.exceeds i = true) :
    Covers manifest entry set where
  known := by
    cases hmanifest : manifest.filter Json.truthy with
    | some m => exact .inl rfl
    | none =>
      rw [countOf, hmanifest] at hnb
      cases entry with
      | some nb => exact .inr rfl
      | none => exact nomatch hnb
  below i hi := by
    rw [hnb, Option.any_some]
    exact h i hi

theorem covers_singleton {manifest : Option Json} {entry : Option (Option Json)} :
    Covers manifest entry {i} ↔ (countOf manifest entry).any (·.exceeds i) = true := by
  refine ⟨fun h ↦ h.below i (Finset.mem_singleton_self i), fun h ↦ ?_⟩
  obtain ⟨nb, hnb, hi⟩ := (Option.any_eq_true _ _).mp h
  refine covers_of_countOf hnb fun j hj ↦ ?_
  rwa [Finset.mem_singleton.mp hj]

theorem bounded_addHave {chunks : Finset ℕ} (hk : k.Bounded) :
    (k.addHave peerHex f chunks).Bounded ↔
      (k.sessions.has peerHex = true → Covers (k.manifests.get f) (k.counts f) chunks) := by
  constructor
  · intro h hsession
    have hrecord : (k.addHave peerHex f chunks).record peerHex f =
      some ((k.record peerHex f).getD ∅ ∪ chunks) := record_addHave.trans (if_pos ⟨rfl, rfl⟩)
    exact (covers_union.mp (h peerHex f _ hsession hrecord)).2
  · intro h peer g set hsession hrecord
    rw [record_addHave] at hrecord
    split at hrecord
    · next heq =>
      obtain ⟨rfl, rfl⟩ := heq
      obtain rfl := Option.some.inj hrecord
      have hnew := h hsession
      cases hold : k.record peer g with
      | none =>
        rw [Option.getD_none, Finset.empty_union]
        exact hnew
      | some old => exact covers_union.mpr ⟨hk peer g old hsession hold, hnew⟩
    · exact hk peer g set hsession hrecord

/-- What a `HAVE` is read as is below the number of chunks that it is read with. -/
theorem Bounded.onHave (hk : k.Bounded) (bitfield : Buffer) :
    (k.onHave peerHex f bitfield).Bounded := by
  rw [Knowledge.onHave]
  split
  · exact hk
  · next nb hnb =>
    refine (bounded_addHave hk).mpr fun _ ↦ covers_of_countOf hnb fun i hi ↦ ?_
    rw [List.mem_toFinset] at hi
    cases hn : loopCount (some nb) with
    | none =>
      rw [ChunkStore.parseBitfield, hn] at hi
      exact nomatch hi
    | some n =>
      rw [ChunkStore.parseBitfield, hn] at hi
      exact exceeds_of_loopCount hn (List.mem_range.mp (List.mem_filter.mp hi).1)

theorem Bounded.attach (hk : k.Bounded) (hp : k.Proper) (peerId : Buffer) :
    (k.attach peerId).Bounded := by
  intro peer g set hsession hrecord
  rw [record_attach] at hrecord
  refine hk peer g set ?_ hrecord
  have hne : peer ≠ peerId.hex ++ "#" ++ Nat.repr (k.seq + 1) := by
    rintro rfl
    exact k.not_used_sessionKey peerId (hp.used _ g set hrecord)
  rw [Knowledge.attach, OrderedMap.has, OrderedMap.get?_set_of_ne hne] at hsession
  exact hsession

theorem Bounded.close (hk : k.Bounded) (peerHex : String) : (k.close peerHex).Bounded := by
  intro peer g set hsession hrecord
  obtain ⟨hne, hrecord⟩ := record_close hrecord
  refine hk peer g set ?_ hrecord
  rw [Knowledge.close, OrderedMap.has, OrderedMap.get?_delete, if_neg hne] at hsession
  exact hsession

/-! ## Manifests

A manifest that is registered for a file replaces the one before, and with it the number of chunks.
What has been recorded of peers is not looked through again. -/

theorem any_exceeds_countOf (hm : m.truthy = true) (entry : Option (Option Json)) :
    (countOf (some m) entry).any (·.exceeds i) = (m.get "nb_chunks").any (·.exceeds i) := by
  have hfilter : (some m).filter Json.truthy = some m := by simp [Option.filter, hm]
  rw [countOf, hfilter, Option.elim_some]
  cases m.get "nb_chunks" with
  | none => rfl
  | some nb =>
    cases nb with
    | null =>
      have hnull : Json.exceeds .null i = false :=
        decide_eq_false (not_lt.mpr (Nat.cast_nonneg (α := ℚ) i))
      rw [Option.any_some, hnull]
      rfl
    | _ => rfl

/-- A manifest that is registered under hexadecimal text is an object. -/
theorem truthy_of_fileKey {b : Buffer} (h : FileNode.fileKey m = .ok b.hex) : m.truthy = true := by
  cases hid : m.get "file_id" with
  | some v => exact Json.truthy_of_get hid
  | none =>
    have hundefined : b.hex = "undefined" := by
      cases m with
      | null => cases h
      | _ =>
        rw [FileNode.fileKey, hid] at h
        · exact (Except.ok.inj h).symm
        · exact fun h ↦ by cases h
    have hmem : 'u' ∈ b.hex.toList := by
      rw [hundefined]
      decide
    rw [Buffer.hex, String.toList_ofList] at hmem
    exact absurd hmem (Buffer.notMem_hexChars (by decide) b)

/-- The table after the manifest is registered, under a key of its own. -/
theorem get_register {key : String} (hkey : FileNode.fileKey m = .ok key)
    (hproto : key ≠ "__proto__") (hf : f ∉ inheritedNames) : (k.register m).manifests.get f =
      if f = key then some m else k.manifests.get f := by
  have hne : f ≠ "__proto__" := fun heq ↦ hf (by rw [heq]; decide)
  rw [register, hkey]
  dsimp only
  rw [JsonTable.set, if_neg hproto, JsonTable.get, JsonTable.get, if_neg hne, if_neg hne,
    OrderedMap.get?_set]
  split
  · exact Option.some_or
  · rfl

/-- And under the name of `__proto__`, where a manifest becomes the prototype of the table, so that
every other name may find a field of it. -/
theorem get_register_proto (hkey : FileNode.fileKey m = .ok "__proto__") (hf : f ∉ inheritedNames) :
    (k.register m).manifests.get f = (k.manifests.own.get? f).or (m.get f) := by
  have hne : f ≠ "__proto__" := fun heq ↦ hf (by rw [heq]; decide)
  rw [register, hkey]
  dsimp only
  rw [JsonTable.set, if_pos rfl, JsonTable.get, if_neg hne]
  rfl

theorem counts_register {key : String} (hkey : FileNode.fileKey m = .ok key)
    (hf : f ∉ inheritedNames) : (k.register m).counts f =
      if f = key then some ((k.counts f).getD (m.get "nb_chunks")) else k.counts f := by
  rw [register, hkey]
  dsimp only
  by_cases heq : f = key
  · rw [if_pos ⟨heq, hf⟩, if_pos heq]
  · rw [if_neg fun h ↦ heq h.1, if_neg heq]

theorem sessions_register : (k.register m).sessions = k.sessions := by
  rw [register]
  split
  · rfl
  · rfl

/-- **A manifest keeps what is remembered within the known files**, exactly if it takes no chunks
away. -/
theorem bounded_register {key : String} (hk : k.Bounded) (hp : k.Proper)
    (hkey : FileNode.fileKey m = .ok key) : (k.register m).Bounded ↔ k.Admits key m := by
  have hinherited {peer g : String} {set : Finset ℕ} (h : k.record peer g = some set) :
      g ∉ inheritedNames := by
    obtain ⟨b, rfl⟩ := hp.hex peer g set h
    exact hex_notMem_inheritedNames b
  have hbounded : (k.register m).Bounded ↔ ∀ peer g set, k.sessions.has peer = true →
      k.record peer g = some set →
        Covers ((k.register m).manifests.get g) ((k.register m).counts g) set := by
    rw [Bounded, sessions_register]
    simp only [record_register]
  rw [hbounded]
  by_cases hproto : key = "__proto__"
  · subst hproto
    constructor
    · refine fun h ↦ ⟨fun peer set _ hrecord ↦ absurd (by decide) (hinherited hrecord),
        fun _ peer g set hsession hrecord hown ↦ ?_⟩
      have hg := hinherited hrecord
      have hcovers := h peer g set hsession hrecord
      rwa [get_register_proto hkey hg, hown, Option.none_or, counts_register hkey hg,
        if_neg fun heq ↦ hg (by rw [heq]; decide)] at hcovers
    · intro h peer g set hsession hrecord
      have hg := hinherited hrecord
      rw [get_register_proto hkey hg, counts_register hkey hg,
        if_neg fun heq ↦ hg (by rw [heq]; decide)]
      cases hown : k.manifests.own.get? g with
      | none => exact h.proto rfl peer g set hsession hrecord hown
      | some m' =>
        have hold := hk peer g set hsession hrecord
        rwa [JsonTable.get, if_neg fun heq ↦ hg (by rw [heq]; decide), hown, Option.some_or] at hold
  · constructor
    · refine fun h ↦ ⟨fun peer set hsession hrecord i hi ↦ ?_, fun heq ↦ absurd heq hproto⟩
      have hkey' := hinherited hrecord
      obtain ⟨b, rfl⟩ := hp.hex peer key set hrecord
      have hcovers := h peer b.hex set hsession hrecord
      rw [get_register hkey hproto hkey', if_pos rfl] at hcovers
      exact (any_exceeds_countOf (truthy_of_fileKey hkey) _).symm.trans (hcovers.below i hi)
    · intro h peer g set hsession hrecord
      have hg := hinherited hrecord
      rw [get_register hkey hproto hg, counts_register hkey hg]
      by_cases heq : g = key
      · subst heq
        obtain ⟨b, rfl⟩ := hp.hex peer g set hrecord
        rw [if_pos rfl, if_pos rfl]
        refine ⟨.inr rfl, fun i hi ↦ ?_⟩
        exact (any_exceeds_countOf (truthy_of_fileKey hkey) _).trans
          (h.own peer set hsession hrecord i hi)
      · rw [if_neg heq, if_neg heq]
        exact hk peer g set hsession hrecord

/-! ## One event -/

/-- An event that registers one manifest, and is no message about a chunk. -/
theorem respects_of_registers (h : ∀ m', e.Registers P jsonParse m' ↔ m' = m)
    (hpieces : ∀ session buf rank f i, e = .message session buf rank →
      FileProtocol.decode jsonParse buf ≠ .ok (.havePiece f i)) (hk : k.Bounded) (hp : k.Proper) :
    (k.register m).Bounded ↔ k.Respects P jsonParse e := by
  have hrespects : k.Respects P jsonParse e ↔
      ∀ key, FileNode.fileKey m = .ok key → k.Admits key m :=
    ⟨fun hr key hkey ↦ hr.manifests m key ((h m).mpr rfl) hkey,
      fun hadmits ↦ ⟨fun session buf rank f i he _ hdecode ↦
        absurd hdecode (hpieces session buf rank f i he),
        fun m' key hm' hkey ↦ (h m').mp hm' ▸ hadmits key ((h m').mp hm' ▸ hkey)⟩⟩
  rw [hrespects]
  cases hkey : FileNode.fileKey m with
  | error err =>
    have hsame : k.register m = k := by rw [register, hkey]
    rw [hsame]
    exact iff_of_true hk nofun
  | ok key =>
    rw [bounded_register hk hp hkey]
    exact ⟨fun hadmits key' hkey' ↦ Except.ok.inj hkey' ▸ hadmits, fun hadmits ↦ hadmits key rfl⟩

/-- An event that registers no manifest, and is no message about a chunk. -/
theorem respects_of_other (h : ∀ m, ¬e.Registers P jsonParse m)
    (hpieces : ∀ session buf rank f i, e = .message session buf rank →
      FileProtocol.decode jsonParse buf ≠ .ok (.havePiece f i)) : k.Respects P jsonParse e :=
  ⟨fun session buf rank f i he _ hdecode ↦ absurd hdecode (hpieces session buf rank f i he),
    fun m _ hm ↦ absurd hm (h m)⟩

/-- **One event keeps what is remembered within the known files**, exactly if it respects them. -/
theorem bounded_learn (hk : k.Bounded) (hp : k.Proper) :
    (k.learn P jsonParse e).Bounded ↔ k.Respects P jsonParse e := by
  cases e with
  | attach peerId => exact iff_of_true (hk.attach hp peerId) (respects_of_other (fun _ ↦ id) nofun)
  | close peerHex rank =>
      exact iff_of_true (hk.close peerHex) (respects_of_other (fun _ ↦ id) nofun)
  | timer t rank => exact iff_of_true hk (respects_of_other (fun _ ↦ id) nofun)
  | download m' outPath parallel rank =>
    exact respects_of_registers (fun _ ↦ Iff.rfl) nofun hk hp
  | seed m' filePath => exact respects_of_registers (fun _ ↦ Iff.rfl) nofun hk hp
  | message session buf rank =>
    have hpieces (h : ∀ f i, FileProtocol.decode jsonParse buf ≠ .ok (.havePiece f i)) :
        ∀ session' buf' rank' f i,
          FileEvent.message session buf rank = .message session' buf' rank' →
          FileProtocol.decode jsonParse buf' ≠ .ok (.havePiece f i) := by
      rintro session' buf' rank' f i ⟨⟩
      exact h f i
    rw [learn]
    split
    · next m' hdecode =>
      have hno := hpieces fun f i hpiece ↦ nomatch hdecode.symm.trans hpiece
      split
      · next hverify =>
        refine respects_of_registers (fun m ↦ ⟨fun hm ↦ ?_, ?_⟩) hno hk hp
        · exact FileMessage.manifest.inj (Except.ok.inj (hm.1.symm.trans hdecode))
        · rintro rfl
          exact ⟨hdecode, hverify⟩
      · next hverify =>
        refine iff_of_true hk (respects_of_other (fun m hm ↦ hverify ?_) hno)
        rw [← hm.2, FileMessage.manifest.inj (Except.ok.inj (hm.1.symm.trans hdecode))]
    · next f bitfield hdecode =>
      refine iff_of_true (hk.onHave bitfield) (respects_of_other (fun m hm ↦ ?_) (hpieces ?_))
      · exact nomatch hdecode.symm.trans hm.1
      · exact fun f i hpiece ↦ nomatch hdecode.symm.trans hpiece
    · next f idx hdecode =>
      rw [bounded_addHave hk]
      constructor
      · refine fun h ↦ ⟨?_, fun m key hm ↦ nomatch hdecode.symm.trans hm.1⟩
        rintro session' buf' rank' g i ⟨⟩ hsession hpiece
        obtain ⟨rfl, rfl⟩ := FileMessage.havePiece.inj (Except.ok.inj (hdecode.symm.trans hpiece))
        exact covers_singleton.mp (h hsession)
      · exact fun h hsession ↦
          covers_singleton.mpr (h.pieces session buf rank f idx rfl hsession hdecode)
    · next hmanifest _ hpiece =>
      exact iff_of_true hk (respects_of_other (fun m hm ↦ hmanifest m hm.1) (hpieces hpiece))

/-- The id of a file in an announcement is hexadecimal text. -/
theorem hex_of_decode {buf : Buffer} (h :
    (∃ bitfield, FileProtocol.decode jsonParse buf = .ok (.have f bitfield)) ∨
      ∃ idx, FileProtocol.decode jsonParse buf = .ok (.havePiece f idx)) :
    ∃ b : Buffer, f = b.hex := by
  cases buf with
  | nil => exact absurd h (by simp [FileProtocol.decode])
  | cons type p =>
    refine ⟨Buffer.subarray p 0 32, ?_⟩
    by_cases hhave : type = FileProtocol.haveType
    · subst hhave
      have hdecode : FileProtocol.decode jsonParse (FileProtocol.haveType :: p) =
        .ok (.have (Buffer.subarray p 0 32).hex (p.drop 32)) := rfl
      simp only [hdecode] at h
      obtain ⟨bitfield, h⟩ := h.resolve_right (by rintro ⟨_, h⟩; cases h)
      exact (FileMessage.have.inj (Except.ok.inj h)).1.symm
    by_cases hpiece : type = FileProtocol.havePieceType
    · subst hpiece
      have hdecode : FileProtocol.decode jsonParse (FileProtocol.havePieceType :: p) =
        (FileProtocol.readUInt32BE p 32).map (.havePiece (Buffer.subarray p 0 32).hex) := rfl
      simp only [hdecode] at h
      cases hread : FileProtocol.readUInt32BE p 32 with
      | error err => exact absurd h (by simp [hread, Except.map])
      | ok n =>
        simp only [hread] at h
        obtain ⟨idx, h⟩ := h.resolve_left (by rintro ⟨_, h⟩; cases h)
        exact (FileMessage.havePiece.inj (Except.ok.inj h)).1.symm
    · -- no other type is decoded into an announcement
      simp only [FileProtocol.decode, if_neg hhave, if_neg hpiece, FileProtocol.readUInt32BE] at h
      split_ifs at h
      all_goals exact absurd h (by cases jsonParse p <;> simp [Except.map])

/-- Records are added for sessions, under hexadecimal text, so that they never meet an inherited
name. -/
theorem Proper.addHave (hp : k.Proper) (hused : k.Used peerHex) (hf : ∃ b : Buffer, f = b.hex)
    (chunks : Finset ℕ) : (k.addHave peerHex f chunks).Proper where
  used peer g set hrecord := by
    rw [record_addHave] at hrecord
    split at hrecord
    · next heq => exact heq.1 ▸ hused
    · exact hp.used peer g set hrecord
  hex peer g set hrecord := by
    rw [record_addHave] at hrecord
    split at hrecord
    · next heq => exact heq.2 ▸ hf
    · exact hp.hex peer g set hrecord

theorem Proper.register (hp : k.Proper) (m : Json) : (k.register m).Proper := by
  have hseq : (k.register m).seq = k.seq := by
    rw [Knowledge.register]
    split
    · rfl
    · rfl
  refine ⟨fun peer g set hrecord ↦ ?_, fun peer g set hrecord ↦ ?_⟩
  · rw [Used, hseq]
    exact hp.used peer g set (record_register.symm.trans hrecord)
  · exact hp.hex peer g set (record_register.symm.trans hrecord)

theorem Proper.learn (hp : k.Proper) (hfrom : k.FromSession e) :
    (k.learn P jsonParse e).Proper := by
  cases e with
  | attach peerId =>
    refine ⟨fun peer g set hrecord ↦ ?_, fun peer g set hrecord ↦ ?_⟩
    · obtain ⟨peerId', n, hn, heq⟩ := hp.used peer g set (record_attach.symm.trans hrecord)
      exact ⟨peerId', n, hn.trans (Nat.le_succ _), heq⟩
    · exact hp.hex peer g set (record_attach.symm.trans hrecord)
  | close peerHex rank =>
    exact ⟨fun peer g set hrecord ↦ hp.used peer g set (record_close hrecord).2,
      fun peer g set hrecord ↦ hp.hex peer g set (record_close hrecord).2⟩
  | timer t rank => exact hp
  | download m outPath parallel rank => exact hp.register m
  | seed m filePath => exact hp.register m
  | message session buf rank =>
    have hused := hfrom session buf rank rfl
    rw [Knowledge.learn]
    split
    · split
      · exact hp.register _
      · exact hp
    · next hdecode =>
      rw [Knowledge.onHave]
      split
      · exact hp
      · exact hp.addHave hused (hex_of_decode (.inl ⟨_, hdecode⟩)) _
    · next hdecode => exact hp.addHave hused (hex_of_decode (.inr ⟨_, hdecode⟩)) _
    · exact hp

end Knowledge

namespace FileNode

variable {P : Primitives}

/-- **What a node remembers of attached peers stays within the known files along a run**, exactly if
no peer announces by `HAVE_PIECE` a chunk that there is not, and no manifest takes chunks away. -/
theorem bounded_iff (jsonParse : Buffer → Option Json) (signKey : P.SignKey) (store : ChunkStore)
    (parallel : ℕ) (es : List FileEvent) (hes : Machine.Feasible
      (fun s e ↦ s.knowledge.FromSession e) (next jsonParse) (new signKey store parallel) es) :
    Machine.Feasible (fun s e ↦ s.knowledge.Respects P jsonParse e) (next jsonParse)
        (new signKey store parallel) es ↔
      ∀ es₁ es₂, es = es₁ ++ es₂ →
        (es₁.foldl (next jsonParse) (new signKey store parallel)).knowledge.Bounded := by
  refine Machine.feasible_iff_forall_prefix
    (I := fun s : FileNode P ↦ s.knowledge.Bounded ∧ s.knowledge.Proper) (fun s hs ↦ hs.1)
    (fun s e hs hfrom hrespects ↦ ?_) (fun s e hs _ hrespects ↦ ?_) ⟨nofun, nofun, nofun⟩ hes
  · rw [knowledge_next]
    exact ⟨(Knowledge.bounded_learn hs.1 hs.2).mpr hrespects, hs.2.learn hfrom⟩
  · rw [knowledge_next]
    exact fun h ↦ hrespects ((Knowledge.bounded_learn hs.1 hs.2).mp h)

namespace SampleDownload

/-- The chunk of the sample is announced, in a message of the first session. -/
def piece : FileEvent :=
  .message ⟨"00#1", [0]⟩ (FileProtocol.encHavePiece Manifest.sampleFileId.hex 0) fun i ↦ i

/-- A peer attaches and announces a chunk of a file that the node does not know. -/
def unknownPiece : List FileEvent := [.attach [0], piece]

/-- It announces the chunk when the file is being downloaded. -/
def knownPiece : List FileEvent :=
  [.attach [0], .download Manifest.sampleManifest ["out.txt"] none fun i ↦ i, piece]

theorem fromSession_piece {s : FileNode Manifest.samplePrimitives} (h : 1 ≤ s.seq) :
    s.knowledge.FromSession piece := by
  rintro session buf rank ⟨⟩
  exact ⟨[0], 1, h, by decide⟩

theorem fromSession_unknownPiece :
    Machine.Feasible (fun s e ↦ s.knowledge.FromSession e)
      (next fun _ ↦ none) start unknownPiece :=
  ⟨nofun, fromSession_piece (by decide +kernel), trivial⟩

theorem fromSession_knownPiece :
    Machine.Feasible (fun s e ↦ s.knowledge.FromSession e)
      (next fun _ ↦ none) start knownPiece :=
  ⟨nofun, nofun, fromSession_piece (by decide +kernel), trivial⟩

/-- Nothing has been announced when the download begins, and then there is a chunk to announce. -/
theorem respects_knownPiece :
    Machine.Feasible (fun s e ↦ s.knowledge.Respects Manifest.samplePrimitives (fun _ ↦ none) e)
      (next fun _ ↦ none) start knownPiece := by
  refine ⟨⟨nofun, nofun⟩, ⟨nofun, fun m key hm hkey ↦ ?_⟩, ⟨?_, ?_⟩, trivial⟩
  · have hnone : ∀ peerHex f, (start.next (fun _ ↦ none) (.attach [0])).knowledge.record peerHex f =
        none := by
      intro peerHex f
      rw [knowledge_next, Knowledge.learn, Knowledge.record_attach]
      rfl
    refine ⟨fun peerHex set _ hset ↦ ?_, fun _ peerHex f set _ hset ↦ ?_⟩
    · cases (hnone peerHex key).symm.trans hset
    · cases (hnone peerHex f).symm.trans hset
  · rintro session buf rank f i ⟨⟩ - hdecode
    rw [FileProtocol.decode_encHavePiece (by decide) (by decide)] at hdecode
    obtain ⟨rfl, rfl⟩ := FileMessage.havePiece.inj (Except.ok.inj hdecode)
    decide +kernel
  · rintro m key ⟨hdecode, -⟩
    rw [FileProtocol.decode_encHavePiece (by decide) (by decide)] at hdecode
    cases hdecode

end SampleDownload

open SampleDownload in
/-- The chunk of a known file is remembered, and everything stays within the known files. -/
theorem bounded_sample :
    Machine.Feasible (fun s e ↦ s.knowledge.FromSession e) (next fun _ ↦ none) start knownPiece ∧
      (knownPiece.foldl (next fun _ ↦ none) start).knownChunks "00#1" Manifest.sampleFileId.hex =
        {0} ∧
      ∀ es₁ es₂, knownPiece = es₁ ++ es₂ →
        (es₁.foldl (next fun _ ↦ none) start).knowledge.Bounded :=
  ⟨fromSession_knownPiece, by decide +kernel, (bounded_iff (P := Manifest.samplePrimitives)
    (fun _ ↦ none) () ⟨["store"], .empty, disk⟩ 8 knownPiece fromSession_knownPiece).mp
      respects_knownPiece⟩

open SampleDownload in
/-- The chunk of the unknown file is remembered: no count bounds what a `HAVE_PIECE` may name. -/
theorem not_bounded :
    Machine.Feasible (fun s e ↦ s.knowledge.FromSession e) (next fun _ ↦ none) start unknownPiece ∧
      ¬(unknownPiece.foldl (next fun _ ↦ none) start).knowledge.Bounded := by
  refine ⟨fromSession_unknownPiece, fun h ↦ ?_⟩
  have hcovers := h "00#1" Manifest.sampleFileId.hex {0} (by decide +kernel) (by decide +kernel)
  exact absurd hcovers.known (by decide +kernel)

end FileNode

end AttestP2P
