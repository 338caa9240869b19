import AttestP2P.File.ChunkStore
import AttestP2P.File.Manifest
import AttestP2P.File.Protocol
import AttestP2P.Lib.Machine
import Mathlib.Data.Finset.Sort

/-!
# The file node

`src/file/fileNode.js`: a node serves the chunks it has, learns which chunks its peers have, and
downloads a file from several of them at once.

* A handler returns the node as it leaves it, also when it throws.
* A session is known by its `_peerHex`, which is unique.  `sent` holds what is handed to sessions,
  and `notices` what the node emits.
* `Math.random() - 0.5` decides between chunks that equally many peers have: the outside gives each
  of them a `rank`, so that the order is any that is sorted by availability.
* A timer is pending from the moment it is set until it is cleared; a timeout fires once, an
  interval any number of times.
* A promise is known by the order in which `download` was called.
-/

set_option autoImplicit false

namespace AttestP2P

/-- A session as the file node sees it: the key `_peerHex` that it got when it was attached, and the
`peerId` whose signatures are expected on its chunks. -/
structure FileSession where
  peerHex : String
  peerId : Buffer
  deriving DecidableEq

/-- An entry of `inFlight`: the session that a chunk has been asked of, and the timer of its
timeout. -/
structure ChunkRequest where
  peerHex : String
  timer : ℕ

structure Download where
  manifest : Json
  fileId : String
  outPath : Location
  needed : Finset ℕ
  inFlight : OrderedMap ℕ ChunkRequest
  badPeerForChunk : OrderedMap ℕ (Finset String)
  parallel : ℕ
  promise : ℕ
  done : Bool
  received : ℤ
  tick : Option ℕ

namespace Download

/-- Whether the peer is among `badPeerForChunk` for this chunk, so that it is not asked for it
again. -/
def isBad (d : Download) (idx : ℕ) (peerHex : String) : Bool :=
  (d.badPeerForChunk.get? idx).any fun bad ↦ peerHex ∈ bad

/-- `_inFlightForPeer`: how many requests of this download are in flight to the peer, which is what
`choosePeer` balances. -/
def inFlightForPeer (d : Download) (peerHex : String) : ℕ :=
  (d.inFlight.entries.filter fun e ↦ e.2.peerHex = peerHex).length

/-- A request for the chunk goes out to the peer, with the timer of its timeout. -/
def request (d : Download) (idx : ℕ) (peerHex : String) (timer : ℕ) : Download :=
  { d with inFlight := d.inFlight.set idx ⟨peerHex, timer⟩ }

/-- The request for a chunk is no longer in flight: it was answered, ran out of time, or its peer is
gone. -/
def release (d : Download) (idx : ℕ) : Download := { d with inFlight := d.inFlight.delete idx }

/-- The peer has sent a chunk that failed its checks, and joins `badPeerForChunk` for that chunk
alone. -/
def markBad (d : Download) (idx : ℕ) (peerHex : String) : Download :=
  { d with badPeerForChunk :=
      d.badPeerForChunk.set idx (insert peerHex ((d.badPeerForChunk.get? idx).getD ∅)) }

/-- The chunk has been stored: it is needed no longer, and counts as received.  A chunk that arrives
twice is counted twice. -/
def receive (d : Download) (idx : ℕ) : Download :=
  { d with needed := d.needed.erase idx, received := d.received + 1 }

/-- `manifest.chunks[idx] && manifest.chunks[idx].hash`, of any manifest that has been registered.
It throws where `chunks` is missing or `null`. -/
def expectedHash (d : Download) (idx : ℕ) : Except String (Option Json) :=
  match d.manifest.get "chunks" with
  | none | some .null => .error "Cannot read properties of undefined"
  | some (.arr chunks) => .ok (((chunks[idx]?).filter Json.truthy).bind (·.get "hash"))
  | some v => .ok (((v.get (Nat.repr idx)).filter Json.truthy).bind (·.get "hash"))

end Download

/-- How the promise of a download is settled: with what `assemble` has hashed and whether this is
the `file_id`, or with an exception. -/
inductive Settlement where
  | resolved (sha256 : String) (good : Bool) (outPath : Location)
  | rejected (e : String)

/-- What a timer does when it fires: the timeout of one request, or the interval that schedules a
download again. -/
inductive Timer where
  | request (fileId : String) (idx : ℕ)
  | tick (fileId : String)

/-- What the node emits to the application, each with the arguments that its listeners are called
with. -/
inductive FileNotice where
  | manifest (m : Json)
  | progress (fileId : String) (idx : ℕ) (received : ℤ) (total : Option Json)
  | corrupt (fileId : String) (idx : ℕ) (peerHex : String)
  | peerclose (peerHex : String)

/-- Which peer is known to have which chunks of which file. -/
abbrev Availability := OrderedMap String (OrderedMap String (Finset ℕ))

structure FileNode (P : Primitives) where
  /-- The key that served chunks are signed with. -/
  signKey : P.SignKey
  store : ChunkStore
  parallel : ℕ
  /-- `sessions`: the `peerId` of each. -/
  sessions : OrderedMap String Buffer
  manifests : JsonTable
  downloads : OrderedMap String Download
  peerHave : Availability
  seq : ℕ
  timers : OrderedMap ℕ Timer
  nextTimer : ℕ
  nextPromise : ℕ
  settled : List (ℕ × Settlement)
  sent : List (String × Buffer)
  notices : List FileNotice

/-- `chunkSigMessage`: what the signature of a chunk covers, that is the file, the index of the
chunk and its hash. -/
def chunkSigMessage (fileIdHex : String) (idx : ℕ) (chunkHash : Buffer) : Buffer :=
  Json.fromHex fileIdHex ++ (Buffer.uint32BE idx ++ chunkHash)

namespace FileNode

variable {P : Primitives}

/-- `new FileNode({ store, parallel })`: no session, no manifest and no download, over a store that
may already hold chunks. -/
def new (signKey : P.SignKey) (store : ChunkStore) (parallel : ℕ) : FileNode P where
  signKey := signKey
  store := store
  parallel := parallel
  sessions := .empty
  manifests := .empty
  downloads := .empty
  peerHave := .empty
  seq := 0
  timers := .empty
  nextTimer := 0
  nextPromise := 0
  settled := []
  sent := []
  notices := []

/-! ## Sending -/

/-- `_safeSend`: a message is handed to one session.  What `send` throws is caught, so that the
caller goes on in either case. -/
def safeSend (s : FileNode P) (peerHex : String) (buf : Buffer) : FileNode P :=
  { s with sent := s.sent ++ [(peerHex, buf)] }

/-- The same message is handed to every session, in the order in which they were attached. -/
def broadcast (s : FileNode P) (buf : Buffer) : FileNode P :=
  { s with sent := s.sent ++ s.sessions.keys.map fun peerHex ↦ (peerHex, buf) }

def emit (s : FileNode P) (n : FileNotice) : FileNode P := { s with notices := s.notices ++ [n] }

/-! ## Manifests -/

/-- The property of `manifests` that `manifest.file_id` names, after the conversion to a string that
a property access makes. -/
def fileKey : Json → Except String String
  | .null => .error "Cannot read properties of null (reading 'file_id')"
  | m =>
    match (m.get "file_id").elim (some "undefined") Json.toText with
    | some key => .ok key
    | none => .error "Cannot convert object to primitive value"

theorem fileKey_of_get {m : Json} {fileId : String} (h : m.get "file_id" = some (.str fileId)) :
    fileKey m = .ok fileId := by
  cases m with
  | obj fields =>
    rw [fileKey, h]
    · rfl
    · exact nofun
  | _ => exact nomatch h

/-- `registerManifest`: the manifest replaces any other with its `file_id`, and the store makes an
entry for the file where it has none. -/
def registerManifest (s : FileNode P) (m : Json) : FileNode P × Except String Unit :=
  match fileKey m with
  | .error e => (s, .error e)
  | .ok key =>
    ({ s with
        manifests := s.manifests.set key m
        store := (s.store.registerManifest key m).1 }, (s.store.registerManifest key m).2)

/-- The number of chunks that a `HAVE` is read with, unless it is `null` or `undefined`. -/
def chunkCount (s : FileNode P) (fileId : String) : Option Json :=
  let nb :=
    match (s.manifests.get fileId).filter Json.truthy with
    | some m => m.get "nb_chunks"
    | none =>
      match s.store.lookup fileId with
      | .entry e => e.nbChunks
      | _ => none
  nb.filter fun v ↦ !(v matches .null)

/-! ## Availability -/

/-- `_peerFileSet(peerHex, fileId)`, to which chunks are then added.  The sets are made where they
are missing, also for a session that has been closed. -/
def addHave (s : FileNode P) (peerHex fileId : String) (chunks : Finset ℕ) : FileNode P :=
  let byFile := (s.peerHave.get? peerHex).getD .empty
  let set := (byFile.get? fileId).getD ∅
  { s with peerHave := s.peerHave.set peerHex (byFile.set fileId (set ∪ chunks)) }

/-- The chunks of a file that a peer is known to have: what it has announced, and never
taken back. -/
def knownChunks (s : FileNode P) (peerHex fileId : String) : Finset ℕ :=
  ((s.peerHave.get? peerHex).bind (·.get? fileId)).getD ∅

theorem knownChunks_addHave {s : FileNode P} {peerHex f peer fileId : String}
    {chunks : Finset ℕ} : (s.addHave peerHex f chunks).knownChunks peer fileId =
      if peer = peerHex ∧ fileId = f then s.knownChunks peer fileId ∪ chunks
      else s.knownChunks peer fileId := by
  by_cases hpeer : peer = peerHex
  · subst hpeer
    rw [addHave, knownChunks, OrderedMap.get?_set_self, Option.bind_some]
    by_cases hfile : fileId = f
    · subst hfile
      rw [if_pos ⟨rfl, rfl⟩, OrderedMap.get?_set_self, Option.getD_some, knownChunks]
      cases s.peerHave.get? peer with
      | none => rfl
      | some byFile => rfl
    · rw [if_neg (not_and_of_not_right _ hfile), OrderedMap.get?_set_of_ne hfile, knownChunks]
      cases s.peerHave.get? peer with
      | none => rfl
      | some byFile => rfl
  · rw [if_neg (not_and_of_not_left _ hpeer), addHave, knownChunks, OrderedMap.get?_set_of_ne hpeer,
      knownChunks]

/-! ## Scheduling -/

/-- Whether a peer that has announced these chunks has the chunk `idx` of the file. -/
def offers (fileId : String) (idx : ℕ) (byFile : OrderedMap String (Finset ℕ)) : Bool :=
  (byFile.get? fileId).any fun set ↦ idx ∈ set

/-- `_availabilityCount`, of a chunk that is needed and not in flight: every key of `peerHave`
counts that announced it, attached or not. -/
def availabilityCount (s : FileNode P) (d : Download) (idx : ℕ) : ℕ :=
  (s.peerHave.entries.filter fun e ↦ offers d.fileId idx e.2).length

/-- The chunks that may be requested, rarest first: those that are needed, not in flight, and
announced by somebody. -/
def candidates (s : FileNode P) (d : Download) (rank : ℕ → ℕ) : List ℕ :=
  ((d.needed.filter fun idx ↦ !d.inFlight.has idx && 0 < s.availabilityCount d idx).sort
    (· ≤ ·)).mergeSort fun a b ↦
      s.availabilityCount d a < s.availabilityCount d b ||
        s.availabilityCount d a = s.availabilityCount d b && rank a ≤ rank b

/-- `_peersForChunk`: the attached sessions that announced the chunk and have not sent a bad copy of
it. -/
def peersForChunk (s : FileNode P) (d : Download) (idx : ℕ) : List String :=
  (s.peerHave.entries.filter fun e ↦
    offers d.fileId idx e.2 && !d.isBad idx e.1 && s.sessions.has e.1).map Prod.fst

/-- The first of the peers with the fewest requests in flight, if there is any peer for the
chunk. -/
def choosePeer (s : FileNode P) (d : Download) (idx : ℕ) : Option String :=
  ((s.peersForChunk d idx).mergeSort fun a b ↦ d.inFlightForPeer a ≤ d.inFlightForPeer b).head?

/-- `setTimeout` or `setInterval`: the new timer gets the next number, and is pending until it is
cleared. -/
def setTimer (s : FileNode P) (t : Timer) : FileNode P :=
  { s with timers := s.timers.set s.nextTimer t, nextTimer := s.nextTimer + 1 }

def clearTimer (s : FileNode P) (t : ℕ) : FileNode P := { s with timers := s.timers.delete t }

/-- The state of a download changes.  The source mutates the object that `downloads` holds; here it
is put back. -/
def putDownload (s : FileNode P) (d : Download) : FileNode P :=
  { s with downloads := s.downloads.set d.fileId d }

/-- The loop of `_schedule`: each candidate is asked of the peer that `choosePeer` finds, until
`parallel` requests are in flight. -/
def requestAll (s : FileNode P) (d : Download) : List ℕ → FileNode P
  | [] => s
  | idx :: rest =>
    if d.parallel ≤ d.inFlight.size then s
    else if d.inFlight.has idx then requestAll s d rest
    else
      match s.choosePeer d idx with
      | none => requestAll s d rest
      | some peerHex =>
        let d' := d.request idx peerHex s.nextTimer
        requestAll (((s.setTimer (.request d.fileId idx)).putDownload d').safeSend peerHex
          (FileProtocol.encChunkReq d.fileId idx)) d' rest

/-- `_schedule`: the candidates are computed once, rarest first, and requested while there is room.
Nothing happens for a download that is unknown or done. -/
def schedule (s : FileNode P) (fileId : String) (rank : ℕ → ℕ) : FileNode P :=
  match s.downloads.get? fileId with
  | none => s
  | some d => if d.done then s else s.requestAll d (s.candidates d rank)

/-- `clearTimeout(inf.timer); d.inFlight.delete(idx)`, if there is a request for the chunk: its
timer and its place in `inFlight` go together. -/
def release (s : FileNode P) (d : Download) (idx : ℕ) : FileNode P :=
  match d.inFlight.get? idx with
  | none => s
  | some inf => (s.clearTimer inf.timer).putDownload (d.release idx)

/-- `_onTimeout`: the request is released and the download scheduled again.  Nothing records which
peer has failed to answer, so the same one may be asked again. -/
def onTimeout (s : FileNode P) (fileId : String) (idx : ℕ) (rank : ℕ → ℕ) : FileNode P :=
  match s.downloads.get? fileId with
  | none => s
  | some d => if d.inFlight.has idx then (s.release d idx).schedule fileId rank else s

/-! ## Completion -/

/-- `clearTimeout` of every request in flight, when the download ends.  The requests themselves go
with it. -/
def clearRequests (s : FileNode P) (d : Download) : FileNode P :=
  d.inFlight.entries.foldl (fun s e ↦ s.clearTimer e.2.timer) s

/-- A promise is settled, unless it has been: as in JavaScript, only the first settlement counts. -/
def settle (s : FileNode P) (promise : ℕ) (r : Settlement) : FileNode P :=
  if s.settled.any fun e ↦ e.1 = promise then s
  else { s with settled := s.settled ++ [(promise, r)] }

/-- `sha === d.manifest.file_id`, a strict comparison, which the field fails if it is no string. -/
def matchesFileId (sha : String) (d : Download) : Bool :=
  Json.strictEq (.str sha) (d.manifest.get "file_id")

/-- `_complete`: every timer of the download is cleared, the file is assembled, the download is
forgotten, and its promise settled. -/
def complete (s : FileNode P) (fileId : String) : FileNode P :=
  match s.downloads.get? fileId with
  | none => s
  | some d =>
    if d.done then s
    else
      let s := (d.tick.elim s s.clearTimer).clearRequests d
      let (store, r) := s.store.assemble P fileId d.outPath
      let s := { s with store := store, downloads := s.downloads.delete fileId }
      match r with
      | .ok sha => s.settle d.promise (.resolved sha (matchesFileId sha d) d.outPath)
      | .error e => s.settle d.promise (.rejected e)

/-! ## Chunks -/

/-- `_serveChunk`: a chunk that the store lacks is answered with an `ACK` of `ACK_NOT_FOUND`, any
other with its data, hash and signature. -/
def serveChunk (s : FileNode P) (session : FileSession) (fileId : String) (idx : ℕ) :
    FileNode P × Except String Unit :=
  match s.store.hasChunk fileId idx with
  | .error e => (s, .error e)
  | .ok false =>
    (s.safeSend session.peerHex (FileProtocol.encAck idx FileProtocol.ackNotFound), .ok ())
  | .ok true =>
    match s.store.getChunk fileId idx with
    | .error e => (s, .error e)
    | .ok data =>
      let chunkHash := P.sha256 data
      let sig := P.signDetached (chunkSigMessage fileId idx chunkHash) s.signKey
      (s.safeSend session.peerHex (FileProtocol.encChunkData fileId idx chunkHash sig data), .ok ())

/-- The chunk is signed by the session's peer, and is what the manifest expects. -/
def goodChunk (P : Primitives) (session : FileSession) (fileId : String) (idx : ℕ)
    (chunkHash signature data : Buffer) (expected : Option Json) : Bool :=
  let okSig := (P.cryptoSignVerifyDetached signature (chunkSigMessage fileId idx chunkHash)
    session.peerId).toOption.getD false
  okSig && expected.any Json.truthy && Json.strictEq (.str (P.sha256 data).hex) expected &&
    Json.strictEq (.str chunkHash.hex) expected

/-- `_onChunkData`: the request is released before anything is checked.  A bad chunk marks its
sender and is acknowledged with a mismatch.  A good one is stored, acknowledged and announced to
every session, and the last of them completes the download. -/
def onChunkData (s : FileNode P) (session : FileSession) (fileId : String) (idx : ℕ)
    (chunkHash signature data : Buffer) (rank : ℕ → ℕ) : FileNode P × Except String Unit :=
  match s.downloads.get? fileId with
  | none => (s, .ok ())
  | some d =>
    match d.expectedHash idx with
    | .error e => (s, .error e)
    | .ok expected =>
      let s := s.release d idx
      let d := d.release idx
      if goodChunk P session fileId idx chunkHash signature data expected = false then
        let s := s.safeSend session.peerHex
          (FileProtocol.encAck idx FileProtocol.ackHashMismatch)
        let s := s.putDownload (d.markBad idx session.peerHex)
        ((s.emit (.corrupt fileId idx session.peerHex)).schedule fileId rank, .ok ())
      else
        let (store, r) := s.store.putChunk P fileId idx data expected
        let s := { s with store := store }
        match r with
        | .error e => (s, .error e)
        | .ok false => (s.schedule fileId rank, .ok ())
        | .ok true =>
          let d := d.receive idx
          let s := (s.putDownload d).safeSend session.peerHex
            (FileProtocol.encAck idx FileProtocol.ackOk)
          let s := s.broadcast (FileProtocol.encHavePiece fileId idx)
          let s := s.emit (.progress fileId idx d.received (d.manifest.get "nb_chunks"))
          (if d.needed = ∅ then s.complete fileId else s.schedule fileId rank, .ok ())

/-! ## Messages -/

/-- The case `MANIFEST`: a manifest that `verifyManifest` accepts is registered and emitted, and any
other dropped without a word. -/
def onManifest (s : FileNode P) (m : Json) : FileNode P × Except String Unit :=
  match Manifest.verifyManifest P m with
  | none => (s, .error "TypeError")
  | some false => (s, .ok ())
  | some true =>
    match (s.registerManifest m).2 with
    | .error e => ((s.registerManifest m).1, .error e)
    | .ok _ => ((s.registerManifest m).1.emit (.manifest m), .ok ())

/-- The case `HAVE`: the bit field is read with the chunk count of the manifest, or of the index
where there is none. -/
def onHave (s : FileNode P) (session : FileSession) (fileId : String) (bitfield : Buffer)
    (rank : ℕ → ℕ) : FileNode P × Except String Unit :=
  match s.chunkCount fileId with
  | none => (s, .ok ())
  | some nb =>
    match ChunkStore.parseBitfield bitfield (some nb) with
    | none => (s.addHave session.peerHex fileId ∅, .error "TypeError")
    | some chunks =>
      ((s.addHave session.peerHex fileId chunks.toFinset).schedule fileId rank, .ok ())

/-- `handleMessage`: one message of a session is decoded and given to its case.  A message that
cannot be decoded is an `error` event, and changes nothing. -/
def handleMessage (jsonParse : Buffer → Option Json) (s : FileNode P) (session : FileSession)
    (buf : Buffer) (rank : ℕ → ℕ) : FileNode P × Except String Unit :=
  match FileProtocol.decode jsonParse buf with
  | .error e => (s, .error e)
  | .ok (.manifest m) => s.onManifest m
  | .ok (.have fileId bitfield) => s.onHave session fileId bitfield rank
  | .ok (.havePiece fileId idx) =>
    ((s.addHave session.peerHex fileId {idx}).schedule fileId rank, .ok ())
  | .ok (.chunkReq fileId idx) => s.serveChunk session fileId idx
  | .ok (.chunkData fileId idx chunkHash signature data) =>
    s.onChunkData session fileId idx chunkHash signature data rank
  | .ok (.ack _ _) => (s, .ok ())

/-! ## Sessions -/

/-- What a new session is told of each file of the index: its manifest, if one is registered, and
the bit field of its chunks. -/
def announce (s : FileNode P) (peerHex : String) : List String → FileNode P × Except String Unit
  | [] => (s, .ok ())
  | fileId :: rest =>
    let s := ((s.manifests.get fileId).filter Json.truthy).elim s fun m ↦
      s.safeSend peerHex (FileProtocol.encManifest m)
    match s.store.bitfield fileId with
    | .error e => (s, .error e)
    | .ok bf => announce (s.safeSend peerHex (FileProtocol.encHave fileId bf)) peerHex rest

/-- Announcing sends messages, and does nothing else, whether it goes to its end or throws on the
way. -/
theorem announce_eq (s : FileNode P) (peerHex : String) (files : List String) :
    ∃ sent, (s.announce peerHex files).1 = { s with sent := sent } := by
  induction files generalizing s with
  | nil => exact ⟨s.sent, rfl⟩
  | cons fileId files ih =>
    obtain ⟨sent, hsent⟩ : ∃ sent, ((s.manifests.get fileId).filter Json.truthy).elim s
        (fun m ↦ s.safeSend peerHex (FileProtocol.encManifest m)) = { s with sent := sent } := by
      cases (s.manifests.get fileId).filter Json.truthy with
      | none => exact ⟨s.sent, rfl⟩
      | some m => exact ⟨_, rfl⟩
    rw [announce, hsent]
    dsimp only
    split
    · exact ⟨sent, rfl⟩
    · obtain ⟨sent', hsent'⟩ := ih (safeSend { s with sent := sent } peerHex _)
      exact ⟨sent', hsent'⟩

/-- The key that the next session gets: the identity of the peer and a number that no session had
before. -/
def sessionKey (s : FileNode P) (peerId : Buffer) : String :=
  peerId.hex ++ "#" ++ Nat.repr (s.seq + 1)

/-- `attachSession`: the session gets a key of its own and an empty availability, and is told what
the store has. -/
def attachSession (s : FileNode P) (peerId : Buffer) : FileNode P × Except String Unit :=
  let peerHex := s.sessionKey peerId
  let s := { s with
    seq := s.seq + 1
    sessions := s.sessions.set peerHex peerId
    peerHave := s.peerHave.set peerHex ((s.peerHave.get? peerHex).getD .empty) }
  s.announce peerHex ((enumerate s.store.files.entries).map Prod.fst)

/-- What attaching a session changes: one entry of `sessions` and of `peerHave`, and the messages
that announce the store. -/
theorem attachSession_eq (s : FileNode P) (peerId : Buffer) :
    ∃ sent, (s.attachSession peerId).1 = { s with
      seq := s.seq + 1
      sessions := s.sessions.set (s.sessionKey peerId) peerId
      peerHave := s.peerHave.set (s.sessionKey peerId)
        ((s.peerHave.get? (s.sessionKey peerId)).getD .empty)
      sent := sent } := by
  rw [attachSession]
  exact announce_eq _ _ _

theorem knownChunks_attachSession {s : FileNode P} {peerId : Buffer} {peer fileId : String} :
    (s.attachSession peerId).1.knownChunks peer fileId = s.knownChunks peer fileId := by
  obtain ⟨sent, hattach⟩ := attachSession_eq s peerId
  rw [hattach, knownChunks, knownChunks, OrderedMap.get?_set]
  split
  · next hpeer =>
    subst hpeer
    cases s.peerHave.get? (s.sessionKey peerId) with
    | none => rfl
    | some byFile => rfl
  · rfl

/-- The requests of one download to a peer that is gone: their timers are cleared, and they leave
`inFlight`. -/
def releasePeer (s : FileNode P) (fileId peerHex : String) : FileNode P :=
  match s.downloads.get? fileId with
  | none => s
  | some d =>
    let lost := d.inFlight.entries.filter fun e ↦ e.2.peerHex = peerHex
    let s := lost.foldl (fun s e ↦ s.clearTimer e.2.timer) s
    s.putDownload { d with inFlight := d.inFlight.filter fun e ↦ e.2.peerHex ≠ peerHex }

/-- The loop of `_onClose` over the downloads: each loses its requests to the peer, and is scheduled
again without it. -/
def fallBack (s : FileNode P) (peerHex : String) (rank : String → ℕ → ℕ) :
    List String → FileNode P
  | [] => s
  | fileId :: rest =>
    fallBack ((s.releasePeer fileId peerHex).schedule fileId (rank fileId)) peerHex rank rest

/-- `_onClose`: the session and what it announced are forgotten, and every download falls back on
the peers that remain. -/
def onClose (s : FileNode P) (peerHex : String) (rank : String → ℕ → ℕ) : FileNode P :=
  let s := { s with
    sessions := s.sessions.delete peerHex
    peerHave := s.peerHave.delete peerHex }
  (s.fallBack peerHex rank ((enumerate s.downloads.entries).map Prod.fst)).emit (.peerclose peerHex)

/-! ## Downloading and seeding -/

/-- The chunks below `n` that the store lacks, which are those that a new download needs. -/
def missing (store : ChunkStore) (fileId : String) (n : ℕ) : Except String (Finset ℕ) :=
  match store.lookup fileId with
  | .entry e => .ok ((Finset.range n).filter fun i ↦ i ∉ e.chunks)
  | .absent => .ok (Finset.range n)
  | .inherited =>
    if n = 0 then .ok ∅ else .error "Cannot read properties of undefined (reading 'includes')"

/-- Every session is told what the store has of the file, when a download of it starts. -/
def broadcastHave (s : FileNode P) (fileId : String) : FileNode P × Except String Unit :=
  if s.sessions.entries = [] then (s, .ok ())
  else
    match s.store.bitfield fileId with
    | .error e => (s, .error e)
    | .ok bf => (s.broadcast (FileProtocol.encHave fileId bf), .ok ())

/-- The executor of the promise that `download` returns: an exception rejects the promise.  A
manifest that counts no chunks to an end fills `needed` until the `Set` refuses more.  `received`
starts from the turns of that loop, which are `nb_chunks` where this is a natural number. -/
def startDownload (s : FileNode P) (m : Json) (fileId : String) (outPath : Location)
    (parallel : ℕ) (promise : ℕ) (rank : ℕ → ℕ) : FileNode P :=
  match loopCount (m.get "nb_chunks") with
  | none => s.settle promise (.rejected "Set maximum size exceeded")
  | some n =>
    match missing s.store fileId n with
    | .error e => s.settle promise (.rejected e)
    | .ok needed =>
      let d : Download :=
        { manifest := m, fileId := fileId, outPath := outPath, needed := needed
          inFlight := .empty, badPeerForChunk := .empty, parallel := parallel
          promise := promise, done := false, received := n - needed.card, tick := none }
      let (s, r) := (s.putDownload d).broadcastHave fileId
      match r with
      | .error e => s.settle promise (.rejected e)
      | .ok _ =>
        if needed = ∅ then s.complete fileId
        else
          let d := { d with tick := some s.nextTimer }
          ((s.setTimer (.tick fileId)).putDownload d).schedule fileId rank

/-- `download`; `parallel` is the option, `none` or zero when it is absent. -/
def download (s : FileNode P) (m : Json) (outPath : Location) (parallel : Option ℕ)
    (rank : ℕ → ℕ) : FileNode P × Except String ℕ :=
  let (s, r) := s.registerManifest m
  match r with
  | .error e => (s, .error e)
  | .ok _ =>
    match m.get "file_id" with
    | some (.str fileId) =>
      let promise := s.nextPromise
      let s := { s with nextPromise := promise + 1 }
      let parallel := (parallel.filter fun n ↦ n ≠ 0).getD s.parallel
      (s.startDownload m fileId outPath parallel promise rank, .ok promise)
    | _ => (s, .error "ERR_INVALID_ARG_TYPE")

/-- How long `Buffer.alloc(size)` is: the fraction is dropped, and a size that is negative, too
large or not finite throws, which is `none`. -/
def allocLength : Number → Option ℕ
  | .finite q => if 0 ≤ q ∧ q ≤ Buffer.maxLength then some ⌊q⌋₊ else none
  | _ => none

/-- `manifest.chunks[i]`, of an array, an object or a string; `none` if it is `undefined` or throws.
Of a character nothing is read. -/
def chunkAt (m : Json) (i : ℕ) : Option Json :=
  match m.get "chunks" with
  | some (.arr chunks) => chunks[i]?
  | some (.str text) => if i < (Utf16.ofText text.toList).length then some (.str "") else none
  | some v => v.get (Nat.repr i)
  | none => none

/-- `fs.readSync(fd, buf, 0, size, position)`, where `fd` is the open file: what `buf` then
holds. -/
def readSync (fs : FileSystem) (loc : Location) (buf : Buffer) (size position : Number) :
    Except String Buffer :=
  let length := size.toInt32
  if length = 0 then .ok buf
  else if buf = [] then .error "ERR_INVALID_ARG_VALUE"
  else if length < 0 ∨ buf.length < length then .error "ERR_OUT_OF_RANGE"
  else
    match position.safeNat? with
    | none => .error "ERR_OUT_OF_RANGE"
    | some start =>
      (fs.readSync loc length.toNat start).map fun read ↦ read ++ buf.drop read.length

/-- `buf.subarray(0, stop)`, where `stop` may be `undefined`. -/
def firstBytes (buf : Buffer) : Option Number → Buffer
  | none => buf
  | some .nan => []
  | some (.infinity negative) => if negative then [] else buf
  | some (.finite q) =>
    let stop := Number.trunc q
    buf.take (if stop < 0 then buf.length + stop else stop).toNat

/-- One turn of the loop of `seed`: what is read over the start of `buf`, and the chunk.  By now
`chunk_size` is a number, for which `buf` has been allocated. -/
def seedChunk (s : FileNode P) (m : Json) (fileId : String) (filePath : Location) (buf : Buffer)
    (i : ℕ) : FileNode P × Except String Buffer :=
  match chunkAt m i with
  | none | some .null => (s, .error "TypeError")
  | some c =>
    match (c.get "size").elim (some .nan) Json.toNumber with
    | none => (s, .error "TypeError")
    | some size =>
      let chunkSize := ((m.get "chunk_size").bind Json.toNumber).getD .nan
      match readSync s.store.disk filePath buf size ((Number.ofNat i).mul chunkSize) with
      | .error e => (s, .error e)
      | .ok buf =>
        let data := firstBytes buf ((c.get "size").map fun _ ↦ size)
        let (store, r) := s.store.putChunk P fileId i data (c.get "hash")
        ({ s with store := store }, r.map fun _ ↦ buf)

/-- A turn of the loop stores what it has read, or throws before. -/
theorem seedChunk_cases (s : FileNode P) (m : Json) (fileId : String) (filePath : Location)
    (buf : Buffer) (i : ℕ) : (s.seedChunk m fileId filePath buf i).1 = s ∨
      ∃ c data, chunkAt m i = some c ∧ (s.seedChunk m fileId filePath buf i).1 =
        { s with store := (s.store.putChunk P fileId i data (c.get "hash")).1 } := by
  rw [seedChunk]
  split
  · exact .inl rfl
  · exact .inl rfl
  · next c _ hc =>
    split
    · exact .inl rfl
    · dsimp only
      split
      · exact .inl rfl
      · exact .inr ⟨c, _, hc, rfl⟩

/-- The loop of `seed` over the indices.  One buffer is read over again and again, so that a short
chunk leaves the end of the one before it in place. -/
def seedChunks (s : FileNode P) (m : Json) (fileId : String) (filePath : Location) (buf : Buffer) :
    List ℕ → FileNode P × Except String Unit
  | [] => (s, .ok ())
  | i :: is =>
    let (s, r) := s.seedChunk m fileId filePath buf i
    match r with
    | .error e => (s, .error e)
    | .ok buf => seedChunks s m fileId filePath buf is

/-- `seed`: the manifest is registered before the file is opened.  Its chunks are then read and
stored one by one, and every session is told of the manifest and the chunks. -/
def seed (s : FileNode P) (m : Json) (filePath : Location) : FileNode P × Except String Unit :=
  let (s, r) := s.registerManifest m
  match r, m.get "file_id", m.get "chunk_size", loopCount (m.get "nb_chunks") with
  | .error e, _, _, _ => (s, .error e)
  | .ok _, some (.str fileId), some (.num chunkSize), some n =>
    match s.store.disk.openSync filePath, allocLength chunkSize with
    | .error e, _ => (s, .error e)
    | .ok _, none => (s, .error "ERR_OUT_OF_RANGE")
    | .ok _, some length =>
      let (s, r) := s.seedChunks m fileId filePath (List.replicate length 0) (List.range n)
      match r with
      | .error e => (s, .error e)
      | .ok _ =>
        if s.sessions.entries = [] then (s, .ok ())
        else
          match s.store.bitfield fileId with
          | .error e => (s.broadcast (FileProtocol.encManifest m), .error e)
          | .ok bf =>
            ({ s with sent := s.sent ++ s.sessions.keys.flatMap fun peerHex ↦
              [(peerHex, FileProtocol.encManifest m), (peerHex, FileProtocol.encHave fileId bf)] },
              .ok ())
  | .ok _, _, _, _ => (s, .error "ERR_INVALID_ARG_TYPE")

/-! ## Events -/

end FileNode

/-- What can happen to a file node: a session comes, speaks or goes, a timer fires, or the
application asks for a download or a seed. -/
inductive FileEvent where
  | attach (peerId : Buffer)
  | message (session : FileSession) (buf : Buffer) (rank : ℕ → ℕ)
  | close (peerHex : String) (rank : String → ℕ → ℕ)
  | timer (t : ℕ) (rank : ℕ → ℕ)
  | download (m : Json) (outPath : Location) (parallel : Option ℕ) (rank : ℕ → ℕ)
  | seed (m : Json) (filePath : Location)

namespace FileNode

variable {P : Primitives}

/-- A timer fires, if it is still pending: a timeout once, an interval again and again until it is
cleared. -/
def fire (s : FileNode P) (t : ℕ) (rank : ℕ → ℕ) : FileNode P :=
  match s.timers.get? t with
  | none => s
  | some (.request fileId idx) => (s.clearTimer t).onTimeout fileId idx rank
  | some (.tick fileId) => s.schedule fileId rank

def next (jsonParse : Buffer → Option Json) (s : FileNode P) : FileEvent → FileNode P
  | .attach peerId => (s.attachSession peerId).1
  | .message session buf rank => (s.handleMessage jsonParse session buf rank).1
  | .close peerHex rank => s.onClose peerHex rank
  | .timer t rank => s.fire t rank
  | .download m outPath parallel rank => (s.download m outPath parallel rank).1
  | .seed m filePath => (s.seed m filePath).1

/-- The file node as a machine: it starts on any store with any key, and takes any event in any
state. -/
def machine (jsonParse : Buffer → Option Json) : Machine (FileNode P) FileEvent :=
  .ofFun (fun s ↦ ∃ signKey store parallel, s = .new signKey store parallel) (fun _ _ ↦ True)
    (next jsonParse)

end FileNode

end AttestP2P
