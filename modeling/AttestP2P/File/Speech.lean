import AttestP2P.File.Catalogue
import AttestP2P.File.Retries
import AttestP2P.Lib.Exchange

/-!
# What a node that shares files says

The nodes of a swarm can rely on each other if they share a catalogue: one manifest for each file,
and one content, from which all chunks come.  This module is about the messages of a single node
that keeps to it.

* `Catalogue.note` is what a message says to the nodes that share the files: that a chunk is there,
  that it is asked for, that it is answered, or that a file exists.
* `Catalogue.Speaks`: what such a node may say; it is `Genuine`, and what it mentions is there.  It
  stays true as the store grows.
* `Catalogue.Says`: a part of a handler says nothing else, and that to open sessions only.  It
  composes like the handlers do, by `Says.trans` and a lemma for each loop over sessions or
  requests.
* `says_next` says it of every event.

The sections follow the source: what the small functions send first, then each handler.
-/

set_option autoImplicit false

namespace AttestP2P

namespace Catalogue

open FileNode ChunkStore FileProtocol Slices

variable {P : Primitives} {jsonParse : Buffer → Option Json} {C : Catalogue P jsonParse}
  {s s' s'' : FileNode P} {f g : String} {x y : SharedFile P} {i : ℕ} {m buf : Buffer}

/-! ## Messages -/

variable (C) in
/-- What a decoded message says, in the terms of the protocol of announcements. -/
def meaning : FileMessage → Note String (String × ℕ)
  | .manifest m =>
    match m.get "file_id" with
    | some (.str f) => .introduction f
    | _ => .other
  | .have f bitfield => .list f {x | x.1 = f ∧ C.Has f x.2 ∧ bitSet bitfield x.2 = true}
  | .havePiece f i => .item (f, i)
  | .chunkReq f i => .request (f, i)
  | .chunkData f i _ _ _ => .answer (f, i)
  | .ack _ _ => .other

variable (C) in
/-- What a message says: what it decodes to, or nothing at all. -/
def note (buf : Buffer) : Note String (String × ℕ) :=
  match FileProtocol.decode jsonParse buf with
  | .ok message => C.meaning message
  | .error _ => .other

theorem note_of_decode {message : FileMessage}
    (h : FileProtocol.decode jsonParse buf = .ok message) : C.note buf = C.meaning message := by
  rw [note, h]

theorem isFileId (hx : C.file f = some x) : IsFileId f := ⟨x.digest, x.length_digest, hex_eq hx⟩

theorem Has.isFileId (h : C.Has f i) : IsFileId f := by
  obtain ⟨x, hx, -⟩ := h
  exact Catalogue.isFileId hx

theorem Has.lt (h : C.Has f i) : i < 2 ^ 32 := by
  obtain ⟨x, -, hi⟩ := h
  have hle := x.count_lt
  omega

theorem decode_have (hx : C.file f = some x) (bitfield : Buffer) :
    FileProtocol.decode jsonParse (encHave f bitfield) = .ok (.have f bitfield) := by
  rw [hex_eq hx]
  exact decode_encHave x.length_digest bitfield

theorem decode_havePiece (h : C.Has f i) :
    FileProtocol.decode jsonParse (encHavePiece f i) = .ok (.havePiece f i) := by
  obtain ⟨id, hid, rfl⟩ := h.isFileId
  exact decode_encHavePiece hid h.lt

theorem decode_chunkReq (h : C.Has f i) :
    FileProtocol.decode jsonParse (encChunkReq f i) = .ok (.chunkReq f i) := by
  obtain ⟨id, hid, rfl⟩ := h.isFileId
  exact decode_encChunkReq hid h.lt

theorem note_encManifest (hx : C.file f = some x) :
    C.note (encManifest x.manifest) = .introduction f := by
  rw [note_of_decode (decode_encManifest (C.parses f x hx)), meaning, get_fileId hx]

theorem note_encHave (hx : C.file f = some x) (bitfield : Buffer) :
    C.note (encHave f bitfield) =
      .list f {x | x.1 = f ∧ C.Has f x.2 ∧ bitSet bitfield x.2 = true} :=
  note_of_decode (decode_have hx bitfield)

theorem note_encHavePiece (h : C.Has f i) : C.note (encHavePiece f i) = .item (f, i) :=
  note_of_decode (decode_havePiece h)

theorem note_encChunkReq (h : C.Has f i) : C.note (encChunkReq f i) = .request (f, i) :=
  note_of_decode (decode_chunkReq h)

/-- `_serveChunk` sends this for a chunk that the node has. -/
def answer (signKey : P.SignKey) (f : String) (i : ℕ) (data : Buffer) : Buffer :=
  encChunkData f i (P.sha256 data)
    (P.signDetached (chunkSigMessage f i (P.sha256 data)) signKey) data

theorem decode_answer (hP : P.Lawful) (h : C.Has f i) (signKey : P.SignKey) (data : Buffer) :
    FileProtocol.decode jsonParse (answer signKey f i data) = .ok (.chunkData f i (P.sha256 data)
      (P.signDetached (chunkSigMessage f i (P.sha256 data)) signKey) data) := by
  have hwell : WellFormed jsonParse (.chunkData f i (P.sha256 data)
      (P.signDetached (chunkSigMessage f i (P.sha256 data)) signKey) data) :=
    ⟨h.isFileId, h.lt, hP.length_sha256 _, hP.length_signDetached _ _⟩
  exact decode_encode hwell

theorem note_answer (hP : P.Lawful) (h : C.Has f i) (signKey : P.SignKey) (data : Buffer) :
    C.note (answer signKey f i data) = .answer (f, i) :=
  note_of_decode (decode_answer hP h signKey data)

/-- An acknowledgement is decoded as one, whatever the index. -/
theorem exists_decode_encAck (jsonParse : Buffer → Option Json) (i : ℕ) (status : UInt8) :
    ∃ j status',
      FileProtocol.decode jsonParse (encAck i status) = .ok (.ack j status') := by
  have hlen : ¬(Buffer.uint32BE i ++ [status]).length < 0 + 4 := by
    rw [List.length_append, Buffer.length_uint32BE]
    omega
  have hdecode : FileProtocol.decode jsonParse (encAck i status) =
    (readUInt32BE (Buffer.uint32BE i ++ [status]) 0).map fun idx ↦
      .ack idx (Buffer.uint32BE i ++ [status])[4]? := rfl
  rw [hdecode, readUInt32BE, if_neg hlen]
  exact ⟨_, _, rfl⟩

/-! ## What may be said

Nothing is said of a chunk that is not in the store, no manifest is sent that is not of the
catalogue, and no request is made for a chunk that there is not. -/

variable (C) in
/-- A node that shares the files may say this. -/
inductive Speaks (s : FileNode P) : Buffer → Prop
  | manifest {f : String} {x : SharedFile P} (hx : C.file f = some x) :
    Speaks s (encManifest x.manifest)
  | have {f : String} {x : SharedFile P} {bitfield : Buffer} (hx : C.file f = some x)
    (hheld : ∀ i, C.Has f i → bitSet bitfield i = true → s.store.hasChunk f i = .ok true) :
    Speaks s (encHave f bitfield)
  | havePiece {f : String} {i : ℕ} (h : C.Has f i) (hheld : s.store.hasChunk f i = .ok true) :
    Speaks s (encHavePiece f i)
  | chunkReq {f : String} {i : ℕ} (h : C.Has f i) : Speaks s (encChunkReq f i)
  | chunkData {f : String} {x : SharedFile P} {i : ℕ} {data : Buffer} (hx : C.file f = some x)
    (hi : i < count x.content x.chunkSize)
    (hhash : Manifest.hashAt x.manifest i = some (.str (P.sha256 data).hex)) :
    Speaks s (answer s.signKey f i data)
  | ack (i : ℕ) (status : UInt8) : Speaks s (encAck i status)

theorem Speaks.mono (h : C.Speaks s m) (hkey : s'.signKey = s.signKey)
    (hgrows : s.store.Grows s'.store) : C.Speaks s' m := by
  cases h with
  | manifest hx => exact .manifest hx
  | «have» hx hheld => exact .have hx fun i hi hbit ↦ hgrows.hasChunk (hheld i hi hbit)
  | havePiece h hheld => exact .havePiece h (hgrows.hasChunk hheld)
  | chunkReq h => exact .chunkReq h
  | chunkData hx hi hhash =>
    rw [← hkey]
    exact .chunkData hx hi hhash
  | ack i status => exact .ack i status

/-- What is said is genuine: chunk data carry the bytes of the file and the signature of the
node. -/
theorem Speaks.genuine (hP : P.Lawful) (h : C.Speaks s m) :
    C.Genuine (P.publicKey s.signKey) m := by
  cases h with
  | manifest hx => exact ⟨_, decode_encManifest (C.parses _ _ hx), _, _, hx, rfl⟩
  | «have» hx => exact ⟨_, decode_have hx _, trivial⟩
  | havePiece h => exact ⟨_, decode_havePiece h, trivial⟩
  | chunkReq h => exact ⟨_, decode_chunkReq h, trivial⟩
  | chunkData hx hi hhash =>
    refine ⟨_, decode_answer hP ⟨_, hx, hi⟩ _ _, _, hx, ?_⟩
    rw [goodChunk, hhash, Primitives.cryptoSignVerifyDetached,
      if_neg (by simp [hP.length_signDetached]), if_neg (by simp [hP.length_publicKey]),
      hP.verify_sign]
    simp [Json.truthy, Json.strictEq, Except.toOption,
      (Location.isName_hex (List.ne_nil_of_length_eq_add_one (hP.length_sha256 _))).1]
  | ack i status =>
    obtain ⟨j, status', hdecode⟩ := exists_decode_encAck jsonParse i status
    exact ⟨_, hdecode, trivial⟩

/-- And what is mentioned is there: a node never announces a chunk that it does not hold. -/
theorem Speaks.holds (hP : P.Lawful) (h : C.Speaks s m) (hmentions : (C.note m).Mentions (f, i)) :
    s.store.hasChunk f i = .ok true := by
  cases h with
  | manifest hx =>
    rw [note_encManifest hx] at hmentions
    exact hmentions.elim
  | «have» hx hheld =>
    rw [note_encHave hx] at hmentions
    obtain ⟨rfl, hi, hbit⟩ := hmentions
    exact hheld i hi hbit
  | havePiece h hheld =>
    rw [note_encHavePiece h] at hmentions
    obtain ⟨rfl, rfl⟩ := Prod.mk.inj hmentions
    exact hheld
  | chunkReq h =>
    rw [note_encChunkReq h] at hmentions
    exact hmentions.elim
  | chunkData hx hi =>
    rw [note_answer hP ⟨_, hx, hi⟩] at hmentions
    exact hmentions.elim
  | ack j status =>
    obtain ⟨_, _, hdecode⟩ := exists_decode_encAck jsonParse j status
    rw [note_of_decode hdecode] at hmentions
    exact hmentions.elim

/-! ## What a part of a handler says

A handler is a sequence of small functions, each of which sends to some of the open sessions and may
change the store.  What they say is collected from the log of messages. -/

variable (C) in
/-- Sessions and settings are the same, the store loses nothing, and what is said goes to open
sessions and may be said. -/
structure Says (s s' : FileNode P) : Prop where
  sessions : s'.sessions = s.sessions
  settings : s'.settings = s.settings
  grows : s.store.Grows s'.store
  sent : ∃ out, s'.sent = s.sent ++ out ∧
    ∀ e ∈ out, s.sessions.has e.1 = true ∧ C.Speaks s' e.2

theorem Says.signKey (h : C.Says s s') : s'.signKey = s.signKey := congrArg Prod.fst h.settings

theorem Says.trans (h : C.Says s s') (h' : C.Says s' s'') : C.Says s s'' := by
  obtain ⟨out, heq, hout⟩ := h.sent
  obtain ⟨out', heq', hout'⟩ := h'.sent
  refine ⟨h'.sessions.trans h.sessions, h'.settings.trans h.settings, h.grows.trans h'.grows,
    out ++ out', by rw [heq', heq, List.append_assoc], fun e he ↦ ?_⟩
  rcases List.mem_append.mp he with he | he
  · exact ⟨(hout e he).1, (hout e he).2.mono h'.signKey h'.grows⟩
  · rw [← h.sessions]
    exact hout' e he

/-- Nothing is said, and the rest of the node has not changed but for a store that may have
grown. -/
theorem Says.of_eq (hsessions : s'.sessions = s.sessions) (hsettings : s'.settings = s.settings)
    (hgrows : s.store.Grows s'.store) (hsent : s'.sent = s.sent) : C.Says s s' :=
  ⟨hsessions, hsettings, hgrows, [], by rw [hsent, List.append_nil], fun e he ↦ by cases he⟩

theorem grows_refl (store : ChunkStore) : store.Grows store := .of_files_eq rfl

theorem Says.refl (s : FileNode P) : C.Says s s := .of_eq rfl rfl (grows_refl _) rfl

theorem says_safeSend {peerHex : String} (hopen : s.sessions.has peerHex = true)
    (h : C.Speaks s m) : C.Says s (s.safeSend peerHex m) :=
  ⟨rfl, rfl, grows_refl _, _, rfl, List.forall_mem_singleton.mpr
    ⟨hopen, h.mono rfl (grows_refl _)⟩⟩

theorem says_broadcast (h : C.Speaks s m) : C.Says s (s.broadcast m) := by
  refine ⟨rfl, rfl, grows_refl _, _, rfl, fun e he ↦ ?_⟩
  obtain ⟨peerHex, hmem, rfl⟩ := List.mem_map.mp he
  exact ⟨OrderedMap.has_iff.mpr hmem, h.mono rfl (grows_refl _)⟩

theorem says_store {store : ChunkStore} (h : s.store.Grows store) :
    C.Says s { s with store := store } := .of_eq rfl rfl h rfl

theorem says_settle (promise : ℕ) (r : Settlement) : C.Says s (s.settle promise r) := by
  rw [settle]
  split
  · exact .refl s
  · exact .of_eq rfl rfl (grows_refl _) rfl

theorem says_release (d : Download) (i : ℕ) : C.Says s (s.release d i) := by
  rw [FileNode.release]
  split
  · exact .refl s
  · exact .of_eq rfl rfl (grows_refl _) rfl

/-- **`_schedule`** asks for chunks that are needed, and says nothing else. -/
theorem says_schedule (hk : s.Keyed) (hneeds : s.Needs C.Has) (f : String) (rank : ℕ → ℕ) :
    C.Says s (s.schedule f rank) := by
  rw [FileNode.schedule]
  split
  · exact .refl s
  · next d hd =>
    obtain rfl := hk f d hd
    split
    · exact .refl s
    · obtain ⟨requests, heq, hassigned⟩ :=
        requestAll_eq (s.candidates d rank) hd (nodup_candidates s d rank)
      rw [heq]
      refine ⟨rfl, rfl, grows_refl _, _, rfl, fun e he ↦ ?_⟩
      obtain ⟨request, hrequest, rfl⟩ := List.mem_map.mp he
      obtain ⟨k, hk⟩ := List.mem_iff_getElem?.mp hrequest
      have hneeded : request.1 ∈ d.needed := by
        have hmem : request.1 ∈ requests.map Prod.fst := List.mem_map_of_mem hrequest
        rw [hassigned.idxs] at hmem
        exact (mem_filter_candidates.mp (List.mem_of_mem_take hmem)).needed
      exact ⟨(mayServe_of_choosePeer (hassigned.chosen k request hk)).connected,
        .chunkReq (hneeds d.fileId d hd _ hneeded)⟩

theorem sent_settle (s : FileNode P) (promise : ℕ) (r : Settlement) :
    (s.settle promise r).sent = s.sent := by
  rw [settle]
  split
  · rfl
  · rfl

/-- `_complete` says nothing: that the file is whole has been told chunk by chunk. -/
theorem says_complete (f : String) : C.Says s (s.complete f) := by
  rw [FileNode.complete]
  split
  · exact .refl s
  · next d _ =>
    split
    · exact .refl s
    · have htick : C.Says s (d.tick.elim s s.clearTimer) := by
        cases d.tick with
        | none => exact .refl s
        | some t => exact .of_eq rfl rfl (grows_refl _) rfl
      have hclear (s : FileNode P) : C.Says s (s.clearRequests d) := by
        rw [clearRequests]
        generalize d.inFlight.entries = entries
        induction entries generalizing s with
        | nil => exact .refl s
        | cons e entries ih =>
          have hone : C.Says s (s.clearTimer e.2.timer) := .of_eq rfl rfl (grows_refl _) rfl
          exact hone.trans (ih _)
      have hassemble (s : FileNode P) : C.Says s { s with
          store := (s.store.assemble P f d.outPath).1, downloads := s.downloads.delete f } :=
        .of_eq rfl rfl (.of_files_eq (files_assemble P s.store f d.outPath)) rfl
      dsimp only
      split
      · exact ((htick.trans (hclear _)).trans (hassemble _)).trans (says_settle ..)
      · exact ((htick.trans (hclear _)).trans (hassemble _)).trans (says_settle ..)

/-! ## What the handlers say -/

theorem Needs.quiet {B : String → ℕ → Prop} (h : s.Needs B) (hquiet : s.Quiet s') :
    s'.Needs B := by
  intro f d hd
  obtain ⟨d₀, hd₀, htask⟩ := hquiet.get? hd
  rw [show d.needed = d₀.needed from congrArg DownloadTask.needed htask.symm]
  exact h f d₀ hd₀

/-- A chunk with a hash is one of the file. -/
theorem has_of_hashAt (hx : C.file f = some x) {v : Json}
    (h : Manifest.hashAt x.manifest i = some v) : C.Has f i := by
  rw [Manifest.hashAt, x.describes.chunks] at h
  obtain ⟨c, hc, -⟩ := Option.bind_eq_some_iff.mp h
  have hlt := (List.getElem?_eq_some_iff.mp hc).1
  rw [Manifest.chunksOf, List.length_map, List.length_range] at hlt
  exact ⟨x, hx, hlt⟩

section
variable {session : FileSession} {rank : ℕ → ℕ} {chunkHash signature data : Buffer}

/-- The data is of a chunk of the file. -/
theorem has_of_chunkData (he : C.Permits s (.message session buf rank))
    (hdecode : FileProtocol.decode jsonParse buf =
      .ok (.chunkData f i chunkHash signature data)) : C.Has f i := by
  cases he with
  | message _ hgenuine =>
    obtain ⟨message, hdecode', hmessage⟩ := hgenuine
    obtain rfl := Except.ok.inj (hdecode'.symm.trans hdecode)
    obtain ⟨x, hx, hgood⟩ := hmessage
    obtain ⟨v, hv⟩ := hash_isSome_of_goodChunk hgood
    exact has_of_hashAt hx hv

/-- The node has stored the chunk, and tells everybody. -/
def stored (s : FileNode P) (session : FileSession) (d : Download) (f : String) (i : ℕ)
    (data : Buffer) : FileNode P :=
  (((putDownload { s.release d i with store := ((s.release d i).put f i data).1 }
    ((d.release i).receive i)).safeSend session.peerHex (encAck i ackOk)).broadcast
      (encHavePiece f i)).emit
        (.progress f i ((d.release i).receive i).received (d.manifest.get "nb_chunks"))

theorem release_eq (s : FileNode P) (d : Download) (i : ℕ) :
    ∃ timers downloads, s.release d i = { s with timers := timers, downloads := downloads } := by
  rw [FileNode.release]
  split
  · exact ⟨s.timers, s.downloads, rfl⟩
  · exact ⟨_, _, rfl⟩

theorem sent_stored (s : FileNode P) (session : FileSession) (d : Download) (f : String) (i : ℕ)
    (data : Buffer) : (stored s session d f i data).sent = s.sent ++
      (session.peerHex, encAck i ackOk) ::
        s.sessions.keys.map fun peerHex ↦ (peerHex, encHavePiece f i) := by
  obtain ⟨timers, downloads, heq⟩ := release_eq s d i
  rw [stored, heq, ← List.singleton_append, ← List.append_assoc]
  rfl

/-- A chunk that is good is stored, unless the disk fails. -/
theorem onChunkData_good (rank : ℕ → ℕ) {d : Download} {expected : Option Json}
    (hd : s.downloads.get? f = some d) (hexpected : d.expectedHash i = .ok expected)
    (hgood : FileNode.goodChunk P session f i chunkHash signature data expected = true) :
    (∃ err, s.onChunkData session f i chunkHash signature data rank =
      ({ s.release d i with store := ((s.release d i).put f i data).1 }, .error err)) ∨
    ((s.release d i).put f i data).2 = .ok true ∧
      s.onChunkData session f i chunkHash signature data rank =
        (if d.needed.erase i = ∅ then (stored s session d f i data).complete f
          else (stored s session d f i data).schedule f rank, .ok ()) := by
  obtain rfl := eq_of_goodChunk (by rw [hgood]; decide)
  have htrue : ((s.release d i).put f i data).2 ≠ .ok false := by
    rw [FileNode.put, putChunk, if_neg (by simp [Json.strictEq])]
    dsimp only
    split
    · exact fun h ↦ by cases h
    · split
      · exact fun h ↦ by cases h
      · exact fun h ↦ by cases h
      · split
        · exact fun h ↦ by cases h
        · cases (ChunkStore.save _).2 with
          | error err => exact fun h ↦ by cases h
          | ok _ => exact fun h ↦ by cases h
  rw [FileNode.onChunkData, hd]
  dsimp only
  rw [hexpected]
  dsimp only
  rw [if_neg (by simp [hgood])]
  split
  · next err _ => exact .inl ⟨err, rfl⟩
  · next hput => exact absurd hput htrue
  · next hput => exact .inr ⟨hput, rfl⟩

theorem grows_put (s : FileNode P) (f : String) (i : ℕ) (data : Buffer) :
    s.store.Grows (s.put f i data).1 := grows_putChunk P s.store f i data _

/-- The chunk is there once it has been put without an exception. -/
theorem hasChunk_stored (h : C.Honest s) {d : Download} (hd : s.downloads.get? f = some d)
    (hput : ((s.release d i).put f i data).2 = .ok true) (session : FileSession) :
    (stored s session d f i data).store.hasChunk f i = .ok true := by
  refine hasChunk_of_putChunk ?_ hput
  rw [(h.kept.keyed.quiet_release hd i).store]
  exact (h.active f d hd).known

theorem says_stored (h : C.Honest s) {d : Download} (hd : s.downloads.get? f = some d)
    (hi : C.Has f i) (hopen : s.sessions.has session.peerHex = true)
    (hput : ((s.release d i).put f i data).2 = .ok true) :
    C.Says s (stored s session d f i data) := by
  have hrelease : C.Says s (s.release d i) := says_release d i
  let s₁ : FileNode P := putDownload { s.release d i with
    store := ((s.release d i).put f i data).1 } ((d.release i).receive i)
  have hreceived : C.Says s s₁ :=
    hrelease.trans (.of_eq rfl rfl (grows_put (s.release d i) f i data) rfl)
  have hheld : s₁.store.hasChunk f i = .ok true := hasChunk_stored h hd hput session
  have hack : C.Says s₁ (s₁.safeSend session.peerHex (encAck i ackOk)) :=
    says_safeSend (by rwa [hreceived.sessions]) (.ack i ackOk)
  have hpiece : C.Says (s₁.safeSend session.peerHex (encAck i ackOk))
      ((s₁.safeSend session.peerHex (encAck i ackOk)).broadcast (encHavePiece f i)) :=
    says_broadcast (.havePiece hi hheld)
  exact ((hreceived.trans hack).trans hpiece).trans (.of_eq rfl rfl (grows_refl _) rfl)

theorem keyed_and_needs_stored (h : C.Honest s) {d : Download}
    (hd : s.downloads.get? f = some d) (session : FileSession) (data : Buffer) :
    (stored s session d f i data).Keyed ∧ (stored s session d f i data).Needs C.Has := by
  have hquiet := h.kept.keyed.quiet_release hd i
  have hkeyed := hquiet.keyed h.kept.keyed
  refine ⟨fun g d' hd' ↦ hkeyed.set rfl hd', fun g d' hd' j hj ↦ ?_⟩
  rcases get?_of_set (s := s.release d i) (d := (d.release i).receive i) rfl hd'
    with ⟨rfl, rfl⟩ | ⟨-, hold⟩
  · exact h.needs d.fileId d (by rw [h.kept.keyed f d hd, hd]) j (Finset.mem_of_mem_erase hj)
  · exact Needs.quiet h.needs hquiet g d' hold j hj

/-- The download goes on, or is complete: what is said after the chunk has been stored and
announced. -/
theorem says_after_stored (h : C.Honest s) {d : Download} (hd : s.downloads.get? f = some d) :
    C.Says (stored s session d f i data) (if d.needed.erase i = ∅ then
      (stored s session d f i data).complete f else
        (stored s session d f i data).schedule f rank) := by
  split
  · exact says_complete f
  · obtain ⟨hkeyed, hneeds⟩ := keyed_and_needs_stored h hd session data
    exact says_schedule hkeyed hneeds f rank

theorem says_onChunkData (h : C.Honest s) (he : C.Permits s (.message session buf rank))
    (hdecode : FileProtocol.decode jsonParse buf =
      .ok (.chunkData f i chunkHash signature data)) :
    C.Says s (s.onChunkData session f i chunkHash signature data rank).1 := by
  have hi := has_of_chunkData he hdecode
  have hopen : s.sessions.has session.peerHex = true := by
    cases he with
    | message hsession => exact Option.isSome_of_eq_some hsession
  cases hd : s.downloads.get? f with
  | none =>
    rw [FileNode.onChunkData, hd]
    exact .refl s
  | some d =>
    cases hexpected : d.expectedHash i with
    | error err =>
      rw [FileNode.onChunkData, hd]
      dsimp only
      rw [hexpected]
      exact .refl s
    | ok expected =>
      obtain ⟨err, heq⟩ | ⟨hput, heq⟩ := onChunkData_good rank hd hexpected
        (h.goodChunk he hdecode hd hexpected)
      · rw [heq]
        exact (says_release d i).trans (.of_eq rfl rfl (grows_put (s.release d i) f i data) rfl)
      · rw [heq]
        exact (says_stored h hd hi hopen hput).trans (says_after_stored h hd)

end

/-- What is listed is on the disk, with the hash of the file. -/
theorem Honest.held (h : C.Honest s) (hheld : s.store.hasChunk f i = .ok true) :
    ∃ x data, C.file f = some x ∧ s.store.disk (s.store.chunkPath f i) = some (.file data) ∧
      Manifest.hashAt x.manifest i = some (.str (P.sha256 data).hex) := by
  obtain ⟨entry, hentry, hi⟩ := hasChunk_iff.mp hheld
  obtain ⟨m, hm⟩ := Option.isSome_iff_exists.mp (h.entries f entry hentry)
  obtain ⟨x, hx, rfl⟩ := h.catalogued f m hm
  obtain ⟨-, data, hdisk, hhash⟩ := ((h.admits hx).entry entry hentry).chunks i hi
  exact ⟨x, data, hx, hdisk, hhash⟩

theorem says_serveChunk (h : C.Honest s) {session : FileSession}
    (hopen : s.sessions.has session.peerHex = true) :
    C.Says s (s.serveChunk session f i).1 := by
  rw [FileNode.serveChunk]
  split
  · exact .refl s
  · exact says_safeSend hopen (.ack i ackNotFound)
  · next hheld =>
    split
    · exact .refl s
    · next data hdata =>
      obtain ⟨x, data', hx, hdisk, hhash⟩ := h.held hheld
      have hsame := hdisk.symm.trans (FileSystem.readFileSync_eq_ok hdata).2
      obtain rfl := FsEntry.file.inj (Option.some.inj hsame)
      obtain ⟨y, hy, hi⟩ := has_of_hashAt hx hhash
      exact says_safeSend hopen (.chunkData hx (Option.some.inj (hx.symm.trans hy) ▸ hi) hhash)

theorem says_addHave (peerHex f : String) (chunks : Finset ℕ) :
    C.Says s (s.addHave peerHex f chunks) := .of_eq rfl rfl (grows_refl _) rfl

theorem says_registerManifest (m : Json) : C.Says s (s.registerManifest m).1 := by
  rw [FileNode.registerManifest]
  split
  · exact .refl s
  · next key _ => exact .of_eq rfl rfl (grows_registerManifest s.store key m) rfl

theorem says_emit (n : FileNotice) : C.Says s (s.emit n) := .of_eq rfl rfl (grows_refl _) rfl

theorem says_handleMessage (h : C.Honest s) {session : FileSession} {rank : ℕ → ℕ}
    (he : C.Permits s (.message session buf rank)) :
    C.Says s (s.handleMessage jsonParse session buf rank).1 := by
  have hopen : s.sessions.has session.peerHex = true := by
    cases he with
    | message hsession => exact Option.isSome_of_eq_some hsession
  have hhave (f : String) (chunks : Finset ℕ) :
      C.Says s ((s.addHave session.peerHex f chunks).schedule f rank) :=
    (says_addHave _ f chunks).trans
      (says_schedule (by exact h.kept.keyed) (by exact h.needs) f rank)
  rw [FileNode.handleMessage]
  split
  · exact .refl s
  · rw [FileNode.onManifest]
    split
    · exact .refl s
    · exact .refl s
    · split
      · exact says_registerManifest _
      · exact (says_registerManifest _).trans (says_emit _)
  · rw [FileNode.onHave]
    split
    · exact .refl s
    · split
      · exact says_addHave ..
      · exact hhave _ _
  · exact hhave _ _
  · exact says_serveChunk h hopen
  · next hdecode => exact says_onChunkData h he hdecode
  · exact .refl s

/-! ### Announcements

The bitfield that is sent is made of the index, and an index that lists only chunks that are there
makes a bitfield that tells no lies. -/

variable (C) in
/-- The index counts the chunks of the files as the manifests do. -/
def Counted (k : Knowledge) : Prop := ∀ f x nb, C.file f = some x → k.counts f = some nb →
  nb = x.manifest.get "nb_chunks"

theorem Honest.counted (h : C.Honest s) : C.Counted s.knowledge := by
  intro f x nb hx hnb
  obtain ⟨entry, hentry, rfl⟩ := Option.map_eq_some_iff.mp hnb
  exact ((h.admits hx).entry entry hentry).nbChunks

theorem Counted.register {k : Knowledge} (h : C.Counted k) (hx : C.file f = some x) :
    C.Counted (k.register x.manifest) := by
  intro g y nb hy hnb
  rw [Knowledge.register, fileKey_manifest hx] at hnb
  dsimp only at hnb
  split at hnb
  · next hg =>
    obtain ⟨rfl, -⟩ := hg
    obtain rfl := Option.some.inj (hx.symm.trans hy)
    cases hcount : k.counts g with
    | none =>
      rw [hcount] at hnb
      exact (Option.some.inj hnb).symm
    | some nb' =>
      rw [hcount] at hnb
      exact (Option.some.inj hnb).symm.trans (h g x nb' hx hcount)
  · exact h g y nb hy hnb

/-- The bits of the chunks that are there are set. -/
theorem bitSet_iff (h : C.Counted s.knowledge) (hi : C.Has f i) {bitfield : Buffer}
    (hbitfield : s.store.bitfield f = .ok bitfield) :
    bitSet bitfield i = true ↔ s.store.hasChunk f i = .ok true := by
  obtain ⟨x, hx, hlt⟩ := hi
  rw [hasChunk_iff]
  cases hentry : s.store.files.get? f with
  | none =>
    rw [ChunkStore.bitfield, ChunkStore.lookup, hentry] at hbitfield
    dsimp only at hbitfield
    rw [if_neg (notMem_inheritedNames hx)] at hbitfield
    obtain rfl := Except.ok.inj hbitfield
    rw [bitSet, List.getElem?_nil, Option.any_none, Bool.and_false]
    simp
  | some entry =>
    have hnb := h f x entry.nbChunks hx (by rw [knowledge]; dsimp only; rw [hentry]; rfl)
    rw [bitfield_eq x entry hentry hnb] at hbitfield
    obtain rfl := Except.ok.inj hbitfield
    rw [bitSet_bitfield x.count_lt hlt]
    simp

/-- What is announced of a file is there: the bits that are set are those of stored chunks. -/
theorem speaks_have (h : C.Counted s.knowledge) (hx : C.file f = some x) {bitfield : Buffer}
    (hbitfield : s.store.bitfield f = .ok bitfield) : C.Speaks s (encHave f bitfield) :=
  .have hx fun _ hi hbit ↦ (bitSet_iff h hi hbitfield).mp hbit

theorem says_announce {peerHex : String} (files : List String)
    (hopen : s.sessions.has peerHex = true) (hcounted : C.Counted s.knowledge)
    (hmanifests : ∀ f m, s.manifests.get f = some m → ∃ g x, C.file g = some x ∧ x.manifest = m)
    (hfiles : ∀ f ∈ files, (C.file f).isSome) : C.Says s (s.announce peerHex files).1 := by
  induction files generalizing s with
  | nil => exact .refl s
  | cons f files ih =>
    obtain ⟨hf, hfiles⟩ := List.forall_mem_cons.mp hfiles
    obtain ⟨x, hx⟩ := Option.isSome_iff_exists.mp hf
    have hsend : C.Says s (((s.manifests.get f).filter Json.truthy).elim s fun m ↦
        s.safeSend peerHex (encManifest m)) := by
      cases hm : (s.manifests.get f).filter Json.truthy with
      | none => exact .refl s
      | some m =>
        obtain ⟨g, y, hy, rfl⟩ := hmanifests f m (Option.eq_some_of_filter_eq_some hm)
        exact says_safeSend hopen (.manifest hy)
    have hsame : ∃ sent, ((s.manifests.get f).filter Json.truthy).elim s (fun m ↦
        s.safeSend peerHex (encManifest m)) = { s with sent := sent } := by
      cases (s.manifests.get f).filter Json.truthy with
      | none => exact ⟨s.sent, rfl⟩
      | some m => exact ⟨_, rfl⟩
    obtain ⟨sent, hsent⟩ := hsame
    rw [FileNode.announce]
    rw [hsent] at hsend ⊢
    dsimp only
    split
    · exact hsend
    · next bitfield hbitfield =>
      have hhave : C.Says { s with sent := sent }
          (safeSend { s with sent := sent } peerHex (encHave f bitfield)) :=
        says_safeSend hopen (speaks_have (by exact hcounted) hx hbitfield)
      exact (hsend.trans hhave).trans (ih (by exact hopen) (by exact hcounted)
        (by exact hmanifests) hfiles)

/-- A manifest that is found is in the table, and so in the catalogue. -/
theorem Honest.manifest_of_get (h : C.Honest s) {m : Json} (hm : s.manifests.get f = some m) :
    ∃ x, C.file f = some x ∧ x.manifest = m := by
  rw [JsonTable.get, h.kept.proto] at hm
  split at hm
  · cases hm
  · rw [Option.bind_none, Option.or_none] at hm
    exact h.catalogued f m hm

theorem Honest.file_of_mem (h : C.Honest s)
    (hf : f ∈ (enumerate s.store.files.entries).map Prod.fst) : (C.file f).isSome := by
  obtain ⟨⟨f, entry⟩, hmem, rfl⟩ := List.mem_map.mp hf
  obtain ⟨m, hm⟩ := Option.isSome_iff_exists.mp
    (h.entries f entry (OrderedMap.mem_entries_iff.mp (mem_enumerate.mp hmem)))
  obtain ⟨x, hx, -⟩ := h.catalogued f m hm
  exact Option.isSome_of_eq_some hx

/-- The node with the new session, of which nobody has heard yet. -/
def attached (s : FileNode P) (peerId : Buffer) : FileNode P := { s with
  seq := s.seq + 1
  sessions := s.sessions.set (s.sessionKey peerId) peerId
  peerHave := s.peerHave.set (s.sessionKey peerId)
    ((s.peerHave.get? (s.sessionKey peerId)).getD .empty) }

theorem says_attachSession (h : C.Honest s) (peerId : Buffer) :
    C.Says (attached s peerId) (s.attachSession peerId).1 := by
  refine says_announce _ ?_ h.counted (fun f m hm ↦ ⟨f, h.manifest_of_get hm⟩)
    fun f ↦ h.file_of_mem
  rw [attached, OrderedMap.has, OrderedMap.get?_set_self]
  rfl

/-! ### Sessions that close -/

theorem says_releasePeer (f peerHex : String) : C.Says s (s.releasePeer f peerHex) := by
  rw [FileNode.releasePeer]
  split
  · exact .refl s
  · next d _ =>
    dsimp only
    generalize d.inFlight.entries.filter (fun e ↦ e.2.peerHex = peerHex) = lost
    have hclear (s : FileNode P) :
        C.Says s (lost.foldl (fun s e ↦ s.clearTimer e.2.timer) s) := by
      induction lost generalizing s with
      | nil => exact .refl s
      | cons e lost ih =>
        have hone : C.Says s (s.clearTimer e.2.timer) := .of_eq rfl rfl (grows_refl _) rfl
        exact hone.trans (ih _)
    exact (hclear s).trans (.of_eq rfl rfl (grows_refl _) rfl)

theorem says_fallBack (hk : s.Keyed) (hneeds : s.Needs C.Has) (peerHex : String)
    (rank : String → ℕ → ℕ) (files : List String) :
    C.Says s (s.fallBack peerHex rank files) := by
  induction files generalizing s with
  | nil => exact .refl s
  | cons f files ih =>
    have hrelease := hk.quiet_releasePeer f peerHex
    have hschedule := (hrelease.keyed hk).quiet_schedule f (rank f)
    exact ((says_releasePeer f peerHex).trans
      (says_schedule (hrelease.keyed hk) (Needs.quiet hneeds hrelease) f (rank f))).trans
        (ih ((hrelease.trans hschedule).keyed hk) (Needs.quiet hneeds (hrelease.trans hschedule)))

/-- The node without the session, which is what `_onClose` starts from. -/
def detached (s : FileNode P) (peerHex : String) : FileNode P := { s with
  sessions := s.sessions.delete peerHex
  peerHave := s.peerHave.delete peerHex }

theorem says_onClose (h : C.Honest s) (peerHex : String) (rank : String → ℕ → ℕ) :
    C.Says (detached s peerHex) (s.onClose peerHex rank) :=
  (says_fallBack (s := detached s peerHex) h.kept.keyed h.needs peerHex rank _).trans (says_emit _)

theorem says_fire (h : C.Honest s) (t : ℕ) (rank : ℕ → ℕ) : C.Says s (s.fire t rank) := by
  have hclear : C.Says s (s.clearTimer t) := .of_eq rfl rfl (grows_refl _) rfl
  have hquiet := quiet_clearTimer s t
  have hkeyed := hquiet.keyed h.kept.keyed
  rw [FileNode.fire]
  split
  · exact .refl s
  · next f i _ =>
    rw [FileNode.onTimeout]
    split
    · exact hclear
    · next d hd =>
      split
      · have hrelease := hkeyed.quiet_release hd i
        exact (hclear.trans (says_release d i)).trans (says_schedule (hrelease.keyed hkeyed)
          (Needs.quiet h.needs (hquiet.trans hrelease)) f rank)
      · exact hclear
  · exact says_schedule h.kept.keyed h.needs _ rank

/-! ### Downloads and seeding -/

theorem says_startDownload (hk : s.Keyed) (hneeds : s.Needs C.Has)
    (hcounted : C.Counted s.knowledge) (hx : C.file f = some x) (outPath : Location)
    (parallel promise : ℕ) (rank : ℕ → ℕ) :
    C.Says s (s.startDownload x.manifest f outPath parallel promise rank) := by
  rw [FileNode.startDownload, loopCount_manifest]
  dsimp only
  split
  · exact says_settle ..
  · next needed hneeded =>
    let d (tick : Option ℕ) : Download :=
      { manifest := x.manifest, fileId := f, outPath := outPath, needed := needed
        inFlight := .empty, badPeerForChunk := .empty, parallel := parallel
        promise := promise, done := false
        received := (count x.content x.chunkSize : ℕ) - needed.card, tick := tick }
    have hput : C.Says s (s.putDownload (d none)) := .of_eq rfl rfl (grows_refl _) rfl
    have htold : C.Says s ((s.putDownload (d none)).broadcastHave f).1 := by
      rw [broadcastHave]
      split
      · exact hput
      · split
        · exact hput
        · next bitfield hbitfield =>
          exact hput.trans (says_broadcast (speaks_have (s := s.putDownload (d none))
            (by exact hcounted) hx hbitfield))
    have hstill := still_broadcastHave (s.putDownload (d none)) f
    split
    · exact htold.trans (says_settle ..)
    · split
      · exact htold.trans (says_complete f)
      · let s₁ : FileNode P := (((s.putDownload (d none)).broadcastHave f).1.setTimer
          (.tick f)).putDownload (d (some ((s.putDownload (d none)).broadcastHave f).1.nextTimer))
        have hticks : C.Says s s₁ := htold.trans (.of_eq rfl rfl (grows_refl _) rfl)
        have hkeyed : s₁.Keyed := by
          refine keyed_putDownload (fun g d' hd' ↦ ?_) _
          rw [show (FileNode.setTimer _ _).downloads = _ from hstill.downloads] at hd'
          exact keyed_putDownload hk (d none) g d' hd'
        have hneeded : s₁.Needs C.Has := by
          intro g d' hd' i hi
          rcases get?_of_set (s := ((s.putDownload (d none)).broadcastHave f).1) rfl hd'
            with ⟨rfl, rfl⟩ | ⟨hg, hold⟩
          · exact ⟨x, hx, lt_of_mem_missing hneeded hi⟩
          · rw [hstill.downloads] at hold
            rcases get?_of_set (s := s) rfl hold with ⟨rfl, -⟩ | ⟨-, hold⟩
            · exact absurd rfl hg
            · exact hneeds g d' hold i hi
        exact hticks.trans (says_schedule hkeyed hneeded f rank)

theorem keyed_registerManifest (hk : s.Keyed) (m : Json) : (s.registerManifest m).1.Keyed := by
  intro g d hd
  rw [downloads_registerManifest] at hd
  exact hk g d hd

theorem needs_registerManifest (h : s.Needs C.Has) (m : Json) :
    (s.registerManifest m).1.Needs C.Has := by
  intro g d hd
  rw [downloads_registerManifest] at hd
  exact h g d hd

theorem says_download (h : C.Honest s) (hx : C.file f = some x) (outPath : Location)
    (parallel : Option ℕ) (rank : ℕ → ℕ) :
    C.Says s (s.download x.manifest outPath parallel rank).1 := by
  have hregister : C.Says s (s.registerManifest x.manifest).1 := says_registerManifest _
  have hcounted : C.Counted (s.registerManifest x.manifest).1.knowledge := by
    rw [knowledge_registerManifest]
    exact h.counted.register hx
  rw [FileNode.download, get_fileId hx]
  dsimp only
  split
  · exact hregister
  · let s₁ : FileNode P := { (s.registerManifest x.manifest).1 with
      nextPromise := (s.registerManifest x.manifest).1.nextPromise + 1 }
    have hstarts : C.Says s s₁ := hregister.trans (.of_eq rfl rfl (grows_refl _) rfl)
    exact hstarts.trans (says_startDownload (s := s₁) (keyed_registerManifest h.kept.keyed _)
      (needs_registerManifest h.needs _) (by exact hcounted) hx _ _ _ _)

theorem says_seedChunks (s : FileNode P) (m : Json) (f : String) (filePath : Location)
    (buf : Buffer) (is : List ℕ) : C.Says s (s.seedChunks m f filePath buf is).1 := by
  induction is generalizing s buf with
  | nil => exact .refl s
  | cons i is ih =>
    have hchunk : C.Says s (s.seedChunk m f filePath buf i).1 := by
      obtain h | ⟨c, data, -, h⟩ := seedChunk_cases s m f filePath buf i
      · rw [h]
        exact .refl s
      · rw [h]
        exact says_store (grows_putChunk P s.store f i _ _)
    rw [FileNode.seedChunks]
    dsimp only
    split
    · exact hchunk
    · exact hchunk.trans (ih _ _)

theorem says_seed (h : C.Honest s) (hx : C.file f = some x) (filePath : Location) :
    C.Says s (s.seed x.manifest filePath).1 := by
  have hregister : C.Says s (s.registerManifest x.manifest).1 := says_registerManifest _
  rw [FileNode.seed, get_fileId hx]
  dsimp only
  split
  · exact hregister
  · next g chunkSize n _ hg _ _ =>
    obtain rfl : f = g := Json.str.inj (Option.some.inj hg)
    split
    · exact hregister
    · exact hregister
    · next length _ _ =>
      have hchunks := hregister.trans (says_seedChunks (C := C) (s.registerManifest x.manifest).1
        x.manifest f filePath (List.replicate length 0) (List.range n))
      have hcounted : C.Counted ((s.registerManifest x.manifest).1.seedChunks x.manifest f filePath
          (List.replicate length 0) (List.range n)).1.knowledge := by
        rw [knowledge_seedChunks, knowledge_registerManifest]
        exact h.counted.register hx
      split
      · exact hchunks
      · split
        · exact hchunks
        · split
          · exact hchunks.trans (says_broadcast (.manifest hx))
          · next bitfield hbitfield =>
            refine hchunks.trans ⟨rfl, rfl, grows_refl _, _, rfl, fun e he ↦ ?_⟩
            obtain ⟨peerHex, hmem, he⟩ := List.mem_flatMap.mp he
            rcases List.mem_pair.mp he with rfl | rfl
            · exact ⟨OrderedMap.has_iff.mpr hmem, .manifest hx⟩
            · exact ⟨OrderedMap.has_iff.mpr hmem,
                (speaks_have hcounted hx hbitfield).mono rfl (grows_refl _)⟩
  · exact hregister

/-- **What a node that shares the files says** goes to open sessions, and may be said. -/
theorem says_next (h : C.Honest s) {e : FileEvent} (he : C.Permits s e) :
    (s.next jsonParse e).settings = s.settings ∧
      ∃ out, (s.next jsonParse e).sent = s.sent ++ out ∧ ∀ msg ∈ out,
        (s.next jsonParse e).sessions.has msg.1 = true ∧ C.Speaks (s.next jsonParse e) msg.2 := by
  suffices hsaid : ∃ s₀ : FileNode P, s₀.settings = s.settings ∧ s₀.sent = s.sent ∧
      C.Says s₀ (s.next jsonParse e) by
    obtain ⟨s₀, hsettings, hsent, hsaid⟩ := hsaid
    obtain ⟨out, heq, hout⟩ := hsaid.sent
    refine ⟨hsaid.settings.trans hsettings, out, by rw [heq, hsent], ?_⟩
    rwa [hsaid.sessions]
  cases he with
  | attach peerId => exact ⟨attached s peerId, rfl, rfl, says_attachSession h peerId⟩
  | message hsession hgenuine hok =>
    exact ⟨s, rfl, rfl, says_handleMessage h (.message hsession hgenuine hok)⟩
  | close peerHex rank => exact ⟨detached s peerHex, rfl, rfl, says_onClose h peerHex rank⟩
  | timer t rank => exact ⟨s, rfl, rfl, says_fire h t rank⟩
  | download hx => exact ⟨s, rfl, rfl, says_download h hx _ _ _⟩
  | seed hx => exact ⟨s, rfl, rfl, says_seed h hx _⟩

end Catalogue

end AttestP2P
