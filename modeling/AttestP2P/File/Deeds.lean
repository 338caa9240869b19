import AttestP2P.File.Speech

/-!
# What a node does for others

Three deeds of a file node matter to the other nodes, and each of them belongs to one handler.

A node *announces* what it gets hold of.  `_onChunkData` sends a HAVE_PIECE to all sessions when a
chunk has been stored, `seed` sends the manifest and a HAVE for all chunks, and `attachSession`
greets a new peer with the manifests and bitfields of the whole store.  The claims
`Honest.announces_chunkData`, `Honest.announces_seed` and `Honest.greets` say so of the messages
that are sent, read as notes about chunks.

A node *asks* for what it waits for: whatever is in flight after an event was in flight before it,
or its request is among the messages of this event (`asks_of_inFlight`).  A chunk that has just
been delivered is in flight no more (`Honest.not_inFlight`), whether it was accepted or not.

A node *serves*: a request for a chunk it has in its store is answered with the data
(`Honest.serves`).

All of this is about nodes whose store and manifests come from the catalogue, and about handlers
that return; where the disk fails nothing is promised.
-/

set_option autoImplicit false

namespace AttestP2P

namespace Catalogue

open FileNode ChunkStore FileProtocol Slices

variable {P : Primitives} {jsonParse : Buffer → Option Json} {C : Catalogue P jsonParse}
  {s s' : FileNode P} {f g : String} {x y : SharedFile P} {i : ℕ} {m buf : Buffer}
  {peerHex : String} {e : FileEvent} {out : List (String × Buffer)}

/-! ## What a node gets hold of, it tells of -/

theorem sent_of_says (h : C.Says s s') : ∃ sent, s'.sent = s.sent ++ sent := by
  obtain ⟨sent, heq, -⟩ := h.sent
  exact ⟨sent, heq⟩

/-- A manifest, and the chunks later on, tell of every chunk whose bit is set, whatever is said in
between. -/
theorem tells_of_sublist (hx : C.file f = some x) (hi : C.Has f i) {bitfield : Buffer}
    (hbit : bitSet bitfield i = true)
    (h : List.Sublist [(peerHex, encManifest x.manifest), (peerHex, encHave f bitfield)] out) :
    Note.AnyTells (f, i) (fun _ ↦ False) ((Network.said out peerHex).map C.note) := by
  have hnotes := ((h.filter fun e ↦ e.1 = peerHex).map Prod.snd).map C.note
  have hpair : ([(peerHex, encManifest x.manifest), (peerHex, encHave f bitfield)].filter
      fun e ↦ e.1 = peerHex) = [(peerHex, encManifest x.manifest), (peerHex, encHave f bitfield)] :=
    List.filter_eq_self.mpr fun e he ↦ by
      rcases List.mem_pair.mp he with rfl | rfl <;> exact decide_eq_true rfl
  rw [hpair] at hnotes
  simp only [List.map_cons, List.map_nil, note_encManifest hx, note_encHave hx] at hnotes
  exact Note.AnyTells.of_list (show (f, i) ∈ {x | x.1 = f ∧ C.Has f x.2 ∧
    bitSet bitfield x.2 = true} from ⟨rfl, hi, hbit⟩) hnotes

/-- An announcement tells of every file of the index: its manifest, and then its chunks. -/
theorem sublist_announce (peerHex : String) {files : List String} (hf : f ∈ files)
    (hx : C.file f = some x)
    (hget : s.manifests.get f = some x.manifest) {bitfield : Buffer}
    (hbitfield : s.store.bitfield f = .ok bitfield)
    (hok : ∀ g ∈ files, ∃ bitfield, s.store.bitfield g = .ok bitfield) :
    ∃ l r, (s.announce peerHex files).1.sent = s.sent ++ (l ++
      [(peerHex, encManifest x.manifest), (peerHex, encHave f bitfield)] ++ r) := by
  induction files generalizing s with
  | nil => cases hf
  | cons g files ih =>
    obtain ⟨⟨bitfield', hg⟩, hok⟩ := List.forall_mem_cons.mp hok
    by_cases hfg : f = g
    · subst hfg
      obtain rfl := Except.ok.inj (hbitfield.symm.trans hg)
      have htruthy : x.manifest.truthy = true := Json.truthy_of_get (get_fileId hx)
      obtain ⟨r, hr, -⟩ := (still_announce ((s.safeSend peerHex (encManifest x.manifest)).safeSend
        peerHex (encHave f bitfield)) peerHex files).sent
      refine ⟨[], r, ?_⟩
      rw [FileNode.announce, hget, Option.filter_some_pos htruthy, Option.elim_some,
        show (s.safeSend peerHex (encManifest x.manifest)).store.bitfield f = _ from hbitfield]
      dsimp only
      rw [hr]
      simp [FileNode.safeSend]
    · have hmem : f ∈ files := (List.mem_cons.mp hf).resolve_left hfg
      have hsame : ∃ l, ((s.manifests.get g).filter Json.truthy).elim s (fun m ↦
          s.safeSend peerHex (encManifest m)) = { s with sent := s.sent ++ l } := by
        cases (s.manifests.get g).filter Json.truthy with
        | none => exact ⟨[], by rw [List.append_nil]; rfl⟩
        | some m => exact ⟨_, rfl⟩
      obtain ⟨l, hl⟩ := hsame
      obtain ⟨l', r, heq⟩ := ih (s := safeSend { s with sent := s.sent ++ l } peerHex
        (encHave g bitfield')) hmem hget hbitfield hok
      refine ⟨l ++ (peerHex, encHave g bitfield') :: l', r, ?_⟩
      rw [FileNode.announce, hl]
      dsimp only
      rw [hg]
      dsimp only
      rw [heq]
      simp [FileNode.safeSend]

/-- What a store lists of a file can be told. -/
theorem Honest.bitfield (h : C.Honest s) {entry : StoreEntry}
    (hentry : s.store.files.get? f = some entry) :
    ∃ x bitfield, C.file f = some x ∧ s.manifests.get f = some x.manifest ∧
      s.store.bitfield f = .ok bitfield := by
  obtain ⟨m, hm⟩ := Option.isSome_iff_exists.mp (h.entries f entry hentry)
  obtain ⟨x, hx, rfl⟩ := h.catalogued f m hm
  refine ⟨x, _, hx, ?_, bitfield_eq x entry hentry ((h.admits hx).entry entry hentry).nbChunks⟩
  rw [JsonTable.get, if_neg (ne_proto hx), hm, Option.some_or]

theorem Honest.has (h : C.Honest s) (hheld : s.store.hasChunk f i = .ok true) : C.Has f i := by
  obtain ⟨x, data, hx, -, hhash⟩ := h.held hheld
  exact has_of_hashAt hx hhash

/-- A new session is told of everything that the node holds, by the announcement that attaching
makes. -/
theorem Honest.greets (h : C.Honest s) {peerId : Buffer}
    (hheld : s.store.hasChunk f i = .ok true)
    (hout : (s.attachSession peerId).1.sent = s.sent ++ out) :
    Note.AnyTells (f, i) (fun _ ↦ False)
      ((Network.said out (s.sessionKey peerId)).map C.note) := by
  obtain ⟨entry, hentry, -⟩ := hasChunk_iff.mp hheld
  obtain ⟨x, bitfield, hx, hget, hbitfield⟩ := h.bitfield hentry
  have hmem : f ∈ (enumerate s.store.files.entries).map Prod.fst :=
    List.mem_map.mpr ⟨(f, entry), mem_enumerate.mpr (OrderedMap.mem_entries_iff.mpr hentry), rfl⟩
  have hok : ∀ g ∈ (enumerate s.store.files.entries).map Prod.fst,
      ∃ bitfield, s.store.bitfield g = .ok bitfield := by
    intro g hg
    obtain ⟨⟨g, entry'⟩, hmem', rfl⟩ := List.mem_map.mp hg
    obtain ⟨-, bitfield', -, -, hbitfield'⟩ :=
      h.bitfield (OrderedMap.mem_entries_iff.mp (mem_enumerate.mp hmem'))
    exact ⟨bitfield', hbitfield'⟩
  obtain ⟨l, r, heq⟩ := sublist_announce (s := attached s peerId) (s.sessionKey peerId)
    hmem hx hget hbitfield hok
  obtain rfl := List.append_cancel_left (heq.symm.trans hout)
  refine tells_of_sublist hx (h.has hheld) ((bitSet_iff h.counted (h.has hheld) hbitfield).mpr
    hheld) ?_
  exact List.Sublist.trans (List.sublist_append_right _ _) (List.sublist_append_left _ _)

/-- A chunk that is stored is announced to every session, in the same event that stored it. -/
theorem Honest.announces_chunkData (h : C.Honest s) {session : FileSession} {rank : ℕ → ℕ}
    {chunkHash signature data : Buffer} (he : C.Permits s (.message session buf rank))
    (hdecode : FileProtocol.decode jsonParse buf = .ok (.chunkData f i chunkHash signature data))
    (hout : (s.onChunkData session f i chunkHash signature data rank).1.sent = s.sent ++ out)
    (hok : (s.onChunkData session f i chunkHash signature data rank).2 = .ok ())
    (hheld : (s.onChunkData session f i chunkHash signature data rank).1.store.hasChunk f i =
      .ok true) (hopen : s.sessions.has peerHex = true) :
    s.store.hasChunk f i = .ok true ∨ (peerHex, encHavePiece f i) ∈ out := by
  cases hd : s.downloads.get? f with
  | none =>
    rw [FileNode.onChunkData, hd] at hheld
    exact .inl hheld
  | some d =>
    cases hexpected : d.expectedHash i with
    | error err =>
      rw [FileNode.onChunkData, hd] at hok
      dsimp only at hok
      rw [hexpected] at hok
      cases hok
    | ok expected =>
      obtain ⟨err, heq⟩ | ⟨hput, heq⟩ := onChunkData_good rank hd hexpected
        (h.goodChunk he hdecode hd hexpected)
      · rw [heq] at hok
        cases hok
      · right
        have hend : C.Says (stored s session d f i data)
            (s.onChunkData session f i chunkHash signature data rank).1 := by
          rw [heq]
          exact says_after_stored h hd
        obtain ⟨r, hr⟩ := sent_of_says hend
        rw [sent_stored, List.append_assoc] at hr
        obtain rfl := List.append_cancel_left (hr.symm.trans hout)
        refine List.mem_append_left _ (List.mem_cons_of_mem _ ?_)
        exact List.mem_map.mpr ⟨peerHex, OrderedMap.has_iff.mp hopen, rfl⟩

/-- What `seed` does when nothing goes wrong: after the loop the manifest and the bit field go to
every session. -/
theorem seed_eq_of_ok (hx : C.file f = some x) {filePath : Location}
    (hok : (s.seed x.manifest filePath).2 = .ok ()) (hopen : s.sessions.has peerHex = true) :
    ∃ s₁ bitfield, C.Says s s₁ ∧ s₁.knowledge = s.knowledge.register x.manifest ∧
      s₁.store.bitfield f = .ok bitfield ∧ (s.seed x.manifest filePath).1 = { s₁ with
        sent := s₁.sent ++ s₁.sessions.keys.flatMap fun peerHex ↦
          [(peerHex, encManifest x.manifest), (peerHex, encHave f bitfield)] } := by
  revert hok
  rw [FileNode.seed, get_fileId hx]
  dsimp only
  split
  · exact fun hok ↦ by cases hok
  · next g chunkSize n hregister hg _ _ =>
    obtain rfl : f = g := Json.str.inj (Option.some.inj hg)
    split
    · exact fun hok ↦ by cases hok
    · exact fun hok ↦ by cases hok
    · next length _ _ =>
      let s₁ : FileNode P := ((s.registerManifest x.manifest).1.seedChunks x.manifest f filePath
        (List.replicate length 0) (List.range n)).1
      have hchunks : C.Says s s₁ := (says_registerManifest _).trans (says_seedChunks ..)
      have hknowledge : s₁.knowledge = s.knowledge.register x.manifest :=
        (knowledge_seedChunks ..).trans (knowledge_registerManifest s x.manifest)
      split
      · exact fun hok ↦ by cases hok
      · split
        · next hnone =>
          rw [show (FileNode.seedChunks _ _ _ _ _ _).1.sessions = _ from hchunks.sessions] at hnone
          have hmem := OrderedMap.has_iff.mp hopen
          rw [OrderedMap.keys, hnone] at hmem
          cases hmem
        · split
          · exact fun hok ↦ by cases hok
          · next bitfield hbitfield =>
            exact fun _ ↦ ⟨s₁, bitfield, hchunks, hknowledge, hbitfield, rfl⟩
  · exact fun hok ↦ by cases hok

/-- What is seeded is announced to every session that is open, once the whole file is in the
store. -/
theorem Honest.announces_seed (h : C.Honest s) (hx : C.file f = some x) {filePath : Location}
    (hok : (s.seed x.manifest filePath).2 = .ok ()) (hopen : s.sessions.has peerHex = true)
    (hout : (s.seed x.manifest filePath).1.sent = s.sent ++ out) (hi : C.Has f i)
    (hheld : (s.seed x.manifest filePath).1.store.hasChunk f i = .ok true) :
    Note.AnyTells (f, i) (fun _ ↦ False) ((Network.said out peerHex).map C.note) := by
  obtain ⟨s₁, bitfield, hsaid, hknowledge, hbitfield, heq⟩ := seed_eq_of_ok hx hok hopen
  obtain ⟨l, hl⟩ := sent_of_says hsaid
  have hcounted : C.Counted s₁.knowledge := by
    rw [hknowledge]
    exact h.counted.register hx
  rw [heq] at hout hheld
  dsimp only at hout hheld
  rw [hl, List.append_assoc] at hout
  obtain rfl := List.append_cancel_left hout
  refine tells_of_sublist hx hi ((bitSet_iff hcounted hi hbitfield).mpr hheld) ?_
  refine List.Sublist.trans ?_ (List.sublist_append_right _ _)
  have hmem : peerHex ∈ s₁.sessions.keys := OrderedMap.has_iff.mp (by rwa [hsaid.sessions])
  obtain ⟨l', r, hkeys⟩ := List.append_of_mem hmem
  rw [hkeys, List.flatMap_append, List.flatMap_cons]
  exact List.Sublist.trans (List.sublist_append_left _ _) (List.sublist_append_right _ _)

/-! ## Requests

Whatever is in flight has been sent for: by a turn of this event, or before it. -/

/-- A request that is in flight has been sent, or was in flight before. -/
theorem inFlight_of_run {acts : List Act} {r : ChunkRequest} (h : (turns P).Run s acts s')
    (hr : s'.InFlight f i r) : s.InFlight f i r ∨ .request f i r.peerHex ∈ acts := by
  induction h with
  | nil => exact .inl hr
  | cons hturn _ ih =>
    rcases ih hr with hr | hmem
    · rcases Turn.inFlight hturn hr with ⟨hold, -⟩ | ⟨-, rfl⟩
      · exact .inl hold
      · exact .inr List.mem_cons_self
    · exact .inr (List.mem_cons_of_mem _ hmem)

/-- And what is in flight now, and was not before, is asked for. -/
theorem asks_of_inFlight (hk : s.Keyed) {r : ChunkRequest}
    (hr : (s.next jsonParse e).InFlight f i r) (hout : (s.next jsonParse e).sent = s.sent ++ out) :
    s.InFlight f i r ∨ (r.peerHex, encChunkReq f i) ∈ out := by
  obtain ⟨acts, hrun, -⟩ := hk.moves_next jsonParse e
  refine (inFlight_of_run hrun hr).imp_right fun hmem ↦ ?_
  obtain ⟨sent, heq, hsent⟩ := sent_of_run hrun
  obtain rfl := List.append_cancel_left (heq.symm.trans hout)
  have hmessage : (r.peerHex, encChunkReq f i) ∈ acts.filterMap Act.message :=
    List.mem_filterMap.mpr ⟨_, hmem, rfl⟩
  rw [← hsent] at hmessage
  exact (List.mem_filter.mp hmessage).1

/-- The chunk that arrives is no longer waited for. -/
theorem Honest.not_inFlight (h : C.Honest s) {session : FileSession} {rank : ℕ → ℕ}
    {chunkHash signature data : Buffer} {r : ChunkRequest}
    (hdecode : FileProtocol.decode jsonParse buf = .ok (.chunkData f i chunkHash signature data))
    (hok : (s.handleMessage jsonParse session buf rank).2 = .ok ()) (hr : s.InFlight f i r) :
    ¬(s.handleMessage jsonParse session buf rank).1.InFlight f i r := by
  obtain ⟨d, hd, hr⟩ := hr
  rw [FileNode.handleMessage, hdecode] at hok ⊢
  dsimp only at hok ⊢
  cases hexpected : d.expectedHash i with
  | error err =>
    rw [FileNode.onChunkData, hd] at hok
    dsimp only at hok
    rw [hexpected] at hok
    cases hok
  | ok expected =>
    exact h.kept.keyed.not_inFlight_onChunkData h.timed hd hr hexpected _ _ _ _

/-! ## Chunks that are served -/

theorem Honest.serves (hP : P.Lawful) (h : C.Honest s) {session : FileSession}
    (hheld : s.store.hasChunk f i = .ok true) (hok : (s.serveChunk session f i).2 = .ok ())
    (hout : (s.serveChunk session f i).1.sent = s.sent ++ out) :
    ∃ m, (session.peerHex, m) ∈ out ∧ C.note m = .answer (f, i) := by
  revert hok hout
  rw [FileNode.serveChunk, hheld]
  dsimp only
  split
  · exact fun hok ↦ by cases hok
  · next data _ =>
    intro _ hout
    obtain rfl := List.append_cancel_left hout
    exact ⟨answer s.signKey f i data, List.mem_singleton_self _,
      note_answer hP (h.has hheld) s.signKey data⟩

end Catalogue

end AttestP2P
