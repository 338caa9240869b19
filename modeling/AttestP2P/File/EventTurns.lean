import AttestP2P.File.Turns

/-!
# The turns of each operation

One statement for each method of `FileNode`, from the bottom up: `_schedule` sends requests,
`_onTimeout` releases one and schedules, `_onChunkData` releases the request that it answers and
then counts the chunk or blames the peer, `_onClose` drops the requests to the peer, and `_complete`
those of the download.  Each statement names the labels of the turns that the method may take, so
that it can be used where only some of them are harmless.

* `OfChunk` and `OfMessage` are the labels that data and messages may come with.
* `Keyed.moves_next`: every event is a sequence of turns; `Keyed.moves_next_of_ne`: if it is no
  message, no chunk is counted.
-/

set_option autoImplicit false

namespace AttestP2P

namespace FileNode

variable {P : Primitives} {s s' s'' : FileNode P} {d d' : Download} {f g : String} {idx t : ℕ}
  {r : ChunkRequest} {peerHex : String} {a : Act} {A B : Act → Prop}

/-! ## The turns of each operation -/

/-- Requests for a file go out, for whichever chunk and to whichever peer. -/
def Requests (f : String) (a : Act) : Prop := ∃ idx peerHex, a = .request f idx peerHex

theorem Requests.plain (h : Requests f a) : a.Plain := by
  obtain ⟨idx, peerHex, rfl⟩ := h
  exact trivial

theorem moves_requestAll (idxs : List ℕ) (hd : s.downloads.get? d.fileId = some d) :
    Moves (Requests d.fileId) s (s.requestAll d idxs) := by
  induction idxs generalizing s d with
  | nil => exact .refl s
  | cons idx idxs ih =>
    rw [requestAll]
    split
    · exact .refl s
    · next hroom =>
      split
      · exact ih hd
      · next hidle =>
        split
        · exact ih hd
        · next peerHex hpeer =>
          have hturn : Turn s (.request d.fileId idx peerHex) _ :=
            .request hd (eq_false_of_ne_true hidle) (Nat.not_le.mp hroom) hpeer
          have hget := get?_putDownload_self (s.setTimer (.request d.fileId idx))
            (d.request idx peerHex s.nextTimer)
          exact (hturn.moves ⟨idx, peerHex, rfl⟩).trans (ih (s := ((s.setTimer
            (.request d.fileId idx)).putDownload (d.request idx peerHex s.nextTimer)).safeSend
              peerHex (FileProtocol.encChunkReq d.fileId idx)) hget)

theorem Keyed.moves_schedule (hk : s.Keyed) (f : String) (rank : ℕ → ℕ) :
    Moves (Requests f) s (s.schedule f rank) := by
  rw [schedule]
  split
  · exact .refl s
  · next d hd =>
    obtain rfl := hk f d hd
    split
    · exact .refl s
    · exact moves_requestAll _ hd

/-- Scheduling comes after what has been done, and adds only requests for its file. -/
theorem Moves.schedule (h : Moves A s s') (hk : s.Keyed) {rank : ℕ → ℕ}
    (hA : ∀ a, Requests f a → A a) : Moves A s (s'.schedule f rank) :=
  h.trans (((h.keyed hk).moves_schedule f rank).mono hA)

theorem Keyed.moves_release (hk : s.Keyed) (hd : s.downloads.get? f = some d) (idx : ℕ)
    (hA : A (.release f idx)) : Moves A s (s.release d idx) := by
  obtain rfl := hk f d hd
  rw [release]
  split
  · exact .refl s
  · next r hr => exact (Turn.release hd hr).moves hA

theorem Keyed.get?_release (hk : s.Keyed) (hd : s.downloads.get? f = some d) (idx : ℕ) :
    (s.release d idx).downloads.get? f = some (d.release idx) := by
  rw [release]
  split
  · next hnone =>
    have hsame : d.release idx = d := by rw [Download.release, OrderedMap.delete_eq_self hnone]
    rw [hsame, hd]
  · rw [← hk f d hd]
    exact get?_putDownload_self _ _

theorem Keyed.moves_fire (hk : s.Keyed) (t : ℕ) (rank : ℕ → ℕ) :
    Moves Act.Plain s (s.fire t rank) := by
  rw [fire]
  split
  · exact .refl s
  · next f idx ht =>
    rw [onTimeout]
    split
    · next hnone =>
      have hlapse : Turn s .other (s.clearTimer t) :=
        .lapse ht fun d hd ↦ absurd (hnone.symm.trans hd) (fun h ↦ by cases h)
      exact hlapse.moves trivial
    · next d hd =>
      obtain rfl := hk f d hd
      split
      · next hhas =>
        obtain ⟨r, hr⟩ := Option.isSome_iff_exists.mp hhas
        have hrelease : (s.clearTimer t).release d idx =
            ((s.clearTimer t).clearTimer r.timer).putDownload (d.release idx) := by
          rw [release, hr]
        rw [hrelease]
        exact ((Turn.expire ht hd hr).moves trivial).schedule hk fun _ ↦ Requests.plain
      · next hhas =>
        have hlapse : Turn s .other (s.clearTimer t) := .lapse ht fun d' hd' ↦ by
          obtain rfl := Option.some.inj (Eq.trans (Eq.symm hd) hd')
          exact eq_false_of_ne_true hhas
        exact hlapse.moves trivial
  · exact (hk.moves_schedule _ rank).mono fun _ ↦ Requests.plain

theorem moves_complete (s : FileNode P) (f : String) (hdrop : A (.drop f)) (hA : A .other) :
    Moves A s (s.complete f) := by
  rw [complete]
  split
  · exact .refl s
  · next d hd =>
    split
    · exact .refl s
    · have hdownloads : ((d.tick.elim s s.clearTimer).clearRequests d).downloads =
          s.downloads := by
        rw [clearRequests, downloads_clearTimers]
        cases d.tick with
        | none => rfl
        | some t => rfl
      have hfinish := (Turn.finish hd).moves hdrop
      rw [← hdownloads] at hfinish
      dsimp only
      have hstore (store : ChunkStore) : Moves A s
          { (d.tick.elim s s.clearTimer).clearRequests d with
            store := store
            downloads := ((d.tick.elim s s.clearTimer).clearRequests d).downloads.delete f } :=
        hfinish.trans (Still.moves (.of_eq rfl rfl rfl rfl rfl) hA)
      split
      · exact (hstore _).trans ((still_settle ..).moves hA)
      · exact (hstore _).trans ((still_settle ..).moves hA)

/-- The chunk is asked for again, or another one is. -/
def Asks (f : String) (a : Act) : Prop := a = .other ∨ Requests f a

theorem Asks.plain (h : Asks f a) : a.Plain ∧ a ≠ .drop g := by
  rcases h with rfl | ⟨idx, peerHex, rfl⟩
  · exact ⟨trivial, fun h ↦ by cases h⟩
  · exact ⟨trivial, fun h ↦ by cases h⟩

/-- Bad data, and data that cannot be stored, releases the request and no more. -/
theorem Keyed.moves_of_refused (hk : s.Keyed) (hd : s.downloads.get? f = some d)
    {expected : Option Json} (hexpected : d.expectedHash idx = .ok expected)
    {session : FileSession} {chunkHash signature data : Buffer}
    (hrefused : goodChunk P session f idx chunkHash signature data expected = true →
      (s.store.putChunk P f idx data expected).2 ≠ .ok true) (rank : ℕ → ℕ) :
    Moves (Asks f) (s.release d idx)
      (s.onChunkData session f idx chunkHash signature data rank).1 := by
  have hother : Asks f .other := .inl rfl
  have hrequests (a : Act) (h : Requests f a) : Asks f a := .inr h
  have hquiet := hk.quiet_release hd idx
  have hkeyed : (s.release d idx).Keyed := hquiet.keyed hk
  have hget : (s.release d idx).downloads.get? (d.release idx).fileId =
      some (d.release idx) := (congrArg _ (hk f d hd)).trans (hk.get?_release hd idx)
  rw [onChunkData, hd]
  dsimp only
  rw [hexpected]
  dsimp only
  split
  · -- a bad chunk is asked for elsewhere
    have hack := (still_safeSend (s.release d idx) session.peerHex
      (FileProtocol.encAck idx FileProtocol.ackHashMismatch) (fun h ↦ by cases h)).moves hother
    have hmark : Turn ((s.release d idx).safeSend session.peerHex
        (FileProtocol.encAck idx FileProtocol.ackHashMismatch)) .other
        (((s.release d idx).safeSend session.peerHex (FileProtocol.encAck idx
          FileProtocol.ackHashMismatch)).putDownload
            ((d.release idx).markBad idx session.peerHex)) :=
      .markBad hget
    have hemit := (hack.trans (hmark.moves hother)).trans
      ((still_emit _ (.corrupt f idx session.peerHex) fun _ _ _ _ h ↦ by cases h).moves hother)
    exact hemit.schedule hkeyed hrequests
  · next hgood =>
    have hstore (store : ChunkStore) : Moves (Asks f) (s.release d idx)
        { s.release d idx with store := store } := Still.moves (.of_eq rfl rfl rfl rfl rfl) hother
    rw [hquiet.store]
    split
    · exact hstore _
    · exact (hstore _).schedule hkeyed hrequests
    · next hput => exact absurd hput (hrefused (eq_true_of_ne_false hgood))

/-- A good chunk that is stored is counted, which may end the download. -/
theorem Keyed.moves_of_stored (hk : s.Keyed) (hd : s.downloads.get? f = some d)
    {expected : Option Json} (hexpected : d.expectedHash idx = .ok expected)
    {session : FileSession} {chunkHash signature data : Buffer}
    (hgood : goodChunk P session f idx chunkHash signature data expected = true)
    (hput : (s.store.putChunk P f idx data expected).2 = .ok true) (rank : ℕ → ℕ) :
    ∃ s₁, (s.release d idx).Still s₁ ∧ s₁.downloads.get? f = some (d.release idx) ∧
      ∃ s₂, Turn s₁ (.receive f idx) s₂ ∧
        Moves (fun a ↦ Asks f a ∨ a = .drop f ∧ d.needed.erase idx = ∅) s₂
          (s.onChunkData session f idx chunkHash signature data rank).1 := by
  have hquiet := hk.quiet_release hd idx
  have hid : (d.release idx).fileId = f := hk f d hd
  let s₁ : FileNode P := { s.release d idx with
    store := (s.store.putChunk P f idx data expected).1 }
  have hget : s₁.downloads.get? f = some (d.release idx) := hk.get?_release hd idx
  have hstill : (s.release d idx).Still s₁ := .of_eq rfl rfl rfl rfl rfl
  have hget' : s₁.downloads.get? (d.release idx).fileId = some (d.release idx) := by rw [hid, hget]
  have hturn : Turn s₁ (.receive (d.release idx).fileId idx) _ := .receive hget'
  rw [hid] at hturn
  refine ⟨s₁, hstill, hget, _, hturn, ?_⟩
  have hother : Asks f .other ∨ Act.other = .drop f ∧ d.needed.erase idx = ∅ := .inl (.inl rfl)
  let s₂ : FileNode P := (s₁.putDownload ((d.release idx).receive idx)).emit
    (.progress f idx ((d.release idx).receive idx).received (d.manifest.get "nb_chunks"))
  have hkeyed : s₂.Keyed := keyed_putDownload (s := s₁) (hquiet.keyed hk) _
  have hsent : Moves (fun a ↦ Asks f a ∨ a = .drop f ∧ d.needed.erase idx = ∅) s₂
      ((s₂.safeSend session.peerHex (FileProtocol.encAck idx FileProtocol.ackOk)).broadcast
        (FileProtocol.encHavePiece f idx)) :=
    ((still_safeSend _ session.peerHex (FileProtocol.encAck idx FileProtocol.ackOk) nofun).trans
      (still_broadcast _ (FileProtocol.encHavePiece f idx) nofun)).moves hother
  rw [onChunkData, hd]
  dsimp only
  rw [hexpected, hquiet.store]
  dsimp only
  rw [if_neg (by rw [hgood]; decide), hput]
  dsimp only
  split
  · next hneeded => exact hsent.trans (moves_complete _ f (.inr ⟨rfl, hneeded⟩) hother)
  · exact hsent.schedule hkeyed fun a ha ↦ .inl (.inr ha)

/-- What the data of a chunk may do to requests. -/
def OfChunk (s : FileNode P) (f : String) (idx : ℕ) (a : Act) : Prop :=
  Asks f a ∨ a = .release f idx ∨ a = .receive f idx ∨
    a = .drop f ∧ ∀ d, s.downloads.get? f = some d → d.needed.erase idx = ∅

/-- The data of a chunk releases the request for it before anything else. -/
theorem Keyed.moves_of_release (hk : s.Keyed) (hd : s.downloads.get? f = some d)
    {expected : Option Json} (hexpected : d.expectedHash idx = .ok expected)
    (session : FileSession) (chunkHash signature data : Buffer) (rank : ℕ → ℕ) :
    Moves (s.OfChunk f idx) (s.release d idx)
      (s.onChunkData session f idx chunkHash signature data rank).1 := by
  by_cases hstored : goodChunk P session f idx chunkHash signature data expected = true ∧
      (s.store.putChunk P f idx data expected).2 = .ok true
  · obtain ⟨s₁, hstill, -, s₂, hturn, hrest⟩ :=
      hk.moves_of_stored hd hexpected hstored.1 hstored.2 rank
    refine ((hstill.moves (.inl (.inl rfl))).trans
      (hturn.moves (.inr (.inr (.inl rfl))))).trans (hrest.mono fun a ha ↦ ?_)
    refine ha.imp_right fun ⟨hdrop, hlast⟩ ↦ .inr (.inr ⟨hdrop, fun d' hd' ↦ ?_⟩)
    obtain rfl := Option.some.inj (hd.symm.trans hd')
    exact hlast
  · exact (hk.moves_of_refused hd hexpected (fun hgood hput ↦ hstored ⟨hgood, hput⟩) rank).mono
      fun a ha ↦ .inl ha

theorem Keyed.moves_onChunkData (hk : s.Keyed) (session : FileSession) (f : String) (idx : ℕ)
    (chunkHash signature data : Buffer) (rank : ℕ → ℕ) : Moves (s.OfChunk f idx) s
      (s.onChunkData session f idx chunkHash signature data rank).1 := by
  cases hd : s.downloads.get? f with
  | none =>
    rw [onChunkData, hd]
    exact .refl s
  | some d =>
    cases hexpected : d.expectedHash idx with
    | error err =>
      rw [onChunkData, hd]
      dsimp only
      rw [hexpected]
      exact .refl s
    | ok expected =>
      have hrelease := hk.moves_release hd idx (A := s.OfChunk f idx) (.inr (.inl rfl))
      exact hrelease.trans (hk.moves_of_release hd hexpected session chunkHash signature data rank)

/-- What a message may do to requests: ask for more, and, if it is chunk data, what this may do to
its own chunk. -/
def OfMessage (jsonParse : Buffer → Option Json) (s : FileNode P) (buf : Buffer) (a : Act) : Prop :=
  a = .other ∨ (∃ f, Requests f a) ∨ ∃ f idx chunkHash signature data,
    FileProtocol.decode jsonParse buf = .ok (.chunkData f idx chunkHash signature data) ∧
      s.OfChunk f idx a

theorem Keyed.moves_handleMessage (hk : s.Keyed) (jsonParse : Buffer → Option Json)
    (session : FileSession) (buf : Buffer) (rank : ℕ → ℕ) :
    Moves (s.OfMessage jsonParse buf) s (s.handleMessage jsonParse session buf rank).1 := by
  have hother : s.OfMessage jsonParse buf .other := .inl rfl
  have hrequests (f : String) (a : Act) (h : Requests f a) : s.OfMessage jsonParse buf a :=
    .inr (.inl ⟨f, h⟩)
  have hhave (peerHex f : String) (chunks : Finset ℕ) :
      Moves (s.OfMessage jsonParse buf) s (s.addHave peerHex f chunks) :=
    (still_addHave s peerHex f chunks).moves hother
  rw [handleMessage]
  split
  · exact .refl s
  · exact (still_onManifest s _).moves hother
  · next f bitfield _ =>
    rw [onHave]
    split
    · exact .refl s
    · split
      · exact hhave _ _ _
      · exact (hhave _ _ _).schedule hk (hrequests _)
  · exact (hhave _ _ _).schedule hk (hrequests _)
  · exact (still_serveChunk s session _ _).moves hother
  · next chunkHash signature data hdecode =>
    exact (hk.moves_onChunkData session _ _ chunkHash signature data rank).mono fun a ha ↦
      .inr (.inr ⟨_, _, _, _, _, hdecode, ha⟩)
  · exact .refl s

theorem still_announce (s : FileNode P) (peerHex : String) (files : List String) :
    s.Still (s.announce peerHex files).1 := by
  induction files generalizing s with
  | nil => exact .refl s
  | cons fileId files ih =>
    have hmanifest : s.Still (((s.manifests.get fileId).filter Json.truthy).elim s fun m ↦
        s.safeSend peerHex (FileProtocol.encManifest m)) := by
      cases (s.manifests.get fileId).filter Json.truthy with
      | none => exact .refl s
      | some m => exact still_safeSend _ _ _ (fun h ↦ by cases h)
    rw [announce]
    split
    · exact hmanifest
    · next bf _ =>
      have hsend := still_safeSend (((s.manifests.get fileId).filter Json.truthy).elim s fun m ↦
        s.safeSend peerHex (FileProtocol.encManifest m)) peerHex (FileProtocol.encHave fileId bf)
          (fun h ↦ by cases h)
      exact (hmanifest.trans hsend).trans (ih _)

theorem still_attachSession (s : FileNode P) (peerId : Buffer) :
    s.Still (s.attachSession peerId).1 := by
  have hattached : s.Still { s with
      seq := s.seq + 1
      sessions := s.sessions.set (s.sessionKey peerId) peerId
      peerHave := s.peerHave.set (s.sessionKey peerId)
        ((s.peerHave.get? (s.sessionKey peerId)).getD .empty) } := .of_eq rfl rfl rfl rfl rfl
  exact hattached.trans (still_announce _ _ _)

theorem Keyed.moves_fallBack (hk : s.Keyed) (peerHex : String) (rank : String → ℕ → ℕ)
    (fileIds : List String) : Moves Act.Plain s (s.fallBack peerHex rank fileIds) := by
  induction fileIds generalizing s with
  | nil => exact .refl s
  | cons f fileIds ih =>
    have hrelease : Moves Act.Plain s (s.releasePeer f peerHex) := by
      cases hd : s.downloads.get? f with
      | none =>
        rw [releasePeer, hd]
        exact .refl s
      | some d =>
        obtain rfl := hk f d hd
        exact (Turn.detach hd).moves trivial
    have hschedule : Moves Act.Plain s ((s.releasePeer f peerHex).schedule f (rank f)) :=
      hrelease.schedule hk fun _ ↦ Requests.plain
    exact hschedule.trans (ih (hschedule.keyed hk))

theorem Keyed.moves_onClose (hk : s.Keyed) (peerHex : String) (rank : String → ℕ → ℕ) :
    Moves Act.Plain s (s.onClose peerHex rank) := by
  have hgone : s.Still { s with
      sessions := s.sessions.delete peerHex, peerHave := s.peerHave.delete peerHex } :=
    .of_eq rfl rfl rfl rfl rfl
  have hfall := (hgone.moves (A := Act.Plain) trivial).trans
    (Keyed.moves_fallBack (s := { s with
      sessions := s.sessions.delete peerHex, peerHave := s.peerHave.delete peerHex }) hk peerHex
        rank ((enumerate s.downloads.entries).map Prod.fst))
  exact hfall.trans ((still_emit _ (.peerclose peerHex) nofun).moves trivial)

theorem still_broadcastHave (s : FileNode P) (f : String) : s.Still (s.broadcastHave f).1 := by
  rw [broadcastHave]
  split
  · exact .refl s
  · split
    · exact .refl s
    · exact still_broadcast _ _ (fun h ↦ by cases h)

theorem Keyed.moves_startDownload (hk : s.Keyed) (m : Json) (f : String) (outPath : Location)
    (parallel promise : ℕ) (rank : ℕ → ℕ) :
    Moves Act.Plain s (s.startDownload m f outPath parallel promise rank) := by
  rw [startDownload]
  split
  · exact (still_settle ..).moves trivial
  · next n hn =>
    split
    · exact (still_settle ..).moves trivial
    · next needed _ =>
      let d : Download :=
        { manifest := m, fileId := f, outPath := outPath, needed := needed
          inFlight := .empty, badPeerForChunk := .empty, parallel := parallel
          promise := promise, done := false, received := n - needed.card, tick := none }
      have hstart : Turn s (.drop d.fileId) (s.putDownload d) :=
        .start hn rfl rfl rfl
      have htold : Moves Act.Plain s ((s.putDownload d).broadcastHave f).1 :=
        (hstart.moves trivial).trans ((still_broadcastHave _ f).moves trivial)
      dsimp only
      split
      · exact htold.trans ((still_settle ..).moves trivial)
      · split
        · exact htold.trans (moves_complete _ f trivial trivial)
        · have hget : ((s.putDownload d).broadcastHave f).1.downloads.get? d.fileId = some d := by
            rw [(still_broadcastHave _ f).downloads]
            exact get?_putDownload_self s d
          have htick := htold.trans ((Turn.tick hget).moves trivial)
          exact htick.schedule hk fun _ ↦ Requests.plain

theorem Keyed.moves_download (hk : s.Keyed) (m : Json) (outPath : Location) (parallel : Option ℕ)
    (rank : ℕ → ℕ) : Moves Act.Plain s (s.download m outPath parallel rank).1 := by
  have hregister : Moves Act.Plain s (s.registerManifest m).1 :=
    (still_registerManifest s m).moves trivial
  rw [download]
  dsimp only
  split
  · exact hregister
  · split
    · have hpromise : Moves Act.Plain s { (s.registerManifest m).1 with
          nextPromise := (s.registerManifest m).1.nextPromise + 1 } :=
        hregister.trans (Still.moves (.of_eq rfl rfl rfl rfl rfl) trivial)
      exact hpromise.trans ((hpromise.keyed hk).moves_startDownload ..)
    · exact hregister

theorem still_seedChunk (s : FileNode P) (m : Json) (f : String) (filePath : Location)
    (buf : Buffer) (i : ℕ) : s.Still (s.seedChunk m f filePath buf i).1 := by
  obtain h | ⟨c, data, -, h⟩ := seedChunk_cases s m f filePath buf i
  · rw [h]
    exact .refl s
  · rw [h]
    exact .of_eq rfl rfl rfl rfl rfl

theorem still_seedChunks (s : FileNode P) (m : Json) (f : String) (filePath : Location)
    (buf : Buffer) (is : List ℕ) : s.Still (s.seedChunks m f filePath buf is).1 := by
  induction is generalizing s buf with
  | nil => exact .refl s
  | cons i is ih =>
    have hchunk := still_seedChunk s m f filePath buf i
    rw [seedChunks]
    dsimp only
    split
    · exact hchunk
    · exact hchunk.trans (ih _ _)

theorem still_seed (s : FileNode P) (m : Json) (filePath : Location) :
    s.Still (s.seed m filePath).1 := by
  have hregister := still_registerManifest s m
  rw [seed]
  dsimp only
  split
  · exact hregister
  · next f chunkSize n _ _ _ _ =>
    split
    · exact hregister
    · exact hregister
    · next length _ _ =>
      have hchunks := hregister.trans (still_seedChunks (s.registerManifest m).1 m f filePath
        (List.replicate length 0) (List.range n))
      split
      · exact hchunks
      · split
        · exact hchunks
        · split
          · exact hchunks.trans (still_broadcast _ (FileProtocol.encManifest m)
              (fun h ↦ by cases h))
          · next bf _ =>
            refine hchunks.trans ⟨rfl, rfl, rfl, ⟨_, rfl, fun msg hmsg ↦ ?_⟩, fun _ _ _ _ ↦ .rfl⟩
            obtain ⟨peerHex, -, hmsg⟩ := List.mem_flatMap.mp hmsg
            rcases List.mem_pair.mp hmsg with rfl | rfl
            · exact fun h ↦ by cases h
            · exact fun h ↦ by cases h
  · exact hregister

theorem Keyed.moves_next_of_ne (hk : s.Keyed) (jsonParse : Buffer → Option Json) {e : FileEvent}
    (he : ∀ session buf rank, e ≠ .message session buf rank) :
    Moves Act.Plain s (s.next jsonParse e) := by
  cases e with
  | attach peerId => exact (still_attachSession s peerId).moves trivial
  | message session buf rank => exact absurd rfl (he session buf rank)
  | close peerHex rank => exact hk.moves_onClose peerHex rank
  | timer t rank => exact hk.moves_fire t rank
  | download m outPath parallel rank => exact hk.moves_download m outPath parallel rank
  | seed m filePath => exact (still_seed s m filePath).moves trivial

/-- **Every event is a sequence of turns**, so that an invariant of requests need only be checked
for one turn. -/
theorem Keyed.moves_next (hk : s.Keyed) (jsonParse : Buffer → Option Json) (e : FileEvent) :
    Moves (fun _ ↦ True) s (s.next jsonParse e) := by
  by_cases he : ∃ session buf rank, e = .message session buf rank
  · obtain ⟨session, buf, rank, rfl⟩ := he
    exact (hk.moves_handleMessage jsonParse session buf rank).mono fun _ _ ↦ trivial
  · exact (hk.moves_next_of_ne jsonParse fun session buf rank h ↦
      he ⟨session, buf, rank, h⟩).mono fun _ _ ↦ trivial

end FileNode

end AttestP2P
