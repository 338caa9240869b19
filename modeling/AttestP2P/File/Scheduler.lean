import AttestP2P.File.FileNode

/-!
# The download scheduler

What holds of the downloads of a `FileNode` in any reachable state.

* `Scheduled`: a download has no more requests in flight than it may, all of them for chunks that it
  needs; it needs every chunk that the store lacks; and each request is to a peer that may serve it
  (`MayServe`).
* `Keeps`: sessions, availability and store have only grown, which no download minds.  Everything
  but a closed session does that.
* A closed session takes its requests out of every download (`withoutPeer`), one after the other.
* `allActive_of_reachable` is the induction over the events.

A handler changes one download at a time, and the others mind only what `Keeps` is about: this is
the shape of all proofs here (`Touches`).  `_onClose` is the exception.  It removes a peer and then
goes through the downloads, so that in between there are some that still have requests to a peer who
is gone (`Falling`); when it is through there are none.
-/

set_option autoImplicit false

namespace AttestP2P

namespace Download

/-- The requests to a peer are dropped, as `_onClose` does for every download. -/
def withoutPeer (d : Download) (peerHex : String) : Download :=
  { d with inFlight := d.inFlight.filter fun e ↦ e.2.peerHex ≠ peerHex }

end Download

namespace FileNode

variable {P : Primitives} {s s' s'' : FileNode P} {d d' : Download} {fileId : String}

/-- The peer may be asked for the chunk: it is connected, has announced the chunk, and has not sent
a bad one. -/
structure MayServe (s : FileNode P) (d : Download) (idx : ℕ) (peerHex : String) : Prop where
  connected : s.sessions.has peerHex = true
  announced : idx ∈ s.knownChunks peerHex d.fileId
  notBad : d.isBad idx peerHex = false

/-- What holds of a download that is going on. -/
structure Scheduled (s : FileNode P) (d : Download) : Prop where
  bounded : d.inFlight.size ≤ d.parallel
  needed : ∀ idx r, d.inFlight.get? idx = some r → idx ∈ d.needed
  lacking : ∀ n, loopCount (d.manifest.get "nb_chunks") = some n → ∀ i < n,
    s.store.hasChunk d.fileId i ≠ .ok true → i ∈ d.needed
  served : ∀ idx r, d.inFlight.get? idx = some r → s.MayServe d idx r.peerHex

/-- The download is the one of its file, which the store knows. -/
structure Active (s : FileNode P) (fileId : String) (d : Download) : Prop where
  key : d.fileId = fileId
  known : s.store.Known fileId
  scheduled : s.Scheduled d

/-- Every download of the node is active. -/
def AllActive (s : FileNode P) : Prop :=
  ∀ fileId d, s.downloads.get? fileId = some d → s.Active fileId d

/-! ## What downloads do not mind

More peers, more records, more chunks in the store: a request that was right stays right. -/

/-- Sessions, availability and store have grown: nothing that could be requested before is lost. -/
structure Keeps (s s' : FileNode P) : Prop where
  sessions : ∀ peerHex, s.sessions.has peerHex = true → s'.sessions.has peerHex = true
  chunks : ∀ peerHex fileId, s.knownChunks peerHex fileId ⊆ s'.knownChunks peerHex fileId
  store : s.store.Grows s'.store

theorem Keeps.of_eq (hsessions : s'.sessions = s.sessions) (hhave : s'.peerHave = s.peerHave)
    (hfiles : s'.store.files = s.store.files) : s.Keeps s' where
  sessions peerHex h := by rwa [hsessions]
  chunks peerHex fileId := by rw [knownChunks, knownChunks, hhave]
  store := .of_files_eq hfiles

theorem Keeps.trans (h : s.Keeps s') (h' : s'.Keeps s'') : s.Keeps s'' where
  sessions peerHex hp := h'.sessions peerHex (h.sessions peerHex hp)
  chunks peerHex fileId := (h.chunks peerHex fileId).trans (h'.chunks peerHex fileId)
  store := h.store.trans h'.store

theorem Keeps.mayServe (h : s.Keeps s') {idx : ℕ} {peerHex : String}
    (hserve : s.MayServe d idx peerHex) : s'.MayServe d idx peerHex where
  connected := h.sessions peerHex hserve.connected
  announced := h.chunks peerHex d.fileId hserve.announced
  notBad := hserve.notBad

theorem Keeps.active (h : s.Keeps s') (hd : s.Active fileId d) : s'.Active fileId d where
  key := hd.key
  known := h.store.known hd.known
  scheduled := {
    bounded := hd.scheduled.bounded
    needed := hd.scheduled.needed
    lacking := fun n hn i hi hlack ↦
      hd.scheduled.lacking n hn i hi fun hchunk ↦ hlack (h.store.hasChunk hchunk)
    served := fun idx r hr ↦ h.mayServe (hd.scheduled.served idx r hr) }

/-- The same downloads, or fewer of them, in a node that has only grown. -/
theorem AllActive.of_keeps (h : s.AllActive) (hkeeps : s.Keeps s')
    (hdownloads : ∀ fileId d, s'.downloads.get? fileId = some d →
      s.downloads.get? fileId = some d) : s'.AllActive :=
  fun fileId d hd ↦ hkeeps.active (h fileId d (hdownloads fileId d hd))

/-- Nothing that matters to downloads has changed: messages, timers and notices are left out. -/
structure Same (s s' : FileNode P) : Prop where
  sessions : s'.sessions = s.sessions
  peerHave : s'.peerHave = s.peerHave
  files : s'.store.files = s.store.files
  downloads : s'.downloads = s.downloads

theorem Same.keeps (h : s.Same s') : s.Keeps s' := .of_eq h.sessions h.peerHave h.files

theorem Same.allActive (h : s.Same s') (hall : s.AllActive) : s'.AllActive :=
  hall.of_keeps h.keeps fun fileId d hd ↦ by rwa [h.downloads] at hd

theorem Same.trans (h : s.Same s') (h' : s'.Same s'') : s.Same s'' where
  sessions := h'.sessions.trans h.sessions
  peerHave := h'.peerHave.trans h.peerHave
  files := h'.files.trans h.files
  downloads := h'.downloads.trans h.downloads

theorem Same.refl (s : FileNode P) : s.Same s := ⟨rfl, rfl, rfl, rfl⟩

theorem same_safeSend (s : FileNode P) (peerHex : String) (buf : Buffer) :
    s.Same (s.safeSend peerHex buf) := ⟨rfl, rfl, rfl, rfl⟩

theorem same_broadcast (s : FileNode P) (buf : Buffer) : s.Same (s.broadcast buf) :=
  ⟨rfl, rfl, rfl, rfl⟩

theorem same_emit (s : FileNode P) (n : FileNotice) : s.Same (s.emit n) := ⟨rfl, rfl, rfl, rfl⟩

theorem same_setTimer (s : FileNode P) (t : Timer) : s.Same (s.setTimer t) := ⟨rfl, rfl, rfl, rfl⟩

theorem same_clearTimer (s : FileNode P) (t : ℕ) : s.Same (s.clearTimer t) := ⟨rfl, rfl, rfl, rfl⟩

theorem same_settle (s : FileNode P) (promise : ℕ) (r : Settlement) :
    s.Same (s.settle promise r) := by
  rw [settle]
  split
  · exact .refl s
  · exact ⟨rfl, rfl, rfl, rfl⟩

theorem same_clearTimers {α : Type} (s : FileNode P) (timer : α → ℕ) (l : List α) :
    s.Same (l.foldl (fun s a ↦ s.clearTimer (timer a)) s) := by
  induction l generalizing s with
  | nil => exact .refl s
  | cons a l ih => exact (same_clearTimer s (timer a)).trans (ih _)

/-! ## One download -/

section
variable {idx : ℕ} {peerHex : String}

/-- A request to a peer that may serve it. -/
theorem Active.request (hd : s.Active fileId d) (hroom : d.inFlight.size < d.parallel)
    (hneeded : idx ∈ d.needed) (hserve : s.MayServe d idx peerHex) (timer : ℕ) :
    s.Active fileId (d.request idx peerHex timer) where
  key := hd.key
  known := hd.known
  scheduled := {
    bounded := OrderedMap.size_set_le.trans hroom
    needed := fun i r hr ↦ by
      rw [Download.request, OrderedMap.get?_set] at hr
      split at hr
      · next hi => exact hi ▸ hneeded
      · exact hd.scheduled.needed i r hr
    lacking := hd.scheduled.lacking
    served := fun i r hr ↦ by
      rw [Download.request, OrderedMap.get?_set] at hr
      split at hr
      · next hi =>
        subst hi
        obtain rfl := Option.some.inj hr
        exact ⟨hserve.connected, hserve.announced, hserve.notBad⟩
      · obtain ⟨hconnected, hannounced, hnotBad⟩ := hd.scheduled.served i r hr
        exact ⟨hconnected, hannounced, hnotBad⟩ }

/-- Some requests are dropped, which leaves the download as active as it was. -/
theorem Active.filter (hd : s.Active fileId d) (p : ℕ × ChunkRequest → Bool) :
    s.Active fileId { d with inFlight := d.inFlight.filter p } := by
  have hold {i : ℕ} {r : ChunkRequest} (hr : (d.inFlight.filter p).get? i = some r) :
      d.inFlight.get? i = some r := by
    rw [OrderedMap.get?_filter] at hr
    exact Option.eq_some_of_filter_eq_some hr
  refine ⟨hd.key, hd.known, OrderedMap.size_filter_le.trans hd.scheduled.bounded,
    fun i r hr ↦ hd.scheduled.needed i r (hold hr), hd.scheduled.lacking, fun i r hr ↦ ?_⟩
  obtain ⟨hconnected, hannounced, hnotBad⟩ := hd.scheduled.served i r (hold hr)
  exact ⟨hconnected, hannounced, hnotBad⟩

theorem Active.release (hd : s.Active fileId d) (idx : ℕ) : s.Active fileId (d.release idx) :=
  hd.filter _

theorem Active.withoutPeer (hd : s.Active fileId d) (peerHex : String) :
    s.Active fileId (d.withoutPeer peerHex) := hd.filter _

/-- A released chunk is not in flight, so that it is a candidate again. -/
theorem get?_inFlight_release (d : Download) (idx : ℕ) :
    (d.release idx).inFlight.get? idx = none := by
  rw [Download.release, OrderedMap.get?_delete, if_pos rfl]

/-- A peer has sent a bad chunk that is not in flight. -/
theorem Active.markBad (hd : s.Active fileId d) (hidx : d.inFlight.get? idx = none)
    (peerHex : String) : s.Active fileId (d.markBad idx peerHex) := by
  refine ⟨hd.key, hd.known, hd.scheduled.bounded, hd.scheduled.needed, hd.scheduled.lacking,
    fun i r hr ↦ ?_⟩
  obtain ⟨hconnected, hannounced, hnotBad⟩ := hd.scheduled.served i r hr
  refine ⟨hconnected, hannounced, ?_⟩
  have hne : i ≠ idx := by
    rintro rfl
    exact nomatch hidx.symm.trans hr
  rw [Download.isBad, Download.markBad, OrderedMap.get?_set_of_ne hne]
  exact hnotBad

/-- A chunk that is not in flight has been stored. -/
theorem Active.receive (hd : s.Active fileId d) (hidx : d.inFlight.get? idx = none)
    (hchunk : s.store.hasChunk fileId idx = .ok true) : s.Active fileId (d.receive idx) := by
  refine ⟨hd.key, hd.known, hd.scheduled.bounded, fun i r hr ↦ ?_, fun n hn i hi hlack ↦ ?_,
    fun i r hr ↦ ?_⟩
  · refine Finset.mem_erase.mpr ⟨?_, hd.scheduled.needed i r hr⟩
    rintro rfl
    exact nomatch hidx.symm.trans hr
  · refine Finset.mem_erase.mpr ⟨?_, hd.scheduled.lacking n hn i hi hlack⟩
    rintro rfl
    exact hlack ((congrArg (s.store.hasChunk · i) hd.key).trans hchunk)
  · obtain ⟨hconnected, hannounced, hnotBad⟩ := hd.scheduled.served i r hr
    exact ⟨hconnected, hannounced, hnotBad⟩

end

/-! ## Requests

The loop of `_schedule` is followed with the download that it works on.  All others are as they
were, and so is everything that they depend on. -/

/-- Of all downloads only that of the file may have changed, and nothing else that matters. -/
structure Touches (s s' : FileNode P) (fileId : String) : Prop where
  sessions : s'.sessions = s.sessions
  peerHave : s'.peerHave = s.peerHave
  files : s'.store.files = s.store.files
  others : ∀ f, f ≠ fileId → s'.downloads.get? f = s.downloads.get? f

theorem Touches.keeps (h : s.Touches s' fileId) : s.Keeps s' :=
  .of_eq h.sessions h.peerHave h.files

theorem Same.touches (h : s.Same s') (fileId : String) : s.Touches s' fileId :=
  ⟨h.sessions, h.peerHave, h.files, fun f _ ↦ by rw [h.downloads]⟩

theorem Touches.trans (h : s.Touches s' fileId) (h' : s'.Touches s'' fileId) :
    s.Touches s'' fileId where
  sessions := h'.sessions.trans h.sessions
  peerHave := h'.peerHave.trans h.peerHave
  files := h'.files.trans h.files
  others f hf := (h'.others f hf).trans (h.others f hf)

theorem touches_putDownload (s : FileNode P) (d : Download) :
    s.Touches (s.putDownload d) d.fileId :=
  ⟨rfl, rfl, rfl, fun _ hf ↦ OrderedMap.get?_set_of_ne hf⟩

/-- The download of the file is active, and the one that is found. -/
structure Current (s : FileNode P) (fileId : String) (d : Download) : Prop where
  get : s.downloads.get? fileId = some d
  active : s.Active fileId d

/-- The others are still active when one download has been touched. -/
theorem AllActive.of_touches (hall : s.AllActive) (h : s.Touches s' fileId)
    (hd : ∀ d, s'.downloads.get? fileId = some d → s'.Active fileId d) : s'.AllActive := by
  intro f d hget
  by_cases hf : f = fileId
  · subst hf
    exact hd d hget
  · rw [h.others f hf] at hget
    exact h.keeps.active (hall f d hget)

theorem AllActive.of_current (hall : s.AllActive) (h : s.Touches s' fileId)
    (hd : s'.Current fileId d) : s'.AllActive :=
  hall.of_touches h fun d' hd' ↦ by
    obtain rfl : d = d' := Option.some.inj (hd.get.symm.trans hd')
    exact hd.active

theorem current_putDownload (hd : s.Active fileId d) : (s.putDownload d).Current fileId d where
  get := by rw [← hd.key, putDownload, OrderedMap.get?_set_self]
  active := (touches_putDownload s d).keeps.active hd

theorem AllActive.putDownload (hall : s.AllActive) (hd : s.Active fileId d) :
    (s.putDownload d).AllActive := by
  have hput := touches_putDownload s d
  rw [hd.key] at hput
  exact hall.of_current hput (current_putDownload hd)

theorem Current.of_same (hd : s.Current fileId d) (h : s.Same s') : s'.Current fileId d where
  get := by rw [h.downloads, hd.get]
  active := h.keeps.active hd.active

theorem offers_iff {idx : ℕ} {peerHex : String} {byFile : OrderedMap String (Finset ℕ)}
    (hget : s.peerHave.get? peerHex = some byFile) :
    offers fileId idx byFile = true ↔ idx ∈ s.knownChunks peerHex fileId := by
  rw [offers, knownChunks, hget, Option.bind_some]
  cases byFile.get? fileId with
  | none => simp
  | some set => simp

/-- The peers that are asked are those that may serve the chunk. -/
theorem mem_peersForChunk {idx : ℕ} {peerHex : String} :
    peerHex ∈ s.peersForChunk d idx ↔ s.MayServe d idx peerHex := by
  rw [peersForChunk, List.mem_map]
  constructor
  · rintro ⟨⟨peer, byFile⟩, hentry, rfl⟩
    obtain ⟨hentry, hcond⟩ := List.mem_filter.mp hentry
    simp only [Bool.and_eq_true, Bool.not_eq_true'] at hcond
    exact ⟨hcond.2, (offers_iff (OrderedMap.mem_entries_iff.mp hentry)).mp hcond.1.1, hcond.1.2⟩
  · rintro ⟨hconnected, hannounced, hnotBad⟩
    cases hget : s.peerHave.get? peerHex with
    | none => exact absurd hannounced (by simp [knownChunks, hget])
    | some byFile =>
      refine ⟨(peerHex, byFile), List.mem_filter.mpr ⟨OrderedMap.mem_entries_iff.mpr hget, ?_⟩, rfl⟩
      simp only [Bool.and_eq_true, Bool.not_eq_true']
      exact ⟨⟨(offers_iff hget).mpr hannounced, hnotBad⟩, hconnected⟩

/-- The peer that is chosen may serve the chunk. -/
theorem mayServe_of_choosePeer {idx : ℕ} {peerHex : String}
    (h : s.choosePeer d idx = some peerHex) : s.MayServe d idx peerHex :=
  mem_peersForChunk.mp (List.mem_mergeSort.mp (List.mem_of_mem_head? h))

theorem requestAll_spec (idxs : List ℕ) (hd : s.Current fileId d)
    (hneeded : ∀ idx ∈ idxs, idx ∈ d.needed) :
    s.Touches (s.requestAll d idxs) fileId ∧ ∃ d', (s.requestAll d idxs).Current fileId d' := by
  induction idxs generalizing s d with
  | nil => exact ⟨(Same.refl s).touches fileId, d, hd⟩
  | cons idx idxs ih =>
    obtain ⟨hidx, hrest⟩ := List.forall_mem_cons.mp hneeded
    rw [requestAll]
    split
    · exact ⟨(Same.refl s).touches fileId, d, hd⟩
    · next hroom =>
      split
      · exact ih hd hrest
      · cases hpeer : s.choosePeer d idx with
        | none => exact ih hd hrest
        | some peerHex =>
          have htimer := same_setTimer s (.request d.fileId idx)
          have hrequest := htimer.keeps.active (hd.active.request (Nat.not_le.mp hroom) hidx
            (mayServe_of_choosePeer hpeer) s.nextTimer)
          have hput := touches_putDownload (s.setTimer (.request d.fileId idx))
            (d.request idx peerHex s.nextTimer)
          rw [hrequest.key] at hput
          have hsend := same_safeSend ((s.setTimer (.request d.fileId idx)).putDownload
            (d.request idx peerHex s.nextTimer)) peerHex (FileProtocol.encChunkReq d.fileId idx)
          obtain ⟨htouches, d', hd'⟩ := ih ((current_putDownload hrequest).of_same hsend) hrest
          exact ⟨(((htimer.touches fileId).trans hput).trans (hsend.touches fileId)).trans htouches,
            d', hd'⟩

/-- **What `_schedule` does to a download**: it touches this one alone, and every request that it
adds was in order when it was sent. -/
theorem schedule_spec (hd : s.Current fileId d) (rank : ℕ → ℕ) :
    s.Touches (s.schedule fileId rank) fileId ∧
      ∃ d', (s.schedule fileId rank).Current fileId d' := by
  rw [schedule, hd.get]
  dsimp only
  split
  · exact ⟨(Same.refl s).touches fileId, d, hd⟩
  · refine requestAll_spec _ hd fun idx hidx ↦ ?_
    rw [candidates, List.mem_mergeSort, Finset.mem_sort] at hidx
    exact (Finset.mem_filter.mp hidx).1

theorem schedule_of_none (h : s.downloads.get? fileId = none) (rank : ℕ → ℕ) :
    s.schedule fileId rank = s := by rw [schedule, h]

theorem AllActive.current (hall : s.AllActive) (h : s.downloads.get? fileId = some d) :
    s.Current fileId d := ⟨h, hall fileId d h⟩

theorem AllActive.schedule (hall : s.AllActive) (fileId : String) (rank : ℕ → ℕ) :
    (s.schedule fileId rank).AllActive := by
  cases h : s.downloads.get? fileId with
  | none => rwa [schedule_of_none h]
  | some d =>
    obtain ⟨htouches, d', hd'⟩ := schedule_spec (hall.current h) rank
    exact hall.of_current htouches hd'

/-- A request is taken back, and the download stays what it was otherwise. -/
theorem release_spec (hd : s.Current fileId d) (idx : ℕ) :
    s.Touches (s.release d idx) fileId ∧ ∃ d', (s.release d idx).Current fileId d' := by
  rw [release]
  split
  · exact ⟨(Same.refl s).touches fileId, d, hd⟩
  · next inf _ =>
    have hclear := same_clearTimer s inf.timer
    have hrelease := hclear.keeps.active (hd.active.release idx)
    have hput := touches_putDownload (s.clearTimer inf.timer) (d.release idx)
    rw [hrelease.key] at hput
    exact ⟨(hclear.touches fileId).trans hput, _, current_putDownload hrelease⟩

theorem AllActive.onTimeout (hall : s.AllActive) (fileId : String) (idx : ℕ) (rank : ℕ → ℕ) :
    (s.onTimeout fileId idx rank).AllActive := by
  rw [FileNode.onTimeout]
  split
  · exact hall
  · next d hd =>
    split
    · obtain ⟨htouches, d', hd'⟩ := release_spec (hall.current hd) idx
      exact (hall.of_current htouches hd').schedule fileId rank
    · exact hall

/-- The download of the file is over, and the others are what they were. -/
theorem AllActive.complete (hall : s.AllActive) (fileId : String) :
    (s.complete fileId).AllActive := by
  rw [FileNode.complete]
  split
  · exact hall
  · next d hd =>
    split
    · exact hall
    · have htick : s.Same (d.tick.elim s s.clearTimer) := by
        cases d.tick with
        | none => exact .refl s
        | some t => exact same_clearTimer s t
      have hclear := htick.trans (same_clearTimers _ (fun e : ℕ × ChunkRequest ↦ e.2.timer)
        d.inFlight.entries)
      have hover : AllActive { (d.tick.elim s s.clearTimer).clearRequests d with
          store := (((d.tick.elim s s.clearTimer).clearRequests d).store.assemble P fileId
            d.outPath).1
          downloads :=
            ((d.tick.elim s s.clearTimer).clearRequests d).downloads.delete fileId } := by
        refine (hclear.allActive hall).of_keeps
          (.of_eq rfl rfl (ChunkStore.files_assemble P _ fileId d.outPath)) fun f d' hd' ↦ ?_
        rw [OrderedMap.get?_delete] at hd'
        split at hd'
        · cases hd'
        · exact hd'
      dsimp only
      split
      · exact (same_settle _ _ _).allActive hover
      · exact (same_settle _ _ _).allActive hover

/-! ## Messages -/

theorem same_serveChunk (s : FileNode P) (session : FileSession) (fileId : String) (idx : ℕ) :
    s.Same (s.serveChunk session fileId idx).1 := by
  rw [serveChunk]
  split
  · exact .refl s
  · exact same_safeSend ..
  · split
    · exact .refl s
    · exact same_safeSend ..

/-- The store has grown, and the rest of the node is the same. -/
theorem keeps_store (s : FileNode P) {store : ChunkStore} (h : s.store.Grows store) :
    s.Keeps { s with store := store } where
  sessions _ hp := hp
  chunks _ _ := subset_rfl
  store := h

theorem AllActive.of_store (hall : s.AllActive) {store : ChunkStore}
    (h : s.store.Grows store) : AllActive { s with store := store } :=
  hall.of_keeps (keeps_store s h) fun _ _ hd ↦ hd

/-- **Chunk data**, solicited or not, good or bad, leaves every download scheduled. -/
theorem AllActive.onChunkData (hall : s.AllActive) (session : FileSession) (fileId : String)
    (idx : ℕ) (chunkHash signature data : Buffer) (rank : ℕ → ℕ) :
    (s.onChunkData session fileId idx chunkHash signature data rank).1.AllActive := by
  rw [FileNode.onChunkData]
  split
  · exact hall
  · next d hd =>
    cases hexpected : d.expectedHash idx with
    | error e => exact hall
    | ok expected =>
      dsimp only
      have hcurrent := hall.current hd
      obtain ⟨htouches, d₁, hd₁⟩ := release_spec hcurrent idx
      have hrelease := htouches.keeps.active (hcurrent.active.release idx)
      have hidx := get?_inFlight_release d idx
      have hall₁ := hall.of_current htouches hd₁
      split
      · -- a bad chunk is asked for elsewhere
        have hsend := same_safeSend (s.release d idx) session.peerHex
          (FileProtocol.encAck idx FileProtocol.ackHashMismatch)
        have hput := (hsend.allActive hall₁).putDownload
          (hsend.keeps.active (hrelease.markBad hidx session.peerHex))
        exact ((same_emit _ _).allActive hput).schedule fileId rank
      · have hgrows := ChunkStore.grows_putChunk P (s.release d idx).store fileId idx data expected
        have hall₂ : AllActive { s.release d idx with
            store := ((s.release d idx).store.putChunk P fileId idx data expected).1 } :=
          hall₁.of_store hgrows
        split
        · exact hall₂
        · exact hall₂.schedule fileId rank
        · next hok =>
          have hchunk := ChunkStore.hasChunk_of_putChunk hrelease.known hok
          have hput := hall₂.putDownload
            (((keeps_store _ hgrows).active hrelease).receive hidx hchunk)
          have hsent (ack piece : Buffer) (n : FileNotice) :=
            (same_emit _ n).allActive ((same_broadcast _ piece).allActive
              ((same_safeSend _ session.peerHex ack).allActive hput))
          dsimp only
          split
          · exact (hsent _ _ _).complete fileId
          · exact (hsent _ _ _).schedule fileId rank

/-- A verified manifest is registered, which changes no download. -/
theorem AllActive.registerManifest (hall : s.AllActive) (m : Json) :
    (s.registerManifest m).1.AllActive := by
  rw [FileNode.registerManifest]
  split
  · exact hall
  · next key _ =>
    exact hall.of_keeps ⟨fun _ hp ↦ hp, fun _ _ ↦ subset_rfl,
      s.store.grows_registerManifest key m⟩ fun _ _ h ↦ h

theorem AllActive.onManifest (hall : s.AllActive) (m : Json) : (s.onManifest m).1.AllActive := by
  rw [FileNode.onManifest]
  split
  · exact hall
  · exact hall
  · split
    · exact hall.registerManifest m
    · exact (same_emit _ _).allActive (hall.registerManifest m)

theorem AllActive.addHave (hall : s.AllActive) (peerHex fileId : String) (chunks : Finset ℕ) :
    (s.addHave peerHex fileId chunks).AllActive := by
  refine hall.of_keeps ⟨fun _ hp ↦ hp, fun peer f ↦ ?_, .of_files_eq rfl⟩ fun _ _ h ↦ h
  rw [knownChunks_addHave]
  split
  · exact Finset.subset_union_left
  · exact subset_rfl

theorem AllActive.onHave (hall : s.AllActive) (session : FileSession) (fileId : String)
    (bitfield : Buffer) (rank : ℕ → ℕ) :
    (s.onHave session fileId bitfield rank).1.AllActive := by
  rw [FileNode.onHave]
  split
  · exact hall
  · split
    · exact hall.addHave _ _ _
    · exact (hall.addHave _ _ _).schedule fileId rank

theorem AllActive.handleMessage (hall : s.AllActive) (jsonParse : Buffer → Option Json)
    (session : FileSession) (buf : Buffer) (rank : ℕ → ℕ) :
    (s.handleMessage jsonParse session buf rank).1.AllActive := by
  rw [FileNode.handleMessage]
  split
  · exact hall
  · exact hall.onManifest _
  · exact hall.onHave session _ _ rank
  · exact (hall.addHave _ _ _).schedule _ rank
  · exact (same_serveChunk s session _ _).allActive hall
  · exact hall.onChunkData session _ _ _ _ _ rank
  · exact hall

/-! ## Sessions

First the peer goes, from the sessions and from the records, and then the downloads are gone
through.  `Falling` says which of them have been dealt with. -/

theorem AllActive.attachSession (hall : s.AllActive) (peerId : Buffer) :
    (s.attachSession peerId).1.AllActive := by
  obtain ⟨sent, hattach⟩ := attachSession_eq s peerId
  refine hall.of_keeps ⟨fun peerHex hp ↦ ?_, fun peer f ↦ ?_, ?_⟩ fun f d h ↦ ?_
  · rw [hattach, OrderedMap.has_iff, OrderedMap.mem_keys_set]
    exact .inr (OrderedMap.has_iff.mp hp)
  · rw [knownChunks_attachSession]
  · rw [hattach]
    exact .of_files_eq rfl
  · rwa [hattach] at h

/-- Downloads while the requests to a peer that is gone are taken out of them: the ones of the given
files may still have them. -/
structure Falling (s : FileNode P) (peerHex : String) (fileIds : List String) : Prop where
  without : ∀ fileId d, s.downloads.get? fileId = some d →
    s.Active fileId (d.withoutPeer peerHex)
  done : ∀ fileId d, s.downloads.get? fileId = some d → fileId ∉ fileIds → s.Active fileId d

theorem Falling.step {peerHex : String} {fileIds : List String}
    (h : s.Falling peerHex (fileId :: fileIds)) (rank : ℕ → ℕ) :
    ((s.releasePeer fileId peerHex).schedule fileId rank).Falling peerHex fileIds := by
  cases hget : s.downloads.get? fileId with
  | none =>
    have hsame : (s.releasePeer fileId peerHex).schedule fileId rank = s := by
      have hrelease : s.releasePeer fileId peerHex = s := by rw [releasePeer, hget]
      rw [hrelease, schedule_of_none hget]
    rw [hsame]
    refine ⟨h.without, fun f d hd hf ↦ h.done f d hd fun hmem ↦ ?_⟩
    obtain rfl | hmem := List.mem_cons.mp hmem
    · exact nomatch hget.symm.trans hd
    · exact hf hmem
  | some d =>
    let s₁ := (d.inFlight.entries.filter fun e ↦ e.2.peerHex = peerHex).foldl
      (fun s e ↦ s.clearTimer e.2.timer) s
    have hclear : s.Same s₁ := same_clearTimers s (fun e : ℕ × ChunkRequest ↦ e.2.timer) _
    have hrelease : s.releasePeer fileId peerHex = s₁.putDownload (d.withoutPeer peerHex) := by
      rw [releasePeer, hget]
      rfl
    have hwithout := hclear.keeps.active (h.without fileId d hget)
    have hput := touches_putDownload s₁ (d.withoutPeer peerHex)
    rw [hwithout.key] at hput
    rw [hrelease]
    obtain ⟨hschedule, d', hd'⟩ := schedule_spec (current_putDownload hwithout) rank
    have htouches := ((hclear.touches fileId).trans hput).trans hschedule
    have hcases : ∀ f d₁, (((s₁.putDownload (d.withoutPeer peerHex)).schedule fileId
        rank).downloads.get? f = some d₁) → f = fileId ∧ d₁ = d' ∨
          f ≠ fileId ∧ s.downloads.get? f = some d₁ := by
      intro f d₁ hd₁
      by_cases hf : f = fileId
      · subst hf
        exact .inl ⟨rfl, Option.some.inj (hd₁.symm.trans hd'.get)⟩
      · rw [htouches.others f hf] at hd₁
        exact .inr ⟨hf, hd₁⟩
    refine ⟨fun f d₁ hd₁ ↦ ?_, fun f d₁ hd₁ hnotMem ↦ ?_⟩
    · obtain ⟨rfl, rfl⟩ | ⟨-, hold⟩ := hcases f d₁ hd₁
      · exact hd'.active.withoutPeer peerHex
      · exact htouches.keeps.active (h.without f d₁ hold)
    · obtain ⟨rfl, rfl⟩ | ⟨hf, hold⟩ := hcases f d₁ hd₁
      · exact hd'.active
      · have hnotMem' := List.not_mem_cons_of_ne_of_not_mem hf hnotMem
        exact htouches.keeps.active (h.done f d₁ hold hnotMem')

theorem Falling.fallBack {peerHex : String} {fileIds : List String}
    (h : s.Falling peerHex fileIds) (rank : String → ℕ → ℕ) :
    (s.fallBack peerHex rank fileIds).AllActive := by
  induction fileIds generalizing s with
  | nil => exact fun f d hd ↦ h.done f d hd List.not_mem_nil
  | cons fileId fileIds ih => exact ih (h.step (rank fileId))

/-- **A closed session** leaves no request behind, and every download is scheduled without it. -/
theorem AllActive.onClose (hall : s.AllActive) (peerHex : String) (rank : String → ℕ → ℕ) :
    (s.onClose peerHex rank).AllActive := by
  have hfalling : Falling { s with
      sessions := s.sessions.delete peerHex, peerHave := s.peerHave.delete peerHex } peerHex
      ((enumerate s.downloads.entries).map Prod.fst) := by
    refine ⟨fun f d hd ↦ ?_, fun f d hd hnotMem ↦ ?_⟩
    · have hactive := (hall f d hd).withoutPeer peerHex
      refine ⟨hactive.key, hactive.known, hactive.scheduled.bounded, hactive.scheduled.needed,
        hactive.scheduled.lacking, fun idx r hr ↦ ?_⟩
      have hne : r.peerHex ≠ peerHex := by
        rw [Download.withoutPeer, OrderedMap.get?_filter] at hr
        simpa using (Option.filter_eq_some_iff.mp hr).2
      obtain ⟨hconnected, hannounced, hnotBad⟩ := hactive.scheduled.served idx r hr
      refine ⟨?_, ?_, hnotBad⟩
      · rwa [OrderedMap.has, OrderedMap.get?_delete, if_neg hne]
      · rwa [knownChunks, OrderedMap.get?_delete, if_neg hne]
    · refine absurd (List.mem_map.mpr ⟨(f, d), mem_enumerate.mpr ?_, rfl⟩) hnotMem
      exact OrderedMap.mem_entries_iff.mpr hd
  exact (same_emit _ _).allActive (hfalling.fallBack rank)

/-! ## Downloads and seeds -/

/-- What is missing is needed: a chunk below the count that the store lacks is in the set. -/
theorem mem_missing {store : ChunkStore} {n : ℕ} {needed : Finset ℕ}
    (h : missing store fileId n = .ok needed) {i : ℕ} (hi : i < n)
    (hlack : store.hasChunk fileId i ≠ .ok true) : i ∈ needed := by
  rw [missing] at h
  cases hlookup : store.lookup fileId with
  | entry e =>
    rw [hlookup] at h
    obtain rfl := Except.ok.inj h
    refine Finset.mem_filter.mpr ⟨Finset.mem_range.mpr hi, fun hmem ↦ hlack ?_⟩
    rw [ChunkStore.hasChunk, hlookup]
    exact congrArg Except.ok (List.contains_iff_mem.mpr hmem)
  | inherited =>
    rw [hlookup] at h
    dsimp only at h
    rw [if_neg (Nat.ne_zero_of_lt hi)] at h
    cases h
  | absent =>
    rw [hlookup] at h
    obtain rfl := Except.ok.inj h
    exact Finset.mem_range.mpr hi

theorem same_broadcastHave (s : FileNode P) (fileId : String) :
    s.Same (s.broadcastHave fileId).1 := by
  rw [broadcastHave]
  split
  · exact .refl s
  · split
    · exact .refl s
    · exact same_broadcast ..

theorem AllActive.startDownload (hall : s.AllActive) (hknown : s.store.Known fileId) (m : Json)
    (outPath : Location) (parallel promise : ℕ) (rank : ℕ → ℕ) :
    (s.startDownload m fileId outPath parallel promise rank).AllActive := by
  rw [FileNode.startDownload]
  cases hloop : loopCount (m.get "nb_chunks") with
  | none => exact (same_settle _ _ _).allActive hall
  | some n =>
    cases hmissing : missing s.store fileId n with
    | error e =>
      dsimp only
      rw [hmissing]
      exact (same_settle _ _ _).allActive hall
    | ok needed =>
      let d₀ (tick : Option ℕ) : Download :=
        { manifest := m, fileId := fileId, outPath := outPath, needed := needed
          inFlight := .empty, badPeerForChunk := .empty, parallel := parallel
          promise := promise, done := false, received := n - needed.card, tick := tick }
      have hnew (tick : Option ℕ) : s.Active fileId (d₀ tick) := by
        refine ⟨rfl, hknown, Nat.zero_le parallel, fun i r hr ↦ (nomatch hr),
          fun k hk i hi hlack ↦ ?_, fun i r hr ↦ (nomatch hr)⟩
        obtain rfl : n = k := Option.some.inj (hloop.symm.trans hk)
        exact mem_missing hmissing hi hlack
      have hsame := same_broadcastHave (s.putDownload (d₀ none)) fileId
      have hput := hsame.allActive (hall.putDownload (hnew none))
      have hkeeps := (touches_putDownload s (d₀ none)).keeps.trans hsame.keeps
      dsimp only
      rw [hmissing]
      dsimp only
      split
      · exact (same_settle _ _ _).allActive hput
      · split
        · exact hput.complete fileId
        · have htimer := same_setTimer ((s.putDownload (d₀ none)).broadcastHave fileId).1
            (.tick fileId)
          exact ((htimer.allActive hput).putDownload
            ((hkeeps.trans htimer.keeps).active (hnew _))).schedule fileId rank

theorem AllActive.download (hall : s.AllActive) (m : Json) (outPath : Location)
    (parallel : Option ℕ) (rank : ℕ → ℕ) : (s.download m outPath parallel rank).1.AllActive := by
  have hregister := hall.registerManifest m
  rw [FileNode.download]
  dsimp only
  split
  · exact hregister
  · split
    · next fileId hid =>
      have hknown : (s.registerManifest m).1.store.Known fileId := by
        rw [FileNode.registerManifest, fileKey_of_get hid]
        exact s.store.known_registerManifest fileId m
      have hpromise : (s.registerManifest m).1.Same { (s.registerManifest m).1 with
          nextPromise := (s.registerManifest m).1.nextPromise + 1 } := ⟨rfl, rfl, rfl, rfl⟩
      exact (hpromise.allActive hregister).startDownload hknown m outPath _ _ rank
    · exact hregister

theorem AllActive.seedChunk (hall : s.AllActive) (m : Json) (fileId : String)
    (filePath : Location) (buf : Buffer) (i : ℕ) :
    (s.seedChunk m fileId filePath buf i).1.AllActive := by
  obtain h | ⟨c, data, -, h⟩ := seedChunk_cases s m fileId filePath buf i
  · rwa [h]
  · rw [h]
    exact hall.of_store (ChunkStore.grows_putChunk _ _ _ _ _ _)

theorem AllActive.seedChunks (hall : s.AllActive) (m : Json) (fileId : String)
    (filePath : Location) (buf : Buffer) (is : List ℕ) :
    (s.seedChunks m fileId filePath buf is).1.AllActive := by
  induction is generalizing s buf with
  | nil => exact hall
  | cons i is ih =>
    rw [FileNode.seedChunks]
    dsimp only
    split
    · exact hall.seedChunk m fileId filePath buf i
    · exact ih (hall.seedChunk m fileId filePath buf i) _

theorem AllActive.seed (hall : s.AllActive) (m : Json) (filePath : Location) :
    (s.seed m filePath).1.AllActive := by
  have hregister := hall.registerManifest m
  rw [FileNode.seed]
  dsimp only
  split
  · exact hregister
  · next fileId chunkSize n _ _ _ _ =>
    split
    · exact hregister
    · exact hregister
    · next length _ _ =>
      have hchunks := hregister.seedChunks m fileId filePath (List.replicate length 0)
        (List.range n)
      split
      · exact hchunks
      · split
        · exact hchunks
        · split
          · exact (same_broadcast _ _).allActive hchunks
          · exact hchunks.of_keeps (.of_eq rfl rfl rfl) fun _ _ hd ↦ hd
  · exact hregister

/-! ## Every state -/

theorem AllActive.fire (hall : s.AllActive) (t : ℕ) (rank : ℕ → ℕ) :
    (s.fire t rank).AllActive := by
  rw [FileNode.fire]
  split
  · exact hall
  · exact ((same_clearTimer s t).allActive hall).onTimeout _ _ rank
  · exact hall.schedule _ rank

/-- **Whatever happens**, every download stays scheduled: this is the step of the induction over
runs. -/
theorem AllActive.next (hall : s.AllActive) (jsonParse : Buffer → Option Json) (e : FileEvent) :
    (s.next jsonParse e).AllActive := by
  cases e with
  | attach peerId => exact hall.attachSession peerId
  | message session buf rank => exact hall.handleMessage jsonParse session buf rank
  | close peerHex rank => exact hall.onClose peerHex rank
  | timer t rank => exact hall.fire t rank
  | download m outPath parallel rank => exact hall.download m outPath parallel rank
  | seed m filePath => exact hall.seed m filePath

theorem allActive_of_reachable (jsonParse : Buffer → Option Json) {s : FileNode P}
    (hs : (machine jsonParse).Reachable s) : s.AllActive := by
  refine hs.invariant ?_ ?_
  · rintro _ ⟨signKey, store, parallel, rfl⟩ f d hd
    exact nomatch hd
  · rintro s e _ _ hall ⟨-, rfl⟩
    exact hall.next jsonParse e

/-- **The download scheduler**, in every reachable state: of every active download, the requests in
flight are no more than it may have and for chunks that it needs, it needs all that the store lacks,
and each request is to a peer that is connected, has announced the chunk, and is not known to have
sent a bad one. -/
theorem scheduled_of_reachable (jsonParse : Buffer → Option Json) (s : FileNode P)
    (hs : (machine jsonParse).Reachable s) (fileId : String) (d : Download)
    (hd : s.downloads.get? fileId = some d) : d.fileId = fileId ∧ s.Scheduled d := by
  have hactive := allActive_of_reachable jsonParse hs fileId d hd
  exact ⟨hactive.key, hactive.scheduled⟩

/-! ### One download -/

namespace SampleDownload

open Manifest

/-- A disk with an empty directory for the store, and nothing else. -/
def disk : FileSystem := fun loc ↦ if loc = [] ∨ loc = ["store"] then some .dir else none

def start : FileNode samplePrimitives := .new () ⟨["store"], .empty, disk⟩ 8

/-- The file id of the sample, with two chunks. -/
def twoChunks : Json :=
  .obj [("file_id", .str sampleFileId.hex), ("nb_chunks", .num (.finite 2))]

/-- A peer attaches and announces the chunk of a file, which is then downloaded. -/
def events : List FileEvent :=
  [.attach [0],
    .message ⟨"00#1", [0]⟩ (FileProtocol.encHavePiece sampleFileId.hex 0) fun i ↦ i,
    .download sampleManifest ["out.txt"] none fun i ↦ i]

def state : FileNode samplePrimitives := events.foldl (next fun _ ↦ none) start

theorem reachable : (machine fun _ ↦ none).Reachable state :=
  ⟨start, events, ⟨(), ⟨["store"], .empty, disk⟩, 8, rfl⟩,
    Machine.run_foldl (fun _ _ _ ↦ Machine.step_ofFun trivial) Machine.feasible_true⟩

/-- The chunk has been requested of the only peer, so that the invariant says something of this
state. -/
theorem requested : ((state.downloads.get? sampleFileId.hex).map fun d ↦
    (d.inFlight.get? 0).map ChunkRequest.peerHex) = some (some "00#1") := by decide +kernel

end SampleDownload

open SampleDownload in
theorem scheduled_sample : ∃ d, state.downloads.get? Manifest.sampleFileId.hex = some d ∧
    (d.inFlight.get? 0).map ChunkRequest.peerHex = some "00#1" ∧
    d.fileId = Manifest.sampleFileId.hex ∧ state.Scheduled d := by
  obtain ⟨d, hd, hrequest⟩ := Option.map_eq_some_iff.mp requested
  exact ⟨d, hd, hrequest, scheduled_of_reachable _ state reachable _ d hd⟩

end FileNode

end AttestP2P
