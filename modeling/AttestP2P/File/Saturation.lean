import AttestP2P.File.Knowledge
import AttestP2P.File.Retries

/-!
# No capacity is left idle

`_schedule` requests as much as it may.  It is called by whoever changes something that matters to
it, so that between two events no download waits for a chunk that it could ask for.

* `Busy`: as many requests are in flight as may be, or no chunk is left that could be requested.
* `SaturatedBut`: every download is, but those that `_schedule` is still to be called for.  A
  handler that takes away a request, or learns of a new source, adds the file to that list, and the
  call of `_schedule` at its end takes it off again.
* `Uninterrupted`: no exception leaves a handler between a change and the call.  The store may throw
  there, when the disk does; whatever peers send does not.
* `saturated_run` is the induction over the events.

So a swarm does not come to a halt because somebody forgot to ask.  Chunks that nobody who may be
asked has are not asked for, and a download that waits for such a chunk is busy.
-/

set_option autoImplicit false

namespace AttestP2P

namespace FileNode

variable {P : Primitives} {s s' : FileNode P} {d : Download} {f : String} {fileIds : List String}
  {jsonParse : Buffer → Option Json} {e : FileEvent}

/-- No request could go out: there is no room for it, or no chunk. -/
def Busy (s : FileNode P) (d : Download) : Prop :=
  d.inFlight.size < d.parallel → ∀ idx, ¬s.Eligible d idx

/-- The downloads of all other files are busy. -/
def SaturatedBut (s : FileNode P) (fileIds : List String) : Prop :=
  ∀ f d, s.downloads.get? f = some d →
    d.fileId = f ∧ d.done = false ∧ (f ∉ fileIds → s.Busy d)

/-- **No capacity is idle.** -/
def Saturated (s : FileNode P) : Prop := s.SaturatedBut []

/-! ## What leaves a download busy

A download that is busy stays so when requests are added and when peers leave, and when nothing new
may be asked for.  It may cease to be so when a request goes, or a source comes. -/

/-- Whoever may be asked for a chunk could be asked before. -/
def NoNewPeers (s s' : FileNode P) (fileId : String) : Prop :=
  ∀ d idx peerHex, d.fileId = fileId → s'.MayServe d idx peerHex → s.MayServe d idx peerHex

theorem NoNewPeers.of_eq (hsessions : s'.sessions = s.sessions) (hhave : s'.peerHave = s.peerHave)
    (fileId : String) : s.NoNewPeers s' fileId := by
  rintro d idx peerHex - ⟨hconnected, hannounced, hnotBad⟩
  refine ⟨hsessions ▸ hconnected, ?_, hnotBad⟩
  rwa [knownChunks, hhave] at hannounced

theorem Busy.of_noNewPeers (h : s.Busy d) (hpeers : s.NoNewPeers s' d.fileId) : s'.Busy d := by
  rintro hroom idx ⟨hneeded, hidle, peerHex, hserve⟩
  exact h hroom idx ⟨hneeded, hidle, peerHex, hpeers d idx peerHex rfl hserve⟩

theorem SaturatedBut.mono {fileIds' : List String} (h : s.SaturatedBut fileIds)
    (hsub : ∀ g, g ∉ fileIds' → g ∉ fileIds) : s.SaturatedBut fileIds' := by
  intro g d hd
  obtain ⟨hkey, hdone, hbusy⟩ := h g d hd
  exact ⟨hkey, hdone, fun hg ↦ hbusy (hsub g hg)⟩

/-- The downloads are the same, and no peer is new to those that were busy. -/
theorem SaturatedBut.of_downloads (h : s.SaturatedBut fileIds)
    (hdownloads : s'.downloads = s.downloads)
    (hpeers : ∀ g, g ∉ fileIds → s.NoNewPeers s' g) : s'.SaturatedBut fileIds := by
  intro g d hd
  rw [hdownloads] at hd
  obtain ⟨hkey, hdone, hbusy⟩ := h g d hd
  refine ⟨hkey, hdone, fun hg ↦ (hbusy hg).of_noNewPeers ?_⟩
  exact hkey ▸ hpeers g hg

theorem SaturatedBut.of_eq (h : s.SaturatedBut fileIds) (hdownloads : s'.downloads = s.downloads)
    (hsessions : s'.sessions = s.sessions) (hhave : s'.peerHave = s.peerHave) :
    s'.SaturatedBut fileIds :=
  h.of_downloads hdownloads fun g _ ↦ .of_eq hsessions hhave g

theorem SaturatedBut.of_same (h : s.SaturatedBut fileIds) (hsame : s.Same s') :
    s'.SaturatedBut fileIds := h.of_eq hsame.downloads hsame.sessions hsame.peerHave

/-- The download of a file is replaced, which `_schedule` is to be called for. -/
theorem SaturatedBut.put (h : s.SaturatedBut fileIds)
    (hdownloads : s'.downloads = s.downloads.set f d) (hsessions : s'.sessions = s.sessions)
    (hhave : s'.peerHave = s.peerHave) (hkey : d.fileId = f) (hdone : d.done = false)
    (hmem : f ∈ fileIds) : s'.SaturatedBut fileIds := by
  intro g d' hd'
  rw [hdownloads, OrderedMap.get?_set] at hd'
  split at hd'
  · next hg =>
    obtain rfl := Option.some.inj hd'
    exact ⟨hkey.trans hg.symm, hdone, fun hnot ↦ absurd (hg ▸ hmem) hnot⟩
  · obtain ⟨hkey', hdone', hbusy⟩ := h g d' hd'
    exact ⟨hkey', hdone', fun hg ↦ (hbusy hg).of_noNewPeers (.of_eq hsessions hhave _)⟩

/-! ## `_schedule`

The loop ends for one of two reasons: there is no room for a further request, or all candidates have
been gone through.  In both cases the download is busy. -/

theorem size_inFlight_addRequests {requests : List (ℕ × ChunkRequest)}
    (hnodup : (requests.map Prod.fst).Nodup)
    (hidle : ∀ idx ∈ requests.map Prod.fst, d.inFlight.has idx = false) :
    (d.addRequests requests).inFlight.size = d.inFlight.size + requests.length := by
  have hfold (m : OrderedMap ℕ ChunkRequest)
      (hm : ∀ idx ∈ requests.map Prod.fst, idx ∉ m.keys) :
      (requests.foldl (fun m e ↦ m.set e.1 e.2) m).size = m.size + requests.length := by
    induction requests generalizing m with
    | nil => rfl
    | cons e requests ih =>
      obtain ⟨hnotMem, hnodup'⟩ := List.nodup_cons.mp hnodup
      obtain ⟨he, hrest⟩ := List.forall_mem_cons.mp hm
      rw [List.foldl_cons, ih hnodup' (fun idx h ↦ hidle idx (List.mem_cons_of_mem _ h)),
        OrderedMap.size_set_of_notMem he, List.length_cons]
      · omega
      · intro idx hidx hkeys
        rcases OrderedMap.mem_keys_set.mp hkeys with rfl | hkeys
        · exact hnotMem hidx
        · exact hrest idx hidx hkeys
  refine hfold d.inFlight fun idx hidx hkeys ↦ ?_
  have hhas := OrderedMap.has_iff.mpr hkeys
  rw [hidle idx hidx] at hhas
  cases hhas

/-- **A download is busy once `_schedule` has been called for it.** -/
theorem Assigned.busy {rank : ℕ → ℕ} {requests : List (ℕ × ChunkRequest)}
    (h : s.Assigned d (s.candidates d rank) requests) :
    (s.addRequests d requests).Busy (d.addRequests requests) := by
  have hidxs := h.idxs
  set eligible := (s.candidates d rank).filter fun idx ↦
    !d.inFlight.has idx && s.peersForChunk d idx ≠ []
  have hsub : (requests.map Prod.fst).Sublist eligible := hidxs ▸ List.take_sublist _ _
  have hsize := size_inFlight_addRequests (((nodup_candidates s d rank).filter _).sublist hsub)
    fun i hi ↦ (mem_filter_candidates.mp (hsub.subset hi)).idle
  intro hroom idx heligible
  have hidle : ¬(d.addRequests requests).inFlight.has idx = true := by
    rw [heligible.idle]
    exact Bool.false_ne_true
  rw [has_inFlight_addRequests, not_or] at hidle
  have hmem : idx ∈ eligible := by
    obtain ⟨peerHex, hconnected, hannounced, hnotBad⟩ := heligible.served
    exact mem_filter_candidates.mpr ⟨heligible.needed, eq_false_of_ne_true hidle.1, peerHex,
      hconnected, hannounced, hnotBad⟩
  -- the requests are fewer than there is room for, so that they are all that could be requested
  have hlength := congrArg List.length hidxs
  rw [List.length_map, List.length_take] at hlength
  have hroom' : d.inFlight.size + requests.length < d.parallel := hsize ▸ hroom
  rw [List.take_of_length_le (by omega)] at hidxs
  exact hidle.2 (hidxs ▸ hmem)

theorem SaturatedBut.schedule (h : s.SaturatedBut (f :: fileIds)) (rank : ℕ → ℕ) :
    (s.schedule f rank).SaturatedBut fileIds := by
  cases hget : s.downloads.get? f with
  | none =>
    rw [schedule_of_none hget]
    intro g d hd
    obtain ⟨hkey, hdone, hbusy⟩ := h g d hd
    have hne : g ≠ f := by
      rintro rfl
      rw [hget] at hd
      cases hd
    exact ⟨hkey, hdone, fun hg ↦ hbusy (List.not_mem_cons_of_ne_of_not_mem hne hg)⟩
  | some d =>
    obtain ⟨hkey, hdone, -⟩ := h f d hget
    have hget' : s.downloads.get? d.fileId = some d := by rw [hkey, hget]
    obtain ⟨requests, heq, hassigned⟩ :=
      requestAll_eq (s.candidates d rank) hget' (nodup_candidates s d rank)
    have hschedule : s.schedule f rank = s.addRequests d requests := by
      rw [FileNode.schedule, hget]
      dsimp only
      rw [if_neg (by rw [hdone]; decide), heq]
    rw [hschedule]
    intro g d' hd'
    have hset : (s.addRequests d requests).downloads =
        s.downloads.set f (d.addRequests requests) := by rw [← hkey]; rfl
    rw [hset, OrderedMap.get?_set] at hd'
    split at hd'
    · next hg =>
      obtain rfl := Option.some.inj hd'
      exact ⟨hkey.trans hg.symm, hdone, fun _ ↦ hassigned.busy⟩
    · next hne =>
      obtain ⟨hkey', hdone', hbusy⟩ := h g d' hd'
      have hpeers : s.NoNewPeers (s.addRequests d requests) d'.fileId :=
        fun _ _ _ _ hserve ↦ ⟨hserve.connected, hserve.announced, hserve.notBad⟩
      exact ⟨hkey', hdone', fun hg ↦
        (hbusy (List.not_mem_cons_of_ne_of_not_mem hne hg)).of_noNewPeers hpeers⟩

theorem size_inFlight_release {idx : ℕ} {r : ChunkRequest} (hr : d.inFlight.get? idx = some r) :
    (d.release idx).inFlight.size + 1 = d.inFlight.size := by
  have hsum := OrderedMap.sum_delete (g := fun _ ↦ 1) hr
  have hone (m : OrderedMap ℕ ChunkRequest) : m.sum (fun _ ↦ 1) = m.size := by
    rw [OrderedMap.sum, OrderedMap.size]
    simp
  rwa [hone, hone] at hsum

/-- **Who overtakes, where no capacity is idle.**  A request that is taken out makes room for one
other: no chunk that could be requested comes before its own, and another peer comes before the
given one. -/
theorem Saturated.overtaken_iff (h : s.Saturated) (hd : s.downloads.get? f = some d)
    (hbounded : d.inFlight.size ≤ d.parallel) {idx : ℕ} {r : ChunkRequest}
    (hr : d.inFlight.get? idx = some r) (rank : ℕ → ℕ) (peerHex : String) :
    s.Overtaken (d.release idx) rank idx peerHex ↔ ∃ ahead behind other,
      s.candidates (d.release idx) rank = ahead ++ idx :: behind ∧
      (∀ i ∈ ahead, ¬s.Eligible (d.release idx) i) ∧ s.MayServe (d.release idx) idx other ∧
      StableMin.Before (d.release idx).inFlightForPeer (s.peersForChunk (d.release idx) idx) other
        peerHex := by
  have hsize := size_inFlight_release hr
  have hparallel : (d.release idx).parallel = d.parallel := rfl
  have hnil (ahead : List ℕ) (hnone : ∀ i ∈ ahead, ¬s.Eligible (d.release idx) i)
      (hsub : ∀ i ∈ ahead, i ∈ s.candidates (d.release idx) rank) :
      s.Assigned (d.release idx) ahead [] := by
    refine .nil ?_
    rw [List.filter_eq_nil_iff.mpr fun i hi husable ↦ hnone i hi ?_, List.take_nil]
    exact mem_filter_candidates.mp (List.mem_filter.mpr ⟨hsub i hi, husable⟩)
  constructor
  · rintro ⟨ahead, behind, requests, other, hsplit, hassigned, hroom, hother, hbefore⟩
    have hsub : ∀ i ∈ ahead, i ∈ s.candidates (d.release idx) rank :=
      fun i hi ↦ hsplit ▸ List.mem_append_left _ hi
    have hnone : ∀ i ∈ ahead, ¬s.Eligible (d.release idx) i := by
      intro i hi helig
      have hne : i ≠ idx := by
        rintro rfl
        have hnodup := nodup_candidates s (d.release i) rank
        rw [hsplit] at hnodup
        exact (List.nodup_append.mp hnodup).2.2 i hi i List.mem_cons_self rfl
      -- all requests were in flight that may be, so that this chunk takes the only place
      have hold : s.Eligible d i := by
        obtain ⟨peer, hconnected, hannounced, hnotBad⟩ := helig.served
        refine ⟨helig.needed, ?_, peer, hconnected, hannounced, hnotBad⟩
        rw [← helig.idle, OrderedMap.has, OrderedMap.has, Download.release,
          OrderedMap.get?_delete, if_neg hne]
      have hfull : ¬d.inFlight.size < d.parallel := fun hlt ↦
        (h f d hd).2.2 List.not_mem_nil hlt i hold
      have hmem : i ∈ ahead.filter fun idx' ↦ !(d.release idx).inFlight.has idx' &&
          s.peersForChunk (d.release idx) idx' ≠ [] :=
        List.mem_filter.mpr ⟨hi, (eligible_iff.mp helig).2⟩
      have hlength := congrArg List.length hassigned.idxs
      rw [List.length_map, List.length_take] at hlength
      have hpos := List.length_pos_of_mem hmem
      omega
    obtain rfl := hassigned.unique (hnil ahead hnone hsub)
    exact ⟨ahead, behind, other, hsplit, hnone, hother, hbefore⟩
  · rintro ⟨ahead, behind, other, hsplit, hnone, hother, hbefore⟩
    have hsub : ∀ i ∈ ahead, i ∈ s.candidates (d.release idx) rank :=
      fun i hi ↦ hsplit ▸ List.mem_append_left _ hi
    refine ⟨ahead, behind, [], other, hsplit, hnil ahead hnone hsub, ?_, hother, hbefore⟩
    rw [List.length_nil, hparallel]
    omega

/-! ## Messages -/

theorem SaturatedBut.release (h : s.SaturatedBut fileIds) (hd : s.downloads.get? f = some d)
    (idx : ℕ) (hmem : f ∈ fileIds) : (s.release d idx).SaturatedBut fileIds := by
  obtain ⟨hkey, hdone, -⟩ := h f d hd
  rw [FileNode.release]
  split
  · exact h
  · next inf _ =>
    refine h.put (d := d.release idx) ?_ rfl rfl hkey hdone hmem
    rw [← hkey]
    rfl

/-- The download of the file is over. -/
theorem SaturatedBut.complete (h : s.SaturatedBut (f :: fileIds)) :
    (s.complete f).SaturatedBut fileIds := by
  have hpeers (g : String) : s.NoNewPeers (s.complete f) g :=
    .of_eq (congrArg Knowledge.sessions (knowledge_complete s f))
      (congrArg Knowledge.peerHave (knowledge_complete s f)) g
  have hrest : ∀ g d, (s.complete f).downloads.get? g = some d →
      g ≠ f ∧ s.downloads.get? g = some d := by
    intro g d hd
    obtain ⟨hsame, hdone⟩ | ⟨d', s₁, -, -, hdownloads, heq⟩ := complete_cases s f
    · rw [hsame] at hd
      refine ⟨?_, hd⟩
      rintro rfl
      exact absurd (hdone d hd) (by simp [(h g d hd).2.1])
    · rw [heq, downloads_finish, hdownloads, OrderedMap.get?_delete] at hd
      split at hd
      · cases hd
      · next hne => exact ⟨hne, hd⟩
  intro g d hd
  obtain ⟨hne, hold⟩ := hrest g d hd
  obtain ⟨hkey, hdone, hbusy⟩ := h g d hold
  exact ⟨hkey, hdone, fun hg ↦
    (hbusy (List.not_mem_cons_of_ne_of_not_mem hne hg)).of_noNewPeers (hpeers _)⟩

/-- What is learnt about a file matters to the download of that file. -/
theorem Saturated.addHave (h : s.Saturated) (peerHex f : String) (chunks : Finset ℕ) :
    (s.addHave peerHex f chunks).SaturatedBut [f] := by
  refine (h.mono fun g _ ↦ List.not_mem_nil).of_downloads rfl fun g hg ↦ ?_
  rintro d idx peer rfl ⟨hconnected, hannounced, hnotBad⟩
  refine ⟨hconnected, ?_, hnotBad⟩
  rwa [knownChunks_addHave, if_neg fun hpeer ↦ hg (List.mem_singleton.mpr hpeer.2)] at hannounced

theorem Saturated.onHave (h : s.Saturated) (session : FileSession) (f : String)
    (bitfield : Buffer) (rank : ℕ → ℕ) : (s.onHave session f bitfield rank).1.Saturated := by
  rw [FileNode.onHave]
  split
  · exact h
  · split
    · -- an empty record offers nothing
      refine h.of_downloads rfl fun g _ ↦ ?_
      rintro d idx peer rfl ⟨hconnected, hannounced, hnotBad⟩
      refine ⟨hconnected, ?_, hnotBad⟩
      rw [knownChunks_addHave, Finset.union_empty, ite_self] at hannounced
      exact hannounced
    · exact (h.addHave _ _ _).schedule rank

/-- **Chunk data**, if the store does not throw. -/
theorem Saturated.onChunkData (h : s.Saturated) (session : FileSession) (f : String) (idx : ℕ)
    (chunkHash signature data : Buffer) (rank : ℕ → ℕ)
    (hstore : (s.onChunkData session f idx chunkHash signature data rank).2 = .ok ()) :
    (s.onChunkData session f idx chunkHash signature data rank).1.Saturated := by
  revert hstore
  rw [FileNode.onChunkData]
  split
  · exact fun _ ↦ h
  · next d hd =>
    cases d.expectedHash idx with
    | error err => exact fun _ ↦ h
    | ok expected =>
      obtain ⟨hkey, hdone, -⟩ := h f d hd
      have hpending : s.SaturatedBut [f] := h.mono fun g _ ↦ List.not_mem_nil
      have hrelease := hpending.release hd idx List.mem_cons_self
      -- the chunk is no longer in flight, and whatever becomes of it, `_schedule` is to be called
      have hput {s₁ : FileNode P} (hsame : (s.release d idx).Same s₁) (d₁ : Download)
          (hkey₁ : d₁.fileId = f) (hdone₁ : d₁.done = false) :
          (s₁.putDownload d₁).SaturatedBut [f] := by
        refine (hrelease.of_same hsame).put (d := d₁) ?_ rfl rfl hkey₁ hdone₁ List.mem_cons_self
        rw [← hkey₁]
        rfl
      dsimp only
      split
      · intro _
        have hbad := hput (same_safeSend _ session.peerHex
          (FileProtocol.encAck idx FileProtocol.ackHashMismatch))
          ((d.release idx).markBad idx session.peerHex) hkey hdone
        exact (hbad.of_same (same_emit _ (.corrupt f idx session.peerHex))).schedule rank
      · have hstored (store : ChunkStore) :
            SaturatedBut { s.release d idx with store := store } [f] := hrelease.of_eq rfl rfl rfl
        split
        · exact fun hstore ↦ by cases hstore
        · exact fun _ ↦ (hstored _).schedule rank
        · intro _
          have hreceived (store : ChunkStore) : SaturatedBut (putDownload
              { s.release d idx with store := store } ((d.release idx).receive idx)) [f] :=
            (hstored store).put (d := (d.release idx).receive idx) (by rw [← hkey]; rfl) rfl rfl
              hkey hdone List.mem_cons_self
          have hsent (store : ChunkStore) (ack piece : Buffer) (n : FileNotice) :=
            (((hreceived store).of_same (same_safeSend _ session.peerHex ack)).of_same
              (same_broadcast _ piece)).of_same (same_emit _ n)
          split
          · exact (hsent _ _ _ _).complete
          · exact (hsent _ _ _ _).schedule rank

/-! ## The other events

A session that closes takes requests out of many downloads at once.  They are put on the list of
those that `_schedule` is to be called for, and come off it one by one. -/

theorem Saturated.pending (h : s.Saturated) (fileIds : List String) : s.SaturatedBut fileIds :=
  h.mono fun _ _ ↦ List.not_mem_nil

theorem Saturated.fire (h : s.Saturated) (t : ℕ) (rank : ℕ → ℕ) :
    (s.fire t rank).Saturated := by
  rw [FileNode.fire]
  split
  · exact h
  · next f idx _ =>
    have hclear := (h.pending [f]).of_same (same_clearTimer s t)
    rw [onTimeout]
    split
    · exact h.of_same (same_clearTimer s t)
    · next d hd =>
      split
      · exact (hclear.release hd idx List.mem_cons_self).schedule rank
      · exact h.of_same (same_clearTimer s t)
  · next f _ => exact (h.pending [f]).schedule rank

/-- A new session has announced nothing. -/
theorem Saturated.attachSession (h : s.Saturated) (hproper : s.knowledge.Proper)
    (peerId : Buffer) : (s.attachSession peerId).1.Saturated := by
  obtain ⟨sent, hattach⟩ := attachSession_eq s peerId
  refine h.of_downloads (by rw [hattach]) fun g _ ↦ ?_
  rintro d idx peer rfl ⟨hconnected, hannounced, hnotBad⟩
  rw [knownChunks_attachSession] at hannounced
  refine ⟨?_, hannounced, hnotBad⟩
  have hne : peer ≠ s.sessionKey peerId := by
    rintro rfl
    cases hrecord : s.knowledge.record (s.sessionKey peerId) d.fileId with
    | none =>
      have hnone : s.knownChunks (s.sessionKey peerId) d.fileId = ∅ := congrArg (·.getD ∅) hrecord
      rw [hnone] at hannounced
      exact absurd hannounced (Finset.notMem_empty idx)
    | some set =>
      exact s.knowledge.not_used_sessionKey peerId (hproper.used _ _ set hrecord)
  rw [hattach, OrderedMap.has, OrderedMap.get?_set_of_ne hne] at hconnected
  exact hconnected

theorem SaturatedBut.releasePeer (h : s.SaturatedBut fileIds) (peerHex : String)
    (hmem : f ∈ fileIds) : (s.releasePeer f peerHex).SaturatedBut fileIds := by
  cases hd : s.downloads.get? f with
  | none =>
    have hsame : s.releasePeer f peerHex = s := by rw [FileNode.releasePeer, hd]
    rwa [hsame]
  | some d =>
    obtain ⟨hkey, hdone, -⟩ := h f d hd
    have hsame := same_clearTimers s (fun e : ℕ × ChunkRequest ↦ e.2.timer)
      (d.inFlight.entries.filter fun e ↦ e.2.peerHex = peerHex)
    refine h.put (d := d.withoutPeer peerHex) ((downloads_releasePeer hd).trans ?_) ?_ ?_ hkey
      hdone hmem
    · rw [hkey]
    · rw [FileNode.releasePeer, hd]
      exact hsame.sessions
    · rw [FileNode.releasePeer, hd]
      exact hsame.peerHave

theorem SaturatedBut.fallBack (h : s.SaturatedBut fileIds) (peerHex : String)
    (rank : String → ℕ → ℕ) : (s.fallBack peerHex rank fileIds).Saturated := by
  induction fileIds generalizing s with
  | nil => exact h
  | cons f fileIds ih => exact ih ((h.releasePeer peerHex List.mem_cons_self).schedule (rank f))

/-- Who is gone can be asked for nothing, and `_schedule` is called for every download. -/
theorem Saturated.onClose (h : s.Saturated) (peerHex : String) (rank : String → ℕ → ℕ) :
    (s.onClose peerHex rank).Saturated := by
  have hgone : SaturatedBut { s with
      sessions := s.sessions.delete peerHex, peerHave := s.peerHave.delete peerHex }
      ((enumerate s.downloads.entries).map Prod.fst) := by
    refine (h.pending _).of_downloads rfl fun g _ ↦ ?_
    rintro d idx peer rfl ⟨hconnected, hannounced, hnotBad⟩
    have hne : peer ≠ peerHex := by
      rintro rfl
      rw [OrderedMap.has, OrderedMap.get?_delete, if_pos rfl] at hconnected
      cases hconnected
    rw [OrderedMap.has, OrderedMap.get?_delete, if_neg hne] at hconnected
    rw [knownChunks, OrderedMap.get?_delete, if_neg hne] at hannounced
    exact ⟨hconnected, hannounced, hnotBad⟩
  exact (hgone.fallBack peerHex rank).of_same (same_emit ..)

theorem Saturated.registerManifest (h : s.Saturated) (m : Json) :
    (s.registerManifest m).1.Saturated := by
  rw [FileNode.registerManifest]
  split
  · exact h
  · exact h.of_eq rfl rfl rfl

/-- A download that begins, if its announcement does not throw. -/
theorem Saturated.startDownload (h : s.Saturated) (m : Json) (outPath : Location)
    (parallel promise : ℕ) (rank : ℕ → ℕ)
    (hhave : s.sessions.entries = [] ∨ ∃ bf, s.store.bitfield f = .ok bf) :
    (s.startDownload m f outPath parallel promise rank).Saturated := by
  rw [FileNode.startDownload]
  split
  · exact h.of_same (same_settle ..)
  · next n _ =>
    split
    · exact h.of_same (same_settle ..)
    · next needed _ =>
      let d (tick : Option ℕ) : Download :=
        { manifest := m, fileId := f, outPath := outPath, needed := needed
          inFlight := .empty, badPeerForChunk := .empty, parallel := parallel
          promise := promise, done := false, received := n - needed.card, tick := tick }
      have hsame := same_broadcastHave (s.putDownload (d none)) f
      have hput (s₁ : FileNode P) (h₁ : s₁.SaturatedBut [f]) (tick : Option ℕ) :
          (s₁.putDownload (d tick)).SaturatedBut [f] :=
        h₁.put (d := d tick) rfl rfl rfl rfl rfl List.mem_cons_self
      have hbegun := (hput s (h.pending [f]) none).of_same hsame
      dsimp only
      split
      · next err herr =>
        -- the announcement of a file that the store can tell of does not throw
        rw [broadcastHave] at herr
        split at herr
        · cases herr
        · next hsessions =>
          obtain ⟨bf, hbf⟩ := hhave.resolve_left hsessions
          rw [show (s.putDownload (d none)).store = s.store from rfl, hbf] at herr
          cases herr
      · split
        · exact hbegun.complete
        · exact (hput _ (hbegun.of_same (same_setTimer _ (.tick f))) _).schedule rank

/-- The announcement of a download does not throw. -/
def Announces (s : FileNode P) (m : Json) : Prop :=
  ∀ f, m.get "file_id" = some (.str f) → (s.registerManifest m).1.sessions.entries = [] ∨
    ∃ bf, (s.registerManifest m).1.store.bitfield f = .ok bf

theorem Saturated.download (h : s.Saturated) (m : Json) (outPath : Location)
    (parallel : Option ℕ) (rank : ℕ → ℕ) (hannounces : s.Announces m) :
    (s.download m outPath parallel rank).1.Saturated := by
  have hregister := h.registerManifest m
  rw [FileNode.download]
  dsimp only
  split
  · exact hregister
  · split
    · next f hid =>
      have hpromise : Saturated { (s.registerManifest m).1 with
          nextPromise := (s.registerManifest m).1.nextPromise + 1 } := hregister.of_eq rfl rfl rfl
      exact hpromise.startDownload m outPath _ _ rank (hannounces f hid)
    · exact hregister

/-- The event is not interrupted: the store does not throw at a chunk, nor at the announcement of a
download. -/
def Uninterrupted (jsonParse : Buffer → Option Json) (s : FileNode P) : FileEvent → Prop
  | .message session buf rank => ∀ f idx chunkHash signature data,
      FileProtocol.decode jsonParse buf = .ok (.chunkData f idx chunkHash signature data) →
        (s.onChunkData session f idx chunkHash signature data rank).2 = .ok ()
  | .download m _ _ _ => s.Announces m
  | _ => True

theorem Saturated.handleMessage (h : s.Saturated) {session : FileSession} {buf : Buffer}
    {rank : ℕ → ℕ} (he : s.Uninterrupted jsonParse (.message session buf rank)) :
    (s.handleMessage jsonParse session buf rank).1.Saturated := by
  rw [FileNode.handleMessage]
  split
  · exact h
  · next m _ =>
    rw [onManifest]
    split
    · exact h
    · exact h
    · split
      · exact h.registerManifest m
      · exact (h.registerManifest m).of_same (same_emit ..)
  · exact h.onHave session _ _ rank
  · exact (h.addHave _ _ _).schedule rank
  · exact h.of_same (same_serveChunk s session _ _)
  · next hdecode => exact h.onChunkData session _ _ _ _ _ rank (he _ _ _ _ _ hdecode)
  · exact h

theorem Saturated.seed (h : s.Saturated) (m : Json) (filePath : Location) :
    (s.seed m filePath).1.Saturated := by
  have hpeers : (s.knowledge.register m).sessions = s.sessions ∧
      (s.knowledge.register m).peerHave = s.peerHave := by
    rw [Knowledge.register]
    split
    · exact ⟨rfl, rfl⟩
    · exact ⟨rfl, rfl⟩
  have hknowledge := knowledge_seed s m filePath
  exact h.of_eq (still_seed s m filePath).downloads
    ((congrArg Knowledge.sessions hknowledge).trans hpeers.1)
    ((congrArg Knowledge.peerHave hknowledge).trans hpeers.2)

theorem Saturated.next (h : s.Saturated) (hproper : s.knowledge.Proper)
    (he : s.Uninterrupted jsonParse e) : (s.next jsonParse e).Saturated := by
  cases e with
  | attach peerId => exact h.attachSession hproper peerId
  | message session buf rank => exact h.handleMessage he
  | close peerHex rank => exact h.onClose peerHex rank
  | timer t rank => exact h.fire t rank
  | download m outPath parallel rank => exact h.download m outPath parallel rank he
  | seed m filePath => exact h.seed m filePath

/-- **No capacity is idle along a run**, whatever the peers send: when an event is over, every
download has as many requests in flight as it may, or none of the chunks that it still needs is
offered by a peer that could be asked for it.  The messages come from sessions, and no event is
interrupted by the store. -/
theorem saturated_run (jsonParse : Buffer → Option Json) (signKey : P.SignKey) (store : ChunkStore)
    (parallel : ℕ) (es : List FileEvent) (hes : Machine.Feasible
      (fun s e ↦ s.knowledge.FromSession e ∧ s.Uninterrupted jsonParse e) (next jsonParse)
      (new signKey store parallel) es) :
    ∀ f d, (es.foldl (next jsonParse) (new signKey store parallel)).downloads.get? f = some d →
      d.inFlight.size ≤ d.parallel ∧ (d.inFlight.size < d.parallel → ∀ idx,
        ¬(es.foldl (next jsonParse) (new signKey store parallel)).Eligible d idx) := by
  have hinvariant := hes.invariant
    (I := fun s : FileNode P ↦ s.AllActive ∧ s.Saturated ∧ s.knowledge.Proper)
    (fun s e ⟨hall, hsaturated, hproper⟩ he ↦ ⟨hall.next jsonParse e,
      hsaturated.next hproper he.2, by rw [knowledge_next]; exact hproper.learn he.1⟩)
    ⟨nofun, nofun, nofun, nofun⟩
  obtain ⟨hall, hsaturated, -⟩ := hinvariant
  intro f d hd
  exact ⟨(hall f d hd).scheduled.bounded, (hsaturated f d hd).2.2 List.not_mem_nil⟩

namespace SampleDownload

theorem uninterrupted_events : Machine.Feasible (fun s e ↦
    s.knowledge.FromSession e ∧ s.Uninterrupted (fun _ ↦ none) e) (next fun _ ↦ none)
      start events := by
  have hpiece : FileProtocol.decode (fun _ ↦ none)
      (FileProtocol.encHavePiece Manifest.sampleFileId.hex 0) =
      .ok (.havePiece Manifest.sampleFileId.hex 0) :=
    FileProtocol.decode_encHavePiece (by decide) (by decide)
  rw [events]
  refine ⟨⟨?_, trivial⟩, ⟨?_, ?_⟩, ⟨?_, ?_⟩, trivial⟩
  · intro session buf rank h
    cases h
  · intro session buf rank h
    cases h
    exact ⟨[0], 1, by decide +kernel, by decide⟩
  · intro f idx chunkHash signature data hdecode
    rw [hpiece] at hdecode
    cases hdecode
  · intro session buf rank h
    cases h
  · intro f hf
    obtain rfl : Manifest.sampleFileId.hex = f := Json.str.inj (Option.some.inj hf)
    have hok {r : Except String Buffer} (hr : r.toBool = true) : ∃ bf, r = .ok bf := by
      cases r with
      | error err => cases hr
      | ok bf => exact ⟨bf, rfl⟩
    exact .inr (hok (by decide +kernel))

end SampleDownload

open SampleDownload in
/-- One request is in flight where eight may be: there is no other chunk. -/
theorem saturated_run_sample : ∃ d, state.downloads.get? Manifest.sampleFileId.hex = some d ∧
    d.inFlight.size = 1 ∧ d.parallel = 8 ∧ ∀ idx, ¬state.Eligible d idx := by
  have hview : (state.downloads.get? Manifest.sampleFileId.hex).map
      (fun d ↦ (d.inFlight.size, d.parallel)) = some (1, 8) := by decide +kernel
  rw [state, start] at hview ⊢
  obtain ⟨d, hd, hsize⟩ := Option.map_eq_some_iff.mp hview
  obtain ⟨hone, height⟩ := Prod.mk.inj hsize
  have hbusy := (saturated_run (P := Manifest.samplePrimitives) (fun _ ↦ none) ()
    ⟨["store"], .empty, disk⟩ 8 events uninterrupted_events Manifest.sampleFileId.hex d hd).2
  exact ⟨d, hd, hone, height, hbusy (hone ▸ height ▸ by decide)⟩

end FileNode

end AttestP2P
