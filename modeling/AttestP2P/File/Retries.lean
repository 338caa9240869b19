import AttestP2P.File.Requests

/-!
# Who is asked again

A request has failed: its timer has fired, or the peer has answered that it has no such chunk.

`_onTimeout` takes the request out and calls `_schedule`, with the comment that the chunk is tried
elsewhere.  But nothing records that the peer has failed, so that `_schedule` chooses among all who
may serve the chunk, the peer that has failed included.  An answer that there is no such chunk does
not even get that far: the case `ACK` of `handleMessage` is empty.

* `sent_of_run`: the requests that a sequence of turns sends are those of its labels.
* `Undone`: downloads that are over are not kept.
* `fire_eq`: what becomes of the node when the timer of a request fires.
* `RetriedElsewhere`: the request is released, and another peer is asked for the chunk.
* `Overtaken`: in the state in which the request fails, another peer comes before the one that has
  failed; that one may still serve the chunk (`Scheduled.served`).
* `retries_elsewhere_iff`: the chunk is requested elsewhere exactly if the request fails by its
  timer and the peer is overtaken.
-/

set_option autoImplicit false

namespace AttestP2P

/-- The request that a turn sends, and to whom, if it sends one. -/
def Act.message : Act → Option (String × Buffer)
  | .request fileId idx peerHex => some (peerHex, FileProtocol.encChunkReq fileId idx)
  | _ => none

namespace FileNode

variable {P : Primitives} {s s' s₀ : FileNode P} {d : Download} {f peerHex : String} {idx : ℕ}
  {r : ChunkRequest} {a : Act} {acts : List Act} {jsonParse : Buffer → Option Json} {e : FileEvent}

/-! ## Requests on the wire

What is in flight is a matter of the state, and what has been sent of the log.  A request that is
new among those in flight is a `CHUNK_REQ` in the log, behind what was there. -/

theorem sent_clearTimers {α : Type} (s : FileNode P) (timer : α → ℕ) (l : List α) :
    (l.foldl (fun s a ↦ s.clearTimer (timer a)) s).sent = s.sent := by
  induction l generalizing s with
  | nil => rfl
  | cons a l ih => exact ih (s.clearTimer (timer a))

theorem Turn.sent (h : Turn s a s') : ∃ sent, s'.sent = s.sent ++ sent ∧
    sent.filter (fun m ↦ m.2.head? = some FileProtocol.chunkReqType) = a.message.toList := by
  have hnone {s' : FileNode P} (h : s'.sent = s.sent) : ∃ sent, s'.sent = s.sent ++ sent ∧
      sent.filter (fun m ↦ m.2.head? = some FileProtocol.chunkReqType) = [] :=
    ⟨[], by rw [h, List.append_nil], rfl⟩
  cases h with
  | still h =>
    obtain ⟨sent, heq, hsent⟩ := h.sent
    exact ⟨sent, heq, List.filter_eq_nil_iff.mpr fun m hm ↦ by simpa using hsent m hm⟩
  | request => exact ⟨_, rfl, rfl⟩
  | @finish d =>
    refine hnone ?_
    dsimp only
    rw [clearRequests, sent_clearTimers]
    cases d.tick with
    | none => rfl
    | some t => rfl
  | detach hd =>
    refine hnone ?_
    rw [releasePeer, hd]
    exact sent_clearTimers ..
  | _ => exact hnone rfl

/-- **The requests that are sent** are the requests of the turns, in the same order. -/
theorem sent_of_run (h : (turns P).Run s acts s') : ∃ sent, s'.sent = s.sent ++ sent ∧
    sent.filter (fun m ↦ m.2.head? = some FileProtocol.chunkReqType) =
      acts.filterMap Act.message := by
  induction h with
  | nil s => exact ⟨[], (List.append_nil _).symm, rfl⟩
  | @cons _ _ _ a acts hturn _ ih =>
    obtain ⟨sent, heq, hsent⟩ := Turn.sent hturn
    obtain ⟨sent', heq', hsent'⟩ := ih
    refine ⟨sent ++ sent', by rw [heq', heq, List.append_assoc], ?_⟩
    rw [List.filter_append, hsent, hsent', List.filterMap_cons]
    cases a.message with
    | none => rfl
    | some m => rfl

/-! ## Downloads that go on -/

/-- No download that is over is kept: `_complete` deletes it in the same turn. -/
def Undone (s : FileNode P) : Prop := ∀ f d, s.downloads.get? f = some d → d.done = false

/-- A download that takes the place of another, or begins, is not over. -/
theorem Undone.set (h : s.Undone) (hd : d.done = false) {g : String} {d' : Download}
    (hd' : (s.downloads.set f d).get? g = some d') : d'.done = false := by
  rw [OrderedMap.get?_set] at hd'
  split at hd'
  · obtain rfl := Option.some.inj hd'
    exact hd
  · exact h g d' hd'

theorem Effect.undone (h : Effect jsonParse s₀ e s s') (hs : s.Undone) : s'.Undone := by
  cases h with
  | quiet h =>
    intro g d hd
    obtain ⟨d₀, hd₀, htask⟩ := h.get? hd
    exact (congrArg DownloadTask.done htask).symm.trans (hs g d₀ hd₀)
  | register h =>
    intro g d hd
    rw [downloads_registerManifest] at hd
    exact hs g d hd
  | refused => exact hs
  | received h hdata hput hd' =>
    have hget := hs _ _ h.get
    exact fun g d hd ↦ hs.set ((congrArg DownloadTask.done hd').trans hget) hd
  | start he hid hok hn hneeded hd' =>
    intro g d hd
    refine Undone.set (s := s₀) (fun g d hd ↦ hs g d ?_) (congrArg DownloadTask.done hd') hd
    rwa [downloads_registerManifest]
  | promise => exact hs
  | reject =>
    intro g d hd
    rw [downloads_settle] at hd
    exact hs g d hd
  | finish =>
    intro g d hd
    rw [downloads_finish, OrderedMap.get?_delete] at hd
    split at hd
    · cases hd
    · exact hs g d hd
  | seeded => exact hs

theorem Effects.undone (h : Effects jsonParse s₀ e s s') (hs : s.Undone) : s'.Undone := by
  induction h with
  | refl => exact hs
  | tail _ h ih => exact h.undone ih

theorem undone_of_reachable (jsonParse : Buffer → Option Json)
    (hs : (machine jsonParse).Reachable s) : s.Undone := by
  have hboth := hs.invariant (I := fun s ↦ s.Keyed ∧ s.Undone) (fun s hinit ↦ ?_)
    fun s e t _ h hstep ↦ ?_
  · exact hboth.2
  · obtain ⟨signKey, store, parallel, rfl⟩ := hinit
    exact ⟨nofun, nofun⟩
  · obtain ⟨-, rfl⟩ := hstep
    have heffects := effects_next h.1 jsonParse e
    exact ⟨heffects.keyed h.1, heffects.undone h.2⟩

/-! ## A failed request

A request fails when its timer fires, or when a chunk is bad.  Then the peer is noted, in the second
case, and `_schedule` is called in both. -/

/-- The request has failed: its timer fires, or its peer answers that it does not have the chunk. -/
inductive Fails (jsonParse : Buffer → Option Json) (idx : ℕ) (r : ChunkRequest) : FileEvent → Prop
  | timeout (rank : ℕ → ℕ) : Fails jsonParse idx r (.timer r.timer rank)
  | notFound {session buf} (rank : ℕ → ℕ) (hpeer : session.peerHex = r.peerHex)
    (hdecode : FileProtocol.decode jsonParse buf = .ok (.ack idx FileProtocol.ackNotFound)) :
    Fails jsonParse idx r (.message session buf rank)

/-- The node after the timer of a request has fired: the request is out, and the candidates of
`_schedule` have been gone through. -/
theorem fire_eq (hk : s.Keyed) (ht : s.Timed) (hundone : s.Undone)
    (hd : s.downloads.get? f = some d) (hr : d.inFlight.get? idx = some r) (rank : ℕ → ℕ) :
    ∃ (s₁ : FileNode P) (requests : List (ℕ × ChunkRequest)), s₁.sent = s.sent ∧
      s.fire r.timer rank = s₁.addRequests (d.release idx) requests ∧
      s.Assigned (d.release idx) (s.candidates (d.release idx) rank) requests := by
  obtain rfl := hk f d hd
  have htimer := ht.requests _ idx r ⟨d, hd, hr⟩
  let s₁ := ((s.clearTimer r.timer).clearTimer r.timer).putDownload (d.release idx)
  have hfire : s.fire r.timer rank = s₁.schedule d.fileId rank := by
    have hd' : (s.clearTimer r.timer).downloads.get? d.fileId = some d := hd
    have hhas : d.inFlight.has idx = true := Option.isSome_of_eq_some hr
    rw [fire, htimer]
    dsimp only
    rw [onTimeout, hd']
    dsimp only
    rw [if_pos hhas, release, hr]
  have hget : s₁.downloads.get? d.fileId = some (d.release idx) :=
    get?_putDownload_self _ (d.release idx)
  have hdone : ¬(d.release idx).done = true := by
    rw [show (d.release idx).done = d.done from rfl, hundone _ d hd]
    decide
  obtain ⟨requests, heq, hassigned⟩ := requestAll_eq (d := d.release idx)
    (s₁.candidates (d.release idx) rank) hget (nodup_candidates s₁ (d.release idx) rank)
  refine ⟨s₁, requests, rfl, ?_, hassigned.congr rfl rfl rfl⟩
  rw [hfire, schedule, hget]
  exact (if_neg hdone).trans heq

/-- What is in flight after requests that are new. -/
theorem get?_inFlight_addRequests {requests : List (ℕ × ChunkRequest)}
    (hnodup : (requests.map Prod.fst).Nodup) (hidle : d.inFlight.get? idx = none) :
    (d.addRequests requests).inFlight.get? idx = some r ↔ (idx, r) ∈ requests := by
  have hfold (m : OrderedMap ℕ ChunkRequest) :
      (requests.foldl (fun m e ↦ m.set e.1 e.2) m).get? idx = some r ↔
        (idx, r) ∈ requests ∨ idx ∉ requests.map Prod.fst ∧ m.get? idx = some r := by
    induction requests generalizing m with
    | nil => simp
    | cons e requests ih =>
      obtain ⟨hnotMem, hnodup⟩ := List.nodup_cons.mp hnodup
      rw [List.foldl_cons, ih hnodup, OrderedMap.get?_set]
      obtain ⟨i, q⟩ := e
      by_cases hi : idx = i
      · subst hi
        have hnot : (idx, r) ∉ requests := fun h ↦ hnotMem (List.mem_map.mpr ⟨_, h, rfl⟩)
        simp [hnot, hnotMem, eq_comm]
      · simp [hi]
  rw [Download.addRequests, hfold, hidle]
  simp

/-- From `s` to `s'` the request is released, and the chunk is requested again, from another peer.
All requests that are sent on the way are in flight in the end, one for each chunk. -/
structure RetriedElsewhere (s s' : FileNode P) (f : String) (idx : ℕ) (r : ChunkRequest) :
    Prop where
  released : ¬s'.InFlight f idx r
  retried : ∃ r' sent, s'.InFlight f idx r' ∧ r'.peerHex ≠ r.peerHex ∧ s'.sent = s.sent ++ sent ∧
    (r'.peerHex, FileProtocol.encChunkReq f idx) ∈ sent ∧
    ∀ m ∈ sent, m.2.head? = some FileProtocol.chunkReqType →
      ∃ i q, s'.InFlight f i q ∧ m = (q.peerHex, FileProtocol.encChunkReq f i)

/-- In the download, out of which the request has been taken, there is room for the chunk when those
that come before it have been requested, and another peer comes before the given one: it has fewer
requests in flight, or as many and is older. -/
def Overtaken (s : FileNode P) (d : Download) (rank : ℕ → ℕ) (idx : ℕ) (peerHex : String) : Prop :=
  ∃ ahead behind requests other, s.candidates d rank = ahead ++ idx :: behind ∧
    s.Assigned d ahead requests ∧ d.inFlight.size + requests.length < d.parallel ∧
    s.MayServe d idx other ∧
    StableMin.Before (d.addRequests requests).inFlightForPeer (s.peersForChunk d idx) other peerHex

/-- Of two peers that may serve the chunk, the one that is not chosen does not come first. -/
theorem ne_of_choosePeer {peer other : String} (hpeer : s.choosePeer d idx = some peer)
    (hother : s.MayServe d idx other)
    (hbefore : StableMin.Before d.inFlightForPeer (s.peersForChunk d idx) other peerHex) :
    peer ≠ peerHex := by
  rintro rfl
  have hnodup := nodup_peersForChunk s d idx
  by_cases hne : other = peer
  · subst hne
    exact hbefore.asymm hnodup hbefore
  · exact ((choosePeer_eq_some_iff.mp hpeer).2 other hother hne).asymm hnodup hbefore

/-- Among the requests that `_schedule` sends there is one for the chunk, to another peer, exactly
if another peer comes first. -/
theorem Assigned.elsewhere_iff {rank : ℕ → ℕ} {requests : List (ℕ × ChunkRequest)}
    (h : s.Assigned d (s.candidates d rank) requests) (helig : s.Eligible d idx)
    (hserve : s.MayServe d idx peerHex) :
    (∃ q, (idx, q) ∈ requests ∧ q.peerHex ≠ peerHex) ↔ s.Overtaken d rank idx peerHex := by
  have hnodup := nodup_candidates s d rank
  have hidxs : (requests.map Prod.fst).Nodup := by
    rw [h.idxs]
    exact (hnodup.filter _).sublist (List.take_sublist _ _)
  constructor
  · rintro ⟨q, hq, hne⟩
    obtain ⟨ahead, behind, hcandidates⟩ :=
      List.append_of_mem
        (List.mem_filter.mp ((@mem_filter_candidates _ _ _ rank _).mpr helig)).1
    rw [hcandidates] at h hnodup
    obtain ⟨requests₁, hassigned, hnext, hfull⟩ := h.split helig.idle helig.served
    have hroom : d.inFlight.size + requests₁.length < d.parallel := by
      by_contra hroom
      -- only chunks ahead of this one are requested
      rw [hfull (Nat.le_of_not_lt hroom)] at hq
      have hmem := List.mem_map_of_mem (f := Prod.fst) hq
      rw [hassigned.idxs] at hmem
      have hahead := (List.mem_filter.mp (List.mem_of_mem_take hmem)).1
      exact (List.nodup_append.mp hnodup).2.2 idx hahead idx List.mem_cons_self rfl
    obtain ⟨peer, timer, requests₂, rfl, hpeer⟩ := hnext hroom
    have hsame : q = ⟨peer, timer⟩ := by
      have hmem : (idx, ⟨peer, timer⟩) ∈ requests₁ ++ (idx, ⟨peer, timer⟩) :: requests₂ :=
        List.mem_append_right _ List.mem_cons_self
      exact congrArg Prod.snd (List.inj_on_of_nodup_map hidxs hq hmem rfl)
    subst hsame
    obtain ⟨hmay, hbefore⟩ := choosePeer_eq_some_iff.mp hpeer
    exact ⟨ahead, behind, requests₁, peer, hcandidates, hassigned, hroom,
      mayServe_addRequests.mp hmay, hbefore peerHex (mayServe_addRequests.mpr hserve) hne.symm⟩
  · rintro ⟨ahead, behind, requests₁, other, hcandidates, hassigned, hroom, hmay, hbefore⟩
    rw [hcandidates] at h
    obtain ⟨requests₁', hassigned', hnext, -⟩ := h.split helig.idle helig.served
    obtain rfl := hassigned.unique hassigned'
    obtain ⟨peer, timer, requests₂, rfl, hpeer⟩ := hnext hroom
    refine ⟨⟨peer, timer⟩, List.mem_append_right _ List.mem_cons_self, ?_⟩
    exact ne_of_choosePeer hpeer (mayServe_addRequests.mpr hmay) hbefore

/-- The requests that go out when a timer fires: those in flight afterwards that are new. -/
theorem retriedElsewhere_iff {s₁ : FileNode P} {requests : List (ℕ × ChunkRequest)}
    {idxs : List ℕ} (hkey : d.fileId = f) (hsent : s₁.sent = s.sent)
    (hassigned : s.Assigned d idxs requests) (hidxs : idxs.Nodup)
    (hidle : d.inFlight.get? idx = none) (hr : r.timer < s.nextTimer) :
    s.RetriedElsewhere (s₁.addRequests d requests) f idx r ↔
      ∃ q, (idx, q) ∈ requests ∧ q.peerHex ≠ r.peerHex := by
  subst hkey
  have hnodup : (requests.map Prod.fst).Nodup := by
    rw [hassigned.idxs]
    exact (hidxs.filter _).sublist (List.take_sublist _ _)
  have hflight (i : ℕ) (q : ChunkRequest) : (s₁.addRequests d requests).InFlight d.fileId i q ↔
      (d.addRequests requests).inFlight.get? i = some q := by
    have hget : (s₁.addRequests d requests).downloads.get? d.fileId =
        some (d.addRequests requests) := OrderedMap.get?_set_self
    refine ⟨?_, fun h ↦ ⟨_, hget, h⟩⟩
    rintro ⟨d', hd', hq⟩
    obtain rfl := Option.some.inj (hget.symm.trans hd')
    exact hq
  constructor
  · rintro ⟨-, q, -, hq, hne, -⟩
    exact ⟨q, (get?_inFlight_addRequests hnodup hidle).mp ((hflight idx q).mp hq), hne⟩
  · rintro ⟨q, hq, hne⟩
    refine ⟨fun h ↦ ?_, q, requests.map fun e ↦ (e.2.peerHex,
      FileProtocol.encChunkReq d.fileId e.1), ?_, hne, ?_, ?_, fun m hm _ ↦ ?_⟩
    · -- the timers of the requests are new
      have hmem := (get?_inFlight_addRequests hnodup hidle).mp ((hflight idx r).mp h)
      have htimer := List.mem_map_of_mem (f := fun e : ℕ × ChunkRequest ↦ e.2.timer) hmem
      rw [hassigned.timers, List.mem_range'_1] at htimer
      exact absurd htimer.1 (Nat.not_le.mpr hr)
    · exact (hflight idx q).mpr ((get?_inFlight_addRequests hnodup hidle).mpr hq)
    · rw [← hsent]
      rfl
    · exact List.mem_map.mpr ⟨_, hq, rfl⟩
    · obtain ⟨e, he, rfl⟩ := List.mem_map.mp hm
      have hmem := List.mem_map_of_mem (f := Prod.fst) he
      rw [hassigned.idxs] at hmem
      have husable := (List.mem_filter.mp (List.mem_of_mem_take hmem)).2
      have hfree : d.inFlight.get? e.1 = none := by
        rw [Bool.and_eq_true, Bool.not_eq_true'] at husable
        exact Option.isNone_iff_eq_none.mp (by simpa [OrderedMap.has] using husable.1)
      exact ⟨e.1, e.2,
        (hflight e.1 e.2).mpr ((get?_inFlight_addRequests hnodup hfree).mpr he), rfl⟩

/-- A timer that fires, whatever reachable state it fires in: the request is sent elsewhere exactly
if the peer that failed is overtaken. -/
theorem retriedElsewhere_fire_iff (hs : (machine jsonParse).Reachable s)
    (hd : s.downloads.get? f = some d) (hr : d.inFlight.get? idx = some r) (rank : ℕ → ℕ) :
    s.RetriedElsewhere (s.fire r.timer rank) f idx r ↔
      s.Overtaken (d.release idx) rank idx r.peerHex := by
  obtain ⟨hk, ht⟩ := keyed_and_timed_of_reachable jsonParse hs
  have hsched := (allActive_of_reachable jsonParse hs f d hd).scheduled
  have hserve := hsched.served idx r hr
  have hserve' : s.MayServe (d.release idx) idx r.peerHex :=
    ⟨hserve.connected, hserve.announced, hserve.notBad⟩
  have hidle := get?_inFlight_release d idx
  have helig : s.Eligible (d.release idx) idx :=
    ⟨hsched.needed idx r hr, by rw [OrderedMap.has, hidle]; rfl, r.peerHex, hserve'⟩
  obtain ⟨s₁, requests, hsent, hfire, hassigned⟩ :=
    fire_eq hk ht (undone_of_reachable jsonParse hs) hd hr rank
  have hpending := ht.pending _ _ (ht.requests f idx r ⟨d, hd, hr⟩)
  rw [hfire, retriedElsewhere_iff (d := d.release idx) (hk f d hd) hsent hassigned
    (nodup_candidates s _ rank) hidle hpending]
  exact hassigned.elsewhere_iff helig hserve'

/-- **When a failed request is retried elsewhere.**  Whatever the state: it has failed by its timer,
and another peer has overtaken the one that has failed. -/
theorem retries_elsewhere_iff (hs : (machine jsonParse).Reachable s)
    (hd : s.downloads.get? f = some d) (hr : d.inFlight.get? idx = some r)
    (he : Fails jsonParse idx r e) : s.RetriedElsewhere (s.next jsonParse e) f idx r ↔
      ∃ rank, e = .timer r.timer rank ∧ s.Overtaken (d.release idx) rank idx r.peerHex := by
  cases he with
  | @notFound session buf rank _ hdecode =>
    have hsame : s.next jsonParse (.message session buf rank) = s := by
      rw [next, handleMessage, hdecode]
    rw [hsame]
    refine iff_of_false (fun h ↦ h.released ⟨d, hd, hr⟩) ?_
    rintro ⟨_, h, -⟩
    cases h
  | timeout rank =>
    rw [next, retriedElsewhere_fire_iff hs hd hr rank]
    refine ⟨fun h ↦ ⟨rank, rfl, h⟩, ?_⟩
    rintro ⟨rank', heq, h⟩
    cases heq
    exact h

namespace SampleSwarm

open Manifest

/-- The first request times out; its timer is number 1, after that of the tick. -/
def timeout : FileEvent := .timer 1 fun i ↦ i

/-- The first peer is asked for two chunks, and the second has the first of them. -/
def twoEvents : List FileEvent :=
  [.attach first.peerId, .attach second.peerId, .message first piece fun i ↦ i,
    .download SampleDownload.twoChunks ["out.txt"] none fun i ↦ i,
    .message first (FileProtocol.encHavePiece sampleFileId.hex 1) fun i ↦ i,
    .message second piece fun i ↦ i]

def twoState : FileNode samplePrimitives :=
  twoEvents.foldl (next fun _ ↦ none) SampleDownload.start

theorem reachable_twoState : (machine fun _ ↦ none).Reachable twoState :=
  ⟨SampleDownload.start, twoEvents, ⟨(), ⟨["store"], .empty, SampleDownload.disk⟩, 8, rfl⟩,
    Machine.run_foldl (fun _ _ _ ↦ Machine.step_ofFun trivial) Machine.feasible_true⟩

theorem eq_of_view {r : ChunkRequest} {peerHex : String} {timer : ℕ}
    (h : (r.peerHex, r.timer) = (peerHex, timer)) : r = ⟨peerHex, timer⟩ := by
  obtain ⟨peer, t⟩ := r
  obtain ⟨rfl, rfl⟩ := Prod.mk.inj h
  rfl

/-- The chunk is there to be requested again, and both peers may serve it; the first has another
request. -/
theorem loads : (twoState.downloads.get? sampleFileId.hex).map (fun d ↦
    ((d.inFlight.get? 0).map fun r ↦ (r.peerHex, r.timer),
      twoState.candidates (d.release 0) fun i ↦ i, twoState.peersForChunk (d.release 0) 0,
      d.parallel - (d.release 0).inFlight.size,
      (d.release 0).inFlightForPeer first.peerHex, (d.release 0).inFlightForPeer second.peerHex)) =
    some (some (first.peerHex, 1), [0], [first.peerHex, second.peerHex], 7, 1, 0) := by
  decide +kernel

/-- The chunk is there to be requested again, and both peers may serve it. -/
theorem available : (state.downloads.get? sampleFileId.hex).map (fun d ↦
    ((d.inFlight.get? 0).map fun r ↦ (r.peerHex, r.timer),
      state.candidates (d.release 0) fun i ↦ i, state.peersForChunk (d.release 0) 0,
      (d.release 0).inFlight.size)) =
    some (some (first.peerHex, 1), [0], [first.peerHex, second.peerHex], 0) := by decide +kernel

end SampleSwarm

open SampleSwarm in
/-- The second peer is asked, which has no other request in flight. -/
theorem retries_elsewhere_sample : twoState.RetriedElsewhere
    (twoState.next (fun _ ↦ none) timeout) Manifest.sampleFileId.hex 0 ⟨first.peerHex, 1⟩ := by
  obtain ⟨d, hd, hview⟩ := Option.map_eq_some_iff.mp loads
  simp only [Prod.mk.injEq] at hview
  obtain ⟨hrequest, hcandidates, hpeers, hroom, hfirst, hsecond⟩ := hview
  obtain ⟨r, hr, heq⟩ := Option.map_eq_some_iff.mp hrequest
  obtain rfl := eq_of_view heq
  refine (retries_elsewhere_iff reachable_twoState hd hr (.timeout fun i ↦ i)).mpr
    ⟨_, rfl, [], [], [], second.peerHex, hcandidates, .nil List.take_nil, ?_, ?_, .inl ?_⟩
  · have hparallel : (d.release 0).parallel = d.parallel := rfl
    rw [List.length_nil, hparallel]
    omega
  · rw [← mem_peersForChunk, hpeers]
    exact List.mem_cons_of_mem _ List.mem_cons_self
  · have hnil : (d.release 0).addRequests [] = d.release 0 := rfl
    rw [hnil, hfirst, hsecond]
    decide

open SampleSwarm in
/-- The second peer has the chunk, but when the request to the first has timed out, the first is
asked again. -/
theorem not_retries_elsewhere : ∃ d, (machine fun _ ↦ none).Reachable state ∧
    state.downloads.get? Manifest.sampleFileId.hex = some d ∧
    d.inFlight.get? 0 = some ⟨first.peerHex, 1⟩ ∧ state.MayServe d 0 second.peerHex ∧
    second.peerHex ≠ first.peerHex ∧ ¬state.RetriedElsewhere
      (state.next (fun _ ↦ none) timeout) Manifest.sampleFileId.hex 0 ⟨first.peerHex, 1⟩ := by
  obtain ⟨d, hd, hview⟩ := Option.map_eq_some_iff.mp available
  simp only [Prod.mk.injEq] at hview
  obtain ⟨hrequest, hcandidates, hpeers, hsize⟩ := hview
  obtain ⟨r, hr, heq⟩ := Option.map_eq_some_iff.mp hrequest
  obtain rfl := eq_of_view heq
  have hmem : second.peerHex ∈ state.peersForChunk (d.release 0) 0 := by
    rw [hpeers]
    exact List.mem_cons_of_mem _ List.mem_cons_self
  obtain ⟨hconnected, hannounced, hnotBad⟩ := mem_peersForChunk.mp hmem
  refine ⟨d, reachable, hd, hr, ⟨hconnected, hannounced, hnotBad⟩, by decide +kernel, fun h ↦ ?_⟩
  obtain ⟨ahead, behind, requests, other, hsplit, hassigned, -, hother, hbefore⟩ :=
    (retriedElsewhere_fire_iff reachable hd hr fun i ↦ i).mp h
  -- nothing comes before the chunk, and nobody has a request in flight
  rw [hcandidates] at hsplit
  obtain ⟨rfl, -⟩ : ahead = [] ∧ behind = [] := by
    cases ahead with
    | nil => exact ⟨rfl, (List.cons.inj hsplit).2.symm⟩
    | cons i ahead => simp at hsplit
  obtain rfl := hassigned.unique (.nil List.take_nil)
  have hload (peer : String) : ((d.release 0).addRequests []).inFlightForPeer peer = 0 := by
    rw [Download.inFlightForPeer]
    exact congrArg List.length (congrArg _ (List.eq_nil_of_length_eq_zero hsize))
  have hnodup := nodup_peersForChunk state (d.release 0) 0
  have hother := mem_peersForChunk.mpr hother
  rw [hpeers] at hother hbefore hnodup
  rcases List.mem_pair.mp hother with rfl | rfl
  · exact hbefore.asymm hnodup hbefore
  · exact hbefore.asymm hnodup (.inr ⟨by rw [hload, hload], .refl _⟩)

end FileNode

end AttestP2P
