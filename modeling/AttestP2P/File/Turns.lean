import AttestP2P.File.Assignments

/-!
# Turns

What an event does to the requests of the downloads is a sequence of turns: a request goes out, one
is released, all requests of a download are dropped, or none of that.  A turn says how it changes
the downloads and the timers, and nothing else of the node matters to requests.  So whatever is to
be proved of requests along a run is proved of a turn, by cases, and then holds of every event.

* `Act` labels a turn with the requests that it may disturb, and `Turn` says what it does.
* `Moves` are sequences of turns whose labels are allowed.  The set of labels that is allowed is
  what the statements of the other modules differ in.
* `Still` are the changes that leave requests and timers alone; most helper functions of `FileNode`
  make no others.
-/

set_option autoImplicit false

namespace AttestP2P

/-- What a turn does to requests.  The rest of what it does is left out of its name. -/
inductive Act where
  | request (fileId : String) (idx : ℕ) (peerHex : String)
  | release (fileId : String) (idx : ℕ)
  /-- Requests of a download go, all of them or those to a peer. -/
  | drop (fileId : String)
  /-- A chunk is counted. -/
  | receive (fileId : String) (idx : ℕ)
  | other

/-- The request for the chunk may be gone after such a turn. -/
def Act.Disturbs (f : String) (idx : ℕ) : Act → Prop
  | .release g i => g = f ∧ i = idx
  | .drop g => g = f
  | _ => False

/-- No chunk is counted in such a turn, so that no `progress` is emitted. -/
def Act.Plain : Act → Prop
  | .receive _ _ => False
  | _ => True

/-- What the progress of a download is reckoned from. -/
def Download.account (d : Download) : Json × Finset ℕ × ℤ := (d.manifest, d.needed, d.received)

namespace FileNode

variable {P : Primitives}

/-- Downloads and timers are the same, no request is sent, and no progress is reported. -/
structure Still (s s' : FileNode P) : Prop where
  downloads : s'.downloads = s.downloads
  timers : s'.timers = s.timers
  nextTimer : s'.nextTimer = s.nextTimer
  sent : ∃ sent, s'.sent = s.sent ++ sent ∧
    ∀ m ∈ sent, m.2.head? ≠ some FileProtocol.chunkReqType
  progress : ∀ f idx received total, .progress f idx received total ∈ s'.notices ↔
    .progress f idx received total ∈ s.notices

/-- One turn, which is the smallest change of the downloads that an event makes. -/
inductive Turn : FileNode P → Act → FileNode P → Prop
  | still {s s' : FileNode P} (h : s.Still s') : Turn s .other s'
  | request {s d idx peerHex} (hd : s.downloads.get? d.fileId = some d)
    (hidle : d.inFlight.has idx = false) (hroom : d.inFlight.size < d.parallel)
    (hpeer : s.choosePeer d idx = some peerHex) :
    Turn s (.request d.fileId idx peerHex) (s.addRequests d [(idx, ⟨peerHex, s.nextTimer⟩)])
  | release {s d idx r} (hd : s.downloads.get? d.fileId = some d)
    (hr : d.inFlight.get? idx = some r) :
    Turn s (.release d.fileId idx) ((s.clearTimer r.timer).putDownload (d.release idx))
  /-- The timer of a request fires. -/
  | expire {s d idx r t} (ht : s.timers.get? t = some (.request d.fileId idx))
    (hd : s.downloads.get? d.fileId = some d) (hr : d.inFlight.get? idx = some r) :
    Turn s (.release d.fileId idx)
      (((s.clearTimer t).clearTimer r.timer).putDownload (d.release idx))
  /-- The timer fires of a request that is gone. -/
  | lapse {s f idx t} (ht : s.timers.get? t = some (.request f idx))
    (hidle : ∀ d, s.downloads.get? f = some d → d.inFlight.has idx = false) :
    Turn s .other (s.clearTimer t)
  /-- A peer is found to be bad. -/
  | markBad {s d idx peerHex} (hd : s.downloads.get? d.fileId = some d) :
    Turn s .other (s.putDownload (d.markBad idx peerHex))
  | receive {s d idx} (hd : s.downloads.get? d.fileId = some d) :
    Turn s (.receive d.fileId idx) ((s.putDownload (d.receive idx)).emit
      (.progress d.fileId idx (d.receive idx).received (d.manifest.get "nb_chunks")))
  | start {s : FileNode P} {d : Download} {n : ℕ}
    (hn : loopCount (d.manifest.get "nb_chunks") = some n)
    (hreceived : d.received = n - d.needed.card) (hflight : d.inFlight = .empty)
    (htick : d.tick = none) : Turn s (.drop d.fileId) (s.putDownload d)
  | tick {s d} (hd : s.downloads.get? d.fileId = some d) :
    Turn s .other
      ((s.setTimer (.tick d.fileId)).putDownload { d with tick := some s.nextTimer })
  | finish {s d f} (hd : s.downloads.get? f = some d) :
    Turn s (.drop f) { (d.tick.elim s s.clearTimer).clearRequests d with
      downloads := s.downloads.delete f }
  | detach {s d peerHex} (hd : s.downloads.get? d.fileId = some d) :
    Turn s (.drop d.fileId) (s.releasePeer d.fileId peerHex)

/-- The turns of a node as a machine of their own, which starts wherever every download is under its
file. -/
def turns (P : Primitives) : Machine (FileNode P) Act where
  init := Keyed
  step := Turn

/-- A sequence of turns that leads from one node to another, all of them allowed by `A`. -/
def Moves (A : Act → Prop) (s s' : FileNode P) : Prop :=
  ∃ acts, (turns P).Run s acts s' ∧ ∀ a ∈ acts, A a

variable {s s' s'' : FileNode P} {d d' : Download} {f g : String} {idx t : ℕ} {r : ChunkRequest}
  {peerHex : String} {a : Act} {A B : Act → Prop}

theorem Moves.refl (s : FileNode P) : Moves A s s := ⟨[], .nil s, nofun⟩

theorem Turn.moves (h : Turn s a s') (ha : A a) : Moves A s s' :=
  ⟨[a], .cons h (.nil s'), List.forall_mem_singleton.mpr ha⟩

theorem Moves.trans (h : Moves A s s') (h' : Moves A s' s'') : Moves A s s'' := by
  obtain ⟨acts, hrun, hA⟩ := h
  obtain ⟨acts', hrun', hB⟩ := h'
  exact ⟨acts ++ acts', hrun.append hrun', fun a ha ↦ (List.mem_append.mp ha).elim (hA a) (hB a)⟩

theorem Moves.mono (h : Moves A s s') (hall : ∀ a, A a → B a) : Moves B s s' := by
  obtain ⟨acts, hrun, hA⟩ := h
  exact ⟨acts, hrun, fun a ha ↦ hall a (hA a ha)⟩

/-! ## Turns that leave requests alone

Most of what is done between two turns concerns requests in no way: sending, and remembering what
peers have. -/

theorem Still.refl (s : FileNode P) : s.Still s :=
  ⟨rfl, rfl, rfl, ⟨[], by simp, nofun⟩, fun _ _ _ _ ↦ .rfl⟩

theorem Still.trans (h : s.Still s') (h' : s'.Still s'') : s.Still s'' := by
  obtain ⟨sent, heq, hsent⟩ := h.sent
  obtain ⟨sent', heq', hsent'⟩ := h'.sent
  refine ⟨h'.downloads.trans h.downloads, h'.timers.trans h.timers,
    h'.nextTimer.trans h.nextTimer, ⟨sent ++ sent', ?_, fun m hm ↦ ?_⟩, fun f idx received total ↦
      (h'.progress f idx received total).trans (h.progress f idx received total)⟩
  · rw [heq', heq, List.append_assoc]
  · exact (List.mem_append.mp hm).elim (hsent m) (hsent' m)

/-- Nothing is sent or told at all, and the downloads and timers are the same. -/
theorem Still.of_eq (hdownloads : s'.downloads = s.downloads) (htimers : s'.timers = s.timers)
    (hnext : s'.nextTimer = s.nextTimer) (hsent : s'.sent = s.sent)
    (hnotices : s'.notices = s.notices) : s.Still s' :=
  ⟨hdownloads, htimers, hnext, ⟨[], by rw [hsent, List.append_nil], nofun⟩,
    fun _ _ _ _ ↦ by rw [hnotices]⟩

theorem Still.moves (h : s.Still s') (hA : A .other) : Moves A s s' := (Turn.still h).moves hA

theorem still_safeSend (s : FileNode P) (peerHex : String) (buf : Buffer)
    (hbuf : buf.head? ≠ some FileProtocol.chunkReqType) : s.Still (s.safeSend peerHex buf) :=
  ⟨rfl, rfl, rfl, ⟨_, rfl, List.forall_mem_singleton.mpr hbuf⟩, fun _ _ _ _ ↦ .rfl⟩

theorem still_broadcast (s : FileNode P) (buf : Buffer)
    (hbuf : buf.head? ≠ some FileProtocol.chunkReqType) : s.Still (s.broadcast buf) := by
  refine ⟨rfl, rfl, rfl, ⟨_, rfl, fun m hm ↦ ?_⟩, fun _ _ _ _ ↦ .rfl⟩
  obtain ⟨peerHex, -, rfl⟩ := List.mem_map.mp hm
  exact hbuf

theorem still_emit (s : FileNode P) (n : FileNotice)
    (hn : ∀ f idx received total, n ≠ .progress f idx received total) : s.Still (s.emit n) := by
  refine ⟨rfl, rfl, rfl, ⟨[], (List.append_nil _).symm, nofun⟩, fun f idx received total ↦ ?_⟩
  rw [emit, List.mem_append, List.mem_singleton]
  exact or_iff_left fun h ↦ hn f idx received total h.symm

theorem still_addHave (s : FileNode P) (peerHex f : String) (chunks : Finset ℕ) :
    s.Still (s.addHave peerHex f chunks) := .of_eq rfl rfl rfl rfl rfl

theorem still_settle (s : FileNode P) (promise : ℕ) (r : Settlement) :
    s.Still (s.settle promise r) := by
  rw [settle]
  split
  · exact .refl s
  · exact .of_eq rfl rfl rfl rfl rfl

theorem still_registerManifest (s : FileNode P) (m : Json) :
    s.Still (s.registerManifest m).1 := by
  rw [registerManifest]
  split
  · exact .refl s
  · exact .of_eq rfl rfl rfl rfl rfl

theorem still_onManifest (s : FileNode P) (m : Json) : s.Still (s.onManifest m).1 := by
  rw [onManifest]
  split
  · exact .refl s
  · exact .refl s
  · split
    · exact still_registerManifest s m
    · exact (still_registerManifest s m).trans
        (still_emit _ (.manifest m) fun _ _ _ _ h ↦ by cases h)

theorem still_serveChunk (s : FileNode P) (session : FileSession) (f : String) (idx : ℕ) :
    s.Still (s.serveChunk session f idx).1 := by
  rw [serveChunk]
  split
  · exact .refl s
  · exact still_safeSend _ _ _ (fun h ↦ by cases h)
  · split
    · exact .refl s
    · exact still_safeSend _ _ _ (fun h ↦ by cases h)

theorem downloads_releasePeer (hd : s.downloads.get? f = some d) :
    (s.releasePeer f peerHex).downloads = s.downloads.set d.fileId (d.withoutPeer peerHex) := by
  rw [releasePeer, hd]
  exact congrArg (OrderedMap.set · d.fileId (d.withoutPeer peerHex)) (downloads_clearTimers ..)

theorem Turn.keyed (h : Turn s a s') (hk : s.Keyed) : s'.Keyed := by
  cases h with
  | still h =>
    intro f d hd
    exact hk f d (h.downloads ▸ hd)
  | request =>
    intro f d hd
    refine hk.set ?_ hd
    rfl
  | release => exact fun f d hd ↦ hk.set rfl hd
  | expire => exact fun f d hd ↦ hk.set rfl hd
  | lapse => exact hk
  | markBad => exact fun f d hd ↦ hk.set rfl hd
  | receive => exact fun f d hd ↦ hk.set rfl hd
  | start => exact fun f d hd ↦ hk.set rfl hd
  | tick => exact fun f d hd ↦ hk.set rfl hd
  | finish =>
    intro f d hd
    rw [OrderedMap.get?_delete] at hd
    split at hd
    · cases hd
    · exact hk f d hd
  | detach hd' =>
    intro f d hd
    rw [downloads_releasePeer hd'] at hd
    refine hk.set ?_ hd
    rfl

theorem Moves.keyed (h : Moves A s s') (hk : s.Keyed) : s'.Keyed := by
  obtain ⟨acts, hrun, -⟩ := h
  exact hrun.preserves (I := Keyed) (fun _ _ _ hk hturn ↦ Turn.keyed hturn hk) hk

end FileNode

end AttestP2P
