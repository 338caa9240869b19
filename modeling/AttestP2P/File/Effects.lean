import AttestP2P.File.FileNode
import Mathlib.Logic.Relation

/-!
# What an event does to the files of a node

Most of what a `FileNode` does is scheduling, which leaves the store, the manifests, the promises
and the tasks of the downloads alone (`Quiet`).  The rest is a handful of effects: a manifest is
registered, a chunk is put into the store, a download begins or is finished, a promise is rejected.

`effects_next` says that an event is a sequence of effects.  An invariant of the files is then one
lemma for each effect, whatever the event.  `ends_next` adds that promises are settled last.

The source has the order in which things are done spread over its handlers: `_onChunkData` puts the
chunk, counts it, announces it, and then finishes the download or schedules.  All handlers are gone
through here once, and with all their branches, so that no later module has to.  What an effect may
assume of the event it belongs to, as that the chunk was in the message and has the right hash, is
part of its rule.
-/

set_option autoImplicit false

namespace AttestP2P

/-- What a download is to do, whoever does it. -/
structure DownloadTask where
  manifest : Json
  fileId : String
  outPath : Location
  promise : ℕ
  needed : Finset ℕ
  done : Bool

def Download.task (d : Download) : DownloadTask :=
  ⟨d.manifest, d.fileId, d.outPath, d.promise, d.needed, d.done⟩

namespace FileNode

variable {P : Primitives} {s s' s'' t : FileNode P} {d d' : Download} {f : String}

/-- Files, promises and tasks are the same: requests, timers, messages, sessions and notices may
differ. -/
structure Quiet (s s' : FileNode P) : Prop where
  store : s'.store = s.store
  manifests : s'.manifests = s.manifests
  settled : s'.settled = s.settled
  nextPromise : s'.nextPromise = s.nextPromise
  tasks : ∀ f, (s'.downloads.get? f).map Download.task = (s.downloads.get? f).map Download.task

theorem Quiet.refl (s : FileNode P) : s.Quiet s := ⟨rfl, rfl, rfl, rfl, fun _ ↦ rfl⟩

theorem Quiet.trans (h : s.Quiet s') (h' : s'.Quiet s'') : s.Quiet s'' where
  store := h'.store.trans h.store
  manifests := h'.manifests.trans h.manifests
  settled := h'.settled.trans h.settled
  nextPromise := h'.nextPromise.trans h.nextPromise
  tasks f := (h'.tasks f).trans (h.tasks f)

/-- Every download is under the id of its file. -/
def Keyed (s : FileNode P) : Prop := ∀ f d, s.downloads.get? f = some d → d.fileId = f

/-- A download after a quiet step has the task of one before. -/
theorem Quiet.get? (h : s.Quiet s') (hd : s'.downloads.get? f = some d) :
    ∃ d₀, s.downloads.get? f = some d₀ ∧ d₀.task = d.task := by
  have htasks := h.tasks f
  rw [hd] at htasks
  exact Option.map_eq_some_iff.mp htasks.symm

/-- And the other way round: a download of the node before is one of the node after, with
its task. -/
theorem Quiet.get?_of (h : s.Quiet s') (hd : s.downloads.get? f = some d) :
    ∃ d', s'.downloads.get? f = some d' ∧ d'.task = d.task := by
  have htasks := h.tasks f
  rw [hd] at htasks
  exact Option.map_eq_some_iff.mp htasks

theorem Quiet.keyed (h : s.Quiet s') (hk : s.Keyed) : s'.Keyed := by
  intro f d hd
  obtain ⟨d₀, hd₀, htask⟩ := h.get? hd
  exact (congrArg DownloadTask.fileId htask).symm.trans (hk f d₀ hd₀)

/-! ## Scheduling is quiet

Sending, timers, requests and what is remembered of peers: a long list, with one line for each
function. -/

theorem quiet_safeSend (s : FileNode P) (peerHex : String) (buf : Buffer) :
    s.Quiet (s.safeSend peerHex buf) := ⟨rfl, rfl, rfl, rfl, fun _ ↦ rfl⟩

theorem quiet_broadcast (s : FileNode P) (buf : Buffer) : s.Quiet (s.broadcast buf) :=
  ⟨rfl, rfl, rfl, rfl, fun _ ↦ rfl⟩

theorem quiet_emit (s : FileNode P) (n : FileNotice) : s.Quiet (s.emit n) :=
  ⟨rfl, rfl, rfl, rfl, fun _ ↦ rfl⟩

theorem quiet_setTimer (s : FileNode P) (t : Timer) : s.Quiet (s.setTimer t) :=
  ⟨rfl, rfl, rfl, rfl, fun _ ↦ rfl⟩

theorem quiet_clearTimer (s : FileNode P) (t : ℕ) : s.Quiet (s.clearTimer t) :=
  ⟨rfl, rfl, rfl, rfl, fun _ ↦ rfl⟩

theorem quiet_addHave (s : FileNode P) (peerHex f : String) (chunks : Finset ℕ) :
    s.Quiet (s.addHave peerHex f chunks) := ⟨rfl, rfl, rfl, rfl, fun _ ↦ rfl⟩

theorem quiet_clearTimers {α : Type} (s : FileNode P) (timer : α → ℕ) (l : List α) :
    s.Quiet (l.foldl (fun s a ↦ s.clearTimer (timer a)) s) := by
  induction l generalizing s with
  | nil => exact .refl s
  | cons a l ih => exact (quiet_clearTimer s (timer a)).trans (ih _)

theorem downloads_clearTimers {α : Type} (s : FileNode P) (timer : α → ℕ) (l : List α) :
    (l.foldl (fun s a ↦ s.clearTimer (timer a)) s).downloads = s.downloads := by
  induction l generalizing s with
  | nil => rfl
  | cons a l ih => exact ih (s.clearTimer (timer a))

/-- A download is put back with the task that it had. -/
theorem quiet_putDownload (hd : s.downloads.get? d.fileId = some d') (htask : d.task = d'.task) :
    s.Quiet (s.putDownload d) := by
  refine ⟨rfl, rfl, rfl, rfl, fun f ↦ ?_⟩
  rw [putDownload, OrderedMap.get?_set]
  split
  · next hf =>
    subst hf
    rw [hd, Option.map_some, Option.map_some, htask]
  · rfl

theorem get?_putDownload_self (s : FileNode P) (d : Download) :
    (s.putDownload d).downloads.get? d.fileId = some d := by
  rw [putDownload, OrderedMap.get?_set_self]

theorem quiet_requestAll (idxs : List ℕ) (hd : s.downloads.get? d.fileId = some d) :
    s.Quiet (s.requestAll d idxs) := by
  induction idxs generalizing s d with
  | nil => exact .refl s
  | cons idx idxs ih =>
    rw [requestAll]
    split
    · exact .refl s
    · split
      · exact ih hd
      · split
        · exact ih hd
        · next peerHex _ =>
          have htimer := quiet_setTimer s (.request d.fileId idx)
          have hd' : (s.setTimer (.request d.fileId idx)).downloads.get? d.fileId = some d := hd
          have hput : (s.setTimer (.request d.fileId idx)).Quiet
              ((s.setTimer (.request d.fileId idx)).putDownload
                (d.request idx peerHex s.nextTimer)) := quiet_putDownload hd' rfl
          have hsend := quiet_safeSend ((s.setTimer (.request d.fileId idx)).putDownload
            (d.request idx peerHex s.nextTimer)) peerHex (FileProtocol.encChunkReq d.fileId idx)
          have hget := get?_putDownload_self (s.setTimer (.request d.fileId idx))
            (d.request idx peerHex s.nextTimer)
          exact ((htimer.trans hput).trans hsend).trans
            (ih (s := ((s.setTimer (.request d.fileId idx)).putDownload
              (d.request idx peerHex s.nextTimer)).safeSend peerHex
                (FileProtocol.encChunkReq d.fileId idx)) hget)

theorem Keyed.quiet_schedule (hk : s.Keyed) (f : String) (rank : ℕ → ℕ) :
    s.Quiet (s.schedule f rank) := by
  rw [schedule]
  split
  · exact .refl s
  · next d hd =>
    split
    · exact .refl s
    · have hget : s.downloads.get? d.fileId = some d := by rw [hk f d hd, hd]
      exact quiet_requestAll _ hget

theorem Keyed.quiet_release (hk : s.Keyed) (hd : s.downloads.get? f = some d) (idx : ℕ) :
    s.Quiet (s.release d idx) := by
  rw [release]
  split
  · exact .refl s
  · next inf _ =>
    have hget : (s.clearTimer inf.timer).downloads.get? (d.release idx).fileId = some d :=
      (congrArg s.downloads.get? (hk f d hd)).trans hd
    exact (quiet_clearTimer s inf.timer).trans (quiet_putDownload hget rfl)

theorem Keyed.quiet_onTimeout (hk : s.Keyed) (f : String) (idx : ℕ) (rank : ℕ → ℕ) :
    s.Quiet (s.onTimeout f idx rank) := by
  rw [onTimeout]
  split
  · exact .refl s
  · next d hd =>
    split
    · have hrelease := hk.quiet_release hd idx
      exact hrelease.trans ((hrelease.keyed hk).quiet_schedule f rank)
    · exact .refl s

theorem Keyed.quiet_fire (hk : s.Keyed) (t : ℕ) (rank : ℕ → ℕ) : s.Quiet (s.fire t rank) := by
  rw [fire]
  split
  · exact .refl s
  · have hclear := quiet_clearTimer s t
    exact hclear.trans ((hclear.keyed hk).quiet_onTimeout _ _ rank)
  · exact hk.quiet_schedule _ rank

theorem quiet_attachSession (s : FileNode P) (peerId : Buffer) :
    s.Quiet (s.attachSession peerId).1 := by
  obtain ⟨sent, hattach⟩ := attachSession_eq s peerId
  rw [hattach]
  exact ⟨rfl, rfl, rfl, rfl, fun _ ↦ rfl⟩

theorem Keyed.quiet_releasePeer (hk : s.Keyed) (f peerHex : String) :
    s.Quiet (s.releasePeer f peerHex) := by
  rw [releasePeer]
  split
  · exact .refl s
  · next d hd =>
    have hclear := quiet_clearTimers s (fun e : ℕ × ChunkRequest ↦ e.2.timer)
      (d.inFlight.entries.filter fun e ↦ e.2.peerHex = peerHex)
    obtain ⟨d₁, hd₁, htask⟩ := hclear.get?_of ((congrArg _ (hk f d hd)).trans hd)
    exact hclear.trans (quiet_putDownload hd₁ htask.symm)

theorem Keyed.quiet_fallBack (hk : s.Keyed) (peerHex : String) (rank : String → ℕ → ℕ)
    (fileIds : List String) : s.Quiet (s.fallBack peerHex rank fileIds) := by
  induction fileIds generalizing s with
  | nil => exact .refl s
  | cons f fileIds ih =>
    have hrelease := hk.quiet_releasePeer f peerHex
    have hschedule := (hrelease.keyed hk).quiet_schedule f (rank f)
    exact (hrelease.trans hschedule).trans (ih ((hrelease.trans hschedule).keyed hk))

theorem Keyed.quiet_onClose (hk : s.Keyed) (peerHex : String) (rank : String → ℕ → ℕ) :
    s.Quiet (s.onClose peerHex rank) := by
  have hgone : s.Quiet { s with
      sessions := s.sessions.delete peerHex, peerHave := s.peerHave.delete peerHex } :=
    ⟨rfl, rfl, rfl, rfl, fun _ ↦ rfl⟩
  have hfall := (hgone.keyed hk).quiet_fallBack peerHex rank
    ((enumerate s.downloads.entries).map Prod.fst)
  exact (hgone.trans hfall).trans (quiet_emit _ _)

theorem quiet_serveChunk (s : FileNode P) (session : FileSession) (f : String) (idx : ℕ) :
    s.Quiet (s.serveChunk session f idx).1 := by
  rw [serveChunk]
  split
  · exact .refl s
  · exact quiet_safeSend ..
  · split
    · exact .refl s
    · exact quiet_safeSend ..

theorem Keyed.quiet_onHave (hk : s.Keyed) (session : FileSession) (f : String) (bitfield : Buffer)
    (rank : ℕ → ℕ) : s.Quiet (s.onHave session f bitfield rank).1 := by
  rw [onHave]
  split
  · exact .refl s
  · split
    · exact quiet_addHave ..
    · next chunks _ =>
      have hhave := quiet_addHave s session.peerHex f chunks.toFinset
      exact hhave.trans ((hhave.keyed hk).quiet_schedule f rank)

theorem quiet_broadcastHave (s : FileNode P) (f : String) : s.Quiet (s.broadcastHave f).1 := by
  rw [broadcastHave]
  split
  · exact .refl s
  · split
    · exact .refl s
    · exact quiet_broadcast ..

/-! ## Effects

Each rule says what it takes and what it leaves.  `Effects` are several of them in a row, and `Ends`
is a row that closes with what settles a promise. -/

/-- The download of a file is over: it is assembled, forgotten, and its promise settled.  This is
`_complete` without its timers. -/
def finish (s : FileNode P) (f : String) (d : Download) : FileNode P :=
  let (store, r) := s.store.assemble P f d.outPath
  let s := { s with store := store, downloads := s.downloads.delete f }
  match r with
  | .ok sha => s.settle d.promise (.resolved sha (matchesFileId sha d) d.outPath)
  | .error e => s.settle d.promise (.rejected e)

theorem downloads_settle (s : FileNode P) (promise : ℕ) (r : Settlement) :
    (s.settle promise r).downloads = s.downloads := by
  rw [settle]
  split
  · rfl
  · rfl

theorem manifests_settle (s : FileNode P) (promise : ℕ) (r : Settlement) :
    (s.settle promise r).manifests = s.manifests := by
  rw [settle]
  split
  · rfl
  · rfl

theorem manifests_finish (s : FileNode P) (f : String) (d : Download) :
    (s.finish f d).manifests = s.manifests := by
  rw [finish]
  dsimp only
  split
  · exact manifests_settle ..
  · exact manifests_settle ..

theorem downloads_finish (s : FileNode P) (f : String) (d : Download) :
    (s.finish f d).downloads = s.downloads.delete f := by
  rw [finish]
  dsimp only
  split
  · exact downloads_settle ..
  · exact downloads_settle ..

theorem store_settle (s : FileNode P) (promise : ℕ) (r : Settlement) :
    (s.settle promise r).store = s.store := by
  rw [settle]
  split
  · rfl
  · rfl

theorem store_finish (s : FileNode P) (f : String) (d : Download) :
    (s.finish f d).store = (s.store.assemble P f d.outPath).1 := by
  rw [finish]
  dsimp only
  split
  · exact store_settle ..
  · exact store_settle ..

theorem downloads_registerManifest (s : FileNode P) (m : Json) :
    (s.registerManifest m).1.downloads = s.downloads := by
  rw [registerManifest]
  split
  · rfl
  · rfl

end FileNode

namespace FileEvent

/-- The event has the node register the manifest: a message that carries an accepted one, a download
or a seed. -/
def Registers (P : Primitives) (jsonParse : Buffer → Option Json) : FileEvent → Json → Prop
  | .message _ buf _, m =>
    FileProtocol.decode jsonParse buf = .ok (.manifest m) ∧ Manifest.verifyManifest P m = some true
  | .download m' _ _ _, m => m = m'
  | .seed m' _, m => m = m'
  | .attach _, _ | .close _ _, _ | .timer _ _, _ => False

/-- The event is a message with the data of a chunk. -/
def Carries (jsonParse : Buffer → Option Json) (f : String) (idx : ℕ) (data : Buffer) :
    FileEvent → Prop
  | .message _ buf _ => ∃ chunkHash signature,
    FileProtocol.decode jsonParse buf = .ok (.chunkData f idx chunkHash signature data)
  | _ => False

theorem of_carries {jsonParse : Buffer → Option Json} {f : String} {idx : ℕ} {data : Buffer}
    {e : FileEvent} (h : e.Carries jsonParse f idx data) :
    FileProtocol.IsFileId f ∧ idx < 2 ^ 32 := by
  cases e with
  | message session buf rank =>
    obtain ⟨chunkHash, signature, hdecode⟩ := h
    exact FileProtocol.of_decode_chunkData hdecode
  | _ => exact h.elim

end FileEvent

namespace FileNode

variable {P : Primitives}

/-- What `putChunk` makes of a chunk that has the expected hash. -/
def put (s : FileNode P) (f : String) (idx : ℕ) (data : Buffer) :
    ChunkStore × Except String Bool :=
  s.store.putChunk P f idx data (some (.str (P.sha256 data).hex))

/-- The download expects the chunk: its manifest has the hash of just these data at the index. -/
structure Expects (s : FileNode P) (f : String) (idx : ℕ) (data : Buffer) (d : Download) :
    Prop where
  get : s.downloads.get? f = some d
  hash : d.expectedHash idx = .ok (some (.str (P.sha256 data).hex))

/-- One of the effects of an event, which happens in the state `s₀`. -/
inductive Effect (jsonParse : Buffer → Option Json) (s₀ : FileNode P) (e : FileEvent) :
    FileNode P → FileNode P → Prop
  | quiet {s s'} (h : s.Quiet s') : Effect jsonParse s₀ e s s'
  | register {m} (h : e.Registers P jsonParse m) :
    Effect jsonParse s₀ e s₀ (s₀.registerManifest m).1
  /-- A chunk cannot be stored. -/
  | refused {s f idx data d} (h : s.Expects f idx data d) (hdata : e.Carries jsonParse f idx data)
    (hput : (s.put f idx data).2 ≠ .ok true) :
    Effect jsonParse s₀ e s { s with store := (s.put f idx data).1 }
  | received {s f idx data d d'} (h : s.Expects f idx data d)
    (hdata : e.Carries jsonParse f idx data) (hput : (s.put f idx data).2 = .ok true)
    (hd' : d'.task = (d.receive idx).task) :
    Effect jsonParse s₀ e s
      { s with store := (s.put f idx data).1, downloads := s.downloads.set f d' }
  /-- A download begins. -/
  | start {m outPath parallel rank f n needed d} (he : e = .download m outPath parallel rank)
    (hid : m.get "file_id" = some (.str f)) (hok : (s₀.registerManifest m).2 = .ok ())
    (hn : loopCount (m.get "nb_chunks") = some n)
    (hneeded : missing (s₀.registerManifest m).1.store f n = .ok needed)
    (hd : d.task = ⟨m, f, outPath, s₀.nextPromise, needed, false⟩) :
    Effect jsonParse s₀ e (s₀.registerManifest m).1
      { (s₀.registerManifest m).1 with
        nextPromise := s₀.nextPromise + 1, downloads := s₀.downloads.set f d }
  | promise {s} : Effect jsonParse s₀ e s { s with nextPromise := s.nextPromise + 1 }
  | reject {s p err} : Effect jsonParse s₀ e s (s.settle p (.rejected err))
  | finish {s f d} (hd : s.downloads.get? f = some d) (hneeded : d.needed = ∅) :
    Effect jsonParse s₀ e s (s.finish f d)
  /-- A chunk is read from a file. -/
  | seeded {s m filePath f n i c data} (he : e = .seed m filePath)
    (hid : m.get "file_id" = some (.str f)) (hok : (s₀.registerManifest m).2 = .ok ())
    (hmanifests : s.manifests = (s₀.registerManifest m).1.manifests)
    (hn : loopCount (m.get "nb_chunks") = some n) (hi : i < n) (hc : chunkAt m i = some c) :
    Effect jsonParse s₀ e s { s with store := (s.store.putChunk P f i data (c.get "hash")).1 }

/-- Effects one after the other, all of the same event. -/
abbrev Effects (jsonParse : Buffer → Option Json) (s₀ : FileNode P) (e : FileEvent) :
    FileNode P → FileNode P → Prop :=
  Relation.ReflTransGen (Effect jsonParse s₀ e)

/-- Effects that settle no promise, which is what most parts of an event are. -/
structure Silent (jsonParse : Buffer → Option Json) (s₀ : FileNode P) (e : FileEvent)
    (s s' : FileNode P) : Prop where
  effects : Effects jsonParse s₀ e s s'
  settled : s'.settled = s.settled

/-- How an event ends: after effects that settle nothing, a promise may be rejected, or a download
that needs no more chunks completed. -/
inductive Ends (jsonParse : Buffer → Option Json) (s₀ : FileNode P) (e : FileEvent)
    (s : FileNode P) : FileNode P → Prop
  | silent {t} (h : Silent jsonParse s₀ e s t) : Ends jsonParse s₀ e s t
  | reject {t p err} (h : Silent jsonParse s₀ e s t) (hp : p < t.nextPromise) :
    Ends jsonParse s₀ e s (t.settle p (.rejected err))
  | complete {t f} (h : Silent jsonParse s₀ e s t)
    (hneeded : ∀ d, t.downloads.get? f = some d → d.needed = ∅) :
    Ends jsonParse s₀ e s (t.complete f)

section
variable {s s' s'' t s₀ : FileNode P} {d d' : Download} {f : String}
  {jsonParse : Buffer → Option Json} {e : FileEvent}

theorem Quiet.effects (h : s.Quiet s') : Effects jsonParse s₀ e s s' := .single (.quiet h)

theorem Keyed.set (hk : s.Keyed) (hd : d.fileId = f) {g : String} {d' : Download}
    (hd' : (s.downloads.set f d).get? g = some d') : d'.fileId = g := by
  rw [OrderedMap.get?_set] at hd'
  split at hd'
  · next hg =>
    obtain rfl := Option.some.inj hd'
    exact hd.trans hg.symm
  · exact hk g d' hd'

theorem keyed_putDownload (hk : s.Keyed) (d : Download) : (s.putDownload d).Keyed :=
  fun _ _ hd ↦ hk.set rfl hd

theorem Effect.keyed (h : Effect jsonParse s₀ e s s') (hk : s.Keyed) : s'.Keyed := by
  cases h with
  | quiet h => exact h.keyed hk
  | register h =>
    intro g d hd
    rw [downloads_registerManifest] at hd
    exact hk g d hd
  | refused => exact hk
  | received h hdata hput hd' =>
    have hget := hk _ _ h.get
    exact fun g d hd ↦ hk.set ((congrArg DownloadTask.fileId hd').trans hget) hd
  | start he hid hok hn hneeded hd' =>
    intro g d hd
    refine Keyed.set (s := s₀) (fun g d hd ↦ hk g d ?_) (congrArg DownloadTask.fileId hd') hd
    rwa [downloads_registerManifest]
  | promise => exact hk
  | reject =>
    intro g d hd
    rw [downloads_settle] at hd
    exact hk g d hd
  | finish =>
    intro g d hd
    rw [downloads_finish, OrderedMap.get?_delete] at hd
    split at hd
    · cases hd
    · exact hk g d hd
  | seeded => exact hk

theorem Effects.keyed (h : Effects jsonParse s₀ e s s') (hk : s.Keyed) : s'.Keyed := by
  induction h with
  | refl => exact hk
  | tail _ h ih => exact h.keyed ih

theorem Silent.refl (s : FileNode P) : Silent jsonParse s₀ e s s := ⟨.refl, rfl⟩

theorem Silent.trans (h : Silent jsonParse s₀ e s s') (h' : Silent jsonParse s₀ e s' s'') :
    Silent jsonParse s₀ e s s'' :=
  ⟨h.effects.trans h'.effects, h'.settled.trans h.settled⟩

theorem Quiet.silent (h : s.Quiet s') : Silent jsonParse s₀ e s s' := ⟨h.effects, h.settled⟩

theorem settled_registerManifest (s : FileNode P) (m : Json) :
    (s.registerManifest m).1.settled = s.settled := by
  rw [registerManifest]
  split
  · rfl
  · rfl

theorem silent_register {m : Json} (h : e.Registers P jsonParse m) :
    Silent jsonParse s₀ e s₀ (s₀.registerManifest m).1 :=
  ⟨.single (.register h), settled_registerManifest s₀ m⟩

theorem silent_schedule (hk : s.Keyed) (h : Silent jsonParse s₀ e s s') (f : String)
    (rank : ℕ → ℕ) : Silent jsonParse s₀ e s (s'.schedule f rank) :=
  h.trans ((h.effects.keyed hk).quiet_schedule f rank).silent

/-! ## The effects of each operation

From here on the handlers are followed branch by branch, and every branch ends in a row of effects.
-/

/-- **`_complete`** does nothing, or clears the timers of the download and finishes it. -/
theorem complete_cases (s : FileNode P) (f : String) :
    s.complete f = s ∧ (∀ d, s.downloads.get? f = some d → d.done = true) ∨
    ∃ d s₁, s.downloads.get? f = some d ∧ s.Quiet s₁ ∧ s₁.downloads = s.downloads ∧
      s.complete f = s₁.finish f d := by
  rw [complete]
  split
  · next hnone => exact .inl ⟨rfl, fun d hd ↦ by cases hnone.symm.trans hd⟩
  · next d hd =>
    split
    · next hdone =>
      refine .inl ⟨rfl, fun d' hd' ↦ ?_⟩
      obtain rfl := Option.some.inj (hd.symm.trans hd')
      exact hdone
    · have htick : s.Quiet (d.tick.elim s s.clearTimer) ∧
          (d.tick.elim s s.clearTimer).downloads = s.downloads := by
        cases d.tick with
        | none => exact ⟨.refl s, rfl⟩
        | some t => exact ⟨quiet_clearTimer s t, rfl⟩
      have hclear := htick.1.trans (quiet_clearTimers _ (fun e : ℕ × ChunkRequest ↦ e.2.timer)
        d.inFlight.entries)
      have hdownloads : ((d.tick.elim s s.clearTimer).clearRequests d).downloads =
          s.downloads := by
        rw [clearRequests, downloads_clearTimers, htick.2]
      exact .inr ⟨d, _, hd, hclear, hdownloads, rfl⟩

/-- A download that needs no more chunks is completed. -/
theorem effects_complete (hneeded : ∀ d, s.downloads.get? f = some d → d.needed = ∅) :
    Effects jsonParse s₀ e s (s.complete f) := by
  obtain ⟨hsame, -⟩ | ⟨d, s₁, hd, hquiet, hdownloads, heq⟩ := complete_cases s f
  · rw [hsame]
  · rw [heq]
    refine (hquiet.effects (e := e)).tail (.finish ?_ (hneeded d hd))
    rw [hdownloads, hd]

theorem Ends.effects (h : Ends jsonParse s₀ e s s') : Effects jsonParse s₀ e s s' := by
  cases h with
  | silent h => exact h.effects
  | reject h hp => exact h.effects.tail .reject
  | complete h hneeded => exact h.effects.trans (effects_complete hneeded)

/-- A chunk that is found good has the hash that the manifest tells. -/
theorem hash_of_goodChunk {session : FileSession} {idx : ℕ} {chunkHash signature data : Buffer}
    {expected : Option Json}
    (h : goodChunk P session f idx chunkHash signature data expected = true) :
    Json.strictEq (.str (P.sha256 data).hex) expected = true := by
  simp only [goodChunk, Bool.and_eq_true] at h
  exact h.1.2

theorem eq_of_goodChunk {session : FileSession} {idx : ℕ} {chunkHash signature data : Buffer}
    {expected : Option Json}
    (h : goodChunk P session f idx chunkHash signature data expected ≠ false) :
    expected = some (.str (P.sha256 data).hex) :=
  Json.eq_of_strictEq (hash_of_goodChunk (eq_true_of_ne_false h))

theorem task_receive (d : Download) (idx : ℕ) :
    (d.receive idx).task = { d.task with needed := d.task.needed.erase idx } := rfl

theorem expectedHash_congr (h : d.task = d'.task) (idx : ℕ) :
    d.expectedHash idx = d'.expectedHash idx := by
  rw [Download.expectedHash, Download.expectedHash, show d.manifest = d'.manifest from
    congrArg DownloadTask.manifest h]

/-- **Chunk data** is dropped, refused by the store, or received. -/
theorem ends_onChunkData (hk : s.Keyed) {session : FileSession} {idx : ℕ}
    {chunkHash signature data : Buffer} (hdata : e.Carries jsonParse f idx data) (rank : ℕ → ℕ) :
    Ends jsonParse s₀ e s (s.onChunkData session f idx chunkHash signature data rank).1 := by
  rw [onChunkData]
  split
  · exact .silent (.refl s)
  · next d hd =>
    cases hexpected : d.expectedHash idx with
    | error err => exact .silent (.refl s)
    | ok expected =>
      dsimp only
      have hquiet := hk.quiet_release hd idx
      have hrelease : Silent jsonParse s₀ e s (s.release d idx) := hquiet.silent
      obtain ⟨d₁, hd₁, htask⟩ := hquiet.get?_of hd
      have hid : d.fileId = f := hk f d hd
      split
      · -- a bad chunk is asked for elsewhere
        have hput : (s.release d idx).Quiet
            ((s.release d idx).putDownload ((d.release idx).markBad idx session.peerHex)) :=
          quiet_putDownload ((congrArg (s.release d idx).downloads.get? hid).trans hd₁) htask.symm
        have hsend : ((s.release d idx).putDownload
            ((d.release idx).markBad idx session.peerHex)).Quiet
            ((((s.release d idx).safeSend session.peerHex
              (FileProtocol.encAck idx FileProtocol.ackHashMismatch)).putDownload
                ((d.release idx).markBad idx session.peerHex)).emit
                  (.corrupt f idx session.peerHex)) := ⟨rfl, rfl, rfl, rfl, fun _ ↦ rfl⟩
        exact .silent (silent_schedule hk (hrelease.trans (hput.trans hsend).silent) f rank)
      · next hgood =>
        obtain rfl := eq_of_goodChunk hgood
        have hexpects : (s.release d idx).Expects f idx data d₁ :=
          ⟨hd₁, (expectedHash_congr htask idx).trans hexpected⟩
        have hrefused (hput : ((s.release d idx).put f idx data).2 ≠ .ok true) :
            Silent jsonParse s₀ e s
              { s.release d idx with store := ((s.release d idx).put f idx data).1 } :=
          ⟨hrelease.effects.tail (.refused hexpects hdata hput), hrelease.settled⟩
        split
        · next hput => exact .silent (hrefused (by rw [put, hput]; exact nofun))
        · next hput =>
          exact .silent (silent_schedule hk (hrefused (by rw [put, hput]; simp)) f rank)
        · next hput =>
          have hreceive : ((d.release idx).receive idx).task = (d₁.receive idx).task := by
            rw [task_receive, task_receive, htask]
            rfl
          have hreceived := hrelease.effects.tail (.received hexpects hdata hput hreceive)
          have hset : (s.release d idx).downloads.set f ((d.release idx).receive idx) =
              (s.release d idx).downloads.set d.fileId ((d.release idx).receive idx) := by rw [hid]
          rw [hset] at hreceived
          have hsent (ack piece : Buffer) (n : FileNotice) :=
            Silent.trans ⟨hreceived, hrelease.settled⟩
              ((quiet_safeSend _ session.peerHex ack).trans
                ((quiet_broadcast _ piece).trans (quiet_emit _ n))).silent
          split
          · next hneeded =>
            refine .complete (hsent _ _ _) fun d₂ hd₂ ↦ ?_
            have hself : ((s.release d idx).downloads.set d.fileId
                ((d.release idx).receive idx)).get? f = some ((d.release idx).receive idx) := by
              rw [hid, OrderedMap.get?_set_self]
            obtain rfl := Option.some.inj (hself.symm.trans hd₂)
            exact hneeded
          · exact .silent (silent_schedule hk (hsent _ _ _) f rank)

/-- A verified manifest is registered, and any other leaves the node as it is. -/
theorem silent_onManifest {m : Json}
    (hm : Manifest.verifyManifest P m = some true → e.Registers P jsonParse m) :
    Silent jsonParse s e s (s.onManifest m).1 := by
  rw [onManifest]
  split
  · exact .refl s
  · exact .refl s
  · next hverify =>
    split
    · exact silent_register (hm hverify)
    · exact (silent_register (hm hverify)).trans (quiet_emit _ _).silent

theorem ends_handleMessage (hk : s.Keyed) (session : FileSession) (buf : Buffer)
    (rank : ℕ → ℕ) : Ends jsonParse s (.message session buf rank) s
      (s.handleMessage jsonParse session buf rank).1 := by
  rw [handleMessage]
  split
  · exact .silent (.refl s)
  · next m hdecode => exact .silent (silent_onManifest fun hverify ↦ ⟨hdecode, hverify⟩)
  · exact .silent (hk.quiet_onHave session _ _ rank).silent
  · next f idx _ =>
    have hhave := quiet_addHave s session.peerHex f {idx}
    exact .silent (hhave.trans ((hhave.keyed hk).quiet_schedule f rank)).silent
  · exact .silent (quiet_serveChunk s session _ _).silent
  · next chunkHash signature data hdecode =>
    have hdata : FileEvent.Carries jsonParse _ _ data (.message session buf rank) :=
      ⟨chunkHash, signature, hdecode⟩
    exact ends_onChunkData hk hdata rank
  · exact .silent (.refl s)

theorem registerManifest_eq_of_get {m : Json} (hid : m.get "file_id" = some (.str f)) :
    s.registerManifest m = ({ s with
      manifests := s.manifests.set f m
      store := (s.store.registerManifest f m).1 }, (s.store.registerManifest f m).2) := by
  rw [registerManifest, fileKey_of_get hid]

/-- A download is refused, or begins, and may be over at once. -/
theorem ends_startDownload (hk : s.Keyed) {m : Json} {outPath : Location}
    {parallel : Option ℕ} {rank : ℕ → ℕ} (hid : m.get "file_id" = some (.str f))
    (hok : (s.registerManifest m).2 = .ok ()) (parallel' : ℕ) :
    Ends jsonParse s (.download m outPath parallel rank) s
      (startDownload { (s.registerManifest m).1 with nextPromise := s.nextPromise + 1 } m f outPath
        parallel' s.nextPromise rank) := by
  have hregister : Silent jsonParse s (.download m outPath parallel rank) s
    (s.registerManifest m).1 := silent_register rfl
  have hnext : (s.registerManifest m).1.nextPromise = s.nextPromise := by
    rw [registerManifest_eq_of_get hid]
  have hpromise : Silent jsonParse s (.download m outPath parallel rank) s
      { (s.registerManifest m).1 with nextPromise := s.nextPromise + 1 } := by
    have htail := hregister.effects.tail .promise
    rw [hnext] at htail
    exact ⟨htail, hregister.settled⟩
  have hlt : s.nextPromise < s.nextPromise + 1 := Nat.lt_succ_self _
  rw [startDownload]
  split
  · exact .reject hpromise hlt
  · next n hn =>
    split
    · exact .reject hpromise hlt
    · next needed hneeded =>
      let d₀ : Download :=
        { manifest := m, fileId := f, outPath := outPath, needed := needed
          inFlight := .empty, badPeerForChunk := .empty, parallel := parallel'
          promise := s.nextPromise, done := false, received := n - needed.card, tick := none }
      let u : FileNode P := { (s.registerManifest m).1 with nextPromise := s.nextPromise + 1 }
      have hbegin : Silent jsonParse s (.download m outPath parallel rank) s
          (u.putDownload d₀) := by
        have htail := hregister.effects.tail (.start (d := d₀) rfl hid hok hn hneeded rfl)
        rw [← downloads_registerManifest s m] at htail
        exact ⟨htail, hregister.settled⟩
      have hget := get?_putDownload_self u d₀
      have hhave := quiet_broadcastHave (u.putDownload d₀) f
      have htold := hbegin.trans hhave.silent
      obtain ⟨d₁, hd₁, htask⟩ := hhave.get?_of hget
      dsimp only
      split
      · exact .reject htold (hhave.nextPromise ▸ hlt)
      · split
        · next hempty =>
          refine .complete htold fun d hd ↦ ?_
          obtain rfl := Option.some.inj (hd₁.symm.trans hd)
          exact (congrArg DownloadTask.needed htask).trans hempty
        · have htimer := quiet_setTimer ((u.putDownload d₀).broadcastHave f).1 (.tick f)
          have hput := quiet_putDownload
            (s := ((u.putDownload d₀).broadcastHave f).1.setTimer (.tick f))
            (d := { d₀ with tick := some ((u.putDownload d₀).broadcastHave f).1.nextTimer })
            hd₁ htask.symm
          exact .silent (silent_schedule hk (htold.trans (htimer.trans hput).silent) f rank)

theorem ends_download (hk : s.Keyed) (m : Json) (outPath : Location) (parallel : Option ℕ)
    (rank : ℕ → ℕ) : Ends jsonParse s (.download m outPath parallel rank) s
      (s.download m outPath parallel rank).1 := by
  have hregister : Silent jsonParse s (.download m outPath parallel rank) s
    (s.registerManifest m).1 := silent_register rfl
  rw [download]
  dsimp only
  split
  · exact .silent hregister
  · next hok =>
    split
    · next f hid =>
      have hnext : (s.registerManifest m).1.nextPromise = s.nextPromise := by
        rw [registerManifest_eq_of_get hid]
      rw [hnext]
      exact ends_startDownload hk hid hok _
    · exact .silent hregister

/-- A turn of the loop of `seed` puts one chunk, or throws before it has changed anything. -/
theorem silent_seedChunk {m : Json} {filePath : Location} {n i : ℕ}
    (hid : m.get "file_id" = some (.str f)) (hok : (s₀.registerManifest m).2 = .ok ())
    (hmanifests : s.manifests = (s₀.registerManifest m).1.manifests)
    (hn : loopCount (m.get "nb_chunks") = some n) (hi : i < n) (buf : Buffer) :
    Silent jsonParse s₀ (.seed m filePath) s (s.seedChunk m f filePath buf i).1 ∧
      (s.seedChunk m f filePath buf i).1.manifests = s.manifests := by
  obtain h | ⟨c, data, hc, h⟩ := seedChunk_cases s m f filePath buf i
  · rw [h]
    exact ⟨.refl s, rfl⟩
  · rw [h]
    exact ⟨⟨.single (.seeded rfl hid hok hmanifests hn hi hc), rfl⟩, rfl⟩

theorem silent_seedChunks {m : Json} {filePath : Location} {n : ℕ}
    (hid : m.get "file_id" = some (.str f)) (hok : (s₀.registerManifest m).2 = .ok ())
    (hmanifests : s.manifests = (s₀.registerManifest m).1.manifests)
    (hn : loopCount (m.get "nb_chunks") = some n) (buf : Buffer) {is : List ℕ}
    (his : ∀ i ∈ is, i < n) : Silent jsonParse s₀ (.seed m filePath) s
      (s.seedChunks m f filePath buf is).1 := by
  induction is generalizing s buf with
  | nil => exact .refl s
  | cons i is ih =>
    obtain ⟨hi, his⟩ := List.forall_mem_cons.mp his
    obtain ⟨hchunk, hsame⟩ : Silent jsonParse s₀ (.seed m filePath) s
        (s.seedChunk m f filePath buf i).1 ∧ _ := silent_seedChunk hid hok hmanifests hn hi buf
    rw [seedChunks]
    dsimp only
    split
    · exact hchunk
    · exact hchunk.trans (ih (hsame.trans hmanifests) _ his)

theorem silent_seed (s : FileNode P) (m : Json) (filePath : Location) :
    Silent jsonParse s (.seed m filePath) s (s.seed m filePath).1 := by
  have hregister : Silent jsonParse s (.seed m filePath) s (s.registerManifest m).1 :=
    silent_register rfl
  rw [seed]
  dsimp only
  split
  · exact hregister
  · next f chunkSize n hok hid hsize hn =>
    split
    · exact hregister
    · exact hregister
    · next length _ _ =>
      have hchunks := hregister.trans (silent_seedChunks hid hok rfl hn (List.replicate length 0)
        fun i hi ↦ List.mem_range.mp hi)
      split
      · exact hchunks
      · split
        · exact hchunks
        · split
          · exact hchunks.trans (quiet_broadcast _ _).silent
          · exact hchunks.trans (Quiet.silent ⟨rfl, rfl, rfl, rfl, fun _ ↦ rfl⟩)
  · exact hregister

/-- **How every event ends**: silently, with a promise that is rejected, or with a download that is
completed. -/
theorem ends_next (hk : s.Keyed) (jsonParse : Buffer → Option Json) (e : FileEvent) :
    Ends jsonParse s e s (s.next jsonParse e) := by
  cases e with
  | attach peerId => exact .silent (quiet_attachSession s peerId).silent
  | message session buf rank => exact ends_handleMessage hk session buf rank
  | close peerHex rank => exact .silent (hk.quiet_onClose peerHex rank).silent
  | timer t rank => exact .silent (hk.quiet_fire t rank).silent
  | download m outPath parallel rank => exact ends_download hk m outPath parallel rank
  | seed m filePath => exact .silent (silent_seed s m filePath)

/-- **Every event is a sequence of effects**, so that an invariant of files and promises need only
be checked for these. -/
theorem effects_next (hk : s.Keyed) (jsonParse : Buffer → Option Json) (e : FileEvent) :
    Effects jsonParse s e s (s.next jsonParse e) := (ends_next hk jsonParse e).effects

end

end FileNode

end AttestP2P
