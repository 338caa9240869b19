import AttestP2P.File.Footprint
import AttestP2P.File.RequestLife

/-!
# Who ends a request

A request is in flight to one peer, with a timer that will give it up, when a message comes from
another.  Should that matter?  A peer that answers a request it was never sent may save the time of
everybody, if it has the chunk.  If it has not, the request should stay as it is.

* `Keyed.inFlight_handleMessage`: messages other than data for this chunk leave the request alone.
* `Keyed.not_inFlight_onChunkData`: the data of the chunk clears the request, with its timer, before
  anything is known of the data or of its sender.
* `Keyed.fulfilled_onChunkData`: data that is good and can be stored delivers the chunk.
* `request_safe_iff`: so a message leaves the request alone, or delivers the chunk, unless it is
  data for that chunk which is not valid, or which the store cannot take (`Harmless`).

A chunk that has been cleared in vain may be asked for again, but by then the peer that was asked
first is one among others.
-/

set_option autoImplicit false

namespace AttestP2P

namespace FileNode

variable {P : Primitives} {s s' : FileNode P} {d : Download} {f : String} {idx : ℕ}
  {r : ChunkRequest} {jsonParse : Buffer → Option Json} {session : FileSession} {buf : Buffer}

/-- The message is data for the chunk, which the session's peer has signed and the manifest
expects. -/
def ValidData (jsonParse : Buffer → Option Json) (session : FileSession) (f : String) (idx : ℕ)
    (d : Download) (buf : Buffer) : Prop :=
  ∃ chunkHash signature data expected,
    FileProtocol.decode jsonParse buf = .ok (.chunkData f idx chunkHash signature data) ∧
      d.expectedHash idx = .ok expected ∧
      goodChunk P session f idx chunkHash signature data expected = true

/-- The request is in flight to the same peer, and its timer is running. -/
def Waits (s : FileNode P) (f : String) (idx : ℕ) (r : ChunkRequest) : Prop :=
  s.InFlight f idx r ∧ s.timers.get? r.timer = some (.request f idx)

/-- The chunk has been stored, and is no longer needed. -/
def Fulfilled (s : FileNode P) (f : String) (idx : ℕ) : Prop :=
  s.store.hasChunk f idx = .ok true ∧ ∀ d, s.downloads.get? f = some d → idx ∉ d.needed

/-- If the message is data for the chunk, it is valid, and the store can take it. -/
def Harmless (jsonParse : Buffer → Option Json) (s : FileNode P) (session : FileSession)
    (f : String) (idx : ℕ) (d : Download) (buf : Buffer) : Prop :=
  ∀ chunkHash signature data expected,
    FileProtocol.decode jsonParse buf = .ok (.chunkData f idx chunkHash signature data) →
      d.expectedHash idx = .ok expected →
      goodChunk P session f idx chunkHash signature data expected = true ∧ s.store.CanPut f idx

/-! ## Messages that leave the request alone -/

theorem not_disturbs_of_ofChunk {g : String} {i : ℕ} {a : Act} (hne : ¬(g = f ∧ i = idx))
    (hd : s.downloads.get? f = some d) (hneeded : idx ∈ d.needed) (ha : s.OfChunk g i a) :
    ¬a.Disturbs f idx := by
  rcases ha with (rfl | ⟨j, peerHex, rfl⟩) | rfl | rfl | ⟨rfl, hlast⟩
  · exact not_false
  · exact not_false
  · exact hne
  · exact not_false
  · -- the last chunk of the file ends the download, but this one is still missing
    rintro rfl
    have hmem : idx ∈ d.needed.erase i :=
      Finset.mem_erase.mpr ⟨fun hi ↦ hne ⟨rfl, hi.symm⟩, hneeded⟩
    rw [hlast d hd] at hmem
    exact absurd hmem (Finset.notMem_empty idx)

/-- **Other messages** do not disturb the request: only data for this very chunk may take it
back. -/
theorem Keyed.inFlight_handleMessage (hk : s.Keyed) (session : FileSession)
    (hd : s.downloads.get? f = some d)
    (hr : d.inFlight.get? idx = some r) (hneeded : idx ∈ d.needed)
    (hother : ∀ chunkHash signature data, FileProtocol.decode jsonParse buf ≠
      .ok (.chunkData f idx chunkHash signature data)) (rank : ℕ → ℕ) :
    (s.handleMessage jsonParse session buf rank).1.InFlight f idx r := by
  refine (hk.moves_handleMessage jsonParse session buf rank).holds ⟨d, hd, hr⟩ fun a ha ↦ ?_
  rcases ha with rfl | ⟨g, i, peerHex, rfl⟩ | ⟨g, i, chunkHash, signature, data, hdecode, ha⟩
  · exact not_false
  · exact not_false
  · refine not_disturbs_of_ofChunk ?_ hd hneeded ha
    rintro ⟨rfl, rfl⟩
    exact hother chunkHash signature data hdecode

/-! ## The data of the chunk

The handler releases the request, which clears its timer, and looks at the data afterwards.  Whether
it then is asked for again is decided by the call of `_schedule` at the end. -/

theorem not_inFlight_release (hk : s.Keyed) (hd : s.downloads.get? f = some d) (idx : ℕ)
    (r : ChunkRequest) : ¬(s.release d idx).InFlight f idx r := by
  rintro ⟨d', hd', hr⟩
  obtain rfl := Option.some.inj ((hk.get?_release hd idx).symm.trans hd')
  rw [get?_inFlight_release] at hr
  exact nomatch hr

/-- **The data of the chunk ends the request**, whatever it is worth. -/
theorem Keyed.not_inFlight_onChunkData (hk : s.Keyed) (ht : s.Timed)
    (hd : s.downloads.get? f = some d) (hr : d.inFlight.get? idx = some r) {expected : Option Json}
    (hexpected : d.expectedHash idx = .ok expected) (chunkHash signature data : Buffer)
    (rank : ℕ → ℕ) : ¬(s.onChunkData session f idx chunkHash signature data rank).1.InFlight
      f idx r := by
  have hpending := ht.pending _ _ (ht.requests f idx r ⟨d, hd, hr⟩)
  have hrelease := hk.moves_release (A := fun _ ↦ True) hd idx trivial
  exact (hk.moves_of_release hd hexpected session chunkHash signature data rank).gone
    (hpending.trans_le hrelease.nextTimer_le) (not_inFlight_release hk hd idx r)

/-- A chunk that is not good, or not stored, stays needed. -/
theorem Keyed.needed_onChunkData (hk : s.Keyed) (session : FileSession)
    (hd : s.downloads.get? f = some d) {expected : Option Json}
    (hexpected : d.expectedHash idx = .ok expected)
    {chunkHash signature data : Buffer}
    (hbad : goodChunk P session f idx chunkHash signature data expected = true →
      (s.store.putChunk P f idx data expected).2 ≠ .ok true) (rank : ℕ → ℕ) :
    ∃ d', (s.onChunkData session f idx chunkHash signature data rank).1.downloads.get? f = some d' ∧
      d'.needed = d.needed := by
  have haccount := (hk.moves_of_refused hd hexpected hbad rank).account (f := f) fun _ ha ↦ ha.plain
  rw [hk.get?_release hd idx, Option.map_some] at haccount
  obtain ⟨d', hd', heq⟩ := Option.map_eq_some_iff.mp haccount
  exact ⟨d', hd', (Prod.mk.inj (Prod.mk.inj heq).2).1⟩

theorem Fulfilled.schedule (h : s.Fulfilled f idx) (hk : s.Keyed) (rank : ℕ → ℕ) :
    (s.schedule f rank).Fulfilled f idx := by
  have hquiet := hk.quiet_schedule f rank
  refine ⟨by rw [hquiet.store, h.1], fun d' hd' ↦ ?_⟩
  obtain ⟨d, hd, htask⟩ := hquiet.get? hd'
  have hneeded : d.needed = d'.needed := congrArg DownloadTask.needed htask
  exact hneeded ▸ h.2 d hd

theorem Fulfilled.complete (h : s.Fulfilled f idx) : (s.complete f).Fulfilled f idx := by
  obtain ⟨hsame, -⟩ | ⟨d, s₁, -, hquiet, -, heq⟩ := complete_cases s f
  · rwa [hsame]
  · rw [heq]
    refine ⟨?_, fun d' hd' ↦ ?_⟩
    · rw [store_finish]
      exact (ChunkStore.Grows.of_files_eq (ChunkStore.files_assemble P _ f d.outPath)).hasChunk
        (hquiet.store ▸ h.1)
    · rw [downloads_finish, OrderedMap.get?_delete, if_pos rfl] at hd'
      exact nomatch hd'

/-- **A chunk that is good and stored** is no longer needed. -/
theorem Keyed.fulfilled_onChunkData (hk : s.Keyed) (hknown : s.store.Known f)
    (hd : s.downloads.get? f = some d) {expected : Option Json}
    (hexpected : d.expectedHash idx = .ok expected) {chunkHash signature data : Buffer}
    (hgood : goodChunk P session f idx chunkHash signature data expected = true)
    (hput : (s.store.putChunk P f idx data expected).2 = .ok true) (rank : ℕ → ℕ) :
    (s.onChunkData session f idx chunkHash signature data rank).1.Fulfilled f idx := by
  have hquiet := hk.quiet_release hd idx
  let s₁ : FileNode P := putDownload { s.release d idx with
    store := (s.store.putChunk P f idx data expected).1 } ((d.release idx).receive idx)
  have hkeyed : s₁.Keyed := keyed_putDownload (s := { s.release d idx with
    store := (s.store.putChunk P f idx data expected).1 }) (hquiet.keyed hk) _
  have hfulfilled : s₁.Fulfilled f idx := by
    refine ⟨ChunkStore.hasChunk_of_putChunk hknown hput, fun d' hd' ↦ ?_⟩
    have hget : s₁.downloads.get? f = some ((d.release idx).receive idx) := by
      rw [← hk f d hd]
      exact get?_putDownload_self _ ((d.release idx).receive idx)
    obtain rfl := Option.some.inj (hget.symm.trans hd')
    exact Finset.notMem_erase idx d.needed
  have hsent (n : FileNotice) : (((s₁.safeSend session.peerHex
      (FileProtocol.encAck idx FileProtocol.ackOk)).broadcast
        (FileProtocol.encHavePiece f idx)).emit n).Fulfilled f idx := hfulfilled
  rw [onChunkData, hd]
  dsimp only
  rw [hexpected, hquiet.store]
  dsimp only
  rw [if_neg (by rw [hgood]; decide), hput]
  dsimp only
  split
  · exact (hsent _).complete
  · exact (hsent _).schedule hkeyed rank

/-! ## Any message -/

/-- **A message leaves a request alone, or delivers the chunk**, exactly if it is harmless: it is
data for another chunk or no data, or data that is valid and can be stored. -/
theorem request_safe_iff (hs : (machine jsonParse).Reachable s) (hd : s.downloads.get? f = some d)
    (hr : d.inFlight.get? idx = some r) (rank : ℕ → ℕ) :
    ((s.next jsonParse (.message session buf rank)).Waits f idx r ∨
      ValidData (P := P) jsonParse session f idx d buf ∧
        (s.next jsonParse (.message session buf rank)).Fulfilled f idx) ↔
    s.Harmless jsonParse session f idx d buf := by
  obtain ⟨hk, ht⟩ := keyed_and_timed_of_reachable jsonParse hs
  have hactive := allActive_of_reachable jsonParse hs f d hd
  have hneeded := hactive.scheduled.needed idx r hr
  have ht' : (s.next jsonParse (.message session buf rank)).Timed :=
    (hk.moves_next jsonParse (.message session buf rank)).timed ht
  have hnext {chunkHash signature data : Buffer} (hdecode : FileProtocol.decode jsonParse buf =
      .ok (.chunkData f idx chunkHash signature data)) :
      s.next jsonParse (.message session buf rank) =
        (s.onChunkData session f idx chunkHash signature data rank).1 := by
    rw [next, handleMessage, hdecode]
  constructor
  · intro h chunkHash signature data expected hdecode hexpected
    rw [hnext hdecode] at h
    have hvalid : ValidData (P := P) jsonParse session f idx d buf →
        goodChunk P session f idx chunkHash signature data expected = true := by
      rintro ⟨chunkHash', signature', data', expected', hdecode', hexpected', hgood⟩
      obtain ⟨-, -, rfl, rfl, rfl⟩ := FileMessage.chunkData.inj
        (Except.ok.inj (hdecode.symm.trans hdecode'))
      obtain rfl := Except.ok.inj (hexpected.symm.trans hexpected')
      exact hgood
    rcases h with ⟨hwaits, -⟩ | ⟨hdata, hfulfilled⟩
    · exact absurd hwaits
        (hk.not_inFlight_onChunkData ht hd hr hexpected chunkHash signature data rank)
    · refine ⟨hvalid hdata, ?_⟩
      by_contra hcannot
      obtain ⟨d', hd', hsame⟩ := hk.needed_onChunkData session hd hexpected
        (fun hgood hput ↦ hcannot ((ChunkStore.putChunk_eq_ok_true_iff hactive.known
          (hash_of_goodChunk hgood)).mp hput)) rank
      exact hfulfilled.2 d' hd' (hsame ▸ hneeded)
  · intro h
    by_cases hdata : ∃ chunkHash signature data, FileProtocol.decode jsonParse buf =
        .ok (.chunkData f idx chunkHash signature data)
    · obtain ⟨chunkHash, signature, data, hdecode⟩ := hdata
      cases hexpected : d.expectedHash idx with
      | error err =>
        have hsame : s.next jsonParse (.message session buf rank) = s := by
          rw [hnext hdecode, onChunkData, hd]
          dsimp only
          rw [hexpected]
        rw [hsame]
        exact .inl ⟨⟨d, hd, hr⟩, ht.requests f idx r ⟨d, hd, hr⟩⟩
      | ok expected =>
        obtain ⟨hgood, hcan⟩ := h chunkHash signature data expected hdecode hexpected
        have hput := (ChunkStore.putChunk_eq_ok_true_iff hactive.known
          (hash_of_goodChunk hgood)).mpr hcan
        rw [hnext hdecode]
        exact .inr ⟨⟨chunkHash, signature, data, expected, hdecode, hexpected, hgood⟩,
          hk.fulfilled_onChunkData hactive.known hd hexpected hgood hput rank⟩
    · have hflight := hk.inFlight_handleMessage session hd hr hneeded
        (fun chunkHash signature data hdecode ↦ hdata ⟨chunkHash, signature, data, hdecode⟩) rank
      exact .inl ⟨hflight, ht'.requests f idx r hflight⟩

namespace SampleSwarm

open Manifest

/-- Two peers, each with a session of its own and a key of its own. -/
def first : FileSession := ⟨Buffer.hex (List.replicate 32 0) ++ "#1", List.replicate 32 0⟩
def second : FileSession := ⟨Buffer.hex (List.replicate 32 1) ++ "#2", List.replicate 32 1⟩

/-- The chunk is announced, as each of the two peers does. -/
def piece : Buffer := FileProtocol.encHavePiece sampleFileId.hex 0

/-- The first peer is asked for the chunk, before the second announces it as well. -/
def events : List FileEvent :=
  [.attach first.peerId, .attach second.peerId, .message first piece fun i ↦ i,
    .download sampleManifest ["out.txt"] none fun i ↦ i, .message second piece fun i ↦ i]

def state : FileNode samplePrimitives :=
  events.foldl (next fun _ ↦ none) SampleDownload.start

theorem reachable : (machine fun _ ↦ none).Reachable state :=
  ⟨SampleDownload.start, events, ⟨(), ⟨["store"], .empty, SampleDownload.disk⟩, 8, rfl⟩,
    Machine.run_foldl (fun _ _ _ ↦ Machine.step_ofFun trivial) Machine.feasible_true⟩

theorem requested : ∃ d, state.downloads.get? sampleFileId.hex = some d ∧
    (d.inFlight.get? 0).map (fun r ↦ (r.peerHex, r.timer)) = some (first.peerHex, 1) :=
  Option.bind_eq_some_iff.mp (by decide +kernel)

theorem expects {d : Download} (hd : state.downloads.get? sampleFileId.hex = some d) :
    ∃ expected, d.expectedHash 0 = .ok expected := by
  have hsome : ((state.downloads.get? sampleFileId.hex).bind fun d ↦
      (d.expectedHash 0).toOption).isSome = true := by decide +kernel
  rw [hd, Option.bind_some] at hsome
  cases hexpected : d.expectedHash 0 with
  | error err =>
    rw [hexpected] at hsome
    exact nomatch hsome
  | ok expected => exact ⟨expected, rfl⟩

/-- Data that the second peer has not signed: its signature is all zeros. -/
def forged : Buffer :=
  FileProtocol.encChunkData sampleFileId.hex 0 (List.replicate 32 0) (List.replicate 64 0) [0]

theorem decode_forged : FileProtocol.decode (fun _ ↦ none) forged = .ok (.chunkData
    sampleFileId.hex 0 (List.replicate 32 0) (List.replicate 64 0) [0]) :=
  FileProtocol.decode_encChunkData (by decide) (by decide) (by decide) (by decide) [0]

end SampleSwarm

open SampleSwarm in
/-- The second peer announces the chunk again, which leaves the request to the first alone. -/
theorem request_safe_sample : ∃ d r, state.downloads.get? Manifest.sampleFileId.hex = some d ∧
    d.inFlight.get? 0 = some r ∧ r.peerHex = first.peerHex ∧
    ((state.next (fun _ ↦ none) (.message second piece fun i ↦ i)).Waits
        Manifest.sampleFileId.hex 0 r ∨
      ValidData (P := Manifest.samplePrimitives) (fun _ ↦ none) second Manifest.sampleFileId.hex 0 d
        piece ∧ (state.next (fun _ ↦ none) (.message second piece fun i ↦ i)).Fulfilled
          Manifest.sampleFileId.hex 0) := by
  obtain ⟨d, hd, hrequest⟩ := requested
  obtain ⟨r, hr, hpeer⟩ := Option.map_eq_some_iff.mp hrequest
  refine ⟨d, r, hd, hr, congrArg Prod.fst hpeer, (request_safe_iff reachable hd hr _).mpr ?_⟩
  intro chunkHash signature data expected hdecode
  rw [piece, FileProtocol.decode_encHavePiece (by decide) (by decide)] at hdecode
  cases hdecode

open SampleSwarm in
/-- Forged data from the second peer cancels the request to the first. -/
theorem not_request_safe : ∃ d r, (machine fun _ ↦ none).Reachable state ∧
    state.downloads.get? Manifest.sampleFileId.hex = some d ∧ d.inFlight.get? 0 = some r ∧
      r.peerHex ≠ second.peerHex ∧
      ¬((state.next (fun _ ↦ none) (.message second forged fun i ↦ i)).Waits
          Manifest.sampleFileId.hex 0 r ∨
        ValidData (P := Manifest.samplePrimitives) (fun _ ↦ none) second
          Manifest.sampleFileId.hex 0 d forged ∧
        (state.next (fun _ ↦ none) (.message second forged fun i ↦ i)).Fulfilled
          Manifest.sampleFileId.hex 0) := by
  obtain ⟨d, hd, hrequest⟩ := requested
  obtain ⟨r, hr, hpeer⟩ := Option.map_eq_some_iff.mp hrequest
  have hpeer : r.peerHex = first.peerHex := congrArg Prod.fst hpeer
  refine ⟨d, r, reachable, hd, hr, by rw [hpeer]; decide +kernel, ?_⟩
  obtain ⟨hk, ht⟩ := keyed_and_timed_of_reachable _ reachable
  have hnext : state.next (fun _ ↦ none) (.message second forged fun i ↦ i) =
      (state.onChunkData second Manifest.sampleFileId.hex 0 (List.replicate 32 0)
        (List.replicate 64 0) [0] fun i ↦ i).1 := by
    rw [next, handleMessage, decode_forged]
  rintro (⟨hflight, -⟩ | ⟨⟨chunkHash, signature, data, expected, hdecode, -, hgood⟩, -⟩)
  · obtain ⟨expected, hexpected⟩ := expects hd
    rw [hnext] at hflight
    exact hk.not_inFlight_onChunkData ht hd hr hexpected _ _ _ _ hflight
  · obtain ⟨-, -, rfl, rfl, rfl⟩ := FileMessage.chunkData.inj
      (Except.ok.inj (decode_forged.symm.trans hdecode))
    have hsig : Manifest.samplePrimitives.cryptoSignVerifyDetached (List.replicate 64 0)
        (chunkSigMessage Manifest.sampleFileId.hex 0 (List.replicate 32 0)) second.peerId =
          .ok false := by decide +kernel
    rw [goodChunk, hsig] at hgood
    cases hgood

end FileNode

end AttestP2P
