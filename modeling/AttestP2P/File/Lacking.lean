import AttestP2P.File.Speech

/-!
# Downloads that are not over

A download ends in the turn that stores its last chunk: `_complete` takes it off the table, so that
what is on the table between two events is not over.  `Lacking` says so, and `Honest.lacking_next`
that every event keeps it.  The one handler that passes through a state where it fails is
`_onChunkData`, between the chunk that is counted and the download that is taken down; a download
of a file that is complete in the store already is never put on the table at all.

`Roomy` says that requests may be sent, some number of them in parallel, which is so unless the
program is configured with none.  Both are what keeps a swarm from standing still: a node with a
download on its table lacks a chunk, and it has room to ask for it.
-/

set_option autoImplicit false

namespace AttestP2P

namespace Catalogue

open FileNode ChunkStore FileProtocol Slices

variable {P : Primitives} {jsonParse : Buffer → Option Json} {C : Catalogue P jsonParse}
  {s s' : FileNode P} {f g : String} {x y : SharedFile P} {i : ℕ} {m buf : Buffer}
  {peerHex : String} {e : FileEvent} {out : List (String × Buffer)}

/-! ## Downloads that are not over -/

/-- Every download that the node keeps needs something; the others have been completed. -/
def Lacking (s : FileNode P) : Prop := ∀ f d, s.downloads.get? f = some d → d.needed ≠ ∅

theorem Lacking.quiet (h : Lacking s) (hquiet : s.Quiet s') : Lacking s' := by
  intro f d hd
  obtain ⟨d₀, hd₀, htask⟩ := hquiet.get? hd
  rw [show d.needed = d₀.needed from congrArg DownloadTask.needed htask.symm]
  exact h f d₀ hd₀

theorem Lacking.of_downloads (h : Lacking s) (hsame : s'.downloads = s.downloads) :
    Lacking s' := by
  intro f d hd
  rw [hsame] at hd
  exact h f d hd

/-- The download that is complete is gone, and the others need something. -/
theorem lacking_complete (h : ∀ g d, s.downloads.get? g = some d → g ≠ f → d.needed ≠ ∅)
    (hactive : ∀ d, s.downloads.get? f = some d → d.done = false) : Lacking (s.complete f) := by
  intro g d hd
  obtain ⟨hsame, hdone⟩ | ⟨d₀, s₁, -, -, hdownloads, heq⟩ := complete_cases s f
  · rw [hsame] at hd
    by_cases hg : g = f
    · subst hg
      exact absurd (hdone d hd) (by rw [hactive d hd]; decide)
    · exact h g d hd hg
  · rw [heq, downloads_finish, hdownloads, OrderedMap.get?_delete] at hd
    split at hd
    · cases hd
    · next hg => exact h g d hd hg
theorem Honest.lacking_onChunkData (h : C.Honest s) (hs : Lacking s) {session : FileSession}
    {rank : ℕ → ℕ} {chunkHash signature data : Buffer}
    (he : C.Permits s (.message session buf rank))
    (hdecode : FileProtocol.decode jsonParse buf =
      .ok (.chunkData f i chunkHash signature data)) :
    Lacking (s.onChunkData session f i chunkHash signature data rank).1 := by
  cases hd : s.downloads.get? f with
  | none =>
    rw [FileNode.onChunkData, hd]
    exact hs
  | some d =>
    cases hexpected : d.expectedHash i with
    | error err =>
      rw [FileNode.onChunkData, hd]
      dsimp only
      rw [hexpected]
      exact hs
    | ok expected =>
      have hquiet := h.kept.keyed.quiet_release hd i
      have hkeyed := hquiet.keyed h.kept.keyed
      have hrelease : Lacking (s.release d i) := hs.quiet hquiet
      have hset : (stored s session d f i data).downloads =
          (s.release d i).downloads.set d.fileId ((d.release i).receive i) := rfl
      have hfile := h.kept.keyed f d hd
      obtain ⟨err, heq⟩ | ⟨-, heq⟩ := onChunkData_good rank hd hexpected
        (h.goodChunk he hdecode hd hexpected)
      · rw [heq]
        exact hrelease.of_downloads rfl
      · rw [heq]
        dsimp only
        split
        · refine lacking_complete (fun g d' hd' hg ↦ ?_) fun d' hd' ↦ ?_
          · rw [hset, OrderedMap.get?_set_of_ne (by rwa [hfile])] at hd'
            exact hrelease g d' hd'
          · rw [hset, hfile, OrderedMap.get?_set_self] at hd'
            obtain rfl := Option.some.inj hd'
            exact (h.saturated f d hd).2.1
        · next hneeded =>
          have hstored : Lacking (stored s session d f i data) := by
            intro g d' hd'
            rcases get?_of_set hset hd' with ⟨-, rfl⟩ | ⟨-, hold⟩
            · exact hneeded
            · exact hrelease g d' hold
          exact hstored.quiet (Keyed.quiet_schedule (fun g d' hd' ↦ hkeyed.set rfl hd') f rank)

theorem Lacking.putDownload (h : Lacking s) {d : Download} (hneeded : d.needed ≠ ∅) :
    Lacking (s.putDownload d) := by
  intro g d' hd'
  rcases get?_of_set (s := s) rfl hd' with ⟨-, rfl⟩ | ⟨-, hold⟩
  · exact hneeded
  · exact h g d' hold

/-- A download that begins needs something, or is complete at once. -/
theorem Lacking.startDownload (h : Lacking s) (hk : s.Keyed) (m : Json) (outPath : Location)
    (parallel promise : ℕ) (rank : ℕ → ℕ)
    (hhave : s.sessions.entries = [] ∨ ∃ bitfield, s.store.bitfield f = .ok bitfield) :
    Lacking (s.startDownload m f outPath parallel promise rank) := by
  rw [FileNode.startDownload]
  split
  · exact h.of_downloads (downloads_settle ..)
  · next n _ =>
    split
    · exact h.of_downloads (downloads_settle ..)
    · next needed _ =>
      let d (tick : Option ℕ) : Download :=
        { manifest := m, fileId := f, outPath := outPath, needed := needed
          inFlight := .empty, badPeerForChunk := .empty, parallel := parallel
          promise := promise, done := false, received := n - needed.card, tick := tick }
      have hstill := still_broadcastHave (s.putDownload (d none)) f
      dsimp only
      split
      · next err herr =>
        -- the announcement of a file that the store can tell of does not throw
        rw [broadcastHave] at herr
        split at herr
        · cases herr
        · next hsessions =>
          obtain ⟨bitfield, hbitfield⟩ := hhave.resolve_left hsessions
          rw [show (s.putDownload (d none)).store = s.store from rfl, hbitfield] at herr
          cases herr
      · split
        · refine lacking_complete (fun g d' hd' hg ↦ ?_) fun d' hd' ↦ ?_
          · rw [hstill.downloads, FileNode.putDownload, OrderedMap.get?_set_of_ne hg] at hd'
            exact h g d' hd'
          · rw [hstill.downloads, FileNode.putDownload, OrderedMap.get?_set_self] at hd'
            obtain rfl := Option.some.inj hd'
            rfl
        · next hneeded =>
          have hbegun : Lacking ((s.putDownload (d none)).broadcastHave f).1 :=
            (h.putDownload (d := d none) hneeded).of_downloads hstill.downloads
          let s₁ : FileNode P := ((s.putDownload (d none)).broadcastHave f).1.setTimer (.tick f)
          have hs₁ : Lacking s₁ := hbegun.of_downloads rfl
          have hkeyed : s₁.Keyed := by
            intro g d' hd'
            rw [show s₁.downloads = _ from hstill.downloads] at hd'
            exact keyed_putDownload hk (d none) g d' hd'
          exact (hs₁.putDownload (d := d _) hneeded).quiet
            (Keyed.quiet_schedule (keyed_putDownload hkeyed _) f rank)

/-- **A download that is not over needs something**, after every permitted event: the last chunk
completes it at once. -/
theorem Honest.lacking_next (h : C.Honest s) (hs : Lacking s) (he : C.Permits s e) :
    Lacking (s.next jsonParse e) := by
  cases he with
  | attach peerId => exact hs.quiet (quiet_attachSession s peerId)
  | @message session buf rank hsession hgenuine hok =>
    rw [FileNode.next, FileNode.handleMessage]
    split
    · exact hs
    · exact hs.of_downloads (still_onManifest s _).downloads
    · exact hs.quiet (h.kept.keyed.quiet_onHave session _ _ rank)
    · exact hs.quiet ((quiet_addHave s _ _ _).trans (Keyed.quiet_schedule (by exact h.kept.keyed)
        _ rank))
    · exact hs.quiet (quiet_serveChunk s session _ _)
    · next hdecode =>
      exact h.lacking_onChunkData hs (.message hsession hgenuine hok) hdecode
    · exact hs
  | close peerHex rank => exact hs.quiet (h.kept.keyed.quiet_onClose peerHex rank)
  | timer t rank => exact hs.quiet (h.kept.keyed.quiet_fire t rank)
  | @download f x outPath parallel rank hx hok _ =>
    have hregister : Lacking (s.registerManifest x.manifest).1 :=
      hs.of_downloads (downloads_registerManifest s x.manifest)
    let s₁ : FileNode P := { (s.registerManifest x.manifest).1 with
      nextPromise := (s.registerManifest x.manifest).1.nextPromise + 1 }
    have hs₁ : Lacking s₁ := hregister.of_downloads rfl
    rw [FileNode.next, FileNode.download, get_fileId hx]
    dsimp only
    split
    · exact hregister
    · exact hs₁.startDownload (by exact keyed_registerManifest h.kept.keyed x.manifest) _ _ _ _ _
        (h.announces hx f (get_fileId hx))
  | @seed f x filePath => exact hs.of_downloads (still_seed s x.manifest filePath).downloads

/-! ## Room for requests -/

/-- A download may have requests in flight, and so may those that begin. -/
def Roomy (s : FileNode P) : Prop := 0 < s.parallel ∧ s.OnTerms fun terms ↦ 0 < terms.parallel

theorem Honest.roomy_next (h : C.Honest s) (hs : Roomy s) (he : C.Permits s e) :
    Roomy (s.next jsonParse e) := by
  have hparallel : (s.next jsonParse e).parallel = s.parallel :=
    congrArg Prod.snd (says_next h he).1
  refine ⟨hparallel ▸ hs.1, hs.2.next (fun session buf rank g idx chunkHash signature data d
    expected hmessage hdecode hd hexpected ↦ ?_) fun m outPath parallel rank f _ _ ↦ ?_⟩
  · subst hmessage
    exact h.goodChunk he hdecode hd hexpected
  · cases hoption : parallel.filter fun n ↦ n ≠ 0 with
    | none => exact hs.1
    | some n =>
      have hne := (Option.filter_eq_some_iff.mp hoption).2
      exact Nat.pos_of_ne_zero (of_decide_eq_true hne)

end Catalogue

end AttestP2P
