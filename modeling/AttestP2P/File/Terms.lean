import AttestP2P.File.Coherence
import AttestP2P.File.Knowledge
import AttestP2P.File.RequestLife

/-!
# What an event leaves alone

Some of what a node has stays what it is from the first event to the last, and some changes in one
direction only.

* `OnTerms.next`: what a download is about is settled when it begins, and so is who is bad, unless
  somebody sends bad data.  `DownloadTerms` are the fields in question, and an invariant of the
  downloads that is about these alone is kept by everything that begins no download.
* `Needs.next`: a download needs chunks of its file only.
* `store_next`: the store stays where it is, and loses nothing; `hasChunk_of_next`: what it gains is
  a chunk that a message has carried, or one of a file that is seeded.
* `Knowledge.sessions_learn`, `Knowledge.files_learn`: how sessions and manifests come and go.

None of this is deep.  It is what the modules about honest nodes ask about an event when they do not
care which one it is.
-/

set_option autoImplicit false

namespace AttestP2P

/-- What does not change while a download goes on, and who is known to have sent bad chunks. -/
structure DownloadTerms where
  fileId : String
  manifest : Json
  outPath : Location
  parallel : ℕ
  badPeerForChunk : OrderedMap ℕ (Finset String)

def Download.terms (d : Download) : DownloadTerms :=
  ⟨d.fileId, d.manifest, d.outPath, d.parallel, d.badPeerForChunk⟩

namespace FileNode

variable {P : Primitives} {jsonParse : Buffer → Option Json} {s s' : FileNode P} {d : Download}
  {f : String} {T : DownloadTerms → Prop}

/-- What a node was started with. -/
def settings (s : FileNode P) : P.SignKey × ℕ := (s.signKey, s.parallel)

/-- Every download is on such terms. -/
def OnTerms (T : DownloadTerms → Prop) (s : FileNode P) : Prop :=
  ∀ f d, s.downloads.get? f = some d → T d.terms

theorem OnTerms.congr (h : s.OnTerms T) (hdownloads : s'.downloads = s.downloads) :
    s'.OnTerms T := by
  intro f d hd
  rw [hdownloads] at hd
  exact h f d hd

theorem OnTerms.set (h : s.OnTerms T) (hset : s'.downloads = s.downloads.set f d)
    (hd : T d.terms) : s'.OnTerms T := by
  intro g d' hd'
  rw [hset, OrderedMap.get?_set] at hd'
  split at hd'
  · obtain rfl := Option.some.inj hd'
    exact hd
  · exact h g d' hd'

theorem OnTerms.requestAll (h : s.OnTerms T) (hd : T d.terms) (idxs : List ℕ) :
    (s.requestAll d idxs).OnTerms T := by
  induction idxs generalizing s d with
  | nil => exact h
  | cons idx idxs ih =>
    rw [FileNode.requestAll]
    split
    · exact h
    · split
      · exact ih h hd
      · split
        · exact ih h hd
        · exact ih (h.set (f := d.fileId) (d := d.request idx _ s.nextTimer) rfl hd) hd

theorem OnTerms.schedule (h : s.OnTerms T) (f : String) (rank : ℕ → ℕ) :
    (s.schedule f rank).OnTerms T := by
  rw [FileNode.schedule]
  split
  · exact h
  · next d hd =>
    split
    · exact h
    · exact h.requestAll (h f d hd) _

theorem OnTerms.release (h : s.OnTerms T) (hd : T d.terms) (idx : ℕ) :
    (s.release d idx).OnTerms T := by
  rw [FileNode.release]
  split
  · exact h
  · exact h.set (f := d.fileId) (d := d.release idx) rfl hd

theorem OnTerms.complete (h : s.OnTerms T) (f : String) : (s.complete f).OnTerms T := by
  obtain ⟨hsame, -⟩ | ⟨d, s₁, -, -, hdownloads, heq⟩ := complete_cases s f
  · rwa [hsame]
  · intro g d' hd'
    rw [heq, downloads_finish, hdownloads, OrderedMap.get?_delete] at hd'
    split at hd'
    · cases hd'
    · exact h g d' hd'

/-- A chunk that is good makes nobody bad. -/
theorem OnTerms.onChunkData (h : s.OnTerms T) {session : FileSession} {idx : ℕ}
    {chunkHash signature data : Buffer} (rank : ℕ → ℕ) (hgood : ∀ d expected,
      s.downloads.get? f = some d → d.expectedHash idx = .ok expected →
        goodChunk P session f idx chunkHash signature data expected = true) :
    (s.onChunkData session f idx chunkHash signature data rank).1.OnTerms T := by
  rw [FileNode.onChunkData]
  split
  · exact h
  · next d hd =>
    cases hexpected : d.expectedHash idx with
    | error err => exact h
    | ok expected =>
      have hrelease := h.release (h f d hd) idx
      have hstored (store : ChunkStore) :
          OnTerms T { s.release d idx with store := store } := hrelease.congr rfl
      dsimp only
      rw [if_neg (by simp [hgood d expected hd hexpected])]
      split
      · exact hstored _
      · exact (hstored _).schedule f rank
      · have hreceived (store : ChunkStore) : OnTerms T (putDownload
            { s.release d idx with store := store } ((d.release idx).receive idx)) :=
          (hstored store).set (f := d.fileId) (d := (d.release idx).receive idx) rfl (h f d hd)
        split
        · exact OnTerms.complete ((hreceived _).congr (by rfl)) f
        · exact OnTerms.schedule ((hreceived _).congr (by rfl)) f rank

theorem OnTerms.handleMessage (h : s.OnTerms T) {session : FileSession} {buf : Buffer}
    (rank : ℕ → ℕ) (hgood : ∀ f idx chunkHash signature data d expected,
      FileProtocol.decode jsonParse buf = .ok (.chunkData f idx chunkHash signature data) →
      s.downloads.get? f = some d → d.expectedHash idx = .ok expected →
        goodChunk P session f idx chunkHash signature data expected = true) :
    (s.handleMessage jsonParse session buf rank).1.OnTerms T := by
  rw [FileNode.handleMessage]
  split
  · exact h
  · next m _ => exact h.congr (still_onManifest s m).downloads
  · rw [FileNode.onHave]
    split
    · exact h
    · split
      · exact h.congr rfl
      · exact OnTerms.schedule (h.congr (by rfl)) _ _
  · exact OnTerms.schedule (h.congr (by rfl)) _ _
  · exact h.congr (same_serveChunk s session _ _).downloads
  · next hdecode =>
    exact h.onChunkData rank fun d expected ↦ hgood _ _ _ _ _ d expected hdecode
  · exact h

theorem OnTerms.fire (h : s.OnTerms T) (t : ℕ) (rank : ℕ → ℕ) : (s.fire t rank).OnTerms T := by
  rw [FileNode.fire]
  split
  · exact h
  · have hclear : (s.clearTimer t).OnTerms T := h.congr rfl
    rw [onTimeout]
    split
    · exact hclear
    · next d hd =>
      split
      · exact (hclear.release (h _ d hd) _).schedule _ _
      · exact hclear
  · exact h.schedule _ _

theorem OnTerms.fallBack (h : s.OnTerms T) (peerHex : String) (rank : String → ℕ → ℕ)
    (fileIds : List String) : (s.fallBack peerHex rank fileIds).OnTerms T := by
  induction fileIds generalizing s with
  | nil => exact h
  | cons f fileIds ih =>
    refine ih (OnTerms.schedule ?_ f (rank f))
    cases hd : s.downloads.get? f with
    | none =>
      have hsame : s.releasePeer f peerHex = s := by rw [FileNode.releasePeer, hd]
      rwa [hsame]
    | some d => exact h.set (downloads_releasePeer hd) (h f d hd)

theorem OnTerms.startDownload (h : s.OnTerms T) (m : Json) {outPath : Location} {parallel : ℕ}
    (hT : T ⟨f, m, outPath, parallel, .empty⟩) (promise : ℕ) (rank : ℕ → ℕ) :
    (s.startDownload m f outPath parallel promise rank).OnTerms T := by
  rw [FileNode.startDownload]
  split
  · exact h.congr (still_settle ..).downloads
  · next n _ =>
    split
    · exact h.congr (still_settle ..).downloads
    · next needed _ =>
      let d (tick : Option ℕ) : Download :=
        { manifest := m, fileId := f, outPath := outPath, needed := needed
          inFlight := .empty, badPeerForChunk := .empty, parallel := parallel
          promise := promise, done := false, received := n - needed.card, tick := tick }
      have hbegun : ((s.putDownload (d none)).broadcastHave f).1.OnTerms T :=
        (h.set (d := d none) rfl hT).congr (same_broadcastHave (s.putDownload (d none)) f).downloads
      dsimp only
      split
      · exact hbegun.congr (still_settle ..).downloads
      · split
        · exact hbegun.complete f
        · exact OnTerms.schedule (hbegun.set (d := d _) (by rfl) hT) f rank

theorem parallel_registerManifest (s : FileNode P) (m : Json) :
    (s.registerManifest m).1.parallel = s.parallel := by
  rw [registerManifest]
  split
  · rfl
  · rfl

/-- **The terms of the downloads stay**: those that begin are on such terms, and no data is bad. -/
theorem OnTerms.next {e : FileEvent} (h : s.OnTerms T)
    (hgood : ∀ session buf rank f idx chunkHash signature data d expected,
      e = .message session buf rank →
      FileProtocol.decode jsonParse buf = .ok (.chunkData f idx chunkHash signature data) →
      s.downloads.get? f = some d → d.expectedHash idx = .ok expected →
        goodChunk P session f idx chunkHash signature data expected = true)
    (hstart : ∀ m outPath parallel rank f, e = .download m outPath parallel rank →
      m.get "file_id" = some (.str f) →
        T ⟨f, m, outPath, (parallel.filter fun n ↦ n ≠ 0).getD s.parallel, .empty⟩) :
    (s.next jsonParse e).OnTerms T := by
  cases e with
  | attach peerId => exact h.congr (still_attachSession s peerId).downloads
  | message session buf rank =>
    exact h.handleMessage rank fun _ _ _ _ _ _ _ ↦ hgood session buf rank _ _ _ _ _ _ _ rfl
  | close peerHex rank => exact (OnTerms.fallBack (h.congr (by rfl)) peerHex rank _).congr rfl
  | timer t rank => exact h.fire t rank
  | download m outPath parallel rank =>
    have hregister := h.congr (downloads_registerManifest s m)
    rw [FileNode.next, FileNode.download]
    dsimp only
    split
    · exact hregister
    · split
      · next hid =>
        refine OnTerms.startDownload (hregister.congr (by rfl)) m ?_ _ _
        rw [parallel_registerManifest]
        exact hstart _ _ _ _ _ rfl hid
      · exact hregister
  | seed m filePath => exact h.congr (still_seed s m filePath).downloads

/-! ## Chunks that are needed -/

/-- Downloads need only such chunks. -/
def Needs (B : String → ℕ → Prop) (s : FileNode P) : Prop :=
  ∀ f d, s.downloads.get? f = some d → ∀ i ∈ d.needed, B f i

theorem lt_of_mem_missing {store : ChunkStore} {n i : ℕ} {needed : Finset ℕ}
    (h : missing store f n = .ok needed) (hi : i ∈ needed) : i < n := by
  rw [missing] at h
  split at h
  · obtain rfl := Except.ok.inj h
    exact Finset.mem_range.mp (Finset.mem_filter.mp hi).1
  · obtain rfl := Except.ok.inj h
    exact Finset.mem_range.mp hi
  · split at h
    · obtain rfl := Except.ok.inj h
      exact absurd hi (Finset.notMem_empty i)
    · cases h

theorem Effect.needs {s₀ : FileNode P} {e : FileEvent} {B : String → ℕ → Prop}
    (hstart : ∀ m outPath parallel rank f n, e = .download m outPath parallel rank →
      m.get "file_id" = some (.str f) → loopCount (m.get "nb_chunks") = some n → ∀ i < n, B f i)
    (h₀ : s₀.Needs B) (h : Effect jsonParse s₀ e s s') (hs : s.Needs B) : s'.Needs B := by
  cases h with
  | quiet h =>
    intro f d hd
    obtain ⟨d₀, hd₀, htask⟩ := h.get? hd
    rw [show d.needed = d₀.needed from congrArg DownloadTask.needed htask.symm]
    exact hs f d₀ hd₀
  | register =>
    intro f d hd
    rw [downloads_registerManifest] at hd
    exact h₀ f d hd
  | refused => exact hs
  | received hexpects _ _ hd' =>
    intro g d₁ hd₁ i hi
    rw [OrderedMap.get?_set] at hd₁
    split at hd₁
    · next hg =>
      subst hg
      obtain rfl := Option.some.inj hd₁
      rw [show Download.needed _ = _ from congrArg DownloadTask.needed hd'] at hi
      exact hs _ _ hexpects.get i (Finset.mem_of_mem_erase hi)
    · exact hs g d₁ hd₁ i hi
  | start he hid _ hn hneeded hd =>
    intro g d₁ hd₁ i hi
    rw [OrderedMap.get?_set] at hd₁
    split at hd₁
    · next hg =>
      subst hg
      obtain rfl := Option.some.inj hd₁
      rw [show Download.needed _ = _ from congrArg DownloadTask.needed hd] at hi
      exact hstart _ _ _ _ _ _ he hid hn i (lt_of_mem_missing hneeded hi)
    · exact h₀ g d₁ hd₁ i hi
  | promise => exact hs
  | reject =>
    intro f d hd
    rw [downloads_settle] at hd
    exact hs f d hd
  | finish =>
    intro g d hd
    rw [downloads_finish, OrderedMap.get?_delete] at hd
    split at hd
    · cases hd
    · exact hs g d hd
  | seeded => exact hs

/-- **A download needs chunks of its file only.** -/
theorem Needs.next {e : FileEvent} {B : String → ℕ → Prop} (hs : s.Needs B) (hk : s.Keyed)
    (hstart : ∀ m outPath parallel rank f n, e = .download m outPath parallel rank →
      m.get "file_id" = some (.str f) → loopCount (m.get "nb_chunks") = some n →
        ∀ i < n, B f i) : (s.next jsonParse e).Needs B := by
  have heffects := effects_next hk jsonParse e
  generalize s.next jsonParse e = s' at heffects
  induction heffects with
  | refl => exact hs
  | tail _ h ih => exact h.needs hstart hs ih

/-! ## The store

Chunks are added and never removed.  What an event adds can be read off the event. -/

/-- The store stays where it is, and loses nothing. -/
theorem Effect.store {s₀ : FileNode P} {e : FileEvent} (h : Effect jsonParse s₀ e s s')
    (hs : s.store.baseDir = s₀.store.baseDir ∧ s₀.store.Grows s.store) :
    s'.store.baseDir = s₀.store.baseDir ∧ s₀.store.Grows s'.store := by
  have hput (f : String) (idx : ℕ) (data : Buffer) (expected : Option Json) :
      (s.store.putChunk P f idx data expected).1.baseDir = s₀.store.baseDir ∧
        s₀.store.Grows (s.store.putChunk P f idx data expected).1 :=
    ⟨(ChunkStore.baseDir_putChunk ..).trans hs.1,
      hs.2.trans (ChunkStore.grows_putChunk P s.store f idx data expected)⟩
  have hregister (m : Json) : (s₀.registerManifest m).1.store.baseDir = s₀.store.baseDir ∧
      s₀.store.Grows (s₀.registerManifest m).1.store := by
    refine ⟨baseDir_register s₀ m, ?_⟩
    rw [registerManifest]
    split
    · exact .of_files_eq rfl
    · next key _ => exact ChunkStore.grows_registerManifest s₀.store key m
  cases h with
  | quiet h =>
    rw [h.store]
    exact hs
  | register => exact hregister _
  | refused => exact hput ..
  | received => exact hput ..
  | start => exact hregister _
  | promise => exact hs
  | reject =>
    rw [store_settle]
    exact hs
  | finish =>
    rw [store_finish]
    exact ⟨(ChunkStore.confined_assemble ..).baseDir.trans hs.1,
      hs.2.trans (.of_files_eq (ChunkStore.files_assemble ..))⟩
  | seeded => exact hput ..

theorem store_next (hk : s.Keyed) (jsonParse : Buffer → Option Json) (e : FileEvent) :
    (s.next jsonParse e).store.baseDir = s.store.baseDir ∧
      s.store.Grows (s.next jsonParse e).store := by
  have heffects := effects_next hk jsonParse e
  generalize s.next jsonParse e = s' at heffects
  induction heffects with
  | refl => exact ⟨rfl, .of_files_eq rfl⟩
  | tail _ h ih => exact h.store ih

theorem hasChunk_of_putChunk_or {store : ChunkStore} {g : String} {i j : ℕ} {data : Buffer}
    {expected : Option Json}
    (h : (store.putChunk P g j data expected).1.hasChunk f i = .ok true) :
    store.hasChunk f i = .ok true ∨ f = g ∧ i = j := by
  obtain ⟨entry, hentry, hi⟩ := ChunkStore.hasChunk_iff.mp h
  obtain ⟨hfiles, -⟩ | ⟨e, he, hfiles⟩ := ChunkStore.files_putChunk P store g j data expected
  · exact .inl (ChunkStore.hasChunk_iff.mpr ⟨entry, hfiles ▸ hentry, hi⟩)
  · rw [hfiles, OrderedMap.get?_set] at hentry
    split at hentry
    · next hg =>
      obtain rfl := Option.some.inj hentry
      rcases ChunkStore.mem_chunks_addChunk.mp hi with hi | hi
      · exact .inl (ChunkStore.hasChunk_iff.mpr ⟨e, hg ▸ he, hi⟩)
      · exact .inr ⟨hg, hi⟩
    · exact .inl (ChunkStore.hasChunk_iff.mpr ⟨entry, hentry, hi⟩)

theorem hasChunk_of_register {m : Json} {i : ℕ}
    (h : (s.registerManifest m).1.store.hasChunk f i = .ok true) :
    s.store.hasChunk f i = .ok true := by
  rw [registerManifest] at h
  split at h
  · exact h
  · next key _ =>
    obtain ⟨entry, hentry, hi⟩ := ChunkStore.hasChunk_iff.mp h
    rw [ChunkStore.files_registerManifest, ChunkStore.get?_addEntry] at hentry
    refine ChunkStore.hasChunk_iff.mpr ?_
    split at hentry
    · split at hentry
      · exact ⟨entry, hentry, hi⟩
      · obtain rfl := Option.some.inj hentry
        cases hold : s.store.files.get? f with
        | none =>
          rw [hold] at hi
          cases hi
        | some e =>
          rw [hold] at hi
          exact ⟨e, rfl, hi⟩
    · exact ⟨entry, hentry, hi⟩

/-- Chunks come in messages that carry them, or from files that are seeded. -/
def Gains (jsonParse : Buffer → Option Json) (e : FileEvent) (f : String) (i : ℕ) : Prop :=
  (∃ data, e.Carries jsonParse f i data) ∨
    ∃ m filePath, e = .seed m filePath ∧ m.get "file_id" = some (.str f)

theorem Effect.hasChunk {s₀ : FileNode P} {e : FileEvent} {i : ℕ}
    (h : Effect jsonParse s₀ e s s')
    (hs : s.store.hasChunk f i = .ok true → s₀.store.hasChunk f i = .ok true ∨
      Gains jsonParse e f i)
    (hheld : s'.store.hasChunk f i = .ok true) :
    s₀.store.hasChunk f i = .ok true ∨ Gains jsonParse e f i := by
  cases h with
  | quiet h => exact hs (h.store ▸ hheld)
  | register => exact .inl (hasChunk_of_register hheld)
  | refused _ hdata =>
    obtain hold | ⟨rfl, rfl⟩ := hasChunk_of_putChunk_or hheld
    · exact hs hold
    · exact .inr (.inl ⟨_, hdata⟩)
  | received _ hdata =>
    obtain hold | ⟨rfl, rfl⟩ := hasChunk_of_putChunk_or hheld
    · exact hs hold
    · exact .inr (.inl ⟨_, hdata⟩)
  | start => exact .inl (hasChunk_of_register hheld)
  | promise => exact hs hheld
  | reject =>
    rw [store_settle] at hheld
    exact hs hheld
  | finish =>
    rw [store_finish] at hheld
    obtain ⟨entry, hentry, hi⟩ := ChunkStore.hasChunk_iff.mp hheld
    rw [ChunkStore.files_assemble] at hentry
    exact hs (ChunkStore.hasChunk_iff.mpr ⟨entry, hentry, hi⟩)
  | seeded he hid =>
    obtain hold | ⟨rfl, rfl⟩ := hasChunk_of_putChunk_or hheld
    · exact hs hold
    · exact .inr (.inr ⟨_, _, he, hid⟩)

/-- **What a store lists** it has listed before, or has just gained. -/
theorem hasChunk_of_next (hk : s.Keyed) {e : FileEvent} {i : ℕ}
    (hheld : (s.next jsonParse e).store.hasChunk f i = .ok true) :
    s.store.hasChunk f i = .ok true ∨ Gains jsonParse e f i := by
  have heffects := effects_next hk jsonParse e
  generalize s.next jsonParse e = s' at heffects hheld
  induction heffects with
  | refl => exact .inl hheld
  | tail _ h ih => exact h.hasChunk ih hheld

end FileNode

/-! ## What a node remembers -/

namespace Knowledge

variable {P : Primitives} {jsonParse : Buffer → Option Json} {k : Knowledge} {e : FileEvent}
  {f peerHex : String} {m : Json}

theorem seq_register : (k.register m).seq = k.seq := by
  rw [register]
  split
  · rfl
  · rfl

theorem sessions_onHave {g : String} {bitfield : Buffer} :
    (k.onHave peerHex g bitfield).sessions = k.sessions := by
  rw [onHave]
  split
  · rfl
  · rfl

/-- Sessions come by being attached, and go by being closed. -/
theorem sessions_learn : (k.learn P jsonParse e).sessions = match e with
    | .attach peerId => k.sessions.set (peerId.hex ++ "#" ++ Nat.repr (k.seq + 1)) peerId
    | .close peerHex _ => k.sessions.delete peerHex
    | _ => k.sessions := by
  cases e with
  | attach peerId => rfl
  | close peerHex rank => rfl
  | timer t rank => rfl
  | download m outPath parallel rank => exact sessions_register
  | seed m filePath => exact sessions_register
  | message session buf rank =>
    rw [learn]
    split
    · split
      · exact sessions_register
      · rfl
    · exact sessions_onHave
    · rfl
    · rfl

theorem seq_le_learn : k.seq ≤ (k.learn P jsonParse e).seq := by
  cases e with
  | attach peerId => exact Nat.le_succ _
  | close peerHex rank => exact le_rfl
  | timer t rank => exact le_rfl
  | download m outPath parallel rank => exact seq_register.ge
  | seed m filePath => exact seq_register.ge
  | message session buf rank =>
    rw [learn]
    split
    · split
      · exact seq_register.ge
      · exact le_rfl
    · rw [onHave]
      split
      · exact le_rfl
      · exact le_rfl
    · exact le_rfl
    · exact le_rfl

theorem Used.learn (h : k.Used peerHex) : (k.learn P jsonParse e).Used peerHex := by
  obtain ⟨peerId, n, hn, heq⟩ := h
  exact ⟨peerId, n, hn.trans seq_le_learn, heq⟩

/-- A manifest is registered, or the files that are known stay the same. -/
theorem files_learn (P : Primitives) (jsonParse : Buffer → Option Json) (k : Knowledge)
    (e : FileEvent) : (∃ m, e.Registers P jsonParse m ∧
      (k.learn P jsonParse e).manifests = (k.register m).manifests ∧
      (k.learn P jsonParse e).counts = (k.register m).counts) ∨
    (k.learn P jsonParse e).manifests = k.manifests ∧
      (k.learn P jsonParse e).counts = k.counts := by
  cases e with
  | attach peerId => exact .inr ⟨rfl, rfl⟩
  | close peerHex rank => exact .inr ⟨rfl, rfl⟩
  | timer t rank => exact .inr ⟨rfl, rfl⟩
  | download m outPath parallel rank => exact .inl ⟨m, rfl, rfl, rfl⟩
  | seed m filePath => exact .inl ⟨m, rfl, rfl, rfl⟩
  | message session buf rank =>
    rw [learn]
    split
    · next m hdecode =>
      split
      · next hverify => exact .inl ⟨m, ⟨hdecode, hverify⟩, rfl, rfl⟩
      · exact .inr ⟨rfl, rfl⟩
    · rw [onHave]
      split
      · exact .inr ⟨rfl, rfl⟩
      · exact .inr ⟨rfl, rfl⟩
    · exact .inr ⟨rfl, rfl⟩
    · exact .inr ⟨rfl, rfl⟩

end Knowledge

end AttestP2P
