import AttestP2P.File.Requests

/-!
# The progress of a download

A download keeps two accounts of the same thing.  `received` counts up at each chunk that is stored,
and `needed` is the set of chunks that are missing and loses the chunk; the progress that is
reported comes from the first, and the end of the download from the second.  Nothing compares the
two, and nothing looks whether the chunk was still needed when it came.

* `Exact` says that the two agree, and that no report has been of more than all.
* `Turn.exact`, `exact_of_receive`, `not_exact_of_receive`: what each turn does to it; most leave
  the account of a download alone (`Turn.account`).
* `AllActive.exact_onChunkData` and `AllActive.not_exact_onChunkData` are the one handler that
  counts, told apart by whether the chunk was needed.
* `progress_exact_iff`: the progress is exact along a run, exactly if no chunk is stored that is not
  needed.  The condition is on each event and the state before it.
-/

set_option autoImplicit false

namespace AttestP2P

namespace Download

/-- The chunks that have been received are those that are not needed. -/
def Right (d : Download) : Prop := ∃ n : ℕ,
  loopCount (d.manifest.get "nb_chunks") = some n ∧ d.received = n - d.needed.card

end Download

namespace FileNode

variable {P : Primitives} {s s' : FileNode P} {d d' : Download} {f : String} {idx : ℕ} {a : Act}
  {A : Act → Prop} {jsonParse : Buffer → Option Json} {e : FileEvent}

/-- Every download has received what it does not need, and no report has been of more than all. -/
structure Exact (s : FileNode P) : Prop where
  counted : ∀ f d, s.downloads.get? f = some d → d.Right
  reported : ∀ f idx (received : ℤ) total, .progress f idx received total ∈ s.notices → ∃ n : ℕ,
    loopCount total = some n ∧ received ≤ n

/-! ## One turn -/

theorem notices_clearTimers {α : Type} (s : FileNode P) (timer : α → ℕ) (l : List α) :
    (l.foldl (fun s a ↦ s.clearTimer (timer a)) s).notices = s.notices := by
  induction l generalizing s with
  | nil => rfl
  | cons a l ih => exact ih (s.clearTimer (timer a))

/-- Only the turn that counts a chunk reports progress. -/
theorem Turn.progress (h : Turn s a s') (ha : a.Plain) (f : String) (idx : ℕ) (received : ℤ)
    (total : Option Json) :
    .progress f idx received total ∈ s'.notices ↔ .progress f idx received total ∈ s.notices := by
  cases h with
  | still h => exact h.progress f idx received total
  | receive => exact ha.elim
  | @finish d =>
    dsimp only
    rw [clearRequests, notices_clearTimers]
    cases d.tick with
    | none => rfl
    | some t => rfl
  | @detach d peerHex hd =>
    rw [releasePeer, hd]
    exact iff_of_eq (congrArg _ (notices_clearTimers ..))
  | _ => rfl

theorem Moves.progress (h : Moves A s s') (hA : ∀ a, A a → a.Plain) (f : String) (idx : ℕ)
    (received : ℤ) (total : Option Json) :
    .progress f idx received total ∈ s'.notices ↔ .progress f idx received total ∈ s.notices := by
  obtain ⟨acts, hrun, hacts⟩ := h
  induction hrun with
  | nil => rfl
  | cons hturn _ ih =>
    obtain ⟨ha, hacts⟩ := List.forall_mem_cons.mp hacts
    exact (ih hacts).trans (Turn.progress hturn (hA _ ha) f idx received total)

theorem right_congr (h : d'.account = d.account) (hd : d.Right) : d'.Right := by
  obtain ⟨n, hn, hreceived⟩ := hd
  obtain ⟨hmanifest, haccount⟩ := Prod.mk.inj h
  obtain ⟨hneeded, hcount⟩ := Prod.mk.inj haccount
  exact ⟨n, hmanifest ▸ hn, by rw [hcount, hneeded, hreceived]⟩

theorem Turn.right_of_drop (h : Turn s (.drop f) s') (hs : s.Exact)
    (hd' : s'.downloads.get? f = some d') : d'.Right := by
  cases h with
  | start hn hreceived =>
    obtain rfl := Option.some.inj ((get?_putDownload_self s _).symm.trans hd')
    exact ⟨_, hn, hreceived⟩
  | finish =>
    dsimp only at hd'
    rw [OrderedMap.get?_delete, if_pos rfl] at hd'
    exact nomatch hd'
  | @detach d peerHex hd =>
    rw [downloads_releasePeer hd, OrderedMap.get?_set_self] at hd'
    obtain rfl := Option.some.inj hd'
    exact hs.counted _ d hd

/-- **A turn that counts no chunk** keeps progress exact. -/
theorem Turn.exact (h : Turn s a s') (ha : a.Plain) (hs : s.Exact) : s'.Exact where
  counted f d' hd' := by
    by_cases hdrop : a = .drop f
    · subst hdrop
      exact Turn.right_of_drop h hs hd'
    · have haccount := Turn.account h ha hdrop
      rw [hd', Option.map_some] at haccount
      obtain ⟨d, hd, haccount⟩ := Option.map_eq_some_iff.mp haccount.symm
      exact right_congr haccount.symm (hs.counted f d hd)
  reported f idx received total hmem :=
    hs.reported f idx received total ((Turn.progress h ha f idx received total).mp hmem)

theorem Moves.exact (h : Moves A s s') (hA : ∀ a, A a → a.Plain) (hs : s.Exact) : s'.Exact := by
  obtain ⟨acts, hrun, hacts⟩ := h
  induction hrun with
  | nil => exact hs
  | cons hturn _ ih =>
    obtain ⟨ha, hacts⟩ := List.forall_mem_cons.mp hacts
    exact ih (Turn.exact hturn (hA _ ha) hs) hacts

/-! ## A chunk is counted

The one turn that changes both accounts.  If the chunk was needed, both change by one; if it was
not, only the first does, and the report that follows says so. -/

/-- **A chunk that is needed** may be counted. -/
theorem exact_of_receive (h : Turn s (.receive f idx) s') (hd : s.downloads.get? f = some d)
    (hneeded : idx ∈ d.needed) (hs : s.Exact) : s'.Exact := by
  cases h with
  | @receive d' _ hd' =>
    obtain rfl := Option.some.inj (hd.symm.trans hd')
    obtain ⟨n, hn, hreceived⟩ := hs.counted _ d hd
    have hcard : (d.needed.erase idx).card + 1 = d.needed.card := Finset.card_erase_add_one hneeded
    have hcount : (d.receive idx).received = n - ((d.receive idx).needed.card : ℤ) := by
      have hright : d.received + 1 = n - ((d.needed.erase idx).card : ℤ) := by omega
      exact hright
    refine ⟨fun g d' hd' ↦ ?_, fun g i received total hmem ↦ ?_⟩
    · rcases get?_of_set (s := s) rfl hd' with ⟨-, rfl⟩ | ⟨-, hold⟩
      · exact ⟨n, hn, hcount⟩
      · exact hs.counted g d' hold
    · rcases List.mem_append.mp hmem with hold | hnew
      · exact hs.reported g i received total hold
      · obtain ⟨-, -, rfl, rfl⟩ := FileNotice.progress.inj (List.mem_singleton.mp hnew)
        exact ⟨n, hn, by omega⟩

/-- **A chunk that is not needed** is one too many: in the account, while the download goes on, or
in the report. -/
theorem not_exact_of_receive (h : Turn s (.receive f idx) s') (hd : s.downloads.get? f = some d)
    (hneeded : idx ∉ d.needed) (hs : s.Exact) {s₂ : FileNode P}
    (hmoves : Moves (fun a ↦ Asks f a ∨ a = .drop f ∧ d.needed.erase idx = ∅) s' s₂) :
    ¬s₂.Exact := by
  have herase : d.needed.erase idx = d.needed := Finset.erase_eq_of_notMem hneeded
  obtain ⟨n, hn, hreceived⟩ := hs.counted f d hd
  cases h with
  | @receive d' _ hd' =>
    obtain rfl := Option.some.inj (hd.symm.trans hd')
    intro hexact
    by_cases hlast : d.needed = ∅
    · -- the report stays, also when the download is over
      have hplain (a : Act) (ha : Asks d.fileId a ∨ a = .drop d.fileId ∧ d.needed.erase idx = ∅) :
          a.Plain := by
        rcases ha with ha | ⟨rfl, -⟩
        · exact (ha.plain (g := d.fileId)).1
        · exact trivial
      have hmem : FileNotice.progress d.fileId idx (d.received + 1) (d.manifest.get "nb_chunks") ∈
          s₂.notices :=
        (hmoves.progress hplain ..).mpr (List.mem_append_right _ (List.mem_singleton.mpr rfl))
      obtain ⟨n', hn', hle⟩ := hexact.reported _ _ _ _ hmem
      obtain rfl := Option.some.inj (hn.symm.trans hn')
      rw [hreceived, hlast, Finset.card_empty] at hle
      omega
    · have haccount := hmoves.account (f := d.fileId) fun a ha ↦
        (ha.resolve_right fun h ↦ hlast (herase.symm.trans h.2)).plain
      have hself : ((s.putDownload (d.receive idx)).emit (.progress d.fileId idx
          (d.receive idx).received (d.manifest.get "nb_chunks"))).downloads.get? d.fileId =
            some (d.receive idx) := get?_putDownload_self s (d.receive idx)
      rw [hself, Option.map_some] at haccount
      obtain ⟨d₂, hd₂, haccount⟩ := Option.map_eq_some_iff.mp haccount
      obtain ⟨n', hn', hcount⟩ := right_congr haccount.symm (hexact.counted _ d₂ hd₂)
      obtain rfl := Option.some.inj (hn.symm.trans hn')
      have hwrong : d.received + 1 = n - ((d.needed.erase idx).card : ℤ) := hcount
      rw [herase] at hwrong
      omega

/-! ## Events -/

/-- The event is not a chunk that the download does not need, valid and such that the store can take
it. -/
def Once (jsonParse : Buffer → Option Json) (s : FileNode P) (e : FileEvent) : Prop :=
  ∀ session buf rank f idx d, e = .message session buf rank →
    s.downloads.get? f = some d → ValidData (P := P) jsonParse session f idx d buf →
      s.store.CanPut f idx → idx ∈ d.needed

theorem AllActive.keyed (hall : s.AllActive) : s.Keyed := fun f d hd ↦ (hall f d hd).key

/-- The request is released, and the chunk is stored. -/
theorem AllActive.exact_release (hall : s.AllActive) (hs : s.Exact)
    (hd : s.downloads.get? f = some d) (idx : ℕ) : (s.release d idx).Exact :=
  (hall.keyed.moves_release (A := Act.Plain) hd idx trivial).exact (fun _ ↦ id) hs

/-- **Data for a chunk** keeps progress exact, if it is not stored or needed. -/
theorem AllActive.exact_onChunkData (hall : s.AllActive) (hs : s.Exact)
    {session : FileSession} {chunkHash signature data : Buffer} {rank : ℕ → ℕ}
    (honce : ∀ d expected, s.downloads.get? f = some d → d.expectedHash idx = .ok expected →
      goodChunk P session f idx chunkHash signature data expected = true → s.store.CanPut f idx →
        idx ∈ d.needed) :
    (s.onChunkData session f idx chunkHash signature data rank).1.Exact := by
  cases hd : s.downloads.get? f with
  | none =>
    rw [FileNode.onChunkData, hd]
    exact hs
  | some d =>
    cases hexpected : d.expectedHash idx with
    | error err =>
      rw [FileNode.onChunkData, hd]
      dsimp only
      rw [hexpected]
      exact hs
    | ok expected =>
      have hrelease := hall.exact_release hs hd idx
      by_cases hstored : goodChunk P session f idx chunkHash signature data expected = true ∧
          (s.store.putChunk P f idx data expected).2 = .ok true
      · obtain ⟨hgood, hput⟩ := hstored
        have hcan := (ChunkStore.putChunk_eq_ok_true_iff (hall f d hd).known
          (hash_of_goodChunk hgood)).mp hput
        obtain ⟨s₁, hstill, hd₁, s₂, hturn, hrest⟩ :=
          hall.keyed.moves_of_stored hd hexpected hgood hput rank
        have hcounted := exact_of_receive hturn hd₁ (honce d expected hd hexpected hgood hcan)
          (Turn.exact (.still hstill) trivial hrelease)
        refine hrest.exact (fun a ha ↦ ?_) hcounted
        rcases ha with (rfl | hrequest) | ⟨rfl, -⟩
        · exact trivial
        · exact hrequest.plain
        · exact trivial
      · exact (hall.keyed.moves_of_refused hd hexpected
          (fun hgood hput ↦ hstored ⟨hgood, hput⟩) rank).exact
            (fun _ ha ↦ (ha.plain (g := f)).1) hrelease

/-- **A chunk that is stored again** is counted again. -/
theorem AllActive.not_exact_onChunkData (hall : s.AllActive) (hs : s.Exact)
    (hd : s.downloads.get? f = some d) {expected : Option Json}
    (hexpected : d.expectedHash idx = .ok expected) {session : FileSession}
    {chunkHash signature data : Buffer}
    (hgood : goodChunk P session f idx chunkHash signature data expected = true)
    (hcan : s.store.CanPut f idx) (hneeded : idx ∉ d.needed) (rank : ℕ → ℕ) :
    ¬(s.onChunkData session f idx chunkHash signature data rank).1.Exact := by
  have hput := (ChunkStore.putChunk_eq_ok_true_iff (hall f d hd).known
    (hash_of_goodChunk hgood)).mpr hcan
  obtain ⟨s₁, hstill, hd₁, s₂, hturn, hrest⟩ :=
    hall.keyed.moves_of_stored hd hexpected hgood hput rank
  exact not_exact_of_receive hturn hd₁ hneeded
    (Turn.exact (.still hstill) trivial (hall.exact_release hs hd idx)) hrest

theorem AllActive.exact_next (hall : s.AllActive) (hs : s.Exact) (honce : s.Once jsonParse e) :
    (s.next jsonParse e).Exact := by
  by_cases he : ∃ session buf rank, e = .message session buf rank
  · obtain ⟨session, buf, rank, rfl⟩ := he
    by_cases hdata : ∃ f idx chunkHash signature data,
        FileProtocol.decode jsonParse buf = .ok (.chunkData f idx chunkHash signature data)
    · obtain ⟨f, idx, chunkHash, signature, data, hdecode⟩ := hdata
      have hnext : s.next jsonParse (.message session buf rank) =
          (s.onChunkData session f idx chunkHash signature data rank).1 := by
        rw [FileNode.next, FileNode.handleMessage, hdecode]
      rw [hnext]
      exact hall.exact_onChunkData hs fun d expected hd hexpected hgood hcan ↦
        honce session buf rank f idx d rfl hd
          ⟨chunkHash, signature, data, expected, hdecode, hexpected, hgood⟩ hcan
    · refine (hall.keyed.moves_handleMessage jsonParse session buf rank).exact (fun a ha ↦ ?_) hs
      rcases ha with rfl | ⟨f, hrequest⟩ | ⟨f, idx, chunkHash, signature, data, hdecode, -⟩
      · exact trivial
      · exact hrequest.plain
      · exact absurd ⟨f, idx, chunkHash, signature, data, hdecode⟩ hdata
  · exact (hall.keyed.moves_next_of_ne jsonParse fun session buf rank h ↦
      he ⟨session, buf, rank, h⟩).exact (fun _ ↦ id) hs

theorem AllActive.not_exact_next (hall : s.AllActive) (hs : s.Exact) (honce : ¬s.Once jsonParse e) :
    ¬(s.next jsonParse e).Exact := by
  simp only [Once, not_forall] at honce
  obtain ⟨session, buf, rank, f, idx, d, rfl, hd, hvalid, hcan, hneeded⟩ := honce
  obtain ⟨chunkHash, signature, data, expected, hdecode, hexpected, hgood⟩ := hvalid
  have hnext : s.next jsonParse (.message session buf rank) =
      (s.onChunkData session f idx chunkHash signature data rank).1 := by
    rw [FileNode.next, FileNode.handleMessage, hdecode]
  rw [hnext]
  exact hall.not_exact_onChunkData hs hd hexpected hgood hcan hneeded rank

/-- **Progress is exact along a run**, exactly if no valid chunk comes that the store can take and
the download does not need. -/
theorem progress_exact_iff (jsonParse : Buffer → Option Json) (signKey : P.SignKey)
    (store : ChunkStore) (parallel : ℕ) (es : List FileEvent) :
    Machine.Feasible (Once jsonParse) (next jsonParse) (new signKey store parallel) es ↔
      ∀ es₁ es₂, es = es₁ ++ es₂ →
        (es₁.foldl (next jsonParse) (new signKey store parallel)).Exact := by
  refine Machine.feasible_iff_forall_prefix (E := fun _ _ ↦ True)
    (I := fun s : FileNode P ↦ s.AllActive ∧ s.Exact) (fun s hs ↦ hs.2)
    (fun s e hs _ honce ↦ ⟨hs.1.next jsonParse e, hs.1.exact_next hs.2 honce⟩)
    (fun s e hs _ honce ↦ hs.1.not_exact_next hs.2 honce) ⟨nofun, nofun, nofun⟩
    Machine.feasible_true

namespace SampleParts

open Manifest

/-- The first five bytes of the file. -/
def part : Buffer := sampleContent.take 5

/-- Their SHA-256, and that of the rest. -/
def partHash : Buffer :=
  [50, 158, 222, 0, 185, 71, 58, 3, 195, 234, 85, 132, 128, 51, 190, 13, 210, 201, 17, 93, 173, 41,
    237, 152, 230, 150, 51, 94, 181, 186, 204, 41]
def restHash : Buffer :=
  [52, 180, 72, 149, 186, 37, 212, 30, 112, 176, 89, 23, 152, 144, 139, 80, 55, 230, 231, 137, 157,
    161, 87, 69, 196, 141, 31, 240, 71, 144, 92, 201]

/-- The signature of the first chunk. -/
def partSignature : Buffer :=
  [254, 116, 16, 46, 168, 21, 33, 65, 65, 249, 202, 138, 88, 74, 60, 237, 192, 175, 181, 99, 251,
    199, 90, 192, 248, 191, 150, 181, 55, 173, 178, 91, 158, 237, 56, 61, 158, 141, 88, 155, 229,
    194, 169, 162, 161, 140, 88, 247, 13, 19, 131, 222, 15, 144, 182, 250, 0, 188, 154, 61, 198,
    212, 37, 15]

/-- Functions that take the values of the real ones on the chunks. -/
def primitives : Primitives := { samplePrimitives with
  signDetached := fun _ _ ↦ partSignature
  verifyDetached := fun signature message publicKey ↦
    signature = partSignature ∧ message = chunkSigMessage sampleFileId.hex 0 partHash ∧
      publicKey = sampleSender
  sha256 := fun m ↦
    if m = sampleContent then sampleFileId
    else if m = part then partHash
    else if m = sampleContent.drop 5 then restHash else sampleHash }

/-- The manifest of the file, in two chunks. -/
def manifest : Json := manifestOf primitives () sampleContent "hello.txt" 5

/-- A peer delivers the first chunk. -/
def deliver : FileEvent :=
  .message ⟨sampleSender.hex ++ "#1", sampleSender⟩
    (FileProtocol.encChunkData sampleFileId.hex 0 partHash partSignature part) fun i ↦ i

/-- It does so three times. -/
def events : List FileEvent :=
  [.attach sampleSender, .download manifest ["out.txt"] none fun i ↦ i, deliver, deliver, deliver]

def state : FileNode primitives :=
  events.foldl (next fun _ ↦ none) (new () ⟨["store"], .empty, SampleDownload.disk⟩ 8)

theorem reachable : (machine fun _ ↦ none).Reachable state :=
  ⟨_, events, ⟨(), ⟨["store"], .empty, SampleDownload.disk⟩, 8, rfl⟩,
    Machine.run_foldl (fun _ _ _ ↦ Machine.step_ofFun trivial) Machine.feasible_true⟩

end SampleParts

open SampleParts in
/-- One of two chunks, delivered three times, is counted three times. -/
theorem not_progress_exact : ∃ d, (machine fun _ ↦ none).Reachable state ∧
    state.downloads.get? Manifest.sampleFileId.hex = some d ∧
      loopCount (d.manifest.get "nb_chunks") = some 2 ∧ d.needed.card = 1 ∧ d.received = 3 ∧
      ¬state.Exact := by
  obtain ⟨d, hd, hcounts⟩ : ∃ d, state.downloads.get? Manifest.sampleFileId.hex = some d ∧
      (loopCount (d.manifest.get "nb_chunks"), d.needed.card, d.received) = (some 2, 1, 3) :=
    Option.map_eq_some_iff.mp (by decide +kernel)
  obtain ⟨htotal, hcounts⟩ := Prod.mk.inj hcounts
  obtain ⟨hneeded, hreceived⟩ := Prod.mk.inj hcounts
  refine ⟨d, reachable, hd, htotal, hneeded, hreceived, fun hexact ↦ ?_⟩
  obtain ⟨n, hn, hright⟩ := hexact.counted _ d hd
  obtain rfl := Option.some.inj (hn.symm.trans htotal)
  rw [hneeded, hreceived] at hright
  exact absurd hright (by decide)

end FileNode

end AttestP2P
