import AttestP2P.File.Assignments
import AttestP2P.File.Knowledge

/-!
# Rarest first

`_schedule` requests as many chunks as there is room for, the rarest of those that it can get, each
from a peer with the fewest requests.  How rare a chunk is, `_availabilityCount` tells from
`peerHave`: it counts whoever has announced the chunk, whether or not there is a session with that
peer, while `_peersForChunk` looks for the session as well.

A closed session is taken out of `sessions` and `peerHave` alike, so that the two agree for as long
as nobody speaks who is not attached.  A message that is handed over later makes an entry of
`peerHave` that stays.

* `RarestFirst`: the requests are saturating, balanced, and the rarest by a given count.
* `schedule_rarest_first`: they are, by the count of the code; and by the number of attached peers
  (`announcers`), if messages only came from sessions that were attached (`Attended`).
* `not_rarest_first`: a message of a closed session makes a chunk look more common than it is, and
  one that two attached peers have is requested before one that a single peer has.
-/

set_option autoImplicit false

namespace AttestP2P

namespace Knowledge

variable {P : Primitives} {jsonParse : Buffer → Option Json} {k : Knowledge} {e : FileEvent}

/-- Messages come from sessions that are attached. -/
def FromAttached (k : Knowledge) (e : FileEvent) : Prop :=
  ∀ session buf rank, e = .message session buf rank → k.sessions.has session.peerHex = true

/-- Nothing is remembered of peers that are not attached. -/
def Attached (k : Knowledge) : Prop :=
  ∀ peerHex, k.peerHave.has peerHex = true → k.sessions.has peerHex = true

theorem Attached.addHave {peerHex f : String} {chunks : Finset ℕ} (h : k.Attached)
    (hsession : k.sessions.has peerHex = true) : (k.addHave peerHex f chunks).Attached := by
  intro peer hpeer
  rw [Knowledge.addHave, OrderedMap.has_iff, OrderedMap.mem_keys_set] at hpeer
  rcases hpeer with rfl | hpeer
  · exact hsession
  · exact h peer (OrderedMap.has_iff.mpr hpeer)

theorem Attached.register (h : k.Attached) (m : Json) : (k.register m).Attached := by
  rw [Knowledge.register]
  split
  · exact h
  · exact h

/-- An event that is not a message changes both maps alike, and a message adds to the entry of an
attached peer. -/
theorem Attached.learn (h : k.Attached) (he : k.FromAttached e) :
    (k.learn P jsonParse e).Attached := by
  cases e with
  | attach peerId =>
    intro peer hpeer
    rw [Knowledge.learn, Knowledge.attach, OrderedMap.has_iff, OrderedMap.mem_keys_set] at hpeer ⊢
    refine hpeer.imp_right fun hmem ↦ ?_
    exact OrderedMap.has_iff.mp (h peer (OrderedMap.has_iff.mpr hmem))
  | close peerHex rank =>
    intro peer hpeer
    rw [Knowledge.learn, Knowledge.close, OrderedMap.has, OrderedMap.get?_delete] at hpeer ⊢
    split at hpeer
    · cases hpeer
    · next hne =>
      rw [if_neg hne]
      exact h peer hpeer
  | timer t rank => exact h
  | download m outPath parallel rank => exact h.register m
  | seed m filePath => exact h.register m
  | message session buf rank =>
    have hsession := he session buf rank rfl
    rw [Knowledge.learn]
    split
    · split
      · exact h.register _
      · exact h
    · rw [Knowledge.onHave]
      split
      · exact h
      · exact h.addHave hsession
    · exact h.addHave hsession
    · exact h

end Knowledge

namespace FileNode

variable {P : Primitives} {s : FileNode P} {d : Download} {f : String}

/-! ## How rare a chunk is

The scheduler counts the records of peers that mention a chunk; it does not look whether they are
still connected.  The two counts agree as long as no message comes from a session that is closed. -/

/-- How many of the attached peers have announced the chunk. -/
def announcers (s : FileNode P) (d : Download) (idx : ℕ) : ℕ :=
  (s.sessions.keys.filter fun peerHex ↦ idx ∈ s.knownChunks peerHex d.fileId).length

/-- If availability is known of attached peers only, it counts them. -/
theorem availabilityCount_eq_announcers (h : s.knowledge.Attached) (idx : ℕ) :
    s.availabilityCount d idx = s.announcers d idx := by
  have hmem (peerHex : String) :
      peerHex ∈ (s.peerHave.entries.filter fun e ↦ offers d.fileId idx e.2).map Prod.fst ↔
        peerHex ∈ s.sessions.keys.filter fun peerHex ↦ idx ∈ s.knownChunks peerHex d.fileId := by
    rw [List.mem_map, List.mem_filter, decide_eq_true_iff]
    constructor
    · rintro ⟨⟨peer, byFile⟩, hentry, rfl⟩
      obtain ⟨hentry, hoffers⟩ := List.mem_filter.mp hentry
      have hget := OrderedMap.mem_entries_iff.mp hentry
      have hhas : s.peerHave.has peer = true := Option.isSome_of_eq_some hget
      exact ⟨OrderedMap.has_iff.mp (h peer hhas), (offers_iff hget).mp hoffers⟩
    · rintro ⟨-, hidx⟩
      cases hget : s.peerHave.get? peerHex with
      | none => exact absurd hidx (by simp [knownChunks, hget])
      | some byFile =>
        exact ⟨(peerHex, byFile), List.mem_filter.mpr
          ⟨OrderedMap.mem_entries_iff.mpr hget, (offers_iff hget).mpr hidx⟩, rfl⟩
  have hperm := (List.perm_ext_iff_of_nodup
    (s.peerHave.nodup.sublist (List.filter_sublist.map Prod.fst))
    (s.sessions.nodup.sublist List.filter_sublist)).mpr hmem
  exact (List.length_map _).symm.trans hperm.length_eq

/-- The node remembers of its peers what some run leaves in which messages come from attached
sessions only.  `_schedule` is called in the middle of events, but what its caller does after that
leaves `sessions` and `peerHave` alone. -/
def Attended (s : FileNode P) : Prop :=
  ∃ (jsonParse : Buffer → Option Json) (signKey : P.SignKey) (store : ChunkStore) (parallel : ℕ)
    (es : List FileEvent),
    Machine.Feasible (fun s e ↦ s.knowledge.FromAttached e) (next jsonParse)
      (new signKey store parallel) es ∧
    s.sessions = (es.foldl (next jsonParse) (new signKey store parallel)).sessions ∧
    s.peerHave = (es.foldl (next jsonParse) (new signKey store parallel)).peerHave

theorem Attended.attached (h : s.Attended) : s.knowledge.Attached := by
  obtain ⟨jsonParse, signKey, store, parallel, es, hes, hsessions, hhave⟩ := h
  have hrun := hes.invariant (I := fun s : FileNode P ↦ s.knowledge.Attached)
    (fun s e hs he ↦ by rw [knowledge_next]; exact hs.learn he) nofun
  intro peerHex hpeer
  rw [knowledge, hhave] at hpeer
  rw [knowledge, hsessions]
  exact hrun peerHex hpeer

/-! ## The requests -/

/-- The requests are for as many eligible chunks as there is room for, the rarest of them by the
given count, and each goes to a peer that has the fewest requests when it is chosen. -/
structure RarestFirst (s : FileNode P) (d : Download) (count : ℕ → ℕ)
    (requests : List (ℕ × ChunkRequest)) : Prop where
  nodup : (requests.map Prod.fst).Nodup
  eligible : ∀ idx ∈ requests.map Prod.fst, s.Eligible d idx
  saturating : requests.length =
    min (d.needed.filter (s.Eligible d)).card (d.parallel - d.inFlight.size)
  rarest : ∀ i ∈ requests.map Prod.fst, ∀ j, s.Eligible d j → j ∉ requests.map Prod.fst →
    count i ≤ count j
  balanced : ∀ (k : ℕ) (e : ℕ × ChunkRequest), requests[k]? = some e →
    s.MayServe d e.1 e.2.peerHex ∧ ∀ peerHex, s.MayServe d e.1 peerHex →
      (d.addRequests (requests.take k)).inFlightForPeer e.2.peerHex ≤
        (d.addRequests (requests.take k)).inFlightForPeer peerHex
  timers : requests.map (fun e ↦ e.2.timer) = List.range' s.nextTimer requests.length

/-- What is taken from a list is not behind what is left. -/
theorem rarest_of_take {key : ℕ → ℕ} {l : List ℕ} (hl : l.Pairwise fun i j ↦ key i ≤ key j)
    {k i j : ℕ} (hi : i ∈ l.take k) (hj : j ∈ l) (hnotMem : j ∉ l.take k) : key i ≤ key j := by
  rw [← List.take_append_drop k l] at hl hj
  exact (List.pairwise_append.mp hl).2.2 i hi j ((List.mem_append.mp hj).resolve_left hnotMem)

/-- What is assigned from the candidates of `_schedule` is rarest first. -/
theorem Assigned.rarestFirst {rank : ℕ → ℕ} {requests : List (ℕ × ChunkRequest)}
    (h : s.Assigned d (s.candidates d rank) requests) :
    s.RarestFirst d (s.availabilityCount d) requests := by
  have hnodup := nodup_candidates s d rank
  obtain ⟨hidxs, hchosen, htimers⟩ := h
  set eligible := (s.candidates d rank).filter fun idx ↦
    !d.inFlight.has idx && s.peersForChunk d idx ≠ []
  have hsorted := (pairwise_candidates s d rank).filter fun idx ↦
    !d.inFlight.has idx && s.peersForChunk d idx ≠ []
  have hcard : eligible.length = (d.needed.filter (s.Eligible d)).card := by
    rw [← List.toFinset_card_of_nodup (hnodup.filter _)]
    refine congrArg Finset.card (Finset.ext fun idx ↦ ?_)
    rw [List.mem_toFinset, mem_filter_candidates, Finset.mem_filter]
    exact ⟨fun h ↦ ⟨h.needed, h⟩, And.right⟩
  refine ⟨?_, fun idx hidx ↦ ?_, ?_, fun i hi j hj hnotMem ↦ ?_, fun k e he ↦ ?_, htimers⟩
  · rw [hidxs]
    exact (hnodup.filter _).sublist (List.take_sublist _ _)
  · rw [hidxs] at hidx
    exact mem_filter_candidates.mp (List.mem_of_mem_take hidx)
  · rw [← List.length_map (f := Prod.fst), hidxs, List.length_take, hcard, min_comm]
  · rw [hidxs] at hi hnotMem
    exact rarest_of_take hsorted hi (mem_filter_candidates.mpr hj) hnotMem
  · have hpeer := hchosen k e he
    refine ⟨mayServe_addRequests.mp (mayServe_of_choosePeer hpeer), fun peerHex h ↦ ?_⟩
    exact inFlightForPeer_choosePeer_le hpeer (mayServe_addRequests.mpr h)

/-- Where there is room for one request and two chunks are eligible, it is for the rarer one. -/
theorem RarestFirst.map_fst_eq {count : ℕ → ℕ} {requests : List (ℕ × ChunkRequest)} {i j : ℕ}
    (h : s.RarestFirst d count requests) (hroom : d.parallel - d.inFlight.size = 1)
    (heligible : ∀ idx, s.Eligible d idx ↔ idx = i ∨ idx = j) (hlt : count i < count j) :
    requests.map Prod.fst = [i] := by
  have hi : i ∈ d.needed.filter (s.Eligible d) := by
    have hi := (heligible i).mpr (.inl rfl)
    exact Finset.mem_filter.mpr ⟨hi.needed, hi⟩
  have hlength : requests.length = 1 := by
    have hpos := Finset.card_pos.mpr ⟨i, hi⟩
    rw [h.saturating, hroom]
    omega
  obtain ⟨e, rfl⟩ := List.length_eq_one_iff.mp hlength
  have hmem : e.1 ∈ [e].map Prod.fst := List.mem_singleton_self e.1
  refine congrArg (fun idx ↦ [idx]) (((heligible e.1).mp (h.eligible _ hmem)).resolve_right ?_)
  intro hj
  have hne : i ∉ [e].map Prod.fst := by
    rintro hi
    obtain rfl := List.mem_singleton.mp hi
    exact hlt.ne (congrArg count hj)
  have hle := h.rarest e.1 hmem i ((heligible i).mpr (.inl rfl)) hne
  rw [hj] at hle
  omega

/-- **`_schedule` is rarest first, saturating and balanced**, and does nothing else.  Rarity is what
`_availabilityCount` says; in a node that was only told things by attached sessions it is the number
of attached peers that have announced the chunk. -/
theorem schedule_rarest_first (hd : s.downloads.get? f = some d) (hkey : d.fileId = f)
    (hdone : d.done = false) (rank : ℕ → ℕ) :
    ∃ requests, s.schedule f rank = s.addRequests d requests ∧
      s.RarestFirst d (s.availabilityCount d) requests ∧
      (s.Attended → s.RarestFirst d (s.announcers d) requests) := by
  subst hkey
  have hschedule : s.schedule d.fileId rank = s.requestAll d (s.candidates d rank) := by
    rw [schedule, hd]
    exact if_neg (by simp [hdone])
  obtain ⟨requests, heq, hassigned⟩ := requestAll_eq _ hd (nodup_candidates s d rank)
  refine ⟨requests, hschedule.trans heq, hassigned.rarestFirst, fun hattended ↦ ?_⟩
  have hcount : s.availabilityCount d = s.announcers d :=
    funext (availabilityCount_eq_announcers hattended.attached)
  exact hcount ▸ hassigned.rarestFirst

namespace SampleSchedule

/-- A peer announces a chunk of the file. -/
def piece (peerHex : String) (idx : ℕ) : FileEvent :=
  .message ⟨peerHex, [0]⟩ (FileProtocol.encHavePiece Manifest.sampleFileId.hex idx) fun i ↦ i

/-- One chunk at a time is downloaded.  When the first has been requested, it turns out that both
peers have it, and that one of them has the second. -/
def events : List FileEvent :=
  [.attach [0], .attach [1], piece "00#1" 0,
    .download SampleDownload.twoChunks ["out.txt"] (some 1) fun i ↦ i, piece "01#2" 0,
    piece "01#2" 1]

/-- There were two more peers, whose announcements of the second chunk come after their sessions
have been closed. -/
def lateEvents : List FileEvent :=
  [.attach [0], .attach [1], .attach [2], .attach [3],
    .close "02#3" fun _ i ↦ i, .close "03#4" fun _ i ↦ i,
    piece "00#1" 0, .download SampleDownload.twoChunks ["out.txt"] (some 1) fun i ↦ i,
    piece "01#2" 0, piece "01#2" 1, piece "02#3" 1, piece "03#4" 1]

def node (es : List FileEvent) : FileNode Manifest.samplePrimitives :=
  es.foldl (next fun _ ↦ none) SampleDownload.start

/-- The node when the timer of the request for a chunk has fired: the request has been taken out,
and `_schedule` is about to be called. -/
def timedOut (es : List FileEvent) (idx : ℕ) : FileNode Manifest.samplePrimitives :=
  match (node es).downloads.get? Manifest.sampleFileId.hex with
  | none => node es
  | some d => ((node es).clearTimer 1).release d idx

theorem sessions_timedOut (es : List FileEvent) (idx : ℕ) :
    (timedOut es idx).sessions = (node es).sessions ∧
      (timedOut es idx).peerHave = (node es).peerHave := by
  have hrelease (d : Download) (s : FileNode Manifest.samplePrimitives) :
      (s.release d idx).sessions = s.sessions ∧ (s.release d idx).peerHave = s.peerHave := by
    rw [FileNode.release]
    split
    · exact ⟨rfl, rfl⟩
    · exact ⟨rfl, rfl⟩
  rw [timedOut]
  split
  · exact ⟨rfl, rfl⟩
  · exact hrelease _ ((node es).clearTimer 1)

theorem attended_events (idx : ℕ) : (timedOut events idx).Attended := by
  have hpiece (s : FileNode Manifest.samplePrimitives) (peerHex : String) (i : ℕ)
      (h : s.sessions.has peerHex = true) : s.knowledge.FromAttached (piece peerHex i) := by
    rintro session buf rank ⟨⟩
    exact h
  refine ⟨fun _ ↦ none, (), ⟨["store"], .empty, SampleDownload.disk⟩, 8, events, ?_,
    (sessions_timedOut events idx).1, (sessions_timedOut events idx).2⟩
  exact ⟨nofun, nofun, hpiece _ _ _ (by decide +kernel), nofun, hpiece _ _ _ (by decide +kernel),
    hpiece _ _ _ (by decide +kernel), trivial⟩

theorem fromSession_lateEvents : Machine.Feasible (fun s e ↦ s.knowledge.FromSession e)
    (next fun _ ↦ none) SampleDownload.start lateEvents := by
  have hpiece (s : FileNode Manifest.samplePrimitives) (peerId : Buffer) (n i : ℕ)
      (hn : n ≤ s.seq) : s.knowledge.FromSession (piece (peerId.hex ++ "#" ++ Nat.repr n) i) := by
    rintro session buf rank ⟨⟩
    exact ⟨peerId, n, hn, rfl⟩
  exact ⟨nofun, nofun, nofun, nofun, nofun, nofun, hpiece _ [0] 1 0 (by decide +kernel), nofun,
    hpiece _ [1] 2 0 (by decide +kernel), hpiece _ [1] 2 1 (by decide +kernel),
    hpiece _ [2] 3 1 (by decide +kernel), hpiece _ [3] 4 1 (by decide +kernel), trivial⟩

/-- Both chunks are eligible, and there is room for one request. -/
theorem download_lateEvents :
    ((timedOut lateEvents 0).downloads.get? Manifest.sampleFileId.hex).map (fun d ↦
      (d.fileId, d.done, d.inFlight.has 0, d.parallel - d.inFlight.size,
        d.needed.filter ((timedOut lateEvents 0).Eligible d))) =
      some (Manifest.sampleFileId.hex, false, false, 1, {0, 1}) := by decide +kernel

/-- Three entries of `peerHave` have the second chunk, but only one of them is of a session. -/
theorem counts_lateEvents :
    ((timedOut lateEvents 0).downloads.get? Manifest.sampleFileId.hex).map (fun d ↦
      ((timedOut lateEvents 0).availabilityCount d 0, (timedOut lateEvents 0).availabilityCount d 1,
        (timedOut lateEvents 0).announcers d 0, (timedOut lateEvents 0).announcers d 1)) =
      some (2, 3, 2, 1) := by decide +kernel

end SampleSchedule

open SampleSchedule in
/-- There is room for one request, and it is for the chunk that only one of the peers has. -/
theorem schedule_rarest_first_sample : ∃ d requests,
    (timedOut events 0).downloads.get? Manifest.sampleFileId.hex = some d ∧
    (timedOut events 0).schedule Manifest.sampleFileId.hex (fun i ↦ i) =
      (timedOut events 0).addRequests d requests ∧
    requests.length = 1 ∧
    (timedOut events 0).RarestFirst d ((timedOut events 0).availabilityCount d) requests ∧
    (timedOut events 0).RarestFirst d ((timedOut events 0).announcers d) requests := by
  have hview : ((timedOut events 0).downloads.get? Manifest.sampleFileId.hex).map (fun d ↦
      (d.fileId, d.done, min (d.needed.filter ((timedOut events 0).Eligible d)).card
        (d.parallel - d.inFlight.size))) = some (Manifest.sampleFileId.hex, false, 1) := by
    decide +kernel
  obtain ⟨d, hd, heq⟩ := Option.map_eq_some_iff.mp hview
  obtain ⟨hkey, hrest⟩ := Prod.mk.inj heq
  obtain ⟨hdone, hmin⟩ := Prod.mk.inj hrest
  obtain ⟨requests, hschedule, hrarest, hattended⟩ := schedule_rarest_first hd hkey hdone fun i ↦ i
  exact ⟨d, requests, hd, hschedule, hrarest.saturating.trans hmin, hrarest,
    hattended (attended_events 0)⟩

open SampleSchedule in
/-- **A message that comes too late.**  The timer of the request for the first chunk fires, and
`_schedule` requests it again, though two attached peers have it and one has the second chunk, which
is eligible as well. -/
theorem not_rarest_first : Machine.Feasible (fun s e ↦ s.knowledge.FromSession e)
      (next fun _ ↦ none) SampleDownload.start lateEvents ∧
    (node lateEvents).fire 1 (fun i ↦ i) =
      (timedOut lateEvents 0).schedule Manifest.sampleFileId.hex (fun i ↦ i) ∧
    ∃ d, (timedOut lateEvents 0).downloads.get? Manifest.sampleFileId.hex = some d ∧
      d.fileId = Manifest.sampleFileId.hex ∧ d.done = false ∧
      ¬∃ requests, (timedOut lateEvents 0).schedule Manifest.sampleFileId.hex (fun i ↦ i) =
          (timedOut lateEvents 0).addRequests d requests ∧
        (timedOut lateEvents 0).RarestFirst d ((timedOut lateEvents 0).announcers d) requests := by
  refine ⟨fromSession_lateEvents, ?_, ?_⟩
  · have hdownload : ((node lateEvents).downloads.get? Manifest.sampleFileId.hex).map
        (fun d ↦ d.inFlight.has 0) = some true := by decide +kernel
    obtain ⟨d, hd, hflight⟩ := Option.map_eq_some_iff.mp hdownload
    have htimer : (node lateEvents).timers.get? 1 =
        some (.request Manifest.sampleFileId.hex 0) := by
      have hview : ((node lateEvents).timers.get? 1).map (fun t ↦ match t with
          | .request f idx => (f, idx)
          | .tick f => (f, 2)) = some (Manifest.sampleFileId.hex, 0) := by decide +kernel
      obtain ⟨timer, htimer, heq⟩ := Option.map_eq_some_iff.mp hview
      cases timer with
      | request f idx =>
        obtain ⟨rfl, rfl⟩ := Prod.mk.inj heq
        exact htimer
      | tick f => cases heq
    have hcleared : ((node lateEvents).clearTimer 1).downloads.get? Manifest.sampleFileId.hex =
        some d := hd
    rw [timedOut, hd, fire, htimer]
    dsimp only
    rw [onTimeout, hcleared]
    exact if_pos hflight
  · obtain ⟨d, hd, hstate⟩ := Option.map_eq_some_iff.mp download_lateEvents
    have hcounts := counts_lateEvents
    rw [hd, Option.map_some, Option.some.injEq] at hcounts
    simp only [Prod.mk.injEq] at hstate hcounts
    obtain ⟨hkey, hdone, hidle, hroom, hneeded⟩ := hstate
    obtain ⟨hzero, hone, hzero', hone'⟩ := hcounts
    have heligible (idx : ℕ) : (timedOut lateEvents 0).Eligible d idx ↔ idx = 0 ∨ idx = 1 := by
      have hmem := Finset.ext_iff.mp hneeded idx
      rw [Finset.mem_filter, Finset.mem_insert, Finset.mem_singleton] at hmem
      exact ⟨fun h ↦ hmem.mp ⟨h.needed, h⟩, fun h ↦ (hmem.mpr h).2⟩
    refine ⟨d, hd, hkey, hdone, ?_⟩
    rintro ⟨requests, hschedule, hrarest⟩
    have hkey' : (timedOut lateEvents 0).downloads.get? d.fileId = some d := hkey ▸ hd
    obtain ⟨requests', heq, hassigned⟩ := requestAll_eq _ hkey'
      (nodup_candidates (timedOut lateEvents 0) d fun i ↦ i)
    have hschedule' : (timedOut lateEvents 0).schedule Manifest.sampleFileId.hex (fun i ↦ i) =
        (timedOut lateEvents 0).addRequests d requests' := by
      rw [schedule, hd, ← heq]
      exact if_neg (by simp [hdone])
    -- the code takes the second chunk for the more common one
    have hcode := hassigned.rarestFirst.map_fst_eq hroom heligible (by omega)
    have hclaim := hrarest.map_fst_eq hroom (fun idx ↦ (heligible idx).trans or_comm) (by omega)
    have hsame := congrArg (fun s ↦ (s.downloads.get? d.fileId).map fun d ↦ d.inFlight.has 0)
      (hschedule.symm.trans hschedule')
    simp only [addRequests, OrderedMap.get?_set_self, Option.map_some, Option.some.injEq] at hsame
    have hrequested : (d.addRequests requests').inFlight.has 0 = true :=
      has_inFlight_addRequests.mpr (.inr (hcode ▸ List.mem_singleton_self 0))
    rw [← hsame, has_inFlight_addRequests, hidle, hclaim] at hrequested
    simp at hrequested

end FileNode

end AttestP2P
