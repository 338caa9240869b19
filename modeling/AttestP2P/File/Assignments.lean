import AttestP2P.File.Effects
import AttestP2P.File.Scheduler
import AttestP2P.Lib.StableMin

/-!
# What `_schedule` requests

`requestAll` goes through the chunks that may be requested, rarest first, and stops when enough
requests are in flight.  Which chunks these are, and whom they are requested from, is settled by the
state in which the loop begins.

* `Assigned` describes the requests that go out when given chunks are gone through, one after the
  other.
* `requestAll_eq` says what becomes of the node in one equation, whatever the order of the chunks.
* `choosePeer_eq_some_iff`: the peer that is chosen, among all that may serve the chunk.
* `Eligible`, `mem_filter_candidates`: the chunks that a request may go out for are those among the
  candidates of `_schedule` that are not in flight and that some peer may serve.
-/

set_option autoImplicit false

namespace AttestP2P

namespace Download

/-- The requests are in flight. -/
def addRequests (d : Download) (requests : List (ℕ × ChunkRequest)) : Download :=
  { d with inFlight := requests.foldl (fun m e ↦ m.set e.1 e.2) d.inFlight }

end Download

namespace FileNode

variable {P : Primitives} {s : FileNode P} {d : Download} {f : String}

/-- The requests go out, each with a timer, and nothing else happens. -/
def addRequests (s : FileNode P) (d : Download) (requests : List (ℕ × ChunkRequest)) :
    FileNode P := { s with
  downloads := s.downloads.set d.fileId (d.addRequests requests)
  timers := requests.foldl (fun m e ↦ m.set e.2.timer (.request d.fileId e.1)) s.timers
  nextTimer := s.nextTimer + requests.length
  sent := s.sent ++ requests.map fun e ↦ (e.2.peerHex, FileProtocol.encChunkReq d.fileId e.1) }

theorem addRequests_nil (hd : s.downloads.get? d.fileId = some d) : s.addRequests d [] = s := by
  have hset : s.downloads.set d.fileId (d.addRequests []) = s.downloads :=
    OrderedMap.set_eq_self hd
  rw [addRequests, hset, List.map_nil, List.append_nil]
  rfl

/-- A request, and then the others. -/
theorem addRequests_cons (idx : ℕ) (peerHex : String) (requests : List (ℕ × ChunkRequest)) :
    (((s.setTimer (.request d.fileId idx)).putDownload
      (d.request idx peerHex s.nextTimer)).safeSend peerHex
        (FileProtocol.encChunkReq d.fileId idx)).addRequests
          (d.request idx peerHex s.nextTimer) requests =
      s.addRequests d ((idx, ⟨peerHex, s.nextTimer⟩) :: requests) := by
  have hset : (s.downloads.set d.fileId (d.request idx peerHex s.nextTimer)).set d.fileId
      (d.addRequests ((idx, ⟨peerHex, s.nextTimer⟩) :: requests)) =
        s.downloads.set d.fileId (d.addRequests ((idx, ⟨peerHex, s.nextTimer⟩) :: requests)) :=
    OrderedMap.set_set _
  rw [addRequests, addRequests, ← hset, List.map_cons, List.length_cons, List.append_cons,
    Nat.add_comm requests.length 1, ← Nat.add_assoc]
  rfl

theorem has_inFlight_addRequests {requests : List (ℕ × ChunkRequest)} {idx : ℕ} :
    (d.addRequests requests).inFlight.has idx = true ↔
      d.inFlight.has idx = true ∨ idx ∈ requests.map Prod.fst := by
  have hfold (m : OrderedMap ℕ ChunkRequest) :
      (requests.foldl (fun m e ↦ m.set e.1 e.2) m).has idx = true ↔
        m.has idx = true ∨ idx ∈ requests.map Prod.fst := by
    induction requests generalizing m with
    | nil => simp
    | cons e requests ih =>
      rw [List.foldl_cons, ih, OrderedMap.has_iff, OrderedMap.mem_keys_set, OrderedMap.has_iff,
        List.map_cons, List.mem_cons]
      tauto
  exact hfold d.inFlight

/-! ## Peers -/

theorem choosePeer_eq_none {idx : ℕ} : s.choosePeer d idx = none ↔ s.peersForChunk d idx = [] := by
  rw [choosePeer, List.head?_eq_none_iff, ← List.length_eq_zero_iff, List.length_mergeSort,
    List.length_eq_zero_iff]

theorem nodup_peersForChunk (s : FileNode P) (d : Download) (idx : ℕ) :
    (s.peersForChunk d idx).Nodup :=
  s.peerHave.nodup.sublist (List.filter_sublist.map Prod.fst)

/-- **The peer that is chosen** comes before all others that may serve the chunk, by the number of
requests to it and then by age. -/
theorem choosePeer_eq_some_iff {idx : ℕ} {peerHex : String} :
    s.choosePeer d idx = some peerHex ↔ s.MayServe d idx peerHex ∧ ∀ peer, s.MayServe d idx peer →
      peer ≠ peerHex → StableMin.Before d.inFlightForPeer (s.peersForChunk d idx) peerHex peer := by
  rw [choosePeer, StableMin.head?_mergeSort_iff (nodup_peersForChunk s d idx), mem_peersForChunk]
  simp only [mem_peersForChunk]

/-- The peer that is chosen has the fewest requests. -/
theorem inFlightForPeer_choosePeer_le {idx : ℕ} {peerHex peer : String}
    (h : s.choosePeer d idx = some peerHex) (hpeer : s.MayServe d idx peer) :
    d.inFlightForPeer peerHex ≤ d.inFlightForPeer peer := by
  by_cases hne : peer = peerHex
  · rw [hne]
  · rcases (choosePeer_eq_some_iff.mp h).2 peer hpeer hne with hlt | ⟨heq, -⟩
    · exact hlt.le
    · exact heq.le

/-! ## The loop

A turn of the loop asks one more peer, which from then on counts for the choice of the next one.  So
the requests are told in the order in which they go out. -/

/-- Requests make no difference to who may serve a chunk. -/
theorem mayServe_addRequests {requests : List (ℕ × ChunkRequest)} {idx : ℕ} {peerHex : String} :
    s.MayServe (d.addRequests requests) idx peerHex ↔ s.MayServe d idx peerHex :=
  ⟨fun h ↦ ⟨h.connected, h.announced, h.notBad⟩, fun h ↦ ⟨h.connected, h.announced, h.notBad⟩⟩

/-- The requests that go out when these chunks are gone through. -/
structure Assigned (s : FileNode P) (d : Download) (idxs : List ℕ)
    (requests : List (ℕ × ChunkRequest)) : Prop where
  idxs : requests.map Prod.fst = (idxs.filter fun idx ↦
    !d.inFlight.has idx && s.peersForChunk d idx ≠ []).take (d.parallel - d.inFlight.size)
  chosen : ∀ (k : ℕ) (e : ℕ × ChunkRequest), requests[k]? = some e →
    s.choosePeer (d.addRequests (requests.take k)) e.1 = some e.2.peerHex
  timers : requests.map (fun e ↦ e.2.timer) = List.range' s.nextTimer requests.length

theorem Assigned.nil {idxs : List ℕ} (h : (idxs.filter fun idx ↦
    !d.inFlight.has idx && s.peersForChunk d idx ≠ []).take (d.parallel - d.inFlight.size) = []) :
    s.Assigned d idxs [] := ⟨h.symm, by simp, rfl⟩

theorem peersForChunk_congr {s' : FileNode P} (hsessions : s'.sessions = s.sessions)
    (hhave : s'.peerHave = s.peerHave) (idx : ℕ) :
    s'.peersForChunk d idx = s.peersForChunk d idx := by
  rw [peersForChunk, peersForChunk, hsessions, hhave]

theorem has_inFlight_request {idx j : ℕ} (h : j ≠ idx) (peerHex : String) (timer : ℕ) :
    (d.request idx peerHex timer).inFlight.has j = d.inFlight.has j := by
  rw [Download.request, OrderedMap.has, OrderedMap.get?_set_of_ne h, OrderedMap.has]

/-- One more request goes out, before the others. -/
theorem Assigned.cons {s' : FileNode P} {idx : ℕ} {idxs : List ℕ} {peerHex : String}
    {requests : List (ℕ × ChunkRequest)}
    (h : s'.Assigned (d.request idx peerHex s.nextTimer) idxs requests) (hnotMem : idx ∉ idxs)
    (hroom : d.inFlight.size < d.parallel) (hflight : d.inFlight.has idx = false)
    (hpeer : s.choosePeer d idx = some peerHex) (hsessions : s'.sessions = s.sessions)
    (hhave : s'.peerHave = s.peerHave) (htimer : s'.nextTimer = s.nextTimer + 1) :
    s.Assigned d (idx :: idxs) ((idx, ⟨peerHex, s.nextTimer⟩) :: requests) := by
  have hsize : (d.request idx peerHex s.nextTimer).inFlight.size = d.inFlight.size + 1 := by
    refine OrderedMap.size_set_of_notMem fun hmem ↦ ?_
    rw [OrderedMap.has_iff.mpr hmem] at hflight
    exact nomatch hflight
  have husable : s.peersForChunk d idx ≠ [] := by
    intro hnil
    rw [choosePeer_eq_none.mpr hnil] at hpeer
    exact nomatch hpeer
  refine ⟨?_, fun k e he ↦ ?_, ?_⟩
  · have hrest : d.parallel - d.inFlight.size = d.parallel - (d.inFlight.size + 1) + 1 := by omega
    rw [List.filter_cons_of_pos (by simp [hflight, husable]), List.map_cons, h.idxs, hsize, hrest,
      List.take_succ_cons]
    refine congrArg (fun l ↦ idx :: List.take _ l) (List.filter_congr fun j hj ↦ ?_)
    have hne : j ≠ idx := by
      rintro rfl
      exact hnotMem hj
    rw [has_inFlight_request hne, peersForChunk_congr hsessions hhave]
    rfl
  · cases k with
    | zero =>
      obtain rfl := Option.some.inj he
      exact hpeer
    | succ k =>
      have hchosen := h.chosen k e he
      rwa [choosePeer, peersForChunk_congr hsessions hhave] at hchosen
  · rw [List.map_cons, List.length_cons, List.range'_succ, h.timers, htimer]

/-- **The loop of `_schedule`**, whatever the order of the chunks. -/
theorem requestAll_eq (idxs : List ℕ) (hd : s.downloads.get? d.fileId = some d)
    (hnodup : idxs.Nodup) : ∃ requests, s.requestAll d idxs = s.addRequests d requests ∧
      s.Assigned d idxs requests := by
  induction idxs generalizing s d with
  | nil => exact ⟨[], (addRequests_nil hd).symm, .nil List.take_nil⟩
  | cons idx idxs ih =>
    obtain ⟨hnotMem, hnodup⟩ := List.nodup_cons.mp hnodup
    rw [requestAll]
    split
    · next hfull =>
      refine ⟨[], (addRequests_nil hd).symm, .nil ?_⟩
      rw [Nat.sub_eq_zero_of_le hfull, List.take_zero]
    · next hroom =>
      split
      · next hflight =>
        obtain ⟨requests, heq, hassigned⟩ := ih hd hnodup
        refine ⟨requests, heq, ?_, hassigned.chosen, hassigned.timers⟩
        rw [List.filter_cons_of_neg (by simp [hflight]), hassigned.idxs]
      · next hflight =>
        cases hpeer : s.choosePeer d idx with
        | none =>
          obtain ⟨requests, heq, hassigned⟩ := ih hd hnodup
          refine ⟨requests, heq, ?_, hassigned.chosen, hassigned.timers⟩
          rw [List.filter_cons_of_neg (by simp [choosePeer_eq_none.mp hpeer]), hassigned.idxs]
        | some peerHex =>
          have hget := get?_putDownload_self (s.setTimer (.request d.fileId idx))
            (d.request idx peerHex s.nextTimer)
          obtain ⟨requests, heq, hassigned⟩ := ih (s := ((s.setTimer
            (.request d.fileId idx)).putDownload (d.request idx peerHex s.nextTimer)).safeSend
              peerHex (FileProtocol.encChunkReq d.fileId idx)) hget hnodup
          dsimp only
          rw [heq, addRequests_cons]
          exact ⟨_, rfl, hassigned.cons hnotMem (Nat.not_le.mp hroom)
            (eq_false_of_ne_true hflight) hpeer rfl rfl rfl⟩

/-! ## The requests are determined

Which requests go out depends on the chunks that are gone through, and on nothing that happens after
the loop has begun.  Two descriptions of them are one, and a beginning of the chunks leads to a
beginning of the requests. -/

/-- Sessions and availability say who is chosen. -/
theorem choosePeer_congr {s' : FileNode P} (hsessions : s'.sessions = s.sessions)
    (hhave : s'.peerHave = s.peerHave) (d : Download) (idx : ℕ) :
    s'.choosePeer d idx = s.choosePeer d idx := by
  rw [choosePeer, choosePeer, peersForChunk_congr hsessions hhave]

theorem Assigned.congr {s' : FileNode P} {idxs : List ℕ} {requests : List (ℕ × ChunkRequest)}
    (h : s.Assigned d idxs requests) (hsessions : s'.sessions = s.sessions)
    (hhave : s'.peerHave = s.peerHave) (htimer : s'.nextTimer = s.nextTimer) :
    s'.Assigned d idxs requests := by
  refine ⟨?_, fun k e he ↦ ?_, by rw [htimer]; exact h.timers⟩
  · simp only [peersForChunk_congr hsessions hhave]
    exact h.idxs
  · rw [choosePeer_congr hsessions hhave]
    exact h.chosen k e he

/-- **The requests are determined**: each by those before it. -/
theorem Assigned.unique {idxs : List ℕ} {requests requests' : List (ℕ × ChunkRequest)}
    (h : s.Assigned d idxs requests) (h' : s.Assigned d idxs requests') : requests = requests' := by
  have hidxs := h.idxs.trans h'.idxs.symm
  have hlength : requests.length = requests'.length := by
    simpa only [List.length_map] using congrArg List.length hidxs
  have htimers : requests.map (fun e ↦ e.2.timer) = requests'.map fun e ↦ e.2.timer := by
    rw [h.timers, h'.timers, hlength]
  have htake (k : ℕ) : requests.take k = requests'.take k := by
    induction k with
    | zero => rfl
    | succ k ih =>
      rw [List.take_add_one, List.take_add_one, ih]
      refine congrArg (fun o ↦ requests'.take k ++ Option.toList o) ?_
      have hidx := congrArg (fun l : List ℕ ↦ l[k]?) hidxs
      have htimer := congrArg (fun l : List ℕ ↦ l[k]?) htimers
      simp only [List.getElem?_map] at hidx htimer
      cases he : requests[k]? with
      | none =>
        rw [List.getElem?_eq_none_iff, hlength] at he
        exact (List.getElem?_eq_none he).symm
      | some e =>
        cases he' : requests'[k]? with
        | none =>
          rw [he, he'] at hidx
          cases hidx
        | some e' =>
          rw [he, he', Option.map_some, Option.map_some, Option.some.injEq] at hidx htimer
          have hpeer : some e.2.peerHex = some e'.2.peerHex := by
            rw [← h.chosen k e he, ← h'.chosen k e' he', ih, hidx]
          obtain ⟨i, peer, timer⟩ := e
          obtain ⟨i', peer', timer'⟩ := e'
          obtain rfl : i = i' := hidx
          obtain rfl : timer = timer' := htimer
          obtain rfl : peer = peer' := Option.some.inj hpeer
          rfl
  rw [← List.take_length (l := requests), htake, hlength, List.take_length]

/-- A prefix of the requests is what is assigned from a prefix of the chunks. -/
theorem Assigned.take {idxs : List ℕ} {requests : List (ℕ × ChunkRequest)} {ahead : List ℕ} {k : ℕ}
    (h : s.Assigned d idxs requests) (hahead : (requests.take k).map Prod.fst =
      (ahead.filter fun idx ↦ !d.inFlight.has idx && s.peersForChunk d idx ≠ []).take
        (d.parallel - d.inFlight.size)) : s.Assigned d ahead (requests.take k) := by
  refine ⟨hahead, fun j e he ↦ ?_, ?_⟩
  · have hj : j < k := by
      by_contra hle
      rw [List.getElem?_eq_none (by simp; omega)] at he
      cases he
    rw [List.getElem?_take_of_lt hj] at he
    rw [List.take_take, min_eq_left hj.le]
    exact h.chosen j e he
  · have htimers := congrArg (List.take (requests.take k).length) h.timers
    have hle : (requests.take k).length ≤ requests.length := List.length_take_le' k requests
    rw [List.take_range'_of_length_ge hle] at htimers
    rw [← htimers, ← List.map_take, List.length_take, ← List.take_eq_take_min]

/-- **A chunk among others**: those ahead of it are handed out, and if there is still room, it goes
to the peer that is then chosen. -/
theorem Assigned.split {ahead behind : List ℕ} {idx : ℕ} {requests : List (ℕ × ChunkRequest)}
    (h : s.Assigned d (ahead ++ idx :: behind) requests) (hidle : d.inFlight.has idx = false)
    (hserved : ∃ peerHex, s.MayServe d idx peerHex) :
    ∃ requests₁, s.Assigned d ahead requests₁ ∧
      (d.inFlight.size + requests₁.length < d.parallel → ∃ peerHex timer requests₂,
        requests = requests₁ ++ (idx, ⟨peerHex, timer⟩) :: requests₂ ∧
          s.choosePeer (d.addRequests requests₁) idx = some peerHex) ∧
      (d.parallel ≤ d.inFlight.size + requests₁.length → requests = requests₁) := by
  obtain ⟨peer, hpeer⟩ := hserved
  have husable : (!d.inFlight.has idx && s.peersForChunk d idx ≠ []) = true := by
    rw [hidle]
    simpa using List.ne_nil_of_mem (mem_peersForChunk.mpr hpeer)
  have hidxs := h.idxs
  rw [List.filter_append, List.filter_cons, if_pos husable] at hidxs
  set usable := ahead.filter fun idx ↦ !d.inFlight.has idx && s.peersForChunk d idx ≠ []
  set room := d.parallel - d.inFlight.size with hroom
  by_cases hlt : usable.length < room
  · -- all chunks ahead are handed out, and this one comes next
    have hahead : (requests.take usable.length).map Prod.fst = usable.take room := by
      rw [List.map_take, hidxs, List.take_take, min_eq_left hlt.le, List.take_left,
        List.take_of_length_le hlt.le]
    have hassigned := h.take hahead
    have hget : (requests.map Prod.fst)[usable.length]? = some idx := by
      rw [hidxs, List.getElem?_take_of_lt hlt, List.getElem?_append_right le_rfl, Nat.sub_self]
      rfl
    rw [List.getElem?_map] at hget
    obtain ⟨e, he, rfl⟩ := Option.map_eq_some_iff.mp hget
    have hlength : (requests.take usable.length).length = usable.length := by
      rw [← List.length_map (f := Prod.fst), hahead, List.take_of_length_le hlt.le]
    refine ⟨_, hassigned, fun _ ↦ ⟨e.2.peerHex, e.2.timer, requests.drop (usable.length + 1), ?_,
      h.chosen _ e he⟩, fun hfull ↦ ?_⟩
    · obtain ⟨hk, rfl⟩ := List.getElem?_eq_some_iff.mp he
      exact ((List.take_append_drop usable.length requests).symm.trans
        (by rw [List.drop_eq_getElem_cons hk]))
    · omega
  · -- there is no room for it
    have hahead : requests.map Prod.fst = usable.take room := by
      rw [hidxs, List.take_append_of_le_length (Nat.le_of_not_lt hlt)]
    have hlength := congrArg List.length hahead
    rw [List.length_map, List.length_take] at hlength
    have hassigned := h.take (k := requests.length) (by rwa [List.take_length])
    rw [List.take_length] at hassigned
    exact ⟨requests, hassigned, fun hspare ↦ by omega, fun _ ↦ rfl⟩

/-! ## The candidates of `_schedule`

What is given to the loop: the chunks that are needed and known of, those that fewer peers have
first.  Among chunks that equally many have, the order is drawn at random, which is `rank` here. -/

/-- The chunk is waiting to be requested, and some peer may serve it. -/
structure Eligible (s : FileNode P) (d : Download) (idx : ℕ) : Prop where
  needed : idx ∈ d.needed
  idle : d.inFlight.has idx = false
  served : ∃ peerHex, s.MayServe d idx peerHex

theorem eligible_iff {idx : ℕ} : s.Eligible d idx ↔
    idx ∈ d.needed ∧ (!d.inFlight.has idx && s.peersForChunk d idx ≠ []) = true := by
  have hserved : s.peersForChunk d idx ≠ [] ↔ ∃ peerHex, s.MayServe d idx peerHex := by
    rw [Ne, List.eq_nil_iff_forall_not_mem, not_forall]
    exact exists_congr fun _ ↦ not_not.trans mem_peersForChunk
  rw [Bool.and_eq_true, Bool.not_eq_true', decide_eq_true_iff, hserved]
  exact ⟨fun h ↦ ⟨h.needed, h.idle, h.served⟩, fun h ↦ ⟨h.1, h.2.1, h.2.2⟩⟩

instance : DecidablePred (s.Eligible d) := fun _ ↦ decidable_of_iff _ eligible_iff.symm

theorem mem_candidates {rank : ℕ → ℕ} {idx : ℕ} : idx ∈ s.candidates d rank ↔
    idx ∈ d.needed ∧ (!d.inFlight.has idx && 0 < s.availabilityCount d idx) = true := by
  rw [candidates, List.mem_mergeSort, Finset.mem_sort, Finset.mem_filter]

theorem nodup_candidates (s : FileNode P) (d : Download) (rank : ℕ → ℕ) :
    (s.candidates d rank).Nodup :=
  (List.mergeSort_perm _ _).nodup_iff.mpr (Finset.sort_nodup _ _)

/-- Candidates are ordered by availability. -/
theorem pairwise_candidates (s : FileNode P) (d : Download) (rank : ℕ → ℕ) :
    (s.candidates d rank).Pairwise fun i j ↦
      s.availabilityCount d i ≤ s.availabilityCount d j := by
  refine (List.pairwise_mergeSort (fun a b c hab hbc ↦ ?_) (fun a b ↦ ?_) _).imp fun h ↦ ?_
  · simp only [Bool.or_eq_true, Bool.and_eq_true, decide_eq_true_iff] at hab hbc ⊢
    omega
  · simp only [Bool.or_eq_true, Bool.and_eq_true, decide_eq_true_iff]
    omega
  · simp only [Bool.or_eq_true, Bool.and_eq_true, decide_eq_true_iff] at h
    omega

/-- A chunk that some peer may serve is available. -/
theorem MayServe.availabilityCount_pos {idx : ℕ} {peerHex : String}
    (h : s.MayServe d idx peerHex) : 0 < s.availabilityCount d idx := by
  cases hget : s.peerHave.get? peerHex with
  | none => exact absurd h.announced (by simp [knownChunks, hget])
  | some byFile =>
    have hmem : (peerHex, byFile) ∈ s.peerHave.entries.filter fun e ↦ offers d.fileId idx e.2 :=
      List.mem_filter.mpr ⟨OrderedMap.mem_entries_iff.mpr hget, (offers_iff hget).mpr h.announced⟩
    exact List.length_pos_of_mem hmem

/-- The eligible chunks, rarest first. -/
theorem mem_filter_candidates {rank : ℕ → ℕ} {idx : ℕ} :
    idx ∈ (s.candidates d rank).filter (fun idx ↦
      !d.inFlight.has idx && s.peersForChunk d idx ≠ []) ↔ s.Eligible d idx := by
  rw [List.mem_filter, mem_candidates, eligible_iff, and_assoc]
  refine and_congr_right fun _ ↦ ⟨And.right, fun h ↦ ⟨?_, h⟩⟩
  rw [Bool.and_eq_true, decide_eq_true_iff] at h ⊢
  obtain ⟨peerHex, hpeer⟩ := List.exists_mem_of_ne_nil _ h.2
  exact ⟨h.1, (mem_peersForChunk.mp hpeer).availabilityCount_pos⟩

end FileNode

end AttestP2P
