import AttestP2P.File.Swarm
import Mathlib.Order.Lattice.Nat

/-!
# Hearing comes to an end

What a message sets off is paid for.  A request is paid for by the chunk that is no longer to be
asked for, an answer by the request, and what is told by the answer: so nodes that only hear each
other fall silent.

* `Note.weight` is what a message may set off, and `Catalogue.budget` what a node may still ask for.
* `Honest.costs_handleMessage`: a handler spends less than what it is paid.
* `load_deliver`: so each message that arrives makes the load of the network smaller.
* `deliveries_bounded`: the messages that arrive, and all that they set off, are no more than the
  load of the network.
* `hasFile_of_deliveries`: and then everybody who is connected to a copy of a file has one.

The weights depend on how many sessions a node has at most, since a chunk that has been stored is
announced in all of them.  Timers and new calls are not deliveries; they may put something into the
network again.
-/

set_option autoImplicit false

namespace AttestP2P

/-- The chunks that are needed and have not been asked for. -/
def Download.unasked (d : Download) : Finset ℕ :=
  d.needed.filter fun idx ↦ d.inFlight.has idx = false

theorem Download.card_unasked_request {d : Download} {idx : ℕ} (hneeded : idx ∈ d.needed)
    (hidle : d.inFlight.has idx = false) (peerHex : String) (timer : ℕ) :
    (d.request idx peerHex timer).unasked.card + 1 = d.unasked.card := by
  have hmem : idx ∈ d.unasked := Finset.mem_filter.mpr ⟨hneeded, hidle⟩
  have herase : (d.request idx peerHex timer).unasked = d.unasked.erase idx := by
    ext j
    rw [unasked, Finset.mem_filter, Finset.mem_erase, unasked, Finset.mem_filter, request]
    by_cases hj : j = idx
    · subst hj
      simp [OrderedMap.has]
    · simp [OrderedMap.has, OrderedMap.get?_set_of_ne hj, hj]
  rw [herase, Finset.card_erase_add_one hmem]

theorem Download.card_unasked_receive (d : Download) (idx : ℕ) :
    ((d.release idx).receive idx).unasked.card ≤ d.unasked.card := by
  refine Finset.card_le_card fun j hj ↦ ?_
  obtain ⟨hneeded, hidle⟩ := Finset.mem_filter.mp hj
  obtain ⟨hne, hneeded⟩ := Finset.mem_erase.mp hneeded
  refine Finset.mem_filter.mpr ⟨hneeded, ?_⟩
  rwa [receive, release, OrderedMap.has, OrderedMap.get?_delete, if_neg hne] at hidle

namespace FileNode

variable {P : Primitives} {s : FileNode P} {d d' : Download} {f : String}

/-- How much there is left to ask for. -/
def unasked (s : FileNode P) : ℕ := s.downloads.sum fun d ↦ d.unasked.card

theorem unasked_set {s' : FileNode P} (hd : s.downloads.get? f = some d)
    (hset : s'.downloads = s.downloads.set f d') :
    s'.unasked + d.unasked.card = s.unasked + d'.unasked.card := by
  rw [unasked, hset]
  exact OrderedMap.sum_set hd

end FileNode

/-- The sessions that are open at a node, at most. -/
def Swarm.degree {P : Primitives} {ι : Type} [Fintype ι] (w : Swarm P ι) : ℕ :=
  Finset.univ.sup fun i ↦ (w.node i).sessions.size

namespace Catalogue

open FileNode FileProtocol Swarm Slices

variable {P : Primitives} {jsonParse : Buffer → Option Json} {C : Catalogue P jsonParse}
  {ι : Type} {w w' : Swarm P ι} {i j : ι} {p q : ι × String} {f : String}
  {x : SharedFile P} {s s' s'' : FileNode P} {e : FileEvent} {n c c' : ℕ} {d : Download}

variable (C) in
def weight (n : ℕ) (m : Buffer) : ℕ := (C.note m).weight n

/-- What a node may spend on requests. -/
def budget (n : ℕ) (s : FileNode P) : ℕ := (n + 3) * s.unasked

variable (C) in
/-- What is said is paid for from the budget, but for `c`. -/
def Costs (n c : ℕ) (s s' : FileNode P) : Prop :=
  ∃ out, s'.sent = s.sent ++ out ∧
    (out.map fun e ↦ C.weight n e.2).sum + budget n s' ≤ c + budget n s

theorem Costs.trans (h : C.Costs n c s s') (h' : C.Costs n c' s' s'') :
    C.Costs n (c + c') s s'' := by
  obtain ⟨out, heq, hle⟩ := h
  obtain ⟨out', heq', hle'⟩ := h'
  refine ⟨out ++ out', by rw [heq', heq, List.append_assoc], ?_⟩
  rw [List.map_append, List.sum_append]
  omega

/-- Nothing is said. -/
theorem Costs.of_sent (hsent : s'.sent = s.sent) (hunasked : s'.unasked ≤ s.unasked) :
    C.Costs n 0 s s' := by
  refine ⟨[], by rw [hsent, List.append_nil], ?_⟩
  have hbudget : budget n s' ≤ budget n s := Nat.mul_le_mul_left _ hunasked
  simpa using hbudget

theorem Costs.refl (s : FileNode P) : C.Costs n 0 s s := .of_sent rfl le_rfl

/-! ## Requests -/

theorem weight_encChunkReq {idx : ℕ} (h : C.Has f idx) :
    C.weight n (encChunkReq f idx) = n + 3 := by
  rw [weight, note_encChunkReq h]
  rfl

theorem costs_requestAll (idxs : List ℕ) (hd : s.downloads.get? d.fileId = some d)
    (hidxs : ∀ idx ∈ idxs, idx ∈ d.needed) (hneeded : ∀ idx ∈ d.needed, C.Has d.fileId idx) :
    C.Costs n 0 s (s.requestAll d idxs) := by
  induction idxs generalizing s d with
  | nil => exact .refl s
  | cons idx idxs ih =>
    obtain ⟨hidx, hidxs⟩ := List.forall_mem_cons.mp hidxs
    rw [FileNode.requestAll]
    split
    · exact .refl s
    · split
      · exact ih hd hidxs hneeded
      · next hidle =>
        split
        · exact ih hd hidxs hneeded
        · next peerHex _ =>
          let s₁ : FileNode P := ((s.setTimer (.request d.fileId idx)).putDownload
            (d.request idx peerHex s.nextTimer)).safeSend peerHex (encChunkReq d.fileId idx)
          have hcard := Download.card_unasked_request hidx (eq_false_of_ne_true hidle) peerHex
            s.nextTimer
          have hunasked : s₁.unasked + d.unasked.card =
              s.unasked + (d.request idx peerHex s.nextTimer).unasked.card := by
            exact unasked_set hd rfl
          have hone : C.Costs n 0 s s₁ := by
            refine ⟨[(peerHex, encChunkReq d.fileId idx)], rfl, ?_⟩
            have hless : s.unasked = s₁.unasked + 1 := by omega
            rw [List.map_singleton, List.sum_singleton, weight_encChunkReq (hneeded idx hidx),
              budget, budget, hless, Nat.mul_add]
            omega
          exact hone.trans (ih (s := s₁) (get?_putDownload_self _ _) hidxs hneeded)

/-- **`_schedule`** pays for its requests. -/
theorem costs_schedule (hk : s.Keyed) (hneeds : s.Needs C.Has) (f : String) (rank : ℕ → ℕ) :
    C.Costs n 0 s (s.schedule f rank) := by
  rw [FileNode.schedule]
  split
  · exact .refl s
  · next d hd =>
    obtain rfl := hk f d hd
    split
    · exact .refl s
    · refine costs_requestAll _ hd (fun idx hidx ↦ ?_) (hneeds d.fileId d hd)
      exact (mem_candidates.mp hidx).1

/-! ## What a message sets off

The costliest message is a chunk that is good.  It is answered, announced in all sessions, and makes
room for further requests, which are paid for by the chunks they ask for. -/

theorem sent_complete (s : FileNode P) (f : String) : (s.complete f).sent = s.sent := by
  rw [FileNode.complete]
  split
  · rfl
  · next d _ =>
    split
    · rfl
    · have htick : (d.tick.elim s s.clearTimer).sent = s.sent := by
        cases d.tick with
        | none => rfl
        | some t => rfl
      dsimp only
      split
      · rw [sent_settle, ← htick]
        exact sent_clearTimers ..
      · rw [sent_settle, ← htick]
        exact sent_clearTimers ..

theorem unasked_complete (s : FileNode P) (f : String) : (s.complete f).unasked ≤ s.unasked := by
  obtain ⟨hsame, -⟩ | ⟨d, s₁, hd, -, hdownloads, heq⟩ := complete_cases s f
  · rw [hsame]
  · rw [heq, FileNode.unasked, downloads_finish, hdownloads, FileNode.unasked]
    exact Nat.le.intro (OrderedMap.sum_delete hd)

theorem unasked_release (hk : s.Keyed) (hd : s.downloads.get? f = some d) (idx : ℕ) :
    (s.release d idx).unasked + d.unasked.card = s.unasked + (d.release idx).unasked.card := by
  obtain rfl := hk f d hd
  rw [FileNode.release]
  split
  · next hnone => rw [Download.release, OrderedMap.delete_eq_self hnone]
  · exact unasked_set hd rfl

/-- What is stored is acknowledged, and told of in all sessions. -/
theorem costs_stored (h : C.Honest s) (hn : s.sessions.size ≤ n)
    (hd : s.downloads.get? f = some d) {idx : ℕ} (hi : C.Has f idx) (session : FileSession)
    (data : Buffer) : C.Costs n (n + 1) s (stored s session d f idx data) := by
  have hkey := h.kept.keyed f d hd
  have hunasked : (stored s session d f idx data).unasked + (d.release idx).unasked.card =
      (s.release d idx).unasked + ((d.release idx).receive idx).unasked.card := by
    refine unasked_set (f := f) (h.kept.keyed.get?_release hd idx) ?_
    rw [← hkey]
    rfl
  have hrelease := unasked_release h.kept.keyed hd idx
  have hreceive := d.card_unasked_receive idx
  refine ⟨_, sent_stored s session d f idx data, ?_⟩
  have hack : C.weight n (encAck idx ackOk) = 1 := by
    obtain ⟨_, _, hdecode⟩ := exists_decode_encAck jsonParse idx ackOk
    rw [weight, note_of_decode hdecode]
    rfl
  have hpiece : C.weight n (encHavePiece f idx) = 1 := by
    rw [weight, note_encHavePiece hi]
    rfl
  have hpieces : ((s.sessions.keys.map fun peerHex ↦ (peerHex, encHavePiece f idx)).map
      fun e ↦ C.weight n e.2).sum = s.sessions.size := by
    rw [List.map_map, show (fun e : String × Buffer ↦ C.weight n e.2) ∘
      (fun peerHex ↦ (peerHex, encHavePiece f idx)) = fun _ ↦ 1 from funext fun _ ↦ hpiece]
    simp [OrderedMap.keys, OrderedMap.size, Function.comp_def]
  have hbudget : budget n (stored s session d f idx data) ≤ budget n s :=
    Nat.mul_le_mul_left _ (by omega)
  rw [List.map_cons, List.sum_cons, hack, hpieces]
  omega

theorem costs_safeSend (s : FileNode P) (peerHex : String) (m : Buffer) :
    C.Costs n (C.weight n m) s (s.safeSend peerHex m) := by
  refine ⟨_, rfl, ?_⟩
  rw [List.map_singleton, List.sum_singleton]
  exact le_rfl

theorem costs_serveChunk (hP : P.Lawful) (h : C.Honest s) (session : FileSession) (f : String)
    (idx : ℕ) : ∃ c < n + 3, C.Costs n c s (s.serveChunk session f idx).1 := by
  rw [FileNode.serveChunk]
  split
  · exact ⟨0, Nat.succ_pos _, .refl s⟩
  · refine ⟨_, ?_, costs_safeSend ..⟩
    obtain ⟨_, _, hdecode⟩ := exists_decode_encAck jsonParse idx ackNotFound
    rw [weight, note_of_decode hdecode]
    exact Nat.lt_of_lt_of_le (by decide : 1 < 3) (Nat.le_add_left 3 n)
  · next hheld =>
    split
    · exact ⟨0, Nat.succ_pos _, .refl s⟩
    · next data _ =>
      refine ⟨_, ?_, costs_safeSend ..⟩
      rw [weight, show encChunkData f idx _ _ data = answer s.signKey f idx data from rfl,
        note_answer hP (h.has hheld)]
      exact Nat.lt_succ_self _

theorem costs_onChunkData (h : C.Honest s) (hn : s.sessions.size ≤ n) {session : FileSession}
    {m : Buffer} {rank : ℕ → ℕ} {idx : ℕ} {chunkHash signature data : Buffer}
    (he : C.Permits s (.message session m rank))
    (hdecode : FileProtocol.decode jsonParse m = .ok (.chunkData f idx chunkHash signature data))
    (hok : (s.onChunkData session f idx chunkHash signature data rank).2 = .ok ()) :
    C.Costs n (n + 1) s (s.onChunkData session f idx chunkHash signature data rank).1 := by
  have hnothing : C.Costs n (n + 1) s s :=
    ⟨[], (List.append_nil _).symm, by simp⟩
  cases hd : s.downloads.get? f with
  | none =>
    rw [FileNode.onChunkData, hd]
    exact hnothing
  | some d =>
    cases hexpected : d.expectedHash idx with
    | error err =>
      rw [FileNode.onChunkData, hd]
      dsimp only
      rw [hexpected]
      exact hnothing
    | ok expected =>
      obtain ⟨err, heq⟩ | ⟨-, heq⟩ := onChunkData_good rank hd hexpected
        (h.goodChunk he hdecode hd hexpected)
      · rw [heq] at hok
        cases hok
      · have hstored := costs_stored h hn hd (has_of_chunkData he hdecode) session data
        rw [heq]
        dsimp only
        split
        · exact hstored.trans (.of_sent (sent_complete ..) (unasked_complete ..))
        · obtain ⟨hkeyed, hneeds⟩ := keyed_and_needs_stored h hd session data
          exact hstored.trans (costs_schedule hkeyed hneeds f rank)

/-- **A handler spends less than what the message pays.** -/
theorem Honest.costs_handleMessage (hP : P.Lawful) (h : C.Honest s) (hn : s.sessions.size ≤ n)
    {session : FileSession} {m : Buffer} {rank : ℕ → ℕ}
    (he : C.Permits s (.message session m rank)) :
    ∃ c < C.weight n m, C.Costs n c s (s.handleMessage jsonParse session m rank).1 := by
  have hok : (s.handleMessage jsonParse session m rank).2 = .ok () := by
    cases he with
    | message _ _ hok => exact hok
  have hpos : 0 < C.weight n m := by
    rw [weight]
    cases C.note m <;> exact Nat.succ_pos _
  have hfree {s' : FileNode P} (hcosts : C.Costs n 0 s s') :
      ∃ c < C.weight n m, C.Costs n c s s' := ⟨0, hpos, hcosts⟩
  have hschedule (f : String) (chunks : Finset ℕ) : C.Costs n 0 s
      ((s.addHave session.peerHex f chunks).schedule f rank) := by
    have hlearned : C.Costs n 0 s (s.addHave session.peerHex f chunks) :=
      .of_sent rfl le_rfl
    exact hlearned.trans (costs_schedule (by exact h.kept.keyed) (by exact h.needs) f rank)
  have hregister (m : Json) : C.Costs n 0 s (s.registerManifest m).1 := by
    rw [registerManifest]
    split
    · exact .refl s
    · exact .of_sent rfl le_rfl
  rw [FileNode.handleMessage] at hok ⊢
  cases hdecode : FileProtocol.decode jsonParse m with
  | error err =>
    rw [hdecode] at hok
    cases hok
  | ok message =>
    rw [hdecode] at hok
    have hweight : C.weight n m = (C.meaning message).weight n := by
      rw [weight, note_of_decode hdecode]
    cases message with
    | manifest m =>
      refine hfree ?_
      dsimp only
      rw [onManifest]
      split
      · exact .refl s
      · exact .refl s
      · split
        · exact hregister m
        · exact (hregister m).trans (.of_sent rfl le_rfl)
    | «have» f bitfield =>
      refine hfree ?_
      dsimp only
      rw [onHave]
      split
      · exact .refl s
      · split
        · exact .of_sent rfl le_rfl
        · exact hschedule _ _
    | havePiece f idx => exact hfree (hschedule f {idx})
    | chunkReq f idx =>
      rw [show C.weight n m = n + 3 from hweight]
      exact costs_serveChunk hP h session f idx
    | chunkData f idx chunkHash signature data =>
      rw [show C.weight n m = n + 2 from hweight]
      exact ⟨n + 1, Nat.lt_succ_self _, costs_onChunkData h hn he hdecode hok⟩
    | ack idx status => exact hfree (.refl s)

/-! ## What is wanted

A node that downloads a file goes on to do so, or has it: deliveries do not make it give up. -/

theorem isSome_of_quiet (hquiet : s.Quiet s') (hf : (s.downloads.get? f).isSome = true) :
    (s'.downloads.get? f).isSome = true := by
  obtain ⟨d, hd⟩ := Option.isSome_iff_exists.mp hf
  obtain ⟨d', hd', -⟩ := hquiet.get?_of hd
  exact Option.isSome_of_eq_some hd'

/-- A download needs all chunks that are not there. -/
theorem Honest.mem_needed (h : C.Honest s) (hx : C.file f = some x)
    (hd : s.downloads.get? f = some d) {idx : ℕ} (hlt : idx < count x.content x.chunkSize)
    (hlacks : s.store.hasChunk f idx ≠ .ok true) : idx ∈ d.needed := by
  obtain ⟨y, hy, hmanifest⟩ := (h.fair f d hd).1
  rw [show d.terms.fileId = f from h.kept.keyed f d hd] at hy
  obtain rfl := Option.some.inj (hx.symm.trans hy)
  refine (h.active f d hd).scheduled.lacking _ ?_ idx hlt (by rwa [h.kept.keyed f d hd])
  rw [← show x.manifest = d.manifest from hmanifest]
  exact loopCount_manifest x

/-- A download goes on, or all chunks are there. -/
theorem Honest.wants_onChunkData (h : C.Honest s) {session : FileSession} {m : Buffer}
    {rank : ℕ → ℕ} {g : String} {idx : ℕ} {chunkHash signature data : Buffer}
    (he : C.Permits s (.message session m rank))
    (hdecode : FileProtocol.decode jsonParse m = .ok (.chunkData g idx chunkHash signature data))
    (hx : C.file f = some x) (hf : (s.downloads.get? f).isSome = true) :
    ((s.onChunkData session g idx chunkHash signature data rank).1.downloads.get? f).isSome =
        true ∨
      ∀ j < count x.content x.chunkSize,
        (s.onChunkData session g idx chunkHash signature data rank).1.store.hasChunk f j =
          .ok true := by
  cases hd : s.downloads.get? g with
  | none =>
    rw [FileNode.onChunkData, hd]
    exact .inl hf
  | some d =>
    cases hexpected : d.expectedHash idx with
    | error err =>
      rw [FileNode.onChunkData, hd]
      dsimp only
      rw [hexpected]
      exact .inl hf
    | ok expected =>
      have hreleased := isSome_of_quiet (h.kept.keyed.quiet_release hd idx) hf
      obtain ⟨err, heq⟩ | ⟨hput, heq⟩ := onChunkData_good rank hd hexpected
        (h.goodChunk he hdecode hd hexpected)
      · rw [heq]
        exact .inl hreleased
      · have hkey := h.kept.keyed g d hd
        have hstored : ((stored s session d g idx data).downloads.get? f).isSome = true := by
          rw [show (stored s session d g idx data).downloads = (s.release d idx).downloads.set
            d.fileId ((d.release idx).receive idx) from rfl, OrderedMap.get?_set]
          split
          · rfl
          · exact hreleased
        obtain ⟨hkeyed, -⟩ := keyed_and_needs_stored h hd session data (i := idx)
        rw [heq]
        dsimp only
        split
        · next hlast =>
          by_cases hfg : f = g
          · -- the last chunk that was needed has been stored
            subst hfg
            refine .inr fun j hj ↦ (says_complete (C := C) f).grows.hasChunk ?_
            by_cases hjidx : j = idx
            · rw [hjidx]
              exact hasChunk_stored h hd hput session
            · refine (grows_put (s.release d idx) f idx data).hasChunk ?_
              by_contra hlacks
              rw [(h.kept.keyed.quiet_release hd idx).store] at hlacks
              have hneeded := h.mem_needed hx hd hj hlacks
              have herased := Finset.mem_erase.mpr ⟨hjidx, hneeded⟩
              rw [hlast] at herased
              exact absurd herased (Finset.notMem_empty j)
          · left
            obtain ⟨hsame, -⟩ | ⟨d₀, s₁, -, -, hdownloads, hcomplete⟩ :=
              complete_cases (stored s session d g idx data) g
            · rw [hsame]
              exact hstored
            · rw [hcomplete, downloads_finish, hdownloads, OrderedMap.get?_delete, if_neg hfg]
              exact hstored
        · exact .inl (isSome_of_quiet (hkeyed.quiet_schedule g rank) hstored)

theorem Honest.wants_message (h : C.Honest s) {session : FileSession} {m : Buffer} {rank : ℕ → ℕ}
    (he : C.Permits s (.message session m rank)) (hx : C.file f = some x)
    (hf : (s.downloads.get? f).isSome = true) :
    ((s.handleMessage jsonParse session m rank).1.downloads.get? f).isSome = true ∨
      ∀ j < count x.content x.chunkSize,
        (s.handleMessage jsonParse session m rank).1.store.hasChunk f j = .ok true := by
  rw [FileNode.handleMessage]
  split
  · exact .inl hf
  · next m' _ => exact .inl ((still_onManifest s m').downloads ▸ hf)
  · exact .inl (isSome_of_quiet (h.kept.keyed.quiet_onHave session _ _ rank) hf)
  · exact .inl (isSome_of_quiet ((quiet_addHave s _ _ _).trans
      (Keyed.quiet_schedule (by exact h.kept.keyed) _ rank)) hf)
  · exact .inl (isSome_of_quiet (quiet_serveChunk s session _ _) hf)
  · next hdecode => exact h.wants_onChunkData he hdecode hx hf
  · exact .inl hf

/-! ## Deliveries -/

variable (C) in
/-- How much the messages that are on their way may set off. -/
def load [Fintype ι] (w : Swarm P ι) : ℕ := Network.load (C.weight w.degree) (budget w.degree) w

variable [DecidableEq ι]

/-- **A message that arrives makes the load smaller.** -/
theorem load_deliver [Fintype ι] {hP : P.Lawful} (h : C.Sharing hP w) {rank : ℕ → ℕ}
    (hstep : SwarmStep C w (.deliver p rank) w') : C.load w' < C.load w := by
  have hdegree : w'.degree = w.degree := by
    rw [Swarm.degree, Swarm.degree]
    exact congrArg _ (funext fun i ↦ by rw [sessions_deliver hstep])
  rw [load, load, hdegree]
  obtain ⟨q, m, rest, peerId, hwire, hqueue, hsession, hok, rfl⟩ := deliver_cases hstep
  have he := h.permits hwire hqueue hsession hok
  have hn : (w.node q.1).sessions.size ≤ w.degree :=
    Finset.le_sup (f := fun i ↦ (w.node i).sessions.size) (Finset.mem_univ q.1)
  obtain ⟨c, hc, out, heq, hle⟩ := (h.honest q.1).costs_handleMessage hP hn he
  refine Network.load_hear hqueue ?_
  have hdrop : ((w.node q.1).next jsonParse (.message ⟨q.2, peerId⟩ m rank)).sent.drop
      (w.node q.1).sent.length = out := by
    rw [FileNode.next, heq, List.drop_left]
  rw [Network.node_pop, hdrop]
  exact lt_of_le_of_lt hle (Nat.add_lt_add_right hc _)

/-- **Hearing comes to an end**: the messages that are on their way, and all that they set off, are
no more than the load, whatever the order in which they arrive. -/
theorem deliveries_bounded [Fintype ι] (hP : P.Lawful) (hw : (C.swarm ι).Reachable w)
    {es : List (SwarmEvent ι)} (hes : ∀ e ∈ es, ∃ p rank, e = .deliver p rank)
    (hrun : (C.swarm ι).Run w es w') : es.length + C.load w' ≤ C.load w := by
  have hsharing := sharing_of_reachable hP hw
  clear hw
  induction hrun with
  | nil => exact (Nat.zero_add _).le
  | cons hstep _ ih =>
    obtain ⟨⟨p, rank, rfl⟩, hothers⟩ := List.forall_mem_cons.mp hes
    have hless := load_deliver hsharing hstep
    have hrest := ih hothers (hsharing.step hstep)
    rw [List.length_cons]
    omega

/-! ## Everybody gets the file

When nothing is on its way, a neighbour of a node that has the file has it too, by
`supplied_of_reachable`, and so have the neighbours of that one. -/

/-- Who has the file or downloads it still does when a message has arrived. -/
theorem Sharing.wants_deliver {hP : P.Lawful} (h : C.Sharing hP w) {rank : ℕ → ℕ}
    (hstep : SwarmStep C w (.deliver p rank) w') (hx : C.file f = some x)
    (hj : w.HasFile j f x ∨ w.Downloads j f) : w'.HasFile j f x ∨ w'.Downloads j f := by
  obtain ⟨q, m, rest, peerId, hwire, hqueue, hsession, hok, rfl⟩ := deliver_cases hstep
  have he := h.permits hwire hqueue hsession hok
  rw [HasFile, Downloads, Swarm.happen]
  by_cases hq : j = q.1
  · subst hq
    rw [Network.node_act_self]
    rcases hj with hall | hdownloads
    · exact .inl fun idx hidx ↦
        (store_next (h.honest q.1).kept.keyed jsonParse _).2.hasChunk (hall idx hidx)
    · exact ((h.honest q.1).wants_message he hx hdownloads).symm
  · rw [Network.node_act_of_ne hq]
    exact hj

variable (C) in
/-- What hearing changes, and what it does not. -/
structure Heard (w w' : Swarm P ι) : Prop where
  wire : w'.wire = w.wire
  sessions : ∀ i, (w'.node i).sessions = (w.node i).sessions
  grows : ∀ i, (w.node i).store.Grows (w'.node i).store
  wants : ∀ i f x, C.file f = some x → w.HasFile i f x ∨ w.Downloads i f →
    w'.HasFile i f x ∨ w'.Downloads i f

theorem Sharing.heard {hP : P.Lawful} (h : C.Sharing hP w) {rank : ℕ → ℕ}
    (hstep : SwarmStep C w (.deliver p rank) w') : C.Heard w w' := by
  refine ⟨wire_deliver hstep, sessions_deliver hstep, fun i ↦ ?_,
    fun i f x hx ↦ h.wants_deliver hstep hx⟩
  obtain ⟨q, m, rest, peerId, -, -, -, -, rfl⟩ := deliver_cases hstep
  rw [Swarm.happen]
  by_cases hi : i = q.1
  · subst hi
    rw [Network.node_act_self]
    exact (store_next (h.honest q.1).kept.keyed jsonParse _).2
  · rw [Network.node_act_of_ne hi]
    exact grows_refl _

/-- A run of deliveries. -/
theorem Sharing.run {hP : P.Lawful} (h : C.Sharing hP w) {es : List (SwarmEvent ι)}
    (hes : ∀ e ∈ es, ∃ p rank, e = .deliver p rank) (hrun : (C.swarm ι).Run w es w') :
    C.Sharing hP w' ∧ C.Heard w w' := by
  induction hrun with
  | nil => exact ⟨h, rfl, fun _ ↦ rfl, fun _ ↦ grows_refl _, fun _ _ _ _ hj ↦ hj⟩
  | cons hstep _ ih =>
    obtain ⟨⟨p, rank, rfl⟩, hothers⟩ := List.forall_mem_cons.mp hes
    have hfirst := h.heard hstep
    obtain ⟨hsharing, hrest⟩ := ih (h.step hstep) hothers
    exact ⟨hsharing, hrest.wire.trans hfirst.wire,
      fun i ↦ (hrest.sessions i).trans (hfirst.sessions i),
      fun i ↦ (hfirst.grows i).trans (hrest.grows i),
      fun i f x hx hj ↦ hrest.wants i f x hx (hfirst.wants i f x hx hj)⟩

omit [DecidableEq ι] in
theorem Heard.neighbours (h : C.Heard w w') : w'.Neighbours = w.Neighbours := by
  funext i j
  rw [Neighbours, Neighbours, h.wire]
  simp only [Swarm.Open, h.sessions]

/-- A node that downloads a file has nothing to wait for when a neighbour has the file. -/
theorem Sharing.not_downloads {hP : P.Lawful} (h : C.Sharing hP w) (hrest : w.AtRest)
    (hx : C.file f = some x) (hij : w.Neighbours i j) (hj : w.HasFile j f x) :
    ¬w.Downloads i f := by
  intro hdownloads
  obtain ⟨d, hd⟩ := Option.isSome_iff_exists.mp hdownloads
  refine h.lacking i f d hd (Finset.eq_empty_of_forall_notMem fun idx hidx ↦ ?_)
  obtain ⟨y, hy, hlt⟩ := (h.honest i).needs f d hd idx hidx
  obtain rfl := Option.some.inj (hx.symm.trans hy)
  exact h.supplied hrest hij hd idx hidx (hj idx hlt)

theorem Sharing.neighbours_symm {hP : P.Lawful} (h : C.Sharing hP w) (hrest : w.AtRest)
    (hij : w.Neighbours i j) : w.Neighbours j i := by
  obtain ⟨k, l, hwire, hopen⟩ := hij
  exact ⟨l, k, h.sound.wire _ _ hwire, (hrest _ _ hwire hopen).1⟩

/-- **A file spreads to everybody who wants it**: when nothing is on its way, all nodes that are
connected to one that has the file have it too, if each of them has it or downloads it; and none of
them, but for the first, is still downloading it. -/
theorem Sharing.hasFile {hP : P.Lawful} (h : C.Sharing hP w) (hrest : w.AtRest)
    (hx : C.file f = some x) (hi : w.HasFile i f x)
    (hwants : ∀ j, Relation.ReflTransGen w.Neighbours i j → w.HasFile j f x ∨ w.Downloads j f) :
    ∀ j, Relation.ReflTransGen w.Neighbours i j →
      w.HasFile j f x ∧ (j ≠ i → ¬w.Downloads j f) := by
  intro j hj
  induction hj with
  | refl => exact ⟨hi, fun h ↦ absurd rfl h⟩
  | @tail j k hij hjk ih =>
    have hover := h.not_downloads hrest hx (h.neighbours_symm hrest hjk) ih.1
    exact ⟨(hwants k (hij.tail hjk)).resolve_right hover, fun _ ↦ hover⟩

/-- **Everybody gets the file**: however the messages arrive, once nothing is on its way all nodes
that are connected to one that has the file have it too, if each of them had it or downloaded it;
and none of them, but for the first, is still downloading it. -/
theorem hasFile_of_deliveries (hP : P.Lawful) (hw : (C.swarm ι).Reachable w)
    (hx : C.file f = some x) (hi : w.HasFile i f x)
    (hwants : ∀ j, Relation.ReflTransGen w.Neighbours i j → w.HasFile j f x ∨ w.Downloads j f)
    {es : List (SwarmEvent ι)} (hes : ∀ e ∈ es, ∃ p rank, e = .deliver p rank)
    (hrun : (C.swarm ι).Run w es w') (hrest : w'.AtRest) :
    ∀ j, Relation.ReflTransGen w.Neighbours i j →
      w'.HasFile j f x ∧ (j ≠ i → ¬w'.Downloads j f) := by
  obtain ⟨hsharing, hheard⟩ := (sharing_of_reachable hP hw).run hes hrun
  have hhas : w'.HasFile i f x := fun idx hidx ↦ (hheard.grows i).hasChunk (hi idx hidx)
  rw [← hheard.neighbours] at hwants ⊢
  exact hsharing.hasFile hrest hx hhas fun j hj ↦ hheard.wants j f x hx (hwants j hj)

end Catalogue

namespace SampleSwarm

open FileNode Manifest

/-- The node with the file seeds it. -/
def seeded : Swarm SampleFile.primitives Bool :=
  downloading.happen parse false (.seed (SampleFile.manifest 9) ["hello.txt"])

theorem reachable_seeded : (catalogue.swarm Bool).Reachable seeded :=
  reachable_downloading.step (e := .act false _)
    (.act (.seed catalogue_file (by decide +kernel)) fun _ _ _ h ↦ by cases h)

/-- The sessions of the messages, in the order in which these arrive. -/
def senders : List (Bool × String) :=
  [(true, peer), (false, peer), (false, peer), (true, peer), (false, peer), (true, peer),
    (true, peer)]

def deliveries : List (SwarmEvent Bool) := senders.map fun p ↦ .deliver p fun i ↦ i

theorem forall_deliveries : ∀ e ∈ deliveries, ∃ p rank, e = .deliver p rank := by
  intro e he
  obtain ⟨p, -, rfl⟩ := List.mem_map.mp he
  exact ⟨p, _, rfl⟩

theorem run_seeded : ∃ w, (catalogue.swarm Bool).Run seeded deliveries w ∧ w.flight = [] := by
  have hflight : (deliverAll seeded senders).any (fun w ↦ w.flight = []) = true := by
    decide +kernel
  cases hw : deliverAll seeded senders with
  | none =>
    rw [hw] at hflight
    cases hflight
  | some w =>
    rw [hw] at hflight
    exact ⟨w, run_deliverAll hw, of_decide_eq_true hflight⟩

theorem hasFile_seeded : seeded.HasFile false sampleFileId.hex shared := by
  intro idx hidx
  obtain rfl : idx = 0 := Nat.lt_one_iff.mp hidx
  decide +kernel

theorem wants_seeded (j : Bool) :
    seeded.HasFile j sampleFileId.hex shared ∨ seeded.Downloads j sampleFileId.hex := by
  cases j with
  | false => exact .inl hasFile_seeded
  | true =>
    right
    rw [Swarm.Downloads]
    decide +kernel

end SampleSwarm

namespace Catalogue

open FileNode Manifest SampleSwarm

/-- The file is sent in seven messages. -/
theorem deliveries_sample : ∃ w, (catalogue.swarm Bool).Run seeded deliveries w ∧
    7 + catalogue.load w ≤ catalogue.load seeded := by
  obtain ⟨w, hrun, -⟩ := run_seeded
  exact ⟨w, hrun, deliveries_bounded SampleFile.lawful reachable_seeded forall_deliveries hrun⟩

/-- The node that downloads the file has it, and is done. -/
theorem hasFile_sample : ∃ w, (catalogue.swarm Bool).Run seeded deliveries w ∧
    seeded.Downloads true sampleFileId.hex ∧ w.HasFile true sampleFileId.hex shared ∧
      ¬w.Downloads true sampleFileId.hex := by
  obtain ⟨w, hrun, hflight⟩ := run_seeded
  have hrest : w.AtRest := by
    obtain ⟨-, hheard⟩ := (sharing_of_reachable SampleFile.lawful reachable_seeded).run
      forall_deliveries hrun
    refine atRest hheard.wire (fun i ↦ ?_) hflight
    rw [Swarm.Open, hheard.sessions]
    cases i with
    | false => decide +kernel
    | true => decide +kernel
  have hneighbours : seeded.Neighbours false true := by
    refine ⟨peer, peer, by decide +kernel, ?_⟩
    rw [Swarm.Open]
    decide +kernel
  have hdownloads := (wants_seeded true).resolve_left fun h ↦ by
    have h0 := h 0 Nat.one_pos
    revert h0
    decide +kernel
  obtain ⟨hhas, hdone⟩ := hasFile_of_deliveries SampleFile.lawful reachable_seeded catalogue_file
    hasFile_seeded (fun j _ ↦ wants_seeded j) forall_deliveries hrun hrest true
      (.single hneighbours)
  exact ⟨w, hrun, hdownloads, hhas, hdone (by decide)⟩

end Catalogue

end AttestP2P
