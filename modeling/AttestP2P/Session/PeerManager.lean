import AttestP2P.Lib.Machine
import AttestP2P.Network.UdpDiscovery
import Mathlib.Data.Finset.Basic

/-!
# The peer manager

`src/session/peerManager.js`: at every tick the manager dials the announced peers it is neither
connected to nor dialling, and it keeps the sessions it has opened by the `nodeId` they were dialled
for.

* A connection is known by the order in which `connect` has returned it.  `conns` remembers all of
  them, with what each has been through.
* `discovery` and `connect` are injected: a tick gets any list of peers, and `connect` throws when
  the outside says so (an invalid port makes `net.connect` throw), which ends the tick.
* A connection emits `secure` once, with the identity its handshake has proved, `error` once, and
  `close` last.  Nothing else is asked of the order of events.
-/

set_option autoImplicit false

namespace AttestP2P

/-- A connection that the manager has dialled, and the events it has emitted. -/
structure DialledConn where
  peer : DiscoveredPeer
  /-- `conn.peerId`, which is set when `secure` is emitted. -/
  peerId : Option Buffer
  failed : Bool
  closed : Bool

namespace DialledConn

def dialled (peer : DiscoveredPeer) : DialledConn := ⟨peer, none, false, false⟩

def secured (d : DialledConn) : Bool := d.peerId.isSome

/-- It has neither failed nor closed, whether or not its handshake is over. -/
def live (d : DialledConn) : Bool := !d.failed && !d.closed

end DialledConn

structure PeerManager where
  selfId : String
  /-- `sessions`: a connection for each `nodeId`. -/
  sessions : OrderedMap String ℕ
  dialing : Finset String
  conns : List DialledConn
  /-- The calls of `onSession`. -/
  onSession : List (ℕ × DiscoveredPeer)

inductive PeerManagerEvent where
  /-- `connects` says of a peer whether `connect` returns. -/
  | tick (peers : List DiscoveredPeer) (connects : DiscoveredPeer → Bool)
  | secure (conn : ℕ) (peerId : Buffer)
  | error (conn : ℕ)
  | close (conn : ℕ)

namespace PeerManager

/-- `new PeerManager({ selfId, … })`, without sessions and without dialled connections. -/
def start (selfId : String) : PeerManager := ⟨selfId, .empty, ∅, [], []⟩

/-- `tick` passes over the peer: it has no secure port, is the node itself, or is connected or being
dialled. -/
def skips (s : PeerManager) (peer : DiscoveredPeer) : Bool :=
  !peer.securePort.any Json.truthy || peer.nodeId = s.selfId || s.sessions.has peer.nodeId ||
    peer.nodeId ∈ s.dialing

/-- `_dial`, when `connect` returns a connection: the peer is noted as being dialled until the
connection is secured, fails or closes. -/
def dial (s : PeerManager) (peer : DiscoveredPeer) : PeerManager :=
  { s with dialing := insert peer.nodeId s.dialing, conns := s.conns ++ [.dialled peer] }

/-- `tick`; an exception of `connect` leaves it, and leaves the peer in `dialing`. -/
def tick (s : PeerManager) (connects : DiscoveredPeer → Bool) : List DiscoveredPeer → PeerManager
  | [] => s
  | peer :: peers =>
    if s.skips peer then tick s connects peers
    else if connects peer then tick (s.dial peer) connects peers
    else { s with dialing := insert peer.nodeId s.dialing }

/-- The callback of `connect`: the connection `d`, which has the number `c`, is secure. -/
def onSecure (s : PeerManager) (c : ℕ) (d : DialledConn) (peerId : Buffer) : PeerManager :=
  { s with
    conns := s.conns.set c { d with peerId := some peerId }
    dialing := s.dialing.erase d.peer.nodeId
    sessions := s.sessions.set d.peer.nodeId c
    onSession := s.onSession ++ [(c, d.peer)] }

/-- The listener of `error`: the peer may be dialled again, at the next tick. -/
def onError (s : PeerManager) (c : ℕ) (d : DialledConn) : PeerManager :=
  { s with
    conns := s.conns.set c { d with failed := true }
    dialing := s.dialing.erase d.peer.nodeId }

/-- The listener of `close`: both entries of the peer are deleted, whichever connection they belong
to. -/
def onClose (s : PeerManager) (c : ℕ) (d : DialledConn) : PeerManager :=
  { s with
    conns := s.conns.set c { d with closed := true }
    dialing := s.dialing.erase d.peer.nodeId
    sessions := s.sessions.delete d.peer.nodeId }

def next (s : PeerManager) : PeerManagerEvent → PeerManager
  | .tick peers connects => s.tick connects peers
  | .secure c peerId => (s.conns[c]?).elim s fun d ↦ s.onSecure c d peerId
  | .error c => (s.conns[c]?).elim s fun d ↦ s.onError c d
  | .close c => (s.conns[c]?).elim s fun d ↦ s.onClose c d

/-- `secure` at most once, `error` at most once, `close` last. -/
def enabled (s : PeerManager) : PeerManagerEvent → Prop
  | .tick _ _ => True
  | .secure c _ => ∃ d ∈ s.conns[c]?, d.secured = false ∧ d.closed = false
  | .error c => ∃ d ∈ s.conns[c]?, d.failed = false ∧ d.closed = false
  | .close c => ∃ d ∈ s.conns[c]?, d.closed = false

instance (s : PeerManager) : (e : PeerManagerEvent) → Decidable (s.enabled e)
  | .tick _ _ => .isTrue trivial
  | .secure c _ => inferInstanceAs (Decidable (∃ d ∈ s.conns[c]?, _))
  | .error c => inferInstanceAs (Decidable (∃ d ∈ s.conns[c]?, _))
  | .close c => inferInstanceAs (Decidable (∃ d ∈ s.conns[c]?, _))

def activeCount (s : PeerManager) : ℕ := s.sessions.size

/-! ## Ticks -/

/-- What dialling a peer keeps, and what an exception of `connect` keeps, a tick keeps. -/
theorem tick_induction {I : PeerManager → Prop}
    (hdial : ∀ s peer, I s → s.skips peer = false → I (s.dial peer))
    (hthrow : ∀ (s : PeerManager) (peer : DiscoveredPeer),
      I s → I { s with dialing := insert peer.nodeId s.dialing })
    {s : PeerManager} {connects : DiscoveredPeer → Bool} {peers : List DiscoveredPeer} (hs : I s) :
    I (s.tick connects peers) := by
  induction peers generalizing s with
  | nil => exact hs
  | cons peer peers ih =>
    rw [tick]
    split
    · exact ih hs
    · next hskip =>
      split
      · exact ih (hdial s peer hs (eq_false_of_ne_true hskip))
      · exact hthrow s peer hs

/-- What it takes for a peer to be dialled: it is not the node itself, has no session, is not being
dialled, and has announced a port. -/
theorem skips_eq_false {s : PeerManager} {peer : DiscoveredPeer} :
    s.skips peer = false ↔ peer.securePort.any Json.truthy = true ∧ peer.nodeId ≠ s.selfId ∧
      s.sessions.get? peer.nodeId = none ∧ peer.nodeId ∉ s.dialing := by
  simp [skips, OrderedMap.has, and_assoc]

/-! ## Connections -/

/-- The connection with the number `c` is `d`, and has neither failed nor closed. -/
def Live (s : PeerManager) (c : ℕ) (d : DialledConn) : Prop :=
  s.conns[c]? = some d ∧ d.live = true

theorem live_of_set {s s' : PeerManager} {c c' : ℕ} {d d' : DialledConn}
    (hconns : s'.conns = s.conns.set c d) (h : s'.Live c' d') :
    c' = c ∧ d' = d ∨ c' ≠ c ∧ s.Live c' d' := by
  obtain ⟨hget, hlive⟩ := h
  rw [hconns, List.getElem?_set] at hget
  split at hget
  · next heq =>
    split at hget
    · exact .inl ⟨heq.symm, (Option.some.inj hget).symm⟩
    · exact absurd hget (by simp)
  · next hne => exact .inr ⟨Ne.symm hne, hget, hlive⟩

theorem live_of_dial {s : PeerManager} {peer : DiscoveredPeer} {c : ℕ} {d : DialledConn}
    (h : (s.dial peer).Live c d) : s.Live c d ∨ c = s.conns.length ∧ d = .dialled peer := by
  obtain ⟨hget, hlive⟩ := h
  rw [dial, List.getElem?_append] at hget
  split at hget
  · exact .inl ⟨hget, hlive⟩
  · rw [List.getElem?_singleton] at hget
    split at hget
    · exact .inr ⟨by omega, (Option.some.inj hget).symm⟩
    · exact absurd hget (by simp)

/-! ## One session for each peer -/

/-- **One live session for each peer**, and the record of sessions says which one it is. -/
structure OneSession (s : PeerManager) : Prop where
  /-- At most one connection that has neither failed nor closed is dialled for a `nodeId`. -/
  unique : ∀ c c' d d', s.Live c d → s.Live c' d' → d.peer.nodeId = d'.peer.nodeId → c = c'
  /-- A secured one is the session of its `nodeId`. -/
  registered : ∀ c d, s.Live c d → d.secured = true → s.sessions.get? d.peer.nodeId = some c

/-- What makes it an invariant: the manager does not dial a peer that a live connection was dialled
for. -/
structure Tracked (s : PeerManager) : Prop extends OneSession s where
  pending : ∀ c d, s.Live c d → d.secured = false →
    d.peer.nodeId ∈ s.dialing ∨ s.sessions.has d.peer.nodeId = true
  /-- Every connection was dialled for a peer that may be dialled. -/
  dialable : ∀ d ∈ s.conns,
    d.peer.securePort.any Json.truthy = true ∧ d.peer.nodeId ≠ s.selfId

/-- No event of a failed connection reaches the state of a newer one that was dialled for the same
`nodeId` since: it does not close while another is live, and is not secured once another is. -/
def Orderly (s : PeerManager) : PeerManagerEvent → Prop
  | .tick _ _ => True
  | .secure c _ => ∀ d c' d', s.conns[c]? = some d → d.failed = true → s.Live c' d' →
      d'.secured = true → d'.peer.nodeId ≠ d.peer.nodeId
  | .error _ => True
  | .close c => ∀ d c' d', s.conns[c]? = some d → d.failed = true → s.Live c' d' →
      d'.peer.nodeId ≠ d.peer.nodeId

variable {s : PeerManager}

theorem tracked_start (selfId : String) : (start selfId).Tracked where
  unique _ _ _ _ h := absurd h.1 (by simp [start])
  registered _ _ h := absurd h.1 (by simp [start])
  pending _ _ h := absurd h.1 (by simp [start])
  dialable _ h := absurd h List.not_mem_nil

/-- A peer that is not skipped has no live connection. -/
theorem Tracked.not_live (hs : s.Tracked) {peer : DiscoveredPeer} (hskip : s.skips peer = false)
    {c : ℕ} {d : DialledConn} (h : s.Live c d) : d.peer.nodeId ≠ peer.nodeId := by
  intro heq
  obtain ⟨-, -, hsessions, hdialing⟩ := skips_eq_false.mp hskip
  cases hsecured : d.secured with
  | true =>
    have hget := hs.registered c d h hsecured
    rw [heq, hsessions] at hget
    exact absurd hget (by simp)
  | false =>
    rcases hs.pending c d h hsecured with hmem | hhas
    · exact hdialing (heq ▸ hmem)
    · rw [heq, OrderedMap.has, hsessions] at hhas
      exact absurd hhas (by simp)

theorem Tracked.dial (hs : s.Tracked) {peer : DiscoveredPeer} (hskip : s.skips peer = false) :
    (s.dial peer).Tracked where
  unique c c' d d' h h' heq := by
    rcases live_of_dial h with h | ⟨rfl, rfl⟩
    · rcases live_of_dial h' with h' | ⟨rfl, rfl⟩
      · exact hs.unique c c' d d' h h' heq
      · exact absurd heq (hs.not_live hskip h)
    · rcases live_of_dial h' with h' | ⟨rfl, -⟩
      · exact absurd heq.symm (hs.not_live hskip h')
      · rfl
  registered c d h hsecured := by
    rcases live_of_dial h with h | ⟨rfl, rfl⟩
    · exact hs.registered c d h hsecured
    · exact absurd hsecured (by simp [DialledConn.secured, DialledConn.dialled])
  pending c d h hsecured := by
    rcases live_of_dial h with h | ⟨rfl, rfl⟩
    · exact (hs.pending c d h hsecured).imp_left fun hmem ↦ Finset.mem_insert_of_mem hmem
    · exact .inl (Finset.mem_insert_self _ _)
  dialable d hd := by
    obtain ⟨hport, hself, -⟩ := skips_eq_false.mp hskip
    rcases List.mem_append.mp hd with hd | hd
    · exact hs.dialable d hd
    · obtain rfl := List.mem_singleton.mp hd
      exact ⟨hport, hself⟩

theorem Tracked.tick (hs : s.Tracked) (connects : DiscoveredPeer → Bool)
    (peers : List DiscoveredPeer) : (s.tick connects peers).Tracked :=
  tick_induction (fun _ _ hs hskip ↦ hs.dial hskip)
    (fun _ _ hs ↦ { hs with
      pending := fun c d h hsecured ↦
        (hs.pending c d h hsecured).imp_left fun hmem ↦ Finset.mem_insert_of_mem hmem }) hs

/-- A connection that has neither failed nor closed is the only one of its peer. -/
theorem Tracked.alone (hs : s.Tracked) {c c' : ℕ} {d d' : DialledConn} (hd : s.conns[c]? = some d)
    (hlive : d.live = true) (h' : s.Live c' d') (hne : c' ≠ c) :
    d'.peer.nodeId ≠ d.peer.nodeId :=
  fun heq ↦ hne (hs.unique c' c d' d h' ⟨hd, hlive⟩ heq)

/-- An event that changes the connection `d` into `e`, for the same peer, keeps `unique` and
`dialable`: what is left to show is about the maps. -/
theorem Tracked.of_set (hs : s.Tracked) {s' : PeerManager} {c : ℕ} {d e : DialledConn}
    (hd : s.conns[c]? = some d) (hpeer : e.peer = d.peer) (hlive : e.live = true → d.live = true)
    (hconns : s'.conns = s.conns.set c e) (hself : s'.selfId = s.selfId)
    (hregistered : ∀ c' d', s'.Live c' d' → d'.secured = true →
      s'.sessions.get? d'.peer.nodeId = some c')
    (hpending : ∀ c' d', s'.Live c' d' → d'.secured = false →
      d'.peer.nodeId ∈ s'.dialing ∨ s'.sessions.has d'.peer.nodeId = true) : s'.Tracked := by
  have hbefore : ∀ c' d', s'.Live c' d' → ∃ d₀, s.Live c' d₀ ∧ d₀.peer = d'.peer := by
    intro c' d' h
    rcases live_of_set hconns h with ⟨rfl, rfl⟩ | ⟨-, h⟩
    · exact ⟨d, ⟨hd, hlive h.2⟩, hpeer.symm⟩
    · exact ⟨d', h, rfl⟩
  refine { unique := ?_, registered := hregistered, pending := hpending, dialable := ?_ }
  · intro c₁ c₂ d₁ d₂ h₁ h₂ heq
    obtain ⟨e₁, h₁, hpeer₁⟩ := hbefore c₁ d₁ h₁
    obtain ⟨e₂, h₂, hpeer₂⟩ := hbefore c₂ d₂ h₂
    exact hs.unique c₁ c₂ e₁ e₂ h₁ h₂ (by rw [hpeer₁, hpeer₂, heq])
  · intro x hx
    rw [hself]
    rw [hconns] at hx
    rcases List.mem_or_eq_of_mem_set hx with hx | rfl
    · exact hs.dialable x hx
    · rw [hpeer]
      exact hs.dialable d (List.mem_of_getElem? hd)

theorem Tracked.onSecure (hs : s.Tracked) {c : ℕ} {d : DialledConn} {peerId : Buffer}
    (hd : s.conns[c]? = some d) (hclosed : d.closed = false) (h : s.Orderly (.secure c peerId)) :
    (s.onSecure c d peerId).Tracked := by
  refine hs.of_set hd (e := { d with peerId := some peerId }) rfl id rfl rfl ?_ ?_
  · intro c' d' h' hsecured
    rcases live_of_set rfl h' with ⟨rfl, rfl⟩ | ⟨hne, h'⟩
    · exact OrderedMap.get?_set_self
    · have hother : d'.peer.nodeId ≠ d.peer.nodeId := by
        cases hfailed : d.failed with
        | true => exact h d c' d' hd hfailed h' hsecured
        | false => exact hs.alone hd (by simp [DialledConn.live, hfailed, hclosed]) h' hne
      exact (OrderedMap.get?_set_of_ne hother).trans (hs.registered c' d' h' hsecured)
  · intro c' d' h' hsecured
    rcases live_of_set rfl h' with ⟨-, rfl⟩ | ⟨-, h'⟩
    · exact absurd hsecured (by simp [DialledConn.secured])
    · by_cases heq : d'.peer.nodeId = d.peer.nodeId
      · exact .inr (OrderedMap.has_iff.mpr (OrderedMap.mem_keys_set.mpr (.inl heq)))
      · refine (hs.pending c' d' h' hsecured).imp (fun hmem ↦ ?_) fun hhas ↦ ?_
        · exact Finset.mem_erase.mpr ⟨heq, hmem⟩
        · exact OrderedMap.has_iff.mpr (OrderedMap.mem_keys_set.mpr
            (.inr (OrderedMap.has_iff.mp hhas)))

theorem Tracked.onError (hs : s.Tracked) {c : ℕ} {d : DialledConn} (hd : s.conns[c]? = some d)
    (hlive : d.live = true) : (s.onError c d).Tracked := by
  have hother : ∀ c' d', (s.onError c d).Live c' d' →
      s.Live c' d' ∧ d'.peer.nodeId ≠ d.peer.nodeId := by
    intro c' d' h'
    rcases live_of_set rfl h' with ⟨-, rfl⟩ | ⟨hne, h'⟩
    · exact absurd h'.2 (by simp [DialledConn.live])
    · exact ⟨h', hs.alone hd hlive h' hne⟩
  refine hs.of_set hd (e := { d with failed := true }) rfl (fun _ ↦ hlive) rfl rfl ?_ ?_
  · intro c' d' h' hsecured
    exact hs.registered c' d' (hother c' d' h').1 hsecured
  · intro c' d' h' hsecured
    obtain ⟨h', hne⟩ := hother c' d' h'
    exact (hs.pending c' d' h' hsecured).imp_left fun hmem ↦ Finset.mem_erase.mpr ⟨hne, hmem⟩

theorem Tracked.onClose (hs : s.Tracked) {c : ℕ} {d : DialledConn} (hd : s.conns[c]? = some d)
    (hclosed : d.closed = false) (h : s.Orderly (.close c)) : (s.onClose c d).Tracked := by
  have hother : ∀ c' d', (s.onClose c d).Live c' d' →
      s.Live c' d' ∧ d'.peer.nodeId ≠ d.peer.nodeId := by
    intro c' d' h'
    rcases live_of_set rfl h' with ⟨-, rfl⟩ | ⟨hne, h'⟩
    · exact absurd h'.2 (by simp [DialledConn.live])
    · refine ⟨h', ?_⟩
      cases hfailed : d.failed with
      | true => exact h d c' d' hd hfailed h'
      | false => exact hs.alone hd (by simp [DialledConn.live, hfailed, hclosed]) h' hne
  have hget : ∀ {n}, n ≠ d.peer.nodeId →
      (s.onClose c d).sessions.get? n = s.sessions.get? n := fun hne ↦
    OrderedMap.get?_delete.trans (if_neg hne)
  refine hs.of_set hd (e := { d with closed := true }) rfl (by simp [DialledConn.live])
    rfl rfl ?_ ?_
  · intro c' d' h' hsecured
    obtain ⟨h', hne⟩ := hother c' d' h'
    exact (hget hne).trans (hs.registered c' d' h' hsecured)
  · intro c' d' h' hsecured
    obtain ⟨h', hne⟩ := hother c' d' h'
    refine (hs.pending c' d' h' hsecured).imp (fun hmem ↦ ?_) fun hhas ↦ ?_
    · exact Finset.mem_erase.mpr ⟨hne, hmem⟩
    · rw [OrderedMap.has, hget hne]
      exact hhas

/-- Every orderly event keeps the manager's record of its connections. -/
theorem Tracked.next (hs : s.Tracked) {e : PeerManagerEvent} (he : s.enabled e)
    (h : s.Orderly e) : (s.next e).Tracked := by
  cases e with
  | tick peers connects => exact hs.tick connects peers
  | secure c peerId =>
    obtain ⟨d, hd, -, hclosed⟩ := he
    rw [PeerManager.next, Option.mem_def.mp hd]
    exact hs.onSecure hd hclosed h
  | error c =>
    obtain ⟨d, hd, hfailed, hclosed⟩ := he
    rw [PeerManager.next, Option.mem_def.mp hd]
    exact hs.onError hd (by simp [DialledConn.live, hfailed, hclosed])
  | close c =>
    obtain ⟨d, hd, hclosed⟩ := he
    rw [PeerManager.next, Option.mem_def.mp hd]
    exact hs.onClose hd hclosed h

/-! ## What a late event breaks -/

theorem live_set_of_failed (t : PeerManager) {c c' : ℕ} {d d' e : DialledConn}
    (hd : s.conns[c]? = some d) (hfailed : d.failed = true) (h' : s.Live c' d')
    (hconns : t.conns = s.conns.set c e) : c' ≠ c ∧ t.Live c' d' := by
  have hne : c' ≠ c := by
    rintro rfl
    obtain rfl : d = d' := Option.some.inj (hd.symm.trans h'.1)
    exact absurd h'.2 (by simp [DialledConn.live, hfailed])
  refine ⟨hne, ?_, h'.2⟩
  rw [hconns, List.getElem?_set_ne (Ne.symm hne)]
  exact h'.1

/-- A connection that is secured after it has failed takes the place of the live session. -/
theorem not_oneSession_onSecure {c c' : ℕ} {d d' : DialledConn} {peerId : Buffer}
    (hd : s.conns[c]? = some d) (hfailed : d.failed = true) (h' : s.Live c' d')
    (hsecured : d'.secured = true) (heq : d'.peer.nodeId = d.peer.nodeId) :
    ¬ (s.onSecure c d peerId).OneSession := by
  intro hone
  obtain ⟨hne, hlive⟩ := live_set_of_failed (s.onSecure c d peerId) hd hfailed h' rfl
  have hget : (s.onSecure c d peerId).sessions.get? d'.peer.nodeId = some c := by
    rw [heq]
    exact OrderedMap.get?_set_self
  exact hne (Option.some.inj ((hone.registered c' d' hlive hsecured).symm.trans hget))

/-- When a failed connection closes, the manager forgets that a newer one of the same peer is live,
and the next tick may dial the peer again. -/
theorem not_oneSession_onClose (hs : s.Tracked) {c c' : ℕ} {d d' : DialledConn}
    (hd : s.conns[c]? = some d) (hfailed : d.failed = true) (h' : s.Live c' d')
    (heq : d'.peer.nodeId = d.peer.nodeId) :
    ¬ ((s.onClose c d).next (.tick [d'.peer] fun _ ↦ true)).OneSession := by
  intro hone
  obtain ⟨-, hlive⟩ := live_set_of_failed (s.onClose c d) hd hfailed h' rfl
  obtain ⟨hport, hself⟩ := hs.dialable d' (List.mem_of_getElem? h'.1)
  have hskip : (s.onClose c d).skips d'.peer = false := by
    refine skips_eq_false.mpr ⟨hport, hself, ?_, ?_⟩
    · exact OrderedMap.get?_delete.trans (if_pos heq)
    · exact fun hmem ↦ Finset.ne_of_mem_erase hmem heq
  have htick : (s.onClose c d).next (.tick [d'.peer] fun _ ↦ true) =
      (s.onClose c d).dial d'.peer := by
    simp [PeerManager.next, PeerManager.tick, hskip]
  rw [htick] at hone
  have hlt : c' < (s.onClose c d).conns.length := (List.getElem?_eq_some_iff.mp hlive.1).1
  have hold : ((s.onClose c d).dial d'.peer).Live c' d' :=
    ⟨(List.getElem?_append_left hlt).trans hlive.1, hlive.2⟩
  have hnew : ((s.onClose c d).dial d'.peer).Live (s.onClose c d).conns.length (.dialled d'.peer) :=
    ⟨List.getElem?_concat_length, rfl⟩
  exact absurd (hone.unique _ _ _ _ hold hnew rfl) (Nat.ne_of_lt hlt)

/-- **A late event breaks the record**, at once or at the next tick. -/
theorem Tracked.next_breaks (hs : s.Tracked) {e : PeerManagerEvent} (h : ¬ s.Orderly e) :
    ¬ ∀ peers connects, (s.next e).OneSession ∧
      ((s.next e).next (.tick peers connects)).OneSession := by
  intro hall
  cases e with
  | tick peers connects => exact h trivial
  | error c => exact h trivial
  | secure c peerId =>
    refine h fun d c' d' hd hfailed h' hsecured heq ↦ ?_
    rw [PeerManager.next, hd] at hall
    exact not_oneSession_onSecure hd hfailed h' hsecured heq (hall [] fun _ ↦ true).1
  | close c =>
    refine h fun d c' d' hd hfailed h' heq ↦ ?_
    rw [PeerManager.next, hd] at hall
    exact not_oneSession_onClose hs hd hfailed h' heq (hall [d'.peer] fun _ ↦ true).2

/-- **One session for each peer, when no late event interferes.**  Along a run in which every
connection is secured at most once, fails at most once and closes last, and no failed connection
closes, or is secured, over a newer live one of the same peer, there is one live session for each
peer in every state.  And it takes a late event to break that: with one, two connections of a peer
are live in some state, or would be after a further tick. -/
theorem oneSession_iff_orderly (selfId : String) (es : List PeerManagerEvent)
    (h : Machine.Feasible enabled next (start selfId) es) :
    (Machine.Feasible Orderly next (start selfId) es →
      ∀ es₁ es₂, es = es₁ ++ es₂ → (es₁.foldl next (start selfId)).OneSession) ∧
    (Machine.Feasible Orderly next (start selfId) es ↔
      ∀ es₁ es₂, es = es₁ ++ es₂ → ∀ peers connects,
        (es₁.foldl next (start selfId)).OneSession ∧
          ((es₁.foldl next (start selfId)).next (.tick peers connects)).OneSession) := by
  have hiff := Machine.feasible_iff_forall_prefix (I := Tracked)
    (Q := fun s ↦ ∀ peers connects, s.OneSession ∧ (s.next (.tick peers connects)).OneSession)
    (fun _ hs peers connects ↦ ⟨hs.toOneSession, (hs.tick connects peers).toOneSession⟩)
    (fun _ _ hs he ho ↦ hs.next he ho) (fun _ _ hs _ ho ↦ hs.next_breaks ho)
    (tracked_start selfId) h
  exact ⟨fun horderly es₁ es₂ heq ↦ (hiff.mp horderly es₁ es₂ heq [] fun _ ↦ true).1, hiff⟩

/-! ### Three dials -/

/-- The id of the node itself. -/
def sampleSelf : String := "d75a980182b10ab7d54bfed3c964073a0ee172f3daa62325af021a68f707511a"

/-- A peer that announces itself from its own address. -/
def samplePeer : DiscoveredPeer where
  nodeId := "3d4017c3e843895a92b70aa74d1b7ebc9c982ccf2ec4968cc0cd55f12af4660c"
  address := "10.0.0.2"
  tcpPort := some (.num (.finite 7777))
  securePort := some (.num (.finite 7778))
  name := some (.str "attestp2p-node")
  lastSeen := 0

/-- The first connection fails; it closes after the peer has been dialled again. -/
def sampleLateClose : List PeerManagerEvent :=
  [.tick [samplePeer] fun _ ↦ true, .error 0, .tick [samplePeer] fun _ ↦ true, .close 0,
    .tick [samplePeer] fun _ ↦ true]

/-- The second connection is live when the third is dialled. -/
theorem late_close_dials_twice :
    Machine.Feasible enabled next (start sampleSelf) sampleLateClose ∧
      ¬ (sampleLateClose.foldl next (start sampleSelf)).OneSession := by
  refine ⟨by decide +kernel, fun hone ↦ ?_⟩
  exact absurd (hone.unique 1 2 _ _ ⟨rfl, rfl⟩ ⟨rfl, rfl⟩ rfl) (by decide)

/-- The first connection fails and closes before the peer is dialled again; the second is secured,
and the peer is announced once more. -/
def sampleDial : List PeerManagerEvent :=
  [.tick [samplePeer] fun _ ↦ true, .error 0, .close 0, .tick [samplePeer] fun _ ↦ true,
    .secure 1 (Json.fromHex samplePeer.nodeId), .tick [samplePeer] fun _ ↦ true]

/-- The second connection is the session of the peer, and there is no third. -/
theorem oneSession_sampleDial :
    ((sampleDial.foldl next (start sampleSelf)).sessions.get? samplePeer.nodeId = some 1 ∧
      (sampleDial.foldl next (start sampleSelf)).conns.length = 2) ∧
      (sampleDial.foldl next (start sampleSelf)).OneSession := by
  have horderly : Machine.Feasible Orderly next (start sampleSelf) sampleDial := by
    refine ⟨trivial, trivial, fun d c' d' hd _ hlive ↦ ?_, trivial, fun d c' d' hd hfailed ↦ ?_,
      trivial, trivial⟩
    · -- the failed connection is the only one
      obtain ⟨hconn, hlive⟩ := hlive
      cases c' with
      | zero =>
        obtain rfl := Option.some.inj hconn
        exact absurd hlive (by decide)
      | succ c' => cases hconn
    · -- the connection that is secured has not failed
      obtain rfl := Option.some.inj hd
      exact absurd hfailed (by decide)
  refine ⟨by decide +kernel, ?_⟩
  exact (oneSession_iff_orderly sampleSelf sampleDial (by decide +kernel)).1 horderly sampleDial []
    rfl

/-! ## The identity behind a session -/

/-- Every session belongs to the peer it is kept for. -/
def Authenticated (s : PeerManager) : Prop :=
  ∀ nodeId c, s.sessions.get? nodeId = some c →
    ∃ d peerId, s.conns[c]? = some d ∧ d.peerId = some peerId ∧ peerId.hex = nodeId

/-- Who answers is who was announced: the identity that a handshake proves is the id that was
dialled. -/
def AsAnnounced (s : PeerManager) : PeerManagerEvent → Prop
  | .secure c peerId => ∀ d, s.conns[c]? = some d → peerId.hex = d.peer.nodeId
  | _ => True

/-- What makes `Authenticated` an invariant: a session is kept under the `nodeId` its connection was
dialled for. -/
def Bound (s : PeerManager) : Prop :=
  ∀ nodeId c, s.sessions.get? nodeId = some c → ∃ d peerId, s.conns[c]? = some d ∧
    d.peerId = some peerId ∧ peerId.hex = nodeId ∧ d.peer.nodeId = nodeId

theorem Bound.authenticated (hs : s.Bound) : s.Authenticated := by
  intro nodeId c h
  obtain ⟨d, peerId, hd, hpeerId, hhex, -⟩ := hs nodeId c h
  exact ⟨d, peerId, hd, hpeerId, hhex⟩

/-- Dialling adds connections, and changes none that is there. -/
theorem Bound.tick (hs : s.Bound) (connects : DiscoveredPeer → Bool)
    (peers : List DiscoveredPeer) : (s.tick connects peers).Bound := by
  refine tick_induction (fun s peer hs _ nodeId c h ↦ ?_) (fun s peer hs ↦ hs) hs
  obtain ⟨d, peerId, hd, hrest⟩ := hs nodeId c h
  exact ⟨d, peerId, by rw [dial, List.getElem?_append_left (List.getElem?_eq_some_iff.mp hd).1, hd],
    hrest⟩

/-- An event of a connection that leaves `peerId` and the peer as they are. -/
theorem Bound.of_set (hs : s.Bound) {s' : PeerManager} {c : ℕ} {d e : DialledConn}
    (hd : s.conns[c]? = some d) (hpeerId : e.peerId = d.peerId) (hpeer : e.peer = d.peer)
    (hconns : s'.conns = s.conns.set c e)
    (hsessions : ∀ nodeId c', s'.sessions.get? nodeId = some c' →
      s.sessions.get? nodeId = some c') : s'.Bound := by
  intro nodeId c' h
  obtain ⟨d', peerId, hd', hpeerId', hhex, hnode⟩ := hs nodeId c' (hsessions nodeId c' h)
  rw [hconns]
  by_cases hc : c' = c
  · subst hc
    obtain rfl : d = d' := Option.some.inj (hd.symm.trans hd')
    exact ⟨e, peerId, List.getElem?_set_self (List.getElem?_eq_some_iff.mp hd).1,
      hpeerId.trans hpeerId', hhex, hpeer ▸ hnode⟩
  · exact ⟨d', peerId, (List.getElem?_set_ne (Ne.symm hc)).trans hd', hpeerId', hhex, hnode⟩

theorem Bound.onSecure (hs : s.Bound) {c : ℕ} {d : DialledConn} {peerId : Buffer}
    (hd : s.conns[c]? = some d) (h : peerId.hex = d.peer.nodeId) :
    (s.onSecure c d peerId).Bound := by
  have hself : (s.onSecure c d peerId).conns[c]? = some { d with peerId := some peerId } :=
    List.getElem?_set_self (List.getElem?_eq_some_iff.mp hd).1
  intro nodeId c' hget
  by_cases hnode : nodeId = d.peer.nodeId
  · subst hnode
    obtain rfl : c = c' := Option.some.inj (OrderedMap.get?_set_self.symm.trans hget)
    exact ⟨_, peerId, hself, rfl, h, rfl⟩
  · have hold : s.sessions.get? nodeId = some c' :=
      (OrderedMap.get?_set_of_ne hnode).symm.trans hget
    obtain ⟨d', peerId', hd', hpeerId', hhex, hnode'⟩ := hs nodeId c' hold
    have hne : c' ≠ c := by
      rintro rfl
      obtain rfl : d = d' := Option.some.inj (hd.symm.trans hd')
      exact hnode hnode'.symm
    exact ⟨d', peerId', (List.getElem?_set_ne (Ne.symm hne)).trans hd', hpeerId', hhex, hnode'⟩

theorem Bound.next (hs : s.Bound) {e : PeerManagerEvent} (h : s.AsAnnounced e) :
    (s.next e).Bound := by
  cases e with
  | tick peers connects => exact hs.tick connects peers
  | secure c peerId =>
    rw [PeerManager.next]
    cases hd : s.conns[c]? with
    | none => exact hs
    | some d => exact hs.onSecure hd (h d hd)
  | error c =>
    rw [PeerManager.next]
    cases hd : s.conns[c]? with
    | none => exact hs
    | some d => exact hs.of_set (e := { d with failed := true }) hd rfl rfl rfl fun _ _ h ↦ h
  | close c =>
    rw [PeerManager.next]
    cases hd : s.conns[c]? with
    | none => exact hs
    | some d =>
      refine hs.of_set (e := { d with closed := true }) hd rfl rfl rfl fun nodeId c' h ↦ ?_
      rw [Option.elim_some, onClose, OrderedMap.get?_delete] at h
      split at h
      · exact absurd h (by simp)
      · exact h

/-- Nothing compares the identity that the handshake has proved with the one announced. -/
theorem not_authenticated_of_not_asAnnounced {e : PeerManagerEvent} (h : ¬ s.AsAnnounced e) :
    ¬ (s.next e).Authenticated := by
  intro hauth
  cases e with
  | tick peers connects => exact h trivial
  | error c => exact h trivial
  | close c => exact h trivial
  | secure c peerId =>
    refine h fun d hd ↦ ?_
    rw [PeerManager.next, hd, Option.elim_some] at hauth
    obtain ⟨d', peerId', hd', hpeerId, hhex⟩ := hauth d.peer.nodeId c OrderedMap.get?_set_self
    have hself : (s.onSecure c d peerId).conns[c]? = some { d with peerId := some peerId } :=
      List.getElem?_set_self (List.getElem?_eq_some_iff.mp hd).1
    obtain rfl := Option.some.inj (hself.symm.trans hd')
    obtain rfl : peerId = peerId' := Option.some.inj hpeerId
    exact hhex

/-- **A session belongs to the peer it is kept for exactly as long as announcements tell the
truth**: every entry of `sessions` is authenticated in every state of a run exactly when every
endpoint that has answered is the one that was announced. -/
theorem authenticated_iff_asAnnounced (selfId : String) (es : List PeerManagerEvent) :
    Machine.Feasible AsAnnounced next (start selfId) es ↔
      ∀ es₁ es₂, es = es₁ ++ es₂ → (es₁.foldl next (start selfId)).Authenticated :=
  Machine.feasible_iff_forall_prefix (I := Bound) (Q := Authenticated)
    (fun _ hs ↦ hs.authenticated) (fun _ _ hs _ h ↦ hs.next h)
    (fun _ _ _ _ h ↦ not_authenticated_of_not_asAnnounced h)
    (fun _ _ h ↦ absurd h (by simp [start])) Machine.feasible_true

/-! ### A forged announcement -/

/-- What `samplePeer` announces, in the bytes of its datagram. -/
def sampleAnnouncement : Buffer :=
  UdpDiscovery.announce samplePeer.nodeId (.finite 7777) (.finite 7778) "attestp2p-node"

/-- `JSON.parse`, as far as it goes here: it reads the one datagram. -/
def sampleJsonParse (raw : Buffer) : Option Json :=
  if raw = sampleAnnouncement then
    some (.obj [("t", .str "announce"), ("nodeId", .str samplePeer.nodeId),
      ("tcpPort", .num (.finite 7777)), ("securePort", .num (.finite 7778)),
      ("name", .str "attestp2p-node")])
  else none

/-- The same datagram from somebody else's address, who can copy it since it is not signed. -/
def forgedTable : UdpDiscovery :=
  (UdpDiscovery.mk sampleSelf .empty).onMessage sampleJsonParse sampleAnnouncement "10.0.0.66" 0

/-- The table once `samplePeer` has announced itself, a second later. -/
def trueTable : UdpDiscovery :=
  forgedTable.onMessage sampleJsonParse sampleAnnouncement "10.0.0.2" 1000

/-- The identity of the forger, which it proves when it is dialled. -/
def forgerId : Buffer :=
  Json.fromHex "fc51cd8e6218a1a38da47ed00230f0580816ed13ba3303ac5deb911548908025"

/-- The forger is dialled, and proves its own identity. -/
def sampleForgery : List PeerManagerEvent :=
  [.tick forgedTable.getPeers fun _ ↦ true, .secure 0 forgerId]

/-- The forger's connection is kept as the session of the peer, which is not dialled any more. -/
theorem forged_announcement_connected :
    Machine.Feasible enabled next (start sampleSelf) sampleForgery ∧
      ¬ (sampleForgery.foldl next (start sampleSelf)).Authenticated ∧
      ((sampleForgery.foldl next (start sampleSelf)).next
        (.tick trueTable.getPeers fun _ ↦ true)).conns.length = 1 := by
  refine ⟨by decide +kernel, fun hauth ↦ ?_, by decide +kernel⟩
  have hget : (sampleForgery.foldl next (start sampleSelf)).sessions.get? samplePeer.nodeId =
      some 0 := by decide +kernel
  obtain ⟨d, peerId, hd, hpeerId, hhex⟩ := hauth _ 0 hget
  have hforger : ((sampleForgery.foldl next (start sampleSelf)).conns[0]?).bind
      DialledConn.peerId = some forgerId := by decide +kernel
  rw [hd, Option.bind_some, hpeerId] at hforger
  obtain rfl := Option.some.inj hforger
  exact absurd hhex (by decide +kernel)

end PeerManager

end AttestP2P
