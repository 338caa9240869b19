import AttestP2P.Network.IpBlacklist
import AttestP2P.Network.IpRateLimiter
import AttestP2P.Network.TcpSockets
import AttestP2P.Session.EventLoop

/-!
# The session server

`src/network/secureServer.js`: connections come in, each is a responder, and all of them share one
blacklist and one rate limiter through the `security` context that `SecureConnection` asks before it
handles a frame and reports infractions to.

* A connection is known by the address and the port it comes from, and is a `SessionState`.
* `Security.onFrames` is the loop of `_onData` with the answers of the security context, which
  changes with every report of the connection.  A frame that is not allowed is not handled; it is
  reported, and the connection fails.
* `SecureServer.session_next`: whatever the server does, each of its connections does what a
  connection does that is on its own.  So what is known of connections holds of those of a server.

An address that is banned when it connects is turned away at once.  A connection that is there
already when its address is banned is not told; it is the security context that keeps its frames
from the handlers, and `Network.Bans` is about that.
-/

set_option autoImplicit false

namespace AttestP2P

variable {S : Suite Buffer}

/-- What the connections of a server share: the blacklist and the limiter of addresses. -/
structure Security where
  blacklist : IpBlacklist
  ipRateLimiter : IpRateLimiter

namespace Security

/-- `allowFrame`; `clock` is what `isBanned` and `allow` read. -/
def allowFrame (s : Security) (ip : String) (clock : ℕ → ℕ) : Security × Bool :=
  let (blacklist, banned) := s.blacklist.isBanned ip (clock 0)
  let s := { s with blacklist := blacklist }
  if banned then (s, false)
  else
    let (limiter, allowed) := s.ipRateLimiter.allow ip (clock 1)
    ({ s with ipRateLimiter := limiter }, allowed)

/-- `report`, for each report among the effects: a strike against the address of the connection. -/
def report (s : Security) (ip : String) (now : ℕ) : List (Effect S) → Security
  | [] => s
  | .report _ :: w => report { s with blacklist := (s.blacklist.strike ip now).1 } ip now w
  | _ :: w => report s ip now w

end Security

/-- What the outside decides when a frame is received: `clock` holds what `isBanned`, `allow`,
`_handleFrame` and `strike` read. -/
structure ServerTurn (S : Suite Buffer) where
  clock : ℕ → ℕ
  nonce : S.Nonce
  calls : List (ApiCall S)

/-- The turn of the connection, once the security context has answered. -/
def ServerTurn.turn (t : ServerTurn S) (allowFrame : Bool) : Turn S where
  allowFrame := allowFrame
  nonce := t.nonce
  now := t.clock 2
  calls := t.calls

namespace Security

/-- The loop of `_onData`, with the security context of the server; the last component is how many
frames `_handleFrame` has been called with. -/
def onFrames (s : Security) (ip : String) (c : SecureConnection S) :
    List Buffer → (ℕ → ServerTurn S) → Security × SecureConnection S × List (Effect S) × ℕ
  | [], _ => (s, c, [], 0)
  | frame :: frames, turn =>
    let (s, allowed) := s.allowFrame ip (turn 0).clock
    let (c, w) := c.onTurn frame ((turn 0).turn allowed)
    let n := if allowed then 1 else 0
    let s := s.report ip ((turn 0).clock 3) w
    if c.closed then (s, c, w, n)
    else
      let (s, c, w', n') := s.onFrames ip c frames fun i ↦ turn (i + 1)
      (s, c, w ++ w', n + n')

/-- `_onData`; `now` is what the `strike` for an oversize frame reads. -/
def onData (s : Security) (ip : String) (c : SecureConnection S) (chunk : Buffer) (now : ℕ)
    (turn : ℕ → ServerTurn S) : Security × SecureConnection S × List (Effect S) × ℕ :=
  let (c, w, frames) := c.receive chunk
  let (s, c, w', n) := (s.report ip now w).onFrames ip c frames turn
  (s, c, w ++ w', n)

end Security

/-- The server and its connections, each under its address and port. -/
structure SecureServer (S : Suite Buffer) where
  security : Security
  sessions : SocketId → Option (SessionState S)

/-- What can happen to a server: a connection comes in, a chunk arrives, or anything else happens to
a session. -/
inductive SecureServerEvent (S : Suite Buffer) where
  /-- A connection comes in. -/
  | connect (id : SocketId) (signKey : S.SignKey) (ePriv : S.Priv) (clock : ℕ → ℕ)
  | data (id : SocketId) (chunk : Buffer) (now : ℕ) (turn : ℕ → ServerTurn S)
  /-- Anything else that happens to a connection. -/
  | session (id : SocketId) (e : SessionEvent S)
  /-- The interval `cleanupTimer`. -/
  | cleanup (now now' : ℕ)

/-- Whether the event is a `data` event, which the server handles together with what it shares. -/
def SessionEvent.isData : SessionEvent S → Bool
  | .data _ _ => true
  | _ => false

namespace SecureServer

/-- A connection with the address of the server's side is now `x`. -/
def put (s : SecureServer S) (id : SocketId) (x : SessionState S) : SecureServer S :=
  { s with sessions := Function.update s.sessions id (some x) }

def next (options : SessionOptions) (s : SecureServer S) : SecureServerEvent S → SecureServer S
  | .connect id signKey ePriv clock =>
    let (blacklist, banned) := s.security.blacklist.isBanned id.1 (clock 0)
    let s := { s with security := { s.security with blacklist := blacklist } }
    if banned then s else s.put id (.start (.new S false signKey ePriv) options (clock 1))
  | .data id chunk now turn =>
    match s.sessions id with
    | none => s
    | some x =>
      let (security, c, w, n) := s.security.onData id.1 x.conn chunk now turn
      { s.put id { x.act c w with handled := x.handled + n } with security := security }
  | .session id e =>
    match s.sessions id with
    | none => s
    | some x => s.put id (x.next e)
  | .cleanup now now' =>
    { s with security :=
      { ipRateLimiter := s.security.ipRateLimiter.cleanup now
        blacklist := s.security.blacklist.cleanup now' } }

/-- A port is used by one connection at a time, and a connection receives data while it can. -/
def enabled (s : SecureServer S) : SecureServerEvent S → Prop
  | .connect id _ _ _ => ∀ x, s.sessions id = some x → x.socketClosed = true
  | .data id _ _ _ =>
    ∃ x, s.sessions id = some x ∧ x.destroyed = false ∧ x.socketClosed = false
  | .session id e => e.isData = false ∧ ∃ x, s.sessions id = some x ∧ x.enabled e
  | .cleanup _ _ => True

end SecureServer

/-- The runs of a server, from any blacklist and limiter on. -/
def secureServer (S : Suite Buffer) (options : SessionOptions) :
    Machine (SecureServer S) (SecureServerEvent S) :=
  .ofFun (fun s ↦ ∃ security, s = ⟨security, fun _ ↦ none⟩) SecureServer.enabled
    (SecureServer.next options)

/-! ## The connections of a server -/

/-- With the answers of the security context, the loop of the server is the loop of `_onData`. -/
theorem Security.onFrames_eq (s : Security) (ip : String) (c : SecureConnection S)
    (frames : List Buffer) (turn : ℕ → ServerTurn S) :
    ∃ turn', (s.onFrames ip c frames turn).2.1 = (c.onFrames frames turn').1 ∧
      (s.onFrames ip c frames turn).2.2.1 = (c.onFrames frames turn').2.1 ∧
      (s.onFrames ip c frames turn).2.2.2 = (c.onFrames frames turn').2.2 := by
  induction frames generalizing s c turn with
  | nil => exact ⟨fun i ↦ (turn i).turn false, rfl, rfl, rfl⟩
  | cons f frames ih =>
    rw [onFrames]
    generalize hallow : s.allowFrame ip (turn 0).clock = r
    obtain ⟨s', allowed⟩ := r
    simp only
    generalize hturn : c.onTurn f ((turn 0).turn allowed) = r
    obtain ⟨c', w⟩ := r
    simp only
    obtain ⟨later, hc, hw, hn⟩ := ih (s'.report ip ((turn 0).clock 3) w) c'
      fun i ↦ turn (i + 1)
    let turns : ℕ → Turn S
      | 0 => (turn 0).turn allowed
      | i + 1 => later i
    have hcons : c.onFrames (f :: frames) turns =
        if c'.closed then (c', w, if allowed then 1 else 0)
        else ((c'.onFrames frames later).1, w ++ (c'.onFrames frames later).2.1,
          (if allowed then 1 else 0) + (c'.onFrames frames later).2.2) := by
      rw [SecureConnection.onFrames]
      simp only [show c.onTurn f (turns 0) = (c', w) from hturn]
      rfl
    refine ⟨turns, ?_⟩
    rw [hcons]
    cases hclosed : c'.closed with
    | true =>
      simp only [if_true]
      exact ⟨trivial, trivial, trivial⟩
    | false =>
      simp only [Bool.false_eq_true, if_false]
      exact ⟨hc, by rw [hw], by rw [hn]⟩

namespace SecureServer

variable {options : SessionOptions}

/-- **Each connection of a server behaves like a connection on its own**: it is left alone, makes a
step of its own, or is new. -/
theorem session_next (s : SecureServer S) (e : SecureServerEvent S) (id : SocketId) :
    (s.next options e).sessions id = s.sessions id ∨
      (∃ x e', s.sessions id = some x ∧ (s.next options e).sessions id = some (x.next e')) ∨
      ∃ signKey ePriv now, (s.next options e).sessions id =
        some (.start (.new S false signKey ePriv) options now) := by
  have hput : ∀ (s : SecureServer S) (j : SocketId) (x : SessionState S),
      (s.put j x).sessions id = if id = j then some x else s.sessions id := by
    intro s j x
    rw [put]
    exact Function.update_apply _ _ _ _
  cases e with
  | connect j signKey ePriv clock =>
    simp only [next]
    split
    · exact .inl rfl
    · rw [hput]
      split
      · exact .inr (.inr ⟨signKey, ePriv, clock 1, rfl⟩)
      · exact .inl rfl
  | data j chunk now turn =>
    rw [next]
    split
    · exact .inl rfl
    · next x hx =>
      simp only [hput]
      split
      · next hj =>
        subst hj
        refine .inr (.inl ⟨x, ?_⟩)
        simp only [Security.onData]
        obtain ⟨turn', hc, hw, hn⟩ := Security.onFrames_eq
          (s.security.report id.1 now (x.conn.receive chunk).2.1) id.1
          (x.conn.receive chunk).1 (x.conn.receive chunk).2.2 turn
        refine ⟨.data chunk turn', hx, ?_⟩
        rw [hc, hw, hn]
        rfl
      · exact .inl rfl
  | session j e =>
    rw [next]
    split
    · exact .inl rfl
    · next x hx =>
      rw [hput]
      split
      · next hj =>
        subst hj
        exact .inr (.inl ⟨x, e, hx, rfl⟩)
      · exact .inl rfl
  | cleanup now now' => exact .inl rfl

end SecureServer

end AttestP2P
