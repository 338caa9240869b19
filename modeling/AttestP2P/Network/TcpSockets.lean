import AttestP2P.Lib.Machine
import AttestP2P.Network.TcpServer

/-!
# The packet server and its sockets

`startTCPServer` as a machine: sockets open, receive data, time out and close in any order, and
share one replay guard, one rate limiter and one blacklist.

* A socket is known by the address and the port it is opened from.
* An event comes with the values `Date.now()` returns while it is handled.  No order of time is
  assumed; what needs one says so.
* The guard, the limiter and the blacklist may be options of the server, so that a run may start
  with any.
* `log` holds the console line of each accepted packet and the lines of the attack log, each with
  the address it is about and the time the packet, or the event, was taken up.
-/

set_option autoImplicit false

namespace AttestP2P

/-- The remote address and port of a socket. -/
abbrev SocketId := String × ℕ

/-- What the server has to say about an address. -/
inductive LogLine where
  /-- A connection from a banned address was refused. -/
  | bannedReconnect
  | report (r : Report)

/-- A line of the log, with its time and the address that it is about. -/
structure LogEntry where
  remoteIp : String
  time : ℕ
  line : LogLine

/-- The server, its sockets and its log, which together are the state of a run. -/
structure TcpState where
  server : TcpServer
  sockets : SocketId → Option Socket
  log : List LogEntry

/-- What can happen to a server: the events of its sockets and the ticks of its intervals. -/
inductive TcpEvent where
  /-- A connection comes in. -/
  | connect (id : SocketId) (clock : ℕ → ℕ)
  | data (id : SocketId) (bytes : Buffer) (clock : ℕ → ℕ)
  /-- The interval `partialCheck` of a socket. -/
  | check (id : SocketId) (clock : ℕ → ℕ)
  /-- The socket was idle for too long. -/
  | timeout (id : SocketId)
  /-- The socket is closed, or has an error. -/
  | close (id : SocketId)
  /-- The interval `cleanupTimer`; `allow` and `isBanned` read the clock one after the other. -/
  | cleanup (now now' : ℕ)

/-- The socket an event is about, if it is about one. -/
def TcpEvent.socket? : TcpEvent → Option SocketId
  | .connect id _ => some id
  | .data id _ _ => some id
  | .check id _ => some id
  | .timeout id => some id
  | .close id => some id
  | .cleanup _ _ => none

/-- Close a socket that has been open for too long. -/
def Connection.expire (c : Connection) (now : ℕ) : Connection :=
  if now - c.socket.connectionStart > maxConnectionTime then
    { c with socket := { c.socket with destroyed := true } }
  else c

/-- The interval `partialCheck`: a buffer that has waited too long is an attack, and a connection
that has lasted too long is destroyed. -/
def Connection.partialCheck (c : Connection) (clock : ℕ → ℕ) : Connection × List Report :=
  if 0 < c.socket.buffer.length ∧ clock 0 - c.socket.lastActivity > partialPacketTimeout then
    let (c, reports) := c.flagAttack .slowloris (clock 1)
    (c.expire (clock 0), reports)
  else (c.expire (clock 0), [])

/-- Reports with the times at which what they are about was taken up. -/
def stamp (remoteIp : String) : List Report → (ℕ → ℕ) → List LogEntry
  | [], _ => []
  | r :: reports, clock =>
    ⟨remoteIp, clock 0, .report r⟩ :: stamp remoteIp reports fun k ↦ clock (k + 1)

namespace TcpState

variable (P : Primitives) (secret : HmacSecret)

/-- A handler of the socket has run: the server is what it left, the socket is put back, and what it
reported is logged. -/
def put (s : TcpState) (id : SocketId) (c : Connection) (reports : List LogEntry) : TcpState where
  server := c.server
  sockets := Function.update s.sockets id (some c.socket)
  log := s.log ++ reports

@[simp] theorem put_self (s : TcpState) (id : SocketId) (c : Connection) (reports : List LogEntry) :
    (s.put id c reports).sockets id = some c.socket :=
  Function.update_self id _ _

theorem put_of_ne (s : TcpState) {id j : SocketId} (h : j ≠ id) (c : Connection)
    (reports : List LogEntry) : (s.put id c reports).sockets j = s.sockets j :=
  Function.update_of_ne h _ _

/-- The connection handler: an address that is banned is turned away, and any other gets a
socket. -/
def connect (s : TcpState) (id : SocketId) (clock : ℕ → ℕ) : TcpState :=
  let (blacklist, banned) := s.server.blacklist.isBanned id.1 (clock 0)
  let server := { s.server with blacklist := blacklist }
  if banned then
    { s with server := server, log := s.log ++ [⟨id.1, clock 0, .bannedReconnect⟩] }
  else
    { s with
      server := server
      sockets := Function.update s.sockets id (some { Socket.new id.1 (clock 1) with
        connectionStart := clock 2, rateWindowStart := clock 3 }) }

def next (s : TcpState) : TcpEvent → TcpState
  | .connect id clock => s.connect id clock
  | .data id bytes clock =>
    match s.sockets id with
    | none => s
    | some socket =>
      let (c, reports) := Connection.onData P secret ⟨s.server, socket⟩ bytes clock
      s.put id c (stamp socket.remoteIp reports fun k ↦ clock (k + 1))
  | .check id clock =>
    match s.sockets id with
    | none => s
    | some socket =>
      let (c, reports) := Connection.partialCheck ⟨s.server, socket⟩ clock
      s.put id c (stamp socket.remoteIp reports clock)
  | .timeout id =>
    match s.sockets id with
    | none => s
    | some socket => s.put id ⟨s.server, { socket with destroyed := true }⟩ []
  | .close id => { s with sockets := Function.update s.sockets id none }
  | .cleanup now now' =>
    { s with server := { s.server with
      ipRateLimiter := s.server.ipRateLimiter.cleanup now
      blacklist := s.server.blacklist.cleanup now' } }

/-- A port is used by one socket at a time, and a socket that is destroyed receives no more data. -/
def enabled (s : TcpState) : TcpEvent → Prop
  | .connect id _ => s.sockets id = none
  | .data id _ _ => ∃ socket, s.sockets id = some socket ∧ socket.destroyed = false
  | .check id _ => (s.sockets id).isSome
  | .timeout id => (s.sockets id).isSome
  | .close id => (s.sockets id).isSome
  | .cleanup _ _ => True

instance (s : TcpState) : ∀ e, Decidable (s.enabled e)
  | .connect id _ => inferInstanceAs (Decidable (s.sockets id = none))
  | .data id _ _ =>
    decidable_of_iff ((s.sockets id).any fun socket ↦ !socket.destroyed) (by
      cases h : s.sockets id <;> simp [enabled, h])
  | .check id _ => inferInstanceAs (Decidable ((s.sockets id).isSome))
  | .timeout id => inferInstanceAs (Decidable ((s.sockets id).isSome))
  | .close id => inferInstanceAs (Decidable ((s.sockets id).isSome))
  | .cleanup _ _ => .isTrue trivial

end TcpState

/-- The runs of a server, which starts with any blacklist, limiter and guard, and no socket. -/
def tcpServer (P : Primitives) (secret : HmacSecret) : Machine TcpState TcpEvent :=
  .ofFun (fun s ↦ ∃ server, s = ⟨server, fun _ ↦ none, []⟩) TcpState.enabled
    (TcpState.next P secret)

/-! ## What handlers keep -/

namespace Connection

variable {P : Primitives} {secret : HmacSecret}

theorem countPacket_keeps (s : Socket) (t : ℕ) :
    (countPacket s t).remoteIp = s.remoteIp ∧ (countPacket s t).buffer = s.buffer ∧
      (countPacket s t).destroyed = s.destroyed := by
  rw [countPacket]
  split <;> exact ⟨rfl, rfl, rfl⟩

/-- Of the socket, a packet changes the counter. -/
theorem handlePacket_socket (c : Connection) (packet : Buffer) (now : ℕ) :
    (c.handlePacket P secret packet now).1.socket = countPacket c.socket now := by
  rw [handlePacket]
  simp only
  split
  · rfl
  · split
    · rfl
    · split
      · rfl
      · split <;> rfl

theorem handlePacket_remoteIp (c : Connection) (packet : Buffer) (now : ℕ) :
    (c.handlePacket P secret packet now).1.socket.remoteIp = c.socket.remoteIp := by
  rw [handlePacket_socket, (countPacket_keeps c.socket now).1]

theorem handlePacket_destroyed (c : Connection) (packet : Buffer) (now : ℕ) :
    (c.handlePacket P secret packet now).1.socket.destroyed = c.socket.destroyed := by
  rw [handlePacket_socket, (countPacket_keeps c.socket now).2.2]

theorem handlePackets_remoteIp (c : Connection) (packets : List Buffer) (clock : ℕ → ℕ) :
    (c.handlePackets P secret packets clock).1.socket.remoteIp = c.socket.remoteIp := by
  induction packets generalizing c clock with
  | nil => rfl
  | cons packet packets ih =>
    have hpacket := @handlePacket_remoteIp P secret c packet (clock 0)
    rw [handlePackets]
    split
    · next hstep =>
      rw [hstep] at hpacket
      exact hpacket
    · next c' type appData hstep =>
      rw [hstep] at hpacket
      exact (ih c' _).trans hpacket

theorem onData_remoteIp (c : Connection) (data : Buffer) (clock : ℕ → ℕ) :
    (c.onData P secret data clock).1.socket.remoteIp = c.socket.remoteIp := by
  rw [onData]
  simp only
  split
  · rfl
  · split
    · rfl
    · split
      · exact handlePackets_remoteIp _ _ _
      · exact handlePackets_remoteIp _ _ _

theorem expire_eq (c : Connection) (now : ℕ) : ∃ destroyed,
    c.expire now = { c with socket := { c.socket with destroyed := destroyed } } := by
  rw [expire]
  split
  · exact ⟨true, rfl⟩
  · exact ⟨c.socket.destroyed, rfl⟩

theorem partialCheck_remoteIp (c : Connection) (clock : ℕ → ℕ) :
    (c.partialCheck clock).1.socket.remoteIp = c.socket.remoteIp := by
  have hexpire : ∀ c' : Connection, (c'.expire (clock 0)).socket.remoteIp = c'.socket.remoteIp := by
    intro c'
    obtain ⟨destroyed, heq⟩ := c'.expire_eq (clock 0)
    rw [heq]
  rw [partialCheck]
  split
  · exact hexpire _
  · exact hexpire c

end Connection

/-- Every socket has the address it was opened from. -/
def TcpState.Addressed (s : TcpState) : Prop :=
  ∀ id socket, s.sockets id = some socket → socket.remoteIp = id.1

theorem TcpState.Addressed.put {s : TcpState} (h : s.Addressed) {id : SocketId} {c : Connection}
    (hc : c.socket.remoteIp = id.1) (reports : List LogEntry) : (s.put id c reports).Addressed := by
  intro j socket hj
  by_cases hji : j = id
  · subst hji
    rw [put_self] at hj
    rwa [← Option.some_inj.mp hj]
  · rw [put_of_ne s hji] at hj
    exact h j socket hj

theorem TcpState.Addressed.next {P : Primitives} {secret : HmacSecret} {s : TcpState}
    (h : s.Addressed) (e : TcpEvent) : (s.next P secret e).Addressed := by
  cases e with
  | connect id clock =>
    rw [TcpState.next, TcpState.connect]
    simp only
    split
    · exact h
    · exact h.put (c := ⟨s.server, { Socket.new id.1 (clock 1) with
        connectionStart := clock 2, rateWindowStart := clock 3 }⟩) rfl []
  | data id bytes clock =>
    rw [TcpState.next]
    split
    · exact h
    · next socket hsocket =>
      exact h.put ((Connection.onData_remoteIp ⟨s.server, socket⟩ _ _).trans (h _ _ hsocket)) _
  | check id clock =>
    rw [TcpState.next]
    split
    · exact h
    · next socket hsocket =>
      exact h.put ((Connection.partialCheck_remoteIp ⟨s.server, socket⟩ _).trans (h _ _ hsocket)) _
  | timeout id =>
    rw [TcpState.next]
    split
    · exact h
    · next socket hsocket => exact h.put (h id socket hsocket :) []
  | close id =>
    intro j socket hj
    by_cases hji : j = id
    · rw [hji, show (s.next P secret (.close id)).sockets id = none from
        Function.update_self _ _ _] at hj
      cases hj
    · exact h j socket (hj.symm.trans (Function.update_of_ne hji _ _)).symm
  | cleanup now now' => exact h

end AttestP2P
