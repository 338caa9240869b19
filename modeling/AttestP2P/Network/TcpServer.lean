import AttestP2P.Network.IpBlacklist
import AttestP2P.Network.IpRateLimiter
import AttestP2P.Protocol.Message
import AttestP2P.Protocol.Packet
import AttestP2P.Protocol.Replay

/-!
# The packet server

`src/network/tcpServer.js`: the state all sockets share, the state of one socket, and what its
handlers do.

What the sockets share is the blacklist, the rate limiter and the replay guard.  A socket has its
buffer, the time of its last activity and its own count of packets.  A chunk of data goes behind the
buffer, complete packets are cut off, and each of them passes one check after the other: the rate of
the socket, the rate of the address, HMAC and signature, the envelope, and the replay guard.  An
infraction is reported, strikes the address and destroys the socket (`flagAttack`), and nothing that
is left of the chunk is looked at any more.

A handler reads the clock several times while it runs, so it is given the sequence of values
`Date.now()` returns to it.  After `socket.destroy()` Node delivers no more data events.  Here is
one socket at a time; `Network.TcpSockets` has all of them, with accepts, timers and closes.
-/

set_option autoImplicit false

namespace AttestP2P

/-- The security state shared by all sockets of `startTCPServer`. -/
structure TcpServer where
  replayGuard : ReplayGuard
  ipRateLimiter : IpRateLimiter
  blacklist : IpBlacklist

/-- A fresh server with the default options, that has seen no packet yet. -/
def TcpServer.new : TcpServer where
  replayGuard := .new
  ipRateLimiter := .new
  blacklist := .new

/-- The variables of the connection handler, and whether the socket has been destroyed. -/
structure Socket where
  remoteIp : String
  buffer : Buffer
  lastActivity : ℕ
  connectionStart : ℕ
  packetCount : ℕ
  rateWindowStart : ℕ
  destroyed : Bool

/-- A socket that is accepted at the time `now`. -/
def Socket.new (remoteIp : String) (now : ℕ) : Socket where
  remoteIp := remoteIp
  buffer := []
  lastActivity := now
  connectionStart := now
  packetCount := 0
  rateWindowStart := now
  destroyed := false

/-- The attacks a server flags, with their metadata. -/
inductive Infraction where
  | bufferOverflow (bufferLen : ℕ)
  | rateLimitSocket (packetCount : ℕ)
  | rateLimitIp
  | hmacInvalid
  | signatureInvalid
  | replay (reason : Option String)
  | malformedPacket (error : String)
  | slowloris

/-- What the handlers report to the log of the server. -/
inductive Report where
  /-- "Packet valide reçu". -/
  | valid (type : UInt8) (appData : Buffer)
  | attack (type : Infraction) (strike : Strike)

/-- A socket with the server it belongs to. -/
structure Connection where
  server : TcpServer
  socket : Socket

namespace Connection

variable (P : Primitives) (secret : HmacSecret)

/-- `flagAttack`: the infraction is a strike against the address, and the socket is destroyed. -/
def flagAttack (c : Connection) (type : Infraction) (now : ℕ) : Connection × List Report :=
  let (blacklist, res) := c.server.blacklist.strike c.socket.remoteIp now
  ({ server := { c.server with blacklist := blacklist }
     socket := { c.socket with destroyed := true } }, [.attack type res])

/-- The checks of a packet that do not depend on the state of the server. -/
def authenticate (packet : Buffer) : Except Infraction (Packet × Envelope) :=
  match verifyPacket P secret packet with
  | .error e => .error (.malformedPacket e)
  | .ok false => .error .hmacInvalid
  | .ok true =>
    match parsePacket packet with
    | .error e => .error (.malformedPacket e)
    | .ok parsed =>
      match verifySignature P parsed with
      | .error e => .error (.malformedPacket e)
      | .ok false => .error .signatureInvalid
      | .ok true =>
        match unwrapPayload parsed.payload with
        | .error e => .error (.malformedPacket e)
        | .ok envelope => .ok (parsed, envelope)

/-- The rate limit of a socket, which starts again every second. -/
def countPacket (s : Socket) (now : ℕ) : Socket :=
  let s :=
    if now - s.rateWindowStart > 1000 then { s with packetCount := 0, rateWindowStart := now }
    else s
  { s with packetCount := s.packetCount + 1 }

/-- One turn of the loop over the extracted packets: the packet's type and data, or the attack it
is flagged as. -/
def handlePacket (c : Connection) (packet : Buffer) (now : ℕ) :
    Connection × Except Infraction (UInt8 × Buffer) :=
  let c := { c with socket := countPacket c.socket now }
  if c.socket.packetCount > maxPacketsPerSecond then
    (c, .error (.rateLimitSocket c.socket.packetCount))
  else
    let (limiter, allowed) := c.server.ipRateLimiter.allow c.socket.remoteIp now
    let c := { c with server := { c.server with ipRateLimiter := limiter } }
    if allowed = false then (c, .error .rateLimitIp)
    else
      match authenticate P secret packet with
      | .error i => (c, .error i)
      | .ok (parsed, envelope) =>
        let (guard, verdict) :=
          c.server.replayGuard.check parsed.nodeId envelope.timestamp envelope.nonce now
        let c := { c with server := { c.server with replayGuard := guard } }
        match verdict with
        | .ok => (c, .ok (parsed.type, envelope.data))
        | verdict => (c, .error (.replay verdict.reason))

/-- The loop over the extracted packets, which an attack ends; the last component tells whether it
came to its end.  `clock k` is the time read for the `k`-th packet. -/
def handlePackets (c : Connection) : List Buffer → (ℕ → ℕ) → Connection × List Report × Bool
  | [], _ => (c, [], true)
  | packet :: packets, clock =>
    match c.handlePacket P secret packet (clock 0) with
    | (c, .error i) =>
      let (c, reports) := c.flagAttack i (clock 1)
      (c, reports, false)
    | (c, .ok (type, appData)) =>
      let (c, reports, done) := handlePackets c packets fun k ↦ clock (k + 1)
      (c, .valid type appData :: reports, done)

/-- The handler of `data` events: the bytes join the buffer, the complete packets are cut off and
handled, and the rest is kept. -/
def onData (c : Connection) (data : Buffer) (clock : ℕ → ℕ) : Connection × List Report :=
  let buffer := c.socket.buffer ++ data
  let c := { c with socket := { c.socket with lastActivity := clock 0, buffer := buffer } }
  if buffer.length > maxBufferSize then c.flagAttack (.bufferOverflow buffer.length) (clock 1)
  else
    match extractPackets buffer with
    | .error e => c.flagAttack (.malformedPacket e) (clock 1)
    | .ok (packets, remaining) =>
      let (c, reports, done) := c.handlePackets P secret packets fun k ↦ clock (k + 1)
      if done then ({ c with socket := { c.socket with buffer := remaining } }, reports)
      else (c, reports)

end Connection

end AttestP2P
