import AttestP2P.Network.PacketStream

/-!
# Addresses do not interfere

The sockets of a server share a replay guard, a rate limiter and a blacklist.  Traffic that is not
authentic leaves no trace in them but under the address it comes from, so that an address `h` is
treated as if the sockets of all others were not there.

* `AgreeOn h` says that two states of the server treat `h` alike: the same guard, and the same
  counters, strikes and bans of `h`.
* What a socket of another address does keeps the server in agreement with what it was
  (`agreeOn_of_other`); what a socket of `h` does keeps two servers in agreement, and shows the same
  reports (`AgreeOn.onData`, `AgreeOn.partialCheck`).
* `Machine.Run.erase` makes runs of it.
-/

set_option autoImplicit false

namespace AttestP2P

/-! ## The limiter -/

namespace IpRateLimiter

/-- The two limiters treat `h` alike, whatever they have counted of other addresses. -/
structure AgreeOn (h : String) (a b : IpRateLimiter) : Prop where
  limit : a.limit = b.limit
  windowMs : a.windowMs = b.windowMs
  counters : a.counters.get? h = b.counters.get? h

variable {h ip : String} {a b : IpRateLimiter}

theorem AgreeOn.allow (hab : AgreeOn h a b) (now : ℕ) :
    (a.allow h now).2 = (b.allow h now).2 ∧ AgreeOn h (a.allow h now).1 (b.allow h now).1 := by
  have hwindow : a.window h now = b.window h now := by
    rw [window, window, hab.counters, hab.windowMs]
  refine ⟨?_, hab.limit, hab.windowMs, ?_⟩
  · rw [IpRateLimiter.allow, IpRateLimiter.allow, hwindow, hab.limit]
  · rw [IpRateLimiter.allow, IpRateLimiter.allow, hwindow, OrderedMap.get?_set_self,
      OrderedMap.get?_set_self]

theorem agreeOn_allow (hip : ip ≠ h) (a : IpRateLimiter) (now : ℕ) :
    AgreeOn h (a.allow ip now).1 a :=
  ⟨rfl, rfl, OrderedMap.get?_set_of_ne hip.symm⟩

theorem AgreeOn.cleanup (hab : AgreeOn h a b) (now : ℕ) :
    AgreeOn h (a.cleanup now) (b.cleanup now) := by
  refine ⟨hab.limit, hab.windowMs, ?_⟩
  rw [IpRateLimiter.cleanup, IpRateLimiter.cleanup, OrderedMap.get?_filter, OrderedMap.get?_filter,
    hab.counters, hab.windowMs]

end IpRateLimiter

/-! ## The blacklist -/

namespace IpBlacklist

/-- The two blacklists treat `h` alike, whatever they hold against other addresses. -/
structure AgreeOn (h : String) (a b : IpBlacklist) : Prop where
  banMs : a.banMs = b.banMs
  strikeThreshold : a.strikeThreshold = b.strikeThreshold
  strikeWindowMs : a.strikeWindowMs = b.strikeWindowMs
  strikes : a.strikes.get? h = b.strikes.get? h
  bans : a.bans.get? h = b.bans.get? h

variable {h ip : String} {a b c : IpBlacklist}

theorem AgreeOn.refl (h : String) (a : IpBlacklist) : AgreeOn h a a := ⟨rfl, rfl, rfl, rfl, rfl⟩

theorem AgreeOn.trans (hab : AgreeOn h a b) (hbc : AgreeOn h b c) : AgreeOn h a c where
  banMs := hab.banMs.trans hbc.banMs
  strikeThreshold := hab.strikeThreshold.trans hbc.strikeThreshold
  strikeWindowMs := hab.strikeWindowMs.trans hbc.strikeWindowMs
  strikes := hab.strikes.trans hbc.strikes
  bans := hab.bans.trans hbc.bans

theorem AgreeOn.isBanned (hab : AgreeOn h a b) (now : ℕ) :
    (a.isBanned h now).2 = (b.isBanned h now).2 ∧
      AgreeOn h (a.isBanned h now).1 (b.isBanned h now).1 := by
  have hbans := hab.bans
  rw [IpBlacklist.isBanned, IpBlacklist.isBanned, ← hbans]
  split
  · exact ⟨rfl, hab⟩
  · split
    · refine ⟨rfl, hab.banMs, hab.strikeThreshold, hab.strikeWindowMs, hab.strikes, ?_⟩
      rw [OrderedMap.get?_delete, OrderedMap.get?_delete, if_pos rfl, if_pos rfl]
    · exact ⟨rfl, hab⟩

theorem agreeOn_isBanned (hip : ip ≠ h) (a : IpBlacklist) (now : ℕ) :
    AgreeOn h (a.isBanned ip now).1 a := by
  rw [IpBlacklist.isBanned]
  split
  · exact .refl h a
  · split
    · refine ⟨rfl, rfl, rfl, rfl, ?_⟩
      rw [OrderedMap.get?_delete, if_neg hip.symm]
    · exact .refl h a

theorem AgreeOn.ban (hab : AgreeOn h a b) (now : ℕ) : AgreeOn h (a.ban h now) (b.ban h now) := by
  refine ⟨hab.banMs, hab.strikeThreshold, hab.strikeWindowMs, ?_, ?_⟩
  · rw [IpBlacklist.ban, IpBlacklist.ban, OrderedMap.get?_delete, OrderedMap.get?_delete,
      if_pos rfl, if_pos rfl]
  · rw [IpBlacklist.ban, IpBlacklist.ban, OrderedMap.get?_set_self, OrderedMap.get?_set_self,
      hab.banMs]

theorem agreeOn_ban (hip : ip ≠ h) (a : IpBlacklist) (now : ℕ) : AgreeOn h (a.ban ip now) a := by
  refine ⟨rfl, rfl, rfl, ?_, OrderedMap.get?_set_of_ne hip.symm⟩
  rw [IpBlacklist.ban, OrderedMap.get?_delete, if_neg hip.symm]

theorem AgreeOn.set_strikes (hab : AgreeOn h a b) (ip : String) (s : StrikeWindow) :
    AgreeOn h { a with strikes := a.strikes.set ip s }
      { b with strikes := b.strikes.set ip s } := by
  refine ⟨hab.banMs, hab.strikeThreshold, hab.strikeWindowMs, ?_, hab.bans⟩
  rw [OrderedMap.get?_set, OrderedMap.get?_set, hab.strikes]

theorem agreeOn_set_strikes (hip : ip ≠ h) (a : IpBlacklist) (s : StrikeWindow) :
    AgreeOn h { a with strikes := a.strikes.set ip s } a :=
  ⟨rfl, rfl, rfl, OrderedMap.get?_set_of_ne hip.symm, rfl⟩

theorem AgreeOn.strike (hab : AgreeOn h a b) (now : ℕ) :
    (a.strike h now).2 = (b.strike h now).2 ∧
      AgreeOn h (a.strike h now).1 (b.strike h now).1 := by
  obtain ⟨hbanned, hagree⟩ := hab.isBanned now
  rw [IpBlacklist.strike, IpBlacklist.strike]
  generalize a.isBanned h now = r at hbanned hagree
  generalize b.isBanned h now = r' at hbanned hagree
  obtain ⟨a', banned⟩ := r
  obtain ⟨b', banned'⟩ := r'
  obtain rfl : banned = banned' := hbanned
  replace hagree : AgreeOn h a' b' := hagree
  cases banned with
  | true => exact ⟨by simp only [hagree.strikeThreshold], hagree⟩
  | false =>
    have hwindow : a'.window h now = b'.window h now := by
      rw [window, window, hagree.strikes, hagree.strikeWindowMs]
    have hset := hagree.set_strikes h { b'.window h now with count := (b'.window h now).count + 1 }
    have hthreshold := hagree.strikeThreshold
    simp only [hwindow]
    by_cases hfull : (b'.window h now).count + 1 ≥ b'.strikeThreshold
    · simp only [hfull, hthreshold.symm ▸ hfull, if_true]
      exact ⟨trivial, hset.ban now⟩
    · simp only [hfull, hthreshold.symm ▸ hfull, if_false]
      exact ⟨trivial, hset⟩

theorem agreeOn_strike (hip : ip ≠ h) (a : IpBlacklist) (now : ℕ) :
    AgreeOn h (a.strike ip now).1 a := by
  have hagree := agreeOn_isBanned hip a now
  rw [IpBlacklist.strike]
  generalize a.isBanned ip now = r at hagree
  obtain ⟨a', banned⟩ := r
  cases banned with
  | true => exact hagree
  | false =>
    have hset := (agreeOn_set_strikes hip a'
      { a'.window ip now with count := (a'.window ip now).count + 1 }).trans hagree
    simp only
    split
    · exact (agreeOn_ban hip _ now).trans hset
    · exact hset

theorem AgreeOn.cleanup (hab : AgreeOn h a b) (now : ℕ) :
    AgreeOn h (a.cleanup now) (b.cleanup now) := by
  refine ⟨hab.banMs, hab.strikeThreshold, hab.strikeWindowMs, ?_, ?_⟩
  · rw [IpBlacklist.cleanup, IpBlacklist.cleanup, OrderedMap.get?_filter, OrderedMap.get?_filter,
      hab.strikes, hab.strikeWindowMs]
  · rw [IpBlacklist.cleanup, IpBlacklist.cleanup, OrderedMap.get?_filter, OrderedMap.get?_filter,
      hab.bans]

end IpBlacklist

/-! ## The server

Both servers are given the same event.  What a socket of the address does depends on the shared
state only where the two agree, and changes it in the same way. -/

namespace TcpServer

/-- The two servers treat `h` alike: they share a replay guard, and agree on the address
elsewhere. -/
structure AgreeOn (h : String) (a b : TcpServer) : Prop where
  replayGuard : a.replayGuard = b.replayGuard
  ipRateLimiter : a.ipRateLimiter.AgreeOn h b.ipRateLimiter
  blacklist : a.blacklist.AgreeOn h b.blacklist

variable {h : String} {a b c : TcpServer}

theorem AgreeOn.refl (h : String) (a : TcpServer) : AgreeOn h a a :=
  ⟨rfl, ⟨rfl, rfl, rfl⟩, .refl h _⟩

theorem AgreeOn.trans (hab : AgreeOn h a b) (hbc : AgreeOn h b c) : AgreeOn h a c where
  replayGuard := hab.replayGuard.trans hbc.replayGuard
  ipRateLimiter :=
    ⟨hab.ipRateLimiter.limit.trans hbc.ipRateLimiter.limit,
      hab.ipRateLimiter.windowMs.trans hbc.ipRateLimiter.windowMs,
      hab.ipRateLimiter.counters.trans hbc.ipRateLimiter.counters⟩
  blacklist := hab.blacklist.trans hbc.blacklist

end TcpServer

namespace Connection

variable {P : Primitives} {secret : HmacSecret} {h : String}

/-- Two connections from `h` that the server treats alike. -/
structure Alike (h : String) (c c' : Connection) : Prop where
  server : c.server.AgreeOn h c'.server
  socket : c.socket = c'.socket
  remoteIp : c'.socket.remoteIp = h

theorem Alike.flagAttack {c c' : Connection} (hc : Alike h c c') (i : Infraction) (now : ℕ) :
    (c.flagAttack i now).2 = (c'.flagAttack i now).2 ∧
      Alike h (c.flagAttack i now).1 (c'.flagAttack i now).1 := by
  obtain ⟨hres, hblacklist⟩ := hc.server.blacklist.strike now
  have hip := hc.remoteIp
  refine ⟨?_, ⟨hc.server.replayGuard, hc.server.ipRateLimiter, ?_⟩, ?_, hip⟩
  · simp only [Connection.flagAttack, hc.socket, hip, hres]
  · simpa only [Connection.flagAttack, hc.socket, hip] using hblacklist
  · simp only [Connection.flagAttack, hc.socket]

/-- **A packet of `h`** has one fate in both. -/
theorem Alike.handlePacket {c c' : Connection} (hc : Alike h c c') (packet : Buffer) (now : ℕ) :
    (c.handlePacket P secret packet now).2 = (c'.handlePacket P secret packet now).2 ∧
      Alike h (c.handlePacket P secret packet now).1 (c'.handlePacket P secret packet now).1 := by
  obtain ⟨⟨guard, limiter, blacklist⟩, socket⟩ := c
  obtain ⟨⟨guard', limiter', blacklist'⟩, socket'⟩ := c'
  obtain ⟨⟨rfl, hlimiter, hblacklist⟩, rfl, hip⟩ := hc
  have hcount : (countPacket socket now).remoteIp = h := (countPacket_keeps socket now).1.trans hip
  obtain ⟨hallowed, hcounted⟩ := hlimiter.allow now
  rw [Connection.handlePacket, Connection.handlePacket]
  simp only [hcount, hallowed]
  split
  · exact ⟨rfl, ⟨rfl, hlimiter, hblacklist⟩, rfl, hcount⟩
  · split
    · exact ⟨rfl, ⟨rfl, hcounted, hblacklist⟩, rfl, hcount⟩
    · split
      · exact ⟨rfl, ⟨rfl, hcounted, hblacklist⟩, rfl, hcount⟩
      · split <;> exact ⟨rfl, ⟨rfl, hcounted, hblacklist⟩, rfl, hcount⟩

theorem Alike.handlePackets {c c' : Connection} (hc : Alike h c c') (packets : List Buffer)
    (clock : ℕ → ℕ) :
    (c.handlePackets P secret packets clock).2 = (c'.handlePackets P secret packets clock).2 ∧
      Alike h (c.handlePackets P secret packets clock).1
        (c'.handlePackets P secret packets clock).1 := by
  induction packets generalizing c c' clock with
  | nil => exact ⟨rfl, hc⟩
  | cons packet packets ih =>
    obtain ⟨hres, hnext⟩ := @Alike.handlePacket P secret h c c' hc packet (clock 0)
    rw [Connection.handlePackets, Connection.handlePackets]
    generalize c.handlePacket P secret packet (clock 0) = r at hres hnext
    generalize c'.handlePacket P secret packet (clock 0) = r' at hres hnext
    obtain ⟨c₁, res⟩ := r
    obtain ⟨c₁', res'⟩ := r'
    obtain rfl : res = res' := hres
    cases res with
    | error i =>
      obtain ⟨hflag, hflagged⟩ := hnext.flagAttack i (clock 1)
      exact ⟨by simp only [hflag], hflagged⟩
    | ok v =>
      obtain ⟨hrest, hend⟩ := ih hnext fun k ↦ clock (k + 1)
      exact ⟨by simp only [hrest], hend⟩

/-- **A data event of `h`** shows the same reports in both. -/
theorem Alike.onData {c c' : Connection} (hc : Alike h c c') (data : Buffer) (clock : ℕ → ℕ) :
    (c.onData P secret data clock).2 = (c'.onData P secret data clock).2 ∧
      Alike h (c.onData P secret data clock).1 (c'.onData P secret data clock).1 := by
  have hbuffered : Alike h
      { c with socket := { c.socket with
        lastActivity := clock 0, buffer := c.socket.buffer ++ data } }
      { c' with socket := { c'.socket with
        lastActivity := clock 0, buffer := c'.socket.buffer ++ data } } :=
    ⟨hc.server, by rw [hc.socket], hc.remoteIp⟩
  rw [Connection.onData, Connection.onData]
  simp only [hc.socket] at hbuffered ⊢
  split
  · exact hbuffered.flagAttack _ _
  · split
    · exact hbuffered.flagAttack _ _
    · next packets remaining _ =>
      obtain ⟨hres, hend⟩ :=
        @Alike.handlePackets P secret h _ _ hbuffered packets fun k ↦ clock (k + 1)
      generalize Connection.handlePackets P secret ⟨c.server, _⟩ packets _ = r at hres hend
      generalize Connection.handlePackets P secret ⟨c'.server, _⟩ packets _ = r' at hres hend
      obtain ⟨c₁, reports, done⟩ := r
      obtain ⟨c₁', reports', done'⟩ := r'
      obtain ⟨rfl, rfl⟩ : reports = reports' ∧ done = done' := Prod.mk.inj hres
      cases done with
      | true =>
        exact ⟨rfl, hend.server, congrArg (fun x ↦ { x with buffer := remaining }) hend.socket,
          hend.remoteIp⟩
      | false => exact ⟨rfl, hend⟩

theorem Alike.expire {c c' : Connection} (hc : Alike h c c') (now : ℕ) :
    Alike h (c.expire now) (c'.expire now) := by
  rw [Connection.expire, Connection.expire, hc.socket]
  split
  · exact ⟨hc.server, rfl, hc.remoteIp⟩
  · exact hc

theorem Alike.partialCheck {c c' : Connection} (hc : Alike h c c') (clock : ℕ → ℕ) :
    (c.partialCheck clock).2 = (c'.partialCheck clock).2 ∧
      Alike h (c.partialCheck clock).1 (c'.partialCheck clock).1 := by
  obtain ⟨hres, hflagged⟩ := hc.flagAttack .slowloris (clock 1)
  rw [Connection.partialCheck, Connection.partialCheck, hc.socket]
  split
  · exact ⟨hres, hflagged.expire (clock 0)⟩
  · exact ⟨rfl, hc.expire (clock 0)⟩

/-! ### Sockets of other addresses

A packet that is not authentic is stopped before the replay guard is asked.  What is counted for it
is counted under the address it came from. -/

/-- The packet passes both `verifyPacket` and `verifySignature`. -/
def Authentic (P : Primitives) (secret : HmacSecret) (packet : Buffer) : Prop :=
  verifyPacket P secret packet = .ok true ∧
    ∃ parsed, parsePacket packet = .ok parsed ∧ verifySignature P parsed = .ok true

theorem authentic_of_authenticate {packet : Buffer} {v : Packet × Envelope}
    (hv : authenticate P secret packet = .ok v) : Authentic P secret packet := by
  rw [authenticate] at hv
  split at hv
  · cases hv
  · cases hv
  · next hverify =>
    split at hv
    · cases hv
    · next parsed hparsed =>
      split at hv
      · cases hv
      · cases hv
      · next hsignature => exact ⟨hverify, parsed, hparsed, hsignature⟩

theorem agreeOn_flagAttack {c : Connection} (hc : c.socket.remoteIp ≠ h) (i : Infraction)
    (now : ℕ) : (c.flagAttack i now).1.server.AgreeOn h c.server :=
  ⟨rfl, ⟨rfl, rfl, rfl⟩, IpBlacklist.agreeOn_strike hc _ now⟩

/-- A packet that is not authentic does not get as far as the replay guard. -/
theorem agreeOn_handlePacket {c : Connection} (hc : c.socket.remoteIp ≠ h) {packet : Buffer}
    (hpacket : ¬ Authentic P secret packet) (now : ℕ) :
    (c.handlePacket P secret packet now).1.server.AgreeOn h c.server := by
  have hip : (countPacket c.socket now).remoteIp ≠ h := by
    rwa [(countPacket_keeps c.socket now).1]
  have hcounted := IpRateLimiter.agreeOn_allow hip c.server.ipRateLimiter now
  rw [handlePacket]
  simp only
  split
  · exact .refl h c.server
  · split
    · exact ⟨rfl, hcounted, .refl h _⟩
    · split
      · exact ⟨rfl, hcounted, .refl h _⟩
      · next hauthenticate => exact absurd (authentic_of_authenticate hauthenticate) hpacket

theorem agreeOn_handlePackets {c : Connection} (hc : c.socket.remoteIp ≠ h)
    {packets : List Buffer} (hpackets : ∀ x ∈ packets, ¬ Authentic P secret x) (clock : ℕ → ℕ) :
    (c.handlePackets P secret packets clock).1.server.AgreeOn h c.server := by
  induction packets generalizing c clock with
  | nil => exact .refl h c.server
  | cons packet packets ih =>
    have hstep := agreeOn_handlePacket hc (hpackets packet List.mem_cons_self) (clock 0)
    have hip := @handlePacket_remoteIp P secret c packet (clock 0)
    rw [handlePackets]
    generalize c.handlePacket P secret packet (clock 0) = r at hstep hip
    obtain ⟨c₁, res⟩ := r
    have hc₁ : c₁.socket.remoteIp ≠ h := fun heq ↦ hc (hip.symm.trans heq)
    cases res with
    | error i => exact (agreeOn_flagAttack hc₁ i (clock 1)).trans hstep
    | ok v =>
      exact (ih hc₁ (fun x hx ↦ hpackets x (List.mem_cons_of_mem packet hx)) _).trans hstep

/-- **Data that forms no authentic packet** changes nothing for another address. -/
theorem agreeOn_onData {c : Connection} (hc : c.socket.remoteIp ≠ h) {data : Buffer}
    (hdata : ∀ x ∈ (packetCutter.split (c.socket.buffer ++ data)).1, ¬ Authentic P secret x)
    (clock : ℕ → ℕ) : (c.onData P secret data clock).1.server.AgreeOn h c.server := by
  have hflag : ∀ i now, ((⟨c.server, { c.socket with
      lastActivity := clock 0, buffer := c.socket.buffer ++ data }⟩ : Connection).flagAttack
        i now).1.server.AgreeOn h c.server := fun i now ↦ agreeOn_flagAttack hc i now
  rw [onData]
  simp only
  split
  · exact hflag _ _
  · split
    · exact hflag _ _
    · next packets remaining hextract =>
      have hpackets : packets = (packetCutter.split (c.socket.buffer ++ data)).1 := by
        rw [extractPackets] at hextract
        split at hextract
        · cases hextract
        · exact (congrArg Prod.fst (Except.ok.inj hextract)).symm
      have hagree := @agreeOn_handlePackets P secret h
        ⟨c.server, { c.socket with
          lastActivity := clock 0, buffer := c.socket.buffer ++ data }⟩ hc packets
        (by rwa [hpackets]) fun k ↦ clock (k + 1)
      split
      · exact hagree
      · exact hagree

theorem agreeOn_partialCheck {c : Connection} (hc : c.socket.remoteIp ≠ h) (clock : ℕ → ℕ) :
    (c.partialCheck clock).1.server.AgreeOn h c.server := by
  have hexpire : ∀ c' : Connection, (c'.expire (clock 0)).server = c'.server := by
    intro c'
    obtain ⟨destroyed, heq⟩ := c'.expire_eq (clock 0)
    rw [heq]
  rw [partialCheck]
  split
  · show ((c.flagAttack .slowloris (clock 1)).1.expire (clock 0)).server.AgreeOn h c.server
    rw [hexpire]
    exact agreeOn_flagAttack hc _ _
  · show (c.expire (clock 0)).server.AgreeOn h c.server
    rw [hexpire]
    exact .refl h c.server

end Connection

/-! ## Runs

The events of other addresses are taken out of a run, one after the other, and what is left is a run
with the same log for the address. -/

/-- The event is a cleanup, or about a socket of the address. -/
def TcpEvent.concerns (h : String) (e : TcpEvent) : Bool := e.socket?.all fun id ↦ id.1 = h

namespace TcpState

variable {P : Primitives} {secret : HmacSecret} {h : String}

/-- What is logged about the address, in the order of the log. -/
def logOf (s : TcpState) (h : String) : List LogEntry := s.log.filter fun e ↦ e.remoteIp = h

/-- If the event is data on a socket of another address, no packet it completes passes both
`verifyPacket` and `verifySignature`. -/
def Unauthenticated (P : Primitives) (secret : HmacSecret) (h : String) (s : TcpState) :
    TcpEvent → Prop
  | .data id bytes _ => id.1 = h ∨ ∀ socket, s.sockets id = some socket →
      ∀ x ∈ (packetCutter.split (socket.buffer ++ bytes)).1, ¬ Connection.Authentic P secret x
  | _ => True

/-- Two states of which the second has no sockets but those of `h`. -/
structure Related (h : String) (s t : TcpState) : Prop where
  server : s.server.AgreeOn h t.server
  sockets : ∀ port, s.sockets (h, port) = t.sockets (h, port)
  logOf : s.logOf h = t.logOf h
  addressed : s.Addressed

theorem mem_stamp {ip : String} {reports : List Report} {clock : ℕ → ℕ} {e : LogEntry}
    (he : e ∈ stamp ip reports clock) : e.remoteIp = ip := by
  induction reports generalizing clock with
  | nil => cases he
  | cons r reports ih =>
    rcases List.mem_cons.mp he with rfl | he
    · rfl
    · exact ih he

theorem logOf_append_of_other {s : TcpState} {entries : List LogEntry}
    (hother : ∀ e ∈ entries, e.remoteIp ≠ h) :
    (s.log ++ entries).filter (fun e ↦ e.remoteIp = h) = s.logOf h := by
  have hnone : entries.filter (fun e ↦ e.remoteIp = h) = [] :=
    List.filter_eq_nil_iff.mpr fun e he ↦ by simpa using hother e he
  rw [List.filter_append, hnone, List.append_nil, logOf]

/-- What a socket of another address does changes nothing that `h` can notice, if the replay guard
agrees. -/
theorem Related.put {s t : TcpState} (hst : Related h s t) {id : SocketId} (hid : id.1 ≠ h)
    {c : Connection} (hc : c.server.AgreeOn h s.server) (hip : c.socket.remoteIp = id.1)
    {entries : List LogEntry} (hentries : ∀ e ∈ entries, e.remoteIp = id.1) :
    Related h (s.put id c entries) t where
  server := hc.trans hst.server
  sockets port := by
    rw [put_of_ne s (by rintro rfl; exact hid rfl)]
    exact hst.sockets port
  logOf :=
    (logOf_append_of_other fun e he heq ↦ hid ((hentries e he).symm.trans heq)).trans hst.logOf
  addressed := hst.addressed.put hip entries

/-- What a socket of the address does, in both. -/
theorem Related.put_both {s t : TcpState} (hst : Related h s t) {id : SocketId} {c c' : Connection}
    (hc : Connection.Alike h c c') (hip : c.socket.remoteIp = id.1) (entries : List LogEntry) :
    Related h (s.put id c entries) (t.put id c' entries) where
  server := hc.server
  sockets port := by
    by_cases hport : (h, port) = id
    · rw [hport, put_self, put_self, hc.socket]
    · rw [put_of_ne s hport, put_of_ne t hport]
      exact hst.sockets port
  logOf := by
    show (s.log ++ entries).filter _ = (t.log ++ entries).filter _
    rw [List.filter_append, List.filter_append]
    exact congrArg (· ++ _) hst.logOf
  addressed := hst.addressed.put hip entries

/-- An event that does not concern the address. -/
theorem Related.hidden {s t : TcpState} {e : TcpEvent} (hst : Related h s t)
    (he : e.concerns h = false) (hjunk : s.Unauthenticated P secret h e) :
    Related h (s.next P secret e) t := by
  have hother : ∀ id, e.socket? = some id → id.1 ≠ h := by
    intro id hid heq
    rw [TcpEvent.concerns, hid, Option.all_some, heq] at he
    simp at he
  cases e with
  | connect id clock =>
    have hid := hother id rfl
    have hagree : { s.server with
        blacklist := (s.server.blacklist.isBanned id.1 (clock 0)).1 }.AgreeOn h s.server :=
      ⟨rfl, ⟨rfl, rfl, rfl⟩, IpBlacklist.agreeOn_isBanned hid _ _⟩
    rw [TcpState.next, TcpState.connect]
    simp only
    split
    · refine ⟨hagree.trans hst.server, hst.sockets, ?_, hst.addressed⟩
      exact (logOf_append_of_other fun e he ↦ by
        rw [List.mem_singleton.mp he]
        exact hid).trans hst.logOf
    · have hput := hst.put hid (c := ⟨{ s.server with
        blacklist := (s.server.blacklist.isBanned id.1 (clock 0)).1 },
        { Socket.new id.1 (clock 1) with
          connectionStart := clock 2, rateWindowStart := clock 3 }⟩) hagree rfl
        (fun e he ↦ absurd he List.not_mem_nil)
      rwa [TcpState.put, List.append_nil] at hput
  | data id bytes clock =>
    have hid := hother id rfl
    rw [TcpState.next]
    split
    · exact hst
    · next socket hsocket =>
      have hip := hst.addressed id socket hsocket
      refine hst.put hid (Connection.agreeOn_onData (by rwa [hip])
        (hjunk.resolve_left hid socket hsocket) clock)
        ((Connection.onData_remoteIp ⟨s.server, socket⟩ _ _).trans hip) fun e he ↦ ?_
      rw [mem_stamp he, hip]
  | check id clock =>
    have hid := hother id rfl
    rw [TcpState.next]
    split
    · exact hst
    · next socket hsocket =>
      have hip := hst.addressed id socket hsocket
      refine hst.put hid (Connection.agreeOn_partialCheck (by rwa [hip]) clock)
        ((Connection.partialCheck_remoteIp ⟨s.server, socket⟩ _).trans hip) fun e he ↦ ?_
      rw [mem_stamp he, hip]
  | timeout id =>
    have hid := hother id rfl
    rw [TcpState.next]
    split
    · exact hst
    · next socket hsocket =>
      exact hst.put hid (.refl h _) (hst.addressed id socket hsocket :)
        fun e he ↦ absurd he List.not_mem_nil
  | close id =>
    have hid := hother id rfl
    refine ⟨hst.server, fun port ↦ ?_, hst.logOf, hst.addressed.next (P := P) (.close id)⟩
    refine Eq.trans (Function.update_of_ne ?_ _ _) (hst.sockets port)
    rintro rfl
    exact hid rfl
  | cleanup now now' => simp [TcpEvent.concerns, TcpEvent.socket?] at he

theorem Related.sockets_eq {s t : TcpState} (hst : Related h s t) {id : SocketId} (hid : id.1 = h) :
    s.sockets id = t.sockets id := by
  have hport := hst.sockets id.2
  rwa [← hid] at hport

/-- An event that concerns the address is possible in both or in none. -/
theorem Related.enabled {s t : TcpState} {e : TcpEvent} (hst : Related h s t)
    (he : e.concerns h = true) (henabled : s.enabled e) : t.enabled e := by
  have hsockets : ∀ id, e.socket? = some id → s.sockets id = t.sockets id := by
    intro id hid
    rw [TcpEvent.concerns, hid, Option.all_some, decide_eq_true_eq] at he
    exact hst.sockets_eq he
  cases e with
  | connect id clock => exact (hsockets id rfl).symm.trans henabled
  | data id bytes clock =>
    obtain ⟨socket, hsocket, hopen⟩ := henabled
    exact ⟨socket, (hsockets id rfl).symm.trans hsocket, hopen⟩
  | check id clock =>
    show (t.sockets id).isSome = true
    rw [← hsockets id rfl]
    exact henabled
  | timeout id =>
    show (t.sockets id).isSome = true
    rw [← hsockets id rfl]
    exact henabled
  | close id =>
    show (t.sockets id).isSome = true
    rw [← hsockets id rfl]
    exact henabled
  | cleanup now now' => trivial

/-- An event that concerns the address has the same outcome in both. -/
theorem Related.visible {s t : TcpState} {e : TcpEvent} (hst : Related h s t)
    (he : e.concerns h = true) : Related h (s.next P secret e) (t.next P secret e) := by
  have hid : ∀ id, e.socket? = some id → id.1 = h := by
    intro id hid
    rwa [TcpEvent.concerns, hid, Option.all_some, decide_eq_true_eq] at he
  cases e with
  | connect id clock =>
    have hip := hid id rfl
    obtain ⟨hbanned, hblacklist⟩ := hst.server.blacklist.isBanned (clock 0)
    have hserver : TcpServer.AgreeOn h
        { s.server with blacklist := (s.server.blacklist.isBanned h (clock 0)).1 }
        { t.server with blacklist := (t.server.blacklist.isBanned h (clock 0)).1 } :=
      ⟨hst.server.replayGuard, hst.server.ipRateLimiter, hblacklist⟩
    rw [TcpState.next, TcpState.next, TcpState.connect, TcpState.connect]
    simp only [hip, hbanned]
    split
    · refine ⟨hserver, hst.sockets, ?_, hst.addressed⟩
      show (s.log ++ _).filter _ = (t.log ++ _).filter _
      rw [List.filter_append, List.filter_append]
      exact congrArg (· ++ _) hst.logOf
    · have halike : Connection.Alike h
          ⟨{ s.server with blacklist := (s.server.blacklist.isBanned h (clock 0)).1 },
            { Socket.new h (clock 1) with connectionStart := clock 2, rateWindowStart := clock 3 }⟩
          ⟨{ t.server with blacklist := (t.server.blacklist.isBanned h (clock 0)).1 },
            { Socket.new h (clock 1) with
              connectionStart := clock 2, rateWindowStart := clock 3 }⟩ :=
        ⟨hserver, rfl, rfl⟩
      have hput := hst.put_both halike hip.symm []
      rwa [TcpState.put, TcpState.put, List.append_nil, List.append_nil] at hput
  | data id bytes clock =>
    have hsockets := hst.sockets_eq (hid id rfl)
    rw [TcpState.next, TcpState.next, ← hsockets]
    split
    · exact hst
    · next socket hsocket =>
      have hip := hst.addressed id socket hsocket
      have halike : Connection.Alike h ⟨s.server, socket⟩ ⟨t.server, socket⟩ :=
        ⟨hst.server, rfl, hip.trans (hid id rfl)⟩
      obtain ⟨hres, hend⟩ := @Connection.Alike.onData P secret h _ _ halike bytes clock
      simp only [hres]
      exact hst.put_both hend ((Connection.onData_remoteIp ⟨s.server, socket⟩ _ _).trans hip) _
  | check id clock =>
    have hsockets := hst.sockets_eq (hid id rfl)
    rw [TcpState.next, TcpState.next, ← hsockets]
    split
    · exact hst
    · next socket hsocket =>
      have hip := hst.addressed id socket hsocket
      have halike : Connection.Alike h ⟨s.server, socket⟩ ⟨t.server, socket⟩ :=
        ⟨hst.server, rfl, hip.trans (hid id rfl)⟩
      obtain ⟨hres, hend⟩ := halike.partialCheck clock
      simp only [hres]
      exact hst.put_both hend ((Connection.partialCheck_remoteIp ⟨s.server, socket⟩ _).trans hip) _
  | timeout id =>
    have hsockets := hst.sockets_eq (hid id rfl)
    rw [TcpState.next, TcpState.next, ← hsockets]
    split
    · exact hst
    · next socket hsocket =>
      have hip := hst.addressed id socket hsocket
      have halike : Connection.Alike h ⟨s.server, { socket with destroyed := true }⟩
          ⟨t.server, { socket with destroyed := true }⟩ :=
        ⟨hst.server, rfl, hip.trans (hid id rfl)⟩
      exact hst.put_both halike hip []
  | close id =>
    refine ⟨hst.server, fun port ↦ ?_, hst.logOf, hst.addressed.next (P := P) (.close id)⟩
    show Function.update s.sockets id none (h, port) = Function.update t.sockets id none (h, port)
    by_cases hport : (h, port) = id
    · rw [hport, Function.update_self, Function.update_self]
    · rw [Function.update_of_ne hport, Function.update_of_ne hport]
      exact hst.sockets port
  | cleanup now now' =>
    exact ⟨⟨hst.server.replayGuard, hst.server.ipRateLimiter.cleanup now,
      hst.server.blacklist.cleanup now'⟩, hst.sockets, hst.logOf, hst.addressed⟩

/-- **Unauthenticated traffic does not interfere with an honest address.**  If the sockets of all
other addresses carry no packet that passes verification, the run without them is a run of the
server, and what it logs about the address, accepted packets and infractions, is the same. -/
theorem unauthenticated_traffic_isolated (h : String) {s s' : TcpState} {events : List TcpEvent}
    (hstart : (tcpServer P secret).init s)
    (hrun : ((tcpServer P secret).guard (Unauthenticated P secret h)).Run s events s') :
    ∃ t, (tcpServer P secret).Run s (events.filter (TcpEvent.concerns h)) t ∧
      t.logOf h = s'.logOf h := by
  obtain ⟨server, rfl⟩ := hstart
  have hrefl : Related h ⟨server, fun _ ↦ none, []⟩ ⟨server, fun _ ↦ none, []⟩ :=
    ⟨.refl h server, fun _ ↦ rfl, rfl, fun _ _ hsocket ↦ by cases hsocket⟩
  obtain ⟨t, hrun', hrelated⟩ := hrun.erase (N := tcpServer P secret) (R := Related h)
    (fun s t e s' hst hstep he ↦ by
      obtain ⟨hjunk, -, rfl⟩ := hstep
      exact hst.hidden he hjunk)
    (fun s t e s' hst hstep he ↦ by
      obtain ⟨-, henabled, rfl⟩ := hstep
      exact ⟨_, ⟨hst.enabled he henabled, rfl⟩, hst.visible he⟩) hrefl
  exact ⟨t, hrun', hrelated.logOf.symm⟩

/-- An honest packet from 10.0.0.1, and 50 zeros from 10.0.0.2. -/
def sampleEvents : List TcpEvent :=
  [.connect ("10.0.0.1", 5001) fun _ ↦ 1700000000000,
    .connect ("10.0.0.2", 5002) fun _ ↦ 1700000000001,
    .data ("10.0.0.2", 5002) (List.replicate 50 0) fun _ ↦ 1700000000010,
    .data ("10.0.0.1", 5001) Connection.sampleArrival.packet fun _ ↦ 1700000000020,
    .cleanup 1700000005000 1700000005000]

theorem unauthenticated_traffic_isolated_sample :
    ∃ t, (tcpServer Connection.samplePrimitives (some [115, 101, 99, 114, 101, 116])).Run
        ⟨.new, fun _ ↦ none, []⟩ (sampleEvents.filter (TcpEvent.concerns "10.0.0.1")) t ∧
      t.logOf "10.0.0.1" =
        (sampleEvents.foldl
          (TcpState.next Connection.samplePrimitives (some [115, 101, 99, 114, 101, 116]))
          ⟨.new, fun _ ↦ none, []⟩).logOf "10.0.0.1" := by
  refine unauthenticated_traffic_isolated "10.0.0.1" ⟨.new, rfl⟩ (Machine.run_guard_ofFun ?_)
  refine ⟨⟨trivial, rfl⟩, ⟨trivial, rfl⟩, ⟨.inr ?_, ⟨_, rfl, rfl⟩⟩, ⟨.inl rfl, ⟨_, rfl, rfl⟩⟩,
    ⟨trivial, trivial⟩, trivial⟩
  intro socket hsocket x hx
  obtain rfl := Option.some_inj.mp hsocket.symm
  have hcut : packetCutter.cut (List.replicate 50 0) = .bad "Invalid MAGIC bytes" := rfl
  have hsplit : packetCutter.split (List.replicate 50 0) = ([], List.replicate 50 0) :=
    Cutter.split_of_not_item fun n hn ↦ by cases hcut.symm.trans hn
  replace hx : x ∈ (packetCutter.split (List.replicate 50 0)).1 := hx
  rw [hsplit] at hx
  cases hx

end TcpState

end AttestP2P
