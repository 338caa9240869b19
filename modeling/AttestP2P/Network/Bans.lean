import AttestP2P.Network.PartialPackets
import AttestP2P.Network.SecureServer
import AttestP2P.Session.Delivery

/-!
# Bans and open connections

The two servers refuse connections from a banned address.  What becomes of those that are open when
the ban is pronounced differs.

The session server asks the blacklist before it handles a frame.  A frame of a banned address is
`Refused`, and with it all that follow in the same chunk: whatever the frame is, the connection
reports it, fails and does nothing else (`Security.onFrames_of_banned`).

The packet server asks when a socket is opened and not again.  So the sockets of a banned address
are those that were open when it was banned (`bannedWhileOpen`), and their packets are taken up as
before.

* `TcpState.NothingHandled`: of what the server keeps for the packets of a socket, nothing has
  changed, and no packet was accepted.
* `TcpState.BanCovers` is the property of a run: nothing is handled of what a banned address sends.
* `TcpState.Muted` is a condition on what arrives: no packet is completed on a socket whose address
  was banned while the socket was open.
* `ban_covers_open_connections`: the session server honours every ban, the packet server exactly in
  the runs that are `Muted`.
-/

set_option autoImplicit false

namespace AttestP2P

/-- A ban is a time that has not come yet. -/
theorem IpBlacklist.isBanned_iff {b : IpBlacklist} {ip : String} {now : ℕ} :
    (b.isBanned ip now).2 = true ↔ ∃ until_, b.bans.get? ip = some until_ ∧ now < until_ := by
  rw [isBanned]
  cases b.bans.get? ip with
  | none => simp
  | some until_ =>
    dsimp only
    split
    · next hover => simp [Nat.not_lt.mpr hover]
    · next hbefore => simp [Nat.not_le.mp hbefore]

/-- An address that is not banned at some time has no ban left afterwards. -/
theorem IpBlacklist.isBanned_eq_false {b : IpBlacklist} {ip : String} {now : ℕ}
    (h : (b.isBanned ip now).2 = false) : (b.isBanned ip now).1.bans.get? ip = none := by
  rw [isBanned] at h ⊢
  split
  · next hnone => exact hnone
  · next until_ hsome =>
    rw [hsome] at h
    split
    · exact OrderedMap.get?_delete.trans (if_pos rfl)
    · next hbefore =>
      simp only [hbefore, if_false] at h
      cases h

/-! ## The session server

`allowFrame` asks the blacklist first.  A connection whose address is banned has its next frame
refused, whatever the frame is: it is reported, and the connection fails before the frame is looked
at. -/

section
variable {S : Suite Buffer}

/-- A frame is refused: the connection reports it and fails.  Nothing is handed over, answered or
agreed on; what the listeners of `error` call finds the connection closed. -/
structure Refused (c c' : SecureConnection S) (w : List (Effect S)) : Prop where
  effects : w = .report .rateLimit :: (c.fail "rate limit dépassé").2
  conn : ∃ as, c' = (SecureConnection.calls { c with closed := true } as).1

namespace SecureConnection

variable {c : SecureConnection S}

/-- **A frame that the security context does not let pass** is refused. -/
theorem refused_onTurn {t : Turn S} (ht : t.allowFrame = false) (frame : Buffer) :
    Refused c (c.onTurn frame t).1 (c.onTurn frame t).2 ∧ (c.onTurn frame t).1.closed = true := by
  have hfail : (c.fail "rate limit dépassé").1 = { c with closed := true } := by
    rw [fail]
    split
    · next hclosed =>
      obtain ⟨⟩ := c
      cases hclosed
      rfl
    · rfl
  have hcalls := calls_unheard { c with closed := true } t.calls
  have honFrame : c.onFrame frame t.allowFrame t.nonce t.now =
      ({ c with closed := true }, .report .rateLimit :: (c.fail "rate limit dépassé").2) := by
    rw [onFrame, if_pos ht]
    exact Prod.ext hfail rfl
  have hturn : c.onTurn frame t = ((SecureConnection.calls { c with closed := true } t.calls).1,
      .report .rateLimit :: (c.fail "rate limit dépassé").2) := by
    rw [onTurn, honFrame]
    dsimp only
    unfold listen
    dsimp only
    rw [effects_calls_of_closed rfl, List.append_nil]
  rw [hturn]
  exact ⟨⟨rfl, t.calls, rfl⟩, hcalls.closed⟩

end SecureConnection

namespace Security

theorem allowFrame_of_banned {s : Security} {ip : String} {clock : ℕ → ℕ}
    (h : (s.blacklist.isBanned ip (clock 0)).2 = true) : (s.allowFrame ip clock).2 = false := by
  rw [allowFrame]
  generalize s.blacklist.isBanned ip (clock 0) = r at h
  obtain ⟨blacklist, banned⟩ := r
  rw [show banned = true from h]
  rfl

/-- **A frame of a banned address**, and all that follow it. -/
theorem onFrames_of_banned {s : Security} {ip : String} {turn : ℕ → ServerTurn S}
    (h : (s.blacklist.isBanned ip ((turn 0).clock 0)).2 = true) (c : SecureConnection S)
    (frame : Buffer) (frames : List Buffer) :
    Refused c (s.onFrames ip c (frame :: frames) turn).2.1
      (s.onFrames ip c (frame :: frames) turn).2.2.1 := by
  have hallow := allowFrame_of_banned h
  rw [onFrames]
  generalize s.allowFrame ip (turn 0).clock = r at hallow
  obtain ⟨s', allowed⟩ := r
  obtain rfl : allowed = false := hallow
  obtain ⟨hrefused, hclosed⟩ :=
    SecureConnection.refused_onTurn (c := c) (t := (turn 0).turn false) rfl frame
  dsimp only
  rw [if_pos hclosed]
  exact hrefused

/-- The loop goes on while the connection is open. -/
theorem onFrames_append (s : Security) (ip : String) (c : SecureConnection S)
    (frames frames' : List Buffer) (turn : ℕ → ServerTurn S)
    (hopen : frames = [] ∨ (s.onFrames ip c frames turn).2.1.closed = false) :
    (s.onFrames ip c (frames ++ frames') turn).2.1 =
        ((s.onFrames ip c frames turn).1.onFrames ip (s.onFrames ip c frames turn).2.1 frames'
          fun i ↦ turn (frames.length + i)).2.1 ∧
      (s.onFrames ip c (frames ++ frames') turn).2.2.1 = (s.onFrames ip c frames turn).2.2.1 ++
        ((s.onFrames ip c frames turn).1.onFrames ip (s.onFrames ip c frames turn).2.1 frames'
          fun i ↦ turn (frames.length + i)).2.2.1 := by
  induction frames generalizing s c turn with
  | nil => simp [onFrames]
  | cons frame frames ih =>
    have hopen := hopen.resolve_left (List.cons_ne_nil _ _)
    rw [List.cons_append, onFrames, onFrames]
    rw [onFrames] at hopen
    generalize s.allowFrame ip (turn 0).clock = r at hopen ⊢
    obtain ⟨s₁, allowed⟩ := r
    dsimp only at hopen ⊢
    generalize c.onTurn frame ((turn 0).turn allowed) = r at hopen ⊢
    obtain ⟨c₁, w⟩ := r
    dsimp only at hopen ⊢
    cases hclosed : c₁.closed with
    | true =>
      rw [if_pos hclosed] at hopen
      cases hopen.symm.trans hclosed
    | false =>
      simp only [hclosed, Bool.false_eq_true, if_false] at hopen ⊢
      have hrest := ih (s₁.report ip ((turn 0).clock 3) w) c₁ (fun i ↦ turn (i + 1)) (.inr hopen)
      have hshift : (fun i ↦ turn ((frame :: frames).length + i)) =
          fun i ↦ turn (frames.length + i + 1) := by
        funext i
        rw [List.length_cons]
        congr 1
        omega
      rw [hrest.1, hrest.2, hshift, ← List.append_assoc]
      exact ⟨rfl, rfl⟩

end Security

namespace SecureServer

/-- **The event honours bans**: if the address of the connection is banned when the turn of a frame
comes, that frame and the rest of the chunk are refused. -/
def HonoursBans (options : SessionOptions) (s : SecureServer S) : SecureServerEvent S → Prop
  | .data id chunk now turn => ∀ x, s.sessions id = some x → ∀ before frame after,
    (x.conn.receive chunk).2.2 = before ++ frame :: after →
    let r := (s.security.report id.1 now (x.conn.receive chunk).2.1).onFrames id.1
      (x.conn.receive chunk).1 before turn
    before = [] ∨ r.2.1.closed = false →
    (r.1.blacklist.isBanned id.1 ((turn before.length).clock 0)).2 = true →
    ∃ x' w, (s.next options (.data id chunk now turn)).sessions id = some x' ∧
      x'.effects = x.effects ++ ((x.conn.receive chunk).2.1 ++ (r.2.2.1 ++ w)) ∧
      Refused r.2.1 x'.conn w
  | _ => True

theorem honoursBans (options : SessionOptions) (s : SecureServer S) (e : SecureServerEvent S) :
    s.HonoursBans options e := by
  cases e with
  | data id chunk now turn =>
    intro x hx before frame after hframes r hopen hbanned
    let r' := (s.security.report id.1 now (x.conn.receive chunk).2.1).onFrames id.1
      (x.conn.receive chunk).1 (x.conn.receive chunk).2.2 turn
    have hnext : (s.next options (.data id chunk now turn)).sessions id =
        some { x.act r'.2.1 ((x.conn.receive chunk).2.1 ++ r'.2.2.1) with
          handled := x.handled + r'.2.2.2 } := by
      rw [next, hx]
      exact Function.update_self _ _ _
    obtain ⟨hconn, heffects⟩ : r'.2.1 = _ ∧ r'.2.2.1 = _ := by
      dsimp only [r']
      rw [hframes]
      exact Security.onFrames_append _ id.1 _ before (frame :: after) turn hopen
    have hrefused := @Security.onFrames_of_banned S r.1 id.1 (fun i ↦ turn (before.length + i))
      hbanned r.2.1 frame after
    refine ⟨_, (r.1.onFrames id.1 r.2.1 (frame :: after) fun i ↦ turn (before.length + i)).2.2.1,
      hnext, ?_, ?_⟩
    · exact congrArg (fun w ↦ x.effects ++ ((x.conn.receive chunk).2.1 ++ w)) heffects
    · rw [← hconn] at hrefused
      exact hrefused
  | _ => exact trivial

end SecureServer

end

/-! ## The packet server

### What a packet leaves behind -/

/-- A packet of the socket has been counted, in the same window or in a new one. -/
def Socket.Counted (s s' : Socket) : Prop :=
  s.rateWindowStart < s'.rateWindowStart ∨
    s.rateWindowStart = s'.rateWindowStart ∧ s.packetCount < s'.packetCount

theorem Socket.Counted.trans {s s' s'' : Socket} (h : s.Counted s') (h' : s'.Counted s'') :
    s.Counted s'' := by
  unfold Counted at h h' ⊢
  omega

/-- The type and data of a packet that is accepted. -/
def LogLine.valid? : LogLine → Option (UInt8 × Buffer)
  | .report (.valid type appData) => some (type, appData)
  | _ => none

namespace Connection

variable {P : Primitives} {secret : HmacSecret}

theorem counted_countPacket (s : Socket) (now : ℕ) : s.Counted (countPacket s now) := by
  rw [countPacket, Socket.Counted]
  split
  · left
    dsimp only
    omega
  · exact .inr ⟨rfl, Nat.lt_succ_self _⟩

/-- The loop counts every packet that it takes up, and it takes up the first. -/
theorem counted_handlePackets (c : Connection) {packets : List Buffer} (hne : packets ≠ [])
    (clock : ℕ → ℕ) : c.socket.Counted (c.handlePackets P secret packets clock).1.socket := by
  induction packets generalizing c clock with
  | nil => exact absurd rfl hne
  | cons packet packets ih =>
    have hcounted := counted_countPacket c.socket (clock 0)
    rw [← @handlePacket_socket P secret c packet (clock 0)] at hcounted
    rw [handlePackets]
    split
    · next hstep =>
      rw [hstep] at hcounted
      exact hcounted
    · next c' _ _ hstep =>
      rw [hstep] at hcounted
      by_cases hnil : packets = []
      · subst hnil
        exact hcounted
      · exact hcounted.trans (ih c' hnil _)

end Connection

/-- These bytes complete a packet of what has been received, and no limit is exceeded. -/
structure Schedule.Completes (d : Schedule) (bytes : Buffer) : Prop where
  size : (d.rest ++ bytes).length ≤ maxBufferSize
  wellFormed : packetCutter.malformed (packetCutter.split (d.rest ++ bytes)).2 = none
  packets : (packetCutter.split (d.rest ++ bytes)).1 ≠ []

namespace TcpState

variable {P : Primitives} {secret : HmacSecret}

/-- From `s` to `s'` nothing is handled of what the socket sends: the guard, the rate limiter and
the counter of its packets are left alone, and no packet is accepted. -/
structure NothingHandled (s s' : TcpState) (id : SocketId) : Prop where
  replayGuard : s'.server.replayGuard = s.server.replayGuard
  ipRateLimiter : s'.server.ipRateLimiter = s.server.ipRateLimiter
  counter : ∀ socket, s.sockets id = some socket → ∃ socket', s'.sockets id = some socket' ∧
    socket'.packetCount = socket.packetCount ∧ socket'.rateWindowStart = socket.rateWindowStart
  accepted : ∃ lines, s'.log = s.log ++ lines ∧ ∀ entry ∈ lines, entry.line.valid? = none

/-- The infraction of a data event is not an accepted packet. -/
theorem nothingHandled_put {s : TcpState} {id : SocketId} {socket : Socket} {c : Connection}
    {lines : List LogEntry} (hsocket : s.sockets id = some socket)
    (hguard : c.server.replayGuard = s.server.replayGuard)
    (hlimiter : c.server.ipRateLimiter = s.server.ipRateLimiter)
    (hcount : c.socket.packetCount = socket.packetCount)
    (hwindow : c.socket.rateWindowStart = socket.rateWindowStart)
    (hlines : ∀ entry ∈ lines, entry.line.valid? = none) :
    s.NothingHandled (s.put id c lines) id := by
  refine ⟨hguard, hlimiter, fun socket' hsocket' ↦ ?_, lines, rfl, hlines⟩
  obtain rfl := Option.some.inj (hsocket.symm.trans hsocket')
  exact ⟨c.socket, put_self s id c lines, hcount, hwindow⟩

/-- **One data event**: nothing is handled exactly if no packet is complete. -/
theorem nothingHandled_data_iff {s : TcpState} {id : SocketId} {socket : Socket} {d : Schedule}
    (hsocket : s.sockets id = some socket) (hbuffer : socket.buffer = d.rest) (bytes : Buffer)
    (clock : ℕ → ℕ) :
    s.NothingHandled (s.next P secret (.data id bytes clock)) id ↔ ¬d.Completes bytes := by
  have hnext : s.next P secret (.data id bytes clock) =
      s.put id (Connection.onData P secret ⟨s.server, socket⟩ bytes clock).1
        (stamp socket.remoteIp (Connection.onData P secret ⟨s.server, socket⟩ bytes clock).2
          fun k ↦ clock (k + 1)) := by
    rw [next, hsocket]
  have hflagged (i : Infraction) (strike : Strike) :
      ∀ entry ∈ stamp socket.remoteIp [.attack i strike] fun k ↦ clock (k + 1),
        entry.line.valid? = none := by
    intro entry hentry
    obtain rfl := List.mem_singleton.mp hentry
    rfl
  rw [hnext, Connection.onData]
  dsimp only
  rw [hbuffer]
  by_cases hsize : (d.rest ++ bytes).length > maxBufferSize
  · rw [if_pos hsize]
    refine iff_of_true ?_ fun h ↦ Nat.not_le.mpr hsize h.size
    exact nothingHandled_put hsocket rfl rfl rfl rfl (hflagged _ _)
  · rw [if_neg hsize, Connection.extractPackets_eq]
    cases hbad : packetCutter.malformed (packetCutter.split (d.rest ++ bytes)).2 with
    | some e =>
      refine iff_of_true ?_ fun h ↦ ?_
      · exact nothingHandled_put hsocket rfl rfl rfl rfl (hflagged _ _)
      · cases h.wellFormed.symm.trans hbad
    | none =>
      dsimp only
      by_cases hnil : (packetCutter.split (d.rest ++ bytes)).1 = []
      · rw [hnil]
        refine iff_of_true ?_ fun h ↦ h.packets hnil
        exact nothingHandled_put hsocket rfl rfl rfl rfl fun entry h ↦ absurd h List.not_mem_nil
      · -- the packets are counted, whatever becomes of them
        refine iff_of_false (fun h ↦ ?_) fun h ↦ h ⟨Nat.not_lt.mp hsize, hbad, hnil⟩
        obtain ⟨socket', hsocket', hcount, hwindow⟩ := h.counter socket hsocket
        rw [put_self, Option.some.injEq] at hsocket'
        have hcounted := @Connection.counted_handlePackets P secret
          ⟨s.server, { socket with lastActivity := clock 0, buffer := d.rest ++ bytes }⟩ _ hnil
          fun k ↦ clock (k + 1)
        generalize Connection.handlePackets P secret _ _ _ = r at hsocket' hcounted
        obtain ⟨c, reports, done⟩ := r
        rw [Socket.Counted] at hcounted
        subst hsocket'
        cases done with
        | true =>
          simp only [if_true] at hcount hwindow hcounted
          omega
        | false =>
          simp only [Bool.false_eq_true, if_false] at hcount hwindow hcounted
          omega

/-! ### Bans of open sockets -/

/-- While the socket was open, an event banned its address until this time, and the ban has not been
lifted since. -/
def BannedWhileOpen (P : Primitives) (secret : HmacSecret) (server : TcpServer)
    (es : List TcpEvent) (id : SocketId) (until_ : ℕ) : Prop :=
  ∃ es₁ e es₂, es = es₁ ++ e :: es₂ ∧
    ((es₁.foldl (next P secret) (start server)).sockets id).isSome ∧
    (es₁.foldl (next P secret) (start server)).server.blacklist.bans.get? id.1 ≠ some until_ ∧
    ∀ es₃, es₃ <+: es₂ → ((es₁ ++ e :: es₃).foldl (next P secret)
      (start server)).server.blacklist.bans.get? id.1 = some until_

/-- A socket that opens has an address without a ban. -/
theorem bans_of_opened {s : TcpState} {id : SocketId} {socket : Socket} {e : TcpEvent}
    (hnone : s.sockets id = none) (hsocket : (s.next P secret e).sockets id = some socket) :
    (s.next P secret e).server.blacklist.bans.get? id.1 = none := by
  have hput (j : SocketId) (socket' : Socket) (hj : s.sockets j = some socket') (c : Connection)
      (lines : List LogEntry) : (s.put j c lines).sockets id ≠ some socket := by
    have hne : id ≠ j := by
      rintro rfl
      cases hnone.symm.trans hj
    rw [put_of_ne s hne, hnone]
    exact nofun
  cases e with
  | connect j clock =>
    have hunbanned := @IpBlacklist.isBanned_eq_false s.server.blacklist j.1 (clock 0)
    rw [next, connect] at hsocket ⊢
    generalize s.server.blacklist.isBanned j.1 (clock 0) = r at hsocket hunbanned ⊢
    obtain ⟨blacklist, banned⟩ := r
    cases banned with
    | true => cases hnone.symm.trans hsocket
    | false =>
      by_cases hj : id = j
      · rw [hj]
        exact hunbanned rfl
      · cases hnone.symm.trans ((Function.update_of_ne hj _ _).symm.trans hsocket)
  | data j bytes clock =>
    rw [next] at hsocket
    split at hsocket
    · cases hnone.symm.trans hsocket
    · next socket' hj => exact absurd hsocket (hput j socket' hj _ _)
  | check j clock =>
    rw [next] at hsocket
    split at hsocket
    · cases hnone.symm.trans hsocket
    · next socket' hj => exact absurd hsocket (hput j socket' hj _ _)
  | timeout j =>
    rw [next] at hsocket
    split at hsocket
    · cases hnone.symm.trans hsocket
    · next socket' hj => exact absurd hsocket (hput j socket' hj _ _)
  | close j =>
    by_cases hj : id = j
    · subst hj
      cases (Function.update_self _ _ _).symm.trans hsocket
    · cases hnone.symm.trans ((Function.update_of_ne hj _ _).symm.trans hsocket)
  | cleanup now now' => cases hnone.symm.trans hsocket

/-- **Whose address is banned while it is open** was open when it was banned. -/
theorem bannedWhileOpen {server : TcpServer} {es : List TcpEvent} {id : SocketId} {socket : Socket}
    {until_ : ℕ} (hsocket : (es.foldl (next P secret) (start server)).sockets id = some socket)
    (hban : (es.foldl (next P secret) (start server)).server.blacklist.bans.get? id.1 =
      some until_) : BannedWhileOpen P secret server es id until_ := by
  induction es using List.reverseRecOn generalizing socket with
  | nil => cases hsocket
  | append_singleton es e ih =>
    rw [List.foldl_append, List.foldl_cons, List.foldl_nil] at hsocket hban
    cases hold : (es.foldl (next P secret) (start server)).sockets id with
    | none => cases (bans_of_opened hold hsocket).symm.trans hban
    | some socket' =>
      by_cases hbefore : (es.foldl (next P secret)
          (start server)).server.blacklist.bans.get? id.1 = some until_
      · -- the ban is an older one
        obtain ⟨es₁, e₁, es₂, rfl, hopen, hfree, hsince⟩ := ih hold hbefore
        refine ⟨es₁, e₁, es₂ ++ [e], by simp, hopen, hfree, fun es₃ hprefix ↦ ?_⟩
        rcases List.prefix_concat_iff.mp hprefix with rfl | hprefix
        · rw [← List.cons_append, ← List.append_assoc, List.foldl_append]
          exact hban
        · exact hsince es₃ hprefix
      · refine ⟨es, e, [], rfl, Option.isSome_of_eq_some hold, hbefore, fun es₃ hprefix ↦ ?_⟩
        obtain rfl := List.prefix_nil.mp hprefix
        rw [List.foldl_append]
        exact hban

/-! ### The condition

It is read off the arrivals: the bytes that a socket has received, and whether those that come next
complete a packet.  Nothing that the server computes from them takes part in it but the bans
themselves. -/

/-- Whatever arrives while its address is banned, nothing of it is handled. -/
def BanCovers (P : Primitives) (secret : HmacSecret) (server : TcpServer) (es : List TcpEvent) :
    Prop :=
  ∀ es₁ id bytes clock es₂, es = es₁ ++ .data id bytes clock :: es₂ →
    let s := es₁.foldl (next P secret) (start server)
    (s.server.blacklist.isBanned id.1 (clock 1)).2 = true →
      s.NothingHandled (s.next P secret (.data id bytes clock)) id

/-- No packet is completed on a socket that was open when its address was banned, until the ban is
over. -/
def Muted (P : Primitives) (secret : HmacSecret) (server : TcpServer) (es : List TcpEvent) : Prop :=
  ∀ es₁ id bytes clock es₂, es = es₁ ++ .data id bytes clock :: es₂ →
    ∀ until_, BannedWhileOpen P secret server es₁ id until_ → clock 1 < until_ →
      ¬(schedule id es₁).Completes bytes

/-- **Bans of the packet server**, in any run. -/
theorem banCovers_iff {server : TcpServer} {es : List TcpEvent}
    (hes : Machine.Feasible enabled (next P secret) (start server) es) :
    BanCovers P secret server es ↔ Muted P secret server es := by
  refine forall₅_congr fun es₁ id bytes clock es₂ ↦ forall_congr' fun heq ↦ ?_
  have hall := Machine.feasible_iff.mp hes
  have hes₁ : Machine.Feasible enabled (next P secret) (start server) es₁ :=
    Machine.feasible_iff.mpr fun es₃ e es₄ h ↦
      hall es₃ e (es₄ ++ .data id bytes clock :: es₂) (by rw [heq, h]; simp)
  obtain ⟨socket, hsocket, hopen⟩ := hall es₁ _ es₂ heq
  have hbuffer := ((tracks_schedule hes₁ hsocket).live hopen).1
  have hhandled := @nothingHandled_data_iff P secret _ _ _ _ hsocket hbuffer bytes clock
  dsimp only
  rw [hhandled, IpBlacklist.isBanned_iff]
  refine ⟨fun h until_ ⟨es₃, e, es₄, heq', _, _, hsince⟩ hlt ↦ h ⟨until_, ?_, hlt⟩, ?_⟩
  · rw [heq']
    exact hsince es₄ (List.prefix_refl es₄)
  · rintro h ⟨until_, hban, hlt⟩
    exact h until_ (bannedWhileOpen hsocket hban) hlt

end TcpState

/-- **Bans and open connections.**  In the session server, every event of every run honours the bans
that are in force.  In a run of the packet server, nothing is handled of what a banned address sends
if and only if no packet is completed on a socket that was open when its address was banned. -/
theorem ban_covers_open_connections (P : Primitives) (secret : HmacSecret) :
    (∀ (S : Suite Buffer) options s, (secureServer S options).Reachable s →
      ∀ e, s.HonoursBans options e) ∧
    ∀ server es, Machine.Feasible TcpState.enabled (TcpState.next P secret) (.start server) es →
      (TcpState.BanCovers P secret server es ↔ TcpState.Muted P secret server es) :=
  ⟨fun _ options s _ e ↦ s.honoursBans options e, fun _ _ hes ↦ TcpState.banCovers_iff hes⟩

/-! ### A packet of a banned address -/

namespace SampleBan

open Connection (samplePrimitives sampleArrival badHeader)

def secret : HmacSecret := some [115, 101, 99, 114, 101, 116]

/-- Six sockets of one address; five of them send no header. -/
def before : List TcpEvent :=
  (List.range 6).map (fun i ↦ .connect ("127.0.0.1", i) fun _ ↦ 1700000000000) ++
    (List.range 5).map fun i ↦ .data ("127.0.0.1", i) badHeader fun _ ↦ 1700000000010

/-- The sixth connection of the address sends a packet, which is refused. -/
def packet : TcpEvent := .data ("127.0.0.1", 5) sampleArrival.packet fun _ ↦ 1700000000020

/-- It sends the first byte of a packet, and stays connected. -/
def firstByte : TcpEvent := .data ("127.0.0.1", 5) [65] fun _ ↦ 1700000000020

def next : TcpState → TcpEvent → TcpState := TcpState.next samplePrimitives secret

/-- The address is banned once the fifth socket has sent. -/
theorem banned : ((before.foldl next (.start .new)).server.blacklist.isBanned "127.0.0.1"
    1700000000020).2 = true := by decide +kernel

/-- No data event of the run completes a packet. -/
theorem muted_firstByte :
    TcpState.Muted samplePrimitives secret .new (before ++ [firstByte]) := by
  have hnone : ∀ k < 12, ((before ++ [firstByte])[k]?.all fun e ↦ e.socket?.all fun id ↦
      (Schedule.record id [] e).all fun a ↦
        let b := (schedule id ((before ++ [firstByte]).take k)).rest ++ a.1
        (packetCutter.malformed (packetCutter.split b).2).isSome ||
          (packetCutter.split b).1 = []) = true := by decide +kernel
  rintro es₁ id bytes clock es₂ heq until_ - - ⟨-, hwellFormed, hpackets⟩
  have hlength : (before ++ [firstByte]).length = 12 := rfl
  rw [heq, List.length_append, List.length_cons] at hlength
  have hevent := hnone es₁.length (by omega)
  rw [heq, List.take_left, List.getElem?_append_right le_rfl, Nat.sub_self] at hevent
  simp [TcpEvent.socket?, Schedule.record, hwellFormed, hpackets] at hevent

/-- A chunk that the session at this port receives, at time 20 in all its turns. -/
def frame (port : ℕ) (chunk : Buffer) : SecureServerEvent (octets SampleLink.sodium) :=
  .data ("127.0.0.1", port) chunk 20 fun _ ↦
    { clock := fun _ ↦ 20, nonce := SampleLink.nonce 0, calls := [] }

/-- Two sessions of an address, and a frame that is too long from the first. -/
def sessionEvents : List (SecureServerEvent (octets SampleLink.sodium)) :=
  [.connect ("127.0.0.1", 0) false false fun _ ↦ 10,
    .connect ("127.0.0.1", 1) false false fun _ ↦ 10, frame 0 [255, 255, 255, 255]]

/-- A server that bans at the first strike. -/
def sessionServer : SecureServer (octets SampleLink.sodium) :=
  ⟨⟨{ IpBlacklist.new with strikeThreshold := 1 }, .new⟩, fun _ ↦ none⟩

def sessions : SecureServer (octets SampleLink.sodium) :=
  sessionEvents.foldl (SecureServer.next {}) sessionServer

theorem sessions_reachable :
    (secureServer (octets SampleLink.sodium) {}).Reachable sessions := by
  refine ⟨sessionServer, sessionEvents, ⟨_, rfl⟩,
    Machine.run_foldl (M := secureServer (octets SampleLink.sodium) {}) (fun _ _ h ↦ ⟨h, rfl⟩)
      ⟨?_, ?_, ?_, trivial⟩⟩
  · intro x hx
    cases hx
  · intro x hx
    cases hx
  · exact ⟨_, rfl, rfl, rfl⟩

end SampleBan

open SampleBan in
/-- Two sessions of one address, which is banned for what the first one sends, and a frame from the
second; and the first byte of a packet, from a socket that was open when its address was banned. -/
theorem ban_covers_open_connections_sample :
    ((sessions.security.blacklist.isBanned "127.0.0.1" 20).2 = true ∧
      sessions.HonoursBans {} (frame 1 [0, 0, 0, 1, 7])) ∧
    ((before.foldl next (.start .new)).server.blacklist.isBanned "127.0.0.1"
        1700000000020).2 = true ∧
      TcpState.BanCovers Connection.samplePrimitives secret .new (before ++ [firstByte]) :=
  have h := ban_covers_open_connections Connection.samplePrimitives secret
  ⟨⟨by decide +kernel, h.1 _ {} sessions sessions_reachable _⟩,
    banned, (h.2 .new _ (by decide +kernel)).mpr muted_firstByte⟩

open SampleBan in
/-- The address has been banned, and its packet is accepted on a socket opened before. -/
theorem banned_packet_accepted :
    Machine.Feasible TcpState.enabled next (.start .new) (before ++ [packet]) ∧
      ((before.foldl next (.start .new)).server.blacklist.isBanned "127.0.0.1"
        1700000000020).2 = true ∧
      (((before ++ [packet]).foldl next (.start .new)).log.getLast?.bind fun e ↦ e.line.valid?) =
        some (1, [104, 105]) ∧
      ¬TcpState.BanCovers Connection.samplePrimitives secret .new (before ++ [packet]) := by
  have haccepted : (((before ++ [packet]).foldl next (.start .new)).log.getLast?.bind fun e ↦
      e.line.valid?) = some (1, [104, 105]) := by decide +kernel
  refine ⟨by decide +kernel, banned, haccepted, fun h ↦ ?_⟩
  have hcount : ((before.foldl next (.start .new)).sockets ("127.0.0.1", 5)).map
      Socket.packetCount = some 0 := by decide +kernel
  have hcount' : ((next (before.foldl next (.start .new)) packet).sockets ("127.0.0.1", 5)).map
      Socket.packetCount = some 1 := by decide +kernel
  obtain ⟨socket, hsocket, hzero⟩ := Option.map_eq_some_iff.mp hcount
  obtain ⟨socket', hsocket', hone⟩ := Option.map_eq_some_iff.mp hcount'
  have hhandled : (before.foldl next (.start .new)).NothingHandled
      (next (before.foldl next (.start .new)) packet) ("127.0.0.1", 5) :=
    h before ("127.0.0.1", 5) Connection.sampleArrival.packet _ [] rfl banned
  obtain ⟨_, hsocket'', hsame, -⟩ := hhandled.counter socket hsocket
  obtain rfl := Option.some.inj (hsocket'.symm.trans hsocket'')
  cases hone.symm.trans (hsame.trans hzero)

end AttestP2P
