import AttestP2P.Network.Segmentation

/-!
# Packets that stay incomplete

The interval `partialCheck` of a socket is there for packets that are begun and not finished.  What
it looks at is the time of the last data event, which every byte that drips in sets back.

* A `Schedule` is what a connection has received, each piece with the time it came at.  What is
  overdue is read off the schedule alone: `Schedule.partialSince` is the time at which the first
  byte of the incomplete packet arrived.
* `Tracks` ties the variables of the socket to the schedule, and `tracks_schedule` is the invariant:
  while the socket is open, its buffer is the incomplete packet.
* `timesOut_iff`: of the ticks that find a packet overdue, those flag the connection that come when
  nothing was received for as long.
-/

set_option autoImplicit false

namespace AttestP2P

/-! ## What has been received -/

/-- The data events of a connection, each with the time it came at. -/
abbrev Schedule := List (Buffer × ℕ)

namespace Schedule

/-- The bytes received, over all data events of the socket. -/
def bytes (d : Schedule) : Buffer := (d.map Prod.fst).flatten

/-- The time at which each of them arrived. -/
def arrivals (d : Schedule) : List ℕ := d.flatMap fun e ↦ List.replicate e.1.length e.2

/-- What follows the complete packets: the beginning of one that is still incomplete. -/
def rest (d : Schedule) : Buffer := (packetCutter.split d.bytes).2

/-- The time at which the first byte of the incomplete packet arrived, if there is one. -/
def partialSince (d : Schedule) : Option ℕ :=
  if packetCutter.malformed d.rest = none then
    (d.arrivals.drop (d.bytes.length - d.rest.length)).head?
  else none

/-- The time of the last data event, if there was one. -/
def lastData (d : Schedule) : Option ℕ := d.getLast?.map Prod.snd

/-- There is an incomplete packet, and its first byte arrived too long ago. -/
def Overdue (d : Schedule) (now : ℕ) : Prop :=
  ∃ t, d.partialSince = some t ∧ now - t > partialPacketTimeout

/-- Nothing was received for as long as the timeout, before `now`. -/
def Silent (d : Schedule) (now : ℕ) : Prop :=
  ∀ t, d.lastData = some t → now - t > partialPacketTimeout

/-- One event more; a new connection begins a new schedule. -/
def record (id : SocketId) (d : Schedule) : TcpEvent → Schedule
  | .connect j _ => if j = id then [] else d
  | .data j bytes clock => if j = id then d ++ [(bytes, clock 0)] else d
  | _ => d

theorem bytes_concat (d : Schedule) (data : Buffer) (t : ℕ) :
    bytes (d ++ [(data, t)]) = d.bytes ++ data := by
  simp [bytes]

@[simp] theorem lastData_concat (d : Schedule) (data : Buffer) (t : ℕ) :
    lastData (d ++ [(data, t)]) = some t := by
  simp [lastData]

@[simp] theorem length_arrivals (d : Schedule) : d.arrivals.length = d.bytes.length := by
  simp [arrivals, bytes, List.length_flatMap, List.length_flatten, Function.comp_def]

/-- What follows the packets depends on the packets no more. -/
theorem rest_concat (d : Schedule) (data : Buffer) (t : ℕ) :
    rest (d ++ [(data, t)]) = (packetCutter.split (d.rest ++ data)).2 := by
  rw [rest, bytes_concat, Cutter.split_append]
  rfl

/-- A packet that is incomplete has a first byte. -/
theorem Overdue.rest_ne_nil {d : Schedule} {now : ℕ} (h : d.Overdue now) : d.rest ≠ [] := by
  obtain ⟨t, hsince, -⟩ := h
  intro hnil
  rw [partialSince, hnil, List.length_nil, Nat.sub_zero, ← length_arrivals,
    List.drop_length] at hsince
  simp at hsince

theorem Overdue.ne_nil {d : Schedule} {now : ℕ} (h : d.Overdue now) : d ≠ [] := by
  rintro rfl
  exact h.rest_ne_nil (congrArg Prod.snd Cutter.split_nil)

end Schedule

/-- What the socket has received since it was opened last. -/
def schedule (id : SocketId) (es : List TcpEvent) : Schedule := es.foldl (Schedule.record id) []

/-! ## What the socket keeps of it

The buffer is what follows the complete packets, and `lastActivity` is the time of the last data
event.  As long as the socket is open, nothing else has been done to them. -/

namespace Connection

variable {P : Primitives} {secret : HmacSecret}

/-- The loop over the packets leaves the buffer alone, and destroys the socket when it ends
early. -/
theorem handlePackets_keeps (c : Connection) (packets : List Buffer) (clock : ℕ → ℕ) :
    let r := c.handlePackets P secret packets clock
    r.1.socket.buffer = c.socket.buffer ∧ r.1.socket.lastActivity = c.socket.lastActivity ∧
      (r.2.2 = true → r.1.socket.destroyed = c.socket.destroyed) ∧
        (r.2.2 = false → r.1.socket.destroyed = true) := by
  induction packets generalizing c clock with
  | nil => simp [handlePackets]
  | cons packet packets ih =>
    have hsocket := @handlePacket_socket P secret c packet (clock 0)
    have hkeeps := countPacket_keeps c.socket (clock 0)
    have hactivity : (countPacket c.socket (clock 0)).lastActivity = c.socket.lastActivity := by
      rw [countPacket]
      split <;> rfl
    rw [← hsocket] at hkeeps hactivity
    rw [handlePackets]
    generalize c.handlePacket P secret packet (clock 0) = r at hkeeps hactivity
    obtain ⟨c₁, res⟩ := r
    cases res with
    | error i => exact ⟨hkeeps.2.1, hactivity, (fun h ↦ by cases h), fun _ ↦ rfl⟩
    | ok v =>
      obtain ⟨hbuffer, hlast, hdone, hend⟩ := ih c₁ fun k ↦ clock (k + 1)
      exact ⟨hbuffer.trans hkeeps.2.1, hlast.trans hactivity,
        fun h ↦ (hdone h).trans hkeeps.2.2, hend⟩

/-- **A data event** destroys the socket, or leaves what follows the complete packets. -/
theorem onData_buffer (c : Connection) (data : Buffer) (clock : ℕ → ℕ) :
    let s := (c.onData P secret data clock).1.socket
    let b := c.socket.buffer ++ data
    s.lastActivity = clock 0 ∧ (s.destroyed = true ∧ s.buffer = b ∨
      s.destroyed = c.socket.destroyed ∧ s.buffer = (packetCutter.split b).2 ∧
        packetCutter.malformed (packetCutter.split b).2 = none) := by
  rw [onData]
  simp only
  split
  · exact ⟨rfl, .inl ⟨rfl, rfl⟩⟩
  · rw [extractPackets_eq]
    cases hbad : packetCutter.malformed (packetCutter.split (c.socket.buffer ++ data)).2 with
    | some e => exact ⟨rfl, .inl ⟨rfl, rfl⟩⟩
    | none =>
      simp only
      have hkeeps := @handlePackets_keeps P secret
        { c with socket := { c.socket with
          lastActivity := clock 0, buffer := c.socket.buffer ++ data } }
        (packetCutter.split (c.socket.buffer ++ data)).1 fun k ↦ clock (k + 1)
      generalize handlePackets P secret _ (packetCutter.split (c.socket.buffer ++ data)).1 _ = r
        at hkeeps
      obtain ⟨c₁, reports, done⟩ := r
      obtain ⟨hbuffer, hlast, hdone, hend⟩ := hkeeps
      cases done with
      | true => exact ⟨hlast, .inr ⟨hdone rfl, rfl, trivial⟩⟩
      | false => exact ⟨hlast, .inl ⟨hend rfl, hbuffer⟩⟩

/-- **A tick** flags the connection, or does not. -/
theorem partialCheck_keeps (c : Connection) (clock : ℕ → ℕ) :
    let s := (c.partialCheck clock).1.socket
    s.buffer = c.socket.buffer ∧ s.lastActivity = c.socket.lastActivity ∧
      (s.destroyed = false → c.socket.destroyed = false) := by
  have hexpire : ∀ c' : Connection, (c'.expire (clock 0)).socket.destroyed = false →
      c'.socket.destroyed = false := by
    intro c' h
    rw [expire] at h
    split at h
    · cases h
    · exact h
  rw [partialCheck]
  simp only
  split
  · obtain ⟨destroyed, heq⟩ := (c.flagAttack .slowloris (clock 1)).1.expire_eq (clock 0)
    refine ⟨by rw [heq]; rfl, by rw [heq]; rfl, fun h ↦ ?_⟩
    exact absurd (hexpire _ h) (by simp [flagAttack])
  · obtain ⟨destroyed, heq⟩ := c.expire_eq (clock 0)
    exact ⟨by rw [heq], by rw [heq], hexpire c⟩

end Connection

/-- The socket has received what the schedule says. -/
structure Tracks (s : Socket) (d : Schedule) : Prop where
  lastActivity : ∀ t, d.lastData = some t → s.lastActivity = t
  rest_suffix : d.rest <:+ s.buffer
  /-- An open socket has cut off the complete packets. -/
  live : s.destroyed = false → s.buffer = d.rest ∧ packetCutter.malformed d.rest = none

theorem Tracks.keep {s s' : Socket} {d : Schedule} (h : Tracks s d) (hbuffer : s'.buffer = s.buffer)
    (hlast : s'.lastActivity = s.lastActivity)
    (hlive : s'.destroyed = false → s.destroyed = false) :
    Tracks s' d where
  lastActivity t ht := hlast.trans (h.lastActivity t ht)
  rest_suffix := hbuffer ▸ h.rest_suffix
  live hs := ⟨hbuffer.trans (h.live (hlive hs)).1, (h.live (hlive hs)).2⟩

/-- A socket that has just been opened has received nothing. -/
theorem Tracks.new (remoteIp : String) (now start window : ℕ) :
    Tracks { Socket.new remoteIp now with connectionStart := start, rateWindowStart := window }
      [] where
  lastActivity _ ht := nomatch ht
  rest_suffix := by
    rw [Schedule.rest, Schedule.bytes, List.map_nil, List.flatten_nil, Cutter.split_nil]
    exact List.nil_suffix
  live _ := by
    rw [Schedule.rest, Schedule.bytes, List.map_nil, List.flatten_nil, Cutter.split_nil]
    exact ⟨rfl, rfl⟩

/-- A data event on an open socket is one more entry of its schedule. -/
theorem Tracks.onData {P : Primitives} {secret : HmacSecret} {c : Connection} {d : Schedule}
    (h : Tracks c.socket d) (hopen : c.socket.destroyed = false) (data : Buffer) (clock : ℕ → ℕ) :
    Tracks (c.onData P secret data clock).1.socket (d ++ [(data, clock 0)]) := by
  obtain ⟨hlast, hcases⟩ := @Connection.onData_buffer P secret c data clock
  rw [(h.live hopen).1] at hcases
  refine ⟨fun t ht ↦ ?_, ?_, fun hs ↦ ?_⟩
  · rw [Schedule.lastData_concat] at ht
    exact hlast.trans (Option.some_inj.mp ht)
  · rw [Schedule.rest_concat]
    rcases hcases with ⟨-, hbuffer⟩ | ⟨-, hbuffer, -⟩
    · rw [hbuffer]
      exact ⟨_, Cutter.flatten_split (C := packetCutter) (d.rest ++ data)⟩
    · rw [hbuffer]
  · rw [Schedule.rest_concat]
    rcases hcases with ⟨hend, -⟩ | ⟨-, hcut⟩
    · exact nomatch hs.symm.trans hend
    · exact hcut

namespace TcpState

variable {P : Primitives} {secret : HmacSecret}

/-- The handler of another socket, or of the socket itself, keeps the correspondence. -/
theorem tracks_put {s : TcpState} {id j : SocketId} {d : Schedule} {c : Connection}
    {reports : List LogEntry} (h : ∀ socket, s.sockets j = some socket → Tracks socket d)
    (hc : id = j → Tracks c.socket d) :
    ∀ socket, (s.put id c reports).sockets j = some socket → Tracks socket d := by
  intro socket hsocket
  by_cases hji : j = id
  · subst hji
    rw [put_self] at hsocket
    exact Option.some_inj.mp hsocket ▸ hc rfl
  · rw [put_of_ne s hji] at hsocket
    exact h socket hsocket

/-- **One event**, of this socket or of any other, keeps the buffer and the schedule in step. -/
theorem tracks_next {s : TcpState} {id : SocketId} {d : Schedule}
    (h : ∀ socket, s.sockets id = some socket → Tracks socket d) {e : TcpEvent}
    (he : s.enabled e) :
    ∀ socket, (s.next P secret e).sockets id = some socket → Tracks socket (d.record id e) := by
  cases e with
  | connect j clock =>
    rw [next, connect, Schedule.record]
    simp only
    have hnone : j = id → ∀ socket, s.sockets id ≠ some socket := by
      rintro rfl socket hsocket
      cases hsocket.symm.trans he
    split
    · intro socket hsocket
      rw [if_neg fun hj ↦ hnone hj socket hsocket]
      exact h socket hsocket
    · intro socket hsocket
      by_cases hj : j = id
      · subst hj
        simp only [Function.update_self, Option.some_inj] at hsocket
        subst hsocket
        rw [if_pos rfl]
        exact .new _ _ _ _
      · rw [if_neg hj]
        simp only [Function.update_of_ne (Ne.symm hj)] at hsocket
        exact h socket hsocket
  | data j bytes clock =>
    obtain ⟨socket, hsocket, hopen⟩ := he
    rw [next, hsocket, Schedule.record]
    by_cases hj : j = id
    · subst hj
      rw [if_pos rfl]
      intro socket' hsocket'
      simp only [put_self, Option.some_inj] at hsocket'
      rw [← hsocket']
      exact (h socket hsocket).onData (c := ⟨s.server, socket⟩) hopen bytes clock
    · rw [if_neg hj]
      exact tracks_put h fun h ↦ absurd h hj
  | check j clock =>
    rw [next]
    split
    · exact h
    · next socket hsocket =>
      obtain ⟨hbuffer, hlast, hlive⟩ :=
        Connection.partialCheck_keeps ⟨s.server, socket⟩ clock
      refine tracks_put h ?_
      rintro rfl
      exact (h socket hsocket).keep hbuffer hlast hlive
  | timeout j =>
    rw [next]
    split
    · exact h
    · next socket hsocket =>
      refine tracks_put h ?_
      rintro rfl
      exact (h socket hsocket).keep rfl rfl (fun h ↦ by cases h)
  | close j =>
    intro socket hsocket
    by_cases hj : id = j
    · rw [hj] at hsocket
      cases (Function.update_self _ _ _).symm.trans hsocket
    · exact h socket ((Function.update_of_ne hj _ _).symm.trans hsocket)
  | cleanup now now' => exact h

/-- **A run.**  The sockets have received what the events say, and no more. -/
theorem tracks_foldl {s : TcpState} {id : SocketId} {d : Schedule}
    (h : ∀ socket, s.sockets id = some socket → Tracks socket d) {es : List TcpEvent}
    (hes : Machine.Feasible enabled (next P secret) s es) :
    ∀ socket, (es.foldl (next P secret) s).sockets id = some socket →
      Tracks socket (es.foldl (Schedule.record id) d) := by
  induction es generalizing s d with
  | nil => exact h
  | cons e es ih => exact ih (tracks_next h hes.1) hes.2

theorem addressed_foldl {s : TcpState} (h : s.Addressed) (es : List TcpEvent) :
    (es.foldl (next P secret) s).Addressed := by
  induction es generalizing s with
  | nil => exact h
  | cons e es ih => exact ih (h.next e)

/-- A server before anything has happened: no socket is open, and nothing logged. -/
def start (server : TcpServer) : TcpState := ⟨server, fun _ ↦ none, []⟩

theorem tracks_schedule {server : TcpServer} {es : List TcpEvent}
    (hes : Machine.Feasible enabled (next P secret) (start server) es) {id : SocketId}
    {socket : Socket} (hsocket : (es.foldl (next P secret) (start server)).sockets id =
      some socket) :
    Tracks socket (schedule id es) :=
  tracks_foldl (fun _ h ↦ by cases h) hes socket hsocket

/-! ## Ticks

A tick compares the clock with the last data event, whatever the age of the packet.  So it flags
connections that are silent, and not those that are slow. -/

/-- The tick strikes the address for an incomplete packet, says so, and destroys the socket. -/
def TimesOut (P : Primitives) (secret : HmacSecret) (s : TcpState) (id : SocketId)
    (clock : ℕ → ℕ) : Prop :=
  let s' := s.next P secret (.check id clock)
  let (blacklist, res) := s.server.blacklist.strike id.1 (clock 1)
  s'.server.blacklist = blacklist ∧
    s'.log = s.log ++ [⟨id.1, clock 0, .report (.attack .slowloris res)⟩] ∧
      ∃ socket, s'.sockets id = some socket ∧ socket.destroyed = true

/-- A tick looks at the last activity, which is that of any byte, and not at the age of the
packet. -/
theorem timesOut_iff_lastActivity {s : TcpState} {id : SocketId} {socket : Socket}
    (hsocket : s.sockets id = some socket) (hip : socket.remoteIp = id.1)
    (hbuffer : socket.buffer ≠ []) (clock : ℕ → ℕ) :
    s.TimesOut P secret id clock ↔ clock 0 - socket.lastActivity > partialPacketTimeout := by
  have hpos : 0 < socket.buffer.length := List.length_pos_iff.mpr hbuffer
  have hnext : s.next P secret (.check id clock) =
      s.put id (Connection.partialCheck ⟨s.server, socket⟩ clock).1
        (stamp socket.remoteIp (Connection.partialCheck ⟨s.server, socket⟩ clock).2 clock) := by
    rw [next, hsocket]
  rw [TimesOut, hnext, Connection.partialCheck]
  by_cases hlate : clock 0 - socket.lastActivity > partialPacketTimeout
  · simp only [hpos, hlate, true_and, if_true, iff_true]
    obtain ⟨destroyed, heq⟩ := (Connection.flagAttack ⟨s.server, socket⟩ .slowloris
      (clock 1)).1.expire_eq (clock 0)
    refine ⟨?_, ?_, _, put_self _ _ _ _, ?_⟩
    · rw [heq, ← hip]
      rfl
    · rw [← hip]
      rfl
    · rw [Connection.expire]
      split <;> rfl
  · simp only [hpos, hlate, and_false, if_false, iff_false]
    rintro ⟨-, hlog, -⟩
    have hlength := congrArg List.length hlog
    simp [put, stamp] at hlength

/-- A tick of the run that finds a packet overdue: what happened before it, the socket and the
time. -/
def OverdueTick (es es₁ : List TcpEvent) (id : SocketId) (clock : ℕ → ℕ) : Prop :=
  (∃ es₂, es = es₁ ++ .check id clock :: es₂) ∧ (schedule id es₁).Overdue (clock 0)

/-- Every such tick flags the connection and destroys it. -/
def PartialsTimeOut (P : Primitives) (secret : HmacSecret) (server : TcpServer)
    (es : List TcpEvent) : Prop :=
  ∀ es₁ id clock, OverdueTick es es₁ id clock →
    (es₁.foldl (next P secret) (start server)).TimesOut P secret id clock

/-- No such tick comes soon after a data event of its socket. -/
def Undripped (es : List TcpEvent) : Prop :=
  ∀ es₁ id clock, OverdueTick es es₁ id clock → (schedule id es₁).Silent (clock 0)

/-- One tick that finds a packet overdue destroys the socket exactly if nothing was received for as
long. -/
theorem timesOut_iff {server : TcpServer} {es : List TcpEvent}
    (hes : Machine.Feasible enabled (next P secret) (start server) es) {id : SocketId}
    {clock : ℕ → ℕ} (htick : (es.foldl (next P secret) (start server)).enabled (.check id clock))
    (hoverdue : (schedule id es).Overdue (clock 0)) :
    (es.foldl (next P secret) (start server)).TimesOut P secret id clock ↔
      (schedule id es).Silent (clock 0) := by
  obtain ⟨socket, hsocket⟩ := Option.isSome_iff_exists.mp htick
  have htracks := tracks_schedule hes hsocket
  have hip := @addressed_foldl P secret (start server) (fun _ _ h ↦ by cases h) es id socket hsocket
  have hbuffer : socket.buffer ≠ [] := by
    intro hnil
    have hsuffix := htracks.rest_suffix
    rw [hnil, List.suffix_nil] at hsuffix
    exact hoverdue.rest_ne_nil hsuffix
  obtain ⟨t, ht⟩ : ∃ t, (schedule id es).lastData = some t := by
    rw [Schedule.lastData, List.getLast?_eq_some_getLast hoverdue.ne_nil]
    exact ⟨_, rfl⟩
  rw [timesOut_iff_lastActivity hsocket hip hbuffer, htracks.lastActivity t ht, Schedule.Silent, ht]
  simp

/-- **Incomplete packets time out exactly when nothing drips in.**  Of any run of the server: all
ticks that find an incomplete packet overdue flag the connection and destroy it, if and only if none
of them comes within the timeout of a data event. -/
theorem partialsTimeOut_iff {server : TcpServer} {es : List TcpEvent}
    (hes : Machine.Feasible enabled (next P secret) (start server) es) :
    PartialsTimeOut P secret server es ↔ Undripped es := by
  refine forall_congr' fun es₁ ↦ forall_congr' fun id ↦ forall_congr' fun clock ↦ ?_
  refine imp_congr_right fun ⟨⟨es₂, heq⟩, hoverdue⟩ ↦ ?_
  subst heq
  have hall := Machine.feasible_iff.mp hes
  refine timesOut_iff (Machine.feasible_iff.mpr fun es₃ e es₄ h ↦ ?_) (hall es₁ _ es₂ rfl) hoverdue
  exact hall es₃ e (es₄ ++ .check id clock :: es₂) (by rw [h]; simp)

/-! ### The first bytes of a packet -/

namespace SampleDrip

def peer : SocketId := ("10.0.0.2", 5002)

/-- So many milliseconds after the connection is opened. -/
def at_ (t : ℕ) : ℕ → ℕ := fun _ ↦ 1700000000000 + t

/-- The first byte comes after half a second, and there is a tick every second. -/
def opening : List TcpEvent :=
  [.connect peer (at_ 0), .data peer [65] (at_ 500), .check peer (at_ 1000), .check peer (at_ 2000),
    .check peer (at_ 3000), .check peer (at_ 4000)]

/-- Nothing else comes after the first bytes, and two ticks look at the socket. -/
def silence : List TcpEvent := opening ++ [.check peer (at_ 5000), .check peer (at_ 6000)]

/-- A second byte comes four seconds after the first. -/
def slowDrip : List TcpEvent :=
  opening ++ [.data peer [84] (at_ 4500), .check peer (at_ 5000), .check peer (at_ 6000)]

end SampleDrip

open SampleDrip

/-- The second byte keeps the connection: at the last tick the first one is older than five seconds,
and nothing is flagged. -/
theorem not_partialsTimeOut :
    Machine.Feasible enabled (next Connection.samplePrimitives none) (start .new) slowDrip ∧
      ¬ PartialsTimeOut Connection.samplePrimitives none .new slowDrip := by
  refine ⟨by decide +kernel, fun h ↦ ?_⟩
  have htick : OverdueTick slowDrip (slowDrip.take 8) peer (at_ 6000) :=
    ⟨⟨[], rfl⟩, 1700000000500, by decide +kernel, by decide⟩
  obtain ⟨-, hlog, -⟩ := h _ _ _ htick
  have hnone : (((slowDrip.take 8).foldl (next Connection.samplePrimitives none)
      (start .new)).next Connection.samplePrimitives none
        (.check peer (at_ 6000))).log.length = 0 := by
    decide +kernel
  rw [hlog] at hnone
  simp at hnone

/-- Where nothing follows the first byte, the packet times out. -/
theorem partialsTimeOut_sample :
    PartialsTimeOut Connection.samplePrimitives none .new silence ∧
      OverdueTick silence (silence.take 7) peer (at_ 6000) := by
  refine ⟨(partialsTimeOut_iff (by decide +kernel)).mpr ?_,
    ⟨[], rfl⟩, 1700000000500, by decide +kernel, by decide⟩
  rintro es₁ j clock ⟨⟨es₂, heq⟩, since, hsince, hlate⟩ t ht
  have hmem : TcpEvent.check j clock ∈ silence := by simp [heq]
  obtain rfl : j = peer := by
    simp only [silence, opening, List.cons_append, List.nil_append, List.mem_cons, reduceCtorEq,
      TcpEvent.check.injEq, List.not_mem_nil, or_false, false_or] at hmem
    tauto
  -- the first byte is the last
  have hprefix : ∀ k < 9, (schedule peer (silence.take k)).partialSince =
      (schedule peer (silence.take k)).lastData := by decide +kernel
  have hlength := congrArg List.length heq
  rw [List.length_append, List.length_cons] at hlength
  have hsame := hprefix es₁.length (by
    have h8 : silence.length = 8 := rfl
    omega)
  rw [heq, List.take_left, hsince, ht] at hsame
  rwa [← Option.some_inj.mp hsame]

end TcpState

end AttestP2P
