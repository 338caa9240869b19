import AttestP2P.Network.TcpSockets

/-!
# Honest packet streams

What `startTCPServer` makes of a stream of packets built by `buildPacket`, however TCP cuts it up.

An `Arrival` is an honest packet with the time at which the server comes to handle it.  While the
stream is received, the arrivals fall into those that are `done` and those to come; the buffer holds
what `packetCutter.split` leaves of the bytes received so far, and `Connection.Ready` says that the
server has nothing against the arrivals to come:

* `Ready.handlePacket`: the next packet passes all checks;
* `Ready.handlePackets`: so does every batch of them;
* `serve_arrivals`: so does the whole stream, by induction on the data events, because
  `Cutter.split_append` makes the batches add up to it.
-/

set_option autoImplicit false

namespace AttestP2P

/-- A packet made by `buildPacket(type, wrapPayload(data))`, and the time at which it is handled. -/
structure Arrival (P : Primitives) (secret : HmacSecret) where
  signKey : P.SignKey
  type : UInt8
  timestamp : ℕ
  nonce : Buffer
  data : Buffer
  packet : Buffer
  time : ℕ
  /-- The timestamp is a value of `Date.now()`. -/
  timestamp_le : timestamp ≤ maxTime
  length_nonce : nonce.length = nonceLen
  built : buildPacket P signKey secret type (wrapPayload timestamp nonce data) = .ok packet
  /-- The timestamp is within the replay window on arrival. -/
  inWindow : |(time : ℤ) - timestamp| ≤ replayWindowMs

/-- What `parsePacket` reads in the packet of an arrival: the fields that it was built from. -/
def Arrival.parsed {P : Primitives} {secret : HmacSecret} (a : Arrival P secret) : Packet :=
  let payload := wrapPayload a.timestamp a.nonce a.data
  let nodeId := P.publicKey a.signKey
  ⟨a.type, nodeId, payload.length, payload,
    P.signDetached (packetBody a.type nodeId payload.length payload) a.signKey⟩

theorem Arrival.length_packet {P : Primitives} {secret : HmacSecret} (hP : P.Lawful)
    (a : Arrival P secret) : a.packet.length ≤ minPacketLen + maxPayloadSize := by
  have hle := (buildPacket_eq_ok a.built).1
  rw [length_buildPacket hP a.built]
  omega

namespace Connection

variable {P : Primitives} {secret : HmacSecret}

/-- The report of an accepted packet, which carries its type and the data that were wrapped. -/
def accepted (a : Arrival P secret) : Report := .valid a.type a.data

/-- The server will accept the arrivals `todo`, after having accepted `done`. -/
structure Ready (c : Connection) (done todo : List (Arrival P secret)) : Prop where
  socketPaced : Paced maxPacketsPerSecond 1000 c.socket.rateWindowStart c.socket.packetCount
    (todo.map (·.time))
  admits : c.server.ipRateLimiter.Admits c.socket.remoteIp (todo.map (·.time))
  windowMs : c.server.replayGuard.windowMs = replayWindowMs
  /-- The guard has seen nothing but packets that are done. -/
  seen : ∀ k ∈ c.server.replayGuard.seen.keys,
    ∃ a ∈ done, k = ReplayGuard.key (P.publicKey a.signKey) a.nonce
  notDestroyed : c.socket.destroyed = false

theorem authenticate_arrival (hP : P.Lawful) (a : Arrival P secret) :
    authenticate P secret a.packet = .ok (a.parsed, ⟨a.timestamp, a.nonce, a.data⟩) := by
  rw [authenticate, verifyPacket_of_buildPacket hP a.built]
  simp only [parsePacket_of_buildPacket hP a.built, verifySignature_of_buildPacket hP,
    unwrapPayload_wrapPayload a.timestamp_le a.length_nonce, Arrival.parsed]

/-- The rate limit of the socket lets the next packet through. -/
theorem countPacket_paced {s : Socket} {t : ℕ} {ts : List ℕ}
    (h : Paced maxPacketsPerSecond 1000 s.rateWindowStart s.packetCount (t :: ts)) :
    (countPacket s t).packetCount ≤ maxPacketsPerSecond ∧
      Paced maxPacketsPerSecond 1000 (countPacket s t).rateWindowStart
        (countPacket s t).packetCount ts := by
  rw [Paced] at h
  rw [countPacket]
  by_cases hover : t - s.rateWindowStart > 1000
  · rw [if_pos hover] at h
    simpa only [if_pos hover] using h
  · rw [if_neg hover] at h
    simpa only [if_neg hover] using h

/-- **The next packet is accepted**, and the connection is ready for those that remain. -/
theorem Ready.handlePacket (hP : P.Lawful) {c : Connection} {a : Arrival P secret}
    {done todo : List (Arrival P secret)} (h : c.Ready done (a :: todo))
    (hfresh : a.nonce ∉ done.map (·.nonce)) :
    ∃ c', c.handlePacket P secret a.packet a.time = (c', .ok (a.type, a.data)) ∧
      c'.Ready (done ++ [a]) todo := by
  obtain ⟨hcount, hpaced⟩ := countPacket_paced h.socketPaced
  obtain ⟨hip, -, hdestroyed⟩ := countPacket_keeps c.socket a.time
  obtain ⟨hallow, hadmits⟩ := IpRateLimiter.Admits.allow h.admits
  have hauth := authenticate_arrival hP a
  have hkey : ReplayGuard.key (P.publicKey a.signKey) a.nonce ∉
      c.server.replayGuard.seen.keys := by
    intro hmem
    obtain ⟨b, hb, heq⟩ := h.seen _ hmem
    have hnonce := (ReplayGuard.key_inj heq).2
    exact hfresh (List.mem_map.mpr ⟨b, hb, hnonce.symm⟩)
  have hwindow : |(a.time : ℤ) - a.timestamp| ≤ c.server.replayGuard.windowMs := by
    rw [h.windowMs]
    exact a.inWindow
  obtain ⟨hverdict, hms, hseen⟩ := ReplayGuard.check_of_fresh hwindow hkey
  rw [Connection.handlePacket]
  simp only [gt_iff_lt, Nat.not_lt.mpr hcount, if_false, hip, hallow, hauth, Arrival.parsed,
    hverdict, Bool.true_eq_false]
  refine ⟨_, rfl, hpaced, ?_, hms.trans h.windowMs, fun k hk ↦ ?_, hdestroyed.trans h.notDestroyed⟩
  · simpa only [hip] using hadmits
  · rcases hseen k hk with rfl | hk
    · exact ⟨a, List.mem_append_right _ (List.mem_singleton_self a), rfl⟩
    · obtain ⟨b, hb, heq⟩ := h.seen k hk
      exact ⟨b, List.mem_append_left _ hb, heq⟩

/-- **The next packets are accepted**, all those that one data event completes, in their order. -/
theorem Ready.handlePackets (hP : P.Lawful) {c : Connection}
    {done batch todo : List (Arrival P secret)} (h : c.Ready done (batch ++ todo))
    (hfresh : ((done ++ batch).map (·.nonce)).Nodup)
    {clock : ℕ → ℕ} (hclock : ∀ k a, batch[k]? = some a → clock k = a.time) :
    ∃ c', c.handlePackets P secret (batch.map (·.packet)) clock =
        (c', batch.map accepted, true) ∧
      c'.Ready (done ++ batch) todo := by
  induction batch generalizing c done clock with
  | nil =>
    refine ⟨c, rfl, ?_⟩
    rwa [List.append_nil]
  | cons a batch ih =>
    have hnonce : a.nonce ∉ done.map (·.nonce) := by
      rw [List.map_append, List.nodup_append] at hfresh
      exact fun hmem ↦ hfresh.2.2 _ hmem _ (List.mem_map_of_mem List.mem_cons_self) rfl
    obtain ⟨c₁, hstep, hready⟩ := Ready.handlePacket hP h hnonce
    rw [List.append_cons] at hfresh
    obtain ⟨c₂, hrest, hready'⟩ := ih hready hfresh fun k b hb ↦ hclock (k + 1) b hb
    refine ⟨c₂, ?_, by rwa [List.append_cons]⟩
    rw [List.map_cons, Connection.handlePackets, hclock 0 a rfl, hstep]
    simp only [hrest]
    rfl

/-! ## The stream

Before each data event the buffer holds the beginning of the next packet.  The event completes some
packets, none or many, and leaves the beginning of another one. -/

/-- A socket that is accepted by a fresh server. -/
def fresh (remoteIp : String) (now : ℕ) : Connection := ⟨.new, .new remoteIp now⟩

/-- The data events of a socket, each with the time it comes at.  `times k` is the time at which the
`k`-th packet of the socket is handled. -/
def serve (P : Primitives) (secret : HmacSecret) (times : ℕ → ℕ) (c : Connection) :
    List (Buffer × ℕ) → Connection × List Report
  | [] => (c, [])
  | (data, now) :: events =>
    let (c, reports) := c.onData P secret data fun k ↦ if k = 0 then now else times (k - 1)
    let (c', reports') := serve P secret (fun k ↦ times (k + reports.length)) c events
    (c', reports ++ reports')

/-- A buffer that no further input can make valid is malformed; an honest one is not. -/
theorem extractPackets_eq_ok {b : Buffer} {packets : List Buffer} {remaining : Buffer}
    (h : packetCutter.split b = (packets, remaining)) (hrest : cutPacket remaining = .more) :
    extractPackets b = .ok (packets, remaining) := by
  rw [extractPackets, h]
  simp only [hrest]

/-- **Every data event of an honest stream is accepted.**  Before it the buffer holds `rest`, which
is nothing or a strict prefix of the next packet; after it, `rest'`. -/
theorem Ready.onData (hP : P.Lawful) {c : Connection} {done todo : List (Arrival P secret)}
    (h : c.Ready done todo) (hfresh : ((done ++ todo).map (·.nonce)).Nodup) {data later : Buffer}
    (hstream : c.socket.buffer ++ (data ++ later) = (todo.map (·.packet)).flatten)
    (hsize : data.length ≤ maxBufferSize - maxPayloadSize - minPacketLen)
    (hbuffer : c.socket.buffer.length ≤ minPacketLen + maxPayloadSize) (clock : ℕ → ℕ)
    (hclock : ∀ k a, todo[k]? = some a → clock (k + 1) = a.time) :
    ∃ c' batch todo', todo = batch ++ todo' ∧
      c.onData P secret data clock = (c', batch.map accepted) ∧ c'.Ready (done ++ batch) todo' ∧
      c'.socket.buffer ++ later = (todo'.map (·.packet)).flatten ∧
      cutPacket c'.socket.buffer = .more ∧
      c'.socket.buffer.length ≤ minPacketLen + maxPayloadSize := by
  have hcomplete : ∀ x ∈ todo.map (·.packet), packetCutter.Complete x := by
    intro x hx
    obtain ⟨a, -, rfl⟩ := List.mem_map.mp hx
    exact complete_of_buildPacket hP a.built
  rw [← List.append_assoc] at hstream
  obtain ⟨zs, hzs, hrest⟩ := Cutter.split_prefix hcomplete hstream
  obtain ⟨batch, todo', rfl, hbatch, rfl⟩ := List.map_eq_append_iff.mp hzs
  -- what is left is empty or a strict prefix of the next packet
  have hmore : cutPacket (packetCutter.split (c.socket.buffer ++ data)).2 = .more ∧
      (packetCutter.split (c.socket.buffer ++ data)).2.length ≤ minPacketLen + maxPayloadSize ∧
      (packetCutter.split (c.socket.buffer ++ data)).2 ++ later =
        (todo'.map (·.packet)).flatten := by
    rcases hrest with ⟨hnil, hlater⟩ | ⟨z, zs', rest, hz, hne, hprefix, hlater⟩
    · rw [hnil]
      exact ⟨rfl, Nat.zero_le _, hlater⟩
    · have hmem : z ∈ (batch ++ todo').map (·.packet) := by
        rw [List.map_append, hz]
        exact List.mem_append_right _ List.mem_cons_self
      obtain ⟨a, -, ha⟩ := List.mem_map.mp hmem
      have hle := a.length_packet hP
      rw [ha, ← hprefix, List.length_append] at hle
      refine ⟨(hcomplete z hmem).cut_of_append hprefix hne, by omega, ?_⟩
      rw [hlater, ← List.append_assoc, hprefix, hz, List.flatten_cons]
  obtain ⟨hmore, hlen, hlater⟩ := hmore
  have hextract : extractPackets (c.socket.buffer ++ data) =
      .ok (batch.map (·.packet), (packetCutter.split (c.socket.buffer ++ data)).2) :=
    extractPackets_eq_ok (by rw [hbatch]) hmore
  have hfits : ¬ (c.socket.buffer ++ data).length > maxBufferSize := by
    rw [List.length_append]
    simp only [maxBufferSize, maxPayloadSize, minPacketLen, headerLen, signatureLen, hmacLen]
      at hsize hbuffer ⊢
    omega
  have hready : Ready ⟨c.server, { c.socket with
      lastActivity := clock 0, buffer := c.socket.buffer ++ data }⟩ done (batch ++ todo') :=
    ⟨h.socketPaced, h.admits, h.windowMs, h.seen, h.notDestroyed⟩
  rw [← List.append_assoc, List.map_append] at hfresh
  obtain ⟨c', hpackets, hready'⟩ := hready.handlePackets hP hfresh.of_append_left
    fun k a ha ↦ hclock k a (by
      rw [List.getElem?_append_left (List.getElem?_eq_some_iff.mp ha).1, ha])
  refine ⟨⟨c'.server, { c'.socket with
    buffer := (packetCutter.split (c.socket.buffer ++ data)).2 }⟩, batch, todo', rfl, ?_,
    ⟨hready'.socketPaced, hready'.admits, hready'.windowMs, hready'.seen, hready'.notDestroyed⟩,
    hlater, hmore, hlen⟩
  rw [Connection.onData]
  simp only [hfits, if_false, hextract, hpackets, if_true]

/-- The data events of an honest stream, one after the other. -/
theorem Ready.serve (hP : P.Lawful) {c : Connection} {done todo : List (Arrival P secret)}
    (h : c.Ready done todo) (hfresh : ((done ++ todo).map (·.nonce)).Nodup)
    {events : List (Buffer × ℕ)}
    (hstream : c.socket.buffer ++ (events.map Prod.fst).flatten = (todo.map (·.packet)).flatten)
    (hsize : ∀ e ∈ events, e.1.length ≤ maxBufferSize - maxPayloadSize - minPacketLen)
    (hmore : cutPacket c.socket.buffer = .more)
    (hbuffer : c.socket.buffer.length ≤ minPacketLen + maxPayloadSize) (times : ℕ → ℕ)
    (htimes : ∀ k a, todo[k]? = some a → times k = a.time) :
    ∃ c', serve P secret times c events = (c', todo.map accepted) ∧ c'.Ready (done ++ todo) [] ∧
      c'.socket.buffer = [] := by
  induction events generalizing c done todo times with
  | nil =>
    rw [List.map_nil, List.flatten_nil, List.append_nil] at hstream
    cases todo with
    | nil =>
      refine ⟨c, rfl, by rwa [List.append_nil], hstream⟩
    | cons a todo =>
      -- a complete packet in the buffer would have been extracted
      have hitem := packetCutter.item_append ((todo.map (·.packet)).flatten)
        (complete_of_buildPacket hP a.built)
      rw [hstream, List.map_cons, List.flatten_cons] at hmore
      exact absurd (hitem.symm.trans hmore) (by simp)
  | cons e events ih =>
    obtain ⟨data, now⟩ := e
    rw [List.map_cons, List.flatten_cons] at hstream
    obtain ⟨c₁, batch, todo', rfl, hstep, hready, hstream', hmore', hbuffer'⟩ :=
      h.onData hP hfresh hstream (hsize _ List.mem_cons_self) hbuffer
        (fun k ↦ if k = 0 then now else times (k - 1)) fun k a ha ↦ htimes k a ha
    rw [← List.append_assoc] at hfresh
    obtain ⟨c₂, hrest, hready', hempty⟩ := ih hready hfresh hstream'
      (fun e he ↦ hsize e (List.mem_cons_of_mem _ he)) hmore' hbuffer'
      (fun k ↦ times (k + batch.length)) fun k a ha ↦ htimes (k + batch.length) a (by
        rw [List.getElem?_append_right (by omega), Nat.add_sub_cancel_right, ha])
    refine ⟨c₂, ?_, by rwa [← List.append_assoc], hempty⟩
    rw [Connection.serve]
    simp only [hstep, List.length_map, hrest, List.map_append]

/-- **Honest packet streams are accepted whole, however they are cut up.**  A fresh server accepts
every packet, once and in order, with its type and its data; it flags no attack and is left with an
empty buffer. -/
theorem honest_stream_accepted (hP : P.Lawful) (arrivals : List (Arrival P secret))
    (hnonces : (arrivals.map (·.nonce)).Nodup) (remoteIp : String) {start : ℕ}
    (hsocket : Paced maxPacketsPerSecond 1000 start 0 (arrivals.map (·.time)))
    (hip : ∀ t ∈ (arrivals.map (·.time)).head?,
      Paced maxPacketsPerSecondPerIp 1000 t 0 (arrivals.map (·.time)))
    {events : List (Buffer × ℕ)}
    (hbytes : (events.map Prod.fst).flatten = (arrivals.map (·.packet)).flatten)
    (hsize : ∀ e ∈ events, e.1.length ≤ maxBufferSize - maxPayloadSize - 137) :
    ∃ c, serve P secret (fun k ↦ (arrivals.map (·.time)).getD k 0) (fresh remoteIp start) events =
        (c, arrivals.map fun a ↦ .valid a.type a.data) ∧
      c.socket.buffer = [] ∧ c.socket.destroyed = false := by
  have hready : Ready (fresh remoteIp start) [] arrivals :=
    ⟨hsocket, hip, rfl, fun k hk ↦ absurd hk List.not_mem_nil, rfl⟩
  obtain ⟨c, hserve, hdone, hempty⟩ := hready.serve hP hnonces hbytes hsize rfl (Nat.zero_le _)
    (fun k ↦ (arrivals.map (·.time)).getD k 0) fun k a ha ↦ by
      rw [List.getD_eq_getElem?_getD, List.getElem?_map, ha]
      rfl
  exact ⟨c, hserve, hempty, hdone.notDestroyed⟩

/-! ### One packet -/

/-- The public key of the Ed25519 seed `9d61b19d…cae7f60`. -/
def samplePublicKey : Buffer :=
  [215, 90, 152, 1, 130, 177, 10, 183, 213, 75, 254, 211, 201, 100, 7, 58, 14, 225, 114, 243, 218,
    166, 35, 37, 175, 2, 26, 104, 247, 7, 81, 26]

/-- Its signature of `sampleBody`, by the key of the sample. -/
def sampleSignature : Buffer :=
  [228, 183, 64, 167, 31, 57, 66, 36, 183, 215, 158, 225, 157, 106, 232, 34, 148, 127, 71, 249, 48,
    108, 170, 152, 60, 110, 195, 78, 105, 102, 85, 107, 167, 3, 124, 164, 156, 206, 235, 6, 149, 65,
    123, 103, 211, 138, 12, 226, 232, 224, 122, 249, 61, 9, 73, 172, 77, 228, 240, 222, 137, 198,
    23, 7]

/-- The HMAC of `sampleBody` and `sampleSignature` under the key "secret". -/
def sampleHmac : Buffer :=
  [89, 214, 249, 201, 251, 84, 23, 199, 205, 238, 166, 185, 84, 77, 94, 84, 26, 254, 122, 105, 13,
    165, 145, 13, 178, 160, 168, 233, 118, 213, 35, 45]

/-- Functions that take the values of the real ones on the packet below. -/
def samplePrimitives : Primitives where
  SignKey := Unit
  publicKey _ := samplePublicKey
  signDetached _ _ := sampleSignature
  verifyDetached signature _ publicKey :=
    decide (signature = sampleSignature ∧ publicKey = samplePublicKey)
  sha256 _ := List.replicate 32 0
  hmacSha256 _ _ := sampleHmac

def sampleNonce : Buffer := [0, 1, 2, 3, 4, 5, 6, 7, 8, 9, 10, 11, 12, 13, 14, 15]

/-- "hi", wrapped on 14 November 2023 with the first nonce. -/
def samplePayload : Buffer := wrapPayload 1700000000000 sampleNonce [104, 105]

def sampleBody : Buffer := packetBody 1 samplePublicKey 26 samplePayload

/-- The packet with payload `samplePayload`, handled 20 ms after it was made. -/
def sampleArrival : Arrival samplePrimitives (some [115, 101, 99, 114, 101, 116]) where
  signKey := ()
  type := 1
  timestamp := 1700000000000
  nonce := sampleNonce
  data := [104, 105]
  packet := sampleBody ++ sampleSignature ++ sampleHmac
  time := 1700000000020
  timestamp_le := by decide
  length_nonce := rfl
  built := rfl
  inWindow := by decide

/-! ### Two packets, in three pieces -/

/-- "you", wrapped five milliseconds later with another nonce. -/
def secondPayload : Buffer :=
  wrapPayload 1700000000005 [16, 17, 18, 19, 20, 21, 22, 23, 24, 25, 26, 27, 28, 29, 30, 31]
    [121, 111, 117]

def secondBody : Buffer := packetBody 1 samplePublicKey 27 secondPayload

/-- The signature of `secondBody` under the same key. -/
def secondSignature : Buffer :=
  [159, 189, 88, 137, 96, 226, 196, 38, 234, 74, 53, 62, 213, 4, 110, 115, 244, 122, 167, 110, 119,
    118, 136, 229, 25, 145, 16, 81, 235, 122, 207, 25, 211, 184, 152, 70, 176, 202, 193, 74, 102,
    89, 139, 39, 136, 155, 125, 91, 237, 135, 82, 222, 222, 243, 214, 69, 129, 188, 38, 146, 251,
    59, 203, 14]

/-- The HMAC of `secondBody` and `secondSignature` under the key "secret". -/
def secondHmac : Buffer :=
  [137, 35, 169, 59, 46, 105, 114, 132, 243, 104, 236, 160, 46, 136, 231, 20, 60, 96, 77, 231, 39,
    37, 153, 44, 9, 50, 215, 157, 61, 233, 187, 122]

/-- Functions that take the values of the real ones on both packets. -/
def streamPrimitives : Primitives where
  SignKey := Unit
  publicKey _ := samplePublicKey
  signDetached m _ := if m = secondBody then secondSignature else sampleSignature
  verifyDetached signature m publicKey :=
    decide (signature = (if m = secondBody then secondSignature else sampleSignature) ∧
      publicKey = samplePublicKey)
  sha256 _ := List.replicate 32 0
  hmacSha256 _ m := if m = secondBody ++ secondSignature then secondHmac else sampleHmac

theorem streamPrimitives_lawful : streamPrimitives.Lawful where
  length_publicKey _ := rfl
  length_signDetached m _ := by
    simp only [streamPrimitives]
    split_ifs <;> rfl
  verify_sign _ _ := by simp [streamPrimitives]
  length_sha256 _ := rfl
  length_hmacSha256 _ m := by
    simp only [streamPrimitives]
    split_ifs <;> rfl

def firstInStream : Arrival streamPrimitives (some [115, 101, 99, 114, 101, 116]) where
  signKey := ()
  type := 1
  timestamp := 1700000000000
  nonce := sampleNonce
  data := [104, 105]
  packet := sampleBody ++ sampleSignature ++ sampleHmac
  time := 1700000000020
  timestamp_le := by decide
  length_nonce := rfl
  built := by decide +kernel
  inWindow := by decide

def secondInStream : Arrival streamPrimitives (some [115, 101, 99, 114, 101, 116]) where
  signKey := ()
  type := 1
  timestamp := 1700000000005
  nonce := [16, 17, 18, 19, 20, 21, 22, 23, 24, 25, 26, 27, 28, 29, 30, 31]
  data := [121, 111, 117]
  packet := secondBody ++ secondSignature ++ secondHmac
  time := 1700000000025
  timestamp_le := by decide
  length_nonce := rfl
  built := by decide +kernel
  inWindow := by decide

/-- The first packet is cut before its payload, and the second one within its header. -/
def pieces : List (Buffer × ℕ) :=
  [(firstInStream.packet.take 50, 1700000000010),
    (firstInStream.packet.drop 50 ++ secondInStream.packet.take 20, 1700000000019),
    (secondInStream.packet.drop 20, 1700000000024)]

theorem honest_stream_accepted_sample :
    ∃ c, serve streamPrimitives (some [115, 101, 99, 114, 101, 116])
        (fun k ↦ [1700000000020, 1700000000025].getD k 0) (fresh "127.0.0.1" 1699999999000)
        pieces = (c, [.valid 1 [104, 105], .valid 1 [121, 111, 117]]) ∧
      c.socket.buffer = [] ∧ c.socket.destroyed = false := by
  have hpaced : ∀ limit start, 2 ≤ limit → start ≤ 1700000000020 →
      Paced limit 1000 start 0 [1700000000020, 1700000000025] := by
    intro limit start hlimit hstart
    refine paced_of_sliding (by omega) (fun t ht ↦ ?_) fun i a b _ hb ↦ ?_
    · obtain rfl : 1700000000020 = t := by simpa using ht
      exact hstart
    · rw [List.getElem?_eq_none (by simp only [List.length_cons, List.length_nil]; omega)] at hb
      cases hb
  refine honest_stream_accepted streamPrimitives_lawful [firstInStream, secondInStream]
    (by decide) "127.0.0.1" (hpaced _ _ (by decide) (by decide)) ?_ ?_ ?_
  · rintro t ht
    obtain rfl : 1700000000020 = t := Option.some_inj.mp ht
    exact hpaced _ _ (by decide) le_rfl
  · simp only [pieces, List.map_cons, List.map_nil, List.flatten_cons, List.flatten_nil,
      List.append_nil, List.append_assoc, List.take_append_drop]
    rw [← List.append_assoc, List.take_append_drop]
  · decide +kernel

end Connection

end AttestP2P
