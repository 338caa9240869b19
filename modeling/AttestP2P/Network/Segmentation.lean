import AttestP2P.Network.PacketStream

/-!
# Packet acceptance and TCP segmentation

One socket receives a stream of bytes, valid or not, cut up in some way into data events, all at one
time.  What becomes of the packets is the same however the stream is cut up, but for one thing:
`extractPackets` throws on a malformed header and takes the complete packets in front of it along,
when they come in the same event.

* `feed` runs the handler over the data events; `outcome` is what is observed of it.
* `settle` handles a list of packets and then flags the malformed header, if there is one.  The
  stream decides on the header, and the packets handled are the first of the stream
  (`feed_eq_settle`, from `Cutter.batches_spec`); how many they are is `handledPackets`.
* `outcome_eq_iff` says when two segmentations have one outcome.
-/

set_option autoImplicit false

namespace AttestP2P

/-- The type under which `flagAttack` logs an attack. -/
def Infraction.type : Infraction → String
  | .bufferOverflow _ => "buffer_overflow"
  | .rateLimitSocket _ => "rate_limit_socket"
  | .rateLimitIp => "rate_limit_ip"
  | .hmacInvalid => "hmac_invalid"
  | .signatureInvalid => "signature_invalid"
  | .replay _ => "replay"
  | .malformedPacket _ => "malformed_packet"
  | .slowloris => "slowloris"

/-- The packet a report says is valid, if it is such a report. -/
def Report.packet? : Report → Option (UInt8 × Buffer)
  | .valid type appData => some (type, appData)
  | .attack _ _ => none

/-- The type of the attack a report is about. -/
def Report.infraction? : Report → Option String
  | .valid _ _ => none
  | .attack i _ => some i.type

/-- What is observed of a socket: the packets accepted, and its end, if it was destroyed. -/
structure Outcome where
  accepted : List (UInt8 × Buffer)
  destroyed : Bool
  infraction : Option String
  deriving DecidableEq

namespace Connection

variable (P : Primitives) (secret : HmacSecret) (now : ℕ)

/-- What is observed when the handler leaves the connection and has made the reports. -/
def outcome (r : Connection × List Report) : Outcome where
  accepted := r.2.filterMap Report.packet?
  destroyed := r.1.socket.destroyed
  infraction := r.2.findSome? Report.infraction?

/-- Data events on one socket, all at the time `now`; there are none after `socket.destroy()`. -/
def feed (c : Connection) : List Buffer → Connection × List Report
  | [] => (c, [])
  | data :: events =>
    if c.socket.destroyed then (c, [])
    else
      let (c, reports) := c.onData P secret data fun _ ↦ now
      let (c, reports') := feed c events
      (c, reports ++ reports')

/-- No data event exceeds the bound of the buffer. -/
def Fits (c : Connection) : List Buffer → Prop
  | [] => True
  | data :: events => c.socket.destroyed = true ∨
    ((c.socket.buffer ++ data).length ≤ maxBufferSize ∧
      Fits (c.onData P secret data fun _ ↦ now).1 events)

/-- The packets are handled, and then the malformed header is flagged, if there is one. -/
def settle (c : Connection) (packets : List Buffer) (malformed : Option String) :
    Connection × List Report :=
  let (c, reports, done) := c.handlePackets P secret packets fun _ ↦ now
  match done, malformed with
  | true, some e =>
    let (c, reports') := c.flagAttack (.malformedPacket e) now
    (c, reports ++ reports')
  | _, _ => (c, reports)

/-- How many packets of a stream are complete before the data event that completes a malformed
header; all of them, if there is no such event. -/
def handledPackets (events : List Buffer) : ℕ := (packetCutter.batches [] events).1.flatten.length

/-- The first of the packets that is not accepted: how many come before it, and the attack it is
flagged as. -/
def firstRejected (c : Connection) : List Buffer → Option (ℕ × Infraction)
  | [] => none
  | packet :: packets =>
    match c.handlePacket P secret packet now with
    | (_, .error i) => some (0, i)
    | (c, .ok _) => (firstRejected c packets).map fun r ↦ (r.1 + 1, r.2)

variable {P : Primitives} {secret : HmacSecret} {now : ℕ}

/-! ## The buffer does not matter to the loop -/

/-- The connection with another buffer, received at the given time. -/
def buffered (c : Connection) (time : ℕ) (b : Buffer) : Connection :=
  { c with socket := { c.socket with lastActivity := time, buffer := b } }

theorem handlePacket_buffered (c : Connection) (time : ℕ) (b packet : Buffer) :
    (c.buffered time b).handlePacket P secret packet now =
      ((c.handlePacket P secret packet now).1.buffered time b,
        (c.handlePacket P secret packet now).2) := by
  have hcount : countPacket (c.buffered time b).socket now =
      { countPacket c.socket now with lastActivity := time, buffer := b } := by
    rw [countPacket, countPacket]
    by_cases hover : now - c.socket.rateWindowStart > 1000
    · simp only [buffered, hover, if_true]
    · simp only [buffered, hover, if_false]
  rw [handlePacket, handlePacket]
  simp only [hcount]
  simp only [buffered]
  by_cases hrate : (countPacket c.socket now).packetCount > maxPacketsPerSecond
  · simp only [hrate, if_true]
  · simp only [hrate, if_false]
    by_cases hallowed :
      (c.server.ipRateLimiter.allow (countPacket c.socket now).remoteIp now).2 = false
    · simp only [hallowed, if_true]
    · simp only [hallowed]
      cases authenticate P secret packet with
      | error i => rfl
      | ok v =>
        simp only
        generalize c.server.replayGuard.check v.1.nodeId v.2.timestamp v.2.nonce now = r
        obtain ⟨guard, verdict⟩ := r
        cases verdict <;> rfl

theorem handlePackets_buffered (c : Connection) (time : ℕ) (b : Buffer) (packets : List Buffer) :
    (c.buffered time b).handlePackets P secret packets (fun _ ↦ now) =
      ((c.handlePackets P secret packets fun _ ↦ now).1.buffered time b,
        (c.handlePackets P secret packets fun _ ↦ now).2) := by
  induction packets generalizing c with
  | nil => rfl
  | cons packet packets ih =>
    rw [handlePackets, handlePackets, handlePacket_buffered]
    generalize c.handlePacket P secret packet now = r
    obtain ⟨c₁, res⟩ := r
    cases res with
    | error i => rfl
    | ok v =>
      simp only
      rw [ih]

/-- The loop over two lists of packets is the loop over the first and then, if the socket is still
open, over the second. -/
theorem handlePackets_append (c : Connection) (packets packets' : List Buffer) :
    c.handlePackets P secret (packets ++ packets') (fun _ ↦ now) =
      match c.handlePackets P secret packets fun _ ↦ now with
      | (c₁, reports, true) =>
        let r := c₁.handlePackets P secret packets' fun _ ↦ now
        (r.1, reports ++ r.2.1, r.2.2)
      | r => r := by
  induction packets generalizing c with
  | nil => rfl
  | cons packet packets ih =>
    rw [List.cons_append, handlePackets, handlePackets]
    generalize c.handlePacket P secret packet now = r
    obtain ⟨c₁, res⟩ := r
    cases res with
    | error i => rfl
    | ok v =>
      simp only
      rw [ih]
      generalize c₁.handlePackets P secret packets _ = r'
      obtain ⟨c₂, reports, done⟩ := r'
      cases done <;> rfl

/-- A socket is destroyed by an attack, and by nothing else. -/
theorem destroyed_handlePackets (c : Connection) (packets : List Buffer) :
    (c.handlePackets P secret packets fun _ ↦ now).1.socket.destroyed =
      (c.socket.destroyed || !(c.handlePackets P secret packets fun _ ↦ now).2.2) := by
  induction packets generalizing c with
  | nil => simp [handlePackets]
  | cons packet packets ih =>
    have hkeeps := @handlePacket_destroyed P secret c packet now
    rw [handlePackets]
    generalize c.handlePacket P secret packet now = r at hkeeps
    obtain ⟨c₁, res⟩ := r
    cases res with
    | error i => simp [flagAttack]
    | ok v =>
      simp only
      rw [ih, show c₁.socket.destroyed = c.socket.destroyed from hkeeps]

theorem settle_append (c : Connection) (packets packets' : List Buffer)
    (malformed : Option String) :
    c.settle P secret now (packets ++ packets') malformed =
      match c.handlePackets P secret packets fun _ ↦ now with
      | (c₁, reports, true) =>
        ((c₁.settle P secret now packets' malformed).1,
          reports ++ (c₁.settle P secret now packets' malformed).2)
      | (c₁, reports, false) => (c₁, reports) := by
  rw [settle, handlePackets_append]
  generalize c.handlePackets P secret packets _ = r
  obtain ⟨c₁, reports, done⟩ := r
  cases done with
  | false => cases malformed <;> rfl
  | true =>
    simp only [settle]
    generalize c₁.handlePackets P secret packets' _ = r'
    obtain ⟨c₂, reports', done'⟩ := r'
    cases done' with
    | false => cases malformed <;> rfl
    | true =>
      cases malformed with
      | none => rfl
      | some e => simp only [List.append_assoc]

theorem settle_buffered (c : Connection) (time : ℕ) (b : Buffer) (packets : List Buffer)
    (malformed : Option String) :
    (c.buffered time b).settle P secret now packets malformed =
      ((c.settle P secret now packets malformed).1.buffered time b,
        (c.settle P secret now packets malformed).2) := by
  rw [settle, settle, handlePackets_buffered]
  generalize c.handlePackets P secret packets _ = r
  obtain ⟨c₁, reports, done⟩ := r
  cases done <;> cases malformed <;> rfl

/-! ## What a segmentation comes down to

A segmentation decides into which batches the packets of a stream fall, and nothing else.  What
batches are good for is to be rejected together. -/

theorem extractPackets_eq (b : Buffer) :
    extractPackets b =
      match packetCutter.malformed (packetCutter.split b).2 with
      | some e => .error e
      | none => .ok (packetCutter.split b) := by
  rw [extractPackets]
  split
  · next e he => rw [Cutter.malformed_eq_some.mpr he]
  · next hne =>
    cases h : packetCutter.malformed (packetCutter.split b).2 with
    | none => rfl
    | some e => exact absurd (Cutter.malformed_eq_some.mp h) (hne e)

/-- A data event that does not exceed the bound. -/
theorem onData_of_fits {c : Connection} {data : Buffer}
    (hfits : (c.socket.buffer ++ data).length ≤ maxBufferSize) :
    c.onData P secret data (fun _ ↦ now) =
      match packetCutter.malformed (packetCutter.split (c.socket.buffer ++ data)).2 with
      | some e =>
        (c.buffered now (c.socket.buffer ++ data)).flagAttack (.malformedPacket e) now
      | none =>
        let s := packetCutter.split (c.socket.buffer ++ data)
        let r := c.handlePackets P secret s.1 fun _ ↦ now
        if r.2.2 then (r.1.buffered now s.2, r.2.1)
        else (r.1.buffered now (c.socket.buffer ++ data), r.2.1) := by
  have hloop := @handlePackets_buffered P secret now c now (c.socket.buffer ++ data)
    (packetCutter.split (c.socket.buffer ++ data)).1
  rw [buffered] at hloop
  rw [onData]
  simp only [Nat.not_lt.mpr hfits, if_false, extractPackets_eq]
  cases packetCutter.malformed (packetCutter.split (c.socket.buffer ++ data)).2 with
  | some e => rfl
  | none =>
    simp only [hloop]
    split <;> rfl

/-- There are no data events after `socket.destroy()`, so that the rest of the stream is not looked
at. -/
theorem feed_of_destroyed {c : Connection} (hc : c.socket.destroyed = true) (events : List Buffer) :
    c.feed P secret now events = (c, []) := by
  cases events with
  | nil => rfl
  | cons data events => rw [feed, if_pos hc]

/-- **However a stream is cut up**, its first packets are handled, and a malformed header
flagged. -/
theorem feed_eq_settle {c : Connection} (hopen : c.socket.destroyed = false)
    (hmore : packetCutter.cut c.socket.buffer = .more) {events : List Buffer}
    (hfits : c.Fits P secret now events) :
    ∃ time b, c.feed P secret now events =
      let r := packetCutter.batches c.socket.buffer events
      ((c.settle P secret now r.1.flatten r.2).1.buffered time b,
        (c.settle P secret now r.1.flatten r.2).2) := by
  induction events generalizing c with
  | nil => exact ⟨c.socket.lastActivity, c.socket.buffer, rfl⟩
  | cons data events ih =>
    obtain ⟨hle, hrest⟩ := hfits.resolve_left (by simp [hopen])
    rw [onData_of_fits hle] at hrest
    rw [feed, if_neg (by simp [hopen]), onData_of_fits hle, Cutter.batches]
    cases hbad : packetCutter.malformed (packetCutter.split (c.socket.buffer ++ data)).2 with
    | some e =>
      -- the packets in front of the malformed header are lost
      refine ⟨now, c.socket.buffer ++ data, ?_⟩
      have hflag : ((c.buffered now (c.socket.buffer ++ data)).flagAttack
          (.malformedPacket e) now).1.socket.destroyed = true := rfl
      simp only [feed_of_destroyed hflag, List.append_nil]
      rfl
    | none =>
      have hdestroyed := @destroyed_handlePackets P secret now c
        (packetCutter.split (c.socket.buffer ++ data)).1
      simp only [hbad] at hrest
      simp only [List.flatten_cons]
      rw [settle_append]
      generalize c.handlePackets P secret _ _ = r at hrest hdestroyed
      obtain ⟨c₁, reports, done⟩ := r
      rw [hopen] at hdestroyed
      cases done with
      | false =>
        refine ⟨now, c.socket.buffer ++ data, ?_⟩
        have hend : (c₁.buffered now (c.socket.buffer ++ data)).socket.destroyed = true :=
          hdestroyed
        simp only [Bool.false_eq_true, if_false, feed_of_destroyed hend, List.append_nil]
      | true =>
        obtain ⟨time, b, heq⟩ := @ih
          (c₁.buffered now (packetCutter.split (c.socket.buffer ++ data)).2) hdestroyed
          (Cutter.cut_rest_of_not_malformed hbad) hrest
        refine ⟨time, b, ?_⟩
        simp only [if_true, heq, settle_buffered]
        rfl

/-! ## Outcomes

What is accepted, what is flagged first, and what is left of the server.  Two segmentations of a
stream lead to the same outcome unless the stream is malformed somewhere and they cut differently
before that place. -/

/-- The packets of the list that are accepted before one is not. -/
def acceptedOf (P : Primitives) (secret : HmacSecret) (now : ℕ) (c : Connection)
    (packets : List Buffer) : List (UInt8 × Buffer) :=
  (c.handlePackets P secret packets fun _ ↦ now).2.1.filterMap Report.packet?

theorem acceptedOf_cons_of_ok {c c' : Connection} {packet : Buffer} {v : UInt8 × Buffer}
    (hstep : c.handlePacket P secret packet now = (c', .ok v)) (packets : List Buffer) :
    c.acceptedOf P secret now (packet :: packets) = v :: c'.acceptedOf P secret now packets := by
  rw [acceptedOf, handlePackets, hstep]
  rfl

theorem acceptedOf_cons_of_error {c c' : Connection} {packet : Buffer} {i : Infraction}
    (hstep : c.handlePacket P secret packet now = (c', .error i)) (packets : List Buffer) :
    c.acceptedOf P secret now (packet :: packets) = [] := by
  rw [acceptedOf, handlePackets, hstep]
  rfl

theorem firstRejected_cons_of_ok {c c' : Connection} {packet : Buffer} {v : UInt8 × Buffer}
    (hstep : c.handlePacket P secret packet now = (c', .ok v)) (packets : List Buffer) :
    c.firstRejected P secret now (packet :: packets) =
      (c'.firstRejected P secret now packets).map fun r ↦ (r.1 + 1, r.2) := by
  rw [firstRejected, hstep]

theorem firstRejected_cons_of_error {c c' : Connection} {packet : Buffer} {i : Infraction}
    (hstep : c.handlePacket P secret packet now = (c', .error i)) (packets : List Buffer) :
    c.firstRejected P secret now (packet :: packets) = some (0, i) := by
  rw [firstRejected, hstep]

/-- As many are accepted as there are before the first that is rejected. -/
theorem length_acceptedOf (c : Connection) (packets : List Buffer) :
    (c.acceptedOf P secret now packets).length =
      ((c.firstRejected P secret now packets).map Prod.fst).getD packets.length := by
  induction packets generalizing c with
  | nil => rfl
  | cons packet packets ih =>
    cases hstep : c.handlePacket P secret packet now with
    | mk c' res =>
      cases res with
      | error i => rw [acceptedOf_cons_of_error hstep, firstRejected_cons_of_error hstep]; rfl
      | ok v =>
        rw [acceptedOf_cons_of_ok hstep, firstRejected_cons_of_ok hstep, List.length_cons, ih]
        cases c'.firstRejected P secret now packets <;> rfl

theorem settle_cons_of_ok {c c' : Connection} {packet : Buffer} {v : UInt8 × Buffer}
    (hstep : c.handlePacket P secret packet now = (c', .ok v)) (packets : List Buffer)
    (malformed : Option String) :
    c.settle P secret now (packet :: packets) malformed =
      ((c'.settle P secret now packets malformed).1,
        .valid v.1 v.2 :: (c'.settle P secret now packets malformed).2) := by
  rw [← List.singleton_append, settle_append, handlePackets, hstep]
  rfl

/-- **What is observed** when the first `k` packets are handled and a malformed header follows. -/
theorem outcome_settle {c : Connection} {packets : List Buffer} (k : ℕ)
    (hk : k ≤ packets.length) (e : String) :
    outcome (c.settle P secret now (packets.take k) (some e)) =
      match c.firstRejected P secret now packets with
      | some (n, i) =>
        if n < k then ⟨c.acceptedOf P secret now packets, true, some i.type⟩
        else ⟨(c.acceptedOf P secret now packets).take k, true, some "malformed_packet"⟩
      | none => ⟨(c.acceptedOf P secret now packets).take k, true, some "malformed_packet"⟩ := by
  induction packets generalizing c k with
  | nil =>
    obtain rfl : k = 0 := Nat.le_zero.mp hk
    rfl
  | cons packet packets ih =>
    cases k with
    | zero =>
      rw [List.take_zero]
      cases c.firstRejected P secret now (packet :: packets) with
      | none => rfl
      | some r => simp only [Nat.not_lt_zero, if_false]; rfl
    | succ k =>
      rw [List.take_succ_cons]
      cases hstep : c.handlePacket P secret packet now with
      | mk c' res =>
        cases res with
        | error i =>
          rw [firstRejected_cons_of_error hstep, acceptedOf_cons_of_error hstep, settle,
            handlePackets, hstep]
          simp only [Nat.succ_pos, if_true]
          rfl
        | ok v =>
          have hrest := @ih c' k (Nat.le_of_succ_le_succ hk)
          rw [settle_cons_of_ok hstep, acceptedOf_cons_of_ok hstep, firstRejected_cons_of_ok hstep,
            List.take_succ_cons]
          rw [outcome] at hrest ⊢
          simp only [List.filterMap_cons, Report.packet?, List.findSome?_cons, Report.infraction?]
          cases hrejected : c'.firstRejected P secret now packets with
          | none =>
            rw [hrejected] at hrest
            simp only [Option.map_none, Outcome.mk.injEq] at hrest ⊢
            exact ⟨congrArg _ hrest.1, hrest.2⟩
          | some r =>
            obtain ⟨n, i⟩ := r
            rw [hrejected] at hrest
            by_cases hn : n < k
            · simp only [Option.map_some, Nat.succ_lt_succ_iff, hn, if_true, Outcome.mk.injEq]
                at hrest ⊢
              exact ⟨congrArg _ hrest.1, hrest.2⟩
            · simp only [Option.map_some, Nat.succ_lt_succ_iff, hn, if_false, Outcome.mk.injEq]
                at hrest ⊢
              exact ⟨congrArg _ hrest.1, hrest.2⟩

/-- The two segmentations have handled as many packets when the malformed header is seen, or one of
those that both have handled is rejected, or the next one is, as malformed. -/
def SameFate (P : Primitives) (secret : HmacSecret) (now : ℕ) (c : Connection)
    (events events' : List Buffer) : Prop :=
  handledPackets events = handledPackets events' ∨
    ∃ n i, c.firstRejected P secret now (packetCutter.split events.flatten).1 = some (n, i) ∧
      (n < min (handledPackets events) (handledPackets events') ∨
        n = min (handledPackets events) (handledPackets events') ∧ i.type = "malformed_packet")

section
variable {c : Connection} (hopen : c.socket.destroyed = false) (hempty : c.socket.buffer = [])
  {events : List Buffer} (hfits : c.Fits P secret now events)

include hopen hempty hfits

/-- What is observed depends on the stream and on how many packets are handled. -/
theorem outcome_feed :
    outcome (c.feed P secret now events) =
      outcome (c.settle P secret now
        ((packetCutter.split events.flatten).1.take (handledPackets events))
        (packetCutter.malformed (packetCutter.split events.flatten).2)) := by
  have hmore : packetCutter.cut c.socket.buffer = .more := by rw [hempty]; rfl
  obtain ⟨time, b, hfeed⟩ := feed_eq_settle hopen hmore hfits
  obtain ⟨herror, hprefix, -⟩ := Cutter.batches_spec (C := packetCutter) (b := []) rfl events
  rw [hempty] at hfeed
  rw [List.nil_append] at herror hprefix
  rw [hfeed, handledPackets, ← List.prefix_iff_eq_take.mp hprefix, ← herror]
  rfl

omit hopen hempty hfits in
theorem handledPackets_le (events : List Buffer) :
    handledPackets events ≤ (packetCutter.split events.flatten).1.length :=
  (Cutter.batches_spec (C := packetCutter) (b := []) rfl events).2.1.length_le

omit hopen hempty hfits in
theorem handledPackets_of_valid {events : List Buffer}
    (hvalid : packetCutter.malformed (packetCutter.split events.flatten).2 = none) :
    handledPackets events = (packetCutter.split events.flatten).1.length := by
  obtain ⟨herror, -, hall⟩ := Cutter.batches_spec (C := packetCutter) (b := []) rfl events
  rw [handledPackets, hall (herror.trans hvalid)]
  rfl

/-- **Packet acceptance and segmentation.**  Two ways of cutting up one stream are observed to end
alike if and only if as many packets are handled before a malformed header, or the first packet that
is rejected makes up for the difference. -/
theorem outcome_eq_iff {events' : List Buffer} (hfits' : c.Fits P secret now events')
    (hstream : events.flatten = events'.flatten) :
    outcome (c.feed P secret now events) = outcome (c.feed P secret now events') ↔
      c.SameFate P secret now events events' := by
  rw [outcome_feed hopen hempty hfits, outcome_feed hopen hempty hfits', ← hstream, SameFate]
  have hle := handledPackets_le events
  have hle' := handledPackets_le events'
  rw [← hstream] at hle'
  cases hbad : packetCutter.malformed (packetCutter.split events.flatten).2 with
  | none =>
    have hall := handledPackets_of_valid hbad
    have hall' := handledPackets_of_valid (hstream ▸ hbad)
    rw [← hstream] at hall'
    rw [hall, hall']
    exact ⟨fun _ ↦ .inl rfl, fun _ ↦ rfl⟩
  | some e =>
    rw [outcome_settle _ hle, outcome_settle _ hle']
    have hlength := @length_acceptedOf P secret now c (packetCutter.split events.flatten).1
    generalize c.acceptedOf P secret now _ = accepted at hlength ⊢
    generalize handledPackets events = k at hle ⊢
    generalize handledPackets events' = k' at hle' ⊢
    have htake : ∀ i j, i ≤ accepted.length → j ≤ accepted.length →
        (accepted.take i = accepted.take j ↔ i = j) := by
      intro i j hi hj
      refine ⟨fun h ↦ ?_, fun h ↦ by rw [h]⟩
      have hlen := congrArg List.length h
      rwa [List.length_take_of_le hi, List.length_take_of_le hj] at hlen
    cases hrejected : c.firstRejected P secret now (packetCutter.split events.flatten).1 with
    | none =>
      rw [hrejected] at hlength
      simp only [Option.map_none, Option.getD_none] at hlength
      rw [Outcome.mk.injEq, htake k k' (by omega) (by omega)]
      simp
    | some r =>
      obtain ⟨n, i⟩ := r
      rw [hrejected] at hlength
      simp only [Option.map_some, Option.getD_some] at hlength
      have hsome : (∃ m j, some (n, i) = some (m, j) ∧
          (m < min k k' ∨ m = min k k' ∧ j.type = "malformed_packet")) ↔
          (n < min k k' ∨ n = min k k' ∧ i.type = "malformed_packet") := by
        simp [Prod.ext_iff]
      rw [hsome]
      have hself : ∀ j, j ≤ n → (accepted = accepted.take j ↔ n = j) := by
        intro j hj
        have heq := htake n j (by omega) (by omega)
        rwa [List.take_of_length_le (by omega)] at heq
      by_cases hn : n < k <;> by_cases hn' : n < k'
      · simp only [hn, hn', if_true, true_iff]
        exact .inr (.inl (by omega))
      · simp only [hn, hn', if_true, if_false, Outcome.mk.injEq, Option.some_inj, true_and,
          hself k' (by omega)]
        rw [min_eq_right (by omega)]
        refine ⟨fun h ↦ .inr (.inr h), fun h ↦ ?_⟩
        rcases h with h | h | h
        · omega
        · omega
        · exact h
      · simp only [hn, hn', if_true, if_false, Outcome.mk.injEq, Option.some_inj, true_and]
        rw [min_eq_left (by omega), eq_comm, hself k (by omega), eq_comm (a := "malformed_packet")]
        refine ⟨fun h ↦ .inr (.inr h), fun h ↦ ?_⟩
        rcases h with h | h | h
        · omega
        · omega
        · exact h
      · simp only [hn, hn', if_false, Outcome.mk.injEq, and_self, and_true]
        rw [htake k k' (by omega) (by omega)]
        refine ⟨fun h ↦ .inl h, fun h ↦ ?_⟩
        rcases h with h | h | h
        · exact h
        · omega
        · omega

end

/-! ### A packet and a malformed header -/

/-- What a fresh server makes of the data events, at the time 1700000000020. -/
def sampleFeed (events : List Buffer) : Connection × List Report :=
  (fresh "127.0.0.1" 1700000000000).feed samplePrimitives (some [115, 101, 99, 114, 101, 116])
    1700000000020 events

/-- The events do not exceed the bound of the buffer there. -/
def SampleFits (events : List Buffer) : Prop :=
  (fresh "127.0.0.1" 1700000000000).Fits samplePrimitives (some [115, 101, 99, 114, 101, 116])
    1700000000020 events

/-- 41 bytes that are no header, since they do not start with the magic. -/
def badHeader : Buffer := List.replicate 41 0

/-- A valid packet is accepted when it comes in an event of its own, and lost when a malformed
header comes in the same event. -/
theorem segmentation_changes_outcome :
    SampleFits [sampleArrival.packet ++ badHeader] ∧ SampleFits [sampleArrival.packet, badHeader] ∧
      [sampleArrival.packet ++ badHeader].flatten = [sampleArrival.packet, badHeader].flatten ∧
      outcome (sampleFeed [sampleArrival.packet ++ badHeader]) =
        ⟨[], true, some "malformed_packet"⟩ ∧
      outcome (sampleFeed [sampleArrival.packet, badHeader]) =
        ⟨[(1, [104, 105])], true, some "malformed_packet"⟩ :=
  ⟨.inr ⟨by decide +kernel, trivial⟩, .inr ⟨by decide +kernel, .inr ⟨by decide +kernel, trivial⟩⟩,
    by decide +kernel, by decide +kernel, by decide +kernel⟩

/-- Cutting a packet in two is not observed. -/
theorem outcome_eq_iff_sample :
    outcome (sampleFeed [sampleArrival.packet.take 50, sampleArrival.packet.drop 50]) =
      outcome (sampleFeed [sampleArrival.packet]) := by
  refine (outcome_eq_iff (c := fresh "127.0.0.1" 1700000000000) rfl rfl ?_ ?_ ?_).mpr (.inl ?_)
  · exact .inr ⟨by decide +kernel, .inr ⟨by decide +kernel, trivial⟩⟩
  · exact .inr ⟨by decide +kernel, trivial⟩
  · decide +kernel
  · decide +kernel

end Connection

end AttestP2P
