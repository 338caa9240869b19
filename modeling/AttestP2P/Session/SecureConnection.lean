import AttestP2P.Crypto.Handshake
import AttestP2P.Protocol.Frame

/-!
# Sessions over a socket

`src/session/secureConnection.js`: the handshake, then an encrypted channel, in length-prefixed
frames.  The plaintext of a frame of the channel is

* `0x00 | seq(8) | body` for data,
* `0x01` for REKEY, `0x02` for REKEY_ACK and `0x03` for CLOSE.

A method is a function of the connection, of what it draws (nonces) and of what it reads off the
clock.  It returns the connection afterwards, its effects on the outside in the order in which they
happen, and, where it can throw, the exception.  The handler of `data` events is given in two
pieces, `receive` and `onFrame`, so that what listeners do between two frames of one chunk can be
said.  Timers are events: the rekey timer calls `maybeAutoRekey`.
-/

set_option autoImplicit false

namespace AttestP2P

open Buffer

def ctrlData : UInt8 := 0x00
def ctrlRekey : UInt8 := 0x01
def ctrlRekeyAck : UInt8 := 0x02
def ctrlClose : UInt8 := 0x03

/-- The infractions a connection reports to its `security` context, which strikes the address for
each of them. -/
inductive SessionReport where
  | oversizeFrame (error : String)
  | rateLimit
  | cryptoError (error : String)
  | sessionRateLimit
  | sessionReplay (seq : ℕ)

/-- What a connection does to the outside: it writes frames, emits events to its listeners, reports
infractions, and ends or destroys its socket. -/
inductive Effect (S : Suite Buffer) where
  /-- `socket.write(encodeFrame(frame))`. -/
  | write (frame : Buffer)
  | secure (peerId : S.Ident)
  | message (body : Buffer)
  | rekey
  | peerclose
  | error (err : String)
  | report (type : SessionReport)
  /-- `socket.destroy`. -/
  | destroy
  /-- `socket.end`. -/
  | socketEnd

/-- The fields of a `SecureConnection`.  `initiator` and `_step` are those of the handshake. -/
structure SecureConnection (S : Suite Buffer) where
  hs : Handshake S
  session : Option (SecureSession S)
  decoder : FrameDecoder
  closed : Bool
  maxMsgPerSecond : ℕ
  txSeq : ℕ
  rxSeq : Option ℕ
  msgWindowStart : ℕ
  msgCount : ℕ
  rekeyEveryMsgs : ℕ
  rekeyEveryBytes : ℕ
  rekeyEveryMs : ℕ
  rekeying : Bool
  rkMsgs : ℕ
  rkBytes : ℕ
  rkSince : ℕ

/-- The numeric options of the constructor, with the fields of `rekeyPolicy`. -/
structure SessionOptions where
  maxMsgPerSecond : Option ℕ := none
  everyMsgs : Option ℕ := none
  everyBytes : Option ℕ := none
  everyMs : Option ℕ := none

/-- `value || default`: a number that is absent or zero is replaced. -/
def orDefault : Option ℕ → ℕ → ℕ
  | some (n + 1), _ => n + 1
  | _, default => default

namespace SecureConnection

variable {S : Suite Buffer}

/-- The connection afterwards, its effects, and the exception if it throws. -/
abbrev Call (S : Suite Buffer) := SecureConnection S × List (Effect S) × Except String Unit

/-- The constructor, with the default of every option that is not given; an initiator also writes
MSG1. -/
def new (hs : Handshake S) (options : SessionOptions) (now : ℕ) : SecureConnection S where
  hs := hs
  session := none
  decoder := { max := sessionMaxFrame, buf := [] }
  closed := false
  maxMsgPerSecond := orDefault options.maxMsgPerSecond sessionMaxMsgPerSecond
  txSeq := 0
  rxSeq := none
  msgWindowStart := now
  msgCount := 0
  rekeyEveryMsgs := orDefault options.everyMsgs sessionRekeyEveryMsgs
  rekeyEveryBytes := orDefault options.everyBytes sessionRekeyEveryBytes
  rekeyEveryMs := orDefault options.everyMs sessionRekeyEveryMs
  rekeying := false
  rkMsgs := 0
  rkBytes := 0
  rkSince := now

/-- `_write`: a frame is written to the socket, unless the connection is closed; then nothing
happens, and nobody is told.  It throws if the frame is too long for its header. -/
def write (c : SecureConnection S) (frame : Buffer) : Except String (List (Effect S)) :=
  if c.closed then .ok [] else (encodeFrame frame).map fun _ ↦ [.write frame]

/-- `_fail`: the first failure closes the connection, tells the listeners and destroys the socket; a
later one does nothing. -/
def fail (c : SecureConnection S) (err : String) : SecureConnection S × List (Effect S) :=
  if c.closed then (c, []) else ({ c with closed := true }, [.error err, .destroy])

/-- `rekey`: REKEY is sealed under the old key, and what is sealed after it under the next one.  The
connection is then waiting for REKEY_ACK, and does not begin another rekey. -/
def rekey (c : SecureConnection S) (nonce : S.Nonce) : Call S :=
  match c.session with
  | none => (c, [], .ok ())
  | some s =>
    if c.rekeying then (c, [], .ok ())
    else
      let c := { c with rekeying := true }
      match c.write (s.seal nonce [ctrlRekey]) with
      | .error e => (c, [], .error e)
      | .ok w => ({ c with session := some s.rekeyTx }, w, .ok ())

/-- `_maybeAutoRekey`: an initiator renews its key when it has sent enough messages or bytes under
it, or when it is old enough. -/
def maybeAutoRekey (c : SecureConnection S) (nonce : S.Nonce) (now : ℕ) : Call S :=
  if c.hs.isInitiator = false ∨ c.session.isNone ∨ c.rekeying then (c, [], .ok ())
  else if c.rkMsgs ≥ c.rekeyEveryMsgs ∨ c.rkBytes ≥ c.rekeyEveryBytes ∨
      now - c.rkSince ≥ c.rekeyEveryMs then
    c.rekey nonce
  else (c, [], .ok ())

/-- The plaintext of a DATA frame, with the sequence number that the receiver compares with the last
one. -/
def dataPlaintext (seq : ℕ) (body : Buffer) : Buffer := ctrlData :: (bigUInt64BE seq ++ body)

/-- `send`; `nonce'` is for the REKEY frame an automatic rekey writes. -/
def send (c : SecureConnection S) (body : Buffer) (nonce nonce' : S.Nonce) (now : ℕ) : Call S :=
  match c.session with
  | none => (c, [], .error "session non établie")
  | some s =>
    let c := { c with txSeq := c.txSeq + 1 }
    if 2 ^ 64 ≤ c.txSeq then (c, [], .error "ERR_OUT_OF_RANGE")
    else
      match c.write (s.seal nonce (dataPlaintext c.txSeq body)) with
      | .error e => (c, [], .error e)
      | .ok w =>
        let c := { c with rkMsgs := c.rkMsgs + 1, rkBytes := c.rkBytes + body.length }
        let (c, w', r) := c.maybeAutoRekey nonce' now
        (c, w ++ w', r)

/-- `close`: CLOSE is written and the socket ended.  The connection does not count as closed yet. -/
def close (c : SecureConnection S) (nonce : S.Nonce) : List (Effect S) :=
  if c.closed then []
  else
    match c.session with
    | none => [.socketEnd]
    | some s =>
      match c.write (s.seal nonce [ctrlClose]) with
      | .error _ => [.socketEnd]
      | .ok w => w ++ [.socketEnd]

/-- `_msgAllow`: messages are counted in windows of a second, and those above the limit are counted
too. -/
def msgAllow (c : SecureConnection S) (now : ℕ) : SecureConnection S × Bool :=
  let c :=
    if now - c.msgWindowStart > 1000 then { c with msgWindowStart := now, msgCount := 0 } else c
  let c := { c with msgCount := c.msgCount + 1 }
  (c, decide (c.msgCount ≤ c.maxMsgPerSecond))

/-- A DATA frame, once opened: it has to be long enough, within the rate, and newer than all that
came before it. -/
def handleData (c : SecureConnection S) (pt : Buffer) (now : ℕ) : Call S :=
  if pt.length < 9 then (c, [], .error "DATA tronqué (séquence absente)")
  else
    let seq := pt.readBigUInt64BE 1
    let body := pt.drop 9
    let (c, allowed) := c.msgAllow now
    if allowed = false then
      let (c, w) := c.fail "rate limit session dépassé"
      (c, .report .sessionRateLimit :: w, .ok ())
    else if c.rxSeq.any (seq ≤ ·) then
      let (c, w) := c.fail ("rejeu applicatif détecté (seq " ++ toString seq ++ ")")
      (c, .report (.sessionReplay seq) :: w, .ok ())
    else ({ c with rxSeq := some seq }, [.message body], .ok ())

/-- The transport phase of `_handleFrame`; `nonce` is for a REKEY_ACK. -/
def handleTransport (c : SecureConnection S) (s : SecureSession S) (frame : Buffer)
    (nonce : S.Nonce) (now : ℕ) : Call S :=
  match s.open frame with
  | .error e => (c, [], .error e)
  | .ok pt =>
    let type := pt.headD ctrlData
    if type = ctrlData then c.handleData pt now
    else if type = ctrlRekey then
      let s := s.rekeyRx
      let c := { c with session := some s }
      match c.write (s.seal nonce [ctrlRekeyAck]) with
      | .error e => (c, [], .error e)
      | .ok w => ({ c with session := some s.rekeyTx }, w ++ [.rekey], .ok ())
    else if type = ctrlRekeyAck then
      ({ c with
        session := some s.rekeyRx, rekeying := false, rkMsgs := 0, rkBytes := 0, rkSince := now },
        [.rekey], .ok ())
    else if type = ctrlClose then ({ c with closed := true }, [.peerclose, .socketEnd], .ok ())
    else (c, [], .error ("type de contrôle inconnu: " ++ toString type.toNat))

/-- The writes of the handshake phase, and the event at its end. -/
def replyEffects (c : SecureConnection S) : List Buffer → Except String (List (Effect S))
  | [] => .ok (c.session.elim [] fun s ↦ [.secure s.peerId])
  | frame :: frames =>
    match c.write frame with
    | .error e => .error e
    | .ok w => (c.replyEffects frames).map fun w' ↦ w ++ w'

/-- `_handleFrame`: before there is a session, a frame is for the handshake. -/
def handleFrame (c : SecureConnection S) (frame : Buffer) (nonce : S.Nonce) (now : ℕ) : Call S :=
  match c.session with
  | some s => c.handleTransport s frame nonce now
  | none =>
    match c.hs.onFrame frame with
    | (hs, .error e) => ({ c with hs := hs }, [], .error e)
    | (hs, .ok r) =>
      let c := { c with hs := hs, session := r.session }
      match c.replyEffects r.writes with
      | .error e => (c, [], .error e)
      | .ok w => (c, w, .ok ())

/-- The first half of `_onData`: the frames a chunk completes. -/
def receive (c : SecureConnection S) (chunk : Buffer) :
    SecureConnection S × List (Effect S) × List Buffer :=
  match c.decoder.push chunk with
  | (d, .error e) =>
    let (c, w) := { c with decoder := d }.fail e
    (c, .report (.oversizeFrame e) :: w, [])
  | (d, .ok frames) => ({ c with decoder := d }, [], frames)

/-- The second half of `_onData`, for one frame; `allowFrame` is the answer of the `security`
context, if there is one.  The frames that follow are dropped if the connection is closed then. -/
def onFrame (c : SecureConnection S) (frame : Buffer) (allowFrame : Bool) (nonce : S.Nonce)
    (now : ℕ) : SecureConnection S × List (Effect S) :=
  if allowFrame = false then
    let (c, w) := c.fail "rate limit dépassé"
    (c, .report .rateLimit :: w)
  else
    match c.handleFrame frame nonce now with
    | (c, w, .ok ()) => (c, w)
    | (c, w, .error e) =>
      let (c, w') := c.fail e
      (c, w ++ (.report (.cryptoError e) :: w'))

/-! ## What the methods do -/

section
variable {c : SecureConnection S} {s : SecureSession S}

theorem write_of_open (hopen : c.closed = false) {frame : Buffer} (h : frame.length < 2 ^ 32) :
    c.write frame = .ok [.write frame] := by
  rw [write, hopen, encodeFrame_eq_ok h]
  rfl

theorem write_of_closed (hclosed : c.closed = true) (frame : Buffer) : c.write frame = .ok [] :=
  if_pos hclosed

theorem rekey_of_idle (hopen : c.closed = false) (hs : c.session = some s)
    (hidle : c.rekeying = false) {nonce : S.Nonce}
    (hlen : (s.seal nonce [ctrlRekey]).length < 2 ^ 32) :
    c.rekey nonce = ({ c with rekeying := true, session := some s.rekeyTx },
      [.write (s.seal nonce [ctrlRekey])], .ok ()) := by
  rw [rekey, hs]
  simp only [hidle, Bool.false_eq_true, if_false]
  rw [write_of_open _ hlen]
  exact hopen

theorem rekey_of_rekeying (hbusy : c.session = none ∨ c.rekeying = true) (nonce : S.Nonce) :
    c.rekey nonce = (c, [], .ok ()) := by
  rw [rekey]
  split
  · rfl
  · next s hs =>
    have hrekeying : c.rekeying = true := hbusy.resolve_left (by simp [hs])
    rw [if_pos hrekeying]

/-- An automatic rekey is a rekey or nothing, so that what is true of both is true of it. -/
theorem maybeAutoRekey_eq (c : SecureConnection S) (nonce : S.Nonce) (now : ℕ) :
    c.maybeAutoRekey nonce now = (c, [], .ok ()) ∨
      c.maybeAutoRekey nonce now = c.rekey nonce := by
  rw [maybeAutoRekey]
  split
  · exact .inl rfl
  · split
    · exact .inr rfl
    · exact .inl rfl

theorem send_of_open (hopen : c.closed = false) (hs : c.session = some s) {body : Buffer}
    {nonce nonce' : S.Nonce} {now : ℕ} (hseq : c.txSeq + 1 < 2 ^ 64)
    (hlen : (s.seal nonce (dataPlaintext (c.txSeq + 1) body)).length < 2 ^ 32) :
    c.send body nonce nonce' now =
      let r := ({ c with
        txSeq := c.txSeq + 1, rkMsgs := c.rkMsgs + 1,
        rkBytes := c.rkBytes + body.length } : SecureConnection S).maybeAutoRekey nonce' now
      (r.1, .write (s.seal nonce (dataPlaintext (c.txSeq + 1) body)) :: r.2.1, r.2.2) := by
  rw [send, hs]
  simp only [Nat.not_le.mpr hseq, if_false]
  rw [write_of_open _ hlen]
  · rfl
  · exact hopen

/-- When the sequence numbers are used up, `send` throws; the counter has been raised by then. -/
theorem send_of_overflow (hs : c.session = some s) {body : Buffer} {nonce nonce' : S.Nonce}
    {now : ℕ} (hseq : 2 ^ 64 ≤ c.txSeq + 1) :
    c.send body nonce nonce' now =
      ({ c with txSeq := c.txSeq + 1 }, [], .error "ERR_OUT_OF_RANGE") := by
  rw [send, hs]
  simp only [hseq, if_true]

theorem length_dataPlaintext (seq : ℕ) (body : Buffer) :
    (dataPlaintext seq body).length = 9 + body.length := by
  rw [dataPlaintext, List.length_cons, List.length_append, length_bigUInt64BE]
  omega

theorem readBigUInt64BE_dataPlaintext {seq : ℕ} (body : Buffer) (h : seq < 2 ^ 64) :
    (dataPlaintext seq body).readBigUInt64BE 1 = seq :=
  readBigUInt64BE_append (a := [ctrlData]) rfl h

theorem drop_dataPlaintext (seq : ℕ) (body : Buffer) : (dataPlaintext seq body).drop 9 = body := by
  rw [dataPlaintext, List.drop_succ_cons]
  exact List.drop_left' (length_bigUInt64BE seq)

/-- What `_msgAllow` touches: the window of the rate limit, and nothing that frames or keys depend
on. -/
theorem msgAllow_eq (c : SecureConnection S) (now : ℕ) :
    ∃ start count, (c.msgAllow now).1 = { c with msgWindowStart := start, msgCount := count } := by
  rw [msgAllow]
  split
  · exact ⟨_, _, rfl⟩
  · exact ⟨_, _, rfl⟩

/-- A DATA frame with a fresh sequence number is emitted. -/
theorem handleData_of_fresh {seq : ℕ} {body : Buffer} {now : ℕ} (hseq : seq < 2 ^ 64)
    (hrate : (c.msgAllow now).2 = true) (hfresh : ∀ n ∈ c.rxSeq, n < seq) :
    ∃ start count, c.handleData (dataPlaintext seq body) now =
      ({ c with msgWindowStart := start, msgCount := count, rxSeq := some seq },
        [.message body], .ok ()) := by
  obtain ⟨start, count, hc⟩ := msgAllow_eq c now
  have hrx : c.rxSeq.any (seq ≤ ·) = false := by
    rw [Option.any_eq_false_iff_get]
    intro hsome
    have hlt := hfresh _ (Option.get_mem hsome)
    simpa using hlt
  refine ⟨start, count, ?_⟩
  rw [handleData, if_neg (by rw [length_dataPlaintext]; omega)]
  simp only [hrate, Bool.true_eq_false, if_false, readBigUInt64BE_dataPlaintext body hseq,
    drop_dataPlaintext, hc, hrx, Bool.false_eq_true]

/-- A REKEY frame advances both keys and is acknowledged in between. -/
theorem handleTransport_of_rekey (hopen : c.closed = false) {frame : Buffer} {nonce : S.Nonce}
    (hframe : s.open frame = .ok [ctrlRekey])
    (hlen : (s.rekeyRx.seal nonce [ctrlRekeyAck]).length < 2 ^ 32) (now : ℕ) :
    c.handleTransport s frame nonce now =
      ({ c with session := some s.rekeyRx.rekeyTx },
        [.write (s.rekeyRx.seal nonce [ctrlRekeyAck]), .rekey], .ok ()) := by
  rw [handleTransport, hframe]
  simp only [List.headD_cons, show ctrlRekey ≠ ctrlData by decide, if_false, if_true]
  rw [write_of_open _ hlen]
  · rfl
  · exact hopen

/-- A REKEY_ACK frame advances the receive key and ends the rekey. -/
theorem handleTransport_of_ack {frame : Buffer} (nonce : S.Nonce) (now : ℕ)
    (hframe : s.open frame = .ok [ctrlRekeyAck]) :
    c.handleTransport s frame nonce now =
      ({ c with
        session := some s.rekeyRx, rekeying := false, rkMsgs := 0, rkBytes := 0, rkSince := now },
        [.rekey], .ok ()) := by
  rw [handleTransport, hframe]
  simp only [List.headD_cons, show ctrlRekeyAck ≠ ctrlData by decide,
    show ctrlRekeyAck ≠ ctrlRekey by decide, if_false, if_true]

theorem replyEffects_of_open (hopen : c.closed = false) {frames : List Buffer}
    (hlen : ∀ f ∈ frames, f.length < 2 ^ 32) :
    c.replyEffects frames =
      .ok (frames.map .write ++ c.session.elim [] fun s ↦ [.secure s.peerId]) := by
  induction frames with
  | nil => rfl
  | cons f frames ih =>
    rw [replyEffects, write_of_open hopen (hlen f List.mem_cons_self),
      ih fun g hg ↦ hlen g (List.mem_cons_of_mem f hg)]
    rfl

/-- A frame the handshake accepts: its answers are written, and the session begins if there
is one. -/
theorem onFrame_of_handshake (hopen : c.closed = false) (hs : c.session = none)
    {hs' : Handshake S} {frame : Buffer} {r : Handshake.Reply S}
    (hon : c.hs.onFrame frame = (hs', .ok r)) (hlen : ∀ f ∈ r.writes, f.length < 2 ^ 32)
    (nonce : S.Nonce) (now : ℕ) :
    c.onFrame frame true nonce now = ({ c with hs := hs', session := r.session },
      r.writes.map .write ++ r.session.elim [] fun s ↦ [.secure s.peerId]) := by
  rw [onFrame, if_neg (by decide), handleFrame, hs]
  simp only [hon]
  rw [replyEffects_of_open _ hlen]
  exact hopen

theorem handleFrame_of_session (hs : c.session = some s) (frame : Buffer) (nonce : S.Nonce)
    (now : ℕ) : c.handleFrame frame nonce now = c.handleTransport s frame nonce now := by
  rw [handleFrame, hs]

/-- A frame the channel accepts, with the effects that its type has. -/
theorem onFrame_of_session (hs : c.session = some s) {c' : SecureConnection S} {frame : Buffer}
    {nonce : S.Nonce} {now : ℕ} {w : List (Effect S)}
    (h : c.handleTransport s frame nonce now = (c', w, .ok ())) :
    c.onFrame frame true nonce now = (c', w) := by
  rw [onFrame, if_neg (by decide), handleFrame_of_session hs, h]

theorem handleTransport_of_data {seq : ℕ} {body frame : Buffer} (nonce : S.Nonce) (now : ℕ)
    (hframe : s.open frame = .ok (dataPlaintext seq body)) :
    c.handleTransport s frame nonce now = c.handleData (dataPlaintext seq body) now := by
  rw [handleTransport, hframe]
  simp only [dataPlaintext, List.headD_cons, if_true]

end

end SecureConnection

end AttestP2P
