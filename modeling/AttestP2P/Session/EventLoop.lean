import AttestP2P.Lib.Machine
import AttestP2P.Session.SecureConnection

/-!
# The life of a connection

One `SecureConnection` and its socket under everything that can happen to them: `data` events of any
bytes, the two timers, the calls of the application and the other events of the socket.

* A `data` event is handled frame by frame.  What the outside decides for each frame is a `Turn`:
  the answer of the security context, the nonce that is drawn, the clock, and what the listeners of
  the event the frame leads to call.  Listeners do not throw, and an exception of `send` stays with
  its caller.
* Node delivers no `data` event after `destroy()` or `close`, and delivers them after `end()`: that
  is all `SessionState.enabled` asks of one.
* `handled` counts the calls of `_handleFrame`.
-/

set_option autoImplicit false

namespace AttestP2P

variable {S : Suite Buffer}

/-- The methods the application calls, at any time, with what each of them draws and reads. -/
inductive ApiCall (S : Suite Buffer) where
  | send (body : Buffer) (nonce nonce' : S.Nonce) (now : ℕ)
  | rekey (nonce : S.Nonce)
  | close (nonce : S.Nonce)

/-- What the outside decides when a frame is handled, and what the listeners call in return. -/
structure Turn (S : Suite Buffer) where
  /-- The answer of `security.allowFrame`. -/
  allowFrame : Bool
  nonce : S.Nonce
  now : ℕ
  /-- What the listeners call. -/
  calls : List (ApiCall S)

namespace SecureConnection

/-- A call, and its effects; what it returns is the listener's. -/
def call (c : SecureConnection S) : ApiCall S → SecureConnection S × List (Effect S)
  | .send body nonce nonce' now =>
    let (c, w, _) := c.send body nonce nonce' now
    (c, w)
  | .rekey nonce =>
    let (c, w, _) := c.rekey nonce
    (c, w)
  | .close nonce => (c, c.close nonce)

def calls (c : SecureConnection S) : List (ApiCall S) → SecureConnection S × List (Effect S)
  | [] => (c, [])
  | a :: as =>
    let (c, w) := c.call a
    let (c, w') := c.calls as
    (c, w ++ w')

/-- A frame has had the effects `w`, and the listeners make their calls.  They are the last thing
that happens, except that `peerclose` is emitted before `_closed` is set and the socket ended. -/
def listen (closed : Bool) (c : SecureConnection S) (w : List (Effect S)) (as : List (ApiCall S)) :
    SecureConnection S × List (Effect S) :=
  match w with
  | [.peerclose, .socketEnd] =>
    let r := { c with closed := closed }.calls as
    ({ r.1 with closed := true }, .peerclose :: (r.2 ++ [.socketEnd]))
  | w =>
    let r := c.calls as
    (r.1, w ++ r.2)

/-- One turn of the loop of `_onData`: the frame is handled, and then the listeners that its events
have run. -/
def onTurn (c : SecureConnection S) (frame : Buffer) (t : Turn S) :
    SecureConnection S × List (Effect S) :=
  let (c', w) := c.onFrame frame t.allowFrame t.nonce t.now
  listen c.closed c' w t.calls

/-- The loop of `_onData`: the connection afterwards, the effects, and how many frames
`_handleFrame` has been called with. -/
def onFrames (c : SecureConnection S) : List Buffer → (ℕ → Turn S) →
    SecureConnection S × List (Effect S) × ℕ
  | [], _ => (c, [], 0)
  | frame :: frames, turn =>
    let (c, w) := c.onTurn frame (turn 0)
    let n := if (turn 0).allowFrame then 1 else 0
    if c.closed then (c, w, n)
    else
      let (c, w', n') := c.onFrames frames fun i ↦ turn (i + 1)
      (c, w ++ w', n + n')

/-- `_onData`: the chunk goes to the decoder, and the frames that it completes are handled one by
one, until one of them closes the connection. -/
def onData (c : SecureConnection S) (chunk : Buffer) (turn : ℕ → Turn S) :
    SecureConnection S × List (Effect S) × ℕ :=
  let (c, w, frames) := c.receive chunk
  let (c, w', n) := c.onFrames frames turn
  (c, w ++ w', n)

end SecureConnection

/-- Whether an effect is one of the events `secure`, `message`, `rekey`, `peerclose`, `error`. -/
def Effect.isEvent : Effect S → Bool
  | .secure _ | .message _ | .rekey | .peerclose | .error _ => true
  | _ => false

/-- Whether an effect is `socket.destroy()`, after which no data arrive. -/
def Effect.isDestroy : Effect S → Bool
  | .destroy => true
  | _ => false

/-- The events emitted, without what is written to the socket. -/
def emitted (w : List (Effect S)) : List (Effect S) := w.filter Effect.isEvent

/-! ## Calls of the application -/

@[simp] theorem emitted_append (w w' : List (Effect S)) :
    emitted (w ++ w') = emitted w ++ emitted w' :=
  List.filter_append w w'

/-- From `c` to `c'`, with the effects `w`, nothing is emitted, and the connection is as closed as
it was. -/
structure Unheard (c c' : SecureConnection S) (w : List (Effect S)) : Prop where
  closed : c'.closed = c.closed
  emitted : emitted w = []

namespace Unheard

variable {c c₁ c₂ : SecureConnection S} {w w' : List (Effect S)}

theorem refl (c : SecureConnection S) : Unheard c c [] := ⟨rfl, rfl⟩

theorem trans (h : Unheard c c₁ w) (h' : Unheard c₁ c₂ w') : Unheard c c₂ (w ++ w') :=
  ⟨h'.closed.trans h.closed, by rw [emitted_append, h.emitted, h'.emitted]; rfl⟩

end Unheard

namespace SecureConnection

variable {c : SecureConnection S}

theorem emitted_write {frame : Buffer} {w : List (Effect S)} (h : c.write frame = .ok w) :
    emitted w = [] := by
  rw [write] at h
  split at h
  · cases h
    rfl
  · cases hencode : encodeFrame frame with
    | error e =>
      rw [hencode] at h
      cases h
    | ok b =>
      rw [hencode] at h
      cases h
      rfl

theorem rekey_unheard (c : SecureConnection S) (nonce : S.Nonce) :
    Unheard c (c.rekey nonce).1 (c.rekey nonce).2.1 := by
  rw [rekey]
  split
  · exact .refl c
  · split
    · exact .refl c
    · simp only
      split
      · exact ⟨rfl, rfl⟩
      · next w hw => exact ⟨rfl, emitted_write hw⟩

theorem maybeAutoRekey_unheard (c : SecureConnection S) (nonce : S.Nonce) (now : ℕ) :
    Unheard c (c.maybeAutoRekey nonce now).1 (c.maybeAutoRekey nonce now).2.1 := by
  rcases c.maybeAutoRekey_eq nonce now with h | h
  · rw [h]
    exact .refl c
  · rw [h]
    exact c.rekey_unheard nonce

theorem send_unheard (c : SecureConnection S) (body : Buffer) (nonce nonce' : S.Nonce) (now : ℕ) :
    Unheard c (c.send body nonce nonce' now).1 (c.send body nonce nonce' now).2.1 := by
  rw [send]
  split
  · exact .refl c
  · simp only
    split
    · exact ⟨rfl, rfl⟩
    · split
      · exact ⟨rfl, rfl⟩
      · next s _ _ w hw =>
        have hwrite : Unheard c { c with
            txSeq := c.txSeq + 1, rkMsgs := c.rkMsgs + 1,
            rkBytes := c.rkBytes + body.length } w :=
          ⟨rfl, emitted_write hw⟩
        exact hwrite.trans (maybeAutoRekey_unheard _ nonce' now)

theorem close_unheard (c : SecureConnection S) (nonce : S.Nonce) : Unheard c c (c.close nonce) := by
  refine ⟨rfl, ?_⟩
  rw [close]
  split
  · rfl
  · split
    · rfl
    · split
      · rfl
      · next w hw =>
        rw [emitted_append, emitted_write hw]
        rfl

/-- No call of the application is heard by its own listeners: it may write, and end the socket, and
it emits nothing. -/
theorem call_unheard (c : SecureConnection S) (a : ApiCall S) :
    Unheard c (c.call a).1 (c.call a).2 := by
  cases a with
  | send body nonce nonce' now => exact c.send_unheard body nonce nonce' now
  | rekey nonce => exact c.rekey_unheard nonce
  | close nonce => exact c.close_unheard nonce

theorem calls_unheard (c : SecureConnection S) (as : List (ApiCall S)) :
    Unheard c (c.calls as).1 (c.calls as).2 := by
  induction as generalizing c with
  | nil => exact .refl c
  | cons a as ih => exact (c.call_unheard a).trans (ih _)

/-! ### Calls that come too late

On a closed connection `_write` drops what it is given, so that the methods change their counters
and keys, but nothing leaves the connection. -/

theorem effects_rekey_of_closed (h : c.closed = true) (nonce : S.Nonce) :
    (c.rekey nonce).2.1 = [] := by
  rw [rekey]
  split
  · rfl
  · split
    · rfl
    · dsimp only
      rw [write_of_closed (by exact h)]

theorem effects_maybeAutoRekey_of_closed (h : c.closed = true) (nonce : S.Nonce) (now : ℕ) :
    (c.maybeAutoRekey nonce now).2.1 = [] := by
  rcases c.maybeAutoRekey_eq nonce now with heq | heq
  · rw [heq]
  · rw [heq, effects_rekey_of_closed h]

theorem effects_send_of_closed (h : c.closed = true) (body : Buffer) (nonce nonce' : S.Nonce)
    (now : ℕ) : (c.send body nonce nonce' now).2.1 = [] := by
  rw [send]
  split
  · rfl
  · dsimp only
    split
    · rfl
    · rw [write_of_closed (by exact h)]
      dsimp only
      rw [List.nil_append]
      exact effects_maybeAutoRekey_of_closed (by exact h) nonce' now

theorem effects_call_of_closed (h : c.closed = true) (a : ApiCall S) : (c.call a).2 = [] := by
  cases a with
  | send body nonce nonce' now => exact effects_send_of_closed h body nonce nonce' now
  | rekey nonce => exact effects_rekey_of_closed h nonce
  | close nonce => exact if_pos h

theorem effects_calls_of_closed (h : c.closed = true) (as : List (ApiCall S)) :
    (c.calls as).2 = [] := by
  induction as generalizing c with
  | nil => rfl
  | cons a as ih =>
    rw [calls]
    dsimp only
    rw [effects_call_of_closed h, ih ((c.call_unheard a).closed.trans h)]
    rfl

/-! ## What a frame can do -/

/-- Everything that a frame the security context lets pass can lead to, with the connection
afterwards and the effects. -/
inductive Handled (c : SecureConnection S) (frame : Buffer) (nonce : S.Nonce) (now : ℕ) :
    SecureConnection S → List (Effect S) → Prop
  /-- `_handleFrame` throws. -/
  | rejected (hs : Handshake S) (session : Option (SecureSession S)) (err : String) :
      Handled c frame nonce now (fail { c with hs := hs, session := session } err).1
        (.report (.cryptoError err) :: (fail { c with hs := hs, session := session } err).2)
  | handshake {hs : Handshake S} {r : Handshake.Reply S} {w : List (Effect S)}
      (hnone : c.session = none) (hon : c.hs.onFrame frame = (hs, .ok r))
      (hw : replyEffects { c with hs := hs, session := r.session } r.writes = .ok w) :
      Handled c frame nonce now { c with hs := hs, session := r.session } w
  | limited (hlimit : (c.msgAllow now).2 = false) (err : String) :
      Handled c frame nonce now ((c.msgAllow now).1.fail err).1
        (.report .sessionRateLimit :: ((c.msgAllow now).1.fail err).2)
  | replayed (seq : ℕ) (err : String) :
      Handled c frame nonce now ((c.msgAllow now).1.fail err).1
        (.report (.sessionReplay seq) :: ((c.msgAllow now).1.fail err).2)
  | message (seq : ℕ) (body : Buffer) :
      Handled c frame nonce now { (c.msgAllow now).1 with rxSeq := some seq } [.message body]
  | rekeyed {s : SecureSession S} {w : List (Effect S)} (hs : c.session = some s)
      (hw : c.write (s.rekeyRx.seal nonce [ctrlRekeyAck]) = .ok w) :
      Handled c frame nonce now { c with session := some s.rekeyRx.rekeyTx } (w ++ [.rekey])
  | acknowledged {s : SecureSession S} (hs : c.session = some s) :
      Handled c frame nonce now
        { c with
          session := some s.rekeyRx, rekeying := false, rkMsgs := 0, rkBytes := 0, rkSince := now }
        [.rekey]
  | closed {s : SecureSession S} (hs : c.session = some s) :
      Handled c frame nonce now { c with closed := true } [.peerclose, .socketEnd]

theorem fail_closed (c : SecureConnection S) (err : String) : (c.fail err).1.closed = true := by
  rw [fail]
  split
  · next h => exact h
  · rfl

theorem msgAllow_closed (c : SecureConnection S) (now : ℕ) :
    (c.msgAllow now).1.closed = c.closed := by
  obtain ⟨start, count, hc⟩ := msgAllow_eq c now
  rw [hc]

/-- How `onFrame` goes on from what `_handleFrame` returns. -/
theorem onFrame_of_handleFrame (c : SecureConnection S) (frame : Buffer) (nonce : S.Nonce)
    (now : ℕ) :
    c.onFrame frame true nonce now =
      match c.handleFrame frame nonce now with
      | (c, w, .ok ()) => (c, w)
      | (c, w, .error e) => ((c.fail e).1, w ++ (.report (.cryptoError e) :: (c.fail e).2)) := by
  have htrue : ¬true = false := by decide
  exact (if_neg htrue).trans rfl

section
variable {pt : Buffer} {now : ℕ}

theorem handleData_of_short (h : pt.length < 9) :
    c.handleData pt now = (c, [], .error "DATA tronqué (séquence absente)") := by
  rw [handleData, if_pos h]

theorem handleData_of_limited (hlen : ¬ pt.length < 9) (hallow : (c.msgAllow now).2 = false) :
    c.handleData pt now = (((c.msgAllow now).1.fail "rate limit session dépassé").1,
      .report .sessionRateLimit :: ((c.msgAllow now).1.fail "rate limit session dépassé").2,
      .ok ()) := by
  simp only [handleData, hlen, hallow, if_true, if_false]

theorem handleData_of_replayed (hlen : ¬ pt.length < 9) (hallow : (c.msgAllow now).2 = true)
    (hrx : c.rxSeq.any (pt.readBigUInt64BE 1 ≤ ·) = true) :
    c.handleData pt now =
      let err := "rejeu applicatif détecté (seq " ++ toString (pt.readBigUInt64BE 1) ++ ")"
      (((c.msgAllow now).1.fail err).1,
        .report (.sessionReplay (pt.readBigUInt64BE 1)) :: ((c.msgAllow now).1.fail err).2,
        .ok ()) := by
  obtain ⟨start, count, hc⟩ := msgAllow_eq c now
  have hrx' : (c.msgAllow now).1.rxSeq.any (pt.readBigUInt64BE 1 ≤ ·) = true := by rwa [hc]
  simp only [handleData, hlen, hallow, hrx', if_true, if_false, Bool.true_eq_false]

theorem handleData_of_new (hlen : ¬ pt.length < 9) (hallow : (c.msgAllow now).2 = true)
    (hrx : ¬ c.rxSeq.any (pt.readBigUInt64BE 1 ≤ ·) = true) :
    c.handleData pt now =
      ({ (c.msgAllow now).1 with rxSeq := some (pt.readBigUInt64BE 1) }, [.message (pt.drop 9)],
        .ok ()) := by
  obtain ⟨start, count, hc⟩ := msgAllow_eq c now
  have hrx' : ¬ (c.msgAllow now).1.rxSeq.any (pt.readBigUInt64BE 1 ≤ ·) = true := by rwa [hc]
  simp only [handleData, hlen, hallow, hrx', if_false, Bool.true_eq_false, Bool.false_eq_true]

end

theorem handleData_handled (c : SecureConnection S) (frame pt : Buffer) (nonce : S.Nonce)
    (now : ℕ) :
    match c.handleData pt now with
    | (c', w, .ok ()) => Handled c frame nonce now c' w
    | (c', w, .error _) => c' = c ∧ w = [] := by
  by_cases hlen : pt.length < 9
  · rw [handleData_of_short hlen]
    exact ⟨rfl, rfl⟩
  · cases hallow : (c.msgAllow now).2 with
    | false =>
      rw [handleData_of_limited hlen hallow]
      exact .limited hallow _
    | true =>
      by_cases hrx : c.rxSeq.any (pt.readBigUInt64BE 1 ≤ ·) = true
      · rw [handleData_of_replayed hlen hallow hrx]
        exact .replayed _ _
      · rw [handleData_of_new hlen hallow hrx]
        exact .message _ _

/-- **A frame is rejected, goes to the handshake, or is one of the four kinds of the channel.** -/
theorem onFrame_handled (c : SecureConnection S) (frame : Buffer) (nonce : S.Nonce) (now : ℕ) :
    Handled c frame nonce now (c.onFrame frame true nonce now).1
      (c.onFrame frame true nonce now).2 := by
  rw [onFrame_of_handleFrame]
  cases hsession : c.session with
  | none =>
    cases hon : c.hs.onFrame frame with
    | mk hs r =>
      cases r with
      | error e =>
        simp only [handleFrame, hsession, hon]
        exact .rejected hs none e
      | ok r =>
        cases hw : replyEffects { c with hs := hs, session := r.session } r.writes with
        | error e =>
          simp only [handleFrame, hsession, hon, hw]
          exact .rejected hs r.session e
        | ok w =>
          simp only [handleFrame, hsession, hon, hw]
          exact .handshake hsession hon hw
  | some s =>
    rw [handleFrame_of_session hsession, handleTransport]
    cases hopen : s.open frame with
    | error e => exact .rejected c.hs c.session e
    | ok pt =>
      by_cases hdata : pt.headD ctrlData = ctrlData
      · have hpt := c.handleData_handled frame pt nonce now
        simp only [hdata, if_true]
        generalize c.handleData pt now = r at hpt ⊢
        obtain ⟨c', w, e | u⟩ := r
        · obtain ⟨rfl, rfl⟩ := hpt
          exact .rejected c'.hs c'.session e
        · exact hpt
      · by_cases hrekey : pt.headD ctrlData = ctrlRekey
        · simp only [hrekey, show ctrlRekey ≠ ctrlData by decide, if_false, if_true]
          cases hw : write { c with session := some s.rekeyRx }
              (s.rekeyRx.seal nonce [ctrlRekeyAck]) with
          | error e => exact .rejected c.hs (some s.rekeyRx) e
          | ok w => exact .rekeyed hsession hw
        · by_cases hack : pt.headD ctrlData = ctrlRekeyAck
          · simp only [hack, show ctrlRekeyAck ≠ ctrlData by decide,
              show ctrlRekeyAck ≠ ctrlRekey by decide, if_false, if_true]
            exact .acknowledged hsession
          · by_cases hclose : pt.headD ctrlData = ctrlClose
            · simp only [hclose, show ctrlClose ≠ ctrlData by decide,
                show ctrlClose ≠ ctrlRekey by decide, show ctrlClose ≠ ctrlRekeyAck by decide,
                if_false, if_true]
              exact .closed hsession
            · simp only [hdata, hrekey, hack, hclose, if_false]
              exact .rejected c.hs c.session _

/-! ## Listeners -/

/-- The listeners add nothing to what is emitted, and a closed connection stays closed. -/
theorem listen_unheard {closed : Bool} {w : List (Effect S)} {as : List (ApiCall S)}
    (hclosed : w = [.peerclose, .socketEnd] → c.closed = true) :
    (listen closed c w as).1.closed = c.closed ∧ emitted (listen closed c w as).2 = emitted w := by
  unfold listen
  split
  · have hcalls := calls_unheard { c with closed := closed } as
    refine ⟨(hclosed rfl).symm, ?_⟩
    show emitted ([.peerclose] ++ (_ ++ [.socketEnd])) = _
    rw [emitted_append, emitted_append, hcalls.emitted]
    rfl
  · have hcalls := c.calls_unheard as
    refine ⟨hcalls.closed, ?_⟩
    show emitted (w ++ _) = _
    rw [emitted_append, hcalls.emitted, List.append_nil]

end SecureConnection

/-- A connection and its socket, with all the effects it has had so far. -/
structure SessionState (S : Suite Buffer) where
  conn : SecureConnection S
  /-- `socket.destroy()` has been called. -/
  destroyed : Bool
  /-- The socket has emitted `close`, and the connection then `close`. -/
  socketClosed : Bool
  /-- What the connection has done to the outside. -/
  effects : List (Effect S)
  /-- How many frames have been handled. -/
  handled : ℕ

/-- What can happen to a connection: data arrives, the application calls a method, a timer fires, or
the socket reports an error or its end. -/
inductive SessionEvent (S : Suite Buffer) where
  | data (chunk : Buffer) (turn : ℕ → Turn S)
  /-- The timer of the handshake. -/
  | timeout
  /-- The timer of the automatic rekey. -/
  | tick (nonce : S.Nonce) (now : ℕ)
  | call (a : ApiCall S)
  /-- The socket emits `error`. -/
  | socketError (err : String)
  /-- The socket emits `close`. -/
  | socketClose

namespace SessionState

/-- The connection is now `c`, and has had the effects `w`. -/
def act (x : SessionState S) (c : SecureConnection S) (w : List (Effect S)) : SessionState S :=
  { x with
    conn := c
    destroyed := x.destroyed || w.any Effect.isDestroy
    effects := x.effects ++ w }

/-- A timer runs until it is cleared: the one of the handshake when the session is there, both when
the connection fails or its socket is closed. -/
def enabled (x : SessionState S) : SessionEvent S → Prop
  | .data _ _ => x.destroyed = false ∧ x.socketClosed = false
  | .timeout => x.conn.session = none ∧ x.conn.closed = false
  | .tick _ _ => x.conn.hs.isInitiator = true ∧ x.conn.session ≠ none ∧ x.destroyed = false ∧
      x.socketClosed = false
  | .call _ => True
  | .socketError _ => x.socketClosed = false
  | .socketClose => x.socketClosed = false

def next (x : SessionState S) : SessionEvent S → SessionState S
  | .data chunk turn =>
    let (c, w, n) := x.conn.onData chunk turn
    { x.act c w with handled := x.handled + n }
  | .timeout =>
    let (c, w) := x.conn.fail "timeout handshake"
    x.act c w
  | .tick nonce now =>
    let (c, w, _) := x.conn.maybeAutoRekey nonce now
    x.act c w
  | .call a =>
    let (c, w) := x.conn.call a
    x.act c w
  | .socketError err =>
    let (c, w) := x.conn.fail err
    x.act c w
  | .socketClose => { x with conn := { x.conn with closed := true }, socketClosed := true }

/-- A fresh connection; an initiator has written MSG1. -/
def start (hs : Handshake S) (options : SessionOptions) (now : ℕ) : SessionState S where
  conn := .new hs options now
  destroyed := false
  socketClosed := false
  effects := hs.opening.map .write
  handled := 0

end SessionState

end AttestP2P
