import AttestP2P.Protocol.FrameStream
import AttestP2P.Session.Sending

/-!
# The bound on frames

A `FrameDecoder` refuses frames of more than `SESSION_MAX_FRAME` bytes, and the peer takes the
sender of one for an attacker.  `send` does not know of the bound: a body of two megabytes is
sealed, written, and costs the connection.

* `InStep`: a connection and its peer, with nothing on the way to the peer.  `inStep_of_reachable`
  finds them in every run of two honest endpoints.
* `deliver`: the bytes of a frame arrive at the peer in any chunks.  Until the last of them the
  decoder waits, and then the frame is handled as one.
* `frame_bound_iff`: the peer emits the body exactly when the frame is within the bound.  What the
  outside decides while the frame arrives is left open, but for refusing the frame for other reasons
  (`Turn.Allows`).

What a frame announces is 49 bytes more than its body: there are the type, the sequence number, and
what the cipher adds.
-/

set_option autoImplicit false

namespace AttestP2P

open Buffer SecureConnection

variable {S : Suite Buffer}

/-- The connection `c` has the session `s`, and its peer `p` waits for the next frame of it. -/
structure Awaits (c : SecureConnection S) (s : SecureSession S) (p : SecureConnection S) :
    Prop where
  isOpen : c.closed = false
  session : c.session = some s
  peerOpen : p.closed = false
  peerSession : ∃ s', p.session = some s' ∧ s'.rxKey = s.txKey
  fresh : ∀ n ∈ p.rxSeq, n ≤ c.txSeq

/-- It has received nothing of the frame yet, and will take what comes next for the
beginning of it. -/
structure InStep (c : SecureConnection S) (s : SecureSession S) (p : SecureConnection S) : Prop
    extends Awaits c s p where
  decoder : p.decoder = .new sessionMaxFrame

/-- **Honest endpoints are in step** whenever nothing is on the way. -/
theorem inStep_of_reachable (hS : S.Lawful) {l : Link S} (h : (link S).Reachable l) {i : Bool}
    (hdrained : (l !i).Drained) {s : SecureSession S} (hs : (l i).conn.session = some s) :
    InStep (l i).conn s (l !i).conn := by
  obtain ⟨q, hsound, hfresh, -⟩ | ⟨q, sessions, items, hsound, hjoined⟩ := shaking_or_live hS h
  · exact nomatch (hfresh i).session.symm.trans hs
  · have hreads := hjoined.reads !i
    rw [(hsound.carries !i).drained hdrained] at hreads
    have hway := hjoined.way !i
    rw [hreads.empty, Bool.not_not] at hway
    obtain ⟨rfl, -⟩ := (hjoined.reads i).of_session hs
    have hdecoder : (l !i).conn.decoder = .new sessionMaxFrame := by
      have hmax := (hsound.carries !i).max
      have hbuf := hdrained.2.1
      generalize (l !i).conn.decoder = d at hmax hbuf
      obtain ⟨max, buf⟩ := d
      obtain rfl : max = sessionMaxFrame := hmax
      obtain rfl : buf = [] := hbuf
      rfl
    refine ⟨⟨hsound.isOpen i, hs, hsound.isOpen !i, ?_, fun n hn ↦ ?_⟩, hdecoder⟩
    · cases hreads with
      | session hs' hfs => exact ⟨_, hs', hway.key⟩
      | confirm hs' hon hfs => exact nomatch hfs
    · exact hway.used n (List.mem_append_left _ (by simpa using hn))

/-! ## Calls leave the decoder alone -/

namespace SecureConnection

theorem rekey_decoder (c : SecureConnection S) (nonce : S.Nonce) :
    (c.rekey nonce).1.decoder = c.decoder := by
  rw [rekey]
  split
  · rfl
  · split
    · rfl
    · dsimp only
      split <;> rfl

theorem send_decoder (c : SecureConnection S) (body : Buffer) (nonce nonce' : S.Nonce) (now : ℕ) :
    (c.send body nonce nonce' now).1.decoder = c.decoder := by
  rw [send]
  split
  · rfl
  · dsimp only
    split
    · rfl
    · split
      · rfl
      · dsimp only
        generalize hc : ({ c with
          txSeq := c.txSeq + 1, rkMsgs := c.rkMsgs + 1,
          rkBytes := c.rkBytes + body.length } : SecureConnection S) = c'
        have hdecoder : c'.decoder = c.decoder := by rw [← hc]
        obtain h | h := c'.maybeAutoRekey_eq nonce' now
        · rw [h]
          exact hdecoder
        · rw [h]
          exact (rekey_decoder c' nonce').trans hdecoder

theorem calls_decoder (c : SecureConnection S) (as : List (ApiCall S)) :
    (c.calls as).1.decoder = c.decoder := by
  induction as generalizing c with
  | nil => rfl
  | cons a as ih =>
    refine (ih (c.call a).1).trans ?_
    cases a with
    | send body nonce nonce' now => exact send_decoder c body nonce nonce' now
    | rekey nonce => exact rekey_decoder c nonce
    | close nonce => rfl

end SecureConnection

/-! ## Bytes that arrive in chunks -/

/-- `data` events of some chunks; the outside decides the same for all frames. -/
def deliver (x : SessionState S) (t : Turn S) (chunks : List Buffer) : SessionState S :=
  chunks.foldl (fun x chunk ↦ x.next (.data chunk fun _ ↦ t)) x

section
variable {x : SessionState S} {t : Turn S}

theorem deliver_cons (x : SessionState S) (t : Turn S) (chunk : Buffer) (chunks : List Buffer) :
    deliver x t (chunk :: chunks) = deliver (x.next (.data chunk fun _ ↦ t)) t chunks := rfl

/-- What has happened has happened: chunks only add to the effects. -/
theorem effects_deliver (x : SessionState S) (t : Turn S) (chunks : List Buffer) :
    x.effects <+: (deliver x t chunks).effects := by
  induction chunks generalizing x with
  | nil => exact List.prefix_rfl
  | cons chunk chunks ih =>
    have hnow : x.effects <+: (x.next (.data chunk fun _ ↦ t)).effects := List.prefix_append _ _
    exact hnow.trans (ih _)

/-- A chunk that completes no frame has no effect. -/
theorem next_of_push_nil {chunk : Buffer} {d : FrameDecoder}
    (h : x.conn.decoder.push chunk = (d, .ok [])) :
    (x.next (.data chunk fun _ ↦ t)).conn = { x.conn with decoder := d } ∧
      (x.next (.data chunk fun _ ↦ t)).effects = x.effects := by
  have hreceive : x.conn.receive chunk = ({ x.conn with decoder := d }, [], []) := by
    rw [receive, h]
  rw [SessionState.next, onData, hreceive]
  exact ⟨rfl, List.append_nil _⟩

theorem deliver_of_pushAll_nil {chunks : List Buffer} {d : FrameDecoder}
    (h : x.conn.decoder.pushAll chunks = (d, .ok [])) :
    (deliver x t chunks).effects = x.effects := by
  induction chunks generalizing x with
  | nil => rfl
  | cons chunk chunks ih =>
    obtain ⟨d₁, now, later, hpush, hrest, hnil⟩ := FrameDecoder.pushAll_cons_eq_ok h
    obtain ⟨rfl, rfl⟩ := List.append_eq_nil_iff.mp hnil.symm
    obtain ⟨hconn, heffects⟩ := next_of_push_nil (t := t) hpush
    rw [deliver_cons, ih (by rw [hconn]; exact hrest), heffects]

end

/-- What the outside does not do: refuse the frame, for the rate of the address or that of the
session. -/
structure Turn.Allows (t : Turn S) (p : SecureConnection S) : Prop where
  allowFrame : t.allowFrame = true
  rate : (p.msgAllow t.now).2 = true

theorem Turn.Allows.of_decoder {t : Turn S} {p : SecureConnection S} (h : t.Allows p)
    (d : FrameDecoder) : t.Allows { p with decoder := d } where
  allowFrame := h.allowFrame
  rate := by
    have hrate := h.rate
    by_cases hwindow : t.now - p.msgWindowStart > 1000
    · simpa [msgAllow, hwindow] using hrate
    · simpa [msgAllow, hwindow] using hrate

theorem Awaits.of_decoder {c p : SecureConnection S} {s : SecureSession S} (h : Awaits c s p)
    (d : FrameDecoder) : Awaits c s { p with decoder := d } :=
  ⟨h.isOpen, h.session, h.peerOpen, h.peerSession, h.fresh⟩

section
variable {x : SessionState S} {t : Turn S} {c : SecureConnection S} {s : SecureSession S}
  {body : Buffer} {nonce : S.Nonce}

/-- The DATA frame that the peer waits for. -/
theorem onTurn_of_awaits (hS : S.Lawful) {p : SecureConnection S} (h : Awaits c s p)
    (ht : t.Allows p) (hseq : c.txSeq + 1 < 2 ^ 64) :
    emitted (p.onTurn (c.dataFrame s body nonce) t).2 = [.message body] ∧
      (p.onTurn (c.dataFrame s body nonce) t).1.decoder = p.decoder := by
  obtain ⟨s', hs', hkey⟩ := h.peerSession
  have hopens : s'.open (c.dataFrame s body nonce) = .ok (dataPlaintext (c.txSeq + 1) body) := by
    rw [dataFrame, SecureSession.open, hkey]
    exact hS.open_seal s.txKey nonce (dataPlaintext (c.txSeq + 1) body)
  obtain ⟨start, count, hdata⟩ := @handleData_of_fresh S p (c.txSeq + 1) body t.now hseq ht.rate
    fun n hn ↦ Nat.lt_succ_of_le (h.fresh n hn)
  have hframe := onFrame_of_session hs' ((handleTransport_of_data t.nonce t.now hopens).trans hdata)
  rw [onTurn, ht.allowFrame, hframe]
  generalize hc : ({ p with
    msgWindowStart := start, msgCount := count,
    rxSeq := some (c.txSeq + 1) } : SecureConnection S) = p'
  have hdecoder : p'.decoder = p.decoder := by rw [← hc]
  refine ⟨?_, (calls_decoder p' t.calls).trans hdecoder⟩
  exact (@listen_unheard S p' p.closed [.message body] t.calls fun hw ↦ by cases hw).2

theorem onFrames_singleton (p : SecureConnection S) (frame : Buffer) (turn : ℕ → Turn S) :
    (p.onFrames [frame] turn).1 = (p.onTurn frame (turn 0)).1 ∧
      (p.onFrames [frame] turn).2.1 = (p.onTurn frame (turn 0)).2 := by
  rw [onFrames]
  dsimp only
  split
  · exact ⟨rfl, rfl⟩
  · exact ⟨rfl, List.append_nil _⟩

/-- The chunk that completes the frame makes the peer emit the body. -/
theorem next_of_awaits (hS : S.Lawful) (h : Awaits c s x.conn) (ht : t.Allows x.conn)
    (hseq : c.txSeq + 1 < 2 ^ 64) {chunk : Buffer} {d : FrameDecoder}
    (hpush : x.conn.decoder.push chunk = (d, .ok [c.dataFrame s body nonce])) :
    emitted (x.next (.data chunk fun _ ↦ t)).effects = emitted x.effects ++ [.message body] ∧
      (x.next (.data chunk fun _ ↦ t)).conn.decoder = d := by
  have hreceive : x.conn.receive chunk =
      ({ x.conn with decoder := d }, [], [c.dataFrame s body nonce]) := by
    rw [receive, hpush]
  obtain ⟨hconn, heffects⟩ := onFrames_singleton { x.conn with decoder := d }
    (c.dataFrame s body nonce) fun _ ↦ t
  obtain ⟨hmessage, hdecoder⟩ : emitted (onTurn { x.conn with decoder := d }
      (c.dataFrame s body nonce) t).2 = [.message body] ∧ _ = d :=
    onTurn_of_awaits hS (h.of_decoder d) (ht.of_decoder d) hseq
  have hdata : x.conn.onData chunk (fun _ ↦ t) =
      onFrames { x.conn with decoder := d } [c.dataFrame s body nonce] fun _ ↦ t := by
    rw [onData, hreceive]
    rfl
  rw [SessionState.next, hdata]
  refine ⟨?_, (congrArg _ hconn).trans hdecoder⟩
  exact (emitted_append _ _).trans (congrArg _ ((congrArg _ heffects).trans hmessage))

/-- The peer is fed with the frame that it waits for. -/
theorem deliver_of_awaits (hS : S.Lawful) (h : Awaits c s x.conn) (ht : t.Allows x.conn)
    (hseq : c.txSeq + 1 < 2 ^ 64) {chunks : List Buffer} {d : FrameDecoder}
    (hchunks : x.conn.decoder.pushAll chunks = (d, .ok [c.dataFrame s body nonce])) :
    emitted (deliver x t chunks).effects = emitted x.effects ++ [.message body] := by
  induction chunks generalizing x with
  | nil => exact nomatch hchunks
  | cons chunk chunks ih =>
    obtain ⟨d₁, now, later, hpush, hrest, hframes⟩ := FrameDecoder.pushAll_cons_eq_ok hchunks
    rw [deliver_cons]
    cases now with
    | nil =>
      obtain rfl : later = [c.dataFrame s body nonce] := hframes.symm
      obtain ⟨hconn, heffects⟩ := next_of_push_nil (t := t) hpush
      rw [← heffects]
      refine ih ?_ ?_ ?_
      · rw [hconn]
        exact h.of_decoder d₁
      · rw [hconn]
        exact ht.of_decoder d₁
      · rw [hconn]
        exact hrest
    | cons f now =>
      obtain ⟨rfl, hnil⟩ := List.cons.inj hframes
      obtain ⟨rfl, rfl⟩ := List.append_eq_nil_iff.mp hnil.symm
      obtain ⟨hemitted, hdecoder⟩ := next_of_awaits hS h ht hseq hpush
      rw [deliver_of_pushAll_nil (by rw [hdecoder]; exact hrest), hemitted]

end

/-! ## A frame that is too large -/

theorem cutFrame_of_long {max : ℕ} {frame buf later : Buffer} (hmax : max < frame.length)
    (hlen : frame.length < 2 ^ 32) (h : buf ++ later = frameBytes frame) (hbuf : 4 ≤ buf.length) :
    ∃ e, cutFrame max buf = .bad e := by
  have hread : buf.readUInt32BE 0 = frame.length := by
    rw [← readUInt32BE_append_left later hbuf, h]
    exact readUInt32BE_append (a := []) rfl hlen
  rw [cutFrame_of_le hbuf, hread, if_pos hmax]
  exact ⟨_, rfl⟩

/-- Its bytes either do not make up the header yet, or make `push` throw. -/
theorem push_of_long {d : FrameDecoder} {frame chunk later : Buffer} (hmax : d.max < frame.length)
    (hlen : frame.length < 2 ^ 32) (h : d.buf ++ (chunk ++ later) = frameBytes frame) :
    (d.buf ++ chunk).length < 4 ∧ d.push chunk = (⟨d.max, d.buf ++ chunk⟩, .ok []) ∨
      ∃ d' e, d.push chunk = (d', .error e) := by
  by_cases hbuf : 4 ≤ (d.buf ++ chunk).length
  · rw [← List.append_assoc] at h
    obtain ⟨e, he⟩ := cutFrame_of_long hmax hlen h hbuf
    have hsplit : (frameCutter d.max).split (d.buf ++ chunk) = ([], d.buf ++ chunk) :=
      Cutter.split_of_not_item fun n hn ↦ nomatch he.symm.trans hn
    refine .inr ⟨_, e, FrameDecoder.push_of_malformed ?_⟩
    rw [hsplit]
    exact Cutter.malformed_eq_some.mpr he
  · have hmore : (frameCutter d.max).cut (d.buf ++ chunk) = .more := if_pos (Nat.not_le.mp hbuf)
    have hsplit : (frameCutter d.max).split (d.buf ++ chunk) = ([], d.buf ++ chunk) :=
      Cutter.split_of_more hmore
    have hvalid : (frameCutter d.max).malformed (d.buf ++ chunk) = none := by
      rw [Cutter.malformed, hmore]
    refine .inl ⟨Nat.not_le.mp hbuf, ?_⟩
    rw [FrameDecoder.push_of_valid (by rw [hsplit]; exact hvalid), hsplit]
    rfl

/-- The peer fails, and takes the sender for an attacker. -/
theorem deliver_of_long {x : SessionState S} {t : Turn S} {frame : Buffer} {chunks : List Buffer}
    (hopen : x.conn.closed = false) (hmax : x.conn.decoder.max < frame.length)
    (hlen : frame.length < 2 ^ 32) (hbuf : x.conn.decoder.buf.length < 4)
    (h : x.conn.decoder.buf ++ chunks.flatten = frameBytes frame) :
    ∃ e, x.effects ++ [.report (.oversizeFrame e), .error e, .destroy] <+:
      (deliver x t chunks).effects := by
  induction chunks generalizing x with
  | nil =>
    have hheader := congrArg List.length h
    rw [frameBytes, List.flatten_nil, List.append_nil, List.length_append, length_uint32BE]
      at hheader
    omega
  | cons chunk chunks ih =>
    rw [deliver_cons]
    obtain ⟨hshort, hpush⟩ | ⟨d', e, hpush⟩ := push_of_long hmax hlen h
    · obtain ⟨hconn, heffects⟩ := next_of_push_nil (t := t) hpush
      rw [← heffects]
      refine ih ?_ ?_ ?_ ?_
      · rw [hconn]
        exact hopen
      · rw [hconn]
        exact hmax
      · rw [hconn]
        exact hshort
      · rw [hconn]
        exact (List.append_assoc _ _ _).trans h
    · have hreceive : (x.conn.receive chunk).2 =
          ([.report (.oversizeFrame e), .error e, .destroy], []) := by
        rw [receive, hpush]
        dsimp only
        rw [fail, if_neg (by simpa using hopen)]
      have hnext : (x.next (.data chunk fun _ ↦ t)).effects =
          x.effects ++ [.report (.oversizeFrame e), .error e, .destroy] := by
        rw [SessionState.next, onData]
        generalize x.conn.receive chunk = r at hreceive
        obtain ⟨c, w, frames⟩ := r
        obtain ⟨rfl, rfl⟩ := Prod.mk.inj hreceive
        rfl
      refine ⟨e, ?_⟩
      rw [← hnext]
      exact effects_deliver _ t chunks

/-! ## The two ends of a frame -/

/-- A call of `send` that returns, on an open session. -/
theorem send_returns (hS : S.Lawful) {c : SecureConnection S} {s : SecureSession S}
    (hopen : c.closed = false) (hs : c.session = some s) {body : Buffer} {nonce nonce' : S.Nonce}
    {now : ℕ} (hsend : (c.send body nonce nonce' now).2.2 = .ok ()) :
    c.txSeq + 1 < 2 ^ 64 ∧ body.length + 49 < 2 ^ 32 := by
  by_cases hseq : c.txSeq + 1 < 2 ^ 64
  · by_cases hlen : body.length + 49 < 2 ^ 32
    · exact ⟨hseq, hlen⟩
    · rw [send_of_long hS hopen hs hseq hlen] at hsend
      exact nomatch hsend
  · rw [send_of_overflow hs (Nat.not_lt.mp hseq)] at hsend
    exact nomatch hsend

theorem deliver_iff (hS : S.Lawful) {c : SecureConnection S} {s : SecureSession S}
    {x : SessionState S} {t : Turn S} {body : Buffer} {nonce : S.Nonce} {chunks : List Buffer}
    (hstep : InStep c s x.conn) (ht : t.Allows x.conn) (hseq : c.txSeq + 1 < 2 ^ 64)
    (hlen : body.length + 49 < 2 ^ 32)
    (hchunks : chunks.flatten = frameBytes (c.dataFrame s body nonce)) :
    (emitted (deliver x t chunks).effects = emitted x.effects ++ [.message body] ↔
        body.length + 49 ≤ sessionMaxFrame) ∧
      (body.length + 49 ≤ sessionMaxFrame ∨
        ∃ e, x.effects ++ [.report (.oversizeFrame e), .error e, .destroy] <+:
          (deliver x t chunks).effects) := by
  have hframe := length_dataFrame hS c s body nonce
  by_cases hfits : body.length + 49 ≤ sessionMaxFrame
  · have hpush : (FrameDecoder.new sessionMaxFrame).pushAll chunks =
        (⟨sessionMaxFrame, []⟩, .ok [c.dataFrame s body nonce]) := by
      have hencode : encodeFrame (c.dataFrame s body nonce) =
        .ok (frameBytes (c.dataFrame s body nonce)) := encodeFrame_eq_ok (by omega)
      have hencoded : [c.dataFrame s body nonce].mapM encodeFrame =
          .ok [frameBytes (c.dataFrame s body nonce)] := by
        rw [List.mapM_cons, hencode]
        rfl
      have hempty : encodeFrame [] = .ok [0, 0, 0, 0] := rfl
      refine pushAll_encoded (fun p hp ↦ ?_) hencoded (by exact Nat.zero_le _) hempty
        List.nil_prefix (by decide) (by rw [hchunks, List.flatten_singleton, List.append_nil])
      rw [List.mem_singleton.mp hp]
      omega
    rw [← hstep.decoder] at hpush
    exact ⟨⟨fun _ ↦ hfits, fun _ ↦ deliver_of_awaits hS hstep.toAwaits ht hseq hpush⟩, .inl hfits⟩
  · have hmax : x.conn.decoder.max < (c.dataFrame s body nonce).length := by
      rw [hstep.decoder, hframe]
      exact Nat.lt_of_not_le hfits
    have hbytes : x.conn.decoder.buf ++ chunks.flatten = frameBytes (c.dataFrame s body nonce) := by
      rw [hstep.decoder]
      exact hchunks
    obtain ⟨e, he⟩ := deliver_of_long (t := t) hstep.peerOpen hmax (by omega)
      (by rw [hstep.decoder]; decide) hbytes
    refine ⟨⟨fun hmessage ↦ ?_, fun h ↦ absurd h hfits⟩, .inr ⟨e, he⟩⟩
    -- the first new event is the error
    obtain ⟨w, hw⟩ := he
    rw [← hw, emitted_append, emitted_append, List.append_assoc] at hmessage
    exact nomatch (List.cons.inj (List.append_cancel_left hmessage)).1

/-- **The bound on frames.**  When `send` returns on an open session, the first frame it has written
is emitted by a peer that waits for it, in whatever chunks its bytes arrive, exactly if it is within
the bound; else the peer reports an oversize frame and fails. -/
theorem frame_bound_iff {N : Sodium} (hN : N.Lawful) {c : SecureConnection (octets N)}
    {s : SecureSession (octets N)} {x : SessionState (octets N)} {t : Turn (octets N)}
    (hstep : InStep c s x.conn) (ht : t.Allows x.conn) {body : Buffer}
    {nonce nonce' : (octets N).Nonce} {now : ℕ}
    (hsend : (c.send body nonce nonce' now).2.2 = .ok ()) :
    ∃ frame control, writes (c.send body nonce nonce' now).2.1 = frame :: control ∧
      ∀ chunks : List Buffer, chunks.flatten = frameBytes frame →
        (emitted (deliver x t chunks).effects = emitted x.effects ++ [.message body] ↔
          body.length + 49 ≤ sessionMaxFrame) ∧
        (body.length + 49 ≤ sessionMaxFrame ∨
          ∃ e, x.effects ++ [.report (.oversizeFrame e), .error e, .destroy] <+:
            (deliver x t chunks).effects) := by
  have hS := octets_lawful hN
  obtain ⟨hseq, hlen⟩ := send_returns hS hstep.isOpen hstep.session hsend
  obtain ⟨-, control, hwrites, -⟩ :=
    send_writes hS hstep.isOpen hstep.session hseq hlen nonce nonce' now
  refine ⟨c.dataFrame s body nonce, writes control, by rw [hwrites, writes_write], ?_⟩
  exact fun chunks hchunks ↦ deliver_iff hS hstep ht hseq hlen hchunks

/-! ### A body of two megabytes -/

namespace SampleLink

/-- A turn of the responder, in which no listener calls anything. -/
def turn : Turn (octets sodium) where
  allowFrame := true
  nonce := nonce 0
  now := 8
  calls := []

/-- The responder and its socket, after the handshake. -/
def responder : SessionState (octets sodium) where
  conn := (outcome false).conn
  destroyed := false
  socketClosed := false
  effects := []
  handled := 0

/-- A body whose frame is one byte too long. -/
def longBody : Buffer := List.replicate (sessionMaxFrame - 48) 0

theorem outcome_inStep :
    ∃ s, (outcome true).conn.session = some s ∧ InStep (outcome true).conn s responder.conn := by
  obtain ⟨s, hs⟩ := Option.isSome_iff_exists.mp
    (show (outcome true).conn.session.isSome = true by decide +kernel)
  exact ⟨s, hs, @inStep_of_reachable _ (octets_lawful sodium_lawful) _ outcome_reachable true
    (outcome_drained _) s hs⟩

theorem turn_allows : turn.Allows responder.conn := ⟨rfl, by decide +kernel⟩

theorem outcome_txSeq : (outcome true).conn.txSeq + 1 < 2 ^ 64 := by decide +kernel

theorem length_longBody : longBody.length + 49 = sessionMaxFrame + 1 := by
  rw [longBody, List.length_replicate]
  rfl

end SampleLink

open SampleLink in
/-- `send` accepts the body, and the peer fails on its frame, in whatever chunks it arrives. -/
theorem oversize_frame_sent :
    ((outcome true).conn.send longBody (nonce 1) (nonce 2) 8).2.2 = .ok () ∧
      ∃ frame control,
        writes ((outcome true).conn.send longBody (nonce 1) (nonce 2) 8).2.1 = frame :: control ∧
        ∀ chunks : List Buffer, chunks.flatten = frameBytes frame →
          emitted (deliver responder turn chunks).effects ≠ [.message longBody] ∧
          ∃ e, [.report (.oversizeFrame e), .error e, .destroy] <+:
            (deliver responder turn chunks).effects := by
  have hS := octets_lawful sodium_lawful
  obtain ⟨s, hs, hstep⟩ := outcome_inStep
  have hlen : longBody.length + 49 < 2 ^ 32 := by
    rw [length_longBody]
    decide
  have hlong : ¬longBody.length + 49 ≤ sessionMaxFrame := by
    rw [length_longBody]
    exact Nat.not_succ_le_self _
  obtain ⟨hok, control, hwrites, -⟩ :=
    send_writes hS hstep.isOpen hs outcome_txSeq hlen (nonce 1) (nonce 2) 8
  refine ⟨hok, _, writes control, by rw [hwrites, writes_write], fun chunks hchunks ↦ ?_⟩
  obtain ⟨hmessage, hreport⟩ := deliver_iff hS hstep turn_allows outcome_txSeq hlen hchunks
  exact ⟨fun h ↦ hlong (hmessage.mp h), hreport.resolve_left hlong⟩

open SampleLink in
theorem frame_bound_iff_sample :
    ∃ frame control,
      writes ((outcome true).conn.send [104, 105] (nonce 1) (nonce 2) 8).2.1 = frame :: control ∧
      ∀ chunks : List Buffer, chunks.flatten = frameBytes frame →
        (emitted (deliver responder turn chunks).effects = [.message [104, 105]] ↔
          2 + 49 ≤ sessionMaxFrame) ∧
        (2 + 49 ≤ sessionMaxFrame ∨
          ∃ e, [.report (.oversizeFrame e), .error e, .destroy] <+:
            (deliver responder turn chunks).effects) := by
  obtain ⟨s, hs, hstep⟩ := outcome_inStep
  have hlen : ([104, 105] : Buffer).length + 49 < 2 ^ 32 := by decide
  obtain ⟨hok, -⟩ := send_writes (octets_lawful sodium_lawful) hstep.isOpen hs outcome_txSeq hlen
    (nonce 1) (nonce 2) 8
  exact frame_bound_iff sodium_lawful hstep turn_allows hok

end AttestP2P
