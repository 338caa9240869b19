import AttestP2P.Node.AttestP2PNode
import AttestP2P.Session.Closed

/-!
# What `send` does

`send` looks whether there is a session, and `_write` whether the connection is closed.  Between the
moment at which a connection is closed (`_closed`) and the `close` event of its socket there is a
session, and no way out: then `send` returns as if it had sent.

* `send_cases`: the five ways in which a call of `send` can go.  There is no session, the sequence
  numbers are used up, the body is too long for a header, the connection is closed, or the frame is
  written.
* `AllOrNothing`: it throws and changes nothing, or it returns and has written one DATA frame.
* `send_all_or_nothing`: exactly when that is so, and when a message that `sendMessage` records has
  been written.

The second one matters because of the caller.  `sendMessage` adds the line to the thread once `send`
has returned, and takes this for the message being on its way.
-/

set_option autoImplicit false

namespace AttestP2P

variable {S : Suite Buffer}

theorem encodeFrame_of_long {body : Buffer} (h : ¬body.length < 2 ^ 32) :
    encodeFrame body = .error "ERR_OUT_OF_RANGE" := by
  rw [encodeFrame, if_neg h]

namespace SecureConnection

variable {c : SecureConnection S} {s : SecureSession S}

theorem write_of_long (hopen : c.closed = false) {frame : Buffer} (h : ¬frame.length < 2 ^ 32) :
    c.write frame = .error "ERR_OUT_OF_RANGE" := by
  rw [write, hopen, encodeFrame_of_long h]
  rfl

/-! ## Rekeying -/

theorem length_seal_control (hS : S.Lawful) (s : SecureSession S) (nonce : S.Nonce)
    (type : UInt8) : (s.seal nonce [type]).length < 2 ^ 32 := by
  have hlen : (s.seal nonce [type]).length = 41 := length_control hS s.txKey nonce type
  omega

theorem rekey_of_closed (hclosed : c.closed = true) (hs : c.session = some s)
    (hidle : c.rekeying = false) (nonce : S.Nonce) :
    c.rekey nonce = ({ c with rekeying := true, session := some s.rekeyTx }, [], .ok ()) := by
  have hwrite (frame : Buffer) : ({ c with rekeying := true } : SecureConnection S).write frame =
    .ok [] := write_of_closed hclosed frame
  rw [rekey, hs]
  simp only [hidle, Bool.false_eq_true, if_false]
  rw [hs] at hwrite
  rw [hwrite]

/-- A rekey does not throw, and writes nothing but a REKEY frame. -/
theorem rekey_cases (hS : S.Lawful) (c : SecureConnection S) (nonce : S.Nonce) :
    (c.rekey nonce).2.2 = .ok () ∧ ((c.rekey nonce).2.1 = [] ∨
      c.closed = false ∧ ∃ s, c.session = some s ∧
        (c.rekey nonce).2.1 = [.write (s.seal nonce [ctrlRekey])]) := by
  by_cases hbusy : c.session = none ∨ c.rekeying = true
  · rw [rekey_of_rekeying hbusy]
    exact ⟨rfl, .inl rfl⟩
  · obtain ⟨hsession, hidle⟩ := not_or.mp hbusy
    obtain ⟨s, hs⟩ := Option.ne_none_iff_exists'.mp hsession
    rw [Bool.not_eq_true] at hidle
    cases hclosed : c.closed with
    | false =>
      rw [rekey_of_idle hclosed hs hidle (length_seal_control hS s nonce _)]
      exact ⟨rfl, .inr ⟨rfl, s, hs, rfl⟩⟩
    | true =>
      rw [rekey_of_closed hclosed hs hidle]
      exact ⟨rfl, .inl rfl⟩

theorem maybeAutoRekey_cases (hS : S.Lawful) (c : SecureConnection S) (nonce : S.Nonce) (now : ℕ) :
    (c.maybeAutoRekey nonce now).2.2 = .ok () ∧ ((c.maybeAutoRekey nonce now).2.1 = [] ∨
      c.closed = false ∧ ∃ s, c.session = some s ∧
        (c.maybeAutoRekey nonce now).2.1 = [.write (s.seal nonce [ctrlRekey])]) := by
  obtain h | h := c.maybeAutoRekey_eq nonce now
  · rw [h]
    exact ⟨rfl, .inl rfl⟩
  · rw [h]
    exact rekey_cases hS c nonce

/-! ## The five ways of `send` -/

/-- The DATA frame that carries the body under the next sequence number. -/
def dataFrame (c : SecureConnection S) (s : SecureSession S) (body : Buffer) (nonce : S.Nonce) :
    Buffer :=
  s.seal nonce (dataPlaintext (c.txSeq + 1) body)

theorem length_dataFrame (hS : S.Lawful) (c : SecureConnection S) (s : SecureSession S)
    (body : Buffer) (nonce : S.Nonce) : (c.dataFrame s body nonce).length = body.length + 49 := by
  have hlen := hS.length_seal s.txKey nonce (dataPlaintext (c.txSeq + 1) body)
  rw [length_dataPlaintext] at hlen
  refine Eq.trans hlen ?_
  omega

theorem send_of_none (hs : c.session = none) (body : Buffer) (nonce nonce' : S.Nonce) (now : ℕ) :
    c.send body nonce nonce' now = (c, [], .error "session non établie") := by
  rw [send, hs]

/-- On a connection that is closed, `send` returns and writes nothing. -/
theorem send_of_closed (hS : S.Lawful) (hclosed : c.closed = true) (hs : c.session = some s)
    (hseq : c.txSeq + 1 < 2 ^ 64) (body : Buffer) (nonce nonce' : S.Nonce) (now : ℕ) :
    (c.send body nonce nonce' now).2 = ([], .ok ()) := by
  have hwrite : ({ c with txSeq := c.txSeq + 1 } : SecureConnection S).write
    (c.dataFrame s body nonce) = .ok [] := write_of_closed hclosed _
  rw [hs] at hwrite
  rw [send, hs]
  simp only [Nat.not_le.mpr hseq, if_false]
  rw [dataFrame] at hwrite
  rw [hwrite]
  obtain ⟨hok, hnone | ⟨hopen, -⟩⟩ := maybeAutoRekey_cases hS
    ({ c with
      session := some s, txSeq := c.txSeq + 1, rkMsgs := c.rkMsgs + 1,
      rkBytes := c.rkBytes + body.length } : SecureConnection S) nonce' now
  · exact Prod.ext hnone hok
  · cases hclosed.symm.trans hopen

/-- A frame whose length has no header makes `send` throw. -/
theorem send_of_long (hS : S.Lawful) (hopen : c.closed = false) (hs : c.session = some s)
    (hseq : c.txSeq + 1 < 2 ^ 64) {body : Buffer} (hlen : ¬body.length + 49 < 2 ^ 32)
    (nonce nonce' : S.Nonce) (now : ℕ) :
    c.send body nonce nonce' now =
      ({ c with txSeq := c.txSeq + 1 }, [], .error "ERR_OUT_OF_RANGE") := by
  have hwrite : ({ c with txSeq := c.txSeq + 1 } : SecureConnection S).write
    (c.dataFrame s body nonce) = .error "ERR_OUT_OF_RANGE" :=
    write_of_long hopen (by rwa [length_dataFrame hS])
  rw [hs] at hwrite
  rw [send, hs]
  simp only [Nat.not_le.mpr hseq, if_false]
  rw [dataFrame] at hwrite
  rw [hwrite]

/-- `send` on an open session: the DATA frame, and the REKEY frame of an automatic rekey. -/
theorem send_writes (hS : S.Lawful) (hopen : c.closed = false) (hs : c.session = some s)
    (hseq : c.txSeq + 1 < 2 ^ 64) {body : Buffer} (hlen : body.length + 49 < 2 ^ 32)
    (nonce nonce' : S.Nonce) (now : ℕ) :
    (c.send body nonce nonce' now).2.2 = .ok () ∧ ∃ control,
      (c.send body nonce nonce' now).2.1 = .write (c.dataFrame s body nonce) :: control ∧
        (control = [] ∨ control = [.write (s.seal nonce' [ctrlRekey])]) := by
  have hframe : (s.seal nonce (dataPlaintext (c.txSeq + 1) body)).length < 2 ^ 32 := by
    have := length_dataFrame hS c s body nonce
    rw [dataFrame] at this
    omega
  rw [send_of_open hopen hs hseq hframe]
  obtain ⟨hok, hcontrol⟩ := maybeAutoRekey_cases hS
    ({ c with
      txSeq := c.txSeq + 1, rkMsgs := c.rkMsgs + 1,
      rkBytes := c.rkBytes + body.length } : SecureConnection S) nonce' now
  refine ⟨hok, _, rfl, ?_⟩
  obtain hnone | ⟨-, s', hs', hrekey⟩ := hcontrol
  · exact .inl hnone
  · obtain rfl : s = s' := Option.some.inj (hs.symm.trans hs')
    exact .inr hrekey

/-! ## All or nothing -/

/-- `send` throws, with nothing written and the counters as they were; or it returns, and has
written the DATA frame of the body, with no other frame than that of an automatic rekey. -/
def AllOrNothing (c : SecureConnection S) (body : Buffer) (nonce nonce' : S.Nonce) (now : ℕ) :
    Prop :=
  match c.send body nonce nonce' now with
  | (c', w, .error _) => writes w = [] ∧ c'.txSeq = c.txSeq ∧ c'.rkMsgs = c.rkMsgs ∧
      c'.rkBytes = c.rkBytes ∧ c'.rkSince = c.rkSince
  | (_, w, .ok ()) => ∃ s control, c.session = some s ∧
      writes w = c.dataFrame s body nonce :: control ∧
      (control = [] ∨ control = [s.seal nonce' [ctrlRekey]])

/-- The frame can be sent: the connection is not closed, and there is a sequence number and a header
for it. -/
def CanSend (c : SecureConnection S) (body : Buffer) : Prop :=
  c.closed = false ∧ c.txSeq + 1 < 2 ^ 64 ∧ body.length + 49 < 2 ^ 32

theorem allOrNothing_iff (hS : S.Lawful) (c : SecureConnection S) (body : Buffer)
    (nonce nonce' : S.Nonce) (now : ℕ) :
    c.AllOrNothing body nonce nonce' now ↔ c.session = none ∨ c.CanSend body := by
  cases hs : c.session with
  | none =>
    rw [AllOrNothing, send_of_none hs]
    exact ⟨fun _ ↦ .inl rfl, fun _ ↦ ⟨rfl, rfl, rfl, rfl, rfl⟩⟩
  | some s =>
    refine Iff.trans ?_ (or_iff_right (Option.some_ne_none s)).symm
    rw [AllOrNothing]
    by_cases hseq : c.txSeq + 1 < 2 ^ 64
    · cases hclosed : c.closed with
      | true =>
        have hsend := send_of_closed hS hclosed hs hseq body nonce nonce' now
        generalize c.send body nonce nonce' now = r at hsend
        obtain ⟨c', w, r⟩ := r
        obtain ⟨rfl, rfl⟩ := Prod.mk.inj hsend
        constructor
        · rintro ⟨s', control, hs', hwrites, hcontrol⟩
          exact nomatch hwrites
        · rintro ⟨hopen, -⟩
          exact nomatch hclosed.symm.trans hopen
      | false =>
        by_cases hlen : body.length + 49 < 2 ^ 32
        · obtain ⟨hok, control, hwrites, hcontrol⟩ :=
            send_writes hS hclosed hs hseq hlen nonce nonce' now
          generalize c.send body nonce nonce' now = r at hok hwrites
          obtain ⟨c', w, r⟩ := r
          obtain rfl : r = .ok () := hok
          obtain rfl : w = _ := hwrites
          refine ⟨fun _ ↦ ⟨hclosed, hseq, hlen⟩, fun _ ↦ ⟨s, writes control, hs, rfl, ?_⟩⟩
          obtain rfl | rfl := hcontrol
          · exact .inl rfl
          · exact .inr rfl
        · rw [send_of_long hS hclosed hs hseq hlen]
          refine ⟨fun h ↦ ?_, fun h ↦ absurd h.2.2 hlen⟩
          exact absurd h.2.1 (Nat.succ_ne_self _)
    · rw [send_of_overflow hs (Nat.not_lt.mp hseq)]
      refine ⟨fun h ↦ ?_, fun h ↦ absurd h.2.1 hseq⟩
      exact absurd h.2.1 (Nat.succ_ne_self _)

end SecureConnection

/-! ## Messages that are recorded -/

namespace AttestP2PNode

/-- `sendMessage`, with the sessions themselves: what `send` throws goes to the caller, and the line
is recorded when it returns. -/
def sendMessageOver (s : AttestP2PNode) (conns : ℕ → SecureConnection S)
    (nodeIdHex text : String) (nonce nonce' : S.Nonce) (now : ℕ) :
    List (Effect S) × Except String AttestP2PNode :=
  match s.sessionsByPeer.get? nodeIdHex with
  | none => ([], s.sendMessage nodeIdHex text now)
  | some c =>
    match (conns c).send (chat :: Json.utf8 text) nonce nonce' now with
    | (_, w, .error e) => (w, .error e)
    | (_, w, .ok ()) => (w, s.sendMessage nodeIdHex text now)

/-- The line is recorded only if its DATA frame has been written. -/
def RecordsWritten (s : AttestP2PNode) (conns : ℕ → SecureConnection S)
    (nodeIdHex text : String) (nonce nonce' : S.Nonce) (now : ℕ) : Prop :=
  (∃ s', (s.sendMessageOver conns nodeIdHex text nonce nonce' now).2 = .ok s') →
    ∃ c session control, s.sessionsByPeer.get? nodeIdHex = some c ∧
      (conns c).session = some session ∧
      writes (s.sendMessageOver conns nodeIdHex text nonce nonce' now).1 =
        (conns c).dataFrame session (chat :: Json.utf8 text) nonce :: control

variable {node : AttestP2PNode} {conns : ℕ → SecureConnection S} {k : ℕ} {nodeIdHex text : String}

/-- A session that is found: the message is recorded when `send` returns. -/
theorem sendMessageOver_of_found (hk : node.sessionsByPeer.get? nodeIdHex = some k)
    (nonce nonce' : S.Nonce) (now : ℕ) :
    (node.sendMessageOver conns nodeIdHex text nonce nonce' now).1 =
        ((conns k).send (chat :: Json.utf8 text) nonce nonce' now).2.1 ∧
      ((∃ s', (node.sendMessageOver conns nodeIdHex text nonce nonce' now).2 = .ok s') ↔
        ((conns k).send (chat :: Json.utf8 text) nonce nonce' now).2.2 = .ok ()) := by
  have hrecord : ∃ s', node.sendMessage nodeIdHex text now = .ok s' := by
    rw [sendMessage, hk]
    exact ⟨_, rfl⟩
  rw [sendMessageOver, hk]
  dsimp only
  generalize (conns k).send (chat :: Json.utf8 text) nonce nonce' now = r
  obtain ⟨c', w, e | u⟩ := r
  · refine ⟨rfl, ?_⟩
    constructor
    · rintro ⟨s', hs'⟩
      cases hs'
    · exact fun h ↦ by cases h
  · exact ⟨rfl, fun _ ↦ rfl, fun _ ↦ hrecord⟩

open SecureConnection in
theorem recordsWritten_iff (hS : S.Lawful) (hk : node.sessionsByPeer.get? nodeIdHex = some k)
    (nonce nonce' : S.Nonce) (now : ℕ) :
    node.RecordsWritten conns nodeIdHex text nonce nonce' now ↔
      (conns k).session = none ∨ (conns k).closed = false ∨ 2 ^ 64 ≤ (conns k).txSeq + 1 := by
  obtain ⟨heffects, hrecorded⟩ := @sendMessageOver_of_found S node conns k nodeIdHex text hk nonce
    nonce' now
  rw [RecordsWritten, heffects, hrecorded]
  generalize hbody : chat :: Json.utf8 text = body
  cases hs : (conns k).session with
  | none =>
    rw [send_of_none hs]
    exact ⟨fun _ ↦ .inl rfl, fun _ h ↦ nomatch h⟩
  | some session =>
    refine Iff.trans ?_ (or_iff_right (Option.some_ne_none session)).symm
    by_cases hseq : (conns k).txSeq + 1 < 2 ^ 64
    · cases hclosed : (conns k).closed with
      | true =>
        have hsend := send_of_closed hS hclosed hs hseq body nonce nonce' now
        rw [hsend]
        constructor
        · intro h
          obtain ⟨c, session', control, hc, hs', hwrites⟩ := h rfl
          exact nomatch hwrites
        · rintro (hopen | hover)
          · exact nomatch hopen
          · exact absurd hseq (Nat.not_lt.mpr hover)
      | false =>
        refine ⟨fun _ ↦ .inl rfl, fun _ hok ↦ ?_⟩
        by_cases hlen : body.length + 49 < 2 ^ 32
        · obtain ⟨-, control, hwrites, -⟩ := send_writes hS hclosed hs hseq hlen nonce nonce' now
          rw [hwrites]
          exact ⟨k, session, writes control, hk, hs, rfl⟩
        · rw [send_of_long hS hclosed hs hseq hlen] at hok
          exact nomatch hok
    · rw [send_of_overflow hs (Nat.not_lt.mp hseq)]
      exact ⟨fun _ ↦ .inr (Nat.not_lt.mp hseq), fun _ h ↦ nomatch h⟩

end AttestP2PNode

/-- **`send` is all or nothing**, in any state of a connection, exactly when there is no session or
the frame can be sent; and a message that `sendMessage` records has been written exactly when its
connection has no session, is not closed, or has used up the sequence numbers. -/
theorem send_all_or_nothing {N : Sodium} (hN : N.Lawful) (c : SecureConnection (octets N))
    (body : Buffer) (nonce nonce' : (octets N).Nonce) (now : ℕ) :
    (c.AllOrNothing body nonce nonce' now ↔ c.session = none ∨ c.CanSend body) ∧
      ∀ (node : AttestP2PNode) (conns : ℕ → SecureConnection (octets N)) (k : ℕ)
        (nodeIdHex text : String), node.sessionsByPeer.get? nodeIdHex = some k → conns k = c →
        (node.RecordsWritten conns nodeIdHex text nonce nonce' now ↔
          c.session = none ∨ c.closed = false ∨ 2 ^ 64 ≤ c.txSeq + 1) := by
  refine ⟨SecureConnection.allOrNothing_iff (octets_lawful hN) c body nonce nonce' now, ?_⟩
  rintro node conns k nodeIdHex text hk rfl
  exact AttestP2PNode.recordsWritten_iff (octets_lawful hN) hk nonce nonce' now

/-! ### A message that goes nowhere -/

namespace SampleClosed

open SampleLink (nonce)

/-- The responder of the sample run after CLOSE, before the `close` event of its socket. -/
def ended : SecureConnection (octets sodium) := (before.foldl SessionState.next responder).conn

/-- A node with that session, attached under the identity of the initiator. -/
def node : AttestP2PNode := AttestP2PNode.start.attach SampleLink.idI

theorem sodium_lawful : sodium.Lawful where
  toLawful := SampleLink.sodium_lawful.toLawful
  length_kxPublicKey := SampleLink.sodium_lawful.length_kxPublicKey
  scalarmult_comm := SampleLink.sodium_lawful.scalarmult_comm
  length_encrypt := SampleLink.sodium_lawful.length_encrypt
  decrypt_encrypt pt n key := by
    have hne : SampleLink.encrypt pt n key ≠ close := by
      rw [SampleLink.encrypt]
      split_ifs
      · decide
      · decide
      · decide
      · exact SampleLink.append_zeros_ne (by decide) pt
    exact (if_neg fun h ↦ hne h.2.2).trans (SampleLink.decrypt_encrypt pt n key)

theorem ended_session : ended.session ≠ none := by
  have hsome : ended.session.isSome = true := by decide +kernel
  intro hnone
  rw [hnone] at hsome
  exact nomatch hsome

theorem ended_closed : ended.closed = true := by decide +kernel

theorem node_session : node.sessionsByPeer.get? SampleLink.idI.hex = some 0 :=
  OrderedMap.get?_set_self

end SampleClosed

open SampleClosed SampleLink in
/-- After CLOSE, `send` returns without having written anything, and `sendMessage` records a message
that nobody gets. -/
theorem message_recorded_unsent :
    Machine.Feasible SessionState.enabled SessionState.next responder SampleClosed.before ∧
      ¬ended.AllOrNothing (AttestP2PNode.chat :: Json.utf8 "bonjour") (nonce 1) (nonce 2) 4 ∧
      ¬SampleClosed.node.RecordsWritten (fun _ ↦ ended) idI.hex "bonjour"
        (nonce 1) (nonce 2) 4 := by
  refine ⟨?_, fun h ↦ ?_, fun h ↦ ?_⟩
  · refine ⟨⟨?_, ?_⟩, ⟨?_, ?_⟩, ⟨?_, ?_⟩, trivial⟩
    all_goals decide +kernel
  · obtain hnone | ⟨hopen, -⟩ := (SecureConnection.allOrNothing_iff
      (octets_lawful SampleClosed.sodium_lawful) ended _ _ _ _).mp h
    · exact ended_session hnone
    · exact nomatch ended_closed.symm.trans hopen
  · obtain hnone | hopen | hover := (AttestP2PNode.recordsWritten_iff
      (octets_lawful SampleClosed.sodium_lawful) node_session _ _ _).mp h
    · exact ended_session hnone
    · exact nomatch ended_closed.symm.trans hopen
    · exact absurd hover (by decide +kernel)

namespace SampleClosed

/-- The responder when the handshake is over, and before the CLOSE frame. -/
def opened : SecureConnection (octets sodium) :=
  ((before.take 2).foldl SessionState.next responder).conn

end SampleClosed

open SampleClosed SampleLink in
/-- Before CLOSE the message is written, and then it is recorded. -/
theorem send_all_or_nothing_sample :
    opened.session ≠ none ∧
      opened.AllOrNothing (AttestP2PNode.chat :: Json.utf8 "bonjour") (nonce 1) (nonce 2) 4 ∧
      SampleClosed.node.RecordsWritten (fun _ ↦ opened) idI.hex "bonjour"
        (nonce 1) (nonce 2) 4 := by
  obtain ⟨hsend, hrecords⟩ := send_all_or_nothing SampleClosed.sodium_lawful opened
    (AttestP2PNode.chat :: Json.utf8 "bonjour") (nonce 1) (nonce 2) 4
  have hopen : opened.closed = false := by decide +kernel
  refine ⟨?_, hsend.mpr (.inr ⟨hopen, by decide +kernel, by decide⟩), ?_⟩
  · have hsome : opened.session.isSome = true := by decide +kernel
    exact Option.isSome_iff_ne_none.mp hsome
  · exact (hrecords SampleClosed.node (fun _ ↦ opened) 0 idI.hex "bonjour" node_session rfl).mpr
      (.inr (.inl hopen))

end AttestP2P
