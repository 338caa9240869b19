import AttestP2P.Session.Delivery
import Mathlib.Data.Set.Lattice
import Mathlib.Order.CompletePartialOrder

/-!
# An established session under an active attacker

Two endpoints that hold mirrored keys, and a network in the hands of an attacker: every frame handed
to an endpoint is one that either of them has sealed, or a forgery.

* The attacker also gets the frames that are sealed after an endpoint has closed, which `_write`
  drops (`SecureConnection.reopened`).
* The AEAD is ideal: a frame opens under no key but the one it was sealed with.  A forgery is a
  string that opens under no key of the session.
* Sequence numbers are all that orders DATA frames, and only DATA frames carry one.  That REKEY and
  REKEY_ACK frames can be held back does not matter: they advance a key along the chain of its own
  direction, and no frame of the other direction opens under any key of it.
-/

set_option autoImplicit false

namespace AttestP2P

open Buffer SecureConnection

variable {S : Suite Buffer}

/-! ## What a call does to the keys, and what it seals -/

/-- A key stays as it is or is advanced by one step of the chain. -/
def Steps (S : Suite Buffer) (key key' : S.Key) : Prop := key' = key ∨ key' = deriveRekey S key

/-- The connection has gone from `c` to `c'` with the effects `w`: keys may have advanced, and no
message was emitted. -/
structure Keeps (c c' : SecureConnection S) (w : List (Effect S)) : Prop where
  session : ∀ s, c.session = some s →
    ∃ s', c'.session = some s' ∧ Steps S s.txKey s'.txKey ∧ Steps S s.rxKey s'.rxKey
  txSeq : c'.txSeq = c.txSeq
  rxSeq : c'.rxSeq = c.rxSeq
  silent : messages w = []

/-- A frame that carries no data, sealed under the given key. -/
def Control (key : S.Key) (f : Buffer) : Prop :=
  ∃ nonce pt, f = S.aeadSeal key nonce pt ∧ pt.headD ctrlData ≠ ctrlData

namespace SecureConnection

variable {c : SecureConnection S} {s : SecureSession S}

/-- Nothing but the frames written, if anything: no message is emitted. -/
theorem write_eq_ok {frame : Buffer} {w : List (Effect S)} (h : c.write frame = .ok w) :
    messages w = [] ∧ ∀ f ∈ writes w, f = frame := by
  rw [write] at h
  split at h
  · cases h
    exact ⟨rfl, fun f hf ↦ absurd hf List.not_mem_nil⟩
  · rw [encodeFrame] at h
    split at h
    · cases h
      exact ⟨rfl, fun f hf ↦ List.mem_singleton.mp hf⟩
    · cases h

theorem keeps_of_eq {c' : SecureConnection S} {w : List (Effect S)}
    (hsession : c'.session = c.session) (htx : c'.txSeq = c.txSeq) (hrx : c'.rxSeq = c.rxSeq)
    (hw : messages w = []) : Keeps c c' w :=
  ⟨fun s hs ↦ ⟨s, hsession.trans hs, .inl rfl, .inl rfl⟩, htx, hrx, hw⟩

theorem rekey_spec (hs : c.session = some s) (nonce : S.Nonce) :
    Keeps c (c.rekey nonce).1 (c.rekey nonce).2.1 ∧
      ∀ f ∈ writes (c.rekey nonce).2.1, Control s.txKey f := by
  rw [rekey, hs]
  simp only
  split
  · exact ⟨keeps_of_eq rfl rfl rfl rfl, fun f hf ↦ absurd hf List.not_mem_nil⟩
  · split
    · exact ⟨keeps_of_eq hs.symm rfl rfl rfl, fun f hf ↦ absurd hf List.not_mem_nil⟩
    · next w hw =>
      obtain ⟨hsilent, hwrites⟩ := write_eq_ok hw
      refine ⟨⟨fun t ht ↦ ?_, rfl, rfl, hsilent⟩, fun f hf ↦ ?_⟩
      · obtain rfl := Option.some.inj (hs.symm.trans ht)
        exact ⟨_, rfl, .inr rfl, .inl rfl⟩
      · exact ⟨nonce, [ctrlRekey], hwrites f hf, by decide⟩

theorem maybeAutoRekey_spec (hs : c.session = some s) (nonce : S.Nonce) (now : ℕ) :
    Keeps c (c.maybeAutoRekey nonce now).1 (c.maybeAutoRekey nonce now).2.1 ∧
      ∀ f ∈ writes (c.maybeAutoRekey nonce now).2.1, Control s.txKey f := by
  rcases maybeAutoRekey_eq c nonce now with heq | heq <;> rw [heq]
  · exact ⟨keeps_of_eq rfl rfl rfl rfl, fun f hf ↦ absurd hf List.not_mem_nil⟩
  · exact rekey_spec hs nonce

theorem close_spec (hs : c.session = some s) (nonce : S.Nonce) :
    messages (c.close nonce) = [] ∧ ∀ f ∈ writes (c.close nonce), Control s.txKey f := by
  rw [close, hs]
  split
  · exact ⟨rfl, fun f hf ↦ absurd hf List.not_mem_nil⟩
  · simp only
    split
    · exact ⟨rfl, fun f hf ↦ absurd hf List.not_mem_nil⟩
    · next w hw =>
      obtain ⟨hsilent, hwrites⟩ := write_eq_ok hw
      refine ⟨by rw [messages_append, hsilent]; rfl, fun f hf ↦ ?_⟩
      rw [writes, List.filterMap_append, List.mem_append] at hf
      rcases hf with hf | hf
      · exact ⟨nonce, [ctrlClose], hwrites f hf, by decide⟩
      · cases hf

/-- `send` uses the next sequence number, and seals the body with it if it fits. -/
theorem send_spec (hs : c.session = some s) (body : Buffer) (nonce nonce' : S.Nonce) (now : ℕ) :
    Keeps { c with txSeq := c.txSeq + 1 } (c.send body nonce nonce' now).1
        (c.send body nonce nonce' now).2.1 ∧
      ∀ f ∈ writes (c.send body nonce nonce' now).2.1, Control s.txKey f ∨ c.txSeq + 1 < 2 ^ 64 ∧
        f = S.aeadSeal s.txKey nonce (dataPlaintext (c.txSeq + 1) body) := by
  rw [send, hs]
  simp only
  split
  · exact ⟨keeps_of_eq rfl rfl rfl rfl, fun f hf ↦ absurd hf List.not_mem_nil⟩
  · next hseq =>
    split
    · exact ⟨keeps_of_eq rfl rfl rfl rfl, fun f hf ↦ absurd hf List.not_mem_nil⟩
    · next w hw =>
      obtain ⟨hsilent, hwrites⟩ := write_eq_ok hw
      let c' : SecureConnection S := { c with
        session := some s, txSeq := c.txSeq + 1, rkMsgs := c.rkMsgs + 1,
        rkBytes := c.rkBytes + body.length }
      obtain ⟨hkeeps, hcontrol⟩ : Keeps c' _ _ ∧ _ := maybeAutoRekey_spec rfl nonce' now
      refine ⟨⟨fun t ht ↦ hkeeps.session t ht, hkeeps.txSeq, hkeeps.rxSeq, ?_⟩, fun f hf ↦ ?_⟩
      · rw [messages_append, hsilent]
        exact hkeeps.silent
      · rw [writes, List.filterMap_append, List.mem_append] at hf
        rcases hf with hf | hf
        · exact .inr ⟨not_le.mp hseq, hwrites f hf⟩
        · exact .inl (hcontrol f hf)

theorem fail_spec (c : SecureConnection S) (err : String) :
    (c.fail err).1.session = c.session ∧ (c.fail err).1.txSeq = c.txSeq ∧
      (c.fail err).1.rxSeq = c.rxSeq ∧ messages (c.fail err).2 = [] ∧
      writes (c.fail err).2 = [] := by
  rw [fail]
  split
  · exact ⟨rfl, rfl, rfl, rfl, rfl⟩
  · exact ⟨rfl, rfl, rfl, rfl, rfl⟩

end SecureConnection

/-- The frame is DATA, with a sequence number above all before, and its body is emitted. -/
structure Emits (c : SecureConnection S) (s : SecureSession S) (f : Buffer)
    (c' : SecureConnection S) (w : List (Effect S)) (pt : Buffer) : Prop where
  opens : s.open f = .ok pt
  isData : pt.headD ctrlData = ctrlData
  rising : ∀ n ∈ c.rxSeq, n < pt.readBigUInt64BE 1
  session : c'.session = some s
  txSeq : c'.txSeq = c.txSeq
  rxSeq : c'.rxSeq = some (pt.readBigUInt64BE 1)
  emitted : messages w = [pt.drop 9]

/-- All that a frame can do to a connection with a session. -/
structure Handles (c : SecureConnection S) (s : SecureSession S) (f : Buffer)
    (c' : SecureConnection S) (w : List (Effect S)) : Prop where
  outcome : Keeps c c' w ∨ ∃ pt, Emits c s f c' w pt
  seals : ∀ g ∈ writes w, Control s.txKey g

namespace SecureConnection

variable {c : SecureConnection S} {s : SecureSession S}

theorem handles_of_keeps {f : Buffer} {c' : SecureConnection S} {w : List (Effect S)}
    (h : Keeps c c' w) (hw : writes w = []) : Handles c s f c' w :=
  ⟨.inl h, by simp [hw]⟩

/-- A report and a failure, which end the connection without a message. -/
theorem handles_fail {f : Buffer} {c' : SecureConnection S} (h : Keeps c c' [])
    (type : SessionReport) (err : String) :
    Handles c s f (c'.fail err).1 (.report type :: (c'.fail err).2) := by
  obtain ⟨hsession, htx, hrx, hsilent, hwrites⟩ := fail_spec c' err
  exact handles_of_keeps ⟨fun t ht ↦ by rw [hsession]; exact h.session t ht, htx.trans h.txSeq,
    hrx.trans h.rxSeq, hsilent⟩ hwrites

/-- When a call throws, it has had no effect yet. -/
def Harmless (c : SecureConnection S) (r : Call S) : Prop :=
  ∀ e, r.2.2 = .error e → r.2.1 = [] ∧ Keeps c r.1 []

theorem handleData_handles (hs : c.session = some s) {f pt : Buffer} (hopen : s.open f = .ok pt)
    (htype : pt.headD ctrlData = ctrlData) (now : ℕ) :
    Handles c s f (c.handleData pt now).1 (c.handleData pt now).2.1 ∧
      Harmless c (c.handleData pt now) := by
  obtain ⟨start, count, hc⟩ := msgAllow_eq c now
  have hkeeps : Keeps c (c.msgAllow now).1 [] := by
    rw [hc]
    exact keeps_of_eq rfl rfl rfl rfl
  rw [handleData]
  split
  · exact ⟨handles_of_keeps (keeps_of_eq rfl rfl rfl rfl) rfl,
      fun e _ ↦ ⟨rfl, keeps_of_eq rfl rfl rfl rfl⟩⟩
  · simp only
    split
    · exact ⟨handles_fail hkeeps _ _, fun e he ↦ by cases he⟩
    · split
      · exact ⟨handles_fail hkeeps _ _, fun e he ↦ by cases he⟩
      · next hfresh =>
        refine ⟨⟨.inr ⟨pt, hopen, htype, fun n hn ↦ ?_, ?_, ?_, rfl, rfl⟩, ?_⟩,
          fun e he ↦ by cases he⟩
        · have hrx : (c.msgAllow now).1.rxSeq = some n := by
            rw [hc]
            exact hn
          simpa [hrx] using hfresh
        · rw [hc]
          exact hs
        · rw [hc]
        · exact fun g hg ↦ absurd hg List.not_mem_nil

theorem handleTransport_handles (hs : c.session = some s) (f : Buffer) (nonce : S.Nonce)
    (now : ℕ) :
    Handles c s f (c.handleTransport s f nonce now).1 (c.handleTransport s f nonce now).2.1 ∧
      Harmless c (c.handleTransport s f nonce now) := by
  rw [handleTransport]
  split
  · exact ⟨handles_of_keeps (keeps_of_eq rfl rfl rfl rfl) rfl,
      fun e _ ↦ ⟨rfl, keeps_of_eq rfl rfl rfl rfl⟩⟩
  · next pt hopen =>
    simp only
    split
    · next htype => exact handleData_handles hs hopen htype now
    · split
      · -- REKEY
        have hsession : ∀ t, c.session = some t → ∃ s', some s.rekeyRx = some s' ∧
            Steps S t.txKey s'.txKey ∧ Steps S t.rxKey s'.rxKey := by
          intro t ht
          obtain rfl := Option.some.inj (hs.symm.trans ht)
          exact ⟨_, rfl, .inl rfl, .inr rfl⟩
        split
        · exact ⟨handles_of_keeps ⟨hsession, rfl, rfl, rfl⟩ rfl,
            fun e _ ↦ ⟨rfl, hsession, rfl, rfl, rfl⟩⟩
        · next w hw =>
          obtain ⟨hsilent, hwrites⟩ := write_eq_ok hw
          refine ⟨⟨.inl ⟨fun t ht ↦ ?_, rfl, rfl, by rw [messages_append, hsilent]; rfl⟩,
            fun g hg ↦ ?_⟩, fun e he ↦ by cases he⟩
          · obtain rfl := Option.some.inj (hs.symm.trans ht)
            exact ⟨_, rfl, .inr rfl, .inr rfl⟩
          · rw [writes, List.filterMap_append, List.mem_append] at hg
            rcases hg with hg | hg
            · exact ⟨nonce, [ctrlRekeyAck], hwrites g hg, by decide⟩
            · cases hg
      · split
        · -- REKEY_ACK
          refine ⟨handles_of_keeps ⟨fun t ht ↦ ?_, rfl, rfl, rfl⟩ rfl, fun e he ↦ by cases he⟩
          obtain rfl := Option.some.inj (hs.symm.trans ht)
          exact ⟨_, rfl, .inl rfl, .inr rfl⟩
        · split
          · exact ⟨handles_of_keeps (keeps_of_eq rfl rfl rfl rfl) rfl, fun e he ↦ by cases he⟩
          · exact ⟨handles_of_keeps (keeps_of_eq rfl rfl rfl rfl) rfl,
              fun e _ ↦ ⟨rfl, keeps_of_eq rfl rfl rfl rfl⟩⟩

theorem onFrame_handles (hs : c.session = some s) (f : Buffer) (allowFrame : Bool)
    (nonce : S.Nonce) (now : ℕ) :
    Handles c s f (c.onFrame f allowFrame nonce now).1 (c.onFrame f allowFrame nonce now).2 := by
  rw [onFrame]
  split
  · exact handles_fail (keeps_of_eq rfl rfl rfl rfl) _ _
  · rw [handleFrame_of_session hs]
    obtain ⟨hhandles, hharmless⟩ := handleTransport_handles hs f nonce now
    generalize c.handleTransport s f nonce now = r at hhandles hharmless
    obtain ⟨c', w, r⟩ := r
    cases r with
    | ok _ => exact hhandles
    | error e =>
      obtain ⟨hw, hkeeps⟩ := hharmless e rfl
      obtain rfl : w = [] := hw
      exact handles_fail hkeeps _ e

end SecureConnection

/-! ## The network -/

/-- One endpoint of a session, with all that it has ever sealed and been asked to send. -/
structure Peer (S : Suite Buffer) where
  conn : SecureConnection S
  /-- The frames it has sealed. -/
  log : List Buffer
  /-- The bodies passed to `send`. -/
  sent : List Buffer
  /-- What the connection has done to the outside. -/
  effects : List (Effect S)

/-- The two endpoints of a session, each with what it has sent and emitted. -/
abbrev Duplex (S : Suite Buffer) := Bool → Peer S

/-- The connection as if it were not closed. -/
def SecureConnection.reopened (c : SecureConnection S) : SecureConnection S :=
  { c with closed := false }

/-- What can happen to a session: calls and timers at either endpoint, and frames of any origin,
which the attacker delivers. -/
inductive DuplexEvent (S : Suite Buffer)
  | send (i : Bool) (body : Buffer) (nonce nonce' : S.Nonce) (now : ℕ)
  | rekey (i : Bool) (nonce : S.Nonce)
  | tick (i : Bool) (nonce : S.Nonce) (now : ℕ)
  | close (i : Bool) (nonce : S.Nonce)
  | frame (i : Bool) (f : Buffer) (allowFrame : Bool) (nonce : S.Nonce) (now : ℕ)

/-- The keys of the direction that starts with `key`. -/
def Chain (S : Suite Buffer) (key : S.Key) : Set S.Key := { k | ∃ n, k = (deriveRekey S)^[n] key }

/-- The string opens under no key of the session; endpoint `i` seals under `keys i` first. -/
def Forged (keys : Bool → S.Key) (f : Buffer) : Prop :=
  ∀ i, ∀ k ∈ Chain S (keys i), ∀ pt, S.aeadOpen k f ≠ .ok pt

namespace Duplex

/-- A method of the connection of endpoint `i` is called. -/
def call (d : Duplex S) (i : Bool) (m : SecureConnection S → SecureConnection S × List (Effect S))
    (bodies : List Buffer) : Duplex S :=
  Function.update d i {
    conn := (m (d i).conn).1
    log := (d i).log ++ writes (m (d i).conn.reopened).2
    sent := (d i).sent ++ bodies
    effects := (d i).effects ++ (m (d i).conn).2 }

def next (d : Duplex S) : DuplexEvent S → Duplex S
  | .send i body nonce nonce' now =>
    d.call i (fun c ↦ ((c.send body nonce nonce' now).1, (c.send body nonce nonce' now).2.1)) [body]
  | .rekey i nonce => d.call i (fun c ↦ ((c.rekey nonce).1, (c.rekey nonce).2.1)) []
  | .tick i nonce now =>
    d.call i (fun c ↦ ((c.maybeAutoRekey nonce now).1, (c.maybeAutoRekey nonce now).2.1)) []
  | .close i nonce => d.call i (fun c ↦ (c, c.close nonce)) []
  | .frame i f allowFrame nonce now => d.call i (fun c ↦ c.onFrame f allowFrame nonce now) []

/-- A frame handed to an endpoint is one that an endpoint has sealed, or a forgery. -/
def enabled (keys : Bool → S.Key) (d : Duplex S) : DuplexEvent S → Prop
  | .frame _ f _ _ _ => (∃ j, f ∈ (d j).log) ∨ Forged keys f
  | _ => True

/-- The handshake has just left mirrored keys, and nothing has been sent under them. -/
structure Start (keys : Bool → S.Key) (d : Duplex S) : Prop where
  session : ∀ i, ∃ s, (d i).conn.session = some s ∧ s.txKey = keys i ∧ s.rxKey = keys !i
  txSeq : ∀ i, (d i).conn.txSeq = 0
  rxSeq : ∀ i, (d i).conn.rxSeq = none
  unused : ∀ i, (d i).log = [] ∧ (d i).sent = [] ∧ (d i).effects = []

end Duplex

/-- The runs of a session whose two directions start with `keys`. -/
def duplex (keys : Bool → S.Key) : Machine (Duplex S) (DuplexEvent S) :=
  .ofFun (Duplex.Start keys) (Duplex.enabled keys) Duplex.next

/-- The AEAD and the key chains are ideal: a frame opens under the key it was sealed with only, and
the two directions have no key in common. -/
structure Suite.Ideal (S : Suite Buffer) (keys : Bool → S.Key) : Prop where
  opens : ∀ {key key' : S.Key} {nonce : S.Nonce} {pt pt' : Buffer},
    S.aeadOpen key' (S.aeadSeal key nonce pt) = .ok pt' → key' = key ∧ pt' = pt
  apart : Disjoint (Chain S (keys true)) (Chain S (keys false))

theorem Suite.Ideal.ne {keys : Bool → S.Key} (h : S.Ideal keys) {i : Bool} {k : S.Key}
    (hk : k ∈ Chain S (keys i)) : k ∉ Chain S (keys !i) := by
  intro hk'
  cases i with
  | true => exact Set.disjoint_left.mp h.apart hk hk'
  | false => exact Set.disjoint_left.mp h.apart hk' hk

theorem Steps.chain {key k k' : S.Key} (h : Steps S k k') (hk : k ∈ Chain S key) :
    k' ∈ Chain S key := by
  obtain ⟨n, rfl⟩ := hk
  rcases h with rfl | rfl
  · exact ⟨n, rfl⟩
  · exact ⟨n + 1, (Function.iterate_succ_apply' _ _ _).symm⟩

/-- What an advance keeps, every key of a chain has. -/
theorem chain_induction {P : S.Key → Prop} (hP : ∀ k, P k → P (deriveRekey S k)) {key k : S.Key}
    (hk : k ∈ Chain S key) (h : P key) : P k := by
  obtain ⟨n, rfl⟩ := hk
  induction n with
  | zero => exact h
  | succ n ih =>
    rw [Function.iterate_succ_apply']
    exact hP _ ih

/-! ## What the attacker can do -/

/-- The frame was sealed by an endpoint that sends under the keys that follow `key` and has sent the
bodies `sent`: if it is DATA, it is one of them, under its own sequence number. -/
def Genuine (key : S.Key) (sent : List Buffer) (f : Buffer) : Prop :=
  ∃ k ∈ Chain S key, ∃ nonce pt, f = S.aeadSeal k nonce pt ∧
    (pt.headD ctrlData = ctrlData → ∃ n body, n + 1 < 2 ^ 64 ∧ sent[n]? = some body ∧
      pt = dataPlaintext (n + 1) body)

theorem Genuine.append {key : S.Key} {sent : List Buffer} {f : Buffer} (h : Genuine key sent f)
    (bodies : List Buffer) : Genuine key (sent ++ bodies) f := by
  obtain ⟨k, hk, nonce, pt, hf, hdata⟩ := h
  refine ⟨k, hk, nonce, pt, hf, fun htype ↦ ?_⟩
  obtain ⟨n, body, hn, hsent, hpt⟩ := hdata htype
  have hlt := (List.getElem?_eq_some_iff.mp hsent).1
  exact ⟨n, body, hn, by rw [List.getElem?_append_left hlt, hsent], hpt⟩

theorem Control.genuine {key k : S.Key} {f : Buffer} (h : Control k f) (hk : k ∈ Chain S key)
    (sent : List Buffer) : Genuine key sent f := by
  obtain ⟨nonce, pt, hf, htype⟩ := h
  exact ⟨k, hk, nonce, pt, hf, fun h ↦ absurd h htype⟩

/-- What holds of one endpoint `x` in every state, `y` being its peer. -/
structure Guarded (keyX keyY : S.Key) (x y : Peer S) : Prop where
  session : ∃ s, x.conn.session = some s ∧ s.txKey ∈ Chain S keyX ∧ s.rxKey ∈ Chain S keyY
  txSeq : x.conn.txSeq = x.sent.length
  log : ∀ f ∈ x.log, Genuine keyX x.sent f
  /-- Everything emitted was sent before the last sequence number received. -/
  emitted : (messages x.effects).Sublist (y.sent.take (x.conn.rxSeq.getD 0))

section
variable {keyX keyY : S.Key} {x y : Peer S} {new : List Buffer} {c' : SecureConnection S}
  {w : List (Effect S)}

/-- A call that emits no message keeps the guard, with the frames that it adds to the log. -/
theorem Guarded.keeps (h : Guarded keyX keyY x y) (bodies : List Buffer) {c : SecureConnection S}
    (hkeeps : Keeps c c' w) (hsession : c.session = x.conn.session) (hrx : c.rxSeq = x.conn.rxSeq)
    (htx : c.txSeq = x.conn.txSeq + bodies.length)
    (hnew : ∀ f ∈ new, Genuine keyX (x.sent ++ bodies) f) :
    Guarded keyX keyY ⟨c', x.log ++ new, x.sent ++ bodies, x.effects ++ w⟩ y := by
  obtain ⟨s, hs, hstx, hsrx⟩ := h.session
  obtain ⟨s', hs', htx', hrx'⟩ := hkeeps.session s (hsession.trans hs)
  refine ⟨⟨s', hs', htx'.chain hstx, hrx'.chain hsrx⟩, ?_, fun f hf ↦ ?_, ?_⟩
  · show c'.txSeq = (x.sent ++ bodies).length
    rw [hkeeps.txSeq, htx, h.txSeq, List.length_append]
  · rcases List.mem_append.mp hf with hf | hf
    · exact (h.log f hf).append bodies
    · exact hnew f hf
  · show (messages (x.effects ++ w)).Sublist (y.sent.take (c'.rxSeq.getD 0))
    rw [messages_append, hkeeps.silent, List.append_nil, hkeeps.rxSeq, hrx]
    exact h.emitted

/-- The peer sends, which leaves the guard of this endpoint as it is. -/
theorem Guarded.peer (h : Guarded keyX keyY x y) {bodies : List Buffer} : Guarded keyX keyY x
    ⟨c', y.log ++ new, y.sent ++ bodies, y.effects ++ w⟩ := by
  refine ⟨h.session, h.txSeq, h.log, h.emitted.trans ?_⟩
  show (y.sent.take _).Sublist ((y.sent ++ bodies).take _)
  rw [List.take_append]
  exact List.sublist_append_left _ _

/-- A genuine frame of the peer is DATA with a sequence number above all before: the body is the one
sent under that number, and it was sent after all that has been emitted. -/
theorem Guarded.emits {keys : Bool → S.Key} (hS : S.Ideal keys) {i : Bool}
    (h : Guarded (keys i) (keys !i) x y) {s : SecureSession S} (hs : x.conn.session = some s)
    {f pt : Buffer} (hf : Genuine (keys i) x.sent f ∨ Genuine (keys !i) y.sent f ∨ Forged keys f)
    (hemits : Emits x.conn s f c' w pt)
    (hnew : ∀ g ∈ new, Genuine (keys i) x.sent g) :
    Guarded (keys i) (keys !i) ⟨c', x.log ++ new, x.sent, x.effects ++ w⟩ y := by
  obtain ⟨t, ht, htx, hrx⟩ := h.session
  obtain rfl := Option.some.inj (hs.symm.trans ht)
  have hopen : S.aeadOpen s.rxKey f = .ok pt := hemits.opens
  rcases hf with ⟨k, hk, nonce, pt₀, rfl, -⟩ | ⟨k, hk, nonce, pt₀, rfl, hdata⟩ | hforged
  · obtain ⟨hkey, -⟩ := hS.opens hopen
    exact absurd hrx (hS.ne (hkey ▸ hk))
  · obtain ⟨-, rfl⟩ := hS.opens hopen
    obtain ⟨n, body, hn, hsent, rfl⟩ := hdata hemits.isData
    have hseq := readBigUInt64BE_dataPlaintext body hn
    have hbefore : x.conn.rxSeq.getD 0 ≤ n := by
      cases hrxSeq : x.conn.rxSeq with
      | none => exact Nat.zero_le n
      | some m =>
        have hlt := hemits.rising m hrxSeq
        rw [hseq] at hlt
        exact Nat.lt_succ_iff.mp hlt
    refine ⟨⟨s, hemits.session, htx, hrx⟩, hemits.txSeq.trans h.txSeq, fun g hg ↦ ?_, ?_⟩
    · rcases List.mem_append.mp hg with hg | hg
      · exact h.log g hg
      · exact hnew g hg
    · show (messages (x.effects ++ w)).Sublist (y.sent.take (c'.rxSeq.getD 0))
      rw [messages_append, hemits.emitted, drop_dataPlaintext, hemits.rxSeq, hseq,
        Option.getD_some, List.take_add_one, hsent]
      exact (h.emitted.trans (List.take_prefix_take_left hbefore).sublist).append_right [body]
  · exact absurd hopen (hforged (!i) s.rxKey hrx pt)

end

/-- Both endpoints are guarded, each against whatever is delivered to it. -/
def Duplex.Inv (keys : Bool → S.Key) (d : Duplex S) : Prop :=
  ∀ i, Guarded (keys i) (keys !i) (d i) (d !i)

namespace Duplex.Inv

variable {keys : Bool → S.Key} {d : Duplex S}

/-- A call only concerns the endpoint it is made at. -/
theorem call (h : d.Inv keys) {i : Bool}
    {m : SecureConnection S → SecureConnection S × List (Effect S)} {bodies : List Buffer}
    (hi : Guarded (keys i) (keys !i)
      ⟨(m (d i).conn).1, (d i).log ++ writes (m (d i).conn.reopened).2, (d i).sent ++ bodies,
        (d i).effects ++ (m (d i).conn).2⟩ (d !i)) :
    (d.call i m bodies).Inv keys := by
  have hnot : d.call i m bodies (!i) = d !i := Function.update_of_ne (Bool.not_ne_self i) _ d
  refine forall_bool_of i ?_ ?_
  · rw [hnot, Duplex.call, Function.update_self]
    exact hi
  · rw [hnot, Bool.not_not, Duplex.call, Function.update_self]
    have hpeer := h !i
    rw [Bool.not_not] at hpeer
    exact hpeer.peer

/-- A call that seals control frames only adds nothing that the peer takes for a message. -/
theorem control (h : d.Inv keys) {i : Bool}
    {m : SecureConnection S → SecureConnection S × List (Effect S)}
    (hm : ∀ c s, c.session = some s →
      Keeps c (m c).1 (m c).2 ∧ ∀ f ∈ writes (m c).2, Control s.txKey f) :
    (d.call i m []).Inv keys := by
  obtain ⟨s, hs, htx, -⟩ := (h i).session
  refine h.call ((h i).keeps [] (hm _ s hs).1 rfl rfl rfl fun f hf ↦ ?_)
  exact ((hm (d i).conn.reopened s hs).2 f hf).genuine htx _

theorem next (hS : S.Ideal keys) (h : d.Inv keys) {e : DuplexEvent S}
    (he : Duplex.enabled keys d e) : (d.next e).Inv keys := by
  cases e with
  | send i body nonce nonce' now =>
    obtain ⟨s, hs, htx, -⟩ := (h i).session
    obtain ⟨hkeeps, -⟩ := send_spec hs body nonce nonce' now
    obtain ⟨-, hseals⟩ := send_spec (c := (d i).conn.reopened) hs body nonce nonce' now
    have hlen : (d i).conn.reopened.txSeq = (d i).sent.length := (h i).txSeq
    have hnew : ∀ f ∈ writes ((d i).conn.reopened.send body nonce nonce' now).2.1,
        Genuine (keys i) ((d i).sent ++ [body]) f := by
      intro f hf
      rcases hseals f hf with hcontrol | ⟨hseq, rfl⟩
      · exact hcontrol.genuine htx _
      · rw [hlen] at hseq ⊢
        refine ⟨_, htx, nonce, _, rfl, fun _ ↦ ⟨_, body, hseq, ?_, rfl⟩⟩
        rw [List.getElem?_append_right le_rfl, Nat.sub_self]
        rfl
    exact h.call
      (m := fun c ↦ ((c.send body nonce nonce' now).1, (c.send body nonce nonce' now).2.1))
      ((h i).keeps [body] hkeeps rfl rfl rfl hnew)
  | rekey i nonce =>
    exact h.control (m := fun c ↦ ((c.rekey nonce).1, (c.rekey nonce).2.1))
      fun c s hs ↦ rekey_spec hs nonce
  | tick i nonce now =>
    exact h.control
      (m := fun c ↦ ((c.maybeAutoRekey nonce now).1, (c.maybeAutoRekey nonce now).2.1))
      fun c s hs ↦ maybeAutoRekey_spec hs nonce now
  | close i nonce =>
    refine h.control (m := fun c ↦ (c, c.close nonce)) fun c s hs ↦ ?_
    obtain ⟨hsilent, hwrites⟩ := close_spec hs nonce
    exact ⟨keeps_of_eq rfl rfl rfl hsilent, hwrites⟩
  | frame i f allowFrame nonce now =>
    obtain ⟨s, hs, htx, -⟩ := (h i).session
    have hseals := (onFrame_handles (c := (d i).conn.reopened) hs f allowFrame nonce now).seals
    have hnew : ∀ g ∈ writes ((d i).conn.reopened.onFrame f allowFrame nonce now).2,
        Genuine (keys i) (d i).sent g := fun g hg ↦ (hseals g hg).genuine htx _
    refine h.call (m := fun c ↦ c.onFrame f allowFrame nonce now) ?_
    rcases (onFrame_handles hs f allowFrame nonce now).outcome with hkeeps | ⟨pt, hemits⟩
    · exact (h i).keeps [] hkeeps rfl rfl rfl fun g hg ↦ (hnew g hg).append []
    · rw [List.append_nil]
      refine (h i).emits hS hs ?_ hemits hnew
      rcases he with ⟨j, hj⟩ | hforged
      · by_cases hji : j = i
        · rw [hji] at hj
          exact .inl ((h i).log f hj)
        · rw [Bool.eq_not_of_ne hji] at hj
          exact .inr (.inl ((h !i).log f hj))
      · exact .inr (.inr hforged)

theorem of_start (h : Duplex.Start keys d) : d.Inv keys := by
  intro i
  obtain ⟨s, hs, htx, hrx⟩ := h.session i
  obtain ⟨hlog, hsent, heffects⟩ := h.unused i
  refine ⟨⟨s, hs, ⟨0, htx⟩, ⟨0, hrx⟩⟩, by rw [h.txSeq, hsent]; rfl, fun f hf ↦ ?_, ?_⟩
  · rw [hlog] at hf
    cases hf
  · rw [heffects]
    exact List.nil_sublist _

end Duplex.Inv

/-- **No replay.**  Whatever frames of the session the attacker hands to an endpoint, repeats, holds
back or reflects, and whatever it forges, the bodies the endpoint emits are a subsequence of those
passed to `send` at the other. -/
theorem no_replay {keys : Bool → S.Key} (hS : S.Ideal keys) {d : Duplex S}
    (h : (duplex keys).Reachable d) (i : Bool) :
    (messages (d i).effects).Sublist (d !i).sent := by
  have hinv : d.Inv keys := by
    refine Machine.Reachable.invariant (I := fun d ↦ d.Inv keys) (fun d hd ↦ .of_start hd) ?_ h
    rintro d e d' - hd ⟨henabled, rfl⟩
    exact hd.next hS henabled
  exact (hinv i).emitted.trans (List.take_sublist _ _)

/-! ### A replay, a reflection and a forgery -/

namespace SampleDuplex

open SampleLink (nonce keyI keyR keyI' keyR' data)

/-- An injective encoding of a key, no value of which is the beginning of another. -/
def tag (key : Buffer) : Buffer := List.replicate key.length 1 ++ 0 :: key

theorem tag_append_inj {key key' x y : Buffer} (h : tag key ++ x = tag key' ++ y) :
    key = key' ∧ x = y := by
  have hcount : ∀ (a b : ℕ) (u v : Buffer),
      List.replicate a 1 ++ 0 :: u = List.replicate b 1 ++ 0 :: v → a = b ∧ u = v := by
    intro a
    induction a with
    | zero =>
      intro b u v huv
      cases b with
      | zero => exact ⟨rfl, (List.cons.inj huv).2⟩
      | succ b => exact absurd (List.cons.inj huv).1 (by decide)
    | succ a ih =>
      intro b u v huv
      cases b with
      | zero => exact absurd (List.cons.inj huv).1 (by decide)
      | succ b =>
        obtain ⟨rfl, rfl⟩ := ih b u v (List.cons.inj huv).2
        exact ⟨rfl, rfl⟩
  rw [tag, tag, List.append_assoc, List.append_assoc, List.cons_append, List.cons_append] at h
  obtain ⟨hlen, hrest⟩ := hcount _ _ _ _ h
  exact List.append_inj hrest hlen

/-- "hi" is encrypted as it really is; anything else shows its key. -/
def encrypt (pt n key : Buffer) : Buffer :=
  if n = (nonce 1).1 ∧ key = keyI ∧ pt = dataPlaintext 1 [104, 105] then data else tag key ++ pt

def decrypt (c n key : Buffer) : Except String Buffer :=
  if n = (nonce 1).1 ∧ c = data then
    if key = keyI then .ok (dataPlaintext 1 [104, 105]) else .error "decrypt"
  else if c.take (tag key).length = tag key then .ok (c.drop (tag key).length)
  else .error "decrypt"

def sodium : Sodium := { SampleLink.sodium with
  hkdfSync := fun key salt info ↦
    if salt = hkdfSalt then if info = "AttestP2P I->R" then keyI else keyR
    else if key = keyI then keyI' else if key = keyR then keyR' else 0 :: key
  encrypt := encrypt
  decrypt := decrypt }

def keys (i : Bool) : Buffer := if i then keyI else keyR

theorem decrypt_encrypt_inj {pt n key key' pt' : Buffer}
    (h : decrypt (encrypt pt n key) n key' = .ok pt') : key' = key ∧ pt' = pt := by
  rw [encrypt] at h
  split_ifs at h with henc
  · obtain ⟨rfl, rfl, rfl⟩ := henc
    rw [decrypt, if_pos ⟨rfl, rfl⟩] at h
    split_ifs at h with hkey
    exact ⟨hkey, (Except.ok.inj h).symm⟩
  · have hdata : tag key ++ pt ≠ data := by
      intro heq
      have hhead := congrArg List.head? heq
      cases key with
      | nil =>
        exact absurd (Option.some.inj (show some (0 : UInt8) = some 81 from hhead)) (by decide)
      | cons b key =>
        exact absurd (Option.some.inj (show some (1 : UInt8) = some 81 from hhead)) (by decide)
    rw [decrypt, if_neg fun h ↦ hdata h.2] at h
    split_ifs at h with htag
    obtain rfl := Except.ok.inj h
    have hsplit := List.take_append_drop (tag key').length (tag key ++ pt)
    rw [htag] at hsplit
    obtain ⟨hkey, hpt⟩ := tag_append_inj hsplit
    exact ⟨hkey, hpt⟩

/-- The last byte of a key tells its direction, in the sample. -/
def Last (k : Buffer) (b b' : UInt8) : Prop := k.getLast? = some b ∨ k.getLast? = some b'

theorem last_rekey {k : Buffer} {b b' : UInt8} (h : Last k b b')
    (hI : Last keyI b b' → Last keyI' b b') (hR : Last keyR b b' → Last keyR' b b') :
    Last (deriveRekey (octets sodium) k) b b' := by
  show Last (if k = keyI then keyI' else if k = keyR then keyR' else 0 :: k) b b'
  split_ifs with hkI hkR
  · exact hI (hkI ▸ h)
  · exact hR (hkR ▸ h)
  · cases k with
    | nil => simp [Last] at h
    | cons c k => simpa [Last, List.getLast?_cons_cons] using h

theorem ideal : (octets sodium).Ideal keys where
  opens {key key' n pt pt'} h := by
    have hdecrypt : decrypt (encrypt pt n.1 key) n.1 key' = .ok pt' :=
      (sodium.open_seal n.2 key key' pt).symm.trans h
    exact decrypt_encrypt_inj hdecrypt
  apart := by
    rw [Set.disjoint_left]
    intro k hk hk'
    have hI : Last k 91 12 := chain_induction (P := fun k ↦ Last k 91 12) (fun k h ↦
      last_rekey h (fun _ ↦ .inr rfl) fun h ↦ absurd h (by unfold Last; decide)) hk (.inl rfl)
    have hR : Last k 154 1 := chain_induction (P := fun k ↦ Last k 154 1) (fun k h ↦
      last_rekey h (fun h ↦ absurd h (by unfold Last; decide)) fun _ ↦ .inr rfl) hk' (.inl rfl)
    rcases hI with hI | hI <;> rcases hR with hR | hR <;>
      exact absurd (Option.some.inj (hI.symm.trans hR)) (by decide)

def start : Duplex (octets sodium) := fun i ↦ {
  conn := { SecureConnection.new (.new (octets sodium) i i i) {} 0 with
    session := some
      { txKey := keys i, rxKey := keys !i, peerId := (octets sodium).getPublicKey (!i) } }
  log := []
  sent := []
  effects := [] }

/-- The DATA frame of "hi", with the nonce it was sealed with in front. -/
def frame : Buffer := (nonce 1).1 ++ data

/-- The frame is reflected, delivered and replayed; a forgery follows. -/
def events : List (DuplexEvent (octets sodium)) :=
  [.send true [104, 105] (nonce 1) (nonce 0) 1, .frame true frame true (nonce 0) 2,
    .frame false frame true (nonce 0) 3, .frame false frame true (nonce 0) 4,
    .frame false [1, 2, 3] true (nonce 0) 5]

def outcome : Duplex (octets sodium) := events.foldl Duplex.next start

theorem feasible :
    Machine.Feasible (Duplex.enabled (S := octets sodium) keys) Duplex.next start events := by
  refine ⟨trivial, .inl ⟨true, ?_⟩, .inl ⟨true, ?_⟩, .inl ⟨true, ?_⟩, .inr fun i k _ pt h ↦ ?_,
    trivial⟩
  · decide +kernel
  · decide +kernel
  · decide +kernel
  · cases (show (Except.error _ : Except String Buffer) = .ok pt from h)

theorem outcome_reachable : (duplex (S := octets sodium) keys).Reachable outcome := by
  refine ⟨start, events, ⟨fun i ↦ ⟨_, rfl, rfl, rfl⟩, fun i ↦ rfl, fun i ↦ rfl,
    fun i ↦ ⟨rfl, rfl, rfl⟩⟩, ?_⟩
  exact Machine.run_foldl (M := duplex (S := octets sodium) keys) (fun _ _ h ↦ ⟨h, rfl⟩) feasible

end SampleDuplex

open SampleDuplex in
theorem no_replay_sample :
    messages (outcome false).effects = [[104, 105]] ∧ (outcome false).conn.closed = true ∧
      (messages (outcome false).effects).Sublist (outcome true).sent :=
  ⟨by decide +kernel, by decide +kernel, no_replay ideal outcome_reachable false⟩

end AttestP2P
