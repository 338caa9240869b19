import AttestP2P.Session.AntiReplay
import AttestP2P.Session.Delivery

/-!
# Who is at the other end

What a frame makes of a connection that is still open afterwards, as its listeners see it, and who
two honest endpoints take each other for.

* `frame_stimuli`: a frame tells the listeners that the session is there, or of a message, or of
  nothing.
* `Linked` adds to `Live` that each endpoint knows the other one by its public key, and that the
  initiator has its session first.  It has a case for each stage of the handshake.
* `linked_of_reachable` is the induction.

Between honest endpoints a frame is either one of the handshake or one of a session that is there
on both sides.  The first kind is the longer part of the module: MSG1 comes to a responder that has
said nothing yet, MSG2 to the initiator it answers, MSG3 to the responder that sent MSG2
(`Linked.of_message1` to `Linked.of_message3`), and each of them carries the identity that is
recorded.  Once both have their sessions, identities do not change any more.
-/

set_option autoImplicit false

namespace AttestP2P

open Buffer

variable {S : Suite Buffer}

/-! ## What listeners are told -/

/-- What the listeners of a connection are told: that there is a session, with the identity that was
proved, or that a message has come. -/
inductive Told (S : Suite Buffer) where
  | secure (peerId : S.Ident)
  | message (body : Buffer)

/-- The event of an effect, if it is one that tells listeners of a peer or a message. -/
def Effect.told? : Effect S → Option (Told S)
  | .secure peerId => some (.secure peerId)
  | .message body => some (.message body)
  | _ => none

def Told.body? : Told S → Option Buffer
  | .message body => some body
  | _ => none

/-- What listeners are told by these effects, in order. -/
def told (w : List (Effect S)) : List (Told S) := w.filterMap Effect.told?

theorem told_append (w w' : List (Effect S)) : told (w ++ w') = told w ++ told w' :=
  List.filterMap_append

theorem messages_eq (w : List (Effect S)) : messages w = (told w).filterMap Told.body? := by
  rw [messages, told, List.filterMap_filterMap]
  congr 1
  funext e
  cases e <;> rfl

namespace SecureConnection

variable {c : SecureConnection S} {s : SecureSession S}

theorem told_write {frame : Buffer} {w : List (Effect S)} (h : c.write frame = .ok w) :
    told w = [] := by
  rw [write] at h
  split at h
  · obtain rfl := Except.ok.inj h
    rfl
  · cases hencode : encodeFrame frame with
    | error e =>
      rw [hencode] at h
      cases h
    | ok bytes =>
      rw [hencode] at h
      obtain rfl := Except.ok.inj h
      rfl

theorem told_replyEffects {frames : List Buffer} {w : List (Effect S)}
    (h : c.replyEffects frames = .ok w) :
    told w = c.session.elim [] fun s ↦ [.secure s.peerId] := by
  induction frames generalizing w with
  | nil =>
    obtain rfl := Except.ok.inj h
    cases c.session with
    | none => rfl
    | some s => rfl
  | cons frame frames ih =>
    rw [replyEffects] at h
    split at h
    · cases h
    · next w₁ hwrite =>
      cases hrest : c.replyEffects frames with
      | error e =>
        rw [hrest] at h
        cases h
      | ok w₂ =>
        rw [hrest] at h
        obtain rfl := Except.ok.inj h
        rw [told_append, told_write hwrite, ih hrest, List.nil_append]

theorem writes_replyEffects (hopen : c.closed = false) {frames : List Buffer}
    {w : List (Effect S)} (h : c.replyEffects frames = .ok w) : writes w = frames := by
  induction frames generalizing w with
  | nil =>
    obtain rfl := Except.ok.inj h
    cases c.session with
    | none => rfl
    | some s => rfl
  | cons frame frames ih =>
    rw [replyEffects] at h
    split at h
    · cases h
    · next w₁ hwrite =>
      cases hrest : c.replyEffects frames with
      | error e =>
        rw [hrest] at h
        cases h
      | ok w₂ =>
        rw [hrest] at h
        obtain rfl := Except.ok.inj h
        rw [write, hopen] at hwrite
        cases hencode : encodeFrame frame with
        | error e =>
          rw [hencode] at hwrite
          cases hwrite
        | ok bytes =>
          rw [hencode] at hwrite
          obtain rfl := Except.ok.inj hwrite
          exact congrArg (frame :: ·) (ih hrest)

theorem closed_fail (c : SecureConnection S) (err : String) : (c.fail err).1.closed = true := by
  rw [fail]
  split
  · next hclosed => exact hclosed
  · rfl

/-- A connection that is open after a frame has handled it. -/
theorem onFrame_of_open {frame : Buffer} {nonce : S.Nonce} {now : ℕ}
    (hopen : (c.onFrame frame true nonce now).1.closed = false) :
    c.handleFrame frame nonce now =
      ((c.onFrame frame true nonce now).1, (c.onFrame frame true nonce now).2, .ok ()) := by
  rw [onFrame, if_neg (by decide)] at hopen ⊢
  generalize c.handleFrame frame nonce now = r at hopen ⊢
  obtain ⟨c', w, e | u⟩ := r
  · dsimp only at hopen
    rw [closed_fail] at hopen
    cases hopen
  · rfl

/-- What the frames of the handshake tell: nothing, or that the session is there. -/
theorem told_of_none (hs : c.session = none) {frame : Buffer} {nonce : S.Nonce} {now : ℕ}
    {c' : SecureConnection S} {w : List (Effect S)}
    (h : c.handleFrame frame nonce now = (c', w, .ok ())) (hopen : c'.closed = false) :
    ∃ r, c.hs.onFrame frame = (c'.hs, .ok r) ∧ c'.session = r.session ∧ writes w = r.writes ∧
      told w = r.session.elim [] fun s ↦ [.secure s.peerId] := by
  rw [handleFrame, hs] at h
  dsimp only at h
  split at h
  · cases h
  · next hs' r hon =>
    split at h
    · cases h
    · next w' hreply =>
      cases h
      exact ⟨r, hon, rfl, writes_replyEffects hopen hreply, told_replyEffects hreply⟩

theorem told_handleData {pt : Buffer} {now : ℕ} {c' : SecureConnection S} {w : List (Effect S)}
    (h : c.handleData pt now = (c', w, .ok ())) (hopen : c'.closed = false) :
    c'.session = c.session ∧ ∃ body, told w = [.message body] := by
  obtain ⟨start, count, hc⟩ := msgAllow_eq c now
  rw [handleData] at h
  split at h
  · cases h
  · dsimp only at h
    split at h
    · cases h
      rw [closed_fail] at hopen
      cases hopen
    · split at h
      · cases h
        rw [closed_fail] at hopen
        cases hopen
      · cases h
        exact ⟨by rw [hc], _, rfl⟩

/-- What the frames of the channel tell: a body, or nothing that an application waits for. -/
theorem told_of_session (hs : c.session = some s) {frame : Buffer} {nonce : S.Nonce} {now : ℕ}
    {c' : SecureConnection S} {w : List (Effect S)}
    (h : c.handleFrame frame nonce now = (c', w, .ok ())) (hopen : c'.closed = false) :
    (∃ s', c'.session = some s' ∧ s'.peerId = s.peerId) ∧
      (told w = [] ∨ ∃ body, told w = [.message body]) := by
  rw [handleFrame_of_session hs, handleTransport] at h
  split at h
  · cases h
  · dsimp only at h
    split at h
    · obtain ⟨hsession, htold⟩ := told_handleData h hopen
      exact ⟨⟨s, hsession.trans hs, rfl⟩, .inr htold⟩
    · split at h
      · split at h
        · cases h
        · next w' hwrite =>
          cases h
          refine ⟨⟨_, rfl, rfl⟩, .inl ?_⟩
          rw [told_append, told_write hwrite]
          rfl
      · split at h
        · cases h
          exact ⟨⟨_, rfl, rfl⟩, .inl rfl⟩
        · split at h
          · cases h
            cases hopen
          · cases h

/-! ## Who the peer is -/

/-- `peerId`, once the session is there; before, it is nobody's. -/
def peerId? (c : SecureConnection S) : Option S.Ident := c.session.map SecureSession.peerId

theorem peerId?_rekey (c : SecureConnection S) (nonce : S.Nonce) :
    (c.rekey nonce).1.peerId? = c.peerId? ∧ (c.rekey nonce).1.hs = c.hs ∧
      told (c.rekey nonce).2.1 = [] := by
  rw [rekey]
  split
  · exact ⟨rfl, rfl, rfl⟩
  · next s hs =>
    split
    · exact ⟨rfl, rfl, rfl⟩
    · dsimp only
      split
      · exact ⟨by rw [peerId?, peerId?, hs], rfl, rfl⟩
      · next w hwrite => exact ⟨by rw [peerId?, peerId?, hs]; rfl, rfl, told_write hwrite⟩

theorem peerId?_maybeAutoRekey (c : SecureConnection S) (nonce : S.Nonce) (now : ℕ) :
    (c.maybeAutoRekey nonce now).1.peerId? = c.peerId? ∧
      (c.maybeAutoRekey nonce now).1.hs = c.hs ∧ told (c.maybeAutoRekey nonce now).2.1 = [] := by
  rcases maybeAutoRekey_eq c nonce now with heq | heq
  · rw [heq]
    exact ⟨rfl, rfl, rfl⟩
  · rw [heq]
    exact peerId?_rekey c nonce

theorem peerId?_send (c : SecureConnection S) (body : Buffer) (nonce nonce' : S.Nonce) (now : ℕ) :
    (c.send body nonce nonce' now).1.peerId? = c.peerId? ∧
      (c.send body nonce nonce' now).1.hs = c.hs ∧
        told (c.send body nonce nonce' now).2.1 = [] := by
  rw [send]
  split
  · exact ⟨rfl, rfl, rfl⟩
  · next s hs =>
    dsimp only
    split
    · exact ⟨by rw [peerId?, peerId?, hs], rfl, rfl⟩
    · split
      · exact ⟨by rw [peerId?, peerId?, hs], rfl, rfl⟩
      · next w hwrite =>
        obtain ⟨hpeer, hhs, htold⟩ := peerId?_maybeAutoRekey ({ c with
          txSeq := c.txSeq + 1, rkMsgs := c.rkMsgs + 1,
          rkBytes := c.rkBytes + body.length } : SecureConnection S) nonce' now
        refine ⟨hpeer, hhs, ?_⟩
        rw [told_append, told_write hwrite, List.nil_append]
        exact htold

theorem peerId?_receive (c : SecureConnection S) (chunk : Buffer) :
    (c.receive chunk).1.peerId? = c.peerId? ∧ (c.receive chunk).1.hs = c.hs ∧
      told (c.receive chunk).2.1 = [] := by
  rw [receive]
  split
  · dsimp only
    rw [fail]
    split
    · exact ⟨rfl, rfl, rfl⟩
    · exact ⟨rfl, rfl, rfl⟩
  · exact ⟨rfl, rfl, rfl⟩

end SecureConnection

/-! ## Frames that are on the way -/

theorem bytesOf_injective {fs fs' : List Buffer} (h : ∀ f ∈ fs, f.length ≤ sessionMaxFrame)
    (h' : ∀ f ∈ fs', f.length ≤ sessionMaxFrame) (heq : bytesOf fs = bytesOf fs') : fs = fs' := by
  have hsplit {fs : List Buffer} (h : ∀ f ∈ fs, f.length ≤ sessionMaxFrame) :
      (frameCutter sessionMaxFrame).split (bytesOf fs) = (fs.map frameBytes, []) := by
    have hcomplete : ∀ x ∈ fs.map frameBytes, (frameCutter sessionMaxFrame).Complete x := by
      intro x hx
      obtain ⟨f, hf, rfl⟩ := List.mem_map.mp hx
      have hlen := h f hf
      have hmax : sessionMaxFrame < 2 ^ 32 := by decide
      exact complete_frameBytes hlen (by omega)
    have hall := Cutter.split_flatten_append hcomplete []
    rw [List.append_nil, Cutter.split_nil, List.append_nil] at hall
    exact hall
  have hframes : fs.map frameBytes = fs'.map frameBytes :=
    congrArg Prod.fst ((hsplit h).symm.trans (heq ▸ hsplit h'))
  refine List.map_injective_iff.mpr (fun f g hfg ↦ ?_) hframes
  rw [← drop_frameBytes f, hfg, drop_frameBytes]

theorem Carries.unique {x : Side S} {fs fs' : List Buffer} (h : Carries x fs)
    (h' : Carries x fs') : fs = fs' := by
  obtain ⟨rest, hfs, hbytes⟩ := h.stream
  obtain ⟨rest', hfs', hbytes'⟩ := h'.stream
  have hsmall : ∀ f ∈ rest, f.length ≤ sessionMaxFrame := fun f hf ↦
    h.small f (by rw [hfs]; exact List.mem_append_right _ hf)
  have hsmall' : ∀ f ∈ rest', f.length ≤ sessionMaxFrame := fun f hf ↦
    h'.small f (by rw [hfs']; exact List.mem_append_right _ hf)
  rw [hfs, hfs', bytesOf_injective hsmall hsmall' (hbytes.symm.trans hbytes')]

theorem Sound.unique {l : Link S} {q q' : Bool → List Buffer} (h : Sound l q) (h' : Sound l q') :
    q = q' := funext fun i ↦ (h.carries i).unique (h'.carries i)

namespace Link

/-- The endpoint has said who it is, and what listeners have been told is the same. -/
structure Calm (x y : Side S) : Prop where
  peerId? : y.conn.peerId? = x.conn.peerId?
  hs : y.conn.hs = x.conn.hs
  told : told y.effects = told x.effects

theorem calm_act {l : Link S} {i : Bool} {c : SecureConnection S} {w : List (Effect S)}
    (hpeer : c.peerId? = (l i).conn.peerId?) (hhs : c.hs = (l i).conn.hs) (hw : told w = [])
    (j : Bool) : Calm (l j) (l.act i c w j) := by
  rcases Bool.eq_or_eq_not j i with rfl | rfl
  · rw [act_self]
    exact ⟨hpeer, hhs, by rw [told_append, hw, List.append_nil]⟩
  · rw [act_not]
    exact ⟨rfl, rfl, rfl⟩

/-- Only frames that are handled tell listeners of something, or change who the peer is. -/
theorem calm_next (l : Link S) {e : LinkEvent S} (he : ∀ i nonce now, e ≠ .frame i nonce now)
    (j : Bool) : Calm (l j) (l.next e j) := by
  cases e with
  | send i body nonce nonce' now =>
    obtain ⟨hpeer, hhs, htold⟩ := (l i).conn.peerId?_send body nonce nonce' now
    have hrecord (j : Bool) : (l.record i body j).conn = (l j).conn ∧
        (l.record i body j).effects = (l j).effects := by
      rw [record]
      split
      · next h =>
        obtain ⟨rfl, -⟩ := h
        exact ⟨rfl, rfl⟩
      · exact ⟨rfl, rfl⟩
    have hself := congrArg SecureConnection.peerId? (hrecord i).1
    have hself' := congrArg SecureConnection.hs (hrecord i).1
    have hact := calm_act (hpeer.trans hself.symm) (hhs.trans hself'.symm) htold j
    exact ⟨hact.peerId?.trans (congrArg SecureConnection.peerId? (hrecord j).1),
      hact.hs.trans (congrArg SecureConnection.hs (hrecord j).1),
      hact.told.trans (congrArg AttestP2P.told (hrecord j).2)⟩
  | rekey i nonce =>
    obtain ⟨hpeer, hhs, htold⟩ := (l i).conn.peerId?_rekey nonce
    exact calm_act hpeer hhs htold j
  | tick i nonce now =>
    obtain ⟨hpeer, hhs, htold⟩ := (l i).conn.peerId?_maybeAutoRekey nonce now
    exact calm_act hpeer hhs htold j
  | data i n =>
    obtain ⟨hpeer, hhs, htold⟩ := (l i).conn.peerId?_receive ((l i).inbox.take n)
    rw [next, receive]
    dsimp only
    rcases Bool.eq_or_eq_not j i with rfl | rfl
    · rw [Function.update_self]
      exact ⟨hpeer, hhs, by rw [told_append, htold, List.append_nil]⟩
    · rw [Function.update_of_ne (Bool.not_ne_self i)]
      exact ⟨rfl, rfl, rfl⟩
  | frame i nonce now => exact absurd rfl (he i nonce now)

end Link

/-! ## A handshake between two honest endpoints

What a handshake learns from a frame it accepts, and when. -/

namespace Handshake

variable {f : Buffer} {hs' : Handshake S} {r : Reply S}

/-- An initiator accepts a hello, and has its session with whoever it names. -/
theorem reply_initiator {r₀ : HandshakeInitiator S}
    (hon : (initiator r₀).onFrame f = (hs', .ok r)) :
    ∃ ePub peerId sig s, S.splitHello f = some (ePub, peerId, sig) ∧ r.session = some s ∧
      s.peerId = peerId := by
  obtain ⟨_, _, _, s, hrole, -, hmsg2, rfl⟩ | ⟨_, _, _, hrole, -⟩ | ⟨_, _, _, _, hrole, -⟩ :=
    onFrame_eq_ok hon
  · cases hrole
    obtain ⟨ePub, peerId, sig, dh, hsplit, -, -, rfl, -⟩ :=
      HandshakeInitiator.consumeMessage2_eq_ok hmsg2
    exact ⟨ePub, peerId, sig, _, hsplit, rfl, rfl⟩
  · cases hrole
  · cases hrole

/-- A responder accepts a hello first, prepares a session with whoever it names, and answers. -/
theorem reply_fresh {r₀ : HandshakeResponder S}
    (hon : (responder 0 r₀).onFrame f = (hs', .ok r)) :
    ∃ ePub peerId sig r₁, S.splitHello f = some (ePub, peerId, sig) ∧ hs' = .responder 1 r₁ ∧
      (∀ s, r₁.session = some s → s.peerId = peerId) ∧
      r = ⟨[S.hello r₀.ePub r₀.id (S.sign r₀.signKey [r₀.ePub, ePub])], none⟩ := by
  obtain ⟨_, _, _, _, hrole, -⟩ | ⟨_, r₁, msg2, hrole, hhs, hmsg1, rfl⟩ | ⟨_, _, _, _, hrole, -⟩ :=
    onFrame_eq_ok hon
  · cases hrole
  · cases hrole
    obtain ⟨ePub, peerId, sig, dh, hsplit, -, -, rfl, rfl⟩ :=
      HandshakeResponder.consumeMessage1_eq_ok hmsg1
    refine ⟨ePub, peerId, sig, _, hsplit, hhs, fun s hs ↦ ?_, rfl⟩
    rw [← Option.some.inj hs]
  · cases hrole

/-- Then it waits for the confirmation, and has the session that it has prepared. -/
theorem reply_responder {n : ℕ} {r₀ : HandshakeResponder S}
    (hon : (responder (n + 1) r₀).onFrame f = (hs', .ok r)) :
    ∃ s, r₀.session = some s ∧ r.session = some s := by
  obtain ⟨_, _, _, _, hrole, -⟩ | ⟨_, _, _, hrole, -⟩ | ⟨_, _, _, s, hrole, -, hmsg3, rfl⟩ :=
    onFrame_eq_ok hon
  · cases hrole
  · cases hrole
  · cases hrole
    obtain ⟨_, _, _, -, -, -, hs, -⟩ := HandshakeResponder.consumeMessage3_eq_ok hmsg3
    exact ⟨s, hs, rfl⟩

end Handshake

/-- If the frame is a hello, it is one of the other endpoint. -/
def FromPeer (e : Endpoints S) (i : Bool) (f : Buffer) : Prop :=
  ∀ ePub peerId sig, S.splitHello f = some (ePub, peerId, sig) →
    peerId = S.getPublicKey (e.signKey !i)

/-- The responder has accepted the hello of the initiator. -/
def Heeded (e : Endpoints S) (hs : Handshake S) : Prop :=
  ∃ n r, hs = .responder (n + 1) r ∧
    ∀ s, r.session = some s → s.peerId = S.getPublicKey (e.signKey true)

/-- Who the endpoints of a link take each other for. -/
inductive Linked (e : Endpoints S) (l : Link S) : Prop
  /-- Nobody has a session. -/
  | shaking (hnone : ∀ i, (l i).conn.session = none)
    (hinitiator : ∃ r, (l true).conn.hs = .initiator r)
    (hhello : ∀ q, Sound l q → ∀ f ∈ q true, FromPeer e true f)
    (hresponder : Heeded e (l false).conn.hs ∨
      (l false).conn.hs = .responder 0 (.new S (e.signKey false) (e.ePriv false)) ∧
        ∀ q, Sound l q → q true = [] ∧ ∀ f ∈ q false, FromPeer e false f)
  /-- The initiator has its session. -/
  | live (hinitiator : (l true).conn.session.isSome = true)
    (hpeer : ∀ i s, (l i).conn.session = some s → s.peerId = S.getPublicKey (e.signKey !i))
    (hresponder : (l false).conn.session = none → Heeded e (l false).conn.hs)

theorem Sound.queue_of_inbox {l : Link S} {q : Bool → List Buffer} (h : Sound l q) {i : Bool}
    {fs : List Buffer} (hframes : (l i).frames = []) (hbuf : (l i).conn.decoder.buf = [])
    (hinbox : (l i).inbox = bytesOf fs) (hsmall : ∀ f ∈ fs, f.length ≤ sessionMaxFrame) :
    q i = fs :=
  (h.carries i).unique ⟨(h.carries i).max, hsmall, fs, by rw [hframes]; rfl,
    by rw [hbuf, hinbox]; rfl⟩

theorem linked_start (hS : S.Lawful) (e : Endpoints S) : Linked e (.start e) := by
  let msg1 := (HandshakeInitiator.new S (e.signKey true) (e.ePriv true)).createMessage1
  have hsmall : ∀ f ∈ [msg1], f.length ≤ sessionMaxFrame := by
    intro f hf
    obtain rfl := List.mem_singleton.mp hf
    exact le_of_eq_of_le (hS.length_hello (e.ePriv true) (e.signKey true)
      [S.publicKey (e.ePriv true)]) (by decide)
  have hqueue {q : Bool → List Buffer} (hq : Sound (.start e) q) :
      q true = [] ∧ q false = [msg1] :=
    ⟨hq.queue_of_inbox rfl rfl rfl fun _ h ↦ absurd h List.not_mem_nil,
      hq.queue_of_inbox rfl rfl rfl hsmall⟩
  have hnone : ∀ i, (Link.start e i).conn.session = none := forall_bool_of true rfl rfl
  refine .shaking hnone ⟨_, rfl⟩ (fun q hq f hf ↦ ?_) (.inr ⟨rfl, fun q hq ↦
    ⟨(hqueue hq).1, fun f hf ePub peerId sig hsplit ↦ ?_⟩⟩)
  · rw [(hqueue hq).1] at hf
    cases hf
  · rw [(hqueue hq).2] at hf
    obtain rfl := List.mem_singleton.mp hf
    have hhello := hS.splitHello_hello (e.ePriv true) (e.signKey true) [S.publicKey (e.ePriv true)]
    have hsame := Option.some.inj (hsplit.symm.trans hhello)
    exact congrArg (fun x ↦ x.2.1) hsame

/-- An initiator has nothing to wait for but its session. -/
theorem Live.initiator_session {l : Link S} (h : Live l) {r : HandshakeInitiator S}
    (hs : (l true).conn.hs = .initiator r) : (l true).conn.session.isSome = true := by
  obtain ⟨q, s, items, -, hjoined⟩ := h
  cases hjoined.reads true with
  | session hs _ => exact Option.isSome_of_eq_some hs
  | confirm _ hon _ =>
    rw [hs] at hon
    obtain ⟨_, _, _, _, -, -, -, hreply⟩ | ⟨_, _, _, hrole, -⟩ | ⟨_, _, _, _, hrole, -⟩ :=
      Handshake.onFrame_eq_ok hon
    · cases hreply
    · cases hrole
    · cases hrole

theorem closed_of_reachable {l : Link S} (hS : S.Lawful) (h : (link S).Reachable l)
    (i : Bool) : (l i).conn.closed = false := by
  rcases shaking_or_live hS h with ⟨q, hsound, -⟩ | ⟨q, s, items, hsound, -⟩
  · exact hsound.isOpen i
  · exact hsound.isOpen i

/-- What has been emitted is the beginning of what has been sent. -/
theorem delivered_of_reachable {l : Link S} (hS : S.Lawful) (h : (link S).Reachable l) (i : Bool) :
    messages (l i).effects <+: (l !i).sent := by
  rcases shaking_or_live hS h with ⟨q, -, hfresh, -⟩ | ⟨q, s, items, -, hjoined⟩
  · rw [(hfresh i).messages]
    exact List.nil_prefix
  · exact (hjoined.way i).delivered

/-- Whoever is asked to do something keeps what it knows. -/
theorem Linked.calm (hS : S.Lawful) {e : Endpoints S} {l : Link S} (h : Linked e l)
    (hreach : (link S).Reachable l) {event : LinkEvent S}
    (hevent : ∀ i nonce now, event ≠ .frame i nonce now) : Linked e (l.next event) := by
  have hcalm := l.calm_next hevent
  cases h with
  | shaking hnone hinitiator hhello hresponder =>
    have hnone' (i : Bool) : (l.next event i).conn.session = none := by
      have hpeer := (hcalm i).peerId?
      rw [SecureConnection.peerId?, SecureConnection.peerId?, hnone i] at hpeer
      exact Option.map_eq_none_iff.mp hpeer
    obtain ⟨r, hr⟩ := hinitiator
    have hshaking : Shaking l := (shaking_or_live hS hreach).resolve_right fun hlive ↦ by
      have hsome := hlive.initiator_session hr
      rw [hnone] at hsome
      cases hsome
    -- the frames on the way are the same
    have hqueue (q : Bool → List Buffer) (hq : Sound (l.next event) q) : Sound l q := by
      cases event with
      | send i body nonce nonce' now =>
        rwa [(hshaking.idle i nonce).2.2] at hq
      | rekey i nonce => rwa [(hshaking.idle i nonce).1] at hq
      | tick i nonce now => rwa [(hshaking.idle i nonce).2.1] at hq
      | data i n =>
        obtain ⟨q', hsound, -⟩ := hshaking
        rw [hq.unique (hsound.receive i n).1]
        exact hsound
      | frame i nonce now => exact absurd rfl (hevent i nonce now)
    refine .shaking hnone' ⟨r, (hcalm true).hs.trans hr⟩ (fun q hq ↦ hhello q (hqueue q hq)) ?_
    rw [(hcalm false).hs]
    exact hresponder.imp_right fun h ↦ ⟨h.1, fun q hq ↦ h.2 q (hqueue q hq)⟩
  | live hinitiator hpeer hresponder =>
    have hsession (i : Bool) : (l.next event i).conn.session.map SecureSession.peerId =
        (l i).conn.session.map SecureSession.peerId := (hcalm i).peerId?
    refine .live ?_ (fun i s hs ↦ ?_) fun hnone ↦ ?_
    · have hsome := congrArg Option.isSome (hsession true)
      rwa [Option.isSome_map, Option.isSome_map, hinitiator] at hsome
    · have hsome := hsession i
      rw [hs] at hsome
      obtain ⟨s', hs', heq⟩ := Option.map_eq_some_iff.mp hsome.symm
      exact heq.symm.trans (hpeer i s' hs')
    · rw [(hcalm false).hs]
      refine hresponder ?_
      have hnone' := hsession false
      rw [hnone] at hnone'
      exact Option.map_eq_none_iff.mp hnone'.symm

/-- A frame that is handled leaves the connection open. -/
structure Handled (l : Link S) (i : Bool) (f : Buffer) (rest : List Buffer)
    (c : SecureConnection S) (w : List (Effect S)) (l' : Link S) : Prop where
  isOpen : c.closed = false
  self : l' i = { l i with conn := c, frames := rest, effects := (l i).effects ++ w }
  other : l' (!i) = { l !i with inbox := (l !i).inbox ++ bytesOf (writes w) }

theorem Handled.conn_other {l l' : Link S} {i : Bool} {f : Buffer} {rest : List Buffer}
    {c : SecureConnection S} {w : List (Effect S)} (h : Handled l i f rest c w l') :
    (l' !i).conn = (l !i).conn := by
  rw [h.other]

theorem handled_of_reachable (hS : S.Lawful) {l : Link S} (hreach : (link S).Reachable l) {i : Bool}
    {f : Buffer} {rest : List Buffer} (hframes : (l i).frames = f :: rest) {nonce : S.Nonce}
    {now : ℕ} (henabled : l.enabled (.frame i nonce now)) :
    Handled l i f rest ((l i).conn.onFrame f true nonce now).1
      ((l i).conn.onFrame f true nonce now).2 (l.handle i nonce now) := by
  have hopen : ((l i).conn.onFrame f true nonce now).1.closed = false := by
    have hclosed := closed_of_reachable hS
      (hreach.step (e := .frame i nonce now) ⟨henabled, rfl⟩) i
    rw [Link.next, Link.handle, hframes] at hclosed
    dsimp only at hclosed
    rwa [Link.act_self] at hclosed
  exact ⟨hopen, Link.handle_self hframes rfl hopen, Link.handle_not hframes rfl hopen⟩

/-- The frame is on the way: what an endpoint handles next is what the other has written. -/
theorem exists_sound (hS : S.Lawful) {l : Link S} (hreach : (link S).Reachable l) {i : Bool}
    {f : Buffer} {rest : List Buffer} (hframes : (l i).frames = f :: rest) :
    ∃ q fs, Sound l q ∧ q i = f :: fs := by
  rcases shaking_or_live hS hreach with ⟨q, hsound, -⟩ | ⟨q, s, items, hsound, -⟩
  · obtain ⟨fs, hq, -⟩ := hsound.pop hframes
    exact ⟨q, fs, hsound, hq⟩
  · obtain ⟨fs, hq, -⟩ := hsound.pop hframes
    exact ⟨q, fs, hsound, hq⟩

/-- Before the initiator has its session, the responder gets none. -/
theorem Shaking.reply_none {l : Link S} (h : Shaking l) {f : Buffer} {rest : List Buffer}
    (hframes : (l false).frames = f :: rest) {hs' : Handshake S} {r : Handshake.Reply S}
    (hon : (l false).conn.hs.onFrame f = (hs', .ok r)) : r.session = none := by
  obtain ⟨q, hsound, -, hphase⟩ := h
  obtain ⟨fs, hq, -⟩ := hsound.pop hframes
  cases hphase with
  | hello _ hq' hgreeted =>
    obtain ⟨rfl, -⟩ := List.cons.inj (hq'.symm.trans hq)
    obtain ⟨hR', msg2, hmsg1, -⟩ := hgreeted
    obtain ⟨-, hr⟩ := Prod.mk.inj (hon.symm.trans hmsg1)
    rw [Except.ok.inj hr]
  | answered _ hq' _ => cases hq'.symm.trans hq

/-- As long as nobody has a session, the link is in its handshake. -/
theorem shaking_of_none (hS : S.Lawful) {l : Link S} (hreach : (link S).Reachable l)
    (hnone : (l true).conn.session = none) (hinitiator : ∃ r, (l true).conn.hs = .initiator r) :
    Shaking l := by
  refine (shaking_or_live hS hreach).resolve_right fun hlive ↦ ?_
  obtain ⟨r, hrole⟩ := hinitiator
  have hsome := hlive.initiator_session hrole
  rw [hnone] at hsome
  cases hsome

section
variable {e : Endpoints S} {l l' : Link S} {f : Buffer} {rest : List Buffer}
  {c : SecureConnection S} {w : List (Effect S)} {r : Handshake.Reply S}

/-- MSG3 gives the responder the session that it had prepared for the initiator. -/
theorem Linked.of_message3 (hl' : Handled l false f rest c w l')
    (hinitiator : (l true).conn.session.isSome = true)
    (hpeer : ∀ i s, (l i).conn.session = some s → s.peerId = S.getPublicKey (e.signKey !i))
    (hheeded : Heeded e (l false).conn.hs) (hon : (l false).conn.hs.onFrame f = (c.hs, .ok r))
    (hsession : c.session = r.session) : Linked e l' := by
  obtain ⟨n, r₀, hrole, hpeer₀⟩ := hheeded
  rw [hrole] at hon
  obtain ⟨s, hs, hr⟩ := Handshake.reply_responder hon
  have hconn : (l' false).conn.session = some s := by rw [hl'.self, hsession, hr]
  have hsame : (l' true).conn = (l true).conn := hl'.conn_other
  refine .live (by rw [hsame]; exact hinitiator)
    (forall_bool_of true (fun s' hs' ↦ ?_) fun s' hs' ↦ ?_) fun hnone ↦ ?_
  · rw [hsame] at hs'
    exact hpeer true s' hs'
  · obtain rfl := Option.some.inj (hconn.symm.trans hs')
    exact hpeer₀ s hs
  · cases hconn.symm.trans hnone

/-- MSG2 tells the initiator who the responder is, and gives it its session. -/
theorem Linked.of_message2 (hl' : Handled l true f rest c w l')
    (hnone : (l false).conn.session = none) (hinitiator : ∃ r, (l true).conn.hs = .initiator r)
    (hhello : FromPeer e true f) (hheeded : Heeded e (l false).conn.hs)
    (hon : (l true).conn.hs.onFrame f = (c.hs, .ok r)) (hsession : c.session = r.session) :
    Linked e l' := by
  obtain ⟨r₀, hrole⟩ := hinitiator
  rw [hrole] at hon
  obtain ⟨ePub, peerId, sig, s, hsplit, hr, hid⟩ := Handshake.reply_initiator hon
  have hconn : (l' true).conn.session = some s := by rw [hl'.self, hsession, hr]
  have hsame : (l' false).conn = (l false).conn := hl'.conn_other
  refine .live (Option.isSome_of_eq_some hconn)
    (forall_bool_of true (fun s' hs' ↦ ?_) fun s' hs' ↦ ?_) fun _ ↦ ?_
  · obtain rfl := Option.some.inj (hconn.symm.trans hs')
    exact hid.trans (hhello _ _ _ hsplit)
  · rw [Bool.not_true, hsame, hnone] at hs'
    cases hs'
  · rw [hsame]
    exact hheeded

/-- MSG1 tells the responder who the initiator is.  Its answer is now all that is on the way to the
initiator. -/
theorem Linked.of_message1 (hS : S.Lawful) {q : Bool → List Buffer} (hsound : Sound l q)
    (hl' : Handled l false f rest c w l') (hnone : (l true).conn.session = none)
    (hinitiator : ∃ r, (l true).conn.hs = .initiator r)
    (hrole : (l false).conn.hs = .responder 0 (.new S (e.signKey false) (e.ePriv false)))
    (hnothing : q true = []) (hhello : FromPeer e false f)
    (hon : (l false).conn.hs.onFrame f = (c.hs, .ok r)) (hsession : c.session = r.session)
    (hwrites : writes w = r.writes) : Linked e l' := by
  rw [hrole] at hon
  obtain ⟨ePub, peerId, sig, r₁, hsplit, hhs, hpeer, rfl⟩ := Handshake.reply_fresh hon
  have hconn : (l' false).conn = c := by rw [hl'.self]
  have hsame : (l' true).conn = (l true).conn := hl'.conn_other
  have hhello' := hS.splitHello_hello (e.ePriv false) (e.signKey false)
    [S.publicKey (e.ePriv false), ePub]
  have hlen := hS.length_hello (e.ePriv false) (e.signKey false)
    [S.publicKey (e.ePriv false), ePub]
  have hsmall : ∀ g ∈ writes w, g.length ≤ sessionMaxFrame := by
    rw [hwrites]
    intro g hg
    obtain rfl := List.mem_singleton.mp hg
    exact le_of_eq_of_le hlen (by decide)
  have hcarries := (hsound.carries true).write hsmall
  rw [hnothing, List.nil_append] at hcarries
  refine .shaking (forall_bool_of false (by rw [hconn, hsession])
    (by rw [Bool.not_false, hsame, hnone])) (by rw [hsame]; exact hinitiator)
    (fun q' hq' g hg ePub' peerId' sig' hg' ↦ ?_)
    (.inl ⟨0, r₁, by rw [hconn, hhs], fun s hs ↦ (hpeer s hs).trans (hhello _ _ _ hsplit)⟩)
  have hother : l' true = _ := hl'.other
  have hcarries' := hq'.carries true
  rw [hother] at hcarries'
  rw [hcarries'.unique hcarries, hwrites] at hg
  obtain rfl := List.mem_singleton.mp hg
  have hsame := Option.some.inj (hg'.symm.trans hhello')
  exact congrArg (fun x ↦ x.2.1) hsame

/-- MSG1 tells who the initiator is, and MSG2 who the responder is. -/
theorem Linked.frame_of_none (hS : S.Lawful) (h : Linked e l) (hreach : (link S).Reachable l)
    {i : Bool} (hframes : (l i).frames = f :: rest) (hidle : (l i).conn.session = none)
    (hl' : Handled l i f rest c w l') (hon : (l i).conn.hs.onFrame f = (c.hs, .ok r))
    (hsession : c.session = r.session) (hwrites : writes w = r.writes) : Linked e l' := by
  obtain ⟨q, fs, hsound, hq⟩ := exists_sound hS hreach hframes
  have hf : f ∈ q i := by rw [hq]; exact List.mem_cons_self
  cases h with
  | live hinitiator hpeer hresponder =>
    cases i with
    | true =>
      rw [hidle] at hinitiator
      cases hinitiator
    | false => exact .of_message3 hl' hinitiator hpeer (hresponder hidle) hon hsession
  | shaking hnone hinitiator hhello hresponder =>
    cases i with
    | true =>
      refine .of_message2 hl' (hnone false) hinitiator (hhello q hsound f hf)
        (hresponder.resolve_right fun hstep ↦ ?_) hon hsession
      rw [(hstep.2 q hsound).1] at hf
      cases hf
    | false =>
      obtain ⟨_, r₀, hrole, -⟩ | ⟨hrole, hqueue⟩ := hresponder
      · -- it waits for MSG3, which is not sent before the initiator has its session
        have hreply := (shaking_of_none hS hreach (hnone true) hinitiator).reply_none hframes hon
        rw [hrole] at hon
        obtain ⟨s, -, hs⟩ := Handshake.reply_responder hon
        cases hreply.symm.trans hs
      · obtain ⟨hnothing, hfrom⟩ := hqueue q hsound
        exact .of_message1 hS hsound hl' (hnone true) hinitiator hrole hnothing (hfrom f hf) hon
          hsession hwrites

end

/-- **Every step keeps that.** Calls change nobody's identity; frames are the three of the
handshake, or frames of a session that both have. -/
theorem Linked.next (hS : S.Lawful) {e : Endpoints S} {l : Link S} (h : Linked e l)
    (hreach : (link S).Reachable l) {event : LinkEvent S} (henabled : l.enabled event) :
    Linked e (l.next event) := by
  cases event with
  | frame i nonce now =>
    cases hframes : (l i).frames with
    | nil =>
      rw [Link.next, Link.handle, hframes]
      exact h
    | cons f rest =>
      have hl' := handled_of_reachable hS hreach hframes henabled
      have hhandle := SecureConnection.onFrame_of_open hl'.isOpen
      rw [Link.next]
      cases hs : (l i).conn.session with
      | none =>
        obtain ⟨r, hon, hsession, hwrites, -⟩ :=
          SecureConnection.told_of_none hs hhandle hl'.isOpen
        exact h.frame_of_none hS hreach hframes hs hl' hon hsession hwrites
      | some s =>
        obtain ⟨⟨s', hs', hpeer'⟩, -⟩ := SecureConnection.told_of_session hs hhandle hl'.isOpen
        have hconn : (l.handle i nonce now i).conn.session = some s' := by rw [hl'.self, hs']
        have hconn' : (l.handle i nonce now !i).conn = (l !i).conn := hl'.conn_other
        cases h with
        | shaking hnone => cases (hnone i).symm.trans hs
        | live hinitiator hpeer hresponder =>
          refine .live ?_ (forall_bool_of i (fun t ht ↦ ?_) fun t ht ↦ ?_) fun hnone ↦ ?_
          · cases i with
            | true => rw [hconn]; rfl
            | false =>
              rw [show (l.handle false nonce now true).conn = _ from hconn']
              exact hinitiator
          · obtain rfl := Option.some.inj (hconn.symm.trans ht)
            exact hpeer'.trans (hpeer i s hs)
          · rw [hconn'] at ht
            exact hpeer (!i) t ht
          · cases i with
            | true =>
              rw [show (l.handle true nonce now false).conn = _ from hconn'] at hnone ⊢
              exact hresponder hnone
            | false => cases hconn.symm.trans hnone
  | _ => exact h.calm hS hreach fun i nonce now heq ↦ by cases heq

/-- The runs of a link whose endpoints are created with `e`. -/
def linkFrom (e : Endpoints S) : Machine (Link S) (LinkEvent S) :=
  .ofFun (fun l ↦ l = .start e) Link.enabled Link.next

theorem reachable_linkFrom {e : Endpoints S} {l : Link S} (h : (linkFrom e).Reachable l) :
    (link S).Reachable l := by
  refine Machine.Reachable.invariant (M := linkFrom e) (I := fun l ↦ (link S).Reachable l) ?_ ?_ h
  · rintro l rfl
    exact .init ⟨e, rfl⟩
  · intro l event l' _ hl hstep
    exact hl.step hstep

/-- **The endpoints know each other**, in every run: whoever has a session has it with the node at
the other end. -/
theorem linked_of_reachable (hS : S.Lawful) {e : Endpoints S} {l : Link S}
    (h : (linkFrom e).Reachable l) : Linked e l := by
  refine Machine.Reachable.invariant (M := linkFrom e) (I := fun l ↦ Linked e l) ?_ ?_ h
  · rintro l rfl
    exact linked_start hS e
  · rintro l event l' hreach hl ⟨henabled, rfl⟩
    exact hl.next hS (reachable_linkFrom hreach) henabled

end AttestP2P
