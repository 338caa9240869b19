import AttestP2P.Session.Joined

/-!
# Delivery and rekeying between two honest endpoints

Two endpoints, the initiator and the responder, are joined by two byte streams that arrive in
pieces of any size.  The link begins in its handshake and is live from then on, and nothing takes it
back.

* `Phase` is where the handshake is, and `Shaking` the link before the initiator has its session.
* `shaking_or_live` is the induction over runs: the handshake goes on, or ends with both endpoints
  on one pair of keys, and a live link stays live.
* `honest_delivery` reads the result off: no error, bodies in order and once each, and keys that
  agree once both directions are drained.

`SampleLink` is a link on real values, with a message and a rekey.
-/

set_option autoImplicit false

namespace AttestP2P

open Buffer SecureConnection

variable {S : Suite Buffer}

/-! ## The handshake -/

/-- Nothing has been sent or received over the channel yet, since there is no session. -/
structure Fresh (x : Side S) : Prop where
  session : x.conn.session = none
  rekeying : x.conn.rekeying = false
  txSeq : x.conn.txSeq = 0
  rxSeq : x.conn.rxSeq = none
  sent : x.sent = []
  messages : messages x.effects = []

/-- Where the handshake is: MSG1 is on its way to the responder, or MSG2 to the initiator. -/
inductive Phase (l : Link S) (q : Bool → List Buffer) : Prop
  | hello {msg1 : Buffer} (hq : q true = []) (hq' : q false = [msg1])
      (h : Greeted (l true).conn.hs (l false).conn.hs msg1)
  | answered {msg2 : Buffer} (hq : q true = [msg2]) (hq' : q false = [])
      (h : Answered (l true).conn.hs (l false).conn.hs msg2)

/-- The link before the initiator has its session. -/
def Shaking (l : Link S) : Prop := ∃ q, Sound l q ∧ (∀ i, Fresh (l i)) ∧ Phase l q

section
variable {l : Link S} {q : Bool → List Buffer} (hsound : Sound l q) (hfresh : ∀ i, Fresh (l i))
  {f : Buffer} {rest : List Buffer} (nonce : S.Nonce) (now : ℕ)
include hsound hfresh

/-- The responder answers MSG1 with MSG2, and the link is still shaking hands. -/
theorem Shaking.of_greeted (hq : q true = []) (hq' : q false = [f])
    (h : Greeted (l true).conn.hs (l false).conn.hs f) (hframes : (l false).frames = f :: rest) :
    Shaking (l.handle false nonce now) := by
  obtain ⟨hR', msg2, hmsg1, hlen, hanswer⟩ := h
  have hon : (l false).conn.onFrame f true nonce now =
      ({ (l false).conn with hs := hR', session := none }, [.write msg2]) :=
    onFrame_of_handshake (hsound.isOpen false) (hfresh false).session hmsg1
      (by simp [hlen, msg1Len, ePubLen, idLen, sigLen]) nonce now
  obtain ⟨fs, hfs, hsound'⟩ := hsound.handle hframes hon (hsound.isOpen false) rfl (by simp)
    (by simp [hlen, msg1Len, ePubLen, idLen, sigLen, sessionMaxFrame])
  obtain ⟨-, rfl⟩ := List.cons.inj (hq'.symm.trans hfs)
  have hself := Link.handle_self hframes hon (hsound.isOpen false)
  have hnot : l.handle false nonce now true = _ :=
    Link.handle_not hframes hon (hsound.isOpen false)
  have hmsg2 : ends false [] (q (!false) ++ writes [Effect.write (S := S) msg2]) true = [msg2] := by
    show q true ++ [msg2] = [msg2]
    rw [hq, List.nil_append]
  have hf := hfresh false
  have ht := hfresh true
  refine ⟨_, hsound', forall_bool_of false ?_ ?_, .answered hmsg2 rfl ?_⟩
  · rw [hself]
    exact ⟨rfl, hf.rekeying, hf.txSeq, hf.rxSeq, hf.sent, by simp [hf.messages]⟩
  · rw [Bool.not_false, hnot]
    exact ⟨ht.session, ht.rekeying, ht.txSeq, ht.rxSeq, ht.sent, ht.messages⟩
  · rw [hself, hnot]
    exact hanswer

/-- The initiator answers MSG2 with MSG3 and has its session. -/
theorem Live.of_answered (hq : q true = [f]) (hq' : q false = [])
    (h : Answered (l true).conn.hs (l false).conn.hs f) (hframes : (l true).frames = f :: rest) :
    Live (l.handle true nonce now) := by
  obtain ⟨hI', msg3, sI, hR', sR, hmsg2, hlen, hmsg3, htx, hrx⟩ := h
  have hon : (l true).conn.onFrame f true nonce now =
      ({ (l true).conn with hs := hI', session := some sI }, [.write msg3, .secure sI.peerId]) :=
    onFrame_of_handshake (hsound.isOpen true) (hfresh true).session hmsg2
      (by simp [hlen, msg3Len, sigLen]) nonce now
  obtain ⟨fs, hfs, hsound'⟩ := hsound.handle hframes hon (hsound.isOpen true) rfl (by simp)
    (by simp [hlen, msg3Len, sigLen, sessionMaxFrame])
  obtain ⟨-, rfl⟩ := List.cons.inj (hq.symm.trans hfs)
  have hself := Link.handle_self hframes hon (hsound.isOpen true)
  have hnot : l.handle true nonce now false = _ :=
    Link.handle_not hframes hon (hsound.isOpen true)
  have hf := hfresh false
  have ht := hfresh true
  have hmsg3' : ends true [] (q (!true) ++ writes [.write msg3, .secure sI.peerId]) false =
      msg3 :: sealAll sR.rxKey [] := by
    show q false ++ [msg3] = [msg3]
    rw [hq', List.nil_append]
  refine ⟨_, ends true sI sR, fun _ ↦ [], hsound', .of_side true ?_ ?_ ?_ ?_ ?_ ?_⟩
  all_goals simp only [Bool.not_true, hself, hnot]
  · exact .session rfl rfl
  · exact .confirm hf.session hmsg3 hmsg3'
  · show Way sR.txKey sI.rxKey (l false).sent _ (l false).conn.txSeq (l true).conn.rxSeq []
    rw [hf.sent, hf.txSeq, ht.rxSeq, messages_append, ht.messages, hrx]
    exact .fresh _
  · show Way sI.txKey sR.rxKey (l true).sent _ (l true).conn.txSeq (l false).conn.rxSeq []
    rw [ht.sent, ht.txSeq, hf.rxSeq, hf.messages, htx]
    exact .fresh _
  · rw [ht.rekeying]
    rfl
  · rw [hf.rekeying]
    rfl

end

/-- MSG1 or MSG2 is handled, after which the handshake goes on or both ends are live. -/
theorem Shaking.handle {l : Link S} (h : Shaking l) {i : Bool} {f : Buffer}
    {rest : List Buffer} (hframes : (l i).frames = f :: rest) (nonce : S.Nonce) (now : ℕ) :
    Shaking (l.handle i nonce now) ∨ Live (l.handle i nonce now) := by
  obtain ⟨q, hsound, hfresh, hphase⟩ := h
  obtain ⟨fs, hq, -⟩ := hsound.pop hframes
  cases hphase with
  | hello hq₁ hq₂ hgreet =>
    cases i with
    | true => cases hq₁.symm.trans hq
    | false =>
      obtain ⟨rfl, -⟩ := List.cons.inj (hq₂.symm.trans hq)
      exact .inl (.of_greeted hsound hfresh nonce now hq₁ hq₂ hgreet hframes)
  | answered hq₁ hq₂ hanswer =>
    cases i with
    | false => cases hq₂.symm.trans hq
    | true =>
      obtain ⟨rfl, -⟩ := List.cons.inj (hq₁.symm.trans hq)
      exact .inr (.of_answered hsound hfresh nonce now hq₁ hq₂ hanswer hframes)

/-! ## Every run -/

/-- Arriving bytes change nothing but the place where a frame is. -/
theorem Sound.receive {l : Link S} {q : Bool → List Buffer} (h : Sound l q) (i : Bool) (n : ℕ) :
    Sound (l.receive i n) q ∧ ∀ j, ∃ d, (l.receive i n j).conn = { (l j).conn with decoder := d } ∧
      (l.receive i n j).sent = (l j).sent ∧ (l.receive i n j).effects = (l j).effects := by
  obtain ⟨d, now, hreceive, hcarries⟩ := (h.carries i).receive n
  have hself : l.receive i n i = { l i with
      conn := { (l i).conn with decoder := d }
      inbox := (l i).inbox.drop n
      frames := (l i).frames ++ now } := by
    rw [Link.receive_eq hreceive, Function.update_self]
  have hnot : l.receive i n (!i) = l !i := by
    rw [Link.receive_eq hreceive, Function.update_of_ne (Bool.not_ne_self i)]
  refine ⟨⟨forall_bool_of i ?_ ?_, forall_bool_of i ?_ ?_, forall_bool_of i ?_ ?_⟩,
    forall_bool_of i ⟨d, ?_⟩ ⟨(l !i).conn.decoder, ?_⟩⟩
  · rw [hself]
    exact hcarries
  · rw [hnot]
    exact h.carries !i
  · rw [hself]
    exact h.isOpen i
  · rw [hnot]
    exact h.isOpen !i
  · rw [hself]
    exact h.quiet i
  · rw [hnot]
    exact h.quiet !i
  · rw [hself]
    exact ⟨rfl, rfl, rfl⟩
  · rw [hnot]
    exact ⟨rfl, rfl, rfl⟩

theorem Live.receive {l : Link S} (h : Live l) (i : Bool) (n : ℕ) : Live (l.receive i n) := by
  obtain ⟨q, s, items, hsound, hreads, hway, hout⟩ := h
  obtain ⟨hsound', hkeep⟩ := hsound.receive i n
  refine ⟨q, s, items, hsound', fun j ↦ ?_, fun j ↦ ?_, fun j ↦ ?_⟩
  all_goals obtain ⟨d, hconn, hsent, heffects⟩ := hkeep j
  · exact (hreads j).keep (by rw [hconn]) (by rw [hconn])
  · obtain ⟨d', hconn', hsent', -⟩ := hkeep !j
    rw [hconn, hconn', hsent', heffects]
    exact hway j
  · rw [hconn]
    exact hout j

theorem Shaking.receive {l : Link S} (h : Shaking l) (i : Bool) (n : ℕ) :
    Shaking (l.receive i n) := by
  obtain ⟨q, hsound, hfresh, hphase⟩ := h
  obtain ⟨hsound', hkeep⟩ := hsound.receive i n
  have hhs : ∀ j, (l.receive i n j).conn.hs = (l j).conn.hs := by
    intro j
    obtain ⟨d, hconn, -⟩ := hkeep j
    rw [hconn]
  refine ⟨q, hsound', fun j ↦ ?_, ?_⟩
  · obtain ⟨d, hconn, hsent, heffects⟩ := hkeep j
    have hf := hfresh j
    exact ⟨by rw [hconn, hf.session], by rw [hconn, hf.rekeying], by rw [hconn, hf.txSeq],
      by rw [hconn, hf.rxSeq], hsent.trans hf.sent, by rw [heffects, hf.messages]⟩
  · cases hphase with
    | hello hq hq' hgreet => exact .hello hq hq' (by rwa [hhs, hhs])
    | answered hq hq' hanswer => exact .answered hq hq' (by rwa [hhs, hhs])

/-- Before the handshake is over, calls do nothing: `send` throws, and the others return. -/
theorem Shaking.idle {l : Link S} (h : Shaking l) (i : Bool) (nonce : S.Nonce) :
    l.next (.rekey i nonce) = l ∧ (∀ now, l.next (.tick i nonce now) = l) ∧
      ∀ body nonce' now, l.next (.send i body nonce nonce' now) = l := by
  obtain ⟨q, -, hfresh, -⟩ := h
  have hnone := (hfresh i).session
  have hrekey := rekey_of_rekeying (.inl hnone) nonce
  refine ⟨?_, fun now ↦ ?_, fun body nonce' now ↦ ?_⟩
  · rw [Link.next, hrekey]
    exact l.act_nil i
  · rcases maybeAutoRekey_eq (l i).conn nonce now with heq | heq
    · rw [Link.next, heq]
      exact l.act_nil i
    · rw [Link.next, heq, hrekey]
      exact l.act_nil i
  · rw [Link.next, SecureConnection.send, hnone, l.record_of_none i body hnone]
    exact l.act_nil i

theorem Shaking.start (hS : S.Lawful) (e : Endpoints S) : Shaking (.start e) := by
  have hlen := hS.length_hello (e.ePriv true) (e.signKey true) [S.publicKey (e.ePriv true)]
  refine ⟨ends true [] [(HandshakeInitiator.new S (e.signKey true) (e.ePriv true)).createMessage1],
    ⟨forall_bool_of true ?_ ?_, forall_bool_of true rfl rfl, forall_bool_of true ?_ ?_⟩,
    forall_bool_of true ?_ ?_, ?_⟩
  · exact ⟨rfl, by simp, [], rfl, rfl⟩
  · refine ⟨rfl, fun f hf ↦ ?_, _, rfl, rfl⟩
    obtain rfl := List.mem_singleton.mp hf
    exact le_of_eq_of_le hlen (by decide)
  · intro err hmem
    cases List.mem_singleton.mp hmem
  · intro err hmem
    cases hmem
  · exact ⟨rfl, rfl, rfl, rfl, rfl, rfl⟩
  · exact ⟨rfl, rfl, rfl, rfl, rfl, rfl⟩
  · exact .hello rfl rfl (hS.greeted _ _ _ _)

/-- The link is in its handshake or past it, in every reachable state; this is the invariant that
all results about honest endpoints begin with. -/
theorem shaking_or_live (hS : S.Lawful) {l : Link S} (h : (link S).Reachable l) :
    Shaking l ∨ Live l := by
  refine Machine.Reachable.invariant (I := fun l ↦ Shaking l ∨ Live l) ?_ ?_ h
  · rintro l ⟨e, rfl⟩
    exact .inl (.start hS e)
  · rintro l e l' - hl ⟨henabled, rfl⟩
    cases e with
    | send i body nonce nonce' now =>
      rcases hl with hl | hl
      · rw [(hl.idle i nonce).2.2]
        exact .inl hl
      · exact .inr (hl.send hS i henabled nonce nonce' now)
    | rekey i nonce =>
      rcases hl with hl | hl
      · rw [(hl.idle i nonce).1]
        exact .inl hl
      · exact .inr (hl.rekey hS i nonce)
    | tick i nonce now =>
      rcases hl with hl | hl
      · rw [(hl.idle i nonce).2.1]
        exact .inl hl
      · exact .inr (hl.tick hS i nonce now)
    | data i n =>
      exact hl.imp (fun hl ↦ hl.receive i n) fun hl ↦ hl.receive i n
    | frame i nonce now =>
      cases hframes : (l i).frames with
      | nil =>
        rw [Link.next, Link.handle, hframes]
        exact hl
      | cons f rest =>
        rcases hl with hl | hl
        · exact hl.handle hframes nonce now
        · exact .inr (hl.handle hS hframes nonce (henabled f (by simp [hframes])))

/-- Without frames on the way the queue is empty. -/
theorem Reads.empty {x : Side S} {s : SecureSession S} {items : List (Item S)}
    (h : Reads x s items []) : items = [] := by
  cases h with
  | session _ hfs =>
    cases items with
    | nil => rfl
    | cons it later => cases hfs
  | confirm _ _ hfs => cases hfs

/-- When both directions are drained, keys agree and nobody is rekeying. -/
theorem Joined.drained {l : Link S} {q : Bool → List Buffer} {s : Bool → SecureSession S}
    {items : Bool → List (Item S)} (hsound : Sound l q) (h : Joined l q s items)
    (hdrained : ∀ i, (l i).Drained) (i : Bool) :
    (s i).txKey = (s !i).rxKey ∧ (l i).conn.rekeying = false := by
  have hitems : ∀ j, items j = [] := by
    intro j
    have hreads := h.reads j
    rw [(hsound.carries j).drained (hdrained j)] at hreads
    exact hreads.empty
  have hkey := (h.opposite i).1.key
  have hout := h.outstanding i
  rw [hitems] at hkey
  rw [hitems, hitems] at hout
  exact ⟨hkey.symm, Bool.toNat_eq_zero.mp hout.symm⟩

/-- **Delivery and rekeying.**  In every run of two honest endpoints, whatever they send, whenever
they rekey and however their bytes arrive:

* neither reports an error or closes, and the next frame an endpoint handles was sealed under its
  receive key;
* the bodies an endpoint has emitted are a prefix of those passed to `send` at the other;
* once both directions are drained, keys agree and nobody is rekeying. -/
theorem honest_delivery {N : Sodium} (hN : N.Lawful) {l : Link (octets N)}
    (h : (link (octets N)).Reachable l) (i : Bool) :
    ((l i).conn.closed = false ∧ (∀ err, .error err ∉ (l i).effects) ∧
      ∀ s, (l i).conn.session = some s → ∀ f ∈ (l i).frames.head?,
        ∃ nonce pt, f = (octets N).aeadSeal s.rxKey nonce pt) ∧
    messages (l i).effects <+: (l !i).sent ∧
    ((∀ j, (l j).Drained) → ∀ s t, (l i).conn.session = some s → (l !i).conn.session = some t →
      s.txKey = t.rxKey ∧ (l i).conn.rekeying = false) := by
  have hS := octets_lawful hN
  rcases shaking_or_live hS h with ⟨q, hsound, hfresh, -⟩ | ⟨q, s, items, hsound, hjoined⟩
  · have hf := hfresh i
    refine ⟨⟨hsound.isOpen i, hsound.quiet i, fun s hs ↦ ?_⟩, ?_, fun _ s t hs ↦ ?_⟩
    · cases hf.session.symm.trans hs
    · rw [hf.messages]
      exact List.nil_prefix
    · cases hf.session.symm.trans hs
  · refine ⟨⟨hsound.isOpen i, hsound.quiet i, fun t hs f hf ↦ ?_⟩, (hjoined.way i).delivered,
      fun hdrained t t' hs hs' ↦ ?_⟩
    · obtain ⟨rfl, hfs⟩ := (hjoined.reads i).of_session hs
      obtain ⟨rest, hframes⟩ := List.head?_eq_some_iff.mp hf
      obtain ⟨fs, hq, -⟩ := hsound.pop hframes
      cases hitems : items i with
      | nil => simp [hitems, sealAll, hq] at hfs
      | cons it later =>
        rw [hq, hitems, sealAll] at hfs
        exact ⟨_, _, (List.cons.inj hfs).1⟩
    · obtain ⟨rfl, -⟩ := (hjoined.reads i).of_session hs
      obtain ⟨rfl, -⟩ := (hjoined.reads !i).of_session hs'
      exact hjoined.drained hsound hdrained i

/-! ### A handshake, a message and a rekey -/

namespace SampleLink

/-- The public keys of the Ed25519 seeds `9d61b19d…cae7f60` and `4ccd089b…f8a6fb`. -/
def idI : Buffer :=
  [215, 90, 152, 1, 130, 177, 10, 183, 213, 75, 254, 211, 201, 100, 7, 58, 14, 225, 114, 243, 218,
    166, 35, 37, 175, 2, 26, 104, 247, 7, 81, 26]

def idR : Buffer :=
  [61, 64, 23, 195, 232, 67, 137, 90, 146, 183, 10, 167, 77, 27, 126, 188, 156, 152, 44, 207, 46,
    196, 150, 140, 192, 205, 85, 241, 42, 244, 102, 12]

/-- The X25519 public keys of the scalars `01 02 … 20` and `21 22 … 40`. -/
def ePubI : Buffer :=
  [7, 163, 124, 188, 20, 32, 147, 200, 183, 85, 220, 27, 16, 232, 108, 180, 38, 55, 74, 209, 106,
    168, 83, 237, 11, 223, 192, 178, 184, 109, 28, 124]

def ePubR : Buffer :=
  [88, 105, 175, 244, 80, 84, 151, 50, 203, 170, 237, 94, 93, 249, 179, 10, 109, 163, 28, 176,
    229, 116, 43, 173, 90, 212, 161, 167, 104, 241, 166, 123]

/-- Their shared secret, as `crypto_scalarmult` gives it to either of them. -/
def dh : Buffer :=
  [168, 77, 199, 195, 200, 240, 88, 177, 178, 220, 76, 209, 233, 181, 220, 10, 121, 135, 248, 139,
    106, 149, 100, 205, 227, 57, 31, 196, 33, 21, 158, 119]

def dhI : Buffer :=
  [225, 218, 13, 66, 189, 237, 49, 73, 225, 227, 14, 111, 42, 218, 20, 107, 223, 218, 237, 195,
    134, 73, 191, 70, 196, 49, 213, 13, 5, 168, 146, 66]

def dhR : Buffer :=
  [1, 162, 68, 121, 80, 58, 111, 197, 156, 3, 32, 198, 207, 6, 178, 32, 181, 95, 253, 235, 155,
    41, 213, 120, 147, 23, 229, 10, 195, 99, 226, 20]

/-- The three signatures of the handshake, by the keys of the sample. -/
def sig1 : Buffer :=
  [36, 250, 247, 31, 140, 253, 61, 193, 4, 172, 34, 179, 63, 142, 62, 41, 83, 191, 108, 93, 224,
    93, 217, 147, 76, 24, 114, 113, 118, 54, 40, 2, 169, 160, 137, 136, 23, 104, 76, 54, 222, 121,
    157, 143, 161, 114, 217, 168, 233, 105, 39, 10, 11, 224, 109, 215, 131, 147, 48, 191, 20, 7,
    10, 11]

def sig2 : Buffer :=
  [183, 77, 32, 92, 27, 252, 193, 19, 88, 247, 34, 208, 115, 200, 139, 238, 31, 160, 60, 209, 140,
    27, 87, 47, 180, 37, 161, 206, 50, 93, 154, 197, 181, 248, 111, 56, 205, 209, 59, 103, 254,
    164, 227, 34, 72, 116, 229, 173, 53, 38, 110, 102, 27, 143, 56, 99, 113, 18, 230, 240, 219,
    202, 93, 13]

def sig3 : Buffer :=
  [17, 136, 249, 120, 118, 164, 106, 208, 73, 33, 11, 57, 116, 223, 70, 62, 89, 194, 183, 117, 57,
    32, 115, 10, 54, 120, 32, 216, 254, 168, 146, 204, 112, 213, 193, 228, 234, 245, 125, 190, 38,
    242, 201, 227, 59, 62, 205, 52, 107, 27, 223, 213, 195, 19, 211, 92, 160, 138, 116, 217, 235,
    187, 62, 1]

/-- `kI`, `kR` and the keys that follow them. -/
def keyI : Buffer :=
  [81, 102, 130, 87, 219, 162, 191, 143, 238, 92, 142, 47, 21, 44, 84, 11, 97, 238, 24, 88, 85,
    222, 124, 153, 183, 248, 253, 179, 17, 124, 179, 91]

def keyR : Buffer :=
  [224, 197, 196, 83, 124, 182, 85, 66, 75, 203, 177, 36, 45, 28, 27, 49, 171, 193, 162, 144, 139,
    70, 89, 234, 177, 182, 109, 19, 249, 33, 54, 154]

def keyI' : Buffer :=
  [63, 82, 158, 186, 181, 13, 146, 119, 154, 91, 39, 150, 172, 70, 121, 50, 138, 133, 127, 174,
    113, 215, 194, 183, 210, 245, 164, 207, 79, 203, 254, 12]

def keyR' : Buffer :=
  [213, 46, 211, 126, 105, 227, 37, 25, 232, 175, 255, 247, 96, 65, 23, 127, 228, 202, 108, 81,
    88, 186, 76, 239, 5, 54, 253, 244, 187, 231, 183, 1]

/-- The DATA frame of "hi", the REKEY frame and the REKEY_ACK frame, encrypted. -/
def data : Buffer :=
  [81, 37, 77, 181, 84, 81, 19, 75, 37, 65, 172, 177, 122, 107, 213, 53, 39, 206, 249, 154, 103,
    248, 235, 243, 160, 153, 159]

def rekey : Buffer :=
  [14, 64, 253, 67, 147, 105, 107, 190, 54, 105, 124, 24, 210, 175, 25, 227, 24]

def ack : Buffer :=
  [157, 76, 205, 42, 194, 54, 50, 164, 113, 179, 29, 164, 208, 136, 2, 240, 106]

/-- The nonces they are sealed with, each of which repeats one byte. -/
def nonce (b : UInt8) : { b : Buffer // b.length = npubBytes } :=
  ⟨List.replicate npubBytes b, List.length_replicate⟩

def encrypt (pt n key : Buffer) : Buffer :=
  if key = keyI ∧ n = (nonce 1).1 ∧ pt = SecureConnection.dataPlaintext 1 [104, 105] then data
  else if key = keyI ∧ n = (nonce 2).1 ∧ pt = [ctrlRekey] then rekey
  else if key = keyR ∧ n = (nonce 3).1 ∧ pt = [ctrlRekeyAck] then ack
  else pt ++ List.replicate 16 0

def decrypt (c n key : Buffer) : Except String Buffer :=
  if key = keyI ∧ n = (nonce 1).1 ∧ c = data then .ok (SecureConnection.dataPlaintext 1 [104, 105])
  else if key = keyI ∧ n = (nonce 2).1 ∧ c = rekey then .ok [ctrlRekey]
  else if key = keyR ∧ n = (nonce 3).1 ∧ c = ack then .ok [ctrlRekeyAck]
  else .ok (c.take (c.length - 16))

/-- Functions that take the values of the real ones on the run below. -/
def sodium : Sodium where
  SignKey := Bool
  publicKey i := if i then idI else idR
  signDetached m i := if i then if m = ePubI then sig1 else sig3 else sig2
  verifyDetached sig m id :=
    decide (sig = if id = idI then if m = ePubI then sig1 else sig3 else sig2)
  sha256 _ := List.replicate 32 0
  hmacSha256 _ _ := List.replicate 32 0
  KxPriv := Bool
  kxPublicKey i := if i then ePubI else ePubR
  scalarmult i ePub :=
    .ok (if i then if ePub = ePubI then dhI else dh else if ePub = ePubI then dh else dhR)
  hkdfSync key salt info :=
    if salt = hkdfSalt then if info = "AttestP2P I->R" then keyI else keyR
    else if key = keyI then keyI' else keyR'
  encrypt := encrypt
  decrypt := decrypt

theorem append_zeros_ne {c : Buffer} (hc : c.drop (c.length - 16) ≠ List.replicate 16 0)
    (pt : Buffer) : pt ++ List.replicate 16 0 ≠ c := by
  rintro rfl
  apply hc
  rw [List.length_append, List.length_replicate, Nat.add_sub_cancel, List.drop_left]

theorem length_encrypt (pt n key : Buffer) : (encrypt pt n key).length = pt.length + 16 := by
  rw [encrypt]
  split_ifs with h₁ h₂ h₃
  · rw [h₁.2.2]
    rfl
  · rw [h₂.2.2]
    rfl
  · rw [h₃.2.2]
    rfl
  · rw [List.length_append, List.length_replicate]

theorem decrypt_encrypt (pt n key : Buffer) : decrypt (encrypt pt n key) n key = .ok pt := by
  rw [encrypt]
  split_ifs with h₁ h₂ h₃
  · rw [decrypt, if_pos ⟨h₁.1, h₁.2.1, rfl⟩, h₁.2.2]
  · rw [decrypt, if_neg fun h ↦ absurd h.2.2 (by decide), if_pos ⟨h₂.1, h₂.2.1, rfl⟩, h₂.2.2]
  · rw [decrypt, if_neg fun h ↦ absurd h.2.2 (by decide),
      if_neg fun h ↦ absurd h.2.2 (by decide), if_pos ⟨h₃.1, h₃.2.1, rfl⟩, h₃.2.2]
  · rw [decrypt, if_neg fun h ↦ append_zeros_ne (by decide) pt h.2.2,
      if_neg fun h ↦ append_zeros_ne (by decide) pt h.2.2,
      if_neg fun h ↦ append_zeros_ne (by decide) pt h.2.2, List.length_append,
      List.length_replicate, Nat.add_sub_cancel, List.take_left]

theorem sodium_lawful : sodium.Lawful where
  length_publicKey i := by cases i <;> rfl
  length_signDetached m i := by
    simp only [sodium]
    split_ifs <;> rfl
  verify_sign m i := by
    have hid : idR ≠ idI := by decide
    cases i <;> simp [sodium, hid]
  length_sha256 _ := rfl
  length_hmacSha256 _ _ := rfl
  length_kxPublicKey i := by cases i <;> rfl
  scalarmult_comm a b := by cases a <;> cases b <;> exact ⟨_, rfl, rfl⟩
  length_encrypt := length_encrypt
  decrypt_encrypt := decrypt_encrypt

/-- The initiator sends "hi" and rekeys; every byte arrives. -/
def events : List (LinkEvent (octets sodium)) :=
  [.data false 132, .frame false (nonce 0) 1, .data true 132, .frame true (nonce 0) 2,
    .send true [104, 105] (nonce 1) (nonce 0) 3, .rekey true (nonce 2), .data false 168,
    .frame false (nonce 0) 4, .frame false (nonce 0) 5, .frame false (nonce 3) 6, .data true 45,
    .frame true (nonce 0) 7]

def endpoints : Endpoints (octets sodium) where
  signKey := id
  ePriv := id
  options _ := {}
  now _ := 0

def outcome : Link (octets sodium) := events.foldl Link.next (.start endpoints)

theorem feasible : Machine.Feasible Link.enabled Link.next (.start endpoints) events := by
  have hrate : ∀ (c : SecureConnection (octets sodium)) (now : ℕ),
      (c.msgAllow now).2 = true → ∀ frame, c.WithinRate frame now :=
    fun _ _ h _ _ _ _ _ _ ↦ h
  refine ⟨Nat.le_of_ble_eq_true ?_, fun f _ ↦ hrate _ _ ?_ f, Nat.le_of_ble_eq_true ?_,
    fun f _ ↦ hrate _ _ ?_ f, Nat.le_of_ble_eq_true ?_, trivial, Nat.le_of_ble_eq_true ?_,
    fun f _ ↦ hrate _ _ ?_ f, fun f _ ↦ hrate _ _ ?_ f, fun f _ ↦ hrate _ _ ?_ f,
    Nat.le_of_ble_eq_true ?_, fun f _ ↦ hrate _ _ ?_ f, trivial⟩
  all_goals decide +kernel

theorem outcome_reachable : (link (octets sodium)).Reachable outcome :=
  ⟨_, events, ⟨endpoints, rfl⟩,
    Machine.run_foldl (M := link (octets sodium)) (fun _ _ h ↦ ⟨h, rfl⟩) feasible⟩

theorem outcome_drained : ∀ i, (outcome i).Drained := by
  intro i
  cases i <;> exact ⟨by decide +kernel, by decide +kernel, by decide +kernel⟩

end SampleLink

open SampleLink in
theorem honest_delivery_sample :
    messages (outcome false).effects = [[104, 105]] ∧
      messages (outcome false).effects <+: (outcome true).sent ∧
      ∃ s t, (outcome true).conn.session = some s ∧ (outcome false).conn.session = some t ∧
        s.txKey = keyI' ∧ s.txKey = t.rxKey ∧ t.txKey = s.rxKey := by
  obtain ⟨s, hs⟩ := Option.isSome_iff_exists.mp
    (show (outcome true).conn.session.isSome = true by decide +kernel)
  obtain ⟨t, ht⟩ := Option.isSome_iff_exists.mp
    (show (outcome false).conn.session.isSome = true by decide +kernel)
  have hkey : ((outcome true).conn.session.map (·.txKey) : Option Buffer) = some keyI' := by
    decide +kernel
  rw [hs] at hkey
  obtain ⟨-, -, htrue⟩ := honest_delivery sodium_lawful outcome_reachable true
  obtain ⟨-, hprefix, hfalse⟩ := honest_delivery sodium_lawful outcome_reachable false
  exact ⟨by decide +kernel, hprefix, s, t, hs, ht, Option.some.inj hkey,
    (htrue outcome_drained s t hs ht).1, (hfalse outcome_drained t s ht hs).1⟩

end AttestP2P
