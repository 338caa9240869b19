import AttestP2P.Session.Way

/-!
# The two directions together

The two directions of a link are only tied by the count of outstanding rekeys: an endpoint is
rekeying just when its REKEY or the answer to it is on the way.  Both endpoints rekeying at once is
no special case.  Everything else is said of each direction alone, so that a step, which acts at one
endpoint, is a change at one end of one direction and at the other end of the other one.

* `Reads` says what an endpoint will make of the frames on the way to it: they are the queue, after
  MSG3 if it still waits for that.
* `Outstanding` is the count, with one lemma for each way in which it changes.
* `Joined` is the invariant of the channel, `Sound` that of the byte streams below it, and `Live`
  the two together.
* `Live.rekey`, `Live.tick`, `Live.send` and `Live.handle`: every step keeps it.
-/

set_option autoImplicit false

namespace AttestP2P

open Buffer SecureConnection

variable {S : Suite Buffer}

/-! ## Both directions -/

/-- What the endpoint `x` makes of the frames on the way to it: they are the queue, sealed from its
receive key on, after MSG3 if it still waits for that. -/
inductive Reads (x : Side S) (s : SecureSession S) (items : List (Item S)) (fs : List Buffer) : Prop
  | session (hs : x.conn.session = some s) (hfs : fs = sealAll s.rxKey items)
  | confirm {msg3 : Buffer} {hs' : Handshake S} (hs : x.conn.session = none)
      (hon : x.conn.hs.onFrame msg3 = (hs', .ok ⟨[], some s⟩))
      (hfs : fs = msg3 :: sealAll s.rxKey items)

theorem Reads.push {x : Side S} {s : SecureSession S} {items : List (Item S)} {fs : List Buffer}
    {tx : S.Key} (h : Reads x s items fs) (hkey : keyAfter s.rxKey items = tx) (it : Item S)
    (inbox : Buffer) :
    Reads { x with inbox := inbox } s (items ++ [it])
      (fs ++ [S.aeadSeal tx it.nonce it.plaintext]) := by
  rw [← hkey]
  cases h with
  | session hs hfs => exact .session hs (by rw [hfs, sealAll_append])
  | confirm hs hon hfs => exact .confirm hs hon (by rw [hfs, sealAll_append, List.cons_append])

theorem Reads.keep {x y : Side S} {s : SecureSession S} {items : List (Item S)} {fs : List Buffer}
    (h : Reads x s items fs) (hsession : y.conn.session = x.conn.session)
    (hhs : y.conn.hs = x.conn.hs) : Reads y s items fs := by
  cases h with
  | session hs hfs => exact .session (hsession.trans hs) hfs
  | confirm hs hon hfs => exact .confirm (hsession.trans hs) (by rw [hhs, hon]) hfs

/-- An endpoint is rekeying just when its REKEY (in `out`) or the answer (in `back`) is on the
way. -/
def Outstanding (rekeying : Bool) (out back : List (Item S)) : Prop :=
  out.countP Item.isRekey + back.countP Item.isAck = rekeying.toNat

namespace Outstanding

variable {rekeying : Bool} {out back : List (Item S)}

/-- The endpoint sends REKEY, and is rekeying until the answer is back. -/
theorem begin (h : Outstanding false out back) (nonce : S.Nonce) :
    Outstanding true (out ++ [.rekey nonce]) back := by
  have hcount : (out ++ [Item.rekey nonce]).countP Item.isRekey = out.countP Item.isRekey + 1 := by
    rw [List.countP_append]
    rfl
  rw [Outstanding, Bool.toNat_false] at h
  rw [Outstanding, hcount, Bool.toNat_true]
  omega

/-- The peer opens REKEY and answers, so that the answer is on the way back. -/
theorem answer {nonce : S.Nonce} (h : Outstanding rekeying (.rekey nonce :: out) back)
    (nonce' : S.Nonce) : Outstanding rekeying out (back ++ [.ack nonce']) := by
  have hout : (Item.rekey nonce :: out).countP Item.isRekey = out.countP Item.isRekey + 1 :=
    List.countP_cons_of_pos rfl
  have hback : (back ++ [Item.ack nonce']).countP Item.isAck = back.countP Item.isAck + 1 := by
    rw [List.countP_append]
    rfl
  rw [Outstanding, hout] at h
  rw [Outstanding, hback]
  omega

/-- The endpoint opens REKEY_ACK, and nothing is outstanding any more. -/
theorem finish {nonce : S.Nonce} (h : Outstanding rekeying out (.ack nonce :: back)) :
    Outstanding false out back := by
  have hback : (Item.ack nonce :: back).countP Item.isAck = back.countP Item.isAck + 1 :=
    List.countP_cons_of_pos rfl
  have hle := Bool.toNat_le rekeying
  rw [Outstanding, hback] at h
  rw [Outstanding, Bool.toNat_false]
  omega

theorem push (h : Outstanding rekeying out back) {it : Item S} (hit : it.isRekey = false) :
    Outstanding rekeying (out ++ [it]) back := by
  rw [Outstanding, List.countP_append, List.countP_singleton, hit]
  exact h

theorem pushBack (h : Outstanding rekeying out back) {it : Item S} (hit : it.isAck = false) :
    Outstanding rekeying out (back ++ [it]) := by
  rw [Outstanding, List.countP_append, List.countP_singleton, hit]
  exact h

theorem pop {it : Item S} (h : Outstanding rekeying (it :: out) back) (hit : it.isRekey = false) :
    Outstanding rekeying out back := by
  rwa [Outstanding, List.countP_cons_of_neg (by rw [hit]; exact Bool.false_ne_true)] at h

theorem popBack {it : Item S} (h : Outstanding rekeying out (it :: back)) (hit : it.isAck = false) :
    Outstanding rekeying out back := by
  rwa [Outstanding, List.countP_cons_of_neg (by rw [hit]; exact Bool.false_ne_true)] at h

end Outstanding

/-- The two endpoints share their secrets; `items i` is on the way to endpoint `i`. -/
structure Joined (l : Link S) (q : Bool → List Buffer) (s : Bool → SecureSession S)
    (items : Bool → List (Item S)) : Prop where
  reads : ∀ i, Reads (l i) (s i) (items i) (q i)
  way : ∀ i, Way (s !i).txKey (s i).rxKey (l !i).sent (messages (l i).effects) (l !i).conn.txSeq
    (l i).conn.rxSeq (items i)
  outstanding : ∀ i, Outstanding (l i).conn.rekeying (items !i) (items i)

/-- Both directions at once, seen from endpoint `i`, which reads the one and writes the other. -/
theorem Joined.of_side {l : Link S} {q : Bool → List Buffer} {s : Bool → SecureSession S}
    {items : Bool → List (Item S)} (i : Bool) (hread : Reads (l i) (s i) (items i) (q i))
    (hread' : Reads (l !i) (s !i) (items !i) (q !i))
    (hway : Way (s !i).txKey (s i).rxKey (l !i).sent (messages (l i).effects) (l !i).conn.txSeq
      (l i).conn.rxSeq (items i))
    (hway' : Way (s i).txKey (s !i).rxKey (l i).sent (messages (l !i).effects) (l i).conn.txSeq
      (l !i).conn.rxSeq (items !i))
    (hout : Outstanding (l i).conn.rekeying (items !i) (items i))
    (hout' : Outstanding (l !i).conn.rekeying (items i) (items !i)) : Joined l q s items where
  reads := forall_bool_of i hread hread'
  way := forall_bool_of i hway (by rwa [Bool.not_not])
  outstanding := forall_bool_of i hout (by rwa [Bool.not_not])

/-- A value for endpoint `i` and one for the other. -/
def ends {α : Type*} (i : Bool) (a b : α) : Bool → α := fun j ↦ if j = i then a else b

@[simp] theorem ends_self {α : Type*} (i : Bool) (a b : α) : ends i a b i = a := if_pos rfl

@[simp] theorem ends_not {α : Type*} (i : Bool) (a b : α) : ends i a b (!i) = b :=
  if_neg (Bool.not_ne_self i)

/-- Byte streams carry the frames `q`, and nothing has gone wrong. -/
structure Sound (l : Link S) (q : Bool → List Buffer) : Prop where
  carries : ∀ i, Carries (l i) (q i)
  isOpen : ∀ i, (l i).conn.closed = false
  quiet : ∀ i err, .error err ∉ (l i).effects

theorem Sound.act {l : Link S} {q : Bool → List Buffer} (h : Sound l q) {i : Bool}
    {c : SecureConnection S} {w : List (Effect S)} (hopen : c.closed = false)
    (hdecoder : c.decoder = (l i).conn.decoder) (hquiet : ∀ err, .error err ∉ w)
    (hsmall : ∀ f ∈ writes w, f.length ≤ sessionMaxFrame) :
    Sound (l.act i c w) (ends i (q i) (q (!i) ++ writes w)) where
  carries := forall_bool_of i
    (by rw [Link.act_self, ends_self]; exact (h.carries i).of_decoder hdecoder _ _)
    (by rw [Link.act_not, ends_not]; exact (h.carries !i).write hsmall)
  isOpen := forall_bool_of i (by rw [Link.act_self]; exact hopen)
    (by rw [Link.act_not]; exact h.isOpen !i)
  quiet := by
    refine forall_bool_of i (fun err hmem ↦ ?_) (fun err hmem ↦ ?_)
    · rw [Link.act_self] at hmem
      rcases List.mem_append.mp hmem with hmem | hmem
      · exact h.quiet i err hmem
      · exact hquiet err hmem
    · rw [Link.act_not] at hmem
      exact h.quiet (!i) err hmem

theorem Sound.record {l : Link S} {q : Bool → List Buffer} (h : Sound l q) (i : Bool)
    (body : Buffer) : Sound (l.record i body) q := by
  have hkeep : ∀ j, (l.record i body j).conn = (l j).conn ∧
      (l.record i body j).effects = (l j).effects ∧
      (Carries (l j) (q j) → Carries (l.record i body j) (q j)) := by
    intro j
    rw [Link.record]
    split
    · next hj =>
      rw [hj.1]
      exact ⟨rfl, rfl, fun hc ↦ hc.of_decoder rfl _ _⟩
    · exact ⟨rfl, rfl, id⟩
  exact ⟨fun j ↦ (hkeep j).2.2 (h.carries j), fun j ↦ by rw [(hkeep j).1, h.isOpen j],
    fun j err ↦ by rw [(hkeep j).2.1]; exact h.quiet j err⟩

/-- The next frame is taken from the queue. -/
theorem Sound.pop {l : Link S} {q : Bool → List Buffer} (h : Sound l q) {i : Bool} {f : Buffer}
    {rest : List Buffer} (hframes : (l i).frames = f :: rest) :
    ∃ fs, q i = f :: fs ∧
      Sound (Function.update l i { l i with frames := rest }) (ends i fs (q !i)) := by
  obtain ⟨fs, hfs, hcarries⟩ := (h.carries i).pop hframes
  have hself : Function.update l i { l i with frames := rest } i = { l i with frames := rest } :=
    Function.update_self i _ l
  have hnot : Function.update l i { l i with frames := rest } (!i) = l !i :=
    Function.update_of_ne (Bool.not_ne_self i) _ l
  refine ⟨fs, hfs, forall_bool_of i ?_ ?_, forall_bool_of i ?_ ?_, forall_bool_of i ?_ ?_⟩
  · rw [hself, ends_self]
    exact hcarries
  · rw [hnot, ends_not]
    exact h.carries !i
  · rw [hself]
    exact h.isOpen i
  · rw [hnot]
    exact h.isOpen !i
  · rw [hself]
    exact h.quiet i
  · rw [hnot]
    exact h.quiet !i

/-- The link once both endpoints have their secrets, so that what is on the way in each direction is
a row of sealed frames. -/
def Live (l : Link S) : Prop := ∃ q s items, Sound l q ∧ Joined l q s items

theorem Reads.of_session {x : Side S} {s s' : SecureSession S} {items : List (Item S)}
    {fs : List Buffer} (h : Reads x s items fs) (hs : x.conn.session = some s') :
    s' = s ∧ fs = sealAll s.rxKey items := by
  cases h with
  | session h hfs => exact ⟨Option.some.inj (hs.symm.trans h), hfs⟩
  | confirm h _ _ => cases hs.symm.trans h

/-- The direction from endpoint `i`, and the rekeys of the other endpoint. -/
theorem Joined.opposite {l : Link S} {q : Bool → List Buffer} {s : Bool → SecureSession S}
    {items : Bool → List (Item S)} (h : Joined l q s items) (i : Bool) :
    Way (s i).txKey (s !i).rxKey (l i).sent (messages (l !i).effects) (l i).conn.txSeq
        (l !i).conn.rxSeq (items !i) ∧
      Outstanding (l !i).conn.rekeying (items i) (items !i) := by
  have hway := h.way !i
  have hout := h.outstanding !i
  rw [Bool.not_not] at hway hout
  exact ⟨hway, hout⟩

theorem length_control (hS : S.Lawful) (key : S.Key) (nonce : S.Nonce) (type : UInt8) :
    (S.aeadSeal key nonce [type]).length = 41 := by
  rw [hS.length_seal, List.length_singleton]

/-- A rekey, requested or automatic, leaves the link live. -/
theorem Live.rekey (hS : S.Lawful) {l : Link S} (h : Live l) (i : Bool) (nonce : S.Nonce) :
    Live (l.act i ((l i).conn.rekey nonce).1 ((l i).conn.rekey nonce).2.1) := by
  by_cases hbusy : (l i).conn.session = none ∨ (l i).conn.rekeying = true
  · rw [rekey_of_rekeying hbusy, Link.act_nil]
    exact h
  · obtain ⟨q, s, items, hsound, hjoined⟩ := h
    rw [not_or, Bool.not_eq_true] at hbusy
    obtain ⟨⟨t, hs⟩, hidle⟩ := hbusy.imp_left Option.ne_none_iff_exists'.mp
    obtain ⟨rfl, hfs⟩ := (hjoined.reads i).of_session hs
    obtain ⟨hway, hout⟩ := hjoined.opposite i
    have hlen : ((s i).seal nonce [ctrlRekey]).length = 41 := length_control hS _ _ _
    rw [rekey_of_idle (hsound.isOpen i) hs hidle (by rw [hlen]; decide)]
    refine ⟨_, ends i (s i).rekeyTx (s !i), ends i (items i) (items (!i) ++ [.rekey nonce]),
      hsound.act (hsound.isOpen i) rfl (by simp) ?_, .of_side i ?_ ?_ ?_ ?_ ?_ ?_⟩
    · intro f hf
      obtain rfl : f = (s i).seal nonce [ctrlRekey] := List.mem_singleton.mp hf
      rw [hlen]
      decide
    all_goals simp only [Link.act_self, Link.act_not, ends_self, ends_not, messages_append,
      messages_write, messages_nil, List.append_nil]
    · exact .session rfl hfs
    · exact (hjoined.reads !i).push hway.key (.rekey nonce) _
    · exact hjoined.way i
    · exact hway.control (.rekey nonce) rfl rfl
    · exact (hidle ▸ hjoined.outstanding i).begin nonce
    · exact hout.pushBack rfl

theorem Live.tick (hS : S.Lawful) {l : Link S} (h : Live l) (i : Bool) (nonce : S.Nonce) (now : ℕ) :
    Live (l.act i ((l i).conn.maybeAutoRekey nonce now).1
      ((l i).conn.maybeAutoRekey nonce now).2.1) := by
  rcases maybeAutoRekey_eq (l i).conn nonce now with heq | heq <;> rw [heq]
  · rw [Link.act_nil]
    exact h
  · exact h.rekey hS i nonce

/-- A call of `send`; the automatic rekey at its end is one more call. -/
theorem Live.send (hS : S.Lawful) {l : Link S} (h : Live l) (i : Bool) {body : Buffer}
    (hbody : body.length + 49 ≤ sessionMaxFrame) (nonce nonce' : S.Nonce) (now : ℕ) :
    Live ((l.record i body).act i ((l i).conn.send body nonce nonce' now).1
      ((l i).conn.send body nonce nonce' now).2.1) := by
  cases hs : (l i).conn.session with
  | none =>
    rw [l.record_of_none i body hs, SecureConnection.send, hs, Link.act_nil]
    exact h
  | some t =>
    obtain ⟨q, s, items, hsound, hjoined⟩ := h
    obtain ⟨rfl, hfs⟩ := (hjoined.reads i).of_session hs
    obtain ⟨hway, hout⟩ := hjoined.opposite i
    have hrecord := l.record_self i body hs
    by_cases hseq : (l i).conn.txSeq + 1 < 2 ^ 64
    · have hlen : ((s i).seal nonce (dataPlaintext ((l i).conn.txSeq + 1) body)).length =
          49 + body.length := by
        rw [SecureSession.seal, hS.length_seal, length_dataPlaintext]
        omega
      have hfits : 49 + body.length < 2 ^ 32 := by
        rw [sessionMaxFrame] at hbody
        omega
      rw [send_of_open (hsound.isOpen i) hs hseq (by rw [hlen]; exact hfits)]
      have hlive : Live ((l.record i body).act i
          { (l i).conn with
            txSeq := (l i).conn.txSeq + 1, rkMsgs := (l i).conn.rkMsgs + 1,
            rkBytes := (l i).conn.rkBytes + body.length }
          [.write ((s i).seal nonce (dataPlaintext ((l i).conn.txSeq + 1) body))]) := by
        refine ⟨_, s, ends i (items i) (items (!i) ++ [.data nonce ((l i).conn.txSeq + 1) body]),
          (hsound.record i body).act (hsound.isOpen i) (by rw [hrecord]) (by simp) ?_,
          .of_side i ?_ ?_ ?_ ?_ ?_ ?_⟩
        · intro f hf
          obtain rfl := List.mem_singleton.mp hf
          rw [hlen]
          omega
        all_goals simp only [Link.act_self, Link.act_not, Link.record_not, hrecord, ends_self,
          ends_not, messages_append, messages_write, messages_nil, List.append_nil]
        · exact .session hs hfs
        · exact (hjoined.reads !i).push hway.key (.data nonce _ body) _
        · exact hjoined.way i
        · exact hway.send hseq nonce body
        · exact (hjoined.outstanding i).push rfl
        · exact hout.pushBack rfl
      have htick := hlive.tick hS i nonce' now
      rw [Link.act_self, Link.act_act] at htick
      exact htick
    · rw [send_of_overflow hs (not_lt.mp hseq)]
      refine ⟨_, s, items, (hsound.record i body).act (hsound.isOpen i) (by rw [hrecord]) (by simp)
        (by simp [writes]), .of_side i ?_ ?_ ?_ ?_ ?_ ?_⟩
      all_goals simp only [Link.act_self, Link.act_not, Link.record_not, hrecord, ends_self,
        ends_not, writes_nil, List.append_nil]
      · exact .session hs hfs
      · exact (hjoined.reads !i).keep rfl rfl
      · exact hjoined.way i
      · exact hway.refuse (not_lt.mp hseq) body
      · exact hjoined.outstanding i
      · exact hout

/-- Handling one frame: it is taken from the queue, the connection goes on with `c`, and what it
writes is put on the queue of the other endpoint. -/
theorem Sound.handle {l : Link S} {q : Bool → List Buffer} (hsound : Sound l q) {i : Bool}
    {f : Buffer} {rest : List Buffer} (hframes : (l i).frames = f :: rest) {nonce : S.Nonce}
    {now : ℕ} {c : SecureConnection S} {w : List (Effect S)}
    (hon : (l i).conn.onFrame f true nonce now = (c, w)) (hopen : c.closed = false)
    (hdecoder : c.decoder = (l i).conn.decoder) (hquiet : ∀ err, .error err ∉ w)
    (hsmall : ∀ f ∈ writes w, f.length ≤ sessionMaxFrame) :
    ∃ fs, q i = f :: fs ∧ Sound (l.handle i nonce now) (ends i fs (q (!i) ++ writes w)) := by
  obtain ⟨fs, hq, hpop⟩ := hsound.pop hframes
  have hself : Function.update l i { l i with frames := rest } i = { l i with frames := rest } :=
    Function.update_self i _ l
  refine ⟨fs, hq, ?_⟩
  rw [Link.handle_eq hframes hon hopen]
  have hact := hpop.act hopen (by rw [hself]; exact hdecoder) hquiet hsmall
  rw [ends_self, ends_not] at hact
  exact hact

/-- MSG3 is accepted: the responder's session is there. -/
theorem Joined.confirm {l : Link S} {q : Bool → List Buffer} {s : Bool → SecureSession S}
    {items : Bool → List (Item S)} (hsound : Sound l q) (h : Joined l q s items) {i : Bool}
    (hnone : (l i).conn.session = none) {f : Buffer} {rest : List Buffer}
    (hframes : (l i).frames = f :: rest) (nonce : S.Nonce) (now : ℕ) :
    Live (l.handle i nonce now) := by
  cases h.reads i with
  | session hs _ => cases hnone.symm.trans hs
  | @confirm msg3 hs' _ hon hfs =>
    obtain ⟨fs, hq, -⟩ := hsound.pop hframes
    obtain ⟨rfl, -⟩ := List.cons.inj (hq.symm.trans hfs)
    have honFrame : (l i).conn.onFrame f true nonce now =
        ({ (l i).conn with hs := hs', session := some (s i) }, [.secure (s i).peerId]) :=
      onFrame_of_handshake (hsound.isOpen i) hnone hon (by simp) nonce now
    obtain ⟨fs, hq, hsound'⟩ := hsound.handle hframes honFrame (hsound.isOpen i) rfl (by simp)
      (by simp)
    obtain ⟨-, rfl⟩ := List.cons.inj (hq.symm.trans hfs)
    obtain ⟨hway, hout⟩ := h.opposite i
    refine ⟨_, s, items, hsound', .of_side i ?_ ?_ ?_ ?_ ?_ ?_⟩
    all_goals simp only [Link.handle_self hframes honFrame (hsound.isOpen i),
      Link.handle_not hframes honFrame (hsound.isOpen i), ends_self, ends_not, messages_append,
      messages_secure, messages_nil, writes_secure, writes_nil, List.append_nil]
    · exact .session rfl rfl
    · exact (h.reads !i).keep rfl rfl
    · exact h.way i
    · exact hway
    · exact h.outstanding i
    · exact hout

section
variable {l : Link S} {q : Bool → List Buffer} {s : Bool → SecureSession S}
  {items : Bool → List (Item S)} (hS : S.Lawful) (hsound : Sound l q) (h : Joined l q s items)
  {i : Bool} (hs : (l i).conn.session = some (s i)) {f : Buffer} {rest : List Buffer}
  (hframes : (l i).frames = f :: rest) {later : List (Item S)} (nonce : S.Nonce) (now : ℕ)
include hS hsound h hs hframes

/-- The frame to be handled is the first of the queue; it opens under the key it was sealed with. -/
theorem Joined.opens {it : Item S} (hitems : items i = it :: later) :
    (s i).open f = .ok it.plaintext ∧
      q i = f :: sealAll (it.advance (s i).rxKey) later := by
  obtain ⟨fs, hq, -⟩ := hsound.pop hframes
  obtain ⟨-, hfs⟩ := (h.reads i).of_session hs
  rw [hitems, sealAll, hq] at hfs
  obtain ⟨rfl, rfl⟩ := List.cons.inj hfs
  exact ⟨hS.open_seal _ _ _, hq⟩

theorem Joined.data {n : S.Nonce} {seq : ℕ} {body : Buffer}
    (hitems : items i = .data n seq body :: later) (hrate : (l i).conn.WithinRate f now) :
    Live (l.handle i nonce now) := by
  obtain ⟨hopen, hq⟩ := h.opens hS hsound hs hframes hitems
  obtain ⟨hway, hout⟩ := h.opposite i
  have hway' := h.way i
  rw [hitems] at hway' hout
  obtain ⟨hfresh, hseq, hemit⟩ := hway'.emit
  obtain ⟨start, count, hdata⟩ := handleData_of_fresh hseq (hrate _ _ hs hopen rfl) hfresh
  have hon := onFrame_of_session hs ((handleTransport_of_data nonce now hopen).trans hdata)
  obtain ⟨fs, hfs, hsound'⟩ := hsound.handle hframes hon (hsound.isOpen i) rfl (by simp) (by simp)
  obtain ⟨-, rfl⟩ := List.cons.inj (hfs.symm.trans hq)
  refine ⟨_, s, ends i later (items !i), hsound', .of_side i ?_ ?_ ?_ ?_ ?_ ?_⟩
  all_goals simp only [Link.handle_self hframes hon (hsound.isOpen i),
    Link.handle_not hframes hon (hsound.isOpen i), ends_self, ends_not, messages_append,
    messages_message, messages_nil, writes_message, writes_nil, List.append_nil]
  · exact .session hs rfl
  · exact (h.reads !i).keep rfl rfl
  · exact hemit
  · exact hway
  · exact (hitems ▸ h.outstanding i).popBack rfl
  · exact hout.pop rfl

/-- REKEY is answered in between the advance of the two keys. -/
theorem Joined.rekeyed {n : S.Nonce} (hitems : items i = .rekey n :: later) :
    Live (l.handle i nonce now) := by
  obtain ⟨hopen, hq⟩ := h.opens hS hsound hs hframes hitems
  obtain ⟨hway, hout⟩ := h.opposite i
  have hway' := h.way i
  rw [hitems] at hway' hout
  have hlen : ((s i).rekeyRx.seal nonce [ctrlRekeyAck]).length = 41 := length_control hS _ _ _
  have hon := onFrame_of_session hs
    (handleTransport_of_rekey (hsound.isOpen i) hopen (by rw [hlen]; decide) now)
  obtain ⟨fs, hfs, hsound'⟩ := hsound.handle hframes hon (hsound.isOpen i) rfl (by simp) (by
    intro g hg
    obtain rfl := List.mem_singleton.mp hg
    rw [hlen]
    decide)
  obtain ⟨-, rfl⟩ := List.cons.inj (hfs.symm.trans hq)
  refine ⟨_, ends i (s i).rekeyRx.rekeyTx (s !i), ends i later (items (!i) ++ [.ack nonce]),
    hsound', .of_side i ?_ ?_ ?_ ?_ ?_ ?_⟩
  all_goals simp only [Link.handle_self hframes hon (hsound.isOpen i),
    Link.handle_not hframes hon (hsound.isOpen i), ends_self, ends_not, messages_append,
    messages_write, messages_rekey, messages_nil, writes_write, writes_rekey, writes_nil,
    List.append_nil]
  · exact .session rfl rfl
  · exact (h.reads !i).push hway.key (.ack nonce) _
  · exact hway'.advance rfl rfl
  · exact hway.control (.ack nonce) rfl rfl
  · exact ((hitems ▸ h.outstanding i).popBack rfl).push rfl
  · exact hout.answer nonce

/-- REKEY_ACK ends the rekey, for the endpoint that has begun it. -/
theorem Joined.acked {n : S.Nonce} (hitems : items i = .ack n :: later) :
    Live (l.handle i nonce now) := by
  obtain ⟨hopen, hq⟩ := h.opens hS hsound hs hframes hitems
  obtain ⟨hway, hout⟩ := h.opposite i
  have hway' := h.way i
  rw [hitems] at hway' hout
  have hon := onFrame_of_session hs (handleTransport_of_ack nonce now hopen)
  obtain ⟨fs, hfs, hsound'⟩ := hsound.handle hframes hon (hsound.isOpen i) rfl (by simp) (by simp)
  obtain ⟨-, rfl⟩ := List.cons.inj (hfs.symm.trans hq)
  refine ⟨_, ends i (s i).rekeyRx (s !i), ends i later (items !i), hsound',
    .of_side i ?_ ?_ ?_ ?_ ?_ ?_⟩
  all_goals simp only [Link.handle_self hframes hon (hsound.isOpen i),
    Link.handle_not hframes hon (hsound.isOpen i), ends_self, ends_not, messages_append,
    messages_rekey, messages_nil, writes_rekey, writes_nil, List.append_nil]
  · exact .session rfl rfl
  · exact (h.reads !i).keep rfl rfl
  · exact hway'.advance rfl rfl
  · exact hway
  · exact (hitems ▸ h.outstanding i).finish
  · exact hout.pop rfl

end

/-- Handling the next frame, whatever it is, leaves the link live if the rate limit lets it. -/
theorem Live.handle (hS : S.Lawful) {l : Link S} (h : Live l) {i : Bool} {f : Buffer}
    {rest : List Buffer} (hframes : (l i).frames = f :: rest) (nonce : S.Nonce) {now : ℕ}
    (hrate : (l i).conn.WithinRate f now) : Live (l.handle i nonce now) := by
  obtain ⟨q, s, items, hsound, hjoined⟩ := h
  cases hs : (l i).conn.session with
  | none => exact hjoined.confirm hsound hs hframes nonce now
  | some t =>
    obtain ⟨rfl, hfs⟩ := (hjoined.reads i).of_session hs
    obtain ⟨fs, hq, -⟩ := hsound.pop hframes
    cases hitems : items i with
    | nil => simp [hitems, sealAll, hq] at hfs
    | cons it later =>
      cases it with
      | data n seq body => exact hjoined.data hS hsound hs hframes nonce now hitems hrate
      | rekey n => exact hjoined.rekeyed hS hsound hs hframes nonce now hitems
      | ack n => exact hjoined.acked hS hsound hs hframes nonce now hitems

end AttestP2P
