import AttestP2P.Crypto.Symbolic

/-!
# What one frame does to a handshake

A session of the network takes frames until it is closed or complete.  A frame that it does not
accept closes it; one that it accepts takes it one message further, and there are three of these:
MSG1 and MSG3 for a responder, MSG2 for an initiator.  Everything that is proved of the network
later on goes through the case analysis here, and never looks at the code of the handshake again.

* `Party.Own`: a session holds the keys it was created with, whatever it receives.
* `Party.Stage` is how far it has come, and what it then holds: the peer's ephemeral key and the
  session keys that are derived from it.
* `Party.Reacts` lists what a frame can do, with the signature that has to be on it, and
  `Party.reacts` is the theorem that nothing else can happen.
* `Party.Reacts.greeted` and `Party.Reacts.completed` read the list backwards: where the identity
  and the key come from that a session holds after the frame.
-/

set_option autoImplicit false

namespace AttestP2P
namespace Symbolic

variable {A : Type} [CommGroup A] [DecidableEq A]

/-! ## What one frame does to a session -/

/-- Session `i` holds the keys it was created with. -/
structure Party.Own (i : ℕ) (p : Party A) : Prop where
  signKey : p.hs.signKey = p.node
  ePriv : p.hs.ePriv = i
  ePub : p.hs.ePub = ephemeral A i
  id : p.hs.id = Ident.node p.node

theorem Party.new_own (i n : ℕ) (initiator : Bool) : (Party.new (A := A) i initiator n).Own i := by
  cases initiator <;> exact ⟨rfl, rfl, rfl, rfl⟩

/-- How far session `i` has come: nothing received yet, or a peer's ephemeral key received and the
session keys derived from it. -/
inductive Party.Stage (i : ℕ) (p : Party A) : Prop
  | waiting (hfresh : ∀ n hs, p.hs ≠ .responder (n + 1) hs) (hpeer : p.peerEph = none)
      (hsession : p.session = none)
  | initiated {hs : HandshakeInitiator (suite A)} {q : Pub A} {dh : Key A} {id : Ident}
      (hhs : p.hs = .initiator hs) (hpeer : p.peerEph = some q)
      (hdh : (suite A).scalarmult i q = .ok dh)
      (hsession : p.session = some ⟨kI (suite A) dh, kR (suite A) dh, id, 0, 0⟩)
  | answered {n : ℕ} {hs : HandshakeResponder (suite A)} {q : Pub A} {dh : Key A} {id : Ident}
      (hhs : p.hs = .responder (n + 1) hs) (hpeer : p.peerEph = some q) (hq : hs.iEpub = some q)
      (hid : hs.iId = some id) (hdh : (suite A).scalarmult i q = .ok dh)
      (hkeys : hs.session = some ⟨kR (suite A) dh, kI (suite A) dh, id, 0, 0⟩)
      (hsession : p.session = none ∨ p.session = hs.session)

/-- All that a frame can do to session `i`, which holds its own keys: nothing; close it; or take it
one message further. -/
inductive Party.Reacts (i : ℕ) (p : Party A) (f : Frame A) : Party A → List (Frame A) → Prop
  | idle : Reacts i p f p []
  | failed {hs : Handshake (suite A)}
      (hrole : hs.isInitiator = p.hs.isInitiator)
      (hfresh : (∀ n r, p.hs ≠ .responder (n + 1) r) → ∀ n r, hs ≠ .responder (n + 1) r)
      (hstep : ∀ n r, p.hs = .responder (n + 1) r → hs = p.hs)
      (hinit : ∀ r, p.hs = .initiator r → hs = p.hs) :
      Reacts i p f { p with hs := hs, closed := true } []
  | message2 {hs hs' : HandshakeInitiator (suite A)} {q : Pub A} {id : Ident} {dh : Key A}
      (hhs : p.hs = .initiator hs) (hidle : p.closed = false ∧ p.session = none)
      (hf : f = .hello q id (.sign id (.keys [q, ephemeral A i])))
      (hdh : (suite A).scalarmult i q = .ok dh) :
      Reacts i p f
        { p with
          hs := .initiator hs'
          session := some ⟨kI (suite A) dh, kR (suite A) dh, id, 0, 0⟩
          peerEph := some q }
        [.confirm (.sign (.node p.node) (.keys [ephemeral A i, q]))]
  | message1 {hs hs' : HandshakeResponder (suite A)} {q : Pub A} {id : Ident} {dh : Key A}
      (hhs : p.hs = .responder 0 hs) (hidle : p.closed = false ∧ p.session = none)
      (hf : f = .hello q id (.sign id (.keys [q])))
      (hdh : (suite A).scalarmult i q = .ok dh) (hq : hs'.iEpub = some q) (hid : hs'.iId = some id)
      (hkeys : hs'.session = some ⟨kR (suite A) dh, kI (suite A) dh, id, 0, 0⟩) :
      Reacts i p f { p with hs := .responder 1 hs', session := none, peerEph := some q }
        [.hello (ephemeral A i) (.node p.node)
          (.sign (.node p.node) (.keys [ephemeral A i, q]))]
  | message3 {n : ℕ} {hs : HandshakeResponder (suite A)} {q : Pub A} {id : Ident}
      {session : SecureSession (suite A)}
      (hhs : p.hs = .responder (n + 1) hs) (hidle : p.closed = false ∧ p.session = none)
      (hf : f = .confirm (.sign id (.keys [q, ephemeral A i]))) (hq : hs.iEpub = some q)
      (hid : hs.iId = some id) (hsession : hs.session = some session) :
      Reacts i p f
        { p with hs := .responder (n + 1) { hs with done := true }, session := some session } []

theorem verify_iff {sig : Sig A} {l : List (Pub A)} {id : Ident} :
    (suite A).verify sig l id = true ↔ sig = .sign id (.keys l) :=
  decide_eq_true_iff

theorem splitHello_eq_some {f : Frame A} {p : Pub A} {id : Ident} {sig : Sig A}
    (h : (suite A).splitHello f = some (p, id, sig)) : f = .hello p id sig := by
  cases f <;> simp_all [suite]

theorem splitConfirm_eq_some {f : Frame A} {sig : Sig A}
    (h : (suite A).splitConfirm f = some sig) : f = .confirm sig := by
  cases f <;> simp_all [suite]

/-- A rejected frame leaves an initiator, and a responder past MSG1, as they were. -/
theorem onFrame_eq_error {h h' : Handshake (suite A)} {f : Frame A} {e : String}
    (he : h.onFrame f = (h', .error e)) :
    ((∀ n r, h ≠ .responder (n + 1) r) → ∀ n r, h' ≠ .responder (n + 1) r) ∧
      (∀ n r, h = .responder (n + 1) r → h' = h) ∧ ∀ r, h = .initiator r → h' = h := by
  match h with
  | .initiator hs =>
    rw [Handshake.onFrame] at he
    split at he <;> cases he
    exact ⟨fun h ↦ h, fun _ _ _ ↦ rfl, fun _ _ ↦ rfl⟩
  | .responder 0 hs =>
    rw [Handshake.onFrame] at he
    split at he <;> cases he
    exact ⟨fun _ n r h ↦ by simp at h, fun n r h ↦ by simp at h, fun r h ↦ by simp at h⟩
  | .responder (n + 1) hs =>
    rw [Handshake.onFrame] at he
    split at he <;> cases he
    exact ⟨fun h ↦ h, fun _ _ _ ↦ rfl, fun _ _ ↦ rfl⟩

theorem Party.reacts {i : ℕ} {p : Party A} (hown : p.Own i) (f : Frame A) :
    p.Reacts i f (p.onFrame f).1 (p.onFrame f).2 := by
  have hkeep := (Handshake.onFrame_keeps p.hs f).1
  rw [Party.onFrame]
  split
  · exact .idle
  · next hopen =>
    have hidle : p.closed = false ∧ p.session = none := by
      simpa using hopen
    split
    · next hs e he =>
      rw [he] at hkeep
      obtain ⟨hfresh, hstep, hinit⟩ := onFrame_eq_error he
      exact .failed hkeep hfresh hstep hinit
    · next hs r he =>
      obtain ⟨hs₀, hs', message3, session, hhs, rfl, hmsg, rfl⟩ |
        ⟨hs₀, hs', msg2, hhs, rfl, hmsg, rfl⟩ | ⟨n, hs₀, hs', session, hhs, rfl, hmsg, rfl⟩ :=
        Handshake.onFrame_eq_ok he
      · obtain ⟨q, id, sig, dh, hsplit, hverify, hdh, rfl, rfl, rfl⟩ :=
          HandshakeInitiator.consumeMessage2_eq_ok hmsg
        obtain ⟨hk, hp, hE, -⟩ := hown
        rw [hhs] at hk hp hE
        simp only [Handshake.signKey, Handshake.ePriv, Handshake.ePub] at hk hp hE
        have hf : f = .hello q id (.sign id (.keys [q, ephemeral A i])) := by
          rw [splitHello_eq_some hsplit, verify_iff.mp hverify, hE]; rfl
        subst hf
        rw [hp] at hdh
        rw [hE, hk]
        exact .message2 hhs hidle rfl hdh
      · obtain ⟨q, id, sig, dh, hsplit, hverify, hdh, rfl, rfl⟩ :=
          HandshakeResponder.consumeMessage1_eq_ok hmsg
        obtain ⟨hk, hp, hE, hid⟩ := hown
        rw [hhs] at hk hp hE hid
        simp only [Handshake.signKey, Handshake.ePriv, Handshake.ePub, Handshake.id] at hk hp hE hid
        have hf : f = .hello q id (.sign id (.keys [q])) := by
          rw [splitHello_eq_some hsplit, verify_iff.mp hverify]; rfl
        subst hf
        rw [hp] at hdh
        rw [hE, hk, hid]
        exact .message1 hhs hidle rfl hdh rfl rfl rfl
      · obtain ⟨sig, q, id, hsplit, hq, hid, hsession, hverify, rfl⟩ :=
          HandshakeResponder.consumeMessage3_eq_ok hmsg
        have hE := hown.ePub
        rw [hhs] at hE
        have hf : f = .confirm (.sign id (.keys [q, ephemeral A i])) := by
          rw [splitConfirm_eq_some hsplit, verify_iff.mp hverify, ← hE, Handshake.ePub]; rfl
        subst hf
        exact .message3 hhs hidle rfl hq hid hsession

/-- Whatever the frame, a session keeps its node, its role and its own keys. -/
theorem Party.onFrame_keeps {i : ℕ} {p : Party A} (hown : p.Own i) (f : Frame A) :
    (p.onFrame f).1.Own i ∧ (p.onFrame f).1.node = p.node ∧
      (p.onFrame f).1.hs.isInitiator = p.hs.isInitiator := by
  obtain ⟨hrole, hk, hp, hE, hid⟩ := Handshake.onFrame_keeps p.hs f
  rw [Party.onFrame]
  split
  · exact ⟨hown, rfl, rfl⟩
  · split <;>
    · next he =>
      rw [he] at hrole hk hp hE hid
      exact ⟨⟨hk.trans hown.signKey, hp.trans hown.ePriv, hE.trans hown.ePub, hid.trans hown.id⟩,
        rfl, hrole⟩

/-- A reaction takes a session from one stage to the next. -/
theorem Party.Reacts.stage {i : ℕ} {p p' : Party A} {f : Frame A} {fs : List (Frame A)}
    (h : p.Reacts i f p' fs) (hp : p.Stage i) : p'.Stage i := by
  cases h with
  | idle => exact hp
  | failed hrole hfresh hstep hinit =>
    cases hp with
    | waiting hwait hpeer hsession => exact .waiting (hfresh hwait) hpeer hsession
    | initiated hhs hpeer hdh hsession =>
      exact .initiated ((hinit _ hhs).trans hhs) hpeer hdh hsession
    | answered hhs hpeer hq hid hdh hkeys hsession =>
      exact .answered ((hstep _ _ hhs).trans hhs) hpeer hq hid hdh hkeys hsession
  | message2 hhs hidle hf hdh => exact .initiated rfl rfl hdh rfl
  | message1 hhs hidle hf hdh hq hid hkeys => exact .answered rfl rfl hq hid hdh hkeys (.inl rfl)
  | message3 hhs hidle hf hq hid hsession =>
    cases hp with
    | waiting hwait => exact absurd hhs (hwait _ _)
    | initiated hhs' => simp [hhs'] at hhs
    | answered hhs' hpeer hq' hid' hdh hkeys =>
      rw [hhs] at hhs'
      cases hhs'
      exact .answered rfl hpeer hq' hid' hdh hkeys (.inr hsession.symm)

/-- A peer's ephemeral key, once received, stays, whatever arrives later. -/
theorem Party.Reacts.peerEph {i : ℕ} {p p' : Party A} {f : Frame A} {fs : List (Frame A)}
    (h : p.Reacts i f p' fs) (hp : p.Stage i) {q : Pub A} (hq : p.peerEph = some q) :
    p'.peerEph = some q := by
  cases h with
  | idle => exact hq
  | failed => exact hq
  | message2 hhs hidle =>
    cases hp with
    | waiting _ hpeer => simp [hpeer] at hq
    | initiated _ _ _ hsession => simp [hidle.2] at hsession
    | answered hhs' => simp [hhs'] at hhs
  | message1 hhs hidle =>
    cases hp with
    | waiting _ hpeer => simp [hpeer] at hq
    | initiated hhs' => simp [hhs'] at hhs
    | answered hhs' => simp [hhs'] at hhs
  | message3 => exact hq

/-- What the signature in a hello with ephemeral key `q` has to cover, for the handshake to accept
it: the transcript of MSG2, or that of MSG1. -/
def transcript : Handshake (suite A) → Pub A → Option (List (Pub A))
  | .initiator hs, q => some [q, hs.ePub]
  | .responder 0 _, q => some [q]
  | .responder (_ + 1) _, _ => none

/-- Where the identity and the key a responder holds come from: it held them, or it has just
accepted them. -/
theorem Party.Reacts.greeted {i m : ℕ} {p p' : Party A} {f : Frame A} {fs : List (Frame A)}
    (h : p.Reacts i f p' fs) (hp : p.Stage i) {hs : HandshakeResponder (suite A)} {id : Ident}
    {q : Pub A} (hhs : p'.hs = .responder (m + 1) hs) (hid : hs.iId = some id)
    (hq : p'.peerEph = some q) :
    (∃ m₀ hs₀, p.hs = .responder (m₀ + 1) hs₀ ∧ hs₀.iId = some id ∧ p.peerEph = some q) ∨
      (p.closed = false ∧ p.session = none) ∧ f = .hello q id (.sign id (.keys [q])) ∧
        transcript p.hs q = some [q] := by
  cases h with
  | idle => exact .inl ⟨m, hs, hhs, hid, hq⟩
  | failed hrole hfresh hstep hinit =>
    cases hp with
    | waiting hwait => exact absurd hhs (hfresh hwait m hs)
    | initiated hhs' =>
      rw [hinit _ hhs', hhs'] at hhs
      cases hhs
    | answered hhs' =>
      rw [hstep _ _ hhs'] at hhs
      exact .inl ⟨m, hs, hhs, hid, hq⟩
  | message2 => simp at hhs
  | message1 hhs' hidle hf hdh hq' hid' hkeys =>
    cases hhs
    obtain rfl := Option.some_inj.mp hq
    obtain rfl := Option.some_inj.mp (hid'.symm.trans hid)
    exact .inr ⟨hidle, hf, by rw [hhs']; rfl⟩
  | message3 hhs' hidle hf hq' hid' hsession =>
    cases hhs
    exact .inl ⟨_, _, hhs', hid, hq⟩

/-- Where the peer and the key of a completed session come from: it was complete, or it has just
accepted MSG2, or MSG3 under the identity and the key it held. -/
theorem Party.Reacts.completed {i : ℕ} {p p' : Party A} {f : Frame A} {fs : List (Frame A)}
    (h : p.Reacts i f p' fs) (hown : p.Own i) (hp : p.Stage i) {s : SecureSession (suite A)}
    {q : Pub A} (hs : p'.session = some s) (hq : p'.peerEph = some q) :
    p.session = some s ∧ p.peerEph = some q ∨
      ((p.closed = false ∧ p.session = none) ∧
        f = .hello q s.peerId (.sign s.peerId (.keys [q, ephemeral A i])) ∧
        transcript p.hs q = some [q, ephemeral A i]) ∨
      f = .confirm (.sign s.peerId (.keys [q, ephemeral A i])) ∧
        ∃ m hs, p.hs = .responder (m + 1) hs ∧ hs.iId = some s.peerId ∧ p.peerEph = some q := by
  cases h with
  | idle => exact .inl ⟨hs, hq⟩
  | failed => exact .inl ⟨hs, hq⟩
  | message2 hhs hidle hf hdh =>
    obtain rfl := Option.some_inj.mp hq
    obtain rfl := Option.some_inj.mp hs
    have hE := hown.ePub
    rw [hhs] at hE ⊢
    exact .inr (.inl ⟨hidle, hf, by rw [← hE]; rfl⟩)
  | message1 => simp at hs
  | message3 hhs hidle hf hq' hid' hsession' =>
    obtain rfl := Option.some_inj.mp hs
    cases hp with
    | waiting hwait => exact absurd hhs (hwait _ _)
    | initiated hhs' => simp [hhs'] at hhs
    | answered hhs' hpeer hq'' hid'' hdh hkeys =>
      rw [hhs] at hhs'
      cases hhs'
      obtain rfl := Option.some_inj.mp (hsession'.symm.trans hkeys)
      obtain rfl := Option.some_inj.mp (hpeer.symm.trans hq)
      obtain rfl := Option.some_inj.mp (hq'.symm.trans hq'')
      obtain rfl := Option.some_inj.mp (hid'.symm.trans hid'')
      exact .inr (.inr ⟨hf, _, _, hhs, hid', hq⟩)

end Symbolic
end AttestP2P
