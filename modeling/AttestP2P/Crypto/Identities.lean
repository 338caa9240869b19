import AttestP2P.Crypto.Impersonation

/-!
# Who the peer is, and which way the keys go

Two honest sessions that end with the same keys should have each other as peers, and two that share
a secret should have opposite roles, so that one reads what the other writes.  Neither holds of
every run, and both hold of the runs in which nobody impersonates.

* `identityAgreement_of_honestKeys`: if no key is borrowed for a session of the other role, an
  initiator and a responder with the same keys have each other as peers.  `shareTrace` is a run in
  which they have not: the responder believes that it talks to the attacker.
* `mirroredKeys_of_honestKeys`: if no key is borrowed for a session of the same role, two sessions
  with one secret have opposite roles, and each sends with the key the other receives with.
  `twoInitiatorsTrace` is a run with two initiators on one secret.
-/

set_option autoImplicit false

namespace AttestP2P
namespace Symbolic

variable {A : Type} [CommGroup A] [DecidableEq A]

/-! ## Who the peer is -/

/-- **Identity agreement** (no unknown key share): an initiator and a responder that hold the same
keys have each other's node as their peer. -/
def IdentityAgreement (net : Net A) : Prop :=
  ∀ i j p r s t, net.Has i p → net.Has j r → p.hs.isInitiator = true → r.hs.isInitiator = false →
    p.session = some s → r.session = some t → s.txKey = t.rxKey → s.rxKey = t.txKey →
    s.peerId = Ident.node r.node ∧ t.peerId = Ident.node p.node

/-- Two sessions whose secrets coincide have received each other's ephemeral key, if nobody
impersonates; and each has the other's node as its peer. -/
theorem Unborrowed.mutual {net : Net A} {crossed : Bool} (h : Unborrowed net crossed)
    (hinv : Inv net) {i j : ℕ} {p r : Party A} {s : SecureSession (suite A)} (hp : net.Has i p)
    (hr : net.Has j r) (hij : i ≠ j) (hroles : r.hs.isInitiator = (p.hs.isInitiator ^^ crossed))
    (hs : p.session = some s) {m m' : Multiset Name} {a : A}
    (hq : p.peerEph = some (.point m a)) (hm : Name.eph i ::ₘ m = .eph j ::ₘ m') :
    p.peerEph = some (ephemeral A j) ∧ r.peerEph = some (ephemeral A i) ∧
      s.peerId = Ident.node r.node := by
  have hmem : Name.eph j ∈ m := by
    have hj : Name.eph j ∈ Name.eph i ::ₘ m := hm ▸ Multiset.mem_cons_self _ _
    rcases Multiset.mem_cons.mp hj with hj | hj
    · exact absurd (Name.eph.inj hj).symm hij
    · exact hj
  obtain ⟨j', r', hr', hj', hpeer, hid⟩ := h.peer hinv hp hs hq ⟨j, r, hmem, hr, hroles⟩
  obtain ⟨hm', rfl⟩ := Pub.point.inj hj'
  subst hm'
  obtain rfl : j = j' := by simpa using hmem
  obtain rfl := Option.some_inj.mp (hr.symm.trans hr')
  exact ⟨hq, hpeer, hid⟩

/-- **As long as nobody impersonates a session of the other role, identities agree.** -/
theorem identityAgreement_of_honestKeys {net : Net A} (h : (honestKeys A true).Reachable net) :
    IdentityAgreement net := by
  intro i j p r s t hp hr hpi hri hs ht htx hrx
  have hclean := unborrowed_of_reachable h
  have hinv := inv_of_reachable h.of_guard
  have hij : i ≠ j := by
    rintro rfl
    obtain rfl := Option.some_inj.mp (hp.symm.trans hr)
    simp [hpi] at hri
  obtain ⟨m, a, hq, hkeys⟩ := hinv.keys hp hs
  obtain ⟨m', a', hq', hkeys'⟩ := hinv.keys hr ht
  obtain ⟨-, hI, -⟩ := hkeys.resolve_right (by simp [hpi])
  obtain ⟨-, -, hI'⟩ := hkeys'.resolve_left (by simp [hri])
  have hdh : (Key.dh (.eph i ::ₘ m) a : Key A) = .dh (.eph j ::ₘ m') a' :=
    (Key.hkdf.inj (hI.symm.trans (htx.trans hI'))).1
  obtain ⟨hm, -⟩ := Key.dh.inj hdh
  exact ⟨(hclean.mutual hinv hp hr hij (by rw [hpi, hri]; rfl) hs hq hm).2.2,
    (hclean.mutual hinv hr hp hij.symm (by rw [hpi, hri]; rfl) ht hq' hm.symm).2.2⟩

theorem identityAgreement_honestTrace :
    ∃ p s r t, (outcome honestTrace).Has 0 p ∧ (outcome honestTrace).Has 1 r ∧
      p.session = some s ∧ r.session = some t ∧ s.peerId = Ident.node r.node ∧
      t.peerId = Ident.node p.node := by
  obtain ⟨p, s, hp, hs, he⟩ := Net.exists_of_endpoint honestTrace_endpoints (i := 0) rfl
  obtain ⟨r, t, hr, ht, he'⟩ := Net.exists_of_endpoint honestTrace_endpoints (i := 1) rfl
  obtain ⟨-, hpi, -, -, htx, hrx⟩ := Endpoint.mk.inj he
  obtain ⟨-, hri, -, -, htx', hrx'⟩ := Endpoint.mk.inj he'
  refine ⟨p, s, r, t, hp, hr, hs, ht, ?_⟩
  exact identityAgreement_of_honestKeys (honestTrace_honestKeys true) 0 1 p r s t hp hr hpi hri hs
    ht (by rw [htx, hrx', sharedDh_comm]) (by rw [hrx, htx', sharedDh_comm])

/-- The two sessions of `honestTrace`, but the attacker rewrites the identity and the signature in
MSG1 and the signature in MSG3. -/
def shareTrace : List (Event Scalar) :=
  [.start true 0, .start false 1, .deliver 1 (message1 Scalar (.adversary 0) 0),
    .deliver 0 (message2 Scalar (.node 1) 1 0), .deliver 1 (message3 Scalar (.adversary 0) 0 1)]

theorem shareTrace_feasible : Machine.Feasible Net.enabled Net.next .empty shareTrace := by
  have h₁ : ∀ net : Net Scalar, (0, message1 Scalar (.node 0) 0) ∈ net.sent →
      Knows net (.pub (ephemeral Scalar 0)) := fun _ h ↦ (knows_of_hello h).1
  have h₂ : ∀ net : Net Scalar, (1, message2 Scalar (.node 1) 1 0) ∈ net.sent →
      Knows net (.pub (ephemeral Scalar 1)) := fun _ h ↦ (knows_of_hello h).1
  refine ⟨trivial, trivial, ⟨h₁ _ (by decide), .ownSig 0 ?_⟩,
    knows_of_hello (j := 1) (k := .node 1) (by decide), .ownSig 0 ?_, trivial⟩
  · intro q hq
    rw [List.mem_singleton.mp hq]
    exact h₁ _ (by decide)
  · intro q hq
    rcases List.mem_pair.mp hq with rfl | rfl
    · exact h₁ _ (by decide)
    · exact h₂ _ (by decide)

theorem shareTrace_endpoints :
    (outcome shareTrace).parties.map Party.endpoint =
      [some (initiatorOf 0 (.node 1) (sharedDh 0 1)),
        some (responderOf 1 (.adversary 0) (sharedDh 1 0))] := by
  decide

/-- **Identities do not agree in general**: at the end of `shareTrace` node 0 has node 1 as its
peer, and node 1 the attacker, on the same keys. -/
theorem not_identityAgreement :
    ∃ net : Net Scalar, (network Scalar).Reachable net ∧ ¬ IdentityAgreement net := by
  refine ⟨outcome shareTrace, outcome_reachable shareTrace_feasible, fun h ↦ ?_⟩
  obtain ⟨p, s, hp, hs, he⟩ := Net.exists_of_endpoint shareTrace_endpoints (i := 0) rfl
  obtain ⟨r, t, hr, ht, he'⟩ := Net.exists_of_endpoint shareTrace_endpoints (i := 1) rfl
  obtain ⟨-, hpi, -, -, htx, hrx⟩ := Endpoint.mk.inj he
  obtain ⟨-, hri, -, hid, htx', hrx'⟩ := Endpoint.mk.inj he'
  have hid' := (h 0 1 p r s t hp hr hpi hri hs ht (by rw [htx, hrx', sharedDh_comm])
    (by rw [hrx, htx', sharedDh_comm])).2
  rw [hid] at hid'
  cases hid'

/-! ## Which way the keys go -/

/-- **Mirrored keys**: two completed sessions that share a Diffie-Hellman secret have opposite
roles, and each sends with the key the other receives with. -/
def MirroredKeys (net : Net A) : Prop :=
  ∀ i j p r s t d, net.Has i p → net.Has j r → i ≠ j → p.session = some s → r.session = some t →
    p.sharedSecret = some d → r.sharedSecret = some d →
    p.hs.isInitiator ≠ r.hs.isInitiator ∧ s.txKey = t.rxKey ∧ s.rxKey = t.txKey

/-- The secret of a completed session is the one its keys are derived from. -/
theorem Inv.sharedSecret_eq {net : Net A} (hinv : Inv net) {i : ℕ} {p : Party A}
    (hp : net.Has i p) {m : Multiset Name} {a : A} (hq : p.peerEph = some (.point m a)) :
    p.sharedSecret = some (.dh (.eph i ::ₘ m) a) := by
  rw [Party.sharedSecret, hq, (hinv.own i p hp).ePriv]
  rfl

/-- A responder that has received the key of session `j` under the identity of the node of `j` has
received it from an initiator, since it only takes a key that is signed alone. -/
theorem Inv.initiator_of_greeted {net : Net A} (hinv : Inv net) {i j : ℕ} {p r : Party A}
    {s : SecureSession (suite A)} (hp : net.Has i p) (hr : net.Has j r) (hs : p.session = some s)
    (hrole : p.hs.isInitiator = false) (hq : p.peerEph = some (ephemeral A j))
    (hid : s.peerId = Ident.node r.node) : r.hs.isInitiator = true := by
  cases hinv.stage i p hp with
  | waiting _ hpeer => simp [hpeer] at hq
  | initiated hhs => simp [hhs, Handshake.isInitiator] at hrole
  | answered hhs hpeer _ hiId _ hsk hsession =>
    have hsession' : p.session = _ := (hsession.resolve_left (by simp [hs])).trans hsk
    obtain rfl := Option.some_inj.mp (hsession'.symm.trans hs)
    simp only at hid
    subst hid
    cases hinv.greeted i p _ _ r.node _ hp hhs hiId hq with
    | @opening k o ho _ horole hl =>
      obtain rfl : j = k := ephemeral_inj (by simpa using hl)
      obtain rfl := Option.some_inj.mp (ho.symm.trans hr)
      exact horole
    | pair _ _ _ _ _ hl => simp at hl
    | foreign hl => simp [ephemeral] at hl

/-- **As long as nobody impersonates a session of the same role, keys are mirrored**; in particular
two initiators, or two responders, never share a secret. -/
theorem mirroredKeys_of_honestKeys {net : Net A} (h : (honestKeys A false).Reachable net) :
    MirroredKeys net := by
  intro i j p r s t d hp hr hij hs ht hd hd'
  have hclean := unborrowed_of_reachable h
  have hinv := inv_of_reachable h.of_guard
  obtain ⟨m, a, hq, hkeys⟩ := hinv.keys hp hs
  obtain ⟨m', a', hq', hkeys'⟩ := hinv.keys hr ht
  rw [hinv.sharedSecret_eq hp hq] at hd
  rw [hinv.sharedSecret_eq hr hq', ← hd, Option.some_inj] at hd'
  obtain ⟨hm, -⟩ := Key.dh.inj hd'
  have hroles : p.hs.isInitiator ≠ r.hs.isInitiator := by
    intro hsame
    obtain ⟨hqj, hqi, hid⟩ :=
      hclean.mutual hinv hp hr hij (by rw [hsame, Bool.xor_false]) hs hq hm.symm
    cases hpi : p.hs.isInitiator with
    | false =>
      have hri := hinv.initiator_of_greeted hp hr hs hpi hqj hid
      rw [← hsame, hpi] at hri
      cases hri
    | true => exact hclean.apart rfl i j p r hp hr hij hpi (hsame.symm.trans hpi) hqj hqi
  refine ⟨hroles, ?_⟩
  rw [← hd'] at hkeys
  rcases hkeys with ⟨hpi, htx, hrx⟩ | ⟨hpi, htx, hrx⟩
  · obtain ⟨-, htx', hrx'⟩ := hkeys'.resolve_left (fun h ↦ hroles (hpi.trans h.1.symm))
    exact ⟨htx.trans hrx'.symm, hrx.trans htx'.symm⟩
  · obtain ⟨-, htx', hrx'⟩ := hkeys'.resolve_right (fun h ↦ hroles (hpi.trans h.1.symm))
    exact ⟨htx.trans hrx'.symm, hrx.trans htx'.symm⟩

theorem mirroredKeys_honestTrace :
    ∃ p s r t, (outcome honestTrace).Has 0 p ∧ (outcome honestTrace).Has 1 r ∧
      p.session = some s ∧ r.session = some t ∧ p.sharedSecret = r.sharedSecret ∧
      s.txKey = t.rxKey ∧ s.rxKey = t.txKey := by
  obtain ⟨p, s, hp, hs, he⟩ := Net.exists_of_endpoint honestTrace_endpoints (i := 0) rfl
  obtain ⟨r, t, hr, ht, he'⟩ := Net.exists_of_endpoint honestTrace_endpoints (i := 1) rfl
  have hd : p.sharedSecret = some (sharedDh 0 1) := congrArg Endpoint.secret he
  have hd' : r.sharedSecret = some (sharedDh 0 1) :=
    (congrArg Endpoint.secret he').trans (congrArg some (sharedDh_comm 1 0))
  exact ⟨p, s, r, t, hp, hr, hs, ht, hd.trans hd'.symm,
    (mirroredKeys_of_honestKeys (honestTrace_honestKeys false) 0 1 p r s t _ hp hr (by decide)
      hs ht hd hd').2⟩

/-- Two initiators: the attacker answers the first under an identity of its own with the key of the
second, and replays the confirmation it gets to the second as MSG2. -/
def twoInitiatorsTrace : List (Event Scalar) :=
  [.start true 0, .start true 1, .deliver 0 (message2 Scalar (.adversary 0) 1 0),
    .deliver 1 (message2 Scalar (.node 0) 0 1)]

theorem twoInitiatorsTrace_feasible :
    Machine.Feasible Net.enabled Net.next .empty twoInitiatorsTrace := by
  have h : ∀ (net : Net Scalar) (i : ℕ), (i, message1 Scalar (.node i) i) ∈ net.sent →
      Knows net (.pub (ephemeral Scalar i)) := fun _ _ h ↦ (knows_of_hello h).1
  refine ⟨trivial, trivial, ⟨h _ 1 (by decide), .ownSig 0 ?_⟩, ⟨h _ 0 (by decide), ?_⟩, trivial⟩
  · intro q hq
    rcases List.mem_pair.mp hq with rfl | rfl
    · exact h _ 1 (by decide)
    · exact h _ 0 (by decide)
  · exact .wireSig (j := 0) (f := message3 Scalar (.node 0) 0 1) (by decide) rfl

theorem twoInitiatorsTrace_endpoints :
    (outcome twoInitiatorsTrace).parties.map Party.endpoint =
      [some (initiatorOf 0 (.adversary 0) (sharedDh 0 1)),
        some (initiatorOf 1 (.node 0) (sharedDh 1 0))] := by
  decide

/-- **Keys are not mirrored in general**: at the end of `twoInitiatorsTrace` two initiators share a
secret, and both send with the same key. -/
theorem not_mirroredKeys :
    ∃ net : Net Scalar, (network Scalar).Reachable net ∧ ¬ MirroredKeys net := by
  refine ⟨outcome twoInitiatorsTrace, outcome_reachable twoInitiatorsTrace_feasible, fun h ↦ ?_⟩
  obtain ⟨p, s, hp, hs, he⟩ := Net.exists_of_endpoint twoInitiatorsTrace_endpoints (i := 0) rfl
  obtain ⟨r, t, hr, ht, he'⟩ := Net.exists_of_endpoint twoInitiatorsTrace_endpoints (i := 1) rfl
  have hd : p.sharedSecret = some (sharedDh 0 1) := congrArg Endpoint.secret he
  have hd' : r.sharedSecret = some (sharedDh 0 1) :=
    (congrArg Endpoint.secret he').trans (congrArg some (sharedDh_comm 1 0))
  have hroles := (h 0 1 p r s t _ hp hr (by decide) hs ht hd hd').1
  have hpi : p.hs.isInitiator = true := congrArg Endpoint.initiator he
  have hri : r.hs.isInitiator = true := congrArg Endpoint.initiator he'
  exact hroles (hpi.trans hri.symm)

end Symbolic
end AttestP2P
