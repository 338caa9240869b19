import AttestP2P.Crypto.Agreement

/-!
# Impersonation

The signatures of the handshake cover ephemeral keys.  They do *not* bind who the other side is, or
which role it plays.  An attacker can take the ephemeral key of an honest session, present it under
an identity of its own, and sign the very transcript that the honest session signed: the key was
never secret, and the identity is the attacker's to sign with.  It learns no session key that way
(`ephemeral_agreement_and_secrecy` holds of every run), but two honest sessions can be brought to
one secret while they believe different things about each other.

* `Net.Impersonates` is that step, told apart by the roles of the session that takes the key and of
  the one that it is borrowed from; `honestKeys` is the network without it.
* `Placed`: the keys that the attacker can use are those of sessions that have been started.
* `Unborrowed` is what holds as long as nobody impersonates, by `unborrowed_of_reachable`.

The condition is not about what the sessions compute.  It is about the attacker's frame and the
session that it is delivered to, before it is delivered.
-/

set_option autoImplicit false

namespace AttestP2P
namespace Symbolic

variable {A : Type} [CommGroup A] [DecidableEq A]

/-! ## Whose keys the attacker can use

The attacker makes points out of those that are on the wire, and these are keys of sessions that
have been started. -/

/-- The sessions whose ephemeral keys are factors of the point are among the first `n`. -/
def Pub.Within (n : ℕ) : Pub A → Prop
  | .low => True
  | .point m _ => ∀ j, Name.eph j ∈ m → j < n

/-- So are those whose ephemeral keys the key is derived from. -/
def Key.Within (n : ℕ) : Key A → Prop
  | .dh m _ => ∀ j, Name.eph j ∈ m → j < n
  | .hkdf ikm _ _ => ikm.Within n

def Term.Within (n : ℕ) : Term A → Prop
  | .pub q => q.Within n
  | .key k => k.Within n
  | .sig _ => True

/-- What has been written was written by a session, and what has been received was made from the
keys of sessions. -/
structure Placed (net : Net A) : Prop where
  sent : ∀ j f, (j, f) ∈ net.sent → j < net.parties.length
  received : ∀ i p q, net.Has i p → p.peerEph = some q → q.Within net.parties.length

theorem Placed.within_of_knows {net : Net A} (hinv : Inv net) (h : Placed net) {t : Term A}
    (hk : Knows net t) : t.Within net.parties.length := by
  induction hk with
  | base => exact fun j hj ↦ absurd hj (Multiset.notMem_zero _)
  | low => exact trivial
  | blob k =>
    intro j hj
    cases Multiset.mem_singleton.mp hj
  | smul a _ ih => exact ih
  | @wirePub j f q hsent hq =>
    obtain rfl := hinv.wirePub j f q hsent hq
    intro j' hj'
    obtain rfl := Name.eph.inj (Multiset.mem_singleton.mp hj')
    exact h.sent j' f hsent
  | wireSig => exact trivial
  | signed => exact trivial
  | ownSig => exact trivial
  | ownOther => exact trivial
  | junk => exact trivial
  | secret _ ih => exact ih
  | point _ ih => exact ih
  | hkdf _ _ _ ih => exact ih

theorem placed_empty : Placed (Net.empty : Net A) := by
  constructor <;> intros <;> simp_all [Net.empty, Net.Has]

omit [CommGroup A] [DecidableEq A] in
theorem Pub.Within.mono {n n' : ℕ} (hle : n ≤ n') {q : Pub A} (h : q.Within n) : q.Within n' := by
  cases q with
  | low => exact trivial
  | point m a => exact fun j hj ↦ (h j hj).trans_le hle

theorem length_start (net : Net A) (initiator : Bool) (n : ℕ) :
    (net.start initiator n).parties.length = net.parties.length + 1 := by
  simp [Net.start]

theorem length_deliver (net : Net A) (i : ℕ) (f : Frame A) :
    (net.deliver i f).parties.length = net.parties.length := by
  rw [Net.deliver]
  split
  · rfl
  · exact List.length_set

theorem placed_start {net : Net A} (h : Placed net) (initiator : Bool) (n : ℕ) :
    Placed (net.start initiator n) := by
  refine ⟨fun j f hmem ↦ ?_, fun i p q hp hq ↦ ?_⟩
  · rw [length_start]
    rcases List.mem_append.mp hmem with hmem | hmem
    · exact Nat.lt_succ_of_lt (h.sent j f hmem)
    · obtain ⟨_, _, heq⟩ := List.mem_map.mp hmem
      obtain rfl : net.parties.length = j := congrArg Prod.fst heq
      exact Nat.lt_succ_self _
  · rw [length_start]
    rcases Net.has_start.mp hp with hp | ⟨rfl, rfl⟩
    · exact (h.received i p q hp hq).mono (Nat.le_succ _)
    · simp [Party.new] at hq

/-- A peer's key has just been received, or had been. -/
theorem Party.Reacts.received {i : ℕ} {p p' : Party A} {f : Frame A} {fs : List (Frame A)}
    (h : p.Reacts i f p' fs) {q : Pub A} (hq : p'.peerEph = some q) :
    f.ePub = some q ∨ p.peerEph = some q := by
  cases h with
  | idle => exact .inr hq
  | failed => exact .inr hq
  | message2 _ _ hf => exact .inl (by rw [hf]; exact hq)
  | message1 _ _ hf => exact .inl (by rw [hf]; exact hq)
  | message3 => exact .inr hq

theorem knows_of_ePub {net : Net A} {f : Frame A} (hf : Assemble net f) {q : Pub A}
    (hq : f.ePub = some q) : Knows net (.pub q) := by
  cases f with
  | hello p id sig =>
    obtain rfl := Option.some_inj.mp hq
    exact hf.1
  | _ => cases hq

theorem placed_deliver {net : Net A} (h : Placed net) (hinv : Inv net) {i : ℕ} {f : Frame A}
    (hf : Assemble net f) : Placed (net.deliver i f) := by
  cases hget : net.parties[i]? with
  | none =>
    have hsame : net.deliver i f = net := by simp only [Net.deliver, hget]
    rwa [hsame]
  | some p =>
    have hp : net.Has i p := hget
    refine ⟨fun j g hmem ↦ ?_, fun j p' q hp' hq ↦ ?_⟩
    · rw [length_deliver]
      rcases (Net.mem_sent_deliver hp).mp hmem with hmem | ⟨rfl, -⟩
      · exact h.sent j g hmem
      · exact (List.getElem?_eq_some_iff.mp hget).1
    · rw [length_deliver]
      rcases Net.cases_deliver hp hp' with ⟨rfl, rfl⟩ | ⟨-, hp'⟩
      · rcases (Party.reacts (hinv.own j p hp) f).received hq with hnew | hold
        · exact h.within_of_knows hinv (knows_of_ePub hf hnew)
        · exact h.received j p q hp hold
      · exact h.received j p' q hp' hq

theorem placed_of_reachable {net : Net A} (h : (network A).Reachable net) : Placed net := by
  refine h.invariant (fun net h₀ ↦ h₀ ▸ placed_empty) fun net e net' hreach hplaced hstep ↦ ?_
  obtain ⟨henabled, rfl⟩ := hstep
  cases e with
  | start initiator n => exact placed_start hplaced initiator n
  | deliver i f => exact placed_deliver hplaced (inv_of_reachable hreach) henabled
  | signOther n text => exact ⟨hplaced.sent, hplaced.received⟩

/-! ## Impersonation

A session takes, as the ephemeral key of one of the attacker's identities, a key made from that of
an honest session.  What comes of it depends on the roles of the two sessions.  If one is an
initiator and the other one a responder, they can end up with the same keys and different peers; if
both have the same role, they can end up with the same secret and keys that do not match. -/

/-- The ephemeral key of a session of the given role is a factor of the point. -/
def Pub.Borrowed (net : Net A) (initiator : Bool) : Pub A → Prop
  | .low => False
  | .point m _ => ∃ j r, Name.eph j ∈ m ∧ net.Has j r ∧ r.hs.isInitiator = initiator

/-- The event delivers, to an open session that will accept its signature, a hello under an identity
of the attacker's whose ephemeral key is made from that of an honest session: one of the other role
if `crossed`, and else one of the same role. -/
def Net.Impersonates (net : Net A) (crossed : Bool) : Event A → Prop
  | .deliver i (.hello q (.adversary k) sig) => ∃ p l, net.Has i p ∧
    q.Borrowed net (p.hs.isInitiator ^^ crossed) ∧ p.closed = false ∧ p.session = none ∧
      transcript p.hs q = some l ∧ (suite A).verify sig l (Ident.adversary k) = true
  | _ => False

/-- The network with an attacker that does not borrow the ephemeral keys of honest sessions for
sessions of the other role, or of the same. -/
def honestKeys (A : Type) [CommGroup A] [DecidableEq A] (crossed : Bool) :
    Machine (Net A) (Event A) :=
  (network A).guard fun net e ↦ ¬ net.Impersonates crossed e

theorem outcome_honestKeys {crossed : Bool} {es : List (Event A)}
    (h : Machine.Feasible (fun net e ↦ ¬ net.Impersonates crossed e ∧ net.enabled e) Net.next .empty
      es) : (honestKeys A crossed).Reachable (outcome es) :=
  ⟨.empty, es, rfl,
    Machine.run_foldl (M := honestKeys A crossed) (fun _ _ he ↦ ⟨he.1, he.2, rfl⟩) h⟩

theorem honestTrace_honestKeys (crossed : Bool) :
    (honestKeys Scalar crossed).Reachable (outcome honestTrace) := by
  obtain ⟨h₁, h₂, h₃, h₄, h₅, -⟩ := honestTrace_feasible
  exact outcome_honestKeys ⟨⟨fun h ↦ h, h₁⟩, ⟨fun h ↦ h, h₂⟩, ⟨fun h ↦ h, h₃⟩, ⟨fun h ↦ h, h₄⟩,
    ⟨fun h ↦ h, h₅⟩, trivial⟩

/-- What holds on the network as long as nobody impersonates. -/
structure Unborrowed (net : Net A) (crossed : Bool) : Prop where
  /-- A key a responder received under an identity of the attacker's is not borrowed. -/
  greeted : ∀ i p m hs k q, net.Has i p → p.hs = .responder (m + 1) hs →
    hs.iId = some (.adversary k) → p.peerEph = some q →
    ¬ q.Borrowed net (p.hs.isInitiator ^^ crossed)
  /-- Nor is the one a completed session shares with the attacker. -/
  completed : ∀ i p s k q, net.Has i p → p.session = some s → s.peerId = Ident.adversary k →
    p.peerEph = some q → ¬ q.Borrowed net (p.hs.isInitiator ^^ crossed)
  /-- No two initiators hold each other's ephemeral key. -/
  apart : crossed = false → ∀ i j p r, net.Has i p → net.Has j r → i ≠ j →
    p.hs.isInitiator = true → r.hs.isInitiator = true → p.peerEph = some (ephemeral A j) →
    r.peerEph = some (ephemeral A i) → False

theorem borrowed_ephemeral {net : Net A} {j : ℕ} {r : Party A} (hr : net.Has j r) :
    (ephemeral A j).Borrowed net r.hs.isInitiator :=
  ⟨j, r, Multiset.mem_singleton_self _, hr, rfl⟩

/-- A key that has been received is not borrowed from a session that is started later. -/
theorem Pub.Borrowed.of_start {net : Net A} {initiator role : Bool} {n : ℕ} {q : Pub A}
    (hq : q.Within net.parties.length) (h : q.Borrowed (net.start initiator n) role) :
    q.Borrowed net role := by
  cases q with
  | low => exact h
  | point m a =>
    obtain ⟨j, r, hj, hr, hrole⟩ := h
    rcases Net.has_start.mp hr with hr | ⟨rfl, -⟩
    · exact ⟨j, r, hj, hr, hrole⟩
    · exact absurd (hq _ hj) (lt_irrefl _)

/-- Sessions keep their roles, so that a key that is borrowed afterwards was so before. -/
theorem Pub.Borrowed.of_deliver {net : Net A} (hinv : Inv net) {i : ℕ} {f : Frame A} {role : Bool}
    {q : Pub A} (h : q.Borrowed (net.deliver i f) role) : q.Borrowed net role := by
  cases q with
  | low => exact h
  | point m a =>
    obtain ⟨j, r, hj, hr, hrole⟩ := h
    cases hget : net.parties[i]? with
    | none =>
      have hsame : net.deliver i f = net := by simp only [Net.deliver, hget]
      exact ⟨j, r, hj, hsame ▸ hr, hrole⟩
    | some p =>
      have hp : net.Has i p := hget
      rcases Net.cases_deliver hp hr with ⟨rfl, rfl⟩ | ⟨-, hr⟩
      · exact ⟨j, p, hj, hp, (Party.onFrame_keeps (hinv.own j p hp) f).2.2.symm.trans hrole⟩
      · exact ⟨j, r, hj, hr, hrole⟩

/-- A completed session that received a borrowed key received the ephemeral key of a session `j`; it
has the node of `j` as its peer, and `j` has received its key. -/
theorem Unborrowed.peer {net : Net A} {crossed : Bool} (h : Unborrowed net crossed) (hinv : Inv net)
    {i : ℕ} {p : Party A} {s : SecureSession (suite A)} (hp : net.Has i p) (hs : p.session = some s)
    {q : Pub A} (hq : p.peerEph = some q) (hborrow : q.Borrowed net (p.hs.isInitiator ^^ crossed)) :
    ∃ j r, net.Has j r ∧ q = ephemeral A j ∧ r.peerEph = some (ephemeral A i) ∧
      s.peerId = Ident.node r.node := by
  cases hid : (s.peerId : Ident) with
  | adversary k => exact absurd hborrow (h.completed i p s k q hp hs hid hq)
  | node n =>
    obtain ⟨j, r, f, hr, hn, hq', hpeer, -⟩ := hinv.agree hp hs hid
    exact ⟨j, r, hr, Option.some_inj.mp (hq.symm.trans hq'), hpeer, by rw [hn]⟩

theorem unborrowed_empty (crossed : Bool) : Unborrowed (Net.empty : Net A) crossed := by
  constructor <;> intros <;> simp_all [Net.empty, Net.Has]

theorem unborrowed_start {net : Net A} {crossed : Bool} (h : Unborrowed net crossed)
    (hplaced : Placed net) (initiator : Bool) (n : ℕ) :
    Unborrowed (net.start initiator n) crossed := by
  refine ⟨?_, ?_, ?_⟩
  · intro i p m hs k q hp hhs hid hq hborrow
    rcases Net.has_start.mp hp with hp | ⟨rfl, rfl⟩
    · exact h.greeted i p m hs k q hp hhs hid hq (hborrow.of_start (hplaced.received i p q hp hq))
    · simp [Party.new] at hq
  · intro i p s k q hp hs hid hq hborrow
    rcases Net.has_start.mp hp with hp | ⟨rfl, rfl⟩
    · exact h.completed i p s k q hp hs hid hq (hborrow.of_start (hplaced.received i p q hp hq))
    · simp [Party.new] at hq
  · intro hsame i j p r hp hr hij hpi hri hq hq'
    rcases Net.has_start.mp hp with hp | ⟨rfl, rfl⟩
    · rcases Net.has_start.mp hr with hr | ⟨rfl, rfl⟩
      · exact h.apart hsame i j p r hp hr hij hpi hri hq hq'
      · simp [Party.new] at hq'
    · simp [Party.new] at hq

/-- An initiator that holds a peer's key is complete. -/
theorem Party.Stage.complete {i : ℕ} {p : Party A} (h : p.Stage i) (hrole : p.hs.isInitiator = true)
    {q : Pub A} (hq : p.peerEph = some q) : ∃ s, p.session = some s := by
  cases h with
  | waiting _ hpeer => simp [hpeer] at hq
  | initiated _ _ _ hsession => exact ⟨_, hsession⟩
  | answered hhs => simp [hhs, Handshake.isInitiator] at hrole

/-- An initiator whose key another initiator has received has received the key of that one. -/
theorem Unborrowed.received {net : Net A} (h : Unborrowed net false) (hinv : Inv net) {i j : ℕ}
    {p r : Party A} (hp : net.Has i p) (hr : net.Has j r) (hpi : p.hs.isInitiator = true)
    (hri : r.hs.isInitiator = true) (hq : p.peerEph = some (ephemeral A j)) :
    r.peerEph = some (ephemeral A i) := by
  obtain ⟨s, hs⟩ := (hinv.stage i p hp).complete hpi hq
  have hborrow : (ephemeral A j).Borrowed net (p.hs.isInitiator ^^ false) := by
    rw [Bool.xor_false, hpi, ← hri]
    exact borrowed_ephemeral hr
  obtain ⟨j', r', hr', hj, hpeer, -⟩ := h.peer hinv hp hs hq hborrow
  obtain rfl := ephemeral_inj hj
  obtain rfl := Option.some_inj.mp (hr.symm.trans hr')
  exact hpeer

/-- Of two initiators that hold each other's key, one has just completed; before it did, the other
one could not have completed with its key. -/
theorem Unborrowed.apart_deliver {net : Net A} (h : Unborrowed net false) (hinv : Inv net) {i : ℕ}
    {p : Party A} (hp : net.Has i p) (f : Frame A) {j k : ℕ} {p₁ p₂ : Party A}
    (hp₁ : (net.deliver i f).Has j p₁) (hp₂ : (net.deliver i f).Has k p₂) (hjk : j ≠ k)
    (hpi : p₁.hs.isInitiator = true) (hri : p₂.hs.isInitiator = true)
    (hq : p₁.peerEph = some (ephemeral A k)) (hq' : p₂.peerEph = some (ephemeral A j)) :
    False := by
  have hfirst : ∀ k p₁ r, net.Has k r → i ≠ k → p₁.hs.isInitiator = true →
      r.hs.isInitiator = true → p₁ = (p.onFrame f).1 → r.peerEph = some (ephemeral A i) →
      False := by
    intro k p₁ r hr hik hpi hri hp₁ hq'
    have hrole : p.hs.isInitiator = true := by
      rw [← (Party.onFrame_keeps (hinv.own i p hp) f).2.2, ← hp₁]
      exact hpi
    exact h.apart rfl i k p r hp hr hik hrole hri (h.received hinv hr hp hri hrole hq') hq'
  rcases Net.cases_deliver hp hp₁ with ⟨rfl, h₁⟩ | ⟨-, h₁⟩
  · rcases Net.cases_deliver hp hp₂ with ⟨rfl, -⟩ | ⟨-, h₂⟩
    · exact hjk rfl
    · exact hfirst k p₁ p₂ h₂ hjk hpi hri h₁ hq'
  · rcases Net.cases_deliver hp hp₂ with ⟨rfl, h₂⟩ | ⟨-, h₂⟩
    · exact hfirst j p₂ p₁ h₁ hjk.symm hri hpi h₂ hq
    · exact h.apart rfl j k p₁ p₂ h₁ h₂ hjk hpi hri hq hq'

theorem unborrowed_deliver {net : Net A} {crossed : Bool} (h : Unborrowed net crossed)
    (hinv : Inv net) {i : ℕ} {f : Frame A} (hclean : ¬ net.Impersonates crossed (.deliver i f)) :
    Unborrowed (net.deliver i f) crossed := by
  cases hget : net.parties[i]? with
  | none =>
    have hsame : net.deliver i f = net := by simp only [Net.deliver, hget]
    rwa [hsame]
  | some p =>
    have hp : net.Has i p := hget
    have hown := hinv.own i p hp
    have hstage := hinv.stage i p hp
    have hreact := Party.reacts hown f
    have hrole := (Party.onFrame_keeps hown f).2.2
    refine ⟨?_, ?_, ?_⟩
    · intro j p' m hs k q hp' hhs hid hq hborrow
      replace hborrow := hborrow.of_deliver hinv
      rcases Net.cases_deliver hp hp' with ⟨rfl, rfl⟩ | ⟨-, hp'⟩
      · rw [hrole] at hborrow
        obtain ⟨m₀, hs₀, hhs₀, hid₀, hq₀⟩ | ⟨⟨hopen, hidle⟩, rfl, htranscript⟩ :=
          hreact.greeted hstage hhs hid hq
        · exact h.greeted j p m₀ hs₀ k q hp hhs₀ hid₀ hq₀ hborrow
        · exact hclean ⟨p, _, hp, hborrow, hopen, hidle, htranscript, verify_iff.mpr rfl⟩
      · exact h.greeted j p' m hs k q hp' hhs hid hq hborrow
    · intro j p' s k q hp' hs hid hq hborrow
      replace hborrow := hborrow.of_deliver hinv
      rcases Net.cases_deliver hp hp' with ⟨rfl, rfl⟩ | ⟨-, hp'⟩
      · rw [hrole] at hborrow
        obtain ⟨hs₀, hq₀⟩ | ⟨⟨hopen, hidle⟩, rfl, htranscript⟩ | ⟨-, m, hs₀, hhs₀, hid₀, hq₀⟩ :=
          hreact.completed hown hstage hs hq
        · exact h.completed j p s k q hp hs₀ hid hq₀ hborrow
        · rw [hid] at hclean
          exact hclean ⟨p, _, hp, hborrow, hopen, hidle, htranscript, verify_iff.mpr rfl⟩
        · exact h.greeted j p m hs₀ k q hp hhs₀ (hid ▸ hid₀) hq₀ hborrow
      · exact h.completed j p' s k q hp' hs hid hq hborrow
    · rintro rfl j k p₁ p₂ hp₁ hp₂ hjk hpi hri hq hq'
      exact h.apart_deliver hinv hp f hp₁ hp₂ hjk hpi hri hq hq'

theorem unborrowed_of_reachable {net : Net A} {crossed : Bool}
    (h : (honestKeys A crossed).Reachable net) : Unborrowed net crossed := by
  refine Machine.Reachable.invariant (M := honestKeys A crossed)
    (fun net h₀ ↦ h₀ ▸ unborrowed_empty crossed) (fun net e net' hreach hclean hstep ↦ ?_) h
  obtain ⟨hguard, -, rfl⟩ := hstep
  cases e with
  | start initiator n =>
    exact unborrowed_start hclean (placed_of_reachable hreach.of_guard) initiator n
  | deliver i f => exact unborrowed_deliver hclean (inv_of_reachable hreach.of_guard) hguard
  | signOther n text => exact ⟨hclean.greeted, hclean.completed, hclean.apart⟩

end Symbolic
end AttestP2P
