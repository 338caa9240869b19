import AttestP2P.Crypto.Reactions
import Mathlib.Algebra.Group.Int.Defs
import Mathlib.Algebra.Group.TypeTags.Basic
import Mathlib.Data.Multiset.Basic

/-!
# What the handshake guarantees

The network of `Crypto/Symbolic.lean`, analysed.  The attacker delivers what it likes to whom it
likes, and nothing is assumed of the order of events.  Everything rests on one invariant, `Inv`,
which traces each honest signature to the session that made it (`Source`) and each completed
session to the signature it accepted:

* a signature of an honest node on one public key was made by an initiator of that node, on its
  own ephemeral key (or covers no session's key at all);
* a signature of an honest node on a pair was made by a session of that node, on its own ephemeral
  key and the one it had received.

From it, `Inv.agree` says that a session whose peer is honest shares its two ephemeral keys with a
session of that peer.  `Inv.public_of_knows` bounds what the attacker can multiply together, and
`ephemeral_agreement_and_secrecy` puts the two in one statement: the peer took part, and the
attacker has none of the session's keys.

`honestTrace` is a handshake of two honest nodes that nobody interferes with.
-/

set_option autoImplicit false

namespace AttestP2P
namespace Symbolic

variable {A : Type} [CommGroup A] [DecidableEq A]

/-! ## Where honest signatures come from

A signature under the identity of a node that is on the wire was made by a session of that node,
over the ephemeral keys that this session has.  The attacker cannot make one, and what it learns
stays true of any later network. -/

/-- Session `p`, which is number `i`, is one of the network's. -/
def Net.Has (net : Net A) (i : ℕ) (p : Party A) : Prop := net.parties[i]? = some p

/-- Why node `n` has signed the public keys `l`. -/
inductive Source (net : Net A) (n : ℕ) (l : List (Pub A)) : Prop
  | opening {i : ℕ} {p : Party A} (hp : net.Has i p) (hn : p.node = n)
      (hrole : p.hs.isInitiator = true) (hl : l = [ephemeral A i])
  | pair {i : ℕ} {p : Party A} {q : Pub A} {f : Frame A} (hp : net.Has i p) (hn : p.node = n)
      (hq : p.peerEph = some q) (hsent : (i, f) ∈ net.sent)
      (hsig : f.sig = some (.sign (.node n) (.keys l))) (hl : l = [ephemeral A i, q])
  | foreign {k : ℕ} (hl : l = [.point {.blob k} 1])

/-- The network has moved on: its sessions are still there, with the node, the role and the peer
key they had, and so is all that was written. -/
structure Net.Extends (net net' : Net A) : Prop where
  parties : ∀ i p, net.Has i p → ∃ p', net'.Has i p' ∧ p'.node = p.node ∧
    p'.hs.isInitiator = p.hs.isInitiator ∧ ∀ q, p.peerEph = some q → p'.peerEph = some q
  sent : ∀ x ∈ net.sent, x ∈ net'.sent

theorem Source.mono {net net' : Net A} {n : ℕ} {l : List (Pub A)} (h : Source net n l)
    (hext : net.Extends net') : Source net' n l := by
  cases h with
  | opening hp hn hrole hl =>
    obtain ⟨p', hp', hn', hrole', -⟩ := hext.parties _ _ hp
    exact .opening hp' (hn'.trans hn) (hrole'.trans hrole) hl
  | pair hp hn hq hsent hsig hl =>
    obtain ⟨p', hp', hn', -, hq'⟩ := hext.parties _ _ hp
    exact .pair hp' (hn'.trans hn) (hq' _ hq) (hext.sent _ hsent) hsig hl
  | foreign hl => exact .foreign hl

omit [DecidableEq A] in
/-- The ephemeral key of a session determines the session. -/
theorem ephemeral_inj {i j : ℕ} (h : ephemeral A i = ephemeral A j) : i = j := by
  simpa [ephemeral] using h

/-- A pair that starts with the ephemeral key of session `i` was signed by session `i`. -/
theorem Source.of_pair {net : Net A} {n : ℕ} {q r : Pub A} (h : Source net n [q, r]) :
    ∃ i p f, net.Has i p ∧ p.node = n ∧ q = ephemeral A i ∧ p.peerEph = some r ∧
      (i, f) ∈ net.sent ∧ f.sig = some (.sign (.node n) (.keys [q, r])) := by
  cases h with
  | opening _ _ _ hl => simp at hl
  | @pair i p r' f hp hn hq hsent hsig hl =>
    simp only [List.cons.injEq, and_true] at hl
    obtain ⟨rfl, rfl⟩ := hl
    exact ⟨i, p, f, hp, hn, rfl, hq, hsent, hsig⟩
  | foreign hl => simp at hl

/-- The invariant of the network: what sessions hold they have from frames they have received, and
every signature under the identity of a node goes back to a session of that node. -/
structure Inv (net : Net A) : Prop where
  /-- Sessions keep their own keys. -/
  own : ∀ i p, net.Has i p → p.Own i
  /-- Sessions derive their keys from what they received. -/
  stage : ∀ i p, net.Has i p → p.Stage i
  /-- Public keys on the wire are those of their senders. -/
  wirePub : ∀ j f q, (j, f) ∈ net.sent → f.ePub = some q → q = ephemeral A j
  /-- Honest signatures on the wire have a source. -/
  wireSig : ∀ j f n l, (j, f) ∈ net.sent → f.sig = some (.sign (.node n) (.keys l)) →
    Source net n l
  /-- So have the other signatures honest nodes make. -/
  signed : ∀ n l, Sig.sign (.node n) (.keys l) ∈ net.signed → Source net n l
  /-- What a responder accepted as MSG1 of an honest node has a source. -/
  greeted : ∀ i p m hs n q, net.Has i p → p.hs = .responder (m + 1) hs → hs.iId = some (.node n) →
    p.peerEph = some q → Source net n [q]
  /-- What a completed session accepted as the transcript of an honest node has a source. -/
  confirmed : ∀ i p s n q, net.Has i p → p.session = some s → s.peerId = Ident.node n →
    p.peerEph = some q → Source net n [q, ephemeral A i]

/-- An honest signature the attacker holds is one it was given. -/
theorem Inv.source_of_knows {net : Net A} (hinv : Inv net) {n : ℕ} {l : List (Pub A)}
    (h : Knows net (.sig (.sign (.node n) (.keys l)))) : Source net n l := by
  cases h with
  | wireSig hsent hsig => exact hinv.wireSig _ _ _ _ hsent hsig
  | signed hmem => exact hinv.signed _ _ hmem

theorem inv_empty : Inv (Net.empty : Net A) := by
  constructor <;> intros <;> simp_all [Net.empty, Net.Has]

/-! ### Starting a session -/

theorem Net.has_start {net : Net A} {initiator : Bool} {n i : ℕ} {p : Party A} :
    (net.start initiator n).Has i p ↔
      net.Has i p ∨ i = net.parties.length ∧ p = Party.new net.parties.length initiator n := by
  simp only [Net.Has, Net.start, List.getElem?_append]
  split
  · next hlt => simp [show i ≠ net.parties.length by omega]
  · next hge =>
    rw [List.getElem?_eq_none (Nat.le_of_not_lt hge)]
    by_cases hi : i = net.parties.length
    · simp [hi, eq_comm]
    · simp [hi, show i - net.parties.length ≠ 0 by omega]

theorem Net.start_extends (net : Net A) (initiator : Bool) (n : ℕ) :
    net.Extends (net.start initiator n) where
  parties _ p hp := ⟨p, Net.has_start.mpr (.inl hp), rfl, rfl, fun _ h ↦ h⟩
  sent _ hx := List.mem_append_left _ hx

/-- Only an initiator opens: with its ephemeral key, signed by its node. -/
theorem Party.opening_new {i n : ℕ} {initiator : Bool} {f : Frame A}
    (h : f ∈ (Party.new (A := A) i initiator n).hs.opening) :
    initiator = true ∧
      f = .hello (ephemeral A i) (.node n) (.sign (.node n) (.keys [ephemeral A i])) := by
  cases initiator with
  | false => simp [Party.new, Handshake.new, Handshake.opening] at h
  | true => exact ⟨rfl, List.mem_singleton.mp h⟩

theorem Party.new_stage (i n : ℕ) (initiator : Bool) :
    (Party.new (A := A) i initiator n).Stage i := by
  refine .waiting ?_ rfl rfl
  intro m hs h
  cases initiator <;> simp [Party.new, Handshake.new] at h

theorem inv_start {net : Net A} (hinv : Inv net) (initiator : Bool) (n : ℕ) :
    Inv (net.start initiator n) := by
  have hext := net.start_extends initiator n
  have hsent : ∀ j f, (j, f) ∈ (net.start initiator n).sent → (j, f) ∈ net.sent ∨
      j = net.parties.length ∧ initiator = true ∧
        f = .hello (ephemeral A j) (.node n) (.sign (.node n) (.keys [ephemeral A j])) := by
    intro j f h
    rcases List.mem_append.mp h with h | h
    · exact .inl h
    · obtain ⟨f', hf', heq⟩ := List.mem_map.mp h
      cases heq
      exact .inr ⟨rfl, Party.opening_new hf'⟩
  refine ⟨?_, ?_, ?_, ?_, ?_, ?_, ?_⟩
  · intro i p hp
    rcases Net.has_start.mp hp with hp | ⟨rfl, rfl⟩
    · exact hinv.own i p hp
    · exact Party.new_own _ _ _
  · intro i p hp
    rcases Net.has_start.mp hp with hp | ⟨rfl, rfl⟩
    · exact hinv.stage i p hp
    · exact Party.new_stage _ _ _
  · intro j f q h hq
    rcases hsent j f h with h | ⟨-, -, rfl⟩
    · exact hinv.wirePub j f q h hq
    · exact (Option.some_inj.mp hq).symm
  · intro j f m l h hsig
    rcases hsent j f h with h | ⟨rfl, rfl, rfl⟩
    · exact (hinv.wireSig j f m l h hsig).mono hext
    · simp only [Frame.sig, Option.some.injEq, Sig.sign.injEq, Ident.node.injEq,
        Text.keys.injEq] at hsig
      exact .opening (Net.has_start.mpr (.inr ⟨rfl, rfl⟩)) hsig.1 rfl hsig.2.symm
  · intro m l h
    exact (hinv.signed m l h).mono hext
  · intro i p m hs k q hp hhs hid hq
    rcases Net.has_start.mp hp with hp | ⟨rfl, rfl⟩
    · exact (hinv.greeted i p m hs k q hp hhs hid hq).mono hext
    · simp [Party.new] at hq
  · intro i p s k q hp hsession hid hq
    rcases Net.has_start.mp hp with hp | ⟨rfl, rfl⟩
    · exact (hinv.confirmed i p s k q hp hsession hid hq).mono hext
    · simp [Party.new] at hq

/-! ### Delivering a frame

One session reacts, and the others stay as they are.  What it writes is signed by it and goes onto
the wire; what it concludes from the frame it concludes from the origin of the signature in it. -/

theorem Net.has_deliver {net : Net A} {i : ℕ} {p : Party A} (hp : net.Has i p) {f : Frame A}
    {j : ℕ} {p' : Party A} :
    (net.deliver i f).Has j p' ↔ if j = i then p' = (p.onFrame f).1 else net.Has j p' := by
  have hi : i < net.parties.length := (List.getElem?_eq_some_iff.mp hp).1
  have hp' : net.parties[i]? = some p := hp
  simp only [Net.Has, Net.deliver, hp', List.getElem?_set, hi]
  by_cases h : j = i
  · simp [h, eq_comm]
  · simp [h, Ne.symm h]

/-- A session after the delivery is the one that reacted, or another one. -/
theorem Net.cases_deliver {net : Net A} {i : ℕ} {p : Party A} (hp : net.Has i p) {f : Frame A}
    {j : ℕ} {p' : Party A} (hp' : (net.deliver i f).Has j p') :
    j = i ∧ p' = (p.onFrame f).1 ∨ j ≠ i ∧ net.Has j p' := by
  rw [Net.has_deliver hp] at hp'
  split at hp'
  · next hj => exact .inl ⟨hj, hp'⟩
  · next hj => exact .inr ⟨hj, hp'⟩

theorem Net.mem_sent_deliver {net : Net A} {i : ℕ} {p : Party A} (hp : net.Has i p)
    {f g : Frame A} {j : ℕ} :
    (j, g) ∈ (net.deliver i f).sent ↔ (j, g) ∈ net.sent ∨ j = i ∧ g ∈ (p.onFrame f).2 := by
  have hp' : net.parties[i]? = some p := hp
  simp only [Net.deliver, hp', List.mem_append, List.mem_map, Prod.mk.injEq]
  refine or_congr_right ⟨?_, ?_⟩
  · rintro ⟨g', hg', rfl, rfl⟩
    exact ⟨rfl, hg'⟩
  · rintro ⟨rfl, hg⟩
    exact ⟨g, hg, rfl, rfl⟩

theorem Net.deliver_extends {net : Net A} (hinv : Inv net) {i : ℕ} {p : Party A}
    (hp : net.Has i p) (f : Frame A) : net.Extends (net.deliver i f) where
  parties j p' hp' := by
    by_cases hj : j = i
    · subst hj
      obtain rfl : p' = p := Option.some_inj.mp (hp'.symm.trans hp)
      have hown := hinv.own j p' hp
      obtain ⟨-, hn, hrole⟩ := Party.onFrame_keeps hown f
      exact ⟨_, (Net.has_deliver hp).mpr (by simp), hn, hrole,
        fun q hq ↦ (Party.reacts hown f).peerEph (hinv.stage j p' hp) hq⟩
    · exact ⟨p', (Net.has_deliver hp).mpr (by simpa [hj] using hp'), rfl, rfl, fun _ h ↦ h⟩
  sent _ hx := (Net.mem_sent_deliver hp).mpr (.inl hx)

/-- What a reaction writes: nothing, or one frame that signs the pair of the session's ephemeral
key and the peer's. -/
theorem Party.Reacts.writes {i : ℕ} {p p' : Party A} {f g : Frame A} {fs : List (Frame A)}
    (h : p.Reacts i f p' fs) (hg : g ∈ fs) :
    ∃ q, p'.peerEph = some q ∧ (∀ r, g.ePub = some r → r = ephemeral A i) ∧
      g.sig = some (.sign (.node p.node) (.keys [ephemeral A i, q])) := by
  cases h with
  | idle => simp at hg
  | failed => simp at hg
  | @message2 _ _ q =>
    obtain rfl := List.mem_singleton.mp hg
    exact ⟨q, rfl, fun r hr ↦ by simp [Frame.ePub] at hr, rfl⟩
  | @message1 _ _ q =>
    obtain rfl := List.mem_singleton.mp hg
    exact ⟨q, rfl, fun r hr ↦ (Option.some_inj.mp hr).symm, rfl⟩
  | message3 => simp at hg

theorem inv_deliver {net : Net A} (hinv : Inv net) {i : ℕ} {f : Frame A} (hf : Assemble net f) :
    Inv (net.deliver i f) := by
  cases hget : net.parties[i]? with
  | none => simpa only [Net.deliver, hget] using hinv
  | some p =>
    have hp : net.Has i p := hget
    have hext := Net.deliver_extends hinv hp f
    have hown := hinv.own i p hp
    have hreact := Party.reacts hown f
    have hwrites : ∀ j g, (j, g) ∈ (net.deliver i f).sent → (j, g) ∈ net.sent ∨
        j = i ∧ ∃ q, (p.onFrame f).1.peerEph = some q ∧
          (∀ r, g.ePub = some r → r = ephemeral A i) ∧
          g.sig = some (.sign (.node p.node) (.keys [ephemeral A i, q])) := by
      intro j g h
      rcases (Net.mem_sent_deliver hp).mp h with h' | ⟨hj, h'⟩
      · exact .inl h'
      · exact .inr ⟨hj, hreact.writes h'⟩
    refine ⟨?_, ?_, ?_, ?_, ?_, ?_, ?_⟩
    · intro j p' hp'
      rcases Net.cases_deliver hp hp' with ⟨rfl, rfl⟩ | ⟨-, hp'⟩
      · exact (Party.onFrame_keeps hown f).1
      · exact hinv.own j p' hp'
    · intro j p' hp'
      rcases Net.cases_deliver hp hp' with ⟨rfl, rfl⟩ | ⟨-, hp'⟩
      · exact hreact.stage (hinv.stage j p hp)
      · exact hinv.stage j p' hp'
    · intro j g q h hq
      rcases hwrites j g h with h' | ⟨rfl, -, -, hE, -⟩
      · exact hinv.wirePub j g q h' hq
      · exact hE q hq
    · intro j g n l h hsig
      rcases hwrites j g h with h' | ⟨rfl, q, hq, -, hsig'⟩
      · exact (hinv.wireSig j g n l h' hsig).mono hext
      · rw [hsig'] at hsig
        simp only [Option.some.injEq, Sig.sign.injEq, Ident.node.injEq, Text.keys.injEq] at hsig
        obtain ⟨rfl, rfl⟩ := hsig
        exact .pair ((Net.has_deliver hp).mpr (by simp)) (Party.onFrame_keeps hown f).2.1 hq h
          hsig' rfl
    · intro n l h
      refine (hinv.signed n l ?_).mono hext
      simpa only [Net.deliver, hget] using h
    · intro j p' m hs n q hp' hhs hid hq
      rcases Net.cases_deliver hp hp' with ⟨rfl, rfl⟩ | ⟨-, hp'⟩
      · refine Source.mono ?_ hext
        obtain ⟨m₀, hs₀, hhs₀, hid₀, hq₀⟩ | ⟨-, rfl, -⟩ :=
          hreact.greeted (hinv.stage j p hp) hhs hid hq
        · exact hinv.greeted j p m₀ hs₀ n q hp hhs₀ hid₀ hq₀
        · exact hinv.source_of_knows hf.2
      · exact (hinv.greeted j p' m hs n q hp' hhs hid hq).mono hext
    · intro j p' s n q hp' hsession hid hq
      rcases Net.cases_deliver hp hp' with ⟨rfl, rfl⟩ | ⟨-, hp'⟩
      · refine Source.mono ?_ hext
        obtain ⟨hsession₀, hq₀⟩ | ⟨-, rfl, -⟩ | ⟨rfl, -⟩ :=
          hreact.completed hown (hinv.stage j p hp) hsession hq
        · exact hinv.confirmed j p s n q hp hsession₀ hid hq₀
        · exact hinv.source_of_knows (hid ▸ hf.2)
        · exact hinv.source_of_knows (hid ▸ hf)
      · exact (hinv.confirmed j p' s n q hp' hsession hid hq).mono hext

/-! ### The invariant holds -/

theorem inv_signOther {net : Net A} (hinv : Inv net) {n : ℕ} {text : Text A}
    (ht : text.Foreign) : Inv { net with signed := net.signed ++ [.sign (.node n) text] } := by
  have hext : net.Extends { net with signed := net.signed ++ [.sign (.node n) text] } :=
    ⟨fun _ p hp ↦ ⟨p, hp, rfl, rfl, fun _ h ↦ h⟩, fun _ h ↦ h⟩
  refine ⟨hinv.own, hinv.stage, hinv.wirePub, ?_, ?_, ?_, ?_⟩
  · intro j f m l h hsig
    exact (hinv.wireSig j f m l h hsig).mono hext
  · intro m l h
    rcases List.mem_append.mp h with h | h
    · exact (hinv.signed m l h).mono hext
    · obtain ⟨k, rfl⟩ | ⟨k, rfl⟩ := ht
      · simp at h
      · simp only [List.mem_singleton, Sig.sign.injEq, Text.keys.injEq] at h
        exact .foreign h.2
  · intro j p m hs k q hp hhs hid hq
    exact (hinv.greeted j p m hs k q hp hhs hid hq).mono hext
  · intro j p s k q hp hsession hid hq
    exact (hinv.confirmed j p s k q hp hsession hid hq).mono hext

theorem inv_of_reachable {net : Net A} (h : (network A).Reachable net) : Inv net := by
  refine h.invariant (fun net h₀ ↦ h₀ ▸ inv_empty) fun net e net' _ hinv hstep ↦ ?_
  obtain ⟨henabled, rfl⟩ := hstep
  cases e with
  | start initiator n => exact inv_start hinv initiator n
  | deliver i f => exact inv_deliver hinv henabled
  | signOther n text => exact inv_signOther hinv henabled

/-! ## Concrete runs

Sessions are named by the order in which they are started, and an `Endpoint` is what can be seen of
one in the end. -/

/-- The outcome of a list of events, from a network without any session. -/
def outcome (es : List (Event A)) : Net A := es.foldl Net.next .empty

theorem outcome_reachable {es : List (Event A)}
    (h : Machine.Feasible Net.enabled Net.next .empty es) : (network A).Reachable (outcome es) :=
  ⟨.empty, es, rfl, Machine.run_foldl (M := network A) (fun _ _ he ↦ ⟨he, rfl⟩) h⟩

/-- The Diffie-Hellman secret of a session that has received a key. -/
def Party.sharedSecret (p : Party A) : Option (Key A) :=
  p.peerEph.bind fun q ↦ ((suite A).scalarmult p.hs.ePriv q).toOption

/-- What a completed session shows: its node and role, its shared secret, its peer and its keys. -/
structure Endpoint (A : Type) where
  node : ℕ
  initiator : Bool
  secret : Option (Key A)
  peerId : Ident
  txKey : Key A
  rxKey : Key A
  deriving DecidableEq

def Party.endpoint (p : Party A) : Option (Endpoint A) :=
  p.session.map fun s ↦ ⟨p.node, p.hs.isInitiator, p.sharedSecret, s.peerId, s.txKey, s.rxKey⟩

theorem Net.exists_of_endpoint {net : Net A} {es : List (Option (Endpoint A))}
    (h : net.parties.map Party.endpoint = es) {i : ℕ} {e : Endpoint A}
    (he : es[i]? = some (some e)) :
    ∃ p s, net.Has i p ∧ p.session = some s ∧
      ⟨p.node, p.hs.isInitiator, p.sharedSecret, s.peerId, s.txKey, s.rxKey⟩ = e := by
  subst h
  rw [List.getElem?_map] at he
  obtain ⟨p, hp, he⟩ := Option.map_eq_some_iff.mp he
  obtain ⟨s, hs, rfl⟩ := Option.map_eq_some_iff.mp he
  exact ⟨p, s, hp, hs, rfl⟩

/-- Both fields of a hello on the wire are the attacker's. -/
theorem knows_of_hello {net : Net A} {j : ℕ} {q : Pub A} {k : Ident} {sig : Sig A}
    (h : (j, .hello q k sig) ∈ net.sent) : Knows net (.pub q) ∧ Knows net (.sig sig) :=
  ⟨.wirePub h rfl, .wireSig h rfl⟩

/-- The hello session `i` of node `n` sends as an initiator. -/
def message1 (A : Type) [One A] (id : Ident) (i : ℕ) : Frame A :=
  .hello (ephemeral A i) id (.sign id (.keys [ephemeral A i]))

/-- The hello session `i` answers session `j` with. -/
def message2 (A : Type) [One A] (id : Ident) (i j : ℕ) : Frame A :=
  .hello (ephemeral A i) id (.sign id (.keys [ephemeral A i, ephemeral A j]))

/-- The confirmation of session `i` to session `j`. -/
def message3 (A : Type) [One A] (id : Ident) (i j : ℕ) : Frame A :=
  .confirm (.sign id (.keys [ephemeral A i, ephemeral A j]))

/-- The scalars of the attacker in the runs below. -/
abbrev Scalar : Type := Multiplicative ℤ

/-- The secret of sessions `i` and `j`, before any rekey. -/
def sharedDh (i j : ℕ) : Key Scalar := .dh {.eph i, .eph j} 1

theorem sharedDh_comm (i j : ℕ) : sharedDh i j = sharedDh j i := by
  rw [sharedDh, sharedDh, Multiset.pair_comm]

/-- An initiator of node `n` that has completed with the secret `dh`. -/
def initiatorOf (n : ℕ) (peerId : Ident) (dh : Key Scalar) : Endpoint Scalar :=
  ⟨n, true, some dh, peerId, kI (suite Scalar) dh, kR (suite Scalar) dh⟩

/-- A responder of node `n` that has completed with the secret `dh`. -/
def responderOf (n : ℕ) (peerId : Ident) (dh : Key Scalar) : Endpoint Scalar :=
  ⟨n, false, some dh, peerId, kR (suite Scalar) dh, kI (suite Scalar) dh⟩

/-- Node 0 opens session 0 with session 1 of node 1, and nobody interferes. -/
def honestTrace : List (Event Scalar) :=
  [.start true 0, .start false 1, .deliver 1 (message1 Scalar (.node 0) 0),
    .deliver 0 (message2 Scalar (.node 1) 1 0), .deliver 1 (message3 Scalar (.node 0) 0 1)]

theorem honestTrace_feasible : Machine.Feasible Net.enabled Net.next .empty honestTrace := by
  refine ⟨trivial, trivial, knows_of_hello (j := 0) (k := .node 0) ?_,
    knows_of_hello (j := 1) (k := .node 1) ?_, ?_, trivial⟩
  · decide
  · decide
  · exact .wireSig (j := 0) (f := message3 Scalar (.node 0) 0 1) (by decide) rfl

theorem honestTrace_endpoints :
    (outcome honestTrace).parties.map Party.endpoint =
      [some (initiatorOf 0 (.node 1) (sharedDh 0 1)),
        some (responderOf 1 (.node 0) (sharedDh 1 0))] := by
  decide

/-! ## Agreement on the ephemeral keys, and secrecy of the session keys

What is public is made of ephemeral keys and of what the attacker has chosen itself.  The secret of
two honest ephemeral keys is not, since a factor of each of them is missing, and neither is anything
that is derived from it. -/

/-- **A completed session shares its ephemeral keys with its honest peer**: a session of the peer
made the key it received, and signed the pair. -/
theorem Inv.agree {net : Net A} (hinv : Inv net) {i n : ℕ} {p : Party A}
    {s : SecureSession (suite A)} (hp : net.Has i p) (hs : p.session = some s)
    (hid : s.peerId = Ident.node n) :
    ∃ j r f, net.Has j r ∧ r.node = n ∧ p.peerEph = some (ephemeral A j) ∧
      r.peerEph = some (ephemeral A i) ∧ (j, f) ∈ net.sent ∧
      f.sig = some (.sign (.node n) (.keys [ephemeral A j, ephemeral A i])) := by
  obtain ⟨q, hq⟩ : ∃ q, p.peerEph = some q := by
    cases hinv.stage i p hp with
    | waiting _ _ hsession => simp [hsession] at hs
    | initiated _ hpeer => exact ⟨_, hpeer⟩
    | answered _ hpeer => exact ⟨_, hpeer⟩
  obtain ⟨j, r, f, hr, hn, rfl, hpeer, hsent, hsig⟩ :=
    (hinv.confirmed i p s n q hp hs hid hq).of_pair
  exact ⟨j, r, f, hr, hn, hq, hpeer, hsent, hsig⟩

/-- The keys of a completed session come from its own ephemeral key and the one it received. -/
theorem Inv.keys {net : Net A} (hinv : Inv net) {i : ℕ} {p : Party A}
    {s : SecureSession (suite A)} (hp : net.Has i p) (hs : p.session = some s) :
    ∃ m a, p.peerEph = some (.point m a) ∧
      ((p.hs.isInitiator = true ∧ s.txKey = kI (suite A) (.dh (.eph i ::ₘ m) a) ∧
          s.rxKey = kR (suite A) (.dh (.eph i ::ₘ m) a)) ∨
        (p.hs.isInitiator = false ∧ s.txKey = kR (suite A) (.dh (.eph i ::ₘ m) a) ∧
          s.rxKey = kI (suite A) (.dh (.eph i ::ₘ m) a))) := by
  have hpoint : ∀ (q : Pub A) (dh : Key A), (suite A).scalarmult i q = .ok dh →
      ∃ m a, q = .point m a ∧ dh = .dh (.eph i ::ₘ m) a := by
    intro q dh hdh
    cases q with
    | low => cases hdh
    | point m a => cases hdh; exact ⟨m, a, rfl, rfl⟩
  cases hinv.stage i p hp with
  | waiting _ _ hsession => simp [hsession] at hs
  | initiated hhs hpeer hdh hsession =>
    obtain ⟨m, a, rfl, rfl⟩ := hpoint _ _ hdh
    obtain rfl := Option.some_inj.mp (hsession.symm.trans hs)
    exact ⟨m, a, hpeer, .inl ⟨by rw [hhs]; rfl, rfl, rfl⟩⟩
  | answered hhs hpeer _ _ hdh hkeys hsession =>
    obtain ⟨m, a, rfl, rfl⟩ := hpoint _ _ hdh
    have hsession' : p.session = _ := (hsession.resolve_left (by simp [hs])).trans hkeys
    obtain rfl := Option.some_inj.mp (hsession'.symm.trans hs)
    exact ⟨m, a, hpeer, .inr ⟨by rw [hhs]; rfl, rfl, rfl⟩⟩

/-- The point has at most one secret factor.  Such are the ephemeral keys themselves and what can be
made of them without a secret; a shared secret of two honest sessions has two. -/
def Pub.Public : Pub A → Prop
  | .low => True
  | .point m _ => m.card ≤ 1

/-- The key is derived from a point with at most one secret factor. -/
def Key.Public : Key A → Prop
  | .dh m _ => m.card ≤ 1
  | .hkdf ikm _ _ => ikm.Public

def Term.Public : Term A → Prop
  | .pub p => p.Public
  | .key k => k.Public
  | .sig _ => True

/-- **The attacker knows no product of two secrets.**  It starts from points with at most one secret
factor and can only multiply them by scalars of its own. -/
theorem Inv.public_of_knows {net : Net A} (hinv : Inv net) {t : Term A} (h : Knows net t) :
    t.Public := by
  induction h with
  | base => simp [Term.Public, Pub.Public]
  | low => exact trivial
  | blob k => simp [Term.Public, Pub.Public]
  | smul a _ ih => exact ih
  | wirePub hsent hq =>
    rw [hinv.wirePub _ _ _ hsent hq]
    simp [Term.Public, Pub.Public, ephemeral]
  | wireSig => exact trivial
  | signed => exact trivial
  | ownSig => exact trivial
  | ownOther => exact trivial
  | junk => exact trivial
  | secret _ ih => exact ih
  | point _ ih => exact ih
  | hkdf _ _ _ ih => exact ih

/-- **Ephemeral agreement and key secrecy.**  Whenever an honest session completes with an honest
node as its peer, a session of that node made the ephemeral key it used and signed the pair, and
the attacker can derive neither of its keys. -/
theorem ephemeral_agreement_and_secrecy {net : Net A} (h : (network A).Reachable net) {i n : ℕ}
    {p : Party A} {s : SecureSession (suite A)} (hp : net.Has i p) (hs : p.session = some s)
    (hid : s.peerId = Ident.node n) :
    (∃ j r f, net.Has j r ∧ r.node = n ∧ p.peerEph = some (ephemeral A j) ∧ (j, f) ∈ net.sent ∧
        f.sig = some (.sign (.node n) (.keys [ephemeral A j, ephemeral A i]))) ∧
      ¬ Knows net (.key s.txKey) ∧ ¬ Knows net (.key s.rxKey) := by
  have hinv := inv_of_reachable h
  obtain ⟨j, r, f, hr, hn, hq, -, hsent, hsig⟩ := hinv.agree hp hs hid
  refine ⟨⟨j, r, f, hr, hn, hq, hsent, hsig⟩, ?_⟩
  obtain ⟨m, a, hq', hkeys⟩ := hinv.keys hp hs
  rw [hq, ephemeral, Option.some_inj, Pub.point.injEq] at hq'
  obtain ⟨rfl, rfl⟩ := hq'
  -- both keys are derived from a shared secret with two secret factors
  have hI : ¬ (kI (suite A) (.dh (.eph i ::ₘ {.eph j}) 1)).Public := by
    simp [kI, hkdf, suite, Key.Public]
  have hR : ¬ (kR (suite A) (.dh (.eph i ::ₘ {.eph j}) 1)).Public := by
    simp [kR, hkdf, suite, Key.Public]
  rcases hkeys with ⟨-, htx, hrx⟩ | ⟨-, htx, hrx⟩
  · exact ⟨fun hk ↦ hI (htx ▸ hinv.public_of_knows hk), fun hk ↦ hR (hrx ▸ hinv.public_of_knows hk)⟩
  · exact ⟨fun hk ↦ hR (htx ▸ hinv.public_of_knows hk), fun hk ↦ hI (hrx ▸ hinv.public_of_knows hk)⟩

theorem ephemeral_agreement_and_secrecy_honestTrace :
    ∃ p s, (outcome honestTrace).Has 1 p ∧ p.session = some s ∧ s.peerId = Ident.node 0 ∧
      ¬ Knows (outcome honestTrace) (.key s.txKey) ∧
      ¬ Knows (outcome honestTrace) (.key s.rxKey) := by
  obtain ⟨p, s, hp, hs, he⟩ :=
    Net.exists_of_endpoint honestTrace_endpoints (i := 1) rfl
  have hid : s.peerId = Ident.node 0 := congrArg Endpoint.peerId he
  exact ⟨p, s, hp, hs, hid, (ephemeral_agreement_and_secrecy
    (outcome_reachable honestTrace_feasible) hp hs hid).2⟩

end Symbolic
end AttestP2P
