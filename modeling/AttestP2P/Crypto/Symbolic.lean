import AttestP2P.Crypto.Handshake
import AttestP2P.Lib.Machine
import Mathlib.Algebra.Group.Defs
import Mathlib.Data.Multiset.AddSub

/-!
# The handshake against an active attacker

The handshake of `Crypto/Handshake.lean` instantiated with *terms* instead of bytes, and put on a
network the attacker controls.

**The algebra.**  A secret scalar is a `Name`: the ephemeral key of an honest session, or the
discrete logarithm, known to nobody, of some byte string read as a point.  An X25519 public key
is the base point times a product of names times a scalar of the attacker's choosing, so it is a
`Multiset Name` and an element of the group `A` of attacker scalars.  Nothing is assumed of `A`.
Multiplying by a private key adds one name, which is all there is to know about
`x·(y·G) = y·(x·G)`; the multiplication is what makes an attacker able to turn `x·G` into
`x·a·G`.  A point of low order is rejected, as libsodium does.

**The network.**  `Net.parties` holds one entry for each session ever started, in any number, by
honest nodes; `Net.sent` all they have written.  The attacker *is* the network: it never has to
deliver anything, and it can deliver to any session any frame it can put together (`Assemble`)
out of what it knows (`Knows`).  It owns all identities `Ident.adversary k`, and may sign with
them whatever it can name.  Honest nodes also sign other things with their identity key —
packets, manifests, chunks — which `Event.signOther` hands to the attacker; a manifest hash is
32 bytes long, so it can be mistaken for a lone public key, but not for one of a session.
-/

set_option autoImplicit false

namespace AttestP2P
namespace Symbolic

/-! ## Terms

Ephemeral keys are multiples of a base point, in which the secrets of sessions and scalars of the
attacker's choice are factors.  Identities, texts and signatures are free: nothing is equal that was
not made in the same way. -/

/-- A secret scalar: that of a session's ephemeral key, or the discrete logarithm of the `k`-th
byte string that is no session's key. -/
inductive Name
  | eph (session : ℕ)
  | blob (k : ℕ)
  deriving DecidableEq

/-- An X25519 public key: a multiple of the base point by the secrets that have the given names and
by a scalar that anybody may know, or one of the points of low order, with which no secret is
shared. -/
inductive Pub (A : Type)
  | low
  | point (names : Multiset Name) (scalar : A)
  deriving DecidableEq

/-- An Ed25519 public key: that of an honest node, or one of the attacker's. -/
inductive Ident
  | node (n : ℕ)
  | adversary (k : ℕ)
  deriving DecidableEq

/-- A shared secret, or a key derived from one.  Keys that are derived in different ways, or from
different secrets, are different. -/
inductive Key (A : Type)
  | dh (names : Multiset Name) (scalar : A)
  | hkdf (ikm : Key A) (salt info : String)
  deriving DecidableEq

/-- What a signature covers: public keys, or some other message of the program. -/
inductive Text (A : Type)
  | keys (l : List (Pub A))
  | other (n : ℕ)
  deriving DecidableEq

/-- A signature, which shows who made it and what it is about, or bytes that are none. -/
inductive Sig (A : Type)
  | sign (id : Ident) (text : Text A)
  | junk (n : ℕ)
  deriving DecidableEq

/-- What travels in one frame: one of the two messages of the handshake that carry an ephemeral key,
the third one, which is only a signature, a frame of a session, or bytes that are none of these. -/
inductive Frame (A : Type)
  | hello (ePub : Pub A) (id : Ident) (sig : Sig A)
  | confirm (sig : Sig A)
  | sealed (key : Key A) (nonce : ℕ) (plaintext : Buffer)
  | junk (n : ℕ)
  deriving DecidableEq

variable {A : Type} [CommGroup A] [DecidableEq A]

/-- The public half of the ephemeral key of session `i`. -/
def ephemeral (A : Type) [One A] (i : ℕ) : Pub A := .point {.eph i} 1

/-- The ideal primitives.  A private key is the number of the session that drew it, a signing key
the number of the node that owns it. -/
def suite (A : Type) [One A] [DecidableEq A] : Suite (Frame A) where
  Priv := ℕ
  Pub := Pub A
  Ident := Ident
  SignKey := ℕ
  Sig := Sig A
  Key := Key A
  Nonce := ℕ
  publicKey i := ephemeral A i
  getPublicKey n := .node n
  sign n l := .sign (.node n) (.keys l)
  verify sig l id := decide (sig = .sign id (.keys l))
  scalarmult i p :=
    match p with
    | .low => .error "weak public key"
    | .point m a => .ok (.dh (.eph i ::ₘ m) a)
  hkdfSync := .hkdf
  aeadSeal := .sealed
  aeadOpen k f :=
    match f with
    | .sealed k' _ plaintext =>
      if k' = k then .ok plaintext else .error "ciphertext cannot be decrypted using that key"
    | _ => .error "ciphertext cannot be decrypted using that key"
  hello := .hello
  splitHello f :=
    match f with
    | .hello p id sig => some (p, id, sig)
    | _ => none
  confirm := .confirm
  splitConfirm f :=
    match f with
    | .confirm sig => some sig
    | _ => none

/-- The public ephemeral key a frame presents, if it is one that does. -/
def Frame.ePub : Frame A → Option (Pub A)
  | .hello p _ _ => some p
  | _ => none

/-- The signature a frame carries; a sealed frame has none. -/
def Frame.sig : Frame A → Option (Sig A)
  | .hello _ _ sig => some sig
  | .confirm sig => some sig
  | _ => none

/-! ## The network

Whatever is written is on the wire for ever.  The attacker delivers to any session any frame that it
can put together from what it knows, in any order and as often as it likes. -/

/-- An honest session: a `SecureConnection` up to the end of its handshake.  `peerEph` remembers the
ephemeral key of the hello it accepted. -/
structure Party (A : Type) [CommGroup A] [DecidableEq A] where
  node : ℕ
  hs : Handshake (suite A)
  peerEph : Option (Pub A)
  session : Option (SecureSession (suite A))
  closed : Bool

/-- Session number `i`, started by node `n`, with an ephemeral key of its own. -/
def Party.new (i : ℕ) (initiator : Bool) (n : ℕ) : Party A where
  node := n
  hs := .new (suite A) initiator n i
  peerEph := none
  session := none
  closed := false

/-- A frame reaches the session.  After an exception the connection is closed; once the session is
established, frames no longer concern the handshake. -/
def Party.onFrame (p : Party A) (f : Frame A) : Party A × List (Frame A) :=
  if p.closed = true ∨ p.session.isSome = true then (p, [])
  else
    match p.hs.onFrame f with
    | (hs, .error _) => ({ p with hs := hs, closed := true }, [])
    | (hs, .ok r) =>
      ({ p with hs := hs, session := r.session, peerEph := f.ePub.or p.peerEph }, r.writes)

/-- The state of the network: the sessions, by number, what each of them has written, and the other
signatures honest nodes have made. -/
structure Net (A : Type) [CommGroup A] [DecidableEq A] where
  parties : List (Party A)
  sent : List (ℕ × Frame A)
  signed : List (Sig A)

/-- What the attacker can hold and use: public keys, secret keys and signatures.  Texts are known to
everybody. -/
inductive Term (A : Type)
  | pub (p : Pub A)
  | key (k : Key A)
  | sig (s : Sig A)

/-- The text is a message of the program that is not a pair of public keys, nor the public key of a
session. -/
def Text.Foreign (t : Text A) : Prop :=
  (∃ n, t = .other n) ∨ ∃ k, t = .keys [.point {.blob k} 1]

/-- Everything the attacker can derive from what is on the wire. -/
inductive Knows (net : Net A) : Term A → Prop
  | base : Knows net (.pub (.point 0 1))
  | low : Knows net (.pub .low)
  | blob (k : ℕ) : Knows net (.pub (.point {.blob k} 1))
  | smul {m : Multiset Name} {b : A} (a : A) (h : Knows net (.pub (.point m b))) :
      Knows net (.pub (.point m (a * b)))
  | wirePub {j : ℕ} {f : Frame A} {p : Pub A} (h : (j, f) ∈ net.sent) (hp : f.ePub = some p) :
      Knows net (.pub p)
  | wireSig {j : ℕ} {f : Frame A} {s : Sig A} (h : (j, f) ∈ net.sent) (hs : f.sig = some s) :
      Knows net (.sig s)
  | signed {s : Sig A} (h : s ∈ net.signed) : Knows net (.sig s)
  | ownSig (k : ℕ) {l : List (Pub A)} (h : ∀ p ∈ l, Knows net (.pub p)) :
      Knows net (.sig (.sign (.adversary k) (.keys l)))
  | ownOther (k n : ℕ) : Knows net (.sig (.sign (.adversary k) (.other n)))
  | junk (n : ℕ) : Knows net (.sig (.junk n))
  | secret {m : Multiset Name} {a : A} (h : Knows net (.pub (.point m a))) :
      Knows net (.key (.dh m a))
  | point {m : Multiset Name} {a : A} (h : Knows net (.key (.dh m a))) :
      Knows net (.pub (.point m a))
  | hkdf {k : Key A} (salt info : String) (h : Knows net (.key k)) :
      Knows net (.key (.hkdf k salt info))

/-- The frames the attacker can put together.  An identity is no secret, so it may announce any. -/
def Assemble (net : Net A) : Frame A → Prop
  | .hello p _ s => Knows net (.pub p) ∧ Knows net (.sig s)
  | .confirm s => Knows net (.sig s)
  | .sealed k _ _ => Knows net (.key k)
  | .junk _ => True

/-- What can happen on the network: a node starts a session in one of the two roles, the attacker
delivers a frame, or a node signs something with the same key for a purpose of its own. -/
inductive Event (A : Type)
  | start (initiator : Bool) (node : ℕ)
  | deliver (i : ℕ) (f : Frame A)
  | signOther (node : ℕ) (text : Text A)

/-- A node starts a session, and sends the opening frame if it is the initiator. -/
def Net.start (net : Net A) (initiator : Bool) (n : ℕ) : Net A :=
  let i := net.parties.length
  let p : Party A := .new i initiator n
  { net with
    parties := net.parties ++ [p]
    sent := net.sent ++ p.hs.opening.map fun f ↦ (i, f) }

/-- The attacker hands the frame `f` to session `i`, which reacts to it as `SecureConnection` does;
what it writes is then on the wire. -/
def Net.deliver (net : Net A) (i : ℕ) (f : Frame A) : Net A :=
  match net.parties[i]? with
  | none => net
  | some p =>
    { net with
      parties := net.parties.set i (p.onFrame f).1
      sent := net.sent ++ (p.onFrame f).2.map fun f ↦ (i, f) }

def Net.next (net : Net A) : Event A → Net A
  | .start initiator n => net.start initiator n
  | .deliver i f => net.deliver i f
  | .signOther n text => { net with signed := net.signed ++ [.sign (.node n) text] }

/-- The attacker delivers what it can assemble; honest nodes sign, beside transcripts, only what
cannot be confused with one. -/
def Net.enabled (net : Net A) : Event A → Prop
  | .start _ _ => True
  | .deliver _ f => Assemble net f
  | .signOther _ text => text.Foreign

/-- The network before any session is started, when nobody has sent or signed anything. -/
def Net.empty : Net A where
  parties := []
  sent := []
  signed := []

/-- Any number of honest sessions on a network the attacker controls. -/
def network (A : Type) [CommGroup A] [DecidableEq A] : Machine (Net A) (Event A) :=
  .ofFun (· = .empty) Net.enabled Net.next

end Symbolic
end AttestP2P
