import AttestP2P.Lib.Utf8
import AttestP2P.Node.AttestP2PNode
import AttestP2P.Session.Stack

/-!
# Messages between nodes

`_attach`, `_route` and `sendMessage` of `src/node/attestp2pNode.js` over sessions: the messages of
a node to another one go through the session that was attached last, and what arrives is kept in the
thread of whoever is at the other end.

* `ChatNode` is a node as far as it matters here.  What the file node sends begins with `0x10` to
  `0x15`, and is otherwise arbitrary.  Sessions do not close.
* `Wired`: what a node knows of its connections is so; it is an invariant of the nodes over
  `Lib.Dialogue`, in which there are messages and no bytes.
* `messages_delivered`: in every run, a thread holds what the other node has written, in order and
  once, and all of it when everything has arrived.

The last one is about the whole stack, from the thread through the sessions, the frames and the
bytes and up again.  Its proof joins two results: the nodes are right over the dialogue, and the
stack is a simulation of the dialogue (`Session.Stack`).
-/

set_option autoImplicit false

namespace AttestP2P

namespace AttestP2PNode

/-- `_onChat`: the text joins the thread of the peer, and a question for the assistant is noted. -/
def onChat (s : AttestP2PNode) (peerHex : String) (textBuf : Buffer) (now : ℕ) : AttestP2PNode :=
  let text := String.ofList (Utf8.decode textBuf)
  let s := s.push peerHex ⟨.incoming, text, now⟩
  { s with
    asked := if isAiTrigger text then s.asked ++ [(peerHex, stripTrigger text)] else s.asked }

/-- `askAI`, when it has its reply, which joins the thread that the question was asked in. -/
def onReply (s : AttestP2PNode) (nodeIdHex reply : String) (now : ℕ) : AttestP2PNode :=
  s.push nodeIdHex ⟨.ai, reply, now⟩

end AttestP2PNode

/-- The text, if the line was received and not written here. -/
def ThreadLine.received? : ThreadLine → Option String
  | ⟨.incoming, text, _⟩ => some text
  | _ => none

/-- The text, if the line was written here. -/
def ThreadLine.written? : ThreadLine → Option String
  | ⟨.outgoing, text, _⟩ => some text
  | _ => none

/-- What happens to a node of its own accord. -/
inductive ChatCommand where
  | sendMessage (nodeIdHex text : String) (now : ℕ)
  | reply (nodeIdHex reply : String) (now : ℕ)
  /-- The file node is busy. -/
  | files

/-- A node and its connections, in the order in which they were attached. -/
structure ChatNode (κ : Type) where
  node : AttestP2PNode
  /-- The ends of connections that are attached, with their `peerId`, in this order. -/
  conns : List ((κ × Bool) × Buffer)

namespace ChatNode

open Talk

variable {κ : Type}

/-- A node that has just been started, without a connection. -/
def start : ChatNode κ := ⟨.start, []⟩

/-- `_attach`, of the end `p` of a connection whose handshake has told `peerId`. -/
def attach (s : ChatNode κ) (p : κ × Bool) (peerId : Buffer) : ChatNode κ :=
  ⟨s.node.attach peerId, s.conns ++ [(p, peerId)]⟩

/-- `t >= 0x10 && t <= 0x15`, the type bytes of the file protocol. -/
def isFile (t : UInt8) : Bool := 0x10 ≤ t && t ≤ 0x15

/-- The message is about files: its first byte is one of theirs. -/
def IsAboutFiles (m : Buffer) : Prop := m.head?.any isFile = true

/-- `_route`, but for what the file node does. -/
def route (s : ChatNode κ) (peerId buf : Buffer) (now : ℕ) : ChatNode κ :=
  match buf with
  | [] => s
  | t :: textBuf =>
    if isFile t then s
    else if t = AttestP2PNode.chat then
      { s with node := s.node.onChat peerId.hex textBuf now }
    else s

/-- `sendMessage`, which leaves the node as it is when it throws. -/
def sendMessage (s : ChatNode κ) (nodeIdHex text : String) (now : ℕ) : ChatNode κ :=
  { s with node := (s.node.sendMessage nodeIdHex text now).toOption.getD s.node }

/-- What `sendMessage` has passed to `send`, with the ends of the connections. -/
def said (s s' : ChatNode κ) : List ((κ × Bool) × Buffer) :=
  (s'.node.sent.drop s.node.sent.length).filterMap fun e ↦ s'.conns[e.1]?.map fun c ↦ (c.1, e.2)

/-- How a node behaves, as an application of the stack: what each stimulus makes it say, and the
node it leaves. -/
inductive Behaves : ChatNode κ → Stimulus ChatCommand κ Buffer Buffer →
    List ((κ × Bool) × Buffer) → ChatNode κ → Prop
  | sendMessage (s : ChatNode κ) (nodeIdHex text : String) (now : ℕ) :
    Behaves s (.own (.sendMessage nodeIdHex text now)) (s.said (s.sendMessage nodeIdHex text now))
      (s.sendMessage nodeIdHex text now)
  | reply (s : ChatNode κ) (nodeIdHex reply : String) (now : ℕ) :
    Behaves s (.own (.reply nodeIdHex reply now)) []
      { s with node := s.node.onReply nodeIdHex reply now }
  | files (s : ChatNode κ) {out : List ((κ × Bool) × Buffer)}
    (hfiles : ∀ y ∈ out, IsAboutFiles y.2) : Behaves s (.own .files) out s
  | meet (s : ChatNode κ) (p : κ × Bool) (peerId : Buffer) {out : List ((κ × Bool) × Buffer)}
    (hfiles : ∀ y ∈ out, IsAboutFiles y.2) : Behaves s (.meet p peerId) out (s.attach p peerId)
  | hear (s : ChatNode κ) {p : κ × Bool} {peerId : Buffer} (hattached : (p, peerId) ∈ s.conns)
    (buf : Buffer) (now : ℕ) {out : List ((κ × Bool) × Buffer)}
    (hfiles : ∀ y ∈ out, IsAboutFiles y.2) : Behaves s (.hear p buf) out (s.route peerId buf now)

/-- The texts received from the peer, in the order of its thread. -/
def received (s : ChatNode κ) (peerHex : String) : List String :=
  ((s.node.threads.get? peerHex).getD []).filterMap ThreadLine.received?

/-- The texts written to the peer, in the order of its thread. -/
def written (s : ChatNode κ) (peerHex : String) : List String :=
  ((s.node.threads.get? peerHex).getD []).filterMap ThreadLine.written?

variable {ι : Type} {owner : κ × Bool → ι} {name : ι → Buffer}
  {t : Talk ι κ (ChatNode κ) Buffer} {i : ι} {p : κ × Bool}
  {x : Stimulus ChatCommand κ Buffer Buffer} {out : List ((κ × Bool) × Buffer)} {s : ChatNode κ}

variable (owner name) in
/-- What nodes know of their connections: each end is its owner's, and is attached under the
identity of the other end's owner. -/
structure Wired (t : Talk ι κ (ChatNode κ) Buffer) : Prop where
  owned : ∀ i, ∀ c ∈ (t.party i).conns, owner c.1 = i ∧ t.met c.1 = true ∧
    c.2 = name (owner (far c.1))
  numbered : ∀ i, (t.party i).node.conns.length = (t.party i).conns.length
  routed : ∀ i peerHex n, (t.party i).node.sessionsByPeer.get? peerHex = some n →
    ∃ c, (t.party i).conns[n]? = some c ∧ c.2.hex = peerHex

variable [DecidableEq ι] [DecidableEq κ]

omit [DecidableEq ι] in
theorem met_prepare (h : t.met p = true) : (t.prepare x).met p = true := by
  cases x with
  | meet q id =>
    by_cases hp : p = q
    · rw [hp]
      exact met_meet_self
    · exact (met_meet_of_ne hp).trans h
  | _ => exact h

/-- A node that has the same connections afterwards. -/
theorem Wired.keep (h : Wired owner name t) (hconns : s.conns = (t.party i).conns)
    (hnode : s.node.conns = (t.party i).node.conns)
    (hrouted : s.node.sessionsByPeer = (t.party i).node.sessionsByPeer) :
    Wired owner name ((t.prepare x).act i s out) := by
  have hparty (j : ι) : (((t.prepare x).act i s out).party j).conns = (t.party j).conns ∧
      (((t.prepare x).act i s out).party j).node.conns = (t.party j).node.conns ∧
      (((t.prepare x).act i s out).party j).node.sessionsByPeer =
        (t.party j).node.sessionsByPeer := by
    by_cases hj : j = i
    · subst hj
      rw [party_act_self]
      exact ⟨hconns, hnode, hrouted⟩
    · rw [party_act_of_ne hj, party_prepare]
      exact ⟨rfl, rfl, rfl⟩
  refine ⟨fun j c hc ↦ ?_, fun j ↦ ?_, fun j peerHex n hget ↦ ?_⟩
  · rw [(hparty j).1] at hc
    obtain ⟨howner, hmet, hpeer⟩ := h.owned j c hc
    exact ⟨howner, met_prepare hmet, hpeer⟩
  · rw [(hparty j).1, (hparty j).2.1]
    exact h.numbered j
  · rw [(hparty j).2.2] at hget
    rw [(hparty j).1]
    exact h.routed j peerHex n hget

/-- A connection is attached, and everything said of it agrees with its wiring. -/
theorem Wired.attach (h : Wired owner name t) :
    Wired owner name ((t.prepare (.meet p (name (owner (far p))) :
      Stimulus ChatCommand κ Buffer Buffer)).act (owner p)
        ((t.party (owner p)).attach p (name (owner (far p)))) out) := by
  refine ⟨fun j c hc ↦ ?_, fun j ↦ ?_, fun j peerHex n hget ↦ ?_⟩
  · by_cases hj : j = owner p
    · subst hj
      rw [party_act_self] at hc
      rcases List.mem_append.mp hc with hc | hc
      · obtain ⟨howner, hmet, hpeer⟩ := h.owned _ c hc
        exact ⟨howner, met_prepare (x := .meet p (name (owner (far p)))) hmet, hpeer⟩
      · rw [List.mem_singleton.mp hc]
        exact ⟨rfl, met_meet_self, rfl⟩
    · rw [party_act_of_ne hj, party_prepare] at hc
      obtain ⟨howner, hmet, hpeer⟩ := h.owned j c hc
      exact ⟨howner, met_prepare (x := .meet p (name (owner (far p)))) hmet, hpeer⟩
  · by_cases hj : j = owner p
    · subst hj
      rw [party_act_self, ChatNode.attach, AttestP2PNode.attach, List.length_append,
        List.length_append, h.numbered]
      rfl
    · rw [party_act_of_ne hj, party_prepare]
      exact h.numbered j
  · by_cases hj : j = owner p
    · subst hj
      rw [party_act_self] at hget ⊢
      rw [ChatNode.attach, AttestP2PNode.attach, OrderedMap.get?_set] at hget
      split at hget
      · next hpeer =>
        obtain rfl := Option.some.inj hget
        refine ⟨(p, name (owner (far p))), ?_, hpeer.symm⟩
        rw [ChatNode.attach, h.numbered]
        exact List.getElem?_concat_length
      · obtain ⟨c, hc, hhex⟩ := h.routed _ peerHex n hget
        exact ⟨c, (List.getElem?_append_left (List.getElem?_eq_some_iff.mp hc).1).trans hc, hhex⟩
    · rw [party_act_of_ne hj, party_prepare] at hget ⊢
      exact h.routed j peerHex n hget

end ChatNode

namespace SampleChat
open SampleLink ChatNode

instance : DecidableEq (Told (octets sodium))
  | .secure a, .secure b => @decidable_of_iff _ (@Eq (List UInt8) a b)
    ⟨congrArg Told.secure, Told.secure.inj⟩ (instDecidableEqList a b)
  | .message a, .message b => decidable_of_iff (a = b) ⟨congrArg _, Told.message.inj⟩
  | .secure _, .message _ => .isFalse fun h ↦ by cases h
  | .message _, .secure _ => .isFalse fun h ↦ by cases h

/-- Two nodes, and a connection from `true` to `false`. -/
def chatting : Machine (Stack (octets sodium) Bool Unit (ChatNode Unit))
    (StackEvent (octets sodium) Bool Unit ChatCommand) :=
  stack Prod.snd id Behaves fun _ ↦ .start

/-- The connection, until the node that opened it has its session. -/
def shaking : Link (octets sodium) :=
  ((Link.start endpoints).next (.data false 132)).next (.frame false (nonce 0) 1)
    |>.next (.data true 132)

def shaken : Link (octets sodium) := shaking.next (.frame true (nonce 0) 2)

/-- A node that has a session with the other one of the sample. -/
def attached : ChatNode Unit := ChatNode.start.attach ((), true) idR

def wrote : ChatNode Unit := attached.sendMessage idR.hex "hi" 3

theorem next_one (l : Link (octets sodium)) (event : LinkEvent (octets sodium)) :
    Links.next (fun _ ↦ l) () event = fun _ : Unit ↦ l.next event :=
  funext fun _ ↦ Function.update_self ..

theorem reachable_of_step {l : Link (octets sodium)} {app app' : Bool → ChatNode Unit}
    (h : chatting.Reachable ⟨fun _ ↦ l, app⟩) {e : StackEvent (octets sodium) Bool Unit ChatCommand}
    {event : LinkEvent (octets sodium)}
    (hstep : Stack.Step Prod.snd Behaves ⟨fun _ ↦ l, app⟩ e
      ⟨Links.next (fun _ ↦ l) () event, app'⟩) :
    chatting.Reachable ⟨fun _ ↦ l.next event, app'⟩ := by
  rw [← next_one]
  exact h.step (e := e) hstep

/-- The node has sent "hi", which is on the way. -/
def talked : Stack (octets sodium) Bool Unit (ChatNode Unit) where
  link _ := shaken.next (.send true [0x20, 104, 105] (nonce 1) (nonce 0) 3)
  app := Function.update (Function.update (fun _ ↦ .start) true attached) true wrote

/-- The rest of the handshake and the message have arrived, and then the frames are handled: the
other node gets its session, and the message. -/
def arriving : Link (octets sodium) := (talked.link ()).next (.data false 124)

def secured : Link (octets sodium) := arriving.next (.frame false (nonce 0) 4)

def delivered : Link (octets sodium) := secured.next (.frame false (nonce 0) 5)

/-- The other node, with its session, and with what it has been sent. -/
def met : ChatNode Unit := ChatNode.start.attach ((), false) idI

def heard : ChatNode Unit := met.route idI [0x20, 104, 105] 6

/-- "hi" has been received, and has joined the thread of the other node. -/
def answered : Stack (octets sodium) Bool Unit (ChatNode Unit) where
  link _ := delivered
  app := Function.update (Function.update talked.app false met) false heard

end SampleChat

end AttestP2P
