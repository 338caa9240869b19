import AttestP2P.Lib.Machine
import AttestP2P.Session.Octets
import AttestP2P.Session.SecureConnection

/-!
# Two honest endpoints

Two `SecureConnection`s joined by a reliable ordered byte stream in each direction: `true` is the
initiator, `false` the responder.

* The timers of the handshake are left out: a link is of interest once its handshake is done.
* A chunk (`LinkEvent.data`) is any number of the bytes that are on the way.  Its frames are handled
  one by one (`LinkEvent.frame`), and whatever the two applications do may come in between, as it
  may when a listener of `message` or `rekey` calls `send` or `rekey`.
* `Carries x fs` says that the frames `fs` are on the way to the endpoint `x`: those it has decoded
  and not yet handled, and those whose bytes are in its decoder or still in flight.  It hides the
  byte stream from all that follows.
-/

set_option autoImplicit false

namespace AttestP2P

/-- One endpoint of a link, with what is on the way to it and what has been seen of it. -/
structure Side (S : Suite Buffer) where
  conn : SecureConnection S
  /-- The frames of received chunks that are still to be handled. -/
  frames : List Buffer
  /-- The bytes the peer has written and that have not arrived. -/
  inbox : Buffer
  /-- The bodies `send` has been called with since the session is there. -/
  sent : List Buffer
  /-- What the connection has done to the outside. -/
  effects : List (Effect S)

/-- The two endpoints of a connection; `true` is the initiator. -/
abbrev Link (S : Suite Buffer) := Bool → Side S

variable {S : Suite Buffer}

/-- What holds of an endpoint and of the other. -/
theorem forall_bool_of {P : Bool → Prop} (i : Bool) (h : P i) (h' : P !i) : ∀ j, P j := by
  intro j
  by_cases hj : j = i
  · rwa [hj]
  · rwa [Bool.eq_not_of_ne hj]

/-- The frame an effect hands to the socket. -/
def Effect.frame? : Effect S → Option Buffer
  | .write frame => some frame
  | _ => none

/-- The body an effect emits as a message. -/
def Effect.body? : Effect S → Option Buffer
  | .message body => some body
  | _ => none

/-- The frames that are written, in order; all other effects are left out. -/
def writes (w : List (Effect S)) : List Buffer := w.filterMap Effect.frame?

/-- The bodies emitted as messages by these effects, in order. -/
def messages (w : List (Effect S)) : List Buffer := w.filterMap Effect.body?

theorem writes_append (w w' : List (Effect S)) : writes (w ++ w') = writes w ++ writes w' :=
  List.filterMap_append

@[simp] theorem writes_nil : writes ([] : List (Effect S)) = [] := rfl

@[simp] theorem writes_write (f : Buffer) (w : List (Effect S)) :
    writes (.write f :: w) = f :: writes w := rfl

@[simp] theorem writes_message (body : Buffer) (w : List (Effect S)) :
    writes (.message body :: w) = writes w := rfl

@[simp] theorem writes_rekey (w : List (Effect S)) : writes (.rekey :: w) = writes w := rfl

@[simp] theorem writes_secure (id : S.Ident) (w : List (Effect S)) :
    writes (.secure id :: w) = writes w := rfl

@[simp] theorem messages_append (w w' : List (Effect S)) :
    messages (w ++ w') = messages w ++ messages w' :=
  List.filterMap_append

@[simp] theorem messages_nil : messages ([] : List (Effect S)) = [] := rfl

@[simp] theorem messages_write (f : Buffer) (w : List (Effect S)) :
    messages (.write f :: w) = messages w := rfl

@[simp] theorem messages_message (body : Buffer) (w : List (Effect S)) :
    messages (.message body :: w) = body :: messages w := rfl

@[simp] theorem messages_rekey (w : List (Effect S)) : messages (.rekey :: w) = messages w := rfl

@[simp] theorem messages_secure (id : S.Ident) (w : List (Effect S)) :
    messages (.secure id :: w) = messages w := rfl

/-- The bytes of some frames, each with its length in front of it, one behind the other. -/
def bytesOf (fs : List Buffer) : Buffer := (fs.map frameBytes).flatten

namespace Link

/-- The connection of endpoint `i` is now `c`, and has had the effects `w`. -/
def act (l : Link S) (i : Bool) (c : SecureConnection S) (w : List (Effect S)) : Link S := fun j ↦
  if j = i then { l i with conn := c, effects := (l i).effects ++ w }
  else { l j with inbox := (l j).inbox ++ bytesOf (writes w) }

/-- The body is passed to `send` at endpoint `i`. -/
def record (l : Link S) (i : Bool) (body : Buffer) : Link S := fun j ↦
  if j = i ∧ (l i).conn.session.isSome then { l i with sent := (l i).sent ++ [body] } else l j

/-- `n` of the bytes on the way to endpoint `i` arrive. -/
def receive (l : Link S) (i : Bool) (n : ℕ) : Link S :=
  let (c, w, frames) := (l i).conn.receive ((l i).inbox.take n)
  Function.update l i { l i with
    conn := c
    inbox := (l i).inbox.drop n
    frames := (l i).frames ++ frames
    effects := (l i).effects ++ w }

/-- Endpoint `i` handles the next frame it has received. -/
def handle (l : Link S) (i : Bool) (nonce : S.Nonce) (now : ℕ) : Link S :=
  match (l i).frames with
  | [] => l
  | frame :: rest =>
    let (c, w) := (l i).conn.onFrame frame true nonce now
    Link.act (Function.update l i { l i with frames := if c.closed then [] else rest }) i c w

section
variable (l : Link S) (i : Bool) (c : SecureConnection S) (w : List (Effect S)) (body : Buffer)

@[simp] theorem act_self :
    l.act i c w i = { l i with conn := c, effects := (l i).effects ++ w } := if_pos rfl

@[simp] theorem act_not :
    l.act i c w (!i) = { l !i with inbox := (l !i).inbox ++ bytesOf (writes w) } :=
  if_neg (Bool.not_ne_self i)

@[simp] theorem record_not : l.record i body (!i) = l !i :=
  if_neg fun h ↦ Bool.not_ne_self i h.1

theorem record_self {s : SecureSession S} (hs : (l i).conn.session = some s) :
    l.record i body i = { l i with sent := (l i).sent ++ [body] } :=
  if_pos ⟨rfl, by rw [hs]; rfl⟩

theorem record_of_none (hs : (l i).conn.session = none) : l.record i body = l :=
  funext fun j ↦ if_neg (by simp [hs])

end

/-- A call that leaves the connection as it is, and has no effects, does nothing. -/
theorem act_nil (l : Link S) (i : Bool) : l.act i (l i).conn [] = l := by
  funext j
  by_cases hj : j = i
  · simp [act, hj]
  · simp [act, hj, writes, bytesOf]

/-- One call after the other is one call with the effects of both. -/
theorem act_act (l : Link S) (i : Bool) (c c' : SecureConnection S) (w w' : List (Effect S)) :
    (l.act i c w).act i c' w' = l.act i c' (w ++ w') := by
  funext j
  by_cases hj : j = i
  · simp [act, hj]
  · simp [act, hj, writes, bytesOf]

/-- Bytes that complete some frames, and no error: the frames are queued behind those that are still
to be handled. -/
theorem receive_eq {l : Link S} {i : Bool} {n : ℕ} {c : SecureConnection S} {frames : List Buffer}
    (h : (l i).conn.receive ((l i).inbox.take n) = (c, [], frames)) :
    l.receive i n = Function.update l i { l i with
      conn := c, inbox := (l i).inbox.drop n, frames := (l i).frames ++ frames } := by
  rw [receive, h]
  simp only [List.append_nil]

section
variable {l : Link S} {i : Bool} {f : Buffer} {rest : List Buffer} {nonce : S.Nonce} {now : ℕ}
  {c : SecureConnection S} {w : List (Effect S)}

/-- A frame after which the connection is still open. -/
theorem handle_eq (hframes : (l i).frames = f :: rest)
    (hon : (l i).conn.onFrame f true nonce now = (c, w)) (hopen : c.closed = false) :
    l.handle i nonce now = Link.act (Function.update l i { l i with frames := rest }) i c w := by
  rw [handle, hframes]
  simp only [hon, hopen, Bool.false_eq_true, if_false]

theorem handle_self (hframes : (l i).frames = f :: rest)
    (hon : (l i).conn.onFrame f true nonce now = (c, w)) (hopen : c.closed = false) :
    l.handle i nonce now i =
      { l i with conn := c, frames := rest, effects := (l i).effects ++ w } := by
  rw [handle_eq hframes hon hopen, act_self, Function.update_self]

theorem handle_not (hframes : (l i).frames = f :: rest)
    (hon : (l i).conn.onFrame f true nonce now = (c, w)) (hopen : c.closed = false) :
    l.handle i nonce now (!i) = { l !i with inbox := (l !i).inbox ++ bytesOf (writes w) } := by
  rw [handle_eq hframes hon hopen, act_not, Function.update_of_ne (Bool.not_ne_self i)]

end

end Link

/-- What can happen on a link: one of the two applications calls a method, a timer fires, some of
the bytes on the way arrive, or the next frame is handled. -/
inductive LinkEvent (S : Suite Buffer)
  | send (i : Bool) (body : Buffer) (nonce nonce' : S.Nonce) (now : ℕ)
  | rekey (i : Bool) (nonce : S.Nonce)
  | tick (i : Bool) (nonce : S.Nonce) (now : ℕ)
  | data (i : Bool) (n : ℕ)
  | frame (i : Bool) (nonce : S.Nonce) (now : ℕ)

/-- If the frame is a DATA frame, it is within the session's rate limit. -/
def SecureConnection.WithinRate (c : SecureConnection S) (frame : Buffer) (now : ℕ) : Prop :=
  ∀ s pt, c.session = some s → s.open frame = .ok pt → pt.headD ctrlData = ctrlData →
    (c.msgAllow now).2 = true

namespace Link

/-- Bodies fit a frame, no rate limit is exceeded, and only what is on the way arrives. -/
def enabled (l : Link S) : LinkEvent S → Prop
  | .send _ body _ _ _ => body.length + 49 ≤ sessionMaxFrame
  | .rekey _ _ => True
  | .tick _ _ _ => True
  | .data i n => n ≤ (l i).inbox.length
  | .frame i _ now => ∀ frame ∈ (l i).frames.head?, (l i).conn.WithinRate frame now

def next (l : Link S) : LinkEvent S → Link S
  | .send i body nonce nonce' now =>
    let (c, w, _) := (l i).conn.send body nonce nonce' now
    (l.record i body).act i c w
  | .rekey i nonce =>
    let (c, w, _) := (l i).conn.rekey nonce
    l.act i c w
  | .tick i nonce now =>
    let (c, w, _) := (l i).conn.maybeAutoRekey nonce now
    l.act i c w
  | .data i n => l.receive i n
  | .frame i nonce now => l.handle i nonce now

end Link

/-- What the two endpoints are created with: keys, options, and the time. -/
structure Endpoints (S : Suite Buffer) where
  signKey : Bool → S.SignKey
  ePriv : Bool → S.Priv
  options : Bool → SessionOptions
  now : Bool → ℕ

/-- Two fresh endpoints; the initiator has written MSG1. -/
def Link.start (e : Endpoints S) : Link S :=
  let l : Link S := fun i ↦
    { conn := .new (.new S i (e.signKey i) (e.ePriv i)) (e.options i) (e.now i)
      frames := [], inbox := [], sent := [], effects := [] }
  l.act true (l true).conn ((l true).conn.hs.opening.map .write)

/-- The runs of a link, from the creation of its endpoints on. -/
def link (S : Suite Buffer) : Machine (Link S) (LinkEvent S) :=
  .ofFun (fun l ↦ ∃ e, l = .start e) Link.enabled Link.next

/-- Nothing is on the way to the endpoint. -/
def Side.Drained (x : Side S) : Prop := x.frames = [] ∧ x.conn.decoder.buf = [] ∧ x.inbox = []

/-! ## Frames on the way -/

/-- The frames `fs` are on the way to the endpoint `x`. -/
structure Carries (x : Side S) (fs : List Buffer) : Prop where
  max : x.conn.decoder.max = sessionMaxFrame
  small : ∀ f ∈ fs, f.length ≤ sessionMaxFrame
  stream : ∃ rest, fs = x.frames ++ rest ∧ x.conn.decoder.buf ++ x.inbox = bytesOf rest

namespace Carries

variable {x : Side S} {fs : List Buffer}

theorem write (h : Carries x fs) {new : List Buffer}
    (hnew : ∀ f ∈ new, f.length ≤ sessionMaxFrame) :
    Carries { x with inbox := x.inbox ++ bytesOf new } (fs ++ new) := by
  obtain ⟨rest, hfs, hbytes⟩ := h.stream
  refine ⟨h.max, fun f hf ↦ ?_, rest ++ new, by rw [hfs, List.append_assoc], ?_⟩
  · rcases List.mem_append.mp hf with hf | hf
    · exact h.small f hf
    · exact hnew f hf
  · rw [← List.append_assoc, hbytes, bytesOf, bytesOf, bytesOf, List.map_append,
      List.flatten_append]

/-- A connection that keeps its decoder carries the same frames. -/
theorem of_decoder (h : Carries x fs) {c : SecureConnection S} (hc : c.decoder = x.conn.decoder)
    (sent : List Buffer) (effects : List (Effect S)) :
    Carries { x with conn := c, sent := sent, effects := effects } fs := by
  refine ⟨?_, h.small, ?_⟩
  · rw [show _ = x.conn.decoder from hc, h.max]
  · rw [show _ = x.conn.decoder from hc]
    exact h.stream

/-- **A chunk completes frames and never makes the decoder throw.** -/
theorem receive (h : Carries x fs) (n : ℕ) :
    ∃ d now, x.conn.receive (x.inbox.take n) = ({ x.conn with decoder := d }, [], now) ∧
      Carries { x with
        conn := { x.conn with decoder := d }
        inbox := x.inbox.drop n
        frames := x.frames ++ now } fs := by
  obtain ⟨rest, hfs, hbytes⟩ := h.stream
  have hsmall : ∀ f ∈ rest, f.length ≤ x.conn.decoder.max := by
    intro f hf
    rw [h.max]
    exact h.small f (by rw [hfs]; exact List.mem_append_right _ hf)
  have hmax : x.conn.decoder.max < 2 ^ 32 := by
    rw [h.max]
    decide
  rw [← List.take_append_drop n x.inbox] at hbytes
  obtain ⟨now, later, d, hpush, hd, rfl, hlater⟩ := push_of_stream hsmall hmax hbytes
  refine ⟨d, now, ?_, hd.trans h.max, h.small, later, by rw [hfs, List.append_assoc], hlater⟩
  rw [SecureConnection.receive, hpush]

/-- The next frame to be handled is the first of those on the way. -/
theorem pop {f : Buffer} {rest : List Buffer} (h : Carries x fs) (hx : x.frames = f :: rest) :
    ∃ fs', fs = f :: fs' ∧ Carries { x with frames := rest } fs' := by
  obtain ⟨later, hfs, hbytes⟩ := h.stream
  rw [hx, List.cons_append] at hfs
  refine ⟨rest ++ later, hfs, h.max, fun g hg ↦ ?_, later, rfl, hbytes⟩
  exact h.small g (by rw [hfs]; exact List.mem_cons_of_mem _ hg)

/-- Nothing is on the way when nothing is in the decoder or in flight. -/
theorem drained (h : Carries x fs) (hx : x.Drained) : fs = [] := by
  obtain ⟨hframes, hbuf, hinbox⟩ := hx
  obtain ⟨rest, hfs, hbytes⟩ := h.stream
  rw [hbuf, hinbox, List.append_nil, bytesOf] at hbytes
  cases rest with
  | nil => rw [hfs, hframes, List.append_nil]
  | cons f rest =>
    have hlen := congrArg List.length hbytes
    simp only [List.map_cons, List.flatten_cons, frameBytes, List.length_append,
      Buffer.length_uint32BE, List.length_nil] at hlen
    omega

end Carries

end AttestP2P
