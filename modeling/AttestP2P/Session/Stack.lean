import AttestP2P.Lib.Dialogue
import AttestP2P.Session.Identity

/-!
# Applications over sessions

Nodes with any number of connections, each with a `SecureConnection` at either end.  An application
at a node is told that a session is there, and of the messages that arrive, while the frame is
handled, and what it then passes to `send` is sent before the next frame is handled.

* `stack` is the machine: nodes with applications of any kind, their connections, and the bytes
  between them.  All connections are there from the start; their bytes arrive whenever they do.
* `toTalk` is what is left of it when one forgets frames, keys and bytes: the applications, who has
  met whom, and in each direction the bodies that are on their way.
* `toTalk_step`: a step of the stack is a step of `Lib.Dialogue` between these, or none.
* `refines_talk`: so it does nothing that a queue in each direction would not do.

The work is in two facts about one connection, that a frame tells the application of the next body
or of nothing (`Session.Identity`), and that the bodies on their way are those that have been sent
and not heard (`Session.Delivery`).  The rest is that connections do not get in each other's way.
-/

set_option autoImplicit false

namespace AttestP2P

variable {S : Suite Buffer} {ι κ σ ω : Type}

/-- What the event is to an application: whom it meets, or what it hears. -/
def Told.stimulus (p : κ × Bool) : Told S → Stimulus ω κ S.Ident Buffer
  | .secure peerId => .meet p peerId
  | .message body => .hear p body

/-- Connections, and an application at each node that has their ends. -/
structure Stack (S : Suite Buffer) (ι κ σ : Type) where
  link : κ → Link S
  app : ι → σ

/-- What can happen: the outside tells the application at a node something, or one of the
connections makes a step. -/
inductive StackEvent (S : Suite Buffer) (ι κ ω : Type)
  | own (i : ι) (e : ω)
  | link (c : κ) (e : LinkEvent S)

/-- Something happens on a connection, and the others are not touched. -/
def Links.next [DecidableEq κ] (ls : κ → Link S) (c : κ) (e : LinkEvent S) : κ → Link S :=
  Function.update ls c ((ls c).next e)

/-- Calls of `send`, one for each body, in the order in which the application makes them. -/
inductive Sends [DecidableEq κ] : (κ → Link S) → List ((κ × Bool) × Buffer) → (κ → Link S) → Prop
  | nil (ls : κ → Link S) : Sends ls [] ls
  | cons {ls ls' : κ → Link S} {p : κ × Bool} {body : Buffer} {rest : List ((κ × Bool) × Buffer)}
    {nonce nonce' : S.Nonce} {now : ℕ}
    (henabled : (ls p.1).enabled (.send p.2 body nonce nonce' now))
    (h : Sends (Links.next ls p.1 (.send p.2 body nonce nonce' now)) rest ls') :
    Sends ls ((p, body) :: rest) ls'

/-- A step of a stack.  The application at a node behaves as `R` says, and sends over its own
connections only. -/
inductive Stack.Step [DecidableEq ι] [DecidableEq κ] (owner : κ × Bool → ι)
    (R : σ → Stimulus ω κ S.Ident Buffer → List ((κ × Bool) × Buffer) → σ → Prop) :
    Stack S ι κ σ → StackEvent S ι κ ω → Stack S ι κ σ → Prop
  /-- An application acts of its own accord. -/
  | own {t : Stack S ι κ σ} {i : ι} {e : ω} {out : List ((κ × Bool) × Buffer)} {s : σ}
    {ls : κ → Link S} (howned : ∀ y ∈ out, owner y.1 = i) (hR : R (t.app i) (.own e) out s)
    (hsends : Sends t.link out ls) : Step owner R t (.own i e) ⟨ls, Function.update t.app i s⟩
  /-- Listeners are told of nothing. -/
  | quiet {t : Stack S ι κ σ} {c : κ} {e : LinkEvent S} (henabled : (t.link c).enabled e)
    (hsend : ∀ i body nonce nonce' now, e ≠ .send i body nonce nonce' now)
    (htold : ∀ i, told ((t.link c).next e i).effects = told (t.link c i).effects) :
    Step owner R t (.link c e) ⟨Links.next t.link c e, t.app⟩
  /-- A frame tells the application of something. -/
  | frame {t : Stack S ι κ σ} {p : κ × Bool} {nonce : S.Nonce} {now : ℕ} {x : Told S}
    {out : List ((κ × Bool) × Buffer)} {s : σ} {ls : κ → Link S}
    (henabled : (t.link p.1).enabled (.frame p.2 nonce now))
    (htold : told ((t.link p.1).next (.frame p.2 nonce now) p.2).effects =
      told (t.link p.1 p.2).effects ++ [x])
    (howned : ∀ y ∈ out, owner y.1 = owner p) (hR : R (t.app (owner p)) (x.stimulus p) out s)
    (hsends : Sends (Links.next t.link p.1 (.frame p.2 nonce now)) out ls) :
    Step owner R t (.link p.1 (.frame p.2 nonce now)) ⟨ls, Function.update t.app (owner p) s⟩

/-- The runs of nodes that sign with `key` and whose applications start as `start`. -/
def stack [DecidableEq ι] [DecidableEq κ] (owner : κ × Bool → ι) (key : ι → S.SignKey)
    (R : σ → Stimulus ω κ S.Ident Buffer → List ((κ × Bool) × Buffer) → σ → Prop) (start : ι → σ) :
    Machine (Stack S ι κ σ) (StackEvent S ι κ ω) where
  init t := t.app = start ∧ ∃ e : κ → Endpoints S,
    (∀ p, (e p.1).signKey p.2 = key (owner p)) ∧ t.link = fun c ↦ .start (e c)
  step := Stack.Step owner R

/-! ## What a link has been asked to send -/

namespace Stack

variable {owner : κ × Bool → ι} {key : ι → S.SignKey}
  {R : σ → Stimulus ω κ S.Ident Buffer → List ((κ × Bool) × Buffer) → σ → Prop} {start : ι → σ}
  {t t' : Stack S ι κ σ} {ls ls' : κ → Link S} {l l' : Link S} {i : Bool} {p : κ × Bool}
  {out : List ((κ × Bool) × Buffer)} {e : Endpoints S}

theorem sent_act (l : Link S) (i : Bool) (c : SecureConnection S) (w : List (Effect S)) (j : Bool) :
    (l.act i c w j).sent = (l j).sent := by
  rcases Bool.eq_or_eq_not j i with rfl | rfl
  · rw [Link.act_self]
  · rw [Link.act_not]

/-- Nothing but `send` adds to what has been sent. -/
theorem sent_next (l : Link S) {e : LinkEvent S}
    (he : ∀ i body nonce nonce' now, e ≠ .send i body nonce nonce' now) (j : Bool) :
    (l.next e j).sent = (l j).sent := by
  cases e with
  | send i body nonce nonce' now => exact absurd rfl (he i body nonce nonce' now)
  | rekey i nonce => exact sent_act ..
  | tick i nonce now => exact sent_act ..
  | data i n =>
    rw [Link.next, Link.receive]
    dsimp only
    rcases Bool.eq_or_eq_not j i with rfl | rfl
    · rw [Function.update_self]
    · rw [Function.update_of_ne (Bool.not_ne_self i)]
  | frame i nonce now =>
    rw [Link.next, Link.handle]
    cases hframes : (l i).frames with
    | nil => rfl
    | cons f rest =>
      dsimp only
      rw [sent_act]
      rcases Bool.eq_or_eq_not j i with rfl | rfl
      · rw [Function.update_self]
      · rw [Function.update_of_ne (Bool.not_ne_self i)]

theorem sent_send (l : Link S) (i : Bool) (body : Buffer) (nonce nonce' : S.Nonce) (now : ℕ)
    (j : Bool) : (l.next (.send i body nonce nonce' now) j).sent =
      (l j).sent ++ if (l j).conn.session.isSome then (if i = j then [body] else []) else [] := by
  rw [Link.next]
  dsimp only
  rw [sent_act]
  rcases Bool.eq_or_eq_not j i with rfl | rfl
  · rw [if_pos rfl]
    cases hs : (l j).conn.session with
    | none =>
      rw [l.record_of_none j body hs]
      exact (List.append_nil _).symm
    | some s =>
      rw [l.record_self j body hs]
      rfl
  · rw [if_neg (Bool.not_ne_self i).symm, ite_self, List.append_nil, Link.record_not]

theorem isSome_of_calm {x y : Side S} (h : Link.Calm x y) :
    y.conn.session.isSome = x.conn.session.isSome := by
  have hsome := congrArg Option.isSome h.peerId?
  rwa [SecureConnection.peerId?, SecureConnection.peerId?, Option.isSome_map,
    Option.isSome_map] at hsome

/-! ## What a frame tells -/

/-- What comes of the next frame, for the listeners at that end and for what is on the way. -/
inductive Outcome (e : Endpoints S) (l : Link S) (i : Bool) (l' : Link S) : Prop
  /-- The application is not concerned. -/
  | nothing (htold : told (l' i).effects = told (l i).effects)
    (hsession : (l' i).conn.session.isSome = (l i).conn.session.isSome)
  | secure
    (htold : told (l' i).effects =
      told (l i).effects ++ [.secure (S.getPublicKey (e.signKey !i))])
    (hbefore : (l i).conn.session.isSome = false) (hafter : (l' i).conn.session.isSome = true)
    (hfirst : i = false → (l true).conn.session.isSome = true)
  | message {body : Buffer} (htold : told (l' i).effects = told (l i).effects ++ [.message body])
    (hbefore : (l i).conn.session.isSome = true) (hafter : (l' i).conn.session.isSome = true)

theorem not_frame (l : Link S) (i : Bool) (nonce : S.Nonce) (now : ℕ) :
    (l.next (.frame i nonce now) !i).conn = (l !i).conn ∧
      (l.next (.frame i nonce now) !i).effects = (l !i).effects := by
  rw [Link.next, Link.handle]
  cases hframes : (l i).frames with
  | nil => exact ⟨rfl, rfl⟩
  | cons f rest =>
    dsimp only
    rw [Link.act_not, Function.update_of_ne (Bool.not_ne_self i)]
    exact ⟨rfl, rfl⟩

theorem outcome_of_frame (hS : S.Lawful) (h : (linkFrom e).Reachable l) {nonce : S.Nonce} {now : ℕ}
    (henabled : l.enabled (.frame i nonce now)) :
    Outcome e l i (l.next (.frame i nonce now)) := by
  have hlinked := linked_of_reachable hS (h.step (e := .frame i nonce now) ⟨henabled, rfl⟩)
  have hother := (not_frame l i nonce now).1
  cases hframes : (l i).frames with
  | nil =>
    rw [Link.next, Link.handle, hframes]
    exact .nothing rfl rfl
  | cons f rest =>
    have hl' := handled_of_reachable hS (reachable_linkFrom h) hframes henabled
    have hhandle := SecureConnection.onFrame_of_open hl'.isOpen
    rw [Link.next] at hlinked hother ⊢
    generalize l.handle i nonce now = l' at hl' hlinked hother ⊢
    have hsession : (l' i).conn.session = ((l i).conn.onFrame f true nonce now).1.session := by
      rw [hl'.self]
    have htold : told (l' i).effects =
        told (l i).effects ++ told ((l i).conn.onFrame f true nonce now).2 := by
      rw [hl'.self, told_append]
    cases hs : (l i).conn.session with
    | none =>
      obtain ⟨r, -, hr, -, hw⟩ := SecureConnection.told_of_none hs hhandle hl'.isOpen
      rw [hr] at hsession
      rw [hw] at htold
      cases hreply : r.session with
      | none =>
        rw [hreply] at hsession htold
        exact .nothing (htold.trans (List.append_nil _)) (by rw [hsession, hs])
      | some s =>
        rw [hreply] at hsession htold
        cases hlinked with
        | shaking hnone => cases (hnone i).symm.trans hsession
        | live hinitiator hpeer _ =>
          refine .secure (by rw [← hpeer i s hsession]; exact htold) (by rw [hs]; rfl)
            (by rw [hsession]; rfl) fun hi ↦ ?_
          subst hi
          rw [← show (l' true).conn = (l true).conn from hother]
          exact hinitiator
    | some s =>
      obtain ⟨⟨s', hs', -⟩, hw⟩ := SecureConnection.told_of_session hs hhandle hl'.isOpen
      rw [hs'] at hsession
      obtain hw | ⟨body, hw⟩ := hw
      · rw [hw, List.append_nil] at htold
        exact .nothing htold (by rw [hsession, hs]; rfl)
      · rw [hw] at htold
        exact .message htold (by rw [hs]; rfl) (by rw [hsession]; rfl)

/-! ## Several connections -/

/-- The link comes from endpoints that sign as their nodes do. -/
def LinkOf (owner : κ × Bool → ι) (key : ι → S.SignKey) (c : κ) (l : Link S) : Prop :=
  ∃ e : Endpoints S, (∀ b, e.signKey b = key (owner (c, b))) ∧ (linkFrom e).Reachable l

theorem LinkOf.next {c : κ} (h : LinkOf owner key c l) {event : LinkEvent S}
    (henabled : l.enabled event) : LinkOf owner key c (l.next event) := by
  obtain ⟨e, he, hl⟩ := h
  exact ⟨e, he, hl.step ⟨henabled, rfl⟩⟩

/-- Listeners are told when a session is there, and not before. -/
theorem LinkOf.isSome_of_quiet (hS : S.Lawful) {c : κ} (h : LinkOf owner key c l)
    {event : LinkEvent S} (henabled : l.enabled event)
    (htold : ∀ i, told (l.next event i).effects = told (l i).effects) (j : Bool) :
    (l.next event j).conn.session.isSome = (l j).conn.session.isSome := by
  cases event with
  | frame i nonce now =>
    have hne {x : Told S} (h : told (l i).effects ++ [x] = told (l i).effects) : False := by
      simpa using congrArg List.length h
    rcases Bool.eq_or_eq_not j i with rfl | rfl
    · obtain ⟨e, -, hl⟩ := h
      cases outcome_of_frame hS hl henabled with
      | nothing _ hsession => exact hsession
      | secure h => exact (hne (h.symm.trans (htold j))).elim
      | message h => exact (hne (h.symm.trans (htold j))).elim
    · rw [(not_frame l i nonce now).1]
  | _ => exact isSome_of_calm (l.calm_next (fun i nonce now h ↦ by cases h) j)

/-- The applications, and the bodies that one has sent and the other has not been told of. -/
def toTalk (t : Stack S ι κ σ) : Talk ι κ σ Buffer where
  party := t.app
  met p := (t.link p.1 p.2).conn.session.isSome
  queue p := (t.link p.1 !p.2).sent.drop (messages (t.link p.1 p.2).effects).length

theorem met_mk (ls : κ → Link S) (app : ι → σ) (p : κ × Bool) :
    (Stack.mk ls app).toTalk.met p = (ls p.1 p.2).conn.session.isSome := rfl

theorem queue_mk (ls : κ → Link S) (app : ι → σ) (p : κ × Bool) :
    (Stack.mk ls app).toTalk.queue p =
      (ls p.1 !p.2).sent.drop (messages (ls p.1 p.2).effects).length := rfl

theorem LinkOf.delivered (hS : S.Lawful) {c : κ} (h : LinkOf owner key c l) (i : Bool) :
    messages (l i).effects <+: (l !i).sent := by
  obtain ⟨e, -, hl⟩ := h
  exact delivered_of_reachable hS (reachable_linkFrom hl) i

variable [DecidableEq κ]

/-- What calls of `send` change: what is sent at the ends that have a session, and nothing that is
told. -/
structure Said (ls : κ → Link S) (out : List ((κ × Bool) × Buffer)) (ls' : κ → Link S) : Prop where
  isSome : ∀ p : κ × Bool,
    (ls' p.1 p.2).conn.session.isSome = (ls p.1 p.2).conn.session.isSome
  told : ∀ p : κ × Bool, told (ls' p.1 p.2).effects = told (ls p.1 p.2).effects
  sent : ∀ p : κ × Bool, (ls' p.1 p.2).sent = (ls p.1 p.2).sent ++
    if (ls p.1 p.2).conn.session.isSome then Network.said out p else []

theorem said_of_sends (h : Sends ls out ls') : Said ls out ls' := by
  induction h with
  | nil ls => exact ⟨fun _ ↦ rfl, fun _ ↦ rfl, fun _ ↦ by
      rw [show Network.said [] _ = ([] : List Buffer) from rfl, ite_self, List.append_nil]⟩
  | @cons ls ls' p body rest nonce nonce' now _ _ ih =>
    have hcalm := (ls p.1).calm_next (e := .send p.2 body nonce nonce' now) fun i nonce now h ↦ by
      cases h
    have hstep (q : κ × Bool) : Link.Calm (ls q.1 q.2)
        (Links.next ls p.1 (.send p.2 body nonce nonce' now) q.1 q.2) ∧
        (Links.next ls p.1 (.send p.2 body nonce nonce' now) q.1 q.2).sent = (ls q.1 q.2).sent ++
          if (ls q.1 q.2).conn.session.isSome then (if p = q then [body] else []) else [] := by
      rw [Links.next]
      by_cases hq : q.1 = p.1
      · rw [hq, Function.update_self, sent_send]
        refine ⟨hcalm q.2, ?_⟩
        congr 2
        exact if_congr ⟨fun h ↦ Prod.ext hq.symm h, fun h ↦ congrArg Prod.snd h⟩ rfl rfl
      · rw [Function.update_of_ne hq, if_neg fun h : p = q ↦ hq (congrArg Prod.fst h.symm),
          ite_self, List.append_nil]
        exact ⟨⟨rfl, rfl, rfl⟩, rfl⟩
    refine ⟨fun q ↦ (ih.isSome q).trans (isSome_of_calm (hstep q).1),
      fun q ↦ (ih.told q).trans (hstep q).1.told, fun q ↦ ?_⟩
    rw [ih.sent, (hstep q).2, isSome_of_calm (hstep q).1, Network.said_cons, List.append_assoc]
    congr 1
    split
    · rfl
    · rfl

theorem linkOf_next (h : ∀ c, LinkOf owner key c (ls c)) {c : κ} {event : LinkEvent S}
    (henabled : (ls c).enabled event) : ∀ d, LinkOf owner key d (Links.next ls c event d) := by
  intro d
  rw [Links.next]
  by_cases hd : d = c
  · subst hd
    rw [Function.update_self]
    exact (h d).next henabled
  · rw [Function.update_of_ne hd]
    exact h d

theorem linkOf_sends (h : Sends ls out ls') (hl : ∀ c, LinkOf owner key c (ls c)) :
    ∀ c, LinkOf owner key c (ls' c) := by
  induction h with
  | nil => exact hl
  | cons henabled _ ih => exact ih (linkOf_next hl henabled)

variable [DecidableEq ι]

/-- The links of a stack are links: each of them has made a run of its own, so that what is known of
links can be used. -/
theorem linkOf_of_reachable (h : (stack owner key R start).Reachable t) (c : κ) :
    LinkOf owner key c (t.link c) := by
  refine Machine.Reachable.invariant (M := stack owner key R start)
    (I := fun t ↦ ∀ c, LinkOf owner key c (t.link c)) ?_ ?_ h c
  · rintro t ⟨-, e, he, hlink⟩ c
    rw [hlink]
    exact ⟨e c, fun b ↦ he (c, b), .init rfl⟩
  · intro t event t' _ hl hstep
    cases hstep with
    | own _ _ hsends => exact linkOf_sends hsends hl
    | quiet henabled => exact linkOf_next hl henabled
    | frame henabled _ _ _ hsends => exact linkOf_sends hsends (linkOf_next hl henabled)

/-! ## The queues between the applications -/

/-- What is sent is on its way, behind all that is on its way already. -/
theorem Said.toTalk (h : Said ls out ls')
    (hdelivered : ∀ c i, messages (ls c i).effects <+: (ls c !i).sent) (app : ι → σ) (i : ι)
    (s : σ) : (Stack.mk ls' (Function.update app i s)).toTalk =
      (Stack.mk ls app).toTalk.act i s out := by
  refine Talk.ext rfl (funext h.isSome) (funext fun p ↦ ?_)
  have hlen := (hdelivered p.1 p.2).length_le
  rw [Talk.queue_act, queue_mk, queue_mk, met_mk, messages_eq, h.told p, ← messages_eq,
    h.sent (p.1, !p.2), List.drop_append_of_le_length hlen]
  rfl

/-- A frame concerns one end of one connection, and no other is touched by it. -/
theorem frame_of_ne {nonce : S.Nonce} {now : ℕ} {q : κ × Bool} (hq : q ≠ p) :
    (Links.next ls p.1 (.frame p.2 nonce now) q.1 q.2).conn = (ls q.1 q.2).conn ∧
      (Links.next ls p.1 (.frame p.2 nonce now) q.1 q.2).effects = (ls q.1 q.2).effects := by
  rw [Links.next]
  by_cases hc : q.1 = p.1
  · have hother : q.2 = !p.2 := Bool.eq_not_of_ne fun h ↦ hq (Prod.ext hc h)
    rw [hc, hother, Function.update_self]
    exact not_frame (ls p.1) p.2 nonce now
  · rw [Function.update_of_ne hc]
    exact ⟨rfl, rfl⟩

theorem sent_links {c : κ} {event : LinkEvent S}
    (he : ∀ i body nonce nonce' now, event ≠ .send i body nonce nonce' now) (q : κ × Bool) :
    (Links.next ls c event q.1 q.2).sent = (ls q.1 q.2).sent := by
  rw [Links.next]
  by_cases hc : q.1 = c
  · rw [hc, Function.update_self]
    exact sent_next (ls c) he q.2
  · rw [Function.update_of_ne hc]

omit [DecidableEq ι] in
/-- A frame tells the application what it would learn from the other one. -/
theorem prepare_of_frame (hS : S.Lawful) (hl : ∀ c, LinkOf owner key c (ls c)) {nonce : S.Nonce}
    {now : ℕ} {x : Told S} (henabled : (ls p.1).enabled (.frame p.2 nonce now))
    (htold : told ((ls p.1).next (.frame p.2 nonce now) p.2).effects =
      told (ls p.1 p.2).effects ++ [x]) (app : ι → σ) :
    Talk.Enabled owner (fun i ↦ S.getPublicKey (key i)) (Stack.mk ls app).toTalk (owner p)
        (x.stimulus p : Stimulus ω κ S.Ident Buffer) ∧
      (Stack.mk (Links.next ls p.1 (.frame p.2 nonce now)) app).toTalk =
        (Stack.mk ls app).toTalk.prepare (x.stimulus p : Stimulus ω κ S.Ident Buffer) := by
  obtain ⟨e, he, hlink⟩ := hl p.1
  have hne {α : Type} {xs : List α} {x : α} (h : xs ++ [x] = xs) : False := by
    simpa using congrArg List.length h
  have hself : Links.next ls p.1 (.frame p.2 nonce now) p.1 =
      (ls p.1).next (.frame p.2 nonce now) := Function.update_self ..
  have hsent (q : κ × Bool) : (Links.next ls p.1 (.frame p.2 nonce now) q.1 q.2).sent =
      (ls q.1 q.2).sent := sent_links (fun i body nonce nonce' now h ↦ by cases h) q
  have hmessages {q : κ × Bool} (hq : q ≠ p) :
      messages (Links.next ls p.1 (.frame p.2 nonce now) q.1 q.2).effects =
        messages (ls q.1 q.2).effects := by rw [(frame_of_ne hq).2]
  cases outcome_of_frame hS hlink henabled with
  | nothing h => exact (hne (htold.symm.trans h)).elim
  | secure hsecure hbefore hafter hfirst =>
    obtain rfl : x = _ := List.singleton_injective
      (List.append_cancel_left (htold.symm.trans hsecure))
    rw [he]
    refine ⟨.meet hbefore fun hp ↦ ?_, Talk.ext rfl (funext fun q ↦ ?_) (funext fun q ↦ ?_)⟩
    · rw [met_mk, Talk.far, hp]
      exact hfirst hp
    · rw [met_mk]
      by_cases hq : q = p
      · subst hq
        rw [hself, hafter]
        exact Talk.met_meet_self.symm
      · rw [(frame_of_ne hq).1]
        exact (Talk.met_meet_of_ne (t := (Stack.mk ls app).toTalk) hq).symm
    · refine Eq.trans ?_ (queue_mk ls app q).symm
      rw [queue_mk, hsent (q.1, !q.2)]
      by_cases hq : q = p
      · subst hq
        rw [hself, messages_eq, htold, List.filterMap_append, ← messages_eq]
        exact congrArg (fun w ↦ List.drop (List.length w) _) (List.append_nil _)
      · rw [hmessages hq]
  | @message body hmessage hbefore hafter =>
    obtain rfl : x = _ := List.singleton_injective
      (List.append_cancel_left (htold.symm.trans hmessage))
    have hemitted : messages ((ls p.1).next (.frame p.2 nonce now) p.2).effects =
        messages (ls p.1 p.2).effects ++ [body] := by
      rw [messages_eq, htold, List.filterMap_append, ← messages_eq]
      rfl
    have hdelivered := ((hl p.1).next henabled).delivered hS p.2
    rw [hemitted, sent_next _ fun i body nonce nonce' now h ↦ by cases h] at hdelivered
    obtain ⟨rest, hrest⟩ := hdelivered
    have hqueue : (Stack.mk ls app).toTalk.queue p = body :: rest := by
      rw [queue_mk, ← hrest, List.append_assoc, List.drop_left]
      rfl
    refine ⟨.hear hbefore hqueue, Talk.ext rfl (funext fun q ↦ ?_) (funext fun q ↦ ?_)⟩
    · refine Eq.trans ?_ (met_mk ls app q).symm
      rw [met_mk]
      by_cases hq : q = p
      · rw [hq, hself]
        exact hafter.trans hbefore.symm
      · rw [(frame_of_ne hq).1]
    · rw [queue_mk, hsent (q.1, !q.2)]
      by_cases hq : q = p
      · subst hq
        refine Eq.trans ?_ Talk.queue_pop_self.symm
        rw [hqueue, hself, hemitted, ← hrest, List.drop_left]
        rfl
      · refine Eq.trans ?_ (Talk.queue_pop_of_ne hq).symm
        rw [queue_mk, hmessages hq]

/-- **A step of the stack is a step of the talk, or none.** -/
theorem toTalk_step (hS : S.Lawful) (h : (stack owner key R start).Reachable t)
    {event : StackEvent S ι κ ω} (hstep : Step owner R t event t') : t'.toTalk = t.toTalk ∨
      ∃ i x, (talk owner (fun i ↦ S.getPublicKey (key i)) R start).step t.toTalk (i, x)
        t'.toTalk := by
  have hlinks := linkOf_of_reachable h
  have hsaid {ls ls' : κ → Link S} {out : List ((κ × Bool) × Buffer)} (hsends : Sends ls out ls')
      (hl : ∀ c, LinkOf owner key c (ls c)) (app : ι → σ) (i : ι) (s : σ) :=
    (said_of_sends hsends).toTalk (fun c i ↦ (hl c).delivered hS i) app i s
  cases hstep with
  | @own i event out s ls howned hR hsends =>
    exact .inr ⟨i, .own event, out, s, ⟨.own event, howned, hR⟩, hsaid hsends hlinks t.app i s⟩
  | @quiet c event henabled hsend htold =>
    left
    have hsession (q : κ × Bool) : (Links.next t.link c event q.1 q.2).conn.session.isSome =
        (t.link q.1 q.2).conn.session.isSome := by
      rw [Links.next]
      by_cases hq : q.1 = c
      · rw [hq, Function.update_self]
        exact (hlinks c).isSome_of_quiet hS henabled htold q.2
      · rw [Function.update_of_ne hq]
    have htold' (q : κ × Bool) : told (Links.next t.link c event q.1 q.2).effects =
        told (t.link q.1 q.2).effects := by
      rw [Links.next]
      by_cases hq : q.1 = c
      · rw [hq, Function.update_self, htold]
      · rw [Function.update_of_ne hq]
    refine Talk.ext rfl (funext hsession) (funext fun q ↦ ?_)
    refine Eq.trans ?_ (queue_mk t.link t.app q).symm
    rw [queue_mk, sent_links hsend (q.1, !q.2), messages_eq, htold', ← messages_eq]
  | @frame p nonce now x out s ls henabled htold howned hR hsends =>
    obtain ⟨hmay, hprepare⟩ := prepare_of_frame hS hlinks henabled htold t.app
    refine .inr ⟨owner p, x.stimulus p, out, s, ⟨hmay, howned, hR⟩, ?_⟩
    rw [hsaid hsends (linkOf_next hlinks henabled), hprepare]

/-- **The session layer is a queue in each direction.**  Whatever applications see of their
connections, from the handshakes on and however the bytes arrive, they see in a run in which the
nodes at the two ends meet, each under its public key, and then hear the bodies that the other one
sends, in order. -/
theorem refines_talk (hS : S.Lawful) (h : (stack owner key R start).Reachable t) :
    (talk owner (fun i ↦ S.getPublicKey (key i)) R start).Reachable t.toTalk := by
  refine Machine.Reachable.invariant (M := stack owner key R start)
    (I := fun t ↦ (talk owner (fun i ↦ S.getPublicKey (key i)) R start).Reachable t.toTalk)
    ?_ ?_ h
  · rintro t ⟨happ, e, -, hlink⟩
    have hsession (c : κ) : ∀ b, (Link.start (e c) b).conn.session.isSome = false :=
      forall_bool_of true rfl rfl
    have hsent (c : κ) : ∀ b, (Link.start (e c) b).sent = [] := forall_bool_of true rfl rfl
    refine .init (Talk.ext happ (funext fun p ↦ ?_) (funext fun p ↦ ?_))
    · refine (met_mk t.link t.app p).trans ?_
      rw [hlink, hsession]
    · refine (queue_mk t.link t.app p).trans ?_
      rw [hlink, hsent, List.drop_nil]
  · intro t event t' hreach ht hstep
    rcases toTalk_step hS hreach hstep with heq | ⟨i, x, hx⟩
    · rwa [heq]
    · exact ht.step hx

end Stack

namespace SampleStack
open SampleLink

/-- An application that sends what it is told to, and says nothing else. -/
inductive Speaker : Unit → Stimulus Buffer Unit Buffer Buffer → List ((Unit × Bool) × Buffer) →
    Unit → Prop
  | own (body : Buffer) : Speaker () (.own body) [(((), true), body)] ()
  | meet (p : Unit × Bool) (id : Buffer) : Speaker () (.meet p id) [] ()
  | hear (p : Unit × Bool) (m : Buffer) : Speaker () (.hear p m) [] ()

/-- Two nodes, and a connection from `true` to `false`. -/
def speakers : Machine (Stack (octets sodium) Bool Unit Unit)
    (StackEvent (octets sodium) Bool Unit Buffer) :=
  stack Prod.snd id Speaker fun _ ↦ ()

/-- What the nodes are when the connection is. -/
def joined (l : Link (octets sodium)) : Stack (octets sodium) Bool Unit Unit where
  link _ := l
  app _ := ()

theorem eq_joined (l : Link (octets sodium)) (event : LinkEvent (octets sodium))
    (app : Bool → Unit) :
    (⟨Links.next (fun _ ↦ l) () event, app⟩ : Stack (octets sodium) Bool Unit Unit) =
      joined (l.next event) := by
  rw [joined, show Links.next (fun _ ↦ l) () event = fun _ ↦ l.next event from
    funext fun _ ↦ Function.update_self ..]

theorem reachable_of_step {l : Link (octets sodium)} (hl : speakers.Reachable (joined l))
    {e : StackEvent (octets sodium) Bool Unit Buffer} {event : LinkEvent (octets sodium)}
    {app : Bool → Unit} (hstep : Stack.Step Prod.snd Speaker (joined l) e
      ⟨Links.next (fun _ ↦ l) () event, app⟩) : speakers.Reachable (joined (l.next event)) := by
  rw [← eq_joined l event app]
  exact hl.step (e := e) hstep

/-- Whatever happens on the connection happens in a run of the speakers. -/
theorem reachable_next {l : Link (octets sodium)} (hl : speakers.Reachable (joined l))
    {event : LinkEvent (octets sodium)} (henabled : l.enabled event)
    (hsend : ∀ i body nonce nonce' now, event = .send i body nonce nonce' now → i = true) :
    speakers.Reachable (joined (l.next event)) := by
  have hquiet (hne : ∀ i body nonce nonce' now, event ≠ .send i body nonce nonce' now)
      (htold : ∀ j, told (l.next event j).effects = told (l j).effects) :
      speakers.Reachable (joined (l.next event)) :=
    reachable_of_step hl (.quiet henabled hne htold)
  cases event with
  | send i body nonce nonce' now =>
    obtain rfl := hsend i body nonce nonce' now rfl
    refine reachable_of_step hl (.own (i := true) (e := body) (fun y hy ↦ ?_) (.own body)
      (.cons (p := ((), true)) henabled (.nil _)))
    rw [List.mem_singleton.mp hy]
  | frame i nonce now =>
    have hne (j : Bool) (body : Buffer) (nonce₁ nonce₂ : (octets sodium).Nonce) (now' : ℕ) :
        LinkEvent.frame i nonce now ≠ .send j body nonce₁ nonce₂ now' := fun h ↦ by cases h
    obtain ⟨e, -, hlink⟩ := Stack.linkOf_of_reachable hl ()
    have htells {x : Told (octets sodium)} {s : Unit}
        (htold : told (l.next (.frame i nonce now) i).effects = told (l i).effects ++ [x])
        (hR : Speaker () (x.stimulus ((), i)) [] s) :
        speakers.Reachable (joined (l.next (.frame i nonce now))) :=
      reachable_of_step hl (.frame (p := ((), i)) henabled htold
        (fun y hy ↦ absurd hy List.not_mem_nil) hR (.nil _))
    cases Stack.outcome_of_frame (octets_lawful sodium_lawful) hlink henabled with
    | nothing htold _ =>
      refine hquiet hne (forall_bool_of i htold ?_)
      rw [(Stack.not_frame l i nonce now).2]
    | secure htold => exact htells htold (.meet _ _)
    | message htold => exact htells htold (.hear _ _)
  | _ =>
    refine hquiet (fun i body nonce nonce' now h ↦ by cases h) fun j ↦ ?_
    exact (l.calm_next (fun i nonce now h ↦ by cases h) j).told

theorem reachable_foldl {events : List (LinkEvent (octets sodium))} {l : Link (octets sodium)}
    (hl : speakers.Reachable (joined l)) (h : Machine.Feasible Link.enabled Link.next l events)
    (hsend : ∀ event ∈ events, ∀ i body nonce nonce' now,
      event = .send i body nonce nonce' now → i = true) :
    speakers.Reachable (joined (events.foldl Link.next l)) := by
  induction events generalizing l with
  | nil => exact hl
  | cons event events ih =>
    exact ih (reachable_next hl h.1 (hsend event List.mem_cons_self)) h.2 fun event hevent ↦
      hsend event (List.mem_cons_of_mem _ hevent)

theorem sends_of_events {event : LinkEvent (octets sodium)} (hevent : event ∈ events) (i : Bool)
    (body : Buffer) (nonce nonce' : (octets sodium).Nonce) (now : ℕ)
    (h : event = .send i body nonce nonce' now) : i = true := by
  subst h
  simp only [events, List.mem_cons, List.not_mem_nil, or_false, reduceCtorEq, false_or] at hevent
  cases hevent
  rfl

theorem reachable_outcome : speakers.Reachable (joined outcome) :=
  reachable_foldl (.init ⟨rfl, fun _ ↦ endpoints, fun _ ↦ rfl, rfl⟩) feasible
    fun _ ↦ sends_of_events

end SampleStack

open SampleLink SampleStack in
/-- Both nodes have met, and "hi" has been heard. -/
theorem Stack.refines_talk_sample : (joined outcome).toTalk.met ((), false) = true ∧
    messages ((joined outcome).link () false).effects = [[104, 105]] ∧
    (joined outcome).toTalk.queue ((), false) = [] ∧
    (talk Prod.snd (octets sodium).getPublicKey Speaker fun _ ↦ ()).Reachable
      (joined outcome).toTalk :=
  ⟨by decide +kernel, by decide +kernel, by decide +kernel,
    refines_talk (octets_lawful sodium_lawful) reachable_outcome⟩

end AttestP2P
