import AttestP2P.Session.Delivery
import AttestP2P.Session.EventLoop

/-!
# After the end

A connection is closed by `_fail`, by a CLOSE frame and by the `close` event of its socket.  What it
still does then is nothing, except in one case: a CLOSE frame only ends the socket, `data` events go
on, and `_onData` looks at `_closed` after a frame, not before the first.

* `SessionState.Silent x y`: from `x` to `y` no event is emitted and no frame handled.
* `closed_is_final_iff`: a run is silent from the first moment at which it is closed on if and only
  if no `data` event of a closed connection completes a frame that the security context lets pass.
* `closed_not_final`: with the frames of a real session, a CLOSE and a DATA frame.
-/

set_option autoImplicit false

namespace AttestP2P

variable {S : Suite Buffer}

namespace SecureConnection

variable {c : SecureConnection S}

theorem fail_of_closed (h : c.closed = true) (err : String) : c.fail err = (c, []) := if_pos h

/-- A closed connection stays closed, whatever frame it is given. -/
theorem onFrame_closed (h : c.closed = true) (frame : Buffer) (allowFrame : Bool) (nonce : S.Nonce)
    (now : ℕ) : (c.onFrame frame allowFrame nonce now).1.closed = true := by
  cases allowFrame with
  | false => exact fail_closed c _
  | true =>
    have hon := c.onFrame_handled frame nonce now
    generalize c.onFrame frame true nonce now = r at hon ⊢
    obtain ⟨c', w⟩ := r
    cases hon with
    | rejected => exact fail_closed _ _
    | limited => exact fail_closed _ _
    | replayed => exact fail_closed _ _
    | handshake => exact h
    | message => exact (msgAllow_closed c now).trans h
    | rekeyed => exact h
    | acknowledged => exact h
    | closed => rfl

theorem onTurn_closed (h : c.closed = true) (frame : Buffer) (t : Turn S) :
    (c.onTurn frame t).1.closed = true := by
  have hc := onFrame_closed h frame t.allowFrame t.nonce t.now
  exact (listen_unheard fun _ ↦ hc).1.trans hc

theorem receive_closed (h : c.closed = true) (chunk : Buffer) :
    (c.receive chunk).1.closed = true ∧ emitted (c.receive chunk).2.1 = [] := by
  rw [receive]
  split
  · next d e _ =>
    have hfail := fail_of_closed (c := { c with decoder := d }) h e
    rw [hfail]
    exact ⟨h, rfl⟩
  · exact ⟨h, rfl⟩

/-- A frame that the security context refuses is not handled, and nothing is emitted. -/
theorem onTurn_of_refused (h : c.closed = true) {t : Turn S} (ht : t.allowFrame = false)
    (frame : Buffer) : emitted (c.onTurn frame t).2 = [] := by
  have hon : c.onFrame frame t.allowFrame t.nonce t.now = (c, [.report .rateLimit]) := by
    rw [onFrame, if_pos ht, fail_of_closed h]
  rw [onTurn, hon]
  exact (listen_unheard fun _ ↦ h).2

/-- On a closed connection the loop of `_onData` stops after the first frame. -/
theorem onFrames_of_closed (h : c.closed = true) (frame : Buffer) (frames : List Buffer)
    (turn : ℕ → Turn S) :
    c.onFrames (frame :: frames) turn =
      ((c.onTurn frame (turn 0)).1, (c.onTurn frame (turn 0)).2,
        if (turn 0).allowFrame then 1 else 0) := by
  rw [onFrames]
  simp only [onTurn_closed h, if_true]

end SecureConnection

namespace SessionState

open SecureConnection

/-- From `x` to `y` the connection stays closed, no event is emitted, and no frame is handled. -/
structure Silent (x y : SessionState S) : Prop where
  closed : y.conn.closed = true
  emitted : emitted y.effects = emitted x.effects
  handled : y.handled = x.handled

/-- Once closed, a run is silent up to its end. -/
def ClosedIsFinal (x : SessionState S) (es : List (SessionEvent S)) : Prop :=
  ∀ es₁ es₂, es = es₁ ++ es₂ → (es₁.foldl next x).conn.closed = true →
    Silent (es₁.foldl next x) (es.foldl next x)

/-- The event does not complete a frame on a closed connection that the security context lets
pass. -/
def NoLateFrame (x : SessionState S) : SessionEvent S → Prop
  | .data chunk turn =>
    x.conn.closed = true → (x.conn.receive chunk).2.2 ≠ [] → (turn 0).allowFrame = false
  | _ => True

variable {x : SessionState S}

theorem emitted_act (x : SessionState S) (c : SecureConnection S) (w : List (Effect S)) :
    emitted (x.act c w).effects = emitted x.effects ++ emitted w :=
  emitted_append x.effects w

/-- A step of a closed connection that emits nothing and handles no frame. -/
theorem silent_act {c : SecureConnection S} {w : List (Effect S)} (hc : c.closed = true)
    (hw : emitted w = []) : Silent x (x.act c w) :=
  ⟨hc, by rw [emitted_act, hw, List.append_nil], rfl⟩

theorem silent_fail (h : x.conn.closed = true) (err : String) :
    Silent x (x.act (x.conn.fail err).1 (x.conn.fail err).2) := by
  rw [fail_of_closed h]
  exact silent_act h rfl

theorem silent_unheard {c : SecureConnection S} {w : List (Effect S)} (h : x.conn.closed = true)
    (hw : Unheard x.conn c w) : Silent x (x.act c w) :=
  silent_act (hw.closed.trans h) hw.emitted

/-- **One step.**  A closed connection is silent, unless a late frame is let pass. -/
theorem silent_next (h : x.conn.closed = true) {e : SessionEvent S} (he : x.NoLateFrame e) :
    Silent x (x.next e) := by
  cases e with
  | data chunk turn =>
    obtain ⟨hclosed, hw⟩ := receive_closed h chunk
    have hlate := he h
    simp only [next, onData]
    generalize x.conn.receive chunk = r at hclosed hw hlate
    obtain ⟨c, w, frames⟩ := r
    cases frames with
    | nil =>
      have hsilent := silent_act (x := x) (w := w ++ []) hclosed (by rwa [List.append_nil])
      exact ⟨hsilent.closed, hsilent.emitted, rfl⟩
    | cons frame frames =>
      have hturn := hlate (List.cons_ne_nil _ _)
      have hnothing : emitted (w ++ (c.onTurn frame (turn 0)).2) = [] := by
        rw [emitted_append, hw, onTurn_of_refused hclosed hturn frame]
        rfl
      have hsilent := silent_act (x := x) (onTurn_closed hclosed frame (turn 0)) hnothing
      simp only [onFrames_of_closed hclosed, hturn]
      exact ⟨hsilent.closed, hsilent.emitted, rfl⟩
  | timeout => exact silent_fail h _
  | tick nonce now => exact silent_unheard h (x.conn.maybeAutoRekey_unheard nonce now)
  | call a => exact silent_unheard h (x.conn.call_unheard a)
  | socketError err => exact silent_fail h err
  | socketClose => exact ⟨rfl, rfl, rfl⟩

/-- Frames are never un-handled: the count goes up or stays. -/
theorem handled_le_next (x : SessionState S) (e : SessionEvent S) :
    x.handled ≤ (x.next e).handled := by
  cases e with
  | data chunk turn => exact Nat.le_add_right _ _
  | _ => exact le_rfl

theorem handled_le_foldl (x : SessionState S) (es : List (SessionEvent S)) :
    x.handled ≤ (es.foldl next x).handled := by
  induction es generalizing x with
  | nil => exact le_rfl
  | cons e es ih => exact (x.handled_le_next e).trans (ih _)

/-- A late frame that is let pass is handled, which is what a closed connection should not do. -/
theorem handled_lt_next (h : x.conn.closed = true) {e : SessionEvent S} (he : ¬ x.NoLateFrame e) :
    x.handled < (x.next e).handled := by
  cases e with
  | data chunk turn =>
    have hlate : ∃ frame frames, (x.conn.receive chunk).2.2 = frame :: frames ∧
        (turn 0).allowFrame = true := by
      by_contra hno
      refine he fun _ hne ↦ ?_
      obtain ⟨frame, frames, hframes⟩ := List.exists_cons_of_ne_nil hne
      by_contra hturn
      exact hno ⟨frame, frames, hframes, by simpa using hturn⟩
    obtain ⟨frame, frames, hframes, hturn⟩ := hlate
    have hclosed := (receive_closed h chunk).1
    simp only [next, onData]
    generalize x.conn.receive chunk = r at hclosed hframes
    obtain ⟨c, w, fs⟩ := r
    simp only at hframes
    subst hframes
    simp only [onFrames_of_closed hclosed, hturn, if_true]
    exact Nat.lt_succ_self _
  | _ => exact absurd trivial he

/-- **Closed is final**, in a run from any state on, if and only if no frame comes late. -/
theorem closed_is_final_iff (x : SessionState S) (es : List (SessionEvent S)) :
    x.ClosedIsFinal es ↔ Machine.Feasible NoLateFrame next x es := by
  rw [Machine.feasible_iff]
  refine ⟨fun h es₁ e es₂ hes ↦ ?_, fun h es₁ es₂ hes hclosed ↦ ?_⟩
  · by_contra hlate
    have hclosed : (es₁.foldl next x).conn.closed = true := by
      by_contra hopen
      cases e with
      | data chunk turn => exact hlate fun hc ↦ absurd hc hopen
      | _ => exact hlate trivial
    have hhandled := (h es₁ (e :: es₂) hes hclosed).handled
    have hlt := handled_lt_next hclosed hlate
    have hle := handled_le_foldl ((es₁.foldl next x).next e) es₂
    rw [hes, List.foldl_append, List.foldl_cons] at hhandled
    omega
  · subst hes
    rw [List.foldl_append]
    induction es₂ using List.reverseRecOn with
    | nil => exact ⟨hclosed, rfl, rfl⟩
    | append_singleton es₂ e ih =>
      have hbefore := ih fun es₁' e' es₂' hes' ↦
        h es₁' e' (es₂' ++ [e]) (by rw [← List.append_assoc, hes', List.append_assoc]; rfl)
      have he := h (es₁ ++ es₂) e [] (by rw [List.append_assoc])
      rw [List.foldl_append] at he
      have hstep := silent_next hbefore.closed he
      rw [List.foldl_append, List.foldl_cons, List.foldl_nil]
      exact ⟨hstep.closed, hstep.emitted.trans hbefore.emitted,
        hstep.handled.trans hbefore.handled⟩

end SessionState

/-! ### A message after the end -/

namespace SampleClosed

open SampleLink (nonce keyI data ePubI idI sig1 sig3)

/-- The CLOSE frame, encrypted under the key of the initiator. -/
def close : Buffer :=
  [182, 203, 230, 200, 101, 71, 101, 222, 80, 185, 68, 201, 215, 124, 186, 30, 14]

/-- Functions that take the values of the real ones on the run below. -/
def sodium : Sodium := { SampleLink.sodium with
  decrypt := fun c n key ↦
    if key = keyI ∧ n = (nonce 4).1 ∧ c = close then .ok [ctrlClose]
    else SampleLink.decrypt c n key }

/-- A chunk of one frame; no listener calls anything. -/
def chunk (frame : Buffer) (now : ℕ) : SessionEvent (octets sodium) :=
  .data (frameBytes frame) fun _ ↦
    { allowFrame := true, nonce := nonce 0, now := now, calls := [] }

/-- A responder, with the default options, that has received nothing. -/
def responder : SessionState (octets sodium) :=
  .start (.new (octets sodium) false false false) {} 0

/-- The handshake and a CLOSE frame, as the responder receives them in three chunks. -/
def before : List (SessionEvent (octets sodium)) :=
  [chunk (ePubI ++ idI ++ sig1) 1, chunk sig3 2, chunk ((nonce 4).1 ++ close) 3]

/-- The DATA frame of "hi", before the initiator's FIN. -/
def after : List (SessionEvent (octets sodium)) := [chunk ((nonce 1).1 ++ data) 4]

end SampleClosed

open SampleClosed in
/-- A responder that has received CLOSE, and is closed, emits the message of a DATA frame that
follows in the next `data` event. -/
theorem SessionState.closed_not_final :
    Machine.Feasible enabled next responder (before ++ after) ∧
      (before.foldl next responder).conn.closed = true ∧
      messages (before.foldl next responder).effects = [] ∧
      messages ((before ++ after).foldl next responder).effects = [[104, 105]] ∧
      ¬ responder.ClosedIsFinal (before ++ after) := by
  have hclosed : (before.foldl next responder).conn.closed = true := by decide +kernel
  refine ⟨?_, hclosed, by decide +kernel, by decide +kernel, fun h ↦ ?_⟩
  · refine ⟨⟨?_, ?_⟩, ⟨?_, ?_⟩, ⟨?_, ?_⟩, ⟨?_, ?_⟩, trivial⟩
    all_goals decide +kernel
  · have hhandled := (h before after rfl hclosed).handled
    exact absurd hhandled (by decide +kernel)

end AttestP2P
