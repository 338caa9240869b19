import AttestP2P.Session.AntiReplay
import AttestP2P.Session.Sending

/-!
# After `close`

`close` announces the end with a CLOSE frame and ends the socket; it does not set `_closed`.  Until
the peer's answer, a failure or the `close` event of the socket does, everything that writes goes on
writing.

* `SessionStep` is what can make a connection write: a call of the application or of a listener, a
  frame, the rekey timer.  `runSteps` are those of a run, each with the connection that takes it,
  and `writes_foldl` says that nothing else writes.
* `Leads.run`: the steps of a run are all that happens to the connection, up to its decoder and
  `_closed`.
* `Asks`: what makes an open connection with a session write (`written_ne_nil_iff`).
* `silent_after_close_iff`: nothing is written after `close` exactly if no step
  asks an open connection to write.
-/

set_option autoImplicit false

namespace AttestP2P

variable {S : Suite Buffer}

/-- What can make a connection write.  A frame may, since the handshake and a rekey are answered. -/
inductive SessionStep (S : Suite Buffer) where
  | call (a : ApiCall S)
  | frame (frame : Buffer) (allowFrame : Bool) (nonce : S.Nonce) (now : ℕ)
  | tick (nonce : S.Nonce) (now : ℕ)

/-- A call of `close`, by the application. -/
def SessionStep.isClose : SessionStep S → Bool
  | .call (.close _) => true
  | _ => false

/-- Steps, each with the connection that takes it. -/
abbrev StepLog (S : Suite Buffer) := List (SecureConnection S × SessionStep S)

namespace SecureConnection

/-- The frames that a step writes, when the connection `c` takes it. -/
def written (c : SecureConnection S) : SessionStep S → List Buffer
  | .call a => writes (c.call a).2
  | .frame frame allowFrame nonce now => writes (c.onFrame frame allowFrame nonce now).2
  | .tick nonce now => writes (c.maybeAutoRekey nonce now).2.1

def callSteps (c : SecureConnection S) : List (ApiCall S) → StepLog S
  | [] => []
  | a :: as => (c, .call a) :: callSteps (c.call a).1 as

/-- The calls of the listeners: those of `peerclose` come before `_closed` is set. -/
def listenSteps (closed : Bool) (c : SecureConnection S) (w : List (Effect S))
    (as : List (ApiCall S)) : StepLog S :=
  match w with
  | [.peerclose, .socketEnd] => callSteps { c with closed := closed } as
  | _ => callSteps c as

def turnSteps (c : SecureConnection S) (frame : Buffer) (t : Turn S) : StepLog S :=
  let (c', w) := c.onFrame frame t.allowFrame t.nonce t.now
  (c, .frame frame t.allowFrame t.nonce t.now) :: listenSteps c.closed c' w t.calls

def frameSteps (c : SecureConnection S) : List Buffer → (ℕ → Turn S) → StepLog S
  | [], _ => []
  | frame :: frames, turn =>
    let c' := (c.onTurn frame (turn 0)).1
    c.turnSteps frame (turn 0) ++
      if c'.closed then [] else c'.frameSteps frames fun i ↦ turn (i + 1)

def dataSteps (c : SecureConnection S) (chunk : Buffer) (turn : ℕ → Turn S) : StepLog S :=
  let (c, _, frames) := c.receive chunk
  c.frameSteps frames turn

end SecureConnection

namespace SessionState

/-- The steps of an event; the others only fail. -/
def steps (x : SessionState S) : SessionEvent S → StepLog S
  | .data chunk turn => x.conn.dataSteps chunk turn
  | .tick nonce now => [(x.conn, .tick nonce now)]
  | .call a => [(x.conn, .call a)]
  | _ => []

/-- The steps of a run, each with the connection as it is at that moment. -/
def runSteps (x : SessionState S) : List (SessionEvent S) → StepLog S
  | [] => []
  | e :: es => x.steps e ++ runSteps (x.next e) es

end SessionState

/-- All that the steps write, one after the other. -/
def StepLog.written (l : StepLog S) : List Buffer := l.flatMap fun p ↦ p.1.written p.2

/-! ## Nothing else writes -/

theorem StepLog.written_append (l l' : StepLog S) :
    StepLog.written (l ++ l') = StepLog.written l ++ StepLog.written l' :=
  List.flatMap_append

namespace SecureConnection

theorem writes_fail (c : SecureConnection S) (err : String) : writes (c.fail err).2 = [] :=
  (fail_spec c err).2.2.2.2

theorem writes_receive (c : SecureConnection S) (chunk : Buffer) :
    writes (c.receive chunk).2.1 = [] := by
  rw [receive]
  split
  · exact writes_fail _ _
  · rfl

theorem writes_calls (c : SecureConnection S) (as : List (ApiCall S)) :
    writes (c.calls as).2 = (c.callSteps as).written := by
  induction as generalizing c with
  | nil => rfl
  | cons a as ih =>
    have hcalls : (c.calls (a :: as)).2 = (c.call a).2 ++ ((c.call a).1.calls as).2 := rfl
    rw [hcalls, writes_append, ih]
    rfl

/-- Listeners of anything but `peerclose` act, and the endpoint does nothing by itself after
them. -/
theorem listen_of_ne {closed : Bool} {c : SecureConnection S} {w : List (Effect S)}
    (h : w ≠ [.peerclose, .socketEnd]) (as : List (ApiCall S)) :
    listen closed c w as = ((c.calls as).1, w ++ (c.calls as).2) ∧
      listenSteps closed c w as = c.callSteps as := by
  constructor
  · unfold listen
    split
    · exact absurd rfl h
    · rfl
  · unfold listenSteps
    split
    · exact absurd rfl h
    · rfl

theorem writes_listen (closed : Bool) (c : SecureConnection S) (w : List (Effect S))
    (as : List (ApiCall S)) :
    writes (listen closed c w as).2 = writes w ++ (listenSteps closed c w as).written := by
  by_cases hw : w = [.peerclose, .socketEnd]
  · subst hw
    refine (writes_append _ [.socketEnd]).trans ((List.append_nil _).trans ?_)
    exact writes_calls { c with closed := closed } as
  · obtain ⟨hlisten, hsteps⟩ := listen_of_ne (c := c) hw as
    rw [hlisten, hsteps, writes_append, writes_calls]

theorem writes_onTurn (c : SecureConnection S) (frame : Buffer) (t : Turn S) :
    writes (c.onTurn frame t).2 = (c.turnSteps frame t).written :=
  writes_listen _ _ _ _

theorem writes_onFrames (c : SecureConnection S) (frames : List Buffer) (turn : ℕ → Turn S) :
    writes (c.onFrames frames turn).2.1 = (c.frameSteps frames turn).written := by
  induction frames generalizing c turn with
  | nil => rfl
  | cons frame frames ih =>
    rw [onFrames, frameSteps, StepLog.written_append, ← writes_onTurn]
    dsimp only
    split
    · exact (List.append_nil _).symm
    · rw [← ih, writes_append]

end SecureConnection

namespace SessionState

open SecureConnection

theorem writes_next (x : SessionState S) (e : SessionEvent S) :
    writes (x.next e).effects = writes x.effects ++ (x.steps e).written := by
  cases e with
  | data chunk turn =>
    have hdata : (x.conn.onData chunk turn).2.1 = (x.conn.receive chunk).2.1 ++
      ((x.conn.receive chunk).1.onFrames (x.conn.receive chunk).2.2 turn).2.1 := rfl
    have hnext : (x.next (.data chunk turn)).effects =
      x.effects ++ (x.conn.onData chunk turn).2.1 := rfl
    rw [hnext, writes_append, hdata, writes_append, writes_receive, writes_onFrames]
    rfl
  | timeout =>
    refine (writes_append _ _).trans (congrArg _ (writes_fail _ _))
  | tick nonce now =>
    refine (writes_append _ _).trans (congrArg _ ?_)
    exact (List.append_nil _).symm
  | call a =>
    refine (writes_append _ _).trans (congrArg _ ?_)
    exact (List.append_nil _).symm
  | socketError err => exact (writes_append _ _).trans (congrArg _ (writes_fail _ _))
  | socketClose => exact (List.append_nil _).symm

/-- **Only steps write.** So to say of a run that nothing is written is to say it of its steps. -/
theorem writes_foldl (x : SessionState S) (es : List (SessionEvent S)) :
    writes (es.foldl next x).effects = writes x.effects ++ (x.runSteps es).written := by
  induction es generalizing x with
  | nil => exact (List.append_nil _).symm
  | cons e es ih =>
    rw [List.foldl_cons, ih, writes_next, runSteps, StepLog.written_append, List.append_assoc]

end SessionState

/-! ## When a step writes -/

namespace SecureConnection

/-- An automatic rekey is due: no rekey is pending, and one of the three limits has been reached. -/
def RekeyDue (c : SecureConnection S) (now : ℕ) : Prop :=
  c.hs.isInitiator = true ∧ (c.rekeyEveryMsgs ≤ c.rkMsgs ∨ c.rekeyEveryBytes ≤ c.rkBytes ∨
    c.rekeyEveryMs ≤ now - c.rkSince)

/-- The frame is a REKEY frame of the session, and the security context lets it pass. -/
def IsRekey (c : SecureConnection S) (frame : Buffer) (allowFrame : Bool) : Prop :=
  allowFrame = true ∧ ∃ s pt, c.session = some s ∧ s.open frame = .ok pt ∧
    pt.headD ctrlData = ctrlRekey

/-- The step asks a connection with a session to write: the application sends, rekeys or closes, a
rekey is due, or the peer rekeys. -/
def Asks (c : SecureConnection S) : SessionStep S → Prop
  | .call (.send body _ _ _) => c.txSeq + 1 < 2 ^ 64 ∧ body.length + 49 < 2 ^ 32
  | .call (.rekey _) => c.rekeying = false
  | .call (.close _) => True
  | .tick _ now => c.RekeyDue now ∧ c.rekeying = false
  | .frame frame allowFrame _ _ => c.IsRekey frame allowFrame

variable {c : SecureConnection S} {s : SecureSession S}

theorem written_send (hS : S.Lawful) (hs : c.session = some s) (body : Buffer)
    (nonce nonce' : S.Nonce) (now : ℕ) :
    c.written (.call (.send body nonce nonce' now)) ≠ [] ↔
      c.closed = false ∧ c.txSeq + 1 < 2 ^ 64 ∧ body.length + 49 < 2 ^ 32 := by
  show writes (c.send body nonce nonce' now).2.1 ≠ [] ↔ _
  by_cases hseq : c.txSeq + 1 < 2 ^ 64
  · cases hclosed : c.closed with
    | true =>
      rw [send_of_closed hS hclosed hs hseq]
      exact ⟨fun h ↦ absurd rfl h, fun h ↦ nomatch h.1⟩
    | false =>
      by_cases hlen : body.length + 49 < 2 ^ 32
      · obtain ⟨-, control, hwrites, -⟩ := send_writes hS hclosed hs hseq hlen nonce nonce' now
        rw [hwrites]
        exact ⟨fun _ ↦ ⟨rfl, hseq, hlen⟩, fun _ h ↦ nomatch h⟩
      · rw [send_of_long hS hclosed hs hseq hlen]
        exact ⟨fun h ↦ absurd rfl h, fun h ↦ absurd h.2.2 hlen⟩
  · rw [send_of_overflow hs (Nat.not_lt.mp hseq)]
    exact ⟨fun h ↦ absurd rfl h, fun h ↦ absurd h.2.1 hseq⟩

theorem writes_rekey_ne_nil (hS : S.Lawful) (hs : c.session = some s) (nonce : S.Nonce) :
    writes (c.rekey nonce).2.1 ≠ [] ↔ c.closed = false ∧ c.rekeying = false := by
  cases hrekeying : c.rekeying with
  | true =>
    rw [rekey_of_rekeying (.inr hrekeying)]
    exact ⟨fun h ↦ absurd rfl h, fun h ↦ nomatch h.2⟩
  | false =>
    cases hclosed : c.closed with
    | true =>
      rw [rekey_of_closed hclosed hs hrekeying]
      exact ⟨fun h ↦ absurd rfl h, fun h ↦ nomatch h.1⟩
    | false =>
      rw [rekey_of_idle hclosed hs hrekeying (length_seal_control hS s nonce _)]
      exact ⟨fun _ ↦ ⟨rfl, rfl⟩, fun _ h ↦ nomatch h⟩

theorem written_close (hS : S.Lawful) (hs : c.session = some s) (nonce : S.Nonce) :
    c.written (.call (.close nonce)) =
      if c.closed then [] else [s.seal nonce [ctrlClose]] := by
  show writes (c.close nonce) = _
  cases hclosed : c.closed with
  | true =>
    rw [close, if_pos hclosed]
    rfl
  | false =>
    have hwrite := write_of_open hclosed (length_seal_control hS s nonce ctrlClose)
    rw [close, if_neg (by simp [hclosed]), hs]
    dsimp only
    rw [hwrite]
    rfl

theorem written_tick (hS : S.Lawful) (hs : c.session = some s) (nonce : S.Nonce) (now : ℕ) :
    c.written (.tick nonce now) ≠ [] ↔
      c.closed = false ∧ c.RekeyDue now ∧ c.rekeying = false := by
  show writes (c.maybeAutoRekey nonce now).2.1 ≠ [] ↔ _
  rw [maybeAutoRekey]
  split
  · next hidle =>
    refine ⟨fun h ↦ absurd rfl h, ?_⟩
    rintro ⟨-, ⟨hinitiator, -⟩, hrekeying⟩
    simp [hinitiator, hs, hrekeying] at hidle
  · next hbusy =>
    simp only [not_or, Bool.not_eq_false] at hbusy
    split
    · next hdue =>
      rw [writes_rekey_ne_nil hS hs]
      exact ⟨fun h ↦ ⟨h.1, ⟨hbusy.1, hdue⟩, h.2⟩, fun h ↦ ⟨h.1, h.2.2⟩⟩
    · next hdue => exact ⟨fun h ↦ absurd rfl h, fun h ↦ absurd h.2.1.2 hdue⟩

/-- What is thrown writes nothing, since it ends in a report and a failure. -/
theorem writes_thrown (c : SecureConnection S) (err : String) :
    writes ([] ++ (.report (.cryptoError err) :: (c.fail err).2)) = [] :=
  writes_fail c err

theorem writes_handleData (c : SecureConnection S) (pt : Buffer) (now : ℕ) :
    writes (match c.handleData pt now with
      | (c, w, .ok ()) => (c, w)
      | (c, w, .error e) =>
        ((c.fail e).1, w ++ (Effect.report (.cryptoError e) :: (c.fail e).2))).2 = [] := by
  by_cases hlen : pt.length < 9
  · rw [handleData_of_short hlen]
    exact writes_thrown c _
  · cases hallow : (c.msgAllow now).2 with
    | false =>
      rw [handleData_of_limited hlen hallow]
      exact writes_fail _ _
    | true =>
      by_cases hrx : c.rxSeq.any (pt.readBigUInt64BE 1 ≤ ·) = true
      · rw [handleData_of_replayed hlen hallow hrx]
        exact writes_fail _ _
      · rw [handleData_of_new hlen hallow hrx]
        rfl

/-- Of the frames of a session only REKEY is answered. -/
theorem written_frame (hS : S.Lawful) (hs : c.session = some s) (frame : Buffer)
    (allowFrame : Bool) (nonce : S.Nonce) (now : ℕ) :
    c.written (.frame frame allowFrame nonce now) ≠ [] ↔
      c.closed = false ∧ c.IsRekey frame allowFrame := by
  show writes (c.onFrame frame allowFrame nonce now).2 ≠ [] ↔ _
  cases allowFrame with
  | false =>
    have hfail : writes (c.onFrame frame false nonce now).2 = [] := writes_fail c _
    rw [hfail]
    exact ⟨fun h ↦ absurd rfl h, fun h ↦ by cases h.2.1⟩
  | true =>
    have hnot {w : List (Effect S)} (hw : writes w = [])
        (hrekey : ∀ pt, s.open frame = .ok pt → pt.headD ctrlData ≠ ctrlRekey) :
        writes w ≠ [] ↔ c.closed = false ∧ c.IsRekey frame true := by
      refine ⟨fun h ↦ absurd hw h, ?_⟩
      rintro ⟨-, -, s', pt, hs', hpt, htype⟩
      obtain rfl : s = s' := Option.some.inj (hs.symm.trans hs')
      exact absurd htype (hrekey pt hpt)
    rw [onFrame_of_handleFrame, handleFrame_of_session hs, handleTransport]
    cases hopens : s.open frame with
    | error e => exact hnot (writes_thrown c e) fun pt hpt ↦ by cases hopens.symm.trans hpt
    | ok pt =>
      have htype {type : UInt8} (h : pt.headD ctrlData = type) (hne : type ≠ ctrlRekey) (pt')
          (hpt' : s.open frame = .ok pt') : pt'.headD ctrlData ≠ ctrlRekey := by
        obtain rfl : pt = pt' := Except.ok.inj (hopens.symm.trans hpt')
        rwa [h]
      dsimp only
      by_cases hdata : pt.headD ctrlData = ctrlData
      · rw [if_pos hdata]
        exact hnot (writes_handleData c pt now) (htype hdata (by decide))
      · rw [if_neg hdata]
        by_cases hrekey : pt.headD ctrlData = ctrlRekey
        · rw [if_pos hrekey]
          have hlen := length_seal_control hS s.rekeyRx nonce ctrlRekeyAck
          obtain hclosed | hclosed := Bool.eq_false_or_eq_true c.closed
          · have hwrite : ({ c with session := some s.rekeyRx } : SecureConnection S).write
              (s.rekeyRx.seal nonce [ctrlRekeyAck]) = .ok [] := write_of_closed hclosed _
            rw [hwrite]
            exact ⟨fun h ↦ absurd rfl h, fun h ↦ by cases hclosed.symm.trans h.1⟩
          · have hwrite : ({ c with session := some s.rekeyRx } : SecureConnection S).write
                (s.rekeyRx.seal nonce [ctrlRekeyAck]) =
              .ok [.write (s.rekeyRx.seal nonce [ctrlRekeyAck])] := write_of_open hclosed hlen
            rw [hwrite]
            exact ⟨fun _ ↦ ⟨hclosed, rfl, s, pt, hs, hopens, hrekey⟩, fun _ h ↦ by cases h⟩
        · rw [if_neg hrekey]
          refine hnot ?_ (htype rfl hrekey)
          split_ifs
          · rfl
          · rfl
          · exact writes_thrown c _

/-- **When a step writes**: on a connection with a session, whenever it is asked to and is not
closed. -/
theorem written_ne_nil_iff (hS : S.Lawful) (hs : c.session = some s) (m : SessionStep S) :
    c.written m ≠ [] ↔ c.closed = false ∧ c.Asks m := by
  cases m with
  | call a =>
    cases a with
    | send body nonce nonce' now => exact written_send hS hs body nonce nonce' now
    | rekey nonce => exact writes_rekey_ne_nil hS hs nonce
    | close nonce =>
      rw [written_close hS hs]
      cases c.closed with
      | true => exact ⟨fun h ↦ absurd rfl h, fun h ↦ nomatch h.1⟩
      | false => exact ⟨fun _ ↦ ⟨rfl, trivial⟩, fun _ h ↦ nomatch h⟩
  | frame frame allowFrame nonce now => exact written_frame hS hs frame allowFrame nonce now
  | tick nonce now => exact written_tick hS hs nonce now

/-! ## A session stays -/

/-- The connection after a step, as far as the step itself goes; what listeners then do are further
steps. -/
def after (c : SecureConnection S) : SessionStep S → SecureConnection S
  | .call a => (c.call a).1
  | .frame frame allowFrame nonce now => (c.onFrame frame allowFrame nonce now).1
  | .tick nonce now => (c.maybeAutoRekey nonce now).1

theorem call_session (hs : c.session ≠ none) (a : ApiCall S) : (c.call a).1.session ≠ none := by
  obtain ⟨s, hs⟩ := Option.ne_none_iff_exists'.mp hs
  cases a with
  | send body nonce nonce' now =>
    obtain ⟨s', hs', -⟩ := (send_spec hs body nonce nonce' now).1.session s hs
    exact Option.ne_none_iff_exists'.mpr ⟨s', hs'⟩
  | rekey nonce =>
    obtain ⟨s', hs', -⟩ := (rekey_spec hs nonce).1.session s hs
    exact Option.ne_none_iff_exists'.mpr ⟨s', hs'⟩
  | close nonce => exact Option.ne_none_iff_exists'.mpr ⟨s, hs⟩

theorem onFrame_session (hs : c.session ≠ none) (frame : Buffer) (allowFrame : Bool)
    (nonce : S.Nonce) (now : ℕ) : (c.onFrame frame allowFrame nonce now).1.session ≠ none := by
  obtain ⟨s, hs⟩ := Option.ne_none_iff_exists'.mp hs
  obtain hkeeps | ⟨pt, hemits⟩ := (onFrame_handles hs frame allowFrame nonce now).outcome
  · obtain ⟨s', hs', -⟩ := hkeeps.session s hs
    exact Option.ne_none_iff_exists'.mpr ⟨s', hs'⟩
  · exact Option.ne_none_iff_exists'.mpr ⟨s, hemits.session⟩

theorem after_session (hs : c.session ≠ none)
    (m : SessionStep S) : (c.after m).session ≠ none := by
  cases m with
  | call a => exact c.call_session hs a
  | frame frame allowFrame nonce now => exact c.onFrame_session hs frame allowFrame nonce now
  | tick nonce now =>
    obtain ⟨s, hs⟩ := Option.ne_none_iff_exists'.mp hs
    obtain ⟨s', hs', -⟩ := (maybeAutoRekey_spec hs nonce now).1.session s hs
    exact Option.ne_none_iff_exists'.mpr ⟨s', hs'⟩

end SecureConnection

/-- The steps lead from `c` to `c'`, and none of them loses the session. -/
structure Track (c : SecureConnection S) (l : StepLog S) (c' : SecureConnection S) : Prop where
  start : c.session ≠ none → (∀ p ∈ l, p.1.session ≠ none) ∧ c'.session ≠ none
  between : l.Pairwise fun p q ↦ p.1.session ≠ none → q.1.session ≠ none
  finish : ∀ p ∈ l, p.1.session ≠ none → c'.session ≠ none

namespace Track

variable {c c₁ c₂ c₃ : SecureConnection S} {l l' : StepLog S}

theorem nil (h : c₁.session ≠ none → c₂.session ≠ none) : Track c₁ [] c₂ where
  start hs := ⟨fun _ hp ↦ (nomatch hp), h hs⟩
  between := .nil
  finish _ hp := nomatch hp

theorem append (h : Track c₁ l c₂) (h' : Track c₂ l' c₃) : Track c₁ (l ++ l') c₃ where
  start hs := by
    obtain ⟨hl, hs₂⟩ := h.start hs
    obtain ⟨hl', hs₃⟩ := h'.start hs₂
    exact ⟨List.forall_mem_append.mpr ⟨hl, hl'⟩, hs₃⟩
  between := List.pairwise_append.mpr ⟨h.between, h'.between, fun p hp q hq hs ↦
    (h'.start (h.finish p hp hs)).1 q hq⟩
  finish p hp hs := by
    obtain hp | hp := List.mem_append.mp hp
    · exact (h'.start (h.finish p hp hs)).2
    · exact h'.finish p hp hs

theorem single (m : SessionStep S) (h : c₁.session ≠ none → c₂.session ≠ none) :
    Track c₁ [(c₁, m)] c₂ where
  start hs := ⟨fun p hp ↦ by rwa [List.mem_singleton.mp hp], h hs⟩
  between := List.pairwise_singleton _ _
  finish p hp hs := h (by rwa [List.mem_singleton.mp hp] at hs)

/-- Other fields do not matter: the track depends on the session alone. -/
theorem congr (h : Track c₁ l c₂) (hs : c.session = c₁.session) (hs' : c₃.session = c₂.session) :
    Track c l c₃ where
  start hc := by
    rw [hs] at hc
    rw [hs']
    exact h.start hc
  between := h.between
  finish p hp hc := by
    rw [hs']
    exact h.finish p hp hc

end Track

/-- The steps lead from `c` to `c'`.  Between them the decoder takes in bytes, and the connection
may be closed. -/
inductive Leads : SecureConnection S → StepLog S → SecureConnection S → Prop
  | nil (c : SecureConnection S) : Leads c [] c
  | step {c c' : SecureConnection S} {m : SessionStep S} {l : StepLog S}
      (h : Leads (c.after m) l c') :
      Leads c ((c, m) :: l) c'
  | adjust {c c' : SecureConnection S} {l : StepLog S} (decoder : FrameDecoder) (closed : Bool)
      (h : Leads { c with decoder := decoder, closed := closed } l c') : Leads c l c'

namespace Leads

open SecureConnection (listenSteps listen_of_ne frameSteps onFrames receive)

variable {c c₁ c₂ : SecureConnection S} {l l' : StepLog S}

theorem append (h : Leads c l c₁) (h' : Leads c₁ l' c₂) : Leads c (l ++ l') c₂ := by
  induction h with
  | nil c => exact h'
  | step _ ih => exact .step (ih h')
  | adjust decoder closed _ ih => exact .adjust decoder closed (ih h')

/-- Nothing but the decoder and `_closed` changes at the end. -/
theorem adjusted (h : Leads c l c₁) (decoder : FrameDecoder) (closed : Bool) :
    Leads c l { c₁ with decoder := decoder, closed := closed } := by
  have hend : Leads c₁ [] { c₁ with decoder := decoder, closed := closed } :=
    .adjust decoder closed (.nil _)
  exact List.append_nil l ▸ h.append hend

theorem fail (c : SecureConnection S) (err : String) : Leads c [] (c.fail err).1 := by
  rw [SecureConnection.fail]
  split
  · exact .nil c
  · exact .adjust c.decoder true (.nil _)

theorem calls (c : SecureConnection S) (as : List (ApiCall S)) :
    Leads c (c.callSteps as) (c.calls as).1 := by
  induction as generalizing c with
  | nil => exact .nil c
  | cons a as ih => exact .step (ih (c.call a).1)

theorem listen (closed : Bool) (c : SecureConnection S) (w : List (Effect S))
    (as : List (ApiCall S)) :
    Leads c (listenSteps closed c w as) (SecureConnection.listen closed c w as).1 := by
  by_cases hw : w = [.peerclose, .socketEnd]
  · subst hw
    have hcalls := Leads.calls { c with closed := closed } as
    exact .adjust c.decoder closed (hcalls.adjusted _ true)
  · obtain ⟨hlisten, hsteps⟩ := listen_of_ne (c := c) hw as
    rw [hlisten, hsteps]
    exact .calls c as

theorem turn (c : SecureConnection S) (frame : Buffer) (t : Turn S) :
    Leads c (c.turnSteps frame t) (c.onTurn frame t).1 :=
  .step (.listen _ _ _ _)

theorem frames (c : SecureConnection S) (frames : List Buffer) (turn : ℕ → Turn S) :
    Leads c (c.frameSteps frames turn) (c.onFrames frames turn).1 := by
  induction frames generalizing c turn with
  | nil => exact .nil c
  | cons frame frames ih =>
    rw [frameSteps, onFrames]
    dsimp only
    have hturn := Leads.turn c frame (turn 0)
    split
    · rw [List.append_nil]
      exact hturn
    · exact hturn.append (ih _ _)

theorem data (c : SecureConnection S) (chunk : Buffer) (turn : ℕ → Turn S) :
    Leads c (c.dataSteps chunk turn) (c.onData chunk turn).1 := by
  have hreceive : Leads c [] (c.receive chunk).1 := by
    rw [receive]
    split
    · next d e _ => exact .adjust d c.closed (.fail { c with decoder := d } e)
    · next d frames _ => exact .adjust d c.closed (.nil _)
  exact hreceive.append (Leads.frames (c.receive chunk).1 (c.receive chunk).2.2 turn)

theorem event (x : SessionState S) (e : SessionEvent S) :
    Leads x.conn (x.steps e) (x.next e).conn := by
  cases e with
  | data chunk turn => exact .data x.conn chunk turn
  | timeout => exact .fail x.conn _
  | tick nonce now => exact .step (.nil _)
  | call a => exact .step (.nil _)
  | socketError err => exact .fail x.conn err
  | socketClose => exact .adjust x.conn.decoder true (.nil _)

/-- **The steps of a run** lead from its first connection to its last. -/
theorem run (x : SessionState S) (es : List (SessionEvent S)) :
    Leads x.conn (x.runSteps es) (es.foldl SessionState.next x).conn := by
  induction es generalizing x with
  | nil => exact .nil x.conn
  | cons e es ih => exact (Leads.event x e).append (ih _)

theorem track (h : Leads c l c₁) : Track c l c₁ := by
  induction h with
  | nil c => exact .nil id
  | step _ ih => exact (Track.single _ fun hs ↦ SecureConnection.after_session hs _).append ih
  | adjust decoder closed _ ih => exact ih.congr rfl rfl

end Leads
/-! ## Runs -/

/-- `close` is called on a connection with a session, so that it announces the end. -/
def Closes (p : SecureConnection S × SessionStep S) : Prop :=
  p.2.isClose = true ∧ p.1.session ≠ none

/-- The CLOSE frames that the calls of `close` have written. -/
def closeFrames (l : StepLog S) : List Buffer := StepLog.written (l.filter fun p ↦ p.2.isClose)

/-- After `close` has been called on a connection with a session, nothing is written any more, and
no more than one CLOSE frame is ever written. -/
structure SilentAfterClose (l : StepLog S) : Prop where
  silent : l.Pairwise fun p q ↦ Closes p → q.1.written q.2 = []
  once : (closeFrames l).length ≤ 1

/-- After `close`, no connection that is not closed is asked to write. -/
def Unasked (l : StepLog S) : Prop :=
  l.Pairwise fun p q ↦ Closes p → ¬(q.1.closed = false ∧ q.1.Asks q.2)

theorem closeFrames_cons_of_isClose {p : SecureConnection S × SessionStep S} {l : StepLog S}
    (h : p.2.isClose = true) : closeFrames (p :: l) = p.1.written p.2 ++ closeFrames l := by
  have hfilter : (p :: l).filter (fun q ↦ q.2.isClose) = p :: l.filter fun q ↦ q.2.isClose :=
    List.filter_cons_of_pos (p := fun q : SecureConnection S × SessionStep S ↦ q.2.isClose) h
  rw [closeFrames, hfilter]
  rfl

theorem closeFrames_cons_of_not {p : SecureConnection S × SessionStep S} {l : StepLog S}
    (h : ¬p.2.isClose = true) : closeFrames (p :: l) = closeFrames l := by
  have hfilter : (p :: l).filter (fun q ↦ q.2.isClose) = l.filter fun q ↦ q.2.isClose :=
    List.filter_cons_of_neg (p := fun q : SecureConnection S × SessionStep S ↦ q.2.isClose) h
  rw [closeFrames, hfilter]
  rfl

/-- Without a session `close` writes nothing, since there is no key to seal a frame with. -/
theorem written_isClose_of_none {c : SecureConnection S} (hs : c.session = none)
    {m : SessionStep S} (h : m.isClose = true) : c.written m = [] := by
  match m, h with
  | .call (.close nonce), _ =>
    show writes (c.close nonce) = []
    rw [SecureConnection.close, hs]
    split <;> rfl

theorem length_written_isClose (hS : S.Lawful) (c : SecureConnection S) {m : SessionStep S}
    (h : m.isClose = true) : (c.written m).length ≤ 1 := by
  cases hs : c.session with
  | none =>
    rw [written_isClose_of_none hs h]
    exact Nat.zero_le 1
  | some s =>
    match m, h with
    | .call (.close nonce), _ =>
      rw [SecureConnection.written_close hS hs]
      split
      · exact Nat.zero_le 1
      · exact le_rfl

/-- A second CLOSE frame would be written after the first call of `close`. -/
theorem length_closeFrames (hS : S.Lawful) {l : StepLog S}
    (h : l.Pairwise fun p q ↦ Closes p → q.1.written q.2 = []) : (closeFrames l).length ≤ 1 := by
  induction l with
  | nil => exact Nat.zero_le 1
  | cons p l ih =>
    obtain ⟨hp, hl⟩ := List.pairwise_cons.mp h
    by_cases hclose : p.2.isClose = true
    · rw [closeFrames_cons_of_isClose hclose, List.length_append]
      by_cases hs : p.1.session = none
      · rw [written_isClose_of_none hs hclose]
        exact (Nat.zero_add _).trans_le (ih hl)
      · have hlater : closeFrames l = [] :=
          List.flatMap_eq_nil_iff.mpr fun q hq ↦ hp q (List.mem_of_mem_filter hq) ⟨hclose, hs⟩
        rw [hlater]
        exact length_written_isClose hS p.1 hclose
    · rw [closeFrames_cons_of_not hclose]
      exact ih hl

/-- **Nothing is written after `close`**, in any run, exactly if from then on no connection that is
not closed is asked to write. -/
theorem silent_after_close_iff {N : Sodium} (hN : N.Lawful) (x : SessionState (octets N))
    (es : List (SessionEvent (octets N))) :
    SilentAfterClose (x.runSteps es) ↔ Unasked (x.runSteps es) := by
  have hS := octets_lawful hN
  have htrack := (Leads.run x es).track.between
  constructor
  · rintro ⟨hsilent, -⟩
    refine (htrack.and hsilent).imp fun {p q} ⟨hkeeps, hwritten⟩ hcloses hasks ↦ ?_
    obtain ⟨s, hs⟩ := Option.ne_none_iff_exists'.mp (hkeeps hcloses.2)
    exact (SecureConnection.written_ne_nil_iff hS hs q.2).mpr hasks (hwritten hcloses)
  · intro hunasked
    have hsilent : (x.runSteps es).Pairwise fun p q ↦ Closes p → q.1.written q.2 = [] := by
      refine (htrack.and hunasked).imp fun {p q} ⟨hkeeps, hquiet⟩ hcloses ↦ ?_
      obtain ⟨s, hs⟩ := Option.ne_none_iff_exists'.mp (hkeeps hcloses.2)
      by_contra hwritten
      exact hquiet hcloses ((SecureConnection.written_ne_nil_iff hS hs q.2).mp hwritten)
    exact ⟨hsilent, length_closeFrames hS hsilent⟩

/-! ### Between `end()` and `close` -/

namespace SampleClosed

open SampleLink (nonce ePubI idI sig1 sig3)

/-- A responder's application closes after the handshake, sends "hi", and closes again. -/
def closing : List (SessionEvent (octets sodium)) :=
  [chunk (ePubI ++ idI ++ sig1) 1, chunk sig3 2, .call (.close (nonce 1)),
    .call (.send [104, 105] (nonce 2) (nonce 3) 3), .call (.close (nonce 4))]

end SampleClosed

open SampleClosed in
/-- The DATA frame and a second CLOSE frame are written after the first `close`. -/
theorem written_after_close :
    Machine.Feasible SessionState.enabled SessionState.next responder closing ∧
      ((responder.runSteps closing).map fun p ↦ (p.1.written p.2).length) = [1, 0, 1, 1, 1] ∧
      (closeFrames (responder.runSteps closing)).length = 2 ∧
      ¬SilentAfterClose (responder.runSteps closing) := by
  have hframes : (closeFrames (responder.runSteps closing)).length = 2 := by decide +kernel
  refine ⟨?_, by decide +kernel, hframes, fun h ↦ ?_⟩
  · refine ⟨⟨?_, ?_⟩, ⟨?_, ?_⟩, trivial, trivial, trivial, trivial⟩
    all_goals decide +kernel
  · have honce := hframes.symm.trans_le h.once
    omega

namespace SampleClosed

open SampleLink (nonce ePubI idI sig1 sig3)

/-- The application sends "hi", and then it closes. -/
def closingLast : List (SessionEvent (octets sodium)) :=
  [chunk (ePubI ++ idI ++ sig1) 1, chunk sig3 2, .call (.send [104, 105] (nonce 1) (nonce 3) 3),
    .call (.close (nonce 2))]

end SampleClosed

/-- Nobody is asked for anything after a call of `close` that is the last step. -/
theorem unasked_of_last {S : Suite Buffer} {l : StepLog S}
    (h : ∀ p ∈ l.dropLast, p.2.isClose = false) : Unasked l := by
  rcases List.eq_nil_or_concat l with rfl | ⟨l, p, rfl⟩
  · exact List.Pairwise.nil
  · rw [List.concat_eq_append, List.dropLast_concat] at h
    have hnever {q r : SecureConnection S × SessionStep S} (hq : q ∈ l) (hcloses : Closes q) :
        ¬(r.1.closed = false ∧ r.1.Asks r.2) := by
      cases (h q hq).symm.trans hcloses.1
    rw [Unasked, List.concat_eq_append, List.pairwise_append]
    exact ⟨List.pairwise_of_forall_mem_list fun q hq r _ ↦ hnever hq, List.pairwise_singleton _ _,
      fun q hq r _ ↦ hnever hq⟩

open SampleClosed in
/-- MSG2, the DATA frame and one CLOSE frame are written. -/
theorem silent_after_close_iff_sample :
    ((responder.runSteps closingLast).map fun p ↦ (p.1.written p.2).length) = [1, 0, 1, 1] ∧
      SilentAfterClose (responder.runSteps closingLast) := by
  refine ⟨by decide +kernel, (silent_after_close_iff sodium_lawful responder closingLast).mpr ?_⟩
  refine unasked_of_last fun p hp ↦ ?_
  have hall : (responder.runSteps closingLast).dropLast.all (fun p ↦ !p.2.isClose) = true := by
    decide +kernel
  simpa using List.all_eq_true.mp hall p hp

end AttestP2P
