import AttestP2P.Session.Chunks

/-!
# Frames that come late

After a CLOSE frame the connection is closed, but its socket is still there until the other end
closes it too, and what arrives meanwhile is decoded.  The loop of `_onData` drops the frames that
come in the same chunk as the CLOSE frame.  Of a later chunk it handles the first frame and drops
the others.  Whether a stream was cut there can be seen if that frame is one that the session still
takes for something: DATA, REKEY, REKEY_ACK or CLOSE.

* `SecureConnection.Inert` are the frames that it does not take for anything;
  `onFrame_of_inert` and `onFrame_of_not_inert` say that these, and only these, leave no trace at a
  closed connection.
* `SessionState.Holds` is where the decoder of an endpoint stands between two chunks.
* `Holds.arrives_open`, `Holds.arrives_closed` and `Holds.arrives_malformed` are the three
  inductions over the chunks of a stream: at an open endpoint, after CLOSE, and with an oversize
  header in it.
-/

set_option autoImplicit false

namespace AttestP2P

variable {S : Suite Buffer}

/-! ## Frames that come late -/

/-- What is observed of a connection: the events it emits, and the frames it writes. -/
def observe (w : List (Effect S)) : List (Effect S) × List Buffer := (emitted w, writes w)

theorem observe_append (w w' : List (Effect S)) :
    observe (w ++ w') = ((observe w).1 ++ (observe w').1, (observe w).2 ++ (observe w').2) := by
  rw [observe, emitted_append, writes_append]
  rfl

namespace SecureConnection

/-- The session does not take the frame for anything: it does not open, or to DATA that is truncated
or has an old sequence number, or to a type that does not exist. -/
def Inert (c : SecureConnection S) (frame : Buffer) : Prop :=
  ∀ s pt, c.session = some s → s.open frame = .ok pt →
    pt.headD ctrlData ≠ ctrlRekey ∧ pt.headD ctrlData ≠ ctrlRekeyAck ∧
      pt.headD ctrlData ≠ ctrlClose ∧
      (pt.headD ctrlData = ctrlData →
        pt.length < 9 ∨ c.rxSeq.any (pt.readBigUInt64BE 1 ≤ ·) = true)

variable {c : SecureConnection S} {s : SecureSession S} {frame : Buffer} {nonce : S.Nonce}
  {now : ℕ}

/-- What is not changed by a frame a closed connection does not take for anything. -/
structure Idle (c c' : SecureConnection S) (w : List (Effect S)) : Prop where
  closed : c'.closed = true
  session : c'.session = c.session
  rxSeq : c'.rxSeq = c.rxSeq
  decoder : c'.decoder = c.decoder
  observe : observe w = ([], [])
  destroy : w.any Effect.isDestroy = false

theorem idle_of_report (hclosed : c.closed = true) (r : SessionReport) (start count : ℕ) :
    Idle c { c with msgWindowStart := start, msgCount := count } [.report r] :=
  ⟨hclosed, rfl, rfl, rfl, rfl, rfl⟩

theorem msgAllow_of_closed (hclosed : c.closed = true) (now : ℕ) (err : String) :
    ∃ start count, (c.msgAllow now).1.fail err =
      ({ c with msgWindowStart := start, msgCount := count }, []) := by
  obtain ⟨start, count, hc⟩ := msgAllow_eq c now
  refine ⟨start, count, ?_⟩
  rw [hc]
  exact @fail_of_closed S { c with msgWindowStart := start, msgCount := count } hclosed err

/-- **A closed connection ignores an inert frame**: no listener is told of it, and nothing is
written. -/
theorem onFrame_of_inert (hclosed : c.closed = true) (hs : c.session = some s)
    (h : c.Inert frame) :
    Idle c (c.onFrame frame true nonce now).1 (c.onFrame frame true nonce now).2 := by
  rw [onFrame_of_handleFrame, handleFrame_of_session hs, handleTransport]
  have hreport : ∀ e, Idle c (c.fail e).1 ([] ++ (.report (.cryptoError e) :: (c.fail e).2)) := by
    intro e
    rw [fail_of_closed hclosed]
    exact idle_of_report hclosed _ c.msgWindowStart c.msgCount
  cases hopen : s.open frame with
  | error e => exact hreport e
  | ok pt =>
    obtain ⟨hrekey, hack, hclose, hdata⟩ := h s pt hs hopen
    by_cases htype : pt.headD ctrlData = ctrlData
    · simp only [htype, if_true]
      rcases hdata htype with hlen | hrx
      · rw [handleData_of_short hlen]
        exact hreport _
      · by_cases hlen : pt.length < 9
        · rw [handleData_of_short hlen]
          exact hreport _
        · cases hallow : (c.msgAllow now).2 with
          | false =>
            rw [handleData_of_limited hlen hallow]
            obtain ⟨start, count, hc⟩ := msgAllow_of_closed hclosed now
              "rate limit session dépassé"
            simp only [hc]
            exact idle_of_report hclosed _ start count
          | true =>
            rw [handleData_of_replayed hlen hallow hrx]
            obtain ⟨start, count, hc⟩ := msgAllow_of_closed hclosed now
              ("rejeu applicatif détecté (seq " ++ toString (pt.readBigUInt64BE 1) ++ ")")
            simp only [hc]
            exact idle_of_report hclosed _ start count
    · simp only [htype, hrekey, hack, hclose, if_false]
      exact hreport _

/-- **It emits an event for any other**, within the rate limit. -/
theorem onFrame_of_not_inert (hclosed : c.closed = true) (h : ¬ c.Inert frame)
    (hallow : (c.msgAllow now).2 = true) : emitted (c.onFrame frame true nonce now).2 ≠ [] := by
  simp only [Inert, not_forall] at h
  obtain ⟨s, pt, hs, hopen, h⟩ := h
  rw [onFrame_of_handleFrame, handleFrame_of_session hs, handleTransport]
  simp only [hopen]
  by_cases hrekey : pt.headD ctrlData = ctrlRekey
  · have hw : write { c with session := some s.rekeyRx } (s.rekeyRx.seal nonce [ctrlRekeyAck]) =
        .ok [] := if_pos hclosed
    simp only [hrekey, show ctrlRekey ≠ ctrlData by decide, if_false, if_true, hw]
    exact List.cons_ne_nil _ _
  · by_cases hack : pt.headD ctrlData = ctrlRekeyAck
    · simp only [hack, show ctrlRekeyAck ≠ ctrlData by decide,
        show ctrlRekeyAck ≠ ctrlRekey by decide, if_false, if_true]
      exact List.cons_ne_nil _ _
    · by_cases hclose : pt.headD ctrlData = ctrlClose
      · simp only [hclose, show ctrlClose ≠ ctrlData by decide,
          show ctrlClose ≠ ctrlRekey by decide, show ctrlClose ≠ ctrlRekeyAck by decide,
          if_false, if_true]
        exact List.cons_ne_nil _ _
      · simp only [hrekey, hack, hclose, ne_eq, not_false_eq_true, true_and, Classical.not_imp,
          not_or] at h
        obtain ⟨hdata, hlen, hrx⟩ := h
        simp only [hdata, if_true]
        rw [handleData_of_new hlen hallow hrx]
        exact List.cons_ne_nil _ _

theorem Inert.congr {c' : SecureConnection S} (h : c.Inert frame) (hs : c'.session = c.session)
    (hrx : c'.rxSeq = c.rxSeq) : c'.Inert frame := by
  intro s pt hs' hopen
  rw [hrx]
  exact h s pt (hs ▸ hs') hopen

end SecureConnection

namespace SessionState

open SecureConnection

variable {x : SessionState S} {ν : ℕ → S.Nonce} {r : Receipt}

theorem effects_arrive (x : SessionState S) (r : Receipt) :
    ∃ w, (x.arrive ν r).effects = x.effects ++ w := by
  rw [arrive]
  split
  · exact ⟨[], (List.append_nil _).symm⟩
  · exact ⟨_, rfl⟩

theorem effects_foldl_arrive (x : SessionState S) (rs : List Receipt) :
    ∃ w, (rs.foldl (arrive ν) x).effects = x.effects ++ w := by
  induction rs generalizing x with
  | nil => exact ⟨[], (List.append_nil _).symm⟩
  | cons r rs ih =>
    obtain ⟨w, hw⟩ := effects_arrive (ν := ν) x r
    obtain ⟨w', hw'⟩ := ih (x.arrive ν r)
    exact ⟨w ++ w', by rw [List.foldl_cons, hw', hw, List.append_assoc]⟩

theorem unlimited_of_foldl {rs : List Receipt} (h : Unlimited (rs.foldl (arrive ν) x).effects) :
    Unlimited x.effects := by
  obtain ⟨w, hw⟩ := effects_foldl_arrive (ν := ν) x rs
  rw [hw, unlimited_append] at h
  exact h.1

/-- Where the decoder of an endpoint stands: the bytes it holds complete no frame, and the socket
still takes data. -/
structure Holds (x : SessionState S) (max : ℕ) (b : Buffer) : Prop where
  decoder : x.conn.decoder = ⟨max, b⟩
  live : x.destroyed = false
  more : (frameCutter max).cut b = .more

variable {max : ℕ} {b : Buffer}

theorem Holds.arrive (h : x.Holds max b)
    (hvalid : (frameCutter max).malformed ((frameCutter max).split (b ++ r.chunk)).2 = none) :
    x.arrive ν r = x.afterFrames
      (onFrames { x.conn with decoder := ⟨max, ((frameCutter max).split (b ++ r.chunk)).2⟩ }
        (payloads max (b ++ r.chunk)) fun i ↦
          { allowFrame := r.allowFrame i, nonce := ν (x.handled + i), now := r.now i,
            calls := [] }) := by
  have hmax : x.conn.decoder.max = max := by rw [h.decoder]
  have hbytes : x.bytes r = b ++ r.chunk := by rw [bytes, h.decoder]
  have harrive := arrive_of_valid (ν := ν) (r := r) h.live (by rwa [hmax, hbytes])
  rw [hmax, hbytes] at harrive
  exact harrive

/-- A chunk at an open endpoint, which plays its frames in order and keeps what is incomplete. -/
theorem Holds.arrive_open (h : x.Holds max b) (hopen : x.conn.closed = false)
    (hvalid : (frameCutter max).malformed ((frameCutter max).split (b ++ r.chunk)).2 = none)
    (hun : Unlimited (x.arrive ν r).effects) :
    (x.arrive ν r).bare = (payloads max (b ++ r.chunk)).foldl (play ν) x.bare ∧
      (x.arrive ν r).conn.decoder = ⟨max, ((frameCutter max).split (b ++ r.chunk)).2⟩ ∧
      Left (x.arrive ν r).conn (x.arrive ν r).destroyed := by
  rw [h.arrive hvalid] at hun ⊢
  let y : SessionState S := { x with
    conn := { x.conn with decoder := ⟨max, ((frameCutter max).split (b ++ r.chunk)).2⟩ } }
  have hplay := @onFrames_eq_play S y ν (payloads max (b ++ r.chunk))
    (fun i ↦ { allowFrame := r.allowFrame i, nonce := ν (x.handled + i), now := r.now i,
               calls := [] })
    hopen (fun i ↦ ⟨rfl, rfl⟩) (unlimited_append.mp hun).2
  obtain ⟨hbare, hdecoder, hleft⟩ := hplay
  refine ⟨hbare, hdecoder, ?_⟩
  rw [afterFrames, act, h.live, Bool.false_or]
  exact hleft

/-- A chunk at a closed endpoint, all of whose frames are inert. -/
theorem Holds.arrive_closed (h : x.Holds max b) (hclosed : x.conn.closed = true)
    {s : SecureSession S} (hs : x.conn.session = some s)
    (hvalid : (frameCutter max).malformed ((frameCutter max).split (b ++ r.chunk)).2 = none)
    (hinert : ∀ f ∈ payloads max (b ++ r.chunk), x.conn.Inert f)
    (hun : Unlimited (x.arrive ν r).effects) :
    (x.arrive ν r).Holds max ((frameCutter max).split (b ++ r.chunk)).2 ∧
      (x.arrive ν r).conn.closed = true ∧ (x.arrive ν r).conn.session = x.conn.session ∧
      (x.arrive ν r).conn.rxSeq = x.conn.rxSeq ∧
      observe (x.arrive ν r).effects = observe x.effects := by
  have hmore := Cutter.cut_rest_of_not_malformed hvalid
  rw [h.arrive hvalid] at hun ⊢
  cases hframes : payloads max (b ++ r.chunk) with
  | nil =>
    refine ⟨⟨rfl, ?_, hmore⟩, hclosed, rfl, rfl, ?_⟩
    · exact (Bool.or_false _).trans h.live
    · exact congrArg observe (List.append_nil _)
  | cons f fs =>
    rw [hframes] at hun hinert
    let c : SecureConnection S := { x.conn with
      decoder := ⟨max, ((frameCutter max).split (b ++ r.chunk)).2⟩ }
    have hinert' : c.Inert f := (hinert f List.mem_cons_self).congr rfl rfl
    rw [onFrames_of_closed (c := c) hclosed] at hun ⊢
    have hallow := allowFrame_of_unlimited rfl (unlimited_append.mp hun).2
    rw [onTurn_of_quiet rfl, hallow]
    have hidle := @onFrame_of_inert S c s f (ν (x.handled + 0)) (r.now 0) hclosed hs hinert'
    refine ⟨⟨hidle.decoder, ?_, hmore⟩, hidle.closed, hidle.session, hidle.rxSeq, ?_⟩
    · exact (Bool.or_eq_false_iff.mpr ⟨h.live, hidle.destroy⟩)
    · refine (observe_append x.effects _).trans ?_
      rw [hidle.observe]
      exact Prod.ext (List.append_nil _) (List.append_nil _)

theorem streamOf_cons (r : Receipt) (rs : List Receipt) :
    streamOf (r :: rs) = r.chunk ++ streamOf rs :=
  rfl

theorem payloads_append (max : ℕ) (b c : Buffer) :
    payloads max (b ++ c) =
      payloads max b ++ payloads max (((frameCutter max).split b).2 ++ c) := by
  rw [payloads, Cutter.split_append, List.map_append]
  rfl

/-- **A closed endpoint is not heard again**, if all frames still to come are inert. -/
theorem Holds.arrives_closed {rs : List Receipt} (h : x.Holds max b)
    (hclosed : x.conn.closed = true) {s : SecureSession S} (hs : x.conn.session = some s)
    (hvalid : (frameCutter max).malformed ((frameCutter max).split (b ++ streamOf rs)).2 = none)
    (hinert : ∀ f ∈ payloads max (b ++ streamOf rs), x.conn.Inert f)
    (hun : Unlimited (rs.foldl (SessionState.arrive ν) x).effects) :
    observe (rs.foldl (SessionState.arrive ν) x).effects = observe x.effects := by
  induction rs generalizing x b with
  | nil => rfl
  | cons r rs ih =>
    rw [streamOf_cons, ← List.append_assoc] at hvalid hinert
    rw [payloads_append] at hinert
    rw [Cutter.split_append] at hvalid
    have hnow : (frameCutter max).malformed ((frameCutter max).split (b ++ r.chunk)).2 = none := by
      refine Cutter.malformed_of_append (c := streamOf rs) ?_
      rwa [Cutter.split_append]
    obtain ⟨hholds, hclosed', hsession, hrx, hobserve⟩ := h.arrive_closed hclosed hs hnow
      (fun f hf ↦ hinert f (List.mem_append_left _ hf)) (unlimited_of_foldl hun)
    rw [List.foldl_cons, ih hholds hclosed' (hsession.trans hs) hvalid ?_ hun, hobserve]
    exact fun f hf ↦ (hinert f (List.mem_append_right _ hf)).congr hsession hrx

/-- The frames that come after the endpoint is closed by a CLOSE frame are inert. -/
def LateInert (ν : ℕ → S.Nonce) (x : SessionState S) (frames : List Buffer) : Prop :=
  ∀ fs f gs, frames = fs ++ f :: gs → (fs.foldl (play ν) x.bare).conn.closed = true →
    (fs.foldl (play ν) x.bare).destroyed = false → (fs.foldl (play ν) x.bare).conn.Inert f

/-- **An open endpoint plays the frames of the stream**, however it is cut up. -/
theorem Holds.arrives_open {rs : List Receipt} (h : x.Holds max b) (hopen : x.conn.closed = false)
    (hvalid : (frameCutter max).malformed ((frameCutter max).split (b ++ streamOf rs)).2 = none)
    (hinert : x.LateInert ν (payloads max (b ++ streamOf rs)))
    (hun : Unlimited (rs.foldl (SessionState.arrive ν) x).effects) :
    observe (rs.foldl (SessionState.arrive ν) x).effects =
      observe ((payloads max (b ++ streamOf rs)).foldl (play ν) x.bare).effects := by
  induction rs generalizing x b with
  | nil =>
    have hnone : payloads max (b ++ streamOf []) = [] := by
      rw [streamOf, List.map_nil, List.flatten_nil, List.append_nil, payloads,
        Cutter.split_of_more h.more]
      rfl
    rw [hnone]
    rfl
  | cons r rs ih =>
    rw [streamOf_cons, ← List.append_assoc] at hvalid hinert ⊢
    rw [payloads_append] at hinert ⊢
    rw [Cutter.split_append] at hvalid
    have hnow : (frameCutter max).malformed ((frameCutter max).split (b ++ r.chunk)).2 = none := by
      refine Cutter.malformed_of_append (c := streamOf rs) ?_
      rwa [Cutter.split_append]
    obtain ⟨hbare, hdecoder, hleft⟩ := h.arrive_open hopen hnow (unlimited_of_foldl hun)
    have hmore := Cutter.cut_rest_of_not_malformed hnow
    rw [List.foldl_cons, List.foldl_append, ← hbare]
    cases hleft with
    | opened hopen' hd =>
      refine ih ⟨hdecoder, hd, hmore⟩ hopen' hvalid (fun fs f gs hfs ↦ ?_) hun
      have hsplit := hinert (payloads max (b ++ r.chunk) ++ fs) f gs
        (by rw [hfs, List.append_assoc])
      rwa [List.foldl_append, ← hbare] at hsplit
    | destroyed hclosed hd =>
      have hbare' : (SessionState.arrive ν x r).bare.conn.closed = true := hclosed
      rw [foldl_arrive_of_destroyed hd, foldl_play_of_closed hbare']
      rfl
    | ended hclosed hd hs =>
      obtain ⟨s, hs⟩ := Option.isSome_iff_exists.mp hs
      have hbare' : (SessionState.arrive ν x r).bare.conn.closed = true := hclosed
      rw [foldl_play_of_closed hbare']
      refine Holds.arrives_closed ⟨hdecoder, hd, hmore⟩ hclosed hs hvalid (fun f hf ↦ ?_) hun
      obtain ⟨fs, gs, hfs⟩ := List.append_of_mem hf
      have hsplit := hinert (payloads max (b ++ r.chunk) ++ fs) f gs
        (by rw [hfs, List.append_assoc])
      rw [List.foldl_append, ← hbare, foldl_play_of_closed hbare'] at hsplit
      exact (hsplit hclosed hd).congr rfl rfl

/-- The endpoint has failed with the error `e`, and its listeners have been told so. -/
theorem observe_failed {c : SecureConnection S} (hopen : c.closed = false) (report : SessionReport)
    (e : String) :
    observe (x.effects ++ (.report report :: (c.fail e).2)) =
      (emitted x.effects ++ [.error e], writes x.effects) := by
  rw [fail_of_open hopen, observe_append]
  exact Prod.ext rfl (List.append_nil _)

/-- An open endpoint without a session plays a frame the handshake rejects. -/
theorem play_of_rejected (hopen : x.conn.closed = false) (hs : x.conn.session = none) {f : Buffer}
    {e : String} (hon : (x.conn.hs.onFrame f).2 = .error e) :
    ∃ c : SecureConnection S, c.closed = false ∧
      play ν x.bare f =
        { x.bare.act (c.fail e).1.bare (.report (.cryptoError e) :: (c.fail e).2) with
          handled := x.handled + 1 } := by
  let y : SecureConnection S := { x.bare.conn.bare with hs := (x.conn.hs.onFrame f).1 }
  have hframe : x.bare.conn.bare.handleFrame f (ν x.bare.handled) 0 = (y, [], .error e) := by
    have hpair : x.bare.conn.bare.hs.onFrame f = ((x.conn.hs.onFrame f).1, .error e) :=
      Prod.ext rfl hon
    rw [handleFrame, show x.bare.conn.bare.session = none from hs]
    simp only [hpair]
    exact Prod.ext (congrArg (fun s ↦ { y with session := s }) hs.symm) rfl
  refine ⟨y, hopen, ?_⟩
  rw [play_of_open (x := x.bare) hopen, onFrame_of_handleFrame, hframe]
  rfl

/-- The first complete frame is one the handshake rejects, with the error `e`. -/
def FirstRejected (x : SessionState S) (e : String) (frames : List Buffer) : Prop :=
  ∀ f fs, frames = f :: fs → (x.conn.hs.onFrame f).2 = .error e

/-- **A stream with an oversize header**, before which no frame is complete, or one that is rejected
with the same error. -/
theorem Holds.arrives_malformed {rs : List Receipt} {e : String} (h : x.Holds max b)
    (hopen : x.conn.closed = false) (hs : x.conn.session = none)
    (hbad : (frameCutter max).malformed ((frameCutter max).split (b ++ streamOf rs)).2 = some e)
    (hfirst : x.FirstRejected e (payloads max (b ++ streamOf rs)))
    (hun : Unlimited (rs.foldl (SessionState.arrive ν) x).effects) :
    observe (rs.foldl (SessionState.arrive ν) x).effects =
      (emitted x.effects ++ [.error e], writes x.effects) := by
  induction rs generalizing x b with
  | nil =>
    rw [streamOf, List.map_nil, List.flatten_nil, List.append_nil, Cutter.split_of_more h.more]
      at hbad
    exact absurd (h.more.symm.trans (Cutter.malformed_eq_some.mp hbad)) nofun
  | cons r rs ih =>
    rw [streamOf_cons, ← List.append_assoc] at hbad hfirst
    rw [List.foldl_cons] at hun ⊢
    cases hnow : (frameCutter max).malformed ((frameCutter max).split (b ++ r.chunk)).2 with
    | some e' =>
      obtain rfl := Option.some.inj ((Cutter.malformed_append hnow _).symm.trans hbad)
      have hmax : x.conn.decoder.max = max := by rw [h.decoder]
      have hbytes : x.bytes r = b ++ r.chunk := by rw [bytes, h.decoder]
      obtain ⟨d, harrive⟩ := arrive_of_malformed (ν := ν) (r := r) h.live (by rwa [hmax, hbytes])
      have hd : (SessionState.arrive ν x r).destroyed = true := by
        rw [harrive, fail_of_open (c := { x.conn with decoder := d }) hopen]
        exact Bool.or_true _
      rw [foldl_arrive_of_destroyed hd, harrive]
      exact observe_failed (c := { x.conn with decoder := d }) hopen _ e'
    | none =>
      rw [payloads_append] at hfirst
      obtain ⟨hbare, hdecoder, hleft⟩ := h.arrive_open hopen hnow (unlimited_of_foldl hun)
      cases hframes : payloads max (b ++ r.chunk) with
      | nil =>
        rw [hframes] at hbare hfirst
        have hy := h.arrive (ν := ν) hnow
        rw [hframes] at hy
        rw [Cutter.split_append] at hbad
        have heffects : (SessionState.arrive ν x r).effects = x.effects := by
          rw [hy]
          exact List.append_nil _
        rw [ih ⟨hdecoder, ?_, Cutter.cut_rest_of_not_malformed hnow⟩ ?_ ?_ hbad ?_ hun, heffects]
        all_goals rw [hy]
        · exact (Bool.or_false _).trans h.live
        · exact hopen
        · exact hs
        · exact hfirst
      | cons f fs =>
        rw [hframes] at hbare hfirst
        obtain ⟨c, hc, hplay⟩ := play_of_rejected (ν := ν) hopen hs (hfirst f _ rfl)
        rw [List.foldl_cons, hplay] at hbare
        rw [foldl_play_of_closed (fail_closed c e)] at hbare
        have hd : (SessionState.arrive ν x r).destroyed = true := by
          show (SessionState.arrive ν x r).bare.destroyed = true
          rw [hbare, fail_of_open hc]
          exact Bool.or_true _
        rw [foldl_arrive_of_destroyed hd]
        show observe (SessionState.arrive ν x r).bare.effects = _
        rw [hbare]
        exact observe_failed hc _ e

end SessionState

end AttestP2P
