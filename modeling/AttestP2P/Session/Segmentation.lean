import AttestP2P.Session.LateFrames

/-!
# One stream, two segmentations

`_onData` decodes a whole chunk before it handles any of its frames.  So it matters what comes in
one chunk, in two cases: a header that is too large makes `push` throw, and the frames that are
complete before it are lost; and the frames after a CLOSE frame are dropped if they come in the same
chunk, while the first of any later chunk is handled.  These are the only cases.

* `SegmentationFree` is the property: however a stream is cut up, the same events are emitted and
  the same frames are written.  `Clear` is the condition, and speaks of the stream alone.
* `Fresh.segmentationFree` is one direction.  Whatever the segmentation, what is observed is what is
  observed when the frames are played one by one.
* For the other direction it takes two segmentations that differ, with all frames more than a second
  apart so that no limit is reached (`spaced`): the stream in one chunk, and the stream cut once,
  before the header or after the CLOSE frame.
* `segmentationFree_iff` puts the two together.
-/

set_option autoImplicit false

namespace AttestP2P

variable {S : Suite Buffer}

namespace SessionState

open SecureConnection

variable {x : SessionState S} {ν : ℕ → S.Nonce}

/-! ## The property and the condition -/

/-- However a stream is cut up, the same is observed, if no rate limit is reached. -/
def SegmentationFree (ν : ℕ → S.Nonce) (x : SessionState S) (stream : Buffer) : Prop :=
  ∀ rs rs', streamOf rs = stream → streamOf rs' = stream →
    Unlimited (rs.foldl (arrive ν) x).effects → Unlimited (rs'.foldl (arrive ν) x).effects →
    observe (rs.foldl (arrive ν) x).effects = observe (rs'.foldl (arrive ν) x).effects

/-- If there is an oversize header, no frame is complete before it, or the first is rejected with
the same error; if there is none, what follows a CLOSE frame is inert. -/
def Clear (ν : ℕ → S.Nonce) (x : SessionState S) (stream : Buffer) : Prop :=
  match (frameCutter sessionMaxFrame).malformed
      ((frameCutter sessionMaxFrame).split stream).2 with
  | some e => x.FirstRejected e (payloads sessionMaxFrame stream)
  | none => x.LateInert ν (payloads sessionMaxFrame stream)

/-- An endpoint that has not received anything yet; what it is going to do depends on the bytes, and
on when they come. -/
structure Fresh (x : SessionState S) : Prop where
  holds : x.Holds sessionMaxFrame []
  opened : x.conn.closed = false
  session : x.conn.session = none
  limit : 1 ≤ x.conn.maxMsgPerSecond
  unlimited : Unlimited x.effects

theorem Fresh.segmentationFree (h : x.Fresh) {stream : Buffer} (hclear : x.Clear ν stream) :
    x.SegmentationFree ν stream := by
  intro rs rs' hrs hrs' hun hun'
  rw [Clear] at hclear
  cases hbad : (frameCutter sessionMaxFrame).malformed
      ((frameCutter sessionMaxFrame).split stream).2 with
  | some e =>
    rw [hbad] at hclear
    have hobserve : ∀ rs, streamOf rs = stream → Unlimited (rs.foldl (arrive ν) x).effects →
        observe (rs.foldl (arrive ν) x).effects =
          (emitted x.effects ++ [.error e], writes x.effects) := by
      rintro rs rfl hun
      exact h.holds.arrives_malformed h.opened h.session hbad hclear hun
    rw [hobserve rs hrs hun, hobserve rs' hrs' hun']
  | none =>
    rw [hbad] at hclear
    have hobserve : ∀ rs, streamOf rs = stream → Unlimited (rs.foldl (arrive ν) x).effects →
        observe (rs.foldl (arrive ν) x).effects =
          observe ((payloads sessionMaxFrame stream).foldl (play ν) x.bare).effects := by
      rintro rs rfl hun
      exact h.holds.arrives_open h.opened hbad hclear hun
    rw [hobserve rs hrs hun, hobserve rs' hrs' hun']

end SessionState

/-! ## Two segmentations that differ -/

/-- A chunk whose frames are more than a second apart. -/
def spaced (chunk : Buffer) (time : ℕ) : Receipt where
  chunk := chunk
  allowFrame _ := true
  now i := time + 1001 * (i + 1)

namespace SecureConnection

variable {c : SecureConnection S}

/-- Frames more than a second apart do not reach the limit. -/
theorem onFrames_spaced (frames : List Buffer) {time : ℕ} {turn : ℕ → Turn S}
    (hmax : 1 ≤ c.maxMsgPerSecond) (hstart : c.msgWindowStart ≤ time)
    (hturn : ∀ i, (turn i).allowFrame = true ∧ (turn i).calls = [] ∧
      (turn i).now = time + 1001 * (i + 1)) :
    Unlimited (c.onFrames frames turn).2.1 ∧
      (c.onFrames frames turn).1.maxMsgPerSecond = c.maxMsgPerSecond ∧
      (c.onFrames frames turn).1.msgWindowStart ≤ time + 1001 * frames.length := by
  induction frames generalizing c time turn with
  | nil => exact ⟨fun e he ↦ absurd he (by simp [onFrames]), rfl, hstart⟩
  | cons f frames ih =>
    obtain ⟨hallow, hcalls, hnow⟩ := hturn 0
    have hwithin : (c.msgAllow (turn 0).now).2 = true := by
      have hlate : (turn 0).now - c.msgWindowStart > 1000 := by omega
      simp only [msgAllow, hlate, if_true]
      exact decide_eq_true (by omega)
    have hun := onFrame_unlimited hwithin f (turn 0).nonce
    have hkept := c.onFrame_kept f (turn 0).nonce (turn 0).now
    simp only [onFrames, onTurn_of_quiet hcalls, hallow, if_true]
    generalize c.onFrame f true (turn 0).nonce (turn 0).now = r at hun hkept
    obtain ⟨c', w⟩ := r
    have hwindow : c'.msgWindowStart ≤ time + 1001 := by
      rcases hkept.msgWindowStart with h | h <;> (simp only at h; omega)
    rw [List.length_cons]
    cases hclosed : c'.closed with
    | true =>
      have hbound : c'.msgWindowStart ≤ time + 1001 * (frames.length + 1) :=
        hwindow.trans (by omega)
      simp only [if_true]
      exact ⟨hun, hkept.maxMsgPerSecond, hbound⟩
    | false =>
      have hlater : ∀ i, (turn (i + 1)).allowFrame = true ∧ (turn (i + 1)).calls = [] ∧
          (turn (i + 1)).now = time + 1001 + 1001 * (i + 1) := by
        intro i
        obtain ⟨hallow, hcalls, hnow⟩ := hturn (i + 1)
        exact ⟨hallow, hcalls, by rw [hnow, Nat.mul_succ 1001 (i + 1)]; omega⟩
      simp only [Bool.false_eq_true, if_false]
      obtain ⟨hun', hmax', hwindow'⟩ := @ih c' (time + 1001) (fun i ↦ turn (i + 1))
        (by rw [hkept.maxMsgPerSecond]; exact hmax) hwindow hlater
      refine ⟨unlimited_append.mpr ⟨hun, hun'⟩, hmax'.trans hkept.maxMsgPerSecond,
        hwindow'.trans ?_⟩
      rw [Nat.mul_succ]
      omega

theorem unlimited_report {report : SessionReport}
    (h : (Effect.report report : Effect S).isRateReport = false) (err : String) :
    Unlimited (.report report :: (c.fail err).2) := by
  intro e he
  rcases List.mem_cons.mp he with rfl | he
  · exact h
  · exact unlimited_fail c err e he

theorem encodeFrame_eq_error {frame : Buffer} {e : String} (h : encodeFrame frame = .error e) :
    e = "ERR_OUT_OF_RANGE" := by
  rw [encodeFrame] at h
  split at h
  · cases h
  · exact (Except.error.inj h).symm

theorem replyEffects_eq_error {frames : List Buffer} {e : String}
    (h : c.replyEffects frames = .error e) : e = "ERR_OUT_OF_RANGE" := by
  induction frames with
  | nil => cases h
  | cons f frames ih =>
    rw [replyEffects] at h
    cases hw : c.write f with
    | error e' =>
      rw [hw] at h
      cases h
      rw [write] at hw
      split at hw
      · cases hw
      · cases hencode : encodeFrame f with
        | error e'' =>
          rw [hencode] at hw
          cases hw
          exact encodeFrame_eq_error hencode
        | ok b =>
          rw [hencode] at hw
          cases hw
    | ok w =>
      cases hw' : c.replyEffects frames with
      | error e' =>
        rw [hw, hw'] at h
        cases h
        exact ih hw'
      | ok w' =>
        rw [hw, hw'] at h
        cases h

/-- A frame the handshake accepts is answered, or makes the session. -/
theorem observe_replyEffects {hs hs' : Handshake S} {frame : Buffer} {r : Handshake.Reply S}
    (hopen : c.closed = false) (hon : hs.onFrame frame = (hs', .ok r))
    (hc : c.session = r.session) {w : List (Effect S)} (hw : c.replyEffects r.writes = .ok w) :
    observe w ≠ ([], []) := by
  have hsecure : ∀ s, c.session = some s → ∀ frames w, c.replyEffects frames = .ok w →
      .secure s.peerId ∈ w := by
    intro s hs frames
    induction frames with
    | nil =>
      intro w hw
      cases hw
      rw [hs]
      exact List.mem_singleton_self _
    | cons f frames ih =>
      intro w hw
      rw [replyEffects] at hw
      cases hf : c.write f with
      | error e =>
        rw [hf] at hw
        cases hw
      | ok w₁ =>
        cases hrest : c.replyEffects frames with
        | error e =>
          rw [hf, hrest] at hw
          cases hw
        | ok w₂ =>
          rw [hf, hrest] at hw
          cases hw
          exact List.mem_append_right _ (ih w₂ hrest)
  have hemit : ∀ s, c.session = some s → observe w ≠ ([], []) := by
    intro s hs hnone
    have hmem : (.secure s.peerId : Effect S) ∈ emitted w :=
      List.mem_filter.mpr ⟨hsecure s hs r.writes w hw, rfl⟩
    rw [(Prod.mk.inj hnone).1] at hmem
    cases hmem
  rcases Handshake.onFrame_eq_ok hon with ⟨_, _, _, s, _, _, _, rfl⟩ | ⟨_, _, msg2, _, _, _, rfl⟩ |
    ⟨_, _, _, s, _, _, _, rfl⟩
  · exact hemit s hc
  · intro hnone
    rw [replyEffects, write, hopen] at hw
    cases hencode : encodeFrame msg2 with
    | error e =>
      rw [hencode] at hw
      cases hw
    | ok b =>
      rw [hencode, replyEffects, hc] at hw
      cases hw
      cases (Prod.mk.inj hnone).2
  · exact hemit s hc

/-- The first frame of an endpoint leaves a trace: something is emitted or written, or the
connection fails, with an error of the handshake. -/
theorem onFrame_of_fresh (hopen : c.closed = false) (hs : c.session = none) {frame : Buffer}
    {e : String} (hne : (c.hs.onFrame frame).2 ≠ .error e) (he : e ≠ "ERR_OUT_OF_RANGE")
    (nonce : S.Nonce) (now : ℕ) :
    (c.onFrame frame true nonce now).1.closed = false ∧
        observe (c.onFrame frame true nonce now).2 ≠ ([], []) ∨
      (c.onFrame frame true nonce now).2.any Effect.isDestroy = true ∧
        emitted (c.onFrame frame true nonce now).2 ≠ [.error e] := by
  rw [onFrame_of_handleFrame, handleFrame, hs]
  have hfail : ∀ c' : SecureConnection S, c'.closed = false → ∀ e', e' ≠ e →
      ((.report (.cryptoError e') :: (c'.fail e').2 : List (Effect S)).any Effect.isDestroy =
        true) ∧ emitted (.report (.cryptoError e') :: (c'.fail e').2) ≠ [.error e] := by
    intro c' hc' e' hne'
    rw [fail_of_open hc']
    refine ⟨rfl, fun h ↦ hne' ?_⟩
    exact Effect.error.inj (List.cons.inj (show [Effect.error e'] = [.error e] from h)).1
  cases hon : c.hs.onFrame frame with
  | mk hs' r =>
    cases r with
    | error e' =>
      refine .inr (hfail { c with hs := hs', session := none } hopen e' fun h ↦ hne ?_)
      rw [hon, h]
    | ok r =>
      simp only
      cases hw : replyEffects { c with hs := hs', session := r.session } r.writes with
      | error e' =>
        refine .inr (hfail { c with hs := hs', session := r.session } hopen e' fun h ↦ he ?_)
        rw [← h]
        exact replyEffects_eq_error hw
      | ok w =>
        exact .inl ⟨hopen, observe_replyEffects (c := { c with hs := hs', session := r.session })
          hopen hon rfl hw⟩

end SecureConnection

namespace SessionState

open SecureConnection

variable {x : SessionState S} {ν : ℕ → S.Nonce} {max time : ℕ} {b chunk : Buffer}

/-- The session's limit is not reached before `time`. -/
structure Rested (x : SessionState S) (time : ℕ) : Prop where
  limit : 1 ≤ x.conn.maxMsgPerSecond
  start : x.conn.msgWindowStart ≤ time
  unlimited : Unlimited x.effects

/-- A spaced chunk does not reach the limit, since the windows before it are over. -/
theorem Rested.arrive (h : x.Rested time) (hx : x.conn.decoder = ⟨max, b⟩) :
    (x.arrive ν (spaced chunk time)).Rested
      (time + 1001 * (payloads max (b ++ chunk)).length) := by
  cases hd : x.destroyed with
  | true =>
    rw [arrive_of_destroyed hd]
    exact ⟨h.limit, h.start.trans (Nat.le_add_right _ _), h.unlimited⟩
  | false =>
  have hmax : x.conn.decoder.max = max := by rw [hx]
  have hbytes : x.bytes (spaced chunk time) = b ++ chunk := by rw [bytes, hx]; rfl
  cases hbad : (frameCutter max).malformed ((frameCutter max).split (b ++ chunk)).2 with
  | some e =>
    obtain ⟨d, harrive⟩ := arrive_of_malformed (ν := ν) (r := spaced chunk time) hd
      (by rwa [hmax, hbytes])
    rw [harrive]
    refine ⟨?_, ?_, unlimited_append.mpr ⟨h.unlimited, unlimited_report rfl e⟩⟩
    · rw [fail]
      split <;> exact h.limit
    · rw [fail]
      split <;> exact h.start.trans (Nat.le_add_right _ _)
  | none =>
    obtain ⟨hun, hlimit, hstart⟩ := @onFrames_spaced S
      { x.conn with decoder := ⟨max, ((frameCutter max).split (b ++ chunk)).2⟩ }
      (payloads max (b ++ chunk)) time
      (fun i ↦ { allowFrame := true, nonce := ν (x.handled + i), now := time + 1001 * (i + 1),
                 calls := [] })
      h.limit h.start fun i ↦ ⟨rfl, rfl, rfl⟩
    have harrive := arrive_of_valid (ν := ν) (r := spaced chunk time) hd (by rwa [hmax, hbytes])
    rw [hmax, hbytes] at harrive
    rw [harrive]
    exact ⟨h.limit.trans_eq hlimit.symm, hstart, unlimited_append.mpr ⟨h.unlimited, hun⟩⟩

/-- A frame that comes late, and is not inert, is heard. -/
theorem Holds.arrive_late (hx : x.Holds max b) (h : x.Rested time) (hclosed : x.conn.closed = true)
    (hvalid : (frameCutter max).malformed ((frameCutter max).split (b ++ chunk)).2 = none)
    {f : Buffer} {fs : List Buffer} (hframes : payloads max (b ++ chunk) = f :: fs)
    (hlate : ¬ x.conn.Inert f) :
    ∃ w, (x.arrive ν (spaced chunk time)).effects = x.effects ++ w ∧ emitted w ≠ [] := by
  let c : SecureConnection S := { x.conn with
    decoder := ⟨max, ((frameCutter max).split (b ++ chunk)).2⟩ }
  have harrive := hx.arrive (ν := ν) (r := spaced chunk time) hvalid
  rw [show (spaced chunk time).chunk = chunk from rfl, hframes,
    onFrames_of_closed (c := c) hclosed, onTurn_of_quiet rfl] at harrive
  refine ⟨_, by rw [harrive]; rfl, ?_⟩
  refine onFrame_of_not_inert hclosed (fun hinert ↦ hlate (hinert.congr rfl rfl)) ?_
  have hafter : time + 1001 * (0 + 1) - x.conn.msgWindowStart > 1000 := by
    have hstart := h.start
    omega
  have hrested : (c.msgAllow (time + 1001 * (0 + 1))).2 =
      decide (0 + 1 ≤ x.conn.maxMsgPerSecond) := by
    simp only [msgAllow, show c.msgWindowStart = x.conn.msgWindowStart from rfl, hafter, if_true]
    rfl
  exact hrested.trans (decide_eq_true h.limit)

/-- Where a stream can be cut, so that the first frames are in the first chunk. -/
theorem exists_cut {stream : Buffer} {fs gs : List Buffer} (h : payloads max stream = fs ++ gs) :
    ∃ chunk chunk', stream = chunk ++ chunk' ∧ ((frameCutter max).split chunk).2 = [] ∧
      payloads max chunk = fs ∧ payloads max chunk' = gs ∧
      ((frameCutter max).split chunk').2 = ((frameCutter max).split stream).2 := by
  obtain ⟨items, items', hitems, rfl, rfl⟩ := List.map_eq_append_iff.mp h
  have hsplit : (frameCutter max).split items.flatten = (items, []) := by
    have hcomplete : ∀ i ∈ items, (frameCutter max).Complete i := fun i hi ↦
      Cutter.complete_of_mem_split (b := stream) (hitems ▸ List.mem_append_left _ hi)
    have hflat := Cutter.split_flatten_append hcomplete []
    rwa [List.append_nil, Cutter.split_nil, List.append_nil] at hflat
  have hstream : stream =
      items.flatten ++ (items'.flatten ++ ((frameCutter max).split stream).2) := by
    rw [← List.append_assoc, ← List.flatten_append, ← hitems, Cutter.flatten_split]
  have hrest := Cutter.split_append (C := frameCutter max) items.flatten
    (items'.flatten ++ ((frameCutter max).split stream).2)
  rw [← hstream, hsplit, List.nil_append] at hrest
  refine ⟨_, _, hstream, by rw [hsplit], by rw [payloads, hsplit], ?_, ?_⟩
  · have hlater := congrArg Prod.fst hrest
    rw [hitems] at hlater
    rw [payloads, ← List.append_cancel_left hlater]
  · exact (congrArg Prod.snd hrest).symm

/-- The text of an oversize header is not that of a length out of range. -/
theorem oversize_ne {e : String}
    (h : (frameCutter max).malformed ((frameCutter max).split b).2 = some e) :
    e ≠ "ERR_OUT_OF_RANGE" := by
  have hcut : cutFrame max ((frameCutter max).split b).2 = .bad e := Cutter.malformed_eq_some.mp h
  rw [cutFrame] at hcut
  split at hcut
  · cases hcut
  · simp only at hcut
    split at hcut
    · rintro rfl
      have hhead := congrArg (fun s : String ↦ s.toList.head?) (Cut.bad.inj hcut)
      simp [String.toList_append] at hhead
    · split at hcut <;> cases hcut

theorem Fresh.rested (h : x.Fresh) : x.Rested x.conn.msgWindowStart :=
  ⟨h.limit, le_rfl, h.unlimited⟩

/-- The endpoint after a first chunk of complete frames. -/
def first (ν : ℕ → S.Nonce) (x : SessionState S) (chunk : Buffer) : SessionState S :=
  x.arrive ν (spaced chunk x.conn.msgWindowStart)

/-- The endpoint after a second chunk, more than a second later. -/
def second (ν : ℕ → S.Nonce) (x : SessionState S) (chunk chunk' : Buffer) : SessionState S :=
  (x.first ν chunk).arrive ν (spaced chunk'
    (x.conn.msgWindowStart + 1001 * (payloads sessionMaxFrame chunk).length))

section
variable {chunk' : Buffer} (h : x.Fresh)
include h

theorem Fresh.rested_first (ν : ℕ → S.Nonce) (chunk : Buffer) : (x.first ν chunk).Rested
    (x.conn.msgWindowStart + 1001 * (payloads sessionMaxFrame chunk).length) :=
  h.rested.arrive h.holds.decoder

theorem Fresh.arrive_first
    (hvalid : (frameCutter sessionMaxFrame).malformed
      ((frameCutter sessionMaxFrame).split chunk).2 = none) :
    (x.first ν chunk).bare = (payloads sessionMaxFrame chunk).foldl (play ν) x.bare ∧
      (x.first ν chunk).conn.decoder =
        ⟨sessionMaxFrame, ((frameCutter sessionMaxFrame).split chunk).2⟩ ∧
      Left (x.first ν chunk).conn (x.first ν chunk).destroyed :=
  h.holds.arrive_open h.opened hvalid (h.rested_first ν chunk).unlimited

/-- One chunk or two: if the segmentation makes no difference, listeners are told the same of two
chunks as of the two in one. -/
theorem Fresh.first_eq_second (hfree : x.SegmentationFree ν (chunk ++ chunk'))
    (hvalid : (frameCutter sessionMaxFrame).malformed
      ((frameCutter sessionMaxFrame).split chunk).2 = none) :
    observe (x.first ν (chunk ++ chunk')).effects = observe (x.second ν chunk chunk').effects :=
  hfree [spaced (chunk ++ chunk') _] [spaced chunk _, spaced chunk' _] (List.append_nil _)
    (by simp [streamOf, spaced])
    (h.rested_first ν _).unlimited
    ((h.rested_first ν chunk).arrive (h.arrive_first hvalid).2.1).unlimited

/-- If there is an oversize header, and a frame before it that leaves a trace, it matters whether
they come in one chunk. -/
theorem Fresh.firstRejected {stream : Buffer} {e : String}
    (hbad : (frameCutter sessionMaxFrame).malformed
      ((frameCutter sessionMaxFrame).split stream).2 = some e)
    (hfree : x.SegmentationFree ν stream) :
    x.FirstRejected e (payloads sessionMaxFrame stream) := by
  intro f fs hframes
  by_contra hne
  obtain ⟨chunk, chunk', rfl, hrest, hchunk, -, hrest'⟩ :=
    exists_cut (show payloads sessionMaxFrame stream = [f] ++ fs from hframes)
  have hvalid : (frameCutter sessionMaxFrame).malformed
      ((frameCutter sessionMaxFrame).split chunk).2 = none := by
    rw [hrest]
    rfl
  have hcut := h.first_eq_second hfree hvalid
  have hwhole : observe (x.first ν (chunk ++ chunk')).effects =
      (emitted x.effects ++ [.error e], writes x.effects) := by
    obtain ⟨d, harrive⟩ := arrive_of_malformed (ν := ν) (e := e)
      (r := spaced (chunk ++ chunk') x.conn.msgWindowStart) h.holds.live
      (by rw [bytes, h.holds.decoder]; exact hbad)
    rw [first, harrive]
    exact observe_failed (c := { x.conn with decoder := d }) h.opened _ e
  rw [hwhole] at hcut
  obtain ⟨hbare, hdecoder, hleft⟩ := h.arrive_first (ν := ν) hvalid
  rw [hchunk, List.foldl_cons, List.foldl_nil, play_of_open (x := x.bare) h.opened] at hbare
  have hfirst := onFrame_of_fresh (c := x.bare.conn.bare) h.opened h.session hne (oversize_ne hbad)
    (ν x.bare.handled) 0
  generalize x.bare.conn.bare.onFrame f true (ν x.bare.handled) 0 = r at hbare hfirst
  have heffects : (x.first ν chunk).effects = x.effects ++ r.2 := by
    show (x.first ν chunk).bare.effects = _
    rw [hbare]
    rfl
  rcases hfirst with ⟨hopen, hobserve⟩ | ⟨hdestroy, hemit⟩
  · have hopen' : (x.first ν chunk).conn.closed = false := by
      show (x.first ν chunk).bare.conn.closed = false
      rw [hbare]
      exact hopen
    have hd : (x.first ν chunk).destroyed = false := by
      cases hleft with
      | opened _ hd => exact hd
      | destroyed hclosed => exact absurd (hopen'.symm.trans hclosed) Bool.false_ne_true
      | ended hclosed => exact absurd (hopen'.symm.trans hclosed) Bool.false_ne_true
    rw [hrest] at hdecoder
    obtain ⟨d, harrive⟩ := arrive_of_malformed (ν := ν) (e := e) (r := spaced chunk'
      (x.conn.msgWindowStart + 1001 * (payloads sessionMaxFrame chunk).length)) hd
      (by rw [bytes, hdecoder]; exact (congrArg _ hrest').trans hbad)
    have hfailed := observe_failed (x := x.first ν chunk)
      (c := { (x.first ν chunk).conn with decoder := d }) hopen' (.oversizeFrame e) e
    rw [second, harrive] at hcut
    have hpair := hcut.trans hfailed
    rw [heffects, emitted_append, writes_append] at hpair
    obtain ⟨hevents, hwrites⟩ := Prod.mk.inj hpair
    rw [List.append_assoc] at hevents
    refine hobserve (Prod.ext ?_ (List.self_eq_append_right.mp hwrites))
    exact List.append_left_eq_self.mp (List.append_cancel_left hevents).symm
  · have hd : (x.first ν chunk).destroyed = true := by
      show (x.first ν chunk).bare.destroyed = true
      rw [hbare]
      exact Bool.or_eq_true_iff.mpr (.inr hdestroy)
    rw [second, arrive_of_destroyed hd, heffects, observe_append] at hcut
    exact hemit (List.append_cancel_left (Prod.mk.inj hcut).1).symm

/-- If a frame comes after a CLOSE frame, and is not inert, it matters whether they come in one
chunk. -/
theorem Fresh.lateInert {stream : Buffer}
    (hvalid : (frameCutter sessionMaxFrame).malformed
      ((frameCutter sessionMaxFrame).split stream).2 = none)
    (hfree : x.SegmentationFree ν stream) :
    x.LateInert ν (payloads sessionMaxFrame stream) := by
  intro fs f gs hframes hclosed hd
  by_contra hlate
  obtain ⟨chunk, chunk', rfl, hrest, hchunk, hchunk', hrest'⟩ := exists_cut hframes
  have hvalid₁ : (frameCutter sessionMaxFrame).malformed
      ((frameCutter sessionMaxFrame).split chunk).2 = none := by
    rw [hrest]
    rfl
  have hcut := h.first_eq_second hfree hvalid₁
  obtain ⟨hbare, hdecoder, -⟩ := h.arrive_first (ν := ν) hvalid₁
  obtain ⟨hwhole, -, -⟩ := h.arrive_first (ν := ν) hvalid
  rw [hchunk] at hbare
  rw [hframes, List.foldl_append, ← hbare] at hwhole
  rw [← hbare] at hclosed hd hlate
  rw [foldl_play_of_closed hclosed] at hwhole
  rw [hrest] at hdecoder
  have hheard : ∃ w, (x.second ν chunk chunk').effects = (x.first ν chunk).effects ++ w ∧
      emitted w ≠ [] :=
    Holds.arrive_late ⟨hdecoder, hd, rfl⟩ (h.rested_first ν chunk) hclosed
      (by rw [List.nil_append, hrest', hvalid]) hchunk'
      fun hinert ↦ hlate (hinert.congr rfl rfl)
  obtain ⟨w, heffects, hemit⟩ := hheard
  have hsame : (x.first ν (chunk ++ chunk')).effects = (x.first ν chunk).effects := by
    show (x.first ν (chunk ++ chunk')).bare.effects = _
    rw [hwhole]
    rfl
  rw [hsame, heffects, observe_append] at hcut
  exact hemit (List.self_eq_append_right.mp (Prod.mk.inj hcut).1)

end

/-- A fresh connection has not received anything, so that it holds the empty stream. -/
theorem fresh_start (hs : Handshake S) (options : SessionOptions) (now : ℕ) :
    (start hs options now).Fresh where
  holds := ⟨rfl, rfl, rfl⟩
  opened := rfl
  session := rfl
  limit := by
    show 1 ≤ orDefault options.maxMsgPerSecond sessionMaxMsgPerSecond
    unfold orDefault
    split
    · exact Nat.le_add_left 1 _
    · decide
  unlimited := by
    intro e he
    obtain ⟨frame, -, rfl⟩ := List.mem_map.mp he
    rfl

/-- **Segmentation of a session's stream.**  Any two ways of cutting up the stream an endpoint
receives are observed alike if and only if no frame that leaves a trace is complete before an
oversize header, and no frame after a CLOSE frame is taken for anything. -/
theorem segmentationFree_iff (hs : Handshake S) (options : SessionOptions) (now : ℕ)
    (ν : ℕ → S.Nonce) (stream : Buffer) :
    (start hs options now).SegmentationFree ν stream ↔
      (start hs options now).Clear ν stream := by
  have h := fresh_start hs options now
  refine ⟨fun hfree ↦ ?_, h.segmentationFree⟩
  rw [Clear]
  cases hbad : (frameCutter sessionMaxFrame).malformed
      ((frameCutter sessionMaxFrame).split stream).2 with
  | some e => exact h.firstRejected hbad hfree
  | none => exact h.lateInert hbad hfree

/-! ### A hello and an oversize header -/

section
open SampleLink (nonce ePubI ePubR idI idR sig1 sig2)

/-- A valid MSG1, as a frame. -/
def sampleHello : Buffer := frameBytes (ePubI ++ idI ++ sig1)

/-- The header of a frame of 2 ^ 32 - 1 bytes. -/
def sampleHeader : Buffer := [255, 255, 255, 255]

/-- A responder answers MSG1 when it comes in a chunk of its own, and not when the header of an
oversize frame comes in the same chunk. -/
theorem segmentation_observed :
    writes (SampleClosed.responder.first (fun _ ↦ nonce 0) (sampleHello ++ sampleHeader)).effects =
        [] ∧
      writes (SampleClosed.responder.second (fun _ ↦ nonce 0) sampleHello sampleHeader).effects =
        [ePubR ++ idR ++ sig2] ∧
      ¬ SampleClosed.responder.SegmentationFree (fun _ ↦ nonce 0)
        (sampleHello ++ sampleHeader) := by
  have hone : writes (SampleClosed.responder.first (fun _ ↦ nonce 0)
      (sampleHello ++ sampleHeader)).effects = [] := by
    decide +kernel
  have htwo : writes (SampleClosed.responder.second (fun _ ↦ nonce 0) sampleHello
      sampleHeader).effects = [ePubR ++ idR ++ sig2] := by
    decide +kernel
  refine ⟨hone, htwo, fun hfree ↦ ?_⟩
  have hsame := (fresh_start _ _ _).first_eq_second hfree (by decide +kernel)
  exact absurd (hone.symm.trans ((Prod.mk.inj hsame).2.trans htwo)) (by simp)

end

end SessionState

end AttestP2P
