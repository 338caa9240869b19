import AttestP2P.Session.Clockless

/-!
# Frames and the chunks they come in

`_onData` pushes a chunk into the decoder and then handles the frames that are complete, one after
the other, until the connection is closed.  Listeners that call nothing leave no trace in this, and
neither does the clock: what the loop does is to play the frames.

* `SessionState.play` handles one frame with all clocks standing still, and
  `SessionState.onFrames_eq_play` says that the loop of `_onData` does just that with the frames of
  a chunk.
* `SessionState.arrive` is the arrival of a chunk, which the other modules fold over the chunks of a
  stream.
* `arrive_of_malformed` and `arrive_of_valid` tell its two cases apart.  A header that is too large
  makes `push` throw, and then the frames that are complete before it are lost.
-/

set_option autoImplicit false

namespace AttestP2P

variable {S : Suite Buffer}

namespace SecureConnection

variable {c : SecureConnection S}

/-! ## The loop of `_onData` -/

/-- Without listeners that call anything, a turn of the loop is one call of `_onFrame`. -/
theorem onTurn_of_quiet {t : Turn S} (ht : t.calls = []) (frame : Buffer) :
    c.onTurn frame t = c.onFrame frame t.allowFrame t.nonce t.now := by
  have hclosed : (c.onFrame frame t.allowFrame t.nonce t.now).2 = [.peerclose, .socketEnd] →
      (c.onFrame frame t.allowFrame t.nonce t.now).1.closed = true := by
    intro hw
    cases hallow : t.allowFrame with
    | false => exact fail_closed _ _
    | true =>
      rw [hallow] at hw
      exact onFrame_peerclose (by rw [hw]; exact List.mem_cons_self)
  rw [onTurn, ht]
  generalize c.onFrame frame t.allowFrame t.nonce t.now = r at hclosed ⊢
  obtain ⟨c', w⟩ := r
  simp only [listen]
  split
  · have hc := hclosed rfl
    exact Prod.ext (by cases c'; exact congrArg (mk _ _ _ · _ _ _ _ _ _ _ _ _ _ _ _) hc.symm) rfl
  · exact Prod.ext rfl (List.append_nil _)

/-- A frame the security context refuses is a rate limit reached. -/
theorem allowFrame_of_unlimited {t : Turn S} (ht : t.calls = []) {frame : Buffer}
    (h : Unlimited (c.onTurn frame t).2) : t.allowFrame = true := by
  by_contra hno
  rw [onTurn_of_quiet ht, onFrame, if_pos (by simpa using hno)] at h
  cases h _ List.mem_cons_self

end SecureConnection

namespace SessionState

open SecureConnection

/-- The endpoint handles a frame, all clocks standing still, unless it is closed. -/
def play (ν : ℕ → S.Nonce) (x : SessionState S) (frame : Buffer) : SessionState S :=
  if x.conn.closed then x
  else
    let (c, w) := x.conn.bare.onFrame frame true (ν x.handled) 0
    { x.act c.bare w with handled := x.handled + 1 }

/-- The endpoint without its clocks and bytes, which differ from one segmentation to another and are
not seen from outside. -/
def bare (x : SessionState S) : SessionState S := { x with conn := x.conn.bare }

variable {x : SessionState S} {ν : ℕ → S.Nonce}

theorem foldl_play_of_closed (h : x.conn.closed = true) (frames : List Buffer) :
    frames.foldl (play ν) x = x := by
  induction frames with
  | nil => rfl
  | cons f frames ih => rw [List.foldl_cons, play, if_pos h, ih]

theorem play_of_open (h : x.conn.closed = false) (frame : Buffer) :
    play ν x frame =
      { x.act (x.conn.bare.onFrame frame true (ν x.handled) 0).1.bare
          (x.conn.bare.onFrame frame true (ν x.handled) 0).2 with handled := x.handled + 1 } :=
  if_neg (by rw [h]; exact Bool.false_ne_true)

/-- The endpoint after the loop of `_onData`, given what the loop returns. -/
def afterFrames (x : SessionState S) (r : SecureConnection S × List (Effect S) × ℕ) :
    SessionState S :=
  { x.act r.1 r.2.1 with handled := x.handled + r.2.2 }

/-- The endpoint has handled one frame, and what can be seen of it is one step of `play`. -/
theorem play_bare {frame : Buffer} {nonce : S.Nonce} {now : ℕ} (hopen : x.conn.closed = false)
    (hnonce : nonce = ν x.handled) (hun : Unlimited (x.conn.onFrame frame true nonce now).2) :
    play ν x.bare frame =
      (x.afterFrames ((x.conn.onFrame frame true nonce now).1,
        (x.conn.onFrame frame true nonce now).2, 1)).bare := by
  subst hnonce
  have hun' : Unlimited (x.conn.bare.onFrame frame true (ν x.handled) 0).2 :=
    onFrame_unlimited rfl frame _
  have hlimit : ∀ w : List (Effect S), Unlimited w → .report .sessionRateLimit ∉ w :=
    fun w hw hmem ↦ by cases hw _ hmem
  obtain ⟨hbare, hw⟩ := onFrame_congr (c := x.conn.bare) (d := x.conn) rfl frame (ν x.handled)
    (hlimit _ hun') (hlimit _ hun)
  rw [play_of_open (x := x.bare) hopen]
  show { x.bare.act (x.conn.bare.onFrame frame true (ν x.handled) 0).1.bare
    (x.conn.bare.onFrame frame true (ν x.handled) 0).2 with handled := x.handled + 1 } = _
  rw [hbare, hw]
  rfl

theorem afterFrames_afterFrames (x : SessionState S) (c c' : SecureConnection S)
    (w w' : List (Effect S)) (n n' : ℕ) :
    (x.afterFrames (c, w, n)).afterFrames (c', w', n') = x.afterFrames (c', w ++ w', n + n') := by
  simp only [afterFrames, act, List.append_assoc, List.any_append, Bool.or_assoc, Nat.add_assoc]

/-- **The loop of `_onData` plays the frames of a chunk**, and the frames alone decide how it leaves
the connection. -/
theorem onFrames_eq_play (frames : List Buffer) {turn : ℕ → Turn S}
    (hopen : x.conn.closed = false)
    (hturn : ∀ i, (turn i).calls = [] ∧ (turn i).nonce = ν (x.handled + i))
    (hun : Unlimited (x.conn.onFrames frames turn).2.1) :
    (x.afterFrames (x.conn.onFrames frames turn)).bare = frames.foldl (play ν) x.bare ∧
      (x.conn.onFrames frames turn).1.decoder = x.conn.decoder ∧
      Left (x.conn.onFrames frames turn).1
        ((x.conn.onFrames frames turn).2.1.any Effect.isDestroy) := by
  induction frames generalizing x turn with
  | nil =>
    refine ⟨?_, rfl, .opened hopen rfl⟩
    simp only [onFrames, afterFrames, act, List.append_nil, List.any_nil, Bool.or_false,
      Nat.add_zero, List.foldl_nil]
  | cons f frames ih =>
    obtain ⟨hcalls, hnonce⟩ := hturn 0
    rw [onFrames] at hun ⊢
    have hallow : (turn 0).allowFrame = true := by
      refine @allowFrame_of_unlimited S x.conn (turn 0) hcalls f fun e he ↦ hun e ?_
      dsimp only
      split
      · exact he
      · exact List.mem_append_left _ he
    simp only [onTurn_of_quiet hcalls, hallow, if_true] at hun ⊢
    have hplay := @play_bare S x ν f (turn 0).nonce (turn 0).now hopen hnonce
    have hkept := x.conn.onFrame_kept f (turn 0).nonce (turn 0).now
    have hleft := onFrame_left hopen f (turn 0).nonce (turn 0).now
    generalize x.conn.onFrame f true (turn 0).nonce (turn 0).now = r at hun hplay hkept hleft ⊢
    obtain ⟨c, w⟩ := r
    rw [List.foldl_cons]
    cases hclosed : c.closed with
    | true =>
      simp only [hclosed, if_true] at hun ⊢
      rw [hplay hun, foldl_play_of_closed hclosed]
      exact ⟨rfl, hkept.decoder, hleft⟩
    | false =>
      simp only [hclosed, if_false, Bool.false_eq_true] at hun ⊢
      rw [unlimited_append] at hun
      have hlater := @ih (x.afterFrames (c, w, 1)) (fun i ↦ turn (i + 1)) hclosed
        (fun i ↦ ⟨(hturn (i + 1)).1, (hturn (i + 1)).2.trans
          (congrArg ν (show x.handled + (i + 1) = x.handled + 1 + i by omega))⟩) hun.2
      obtain ⟨hbare, hdecoder, hleft'⟩ := hlater
      rw [hplay hun.1, ← hbare]
      refine ⟨?_, hdecoder.trans hkept.decoder, ?_⟩
      · rw [afterFrames_afterFrames]
        rfl
      · cases hleft with
        | opened _ hw =>
          rw [List.any_append, hw, Bool.false_or]
          exact hleft'
        | destroyed hc => exact absurd (hclosed.symm.trans hc) Bool.false_ne_true
        | ended hc => exact absurd (hclosed.symm.trans hc) Bool.false_ne_true

end SessionState

/-! ## Chunks of a stream -/

/-- A chunk, with what the security context answers and what the clock says for each of its
frames. -/
structure Receipt where
  chunk : Buffer
  allowFrame : ℕ → Bool
  now : ℕ → ℕ

/-- The stream that is cut up: the chunks, one behind the other. -/
def streamOf (rs : List Receipt) : Buffer := (rs.map Receipt.chunk).flatten

/-- The payloads of the frames that are complete. -/
def payloads (max : ℕ) (b : Buffer) : List Buffer :=
  ((frameCutter max).split b).1.map fun frame ↦ frame.drop 4

namespace SessionState

open SecureConnection

/-- A chunk arrives, and no listener calls anything; frame number `n` of the connection draws the
nonce `ν n`.  Nothing arrives once the socket is destroyed. -/
def arrive (ν : ℕ → S.Nonce) (x : SessionState S) (r : Receipt) : SessionState S :=
  if x.destroyed then x
  else
    x.next (.data r.chunk fun i ↦
      { allowFrame := r.allowFrame i, nonce := ν (x.handled + i), now := r.now i, calls := [] })

variable {x : SessionState S} {ν : ℕ → S.Nonce} {r : Receipt}

theorem arrive_of_destroyed (hd : x.destroyed = true) (r : Receipt) : x.arrive ν r = x := if_pos hd

theorem foldl_arrive_of_destroyed (hd : x.destroyed = true) (rs : List Receipt) :
    rs.foldl (arrive ν) x = x := by
  induction rs with
  | nil => rfl
  | cons r rs ih => rw [List.foldl_cons, arrive_of_destroyed hd, ih]

/-- The bytes the decoder holds once the chunk is there. -/
def bytes (x : SessionState S) (r : Receipt) : Buffer := x.conn.decoder.buf ++ r.chunk

/-- A chunk that completes an oversize header makes the endpoint fail, and no frame of it is
handled. -/
theorem arrive_of_malformed (hd : x.destroyed = false) {e : String}
    (h : (frameCutter x.conn.decoder.max).malformed
      ((frameCutter x.conn.decoder.max).split (x.bytes r)).2 = some e) :
    ∃ d, x.arrive ν r = x.act (fail { x.conn with decoder := d } e).1
      (.report (.oversizeFrame e) :: (fail { x.conn with decoder := d } e).2) := by
  have hreceive : ∃ d, x.conn.receive r.chunk = ((fail { x.conn with decoder := d } e).1,
      .report (.oversizeFrame e) :: (fail { x.conn with decoder := d } e).2, []) := by
    rw [receive, FrameDecoder.push_of_malformed h]
    exact ⟨_, rfl⟩
  obtain ⟨d, hreceive⟩ := hreceive
  refine ⟨d, ?_⟩
  rw [arrive, if_neg (by rw [hd]; exact Bool.false_ne_true), next, onData, hreceive]
  simp only [onFrames, List.append_nil]
  rfl

/-- A chunk that does not complete one has its frames handled in order, and leaves the rest in the
decoder. -/
theorem arrive_of_valid (hd : x.destroyed = false)
    (h : (frameCutter x.conn.decoder.max).malformed
      ((frameCutter x.conn.decoder.max).split (x.bytes r)).2 = none) :
    let c := { x.conn with
      decoder := ⟨x.conn.decoder.max, ((frameCutter x.conn.decoder.max).split (x.bytes r)).2⟩ }
    x.arrive ν r = x.afterFrames (c.onFrames (payloads x.conn.decoder.max (x.bytes r)) fun i ↦
      { allowFrame := r.allowFrame i, nonce := ν (x.handled + i), now := r.now i,
        calls := [] }) := by
  have hreceive : x.conn.receive r.chunk = ({ x.conn with
      decoder := ⟨x.conn.decoder.max, ((frameCutter x.conn.decoder.max).split (x.bytes r)).2⟩ },
      [], payloads x.conn.decoder.max (x.bytes r)) := by
    rw [receive, FrameDecoder.push_of_valid h]
    rfl
  rw [arrive, if_neg (by rw [hd]; exact Bool.false_ne_true), next, onData, hreceive]
  rfl

end SessionState

end AttestP2P
