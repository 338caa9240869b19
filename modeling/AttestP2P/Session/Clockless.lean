import AttestP2P.Session.Closed

/-!
# What a frame does, whatever the clock says

A connection reads the clock in two places: the rate limit of the session and the age of the key.
Neither has a say in what a frame means.  So a connection can be followed through the frames it
receives without its clocks, as long as no limit is reached, and this is what makes it possible to
compare runs in which the same frames arrive at different times.

* `SecureConnection.bare` is a connection without the clocks, the limits and the bytes it holds, and
  `Agree` relates what two calls do when they differ in nothing else.
* `SecureConnection.onFrame_congr`: connections that agree handle a frame alike, unless one of them
  reports that the limit of the session is reached.  It is put together from one lemma for each part
  of `_handleFrame`, in the order in which the source runs through them.
* `SecureConnection.onFrame_kept` and `onFrame_left`: what a frame leaves alone, and the three ways
  in which it can leave an open connection.
-/

set_option autoImplicit false

namespace AttestP2P

variable {S : Suite Buffer}

namespace SecureConnection

/-! ## Frames, without clocks -/

/-- The connection without the clocks, without the limits that go with them, and without the bytes
it holds. -/
def bare (c : SecureConnection S) : SecureConnection S :=
  { c with
    decoder := ⟨0, []⟩, maxMsgPerSecond := 1, msgWindowStart := 0, msgCount := 0, rkSince := 0 }

variable {c d : SecureConnection S}

theorem fail_of_open (h : c.closed = false) (err : String) :
    c.fail err = ({ c with closed := true }, [.error err, .destroy]) := by
  rw [fail, h]
  rfl

theorem msgAllow_bare (c : SecureConnection S) (now : ℕ) : (c.msgAllow now).1.bare = c.bare := by
  obtain ⟨start, count, hc⟩ := msgAllow_eq c now
  rw [hc]
  rfl

/-- The two calls have the same effects and results, and leave connections that agree but for the
clocks. -/
def Agree (r r' : Call S) : Prop := r.1.bare = r'.1.bare ∧ r.2 = r'.2

section
variable (h : c.bare = d.bare)
include h

theorem closed_congr : c.closed = d.closed := congrArg (·.closed) h

theorem session_congr : c.session = d.session := congrArg (·.session) h

theorem fail_congr (err : String) :
    (c.fail err).1.bare = (d.fail err).1.bare ∧ (c.fail err).2 = (d.fail err).2 := by
  have hclosed := closed_congr h
  cases hd : d.closed with
  | true =>
    rw [fail_of_closed hd, fail_of_closed (hclosed.trans hd)]
    exact ⟨h, rfl⟩
  | false =>
    rw [fail_of_open hd, fail_of_open (hclosed.trans hd)]
    exact ⟨congrArg (fun e : SecureConnection S ↦ { e with closed := true }) h, rfl⟩

theorem write_congr (frame : Buffer) : c.write frame = d.write frame := by
  rw [write, write, closed_congr h]

theorem replyEffects_congr (frames : List Buffer) :
    c.replyEffects frames = d.replyEffects frames := by
  induction frames with
  | nil => rw [replyEffects, replyEffects, session_congr h]
  | cons f frames ih => rw [replyEffects, replyEffects, ih, write_congr h]

theorem handleData_congr (pt : Buffer) {now now' : ℕ}
    (hc : .report .sessionRateLimit ∉ (c.handleData pt now).2.1)
    (hd : .report .sessionRateLimit ∉ (d.handleData pt now').2.1) :
    Agree (c.handleData pt now) (d.handleData pt now') := by
  have hseq : c.rxSeq = d.rxSeq := congrArg (·.rxSeq) h
  have hallowed : (c.msgAllow now).1.bare = (d.msgAllow now').1.bare := by
    rw [msgAllow_bare, msgAllow_bare, h]
  by_cases hlen : pt.length < 9
  · rw [handleData_of_short hlen, handleData_of_short hlen]
    exact ⟨h, rfl⟩
  · cases hcallow : (c.msgAllow now).2 with
    | false =>
      rw [handleData_of_limited hlen hcallow] at hc
      exact absurd List.mem_cons_self hc
    | true =>
      cases hdallow : (d.msgAllow now').2 with
      | false =>
        rw [handleData_of_limited hlen hdallow] at hd
        exact absurd List.mem_cons_self hd
      | true =>
        by_cases hrx : d.rxSeq.any (pt.readBigUInt64BE 1 ≤ ·) = true
        · rw [handleData_of_replayed hlen hcallow (by rwa [hseq]),
            handleData_of_replayed hlen hdallow hrx]
          obtain ⟨hbare, heffects⟩ := fail_congr hallowed
            ("rejeu applicatif détecté (seq " ++ toString (pt.readBigUInt64BE 1) ++ ")")
          exact ⟨hbare, Prod.ext (congrArg (List.cons _) heffects) rfl⟩
        · rw [handleData_of_new hlen hcallow (by rwa [hseq]), handleData_of_new hlen hdallow hrx]
          exact ⟨congrArg (fun e : SecureConnection S ↦
            { e with rxSeq := some (pt.readBigUInt64BE 1) }) hallowed, rfl⟩

theorem handleTransport_congr (s : SecureSession S) (frame : Buffer) (nonce : S.Nonce)
    {now now' : ℕ}
    (hc : .report .sessionRateLimit ∉ (c.handleTransport s frame nonce now).2.1)
    (hd : .report .sessionRateLimit ∉ (d.handleTransport s frame nonce now').2.1) :
    Agree (c.handleTransport s frame nonce now) (d.handleTransport s frame nonce now') := by
  rw [handleTransport] at hc hd ⊢
  rw [handleTransport]
  cases hopen : s.open frame with
  | error e => exact ⟨h, rfl⟩
  | ok pt =>
    simp only [hopen] at hc hd ⊢
    by_cases hdata : pt.headD ctrlData = ctrlData
    · simp only [hdata, if_true] at hc hd ⊢
      exact handleData_congr h pt hc hd
    · by_cases hrekey : pt.headD ctrlData = ctrlRekey
      · have hsession : ∀ s', ({ c with session := some s' } : SecureConnection S).bare =
            ({ d with session := some s' } : SecureConnection S).bare :=
          fun s' ↦ congrArg (fun e : SecureConnection S ↦ { e with session := some s' }) h
        simp only [hrekey, show ctrlRekey ≠ ctrlData by decide, if_false, if_true]
        rw [write_congr (hsession s.rekeyRx)]
        cases write { d with session := some s.rekeyRx } (s.rekeyRx.seal nonce [ctrlRekeyAck]) with
        | error e => exact ⟨hsession s.rekeyRx, rfl⟩
        | ok w => exact ⟨hsession s.rekeyRx.rekeyTx, rfl⟩
      · by_cases hack : pt.headD ctrlData = ctrlRekeyAck
        · simp only [hack, show ctrlRekeyAck ≠ ctrlData by decide,
            show ctrlRekeyAck ≠ ctrlRekey by decide, if_false, if_true]
          exact ⟨congrArg (fun e : SecureConnection S ↦ { e with
            session := some s.rekeyRx, rekeying := false, rkMsgs := 0, rkBytes := 0 }) h, rfl⟩
        · by_cases hclose : pt.headD ctrlData = ctrlClose
          · simp only [hclose, show ctrlClose ≠ ctrlData by decide,
              show ctrlClose ≠ ctrlRekey by decide, show ctrlClose ≠ ctrlRekeyAck by decide,
              if_false, if_true]
            exact ⟨congrArg (fun e : SecureConnection S ↦ { e with closed := true }) h, rfl⟩
          · simp only [hdata, hrekey, hack, hclose, if_false]
            exact ⟨h, rfl⟩

theorem handleFrame_congr (frame : Buffer) (nonce : S.Nonce) {now now' : ℕ}
    (hc : .report .sessionRateLimit ∉ (c.handleFrame frame nonce now).2.1)
    (hd : .report .sessionRateLimit ∉ (d.handleFrame frame nonce now').2.1) :
    Agree (c.handleFrame frame nonce now) (d.handleFrame frame nonce now') := by
  have hsession := session_congr h
  cases hs : d.session with
  | some s =>
    rw [handleFrame_of_session hs] at hd ⊢
    rw [handleFrame_of_session (hsession.trans hs)] at hc ⊢
    exact handleTransport_congr h s frame nonce hc hd
  | none =>
    have hhs : c.hs = d.hs := congrArg (·.hs) h
    rw [handleFrame, handleFrame, hs, hsession.trans hs, hhs]
    cases hon : d.hs.onFrame frame with
    | mk hs' r =>
      cases r with
      | error e =>
        exact ⟨congrArg (fun e : SecureConnection S ↦ { e with hs := hs', session := none }) h, rfl⟩
      | ok r =>
        have hbare : ({ c with hs := hs', session := r.session } : SecureConnection S).bare =
            ({ d with hs := hs', session := r.session } : SecureConnection S).bare :=
          congrArg (fun e : SecureConnection S ↦ { e with hs := hs', session := r.session }) h
        simp only [replyEffects_congr hbare]
        cases replyEffects { d with hs := hs', session := r.session } r.writes with
        | error e => exact ⟨hbare, rfl⟩
        | ok w => exact ⟨hbare, rfl⟩

/-- **A frame has the same effects whatever the clocks say**, as long as no rate limit is
reached. -/
theorem onFrame_congr (frame : Buffer) (nonce : S.Nonce) {now now' : ℕ}
    (hc : .report .sessionRateLimit ∉ (c.onFrame frame true nonce now).2)
    (hd : .report .sessionRateLimit ∉ (d.onFrame frame true nonce now').2) :
    (c.onFrame frame true nonce now).1.bare = (d.onFrame frame true nonce now').1.bare ∧
      (c.onFrame frame true nonce now).2 = (d.onFrame frame true nonce now').2 := by
  have hcongr := @handleFrame_congr S c d h frame nonce now now'
  rw [onFrame_of_handleFrame] at hc hd ⊢
  rw [onFrame_of_handleFrame]
  generalize c.handleFrame frame nonce now = r at hcongr hc ⊢
  generalize d.handleFrame frame nonce now' = r' at hcongr hd ⊢
  obtain ⟨c', w, e | u⟩ := r <;> obtain ⟨d', w', e' | u'⟩ := r'
  · simp only [List.mem_append, not_or] at hc hd
    obtain ⟨hbare, hw⟩ := hcongr hc.1 hd.1
    obtain ⟨rfl, he⟩ := Prod.mk.inj hw
    cases he
    obtain ⟨hfail, heffects⟩ := fail_congr hbare e
    exact ⟨hfail, congrArg (fun v ↦ w ++ (.report (.cryptoError e) :: v)) heffects⟩
  · simp only [List.mem_append, not_or] at hc
    cases (Prod.mk.inj (hcongr hc.1 hd).2).2
  · simp only [List.mem_append, not_or] at hd
    cases (Prod.mk.inj (hcongr hc hd.1).2).2
  · obtain ⟨hbare, hw⟩ := hcongr hc hd
    exact ⟨hbare, (Prod.mk.inj hw).1⟩

end

/-! ## What a frame leaves alone -/

theorem mem_write {frame : Buffer} {w : List (Effect S)} (h : c.write frame = .ok w)
    {x : Effect S} (hx : x ∈ w) : x = .write frame := by
  rw [write] at h
  split at h
  · cases h
    cases hx
  · cases hencode : encodeFrame frame with
    | error e =>
      rw [hencode] at h
      cases h
    | ok b =>
      rw [hencode] at h
      cases h
      exact List.mem_singleton.mp hx

theorem mem_replyEffects {frames : List Buffer} {w : List (Effect S)}
    (h : c.replyEffects frames = .ok w) {x : Effect S} (hx : x ∈ w) :
    (∃ frame, x = .write frame) ∨ ∃ id, x = .secure id := by
  induction frames generalizing w with
  | nil =>
    cases h
    cases hs : c.session with
    | none => simp [hs] at hx
    | some s =>
      rw [hs] at hx
      exact .inr ⟨_, List.mem_singleton.mp hx⟩
  | cons f frames ih =>
    rw [replyEffects] at h
    cases hw : c.write f with
    | error e =>
      rw [hw] at h
      cases h
    | ok w₁ =>
      cases hw' : c.replyEffects frames with
      | error e =>
        rw [hw, hw'] at h
        cases h
      | ok w₂ =>
        rw [hw, hw'] at h
        cases h
        rcases List.mem_append.mp hx with hx | hx
        · exact .inl ⟨f, mem_write hw hx⟩
        · exact ih hw' hx

theorem mem_fail {err : String} {x : Effect S} (hx : x ∈ (c.fail err).2) :
    x = .error err ∨ x = .destroy := by
  rw [fail] at hx
  split at hx
  · cases hx
  · simpa using hx

/-- What no frame changes: the decoder and the limit on messages.  The window of that limit is the
old one, or begins now. -/
structure Kept (c c' : SecureConnection S) (now : ℕ) : Prop where
  decoder : c'.decoder = c.decoder
  maxMsgPerSecond : c'.maxMsgPerSecond = c.maxMsgPerSecond
  msgWindowStart : c'.msgWindowStart = c.msgWindowStart ∨ c'.msgWindowStart = now

theorem kept_msgAllow (c : SecureConnection S) (now : ℕ) : Kept c (c.msgAllow now).1 now := by
  rw [msgAllow]
  split
  · exact ⟨rfl, rfl, .inr rfl⟩
  · exact ⟨rfl, rfl, .inl rfl⟩

theorem Kept.fail {now : ℕ} (h : Kept c d now) (err : String) : Kept c (d.fail err).1 now := by
  rw [SecureConnection.fail]
  split
  · exact h
  · exact ⟨h.decoder, h.maxMsgPerSecond, h.msgWindowStart⟩

theorem Handled.kept {frame : Buffer} {nonce : S.Nonce} {now : ℕ} {w : List (Effect S)}
    (h : Handled c frame nonce now d w) : Kept c d now := by
  cases h with
  | rejected hs session err =>
    have hkept : Kept c { c with hs := hs, session := session } now := ⟨rfl, rfl, .inl rfl⟩
    exact hkept.fail err
  | limited _ err => exact (kept_msgAllow c now).fail err
  | replayed _ err => exact (kept_msgAllow c now).fail err
  | message =>
    have hkept := kept_msgAllow c now
    exact ⟨hkept.decoder, hkept.maxMsgPerSecond, hkept.msgWindowStart⟩
  | handshake => exact ⟨rfl, rfl, .inl rfl⟩
  | rekeyed => exact ⟨rfl, rfl, .inl rfl⟩
  | acknowledged => exact ⟨rfl, rfl, .inl rfl⟩
  | closed => exact ⟨rfl, rfl, .inl rfl⟩

theorem onFrame_kept (c : SecureConnection S) (frame : Buffer) (nonce : S.Nonce) (now : ℕ) :
    Kept c (c.onFrame frame true nonce now).1 now :=
  (c.onFrame_handled frame nonce now).kept

end SecureConnection

/-- Whether an effect reports that a rate limit is reached. -/
def Effect.isRateReport : Effect S → Bool
  | .report .rateLimit | .report .sessionRateLimit => true
  | _ => false

/-- No rate limit is reached: no report among the effects is one of a rate. -/
def Unlimited (w : List (Effect S)) : Prop := ∀ x ∈ w, x.isRateReport = false

theorem unlimited_append {w w' : List (Effect S)} :
    Unlimited (w ++ w') ↔ Unlimited w ∧ Unlimited w' :=
  List.forall_mem_append

namespace SecureConnection

variable {c d : SecureConnection S}

theorem unlimited_fail (c : SecureConnection S) (err : String) : Unlimited (c.fail err).2 := by
  intro x hx
  rcases mem_fail hx with rfl | rfl <;> rfl

/-- Within the limit of the session, no limit is reached. -/
theorem onFrame_unlimited {now : ℕ} (h : (c.msgAllow now).2 = true) (frame : Buffer)
    (nonce : S.Nonce) : Unlimited (c.onFrame frame true nonce now).2 := by
  have hon := c.onFrame_handled frame nonce now
  generalize c.onFrame frame true nonce now = r at hon ⊢
  obtain ⟨c', w⟩ := r
  intro x hx
  cases hon with
  | rejected =>
    rcases List.mem_cons.mp hx with rfl | hx
    · rfl
    · exact unlimited_fail _ _ x hx
  | handshake _ _ hw => rcases mem_replyEffects hw hx with ⟨f, rfl⟩ | ⟨id, rfl⟩ <;> rfl
  | limited hlimit => exact absurd (h.symm.trans hlimit) (by decide)
  | replayed =>
    rcases List.mem_cons.mp hx with rfl | hx
    · rfl
    · exact unlimited_fail _ _ x hx
  | message => rw [List.mem_singleton.mp hx]; rfl
  | rekeyed _ hw =>
    rcases List.mem_append.mp hx with hx | hx
    · rw [mem_write hw hx]
      rfl
    · rw [List.mem_singleton.mp hx]
      rfl
  | acknowledged => rw [List.mem_singleton.mp hx]; rfl
  | closed => rcases (by simpa using hx : x = .peerclose ∨ x = .socketEnd) with rfl | rfl <;> rfl

/-- How an open connection is left: open, destroyed, or closed by a CLOSE frame. -/
inductive Left (c : SecureConnection S) (destroyed : Bool) : Prop
  | opened (hopen : c.closed = false) (hd : destroyed = false)
  | destroyed (hclosed : c.closed = true) (hd : destroyed = true)
  | ended (hclosed : c.closed = true) (hd : destroyed = false) (hs : c.session.isSome = true)

theorem left_fail (hopen : c.closed = false) (r : SessionReport) (err : String) :
    Left (c.fail err).1 ((.report r :: (c.fail err).2).any Effect.isDestroy) := by
  rw [fail_of_open hopen]
  exact .destroyed rfl rfl

theorem onFrame_left (hopen : c.closed = false) (frame : Buffer) (nonce : S.Nonce) (now : ℕ) :
    Left (c.onFrame frame true nonce now).1
      ((c.onFrame frame true nonce now).2.any Effect.isDestroy) := by
  have hon := c.onFrame_handled frame nonce now
  generalize c.onFrame frame true nonce now = r at hon ⊢
  obtain ⟨c', w⟩ := r
  have hallow := (msgAllow_closed c now).trans hopen
  cases hon with
  | rejected hs session err =>
    exact left_fail (c := { c with hs := hs, session := session }) hopen _ _
  | limited => exact left_fail hallow _ _
  | replayed => exact left_fail hallow _ _
  | handshake _ _ hw =>
    refine .opened hopen (List.any_eq_false.mpr fun x hx ↦ ?_)
    rcases mem_replyEffects hw hx with ⟨f, rfl⟩ | ⟨id, rfl⟩ <;> exact Bool.false_ne_true
  | message => exact .opened hallow rfl
  | rekeyed _ hw =>
    refine .opened hopen (List.any_eq_false.mpr fun x hx ↦ ?_)
    rcases List.mem_append.mp hx with hx | hx
    · rw [mem_write hw hx]
      exact Bool.false_ne_true
    · rw [List.mem_singleton.mp hx]
      exact Bool.false_ne_true
  | acknowledged => exact .opened hopen rfl
  | closed hs => exact .ended rfl rfl (by simp [hs])

theorem onFrame_peerclose {frame : Buffer} {nonce : S.Nonce} {now : ℕ}
    (h : .peerclose ∈ (c.onFrame frame true nonce now).2) :
    (c.onFrame frame true nonce now).1.closed = true := by
  have hon := c.onFrame_handled frame nonce now
  generalize c.onFrame frame true nonce now = r at hon h ⊢
  obtain ⟨c', w⟩ := r
  cases hon with
  | rejected => exact fail_closed _ _
  | limited => exact fail_closed _ _
  | replayed => exact fail_closed _ _
  | handshake _ _ hw => rcases mem_replyEffects hw h with ⟨f, hf⟩ | ⟨id, hid⟩ <;> contradiction
  | message => exact absurd (List.mem_singleton.mp h) (by simp)
  | rekeyed _ hw =>
    rcases List.mem_append.mp h with h | h
    · exact absurd (mem_write hw h) (by simp)
    · exact absurd (List.mem_singleton.mp h) (by simp)
  | acknowledged => exact absurd (List.mem_singleton.mp h) (by simp)
  | closed => rfl

end SecureConnection

end AttestP2P
