import AttestP2P.Network.Standing

/-!
# The lifetime of a ban

Calls of `strike`, `ban`, `isBanned` and `cleanup` for any addresses, on a clock that does not go
back.  What is answered for an address is a matter of its standing, and only its own calls change
that.  From the call that sets a ban until the ban ends, the standing does not change at all.

The first section is about the other calls.  A `cleanup` at any time, or a look that forgets a ban
which is over, changes the tables of the blacklist and no answer; `Alike` relates two blacklists
that nobody who asks about the address can tell apart, and every call keeps it.  So a run is
answered as the run without these calls (`answers_isFor`).

The second section follows a ban.  It is `Serving` until it ends: strikes are answered and not
counted, and an explicit ban is the only call that could replace it.  Then there is `NoOther` until
a strike sets a new one, and at the instant at which `banMs` have passed the address is let in.
-/

set_option autoImplicit false

namespace AttestP2P

namespace IpBlacklist

variable {b b' : IpBlacklist} {ip : String} {t t' until_ : ℕ}

/-! ## What other calls do is not noticed -/

/-- Two blacklists that nobody who asks about the address can tell apart. -/
structure Alike (ip : String) (now : ℕ) (b b' : IpBlacklist) : Prop where
  options : SameOptions b b'
  standing : b'.standing ip now = b.standing ip now

theorem Alike.later (h : Alike ip t b b') (hle : t ≤ t') : Alike ip t' b b' where
  options := h.options
  standing := by
    rw [← standing_later hle, ← standing_later (b := b) hle, h.standing, h.options.strikeWindowMs]

/-- A call for the address: the same answer, and again alike. -/
theorem Alike.step {e : BlacklistCall} (he : e.isFor ip = true)
    (h : Alike ip (clocked.time e) b b') :
    (clocked.step b e).2 = (clocked.step b' e).2 ∧
      Alike ip (clocked.time e) (clocked.step b e).1 (clocked.step b' e).1 := by
  have hopt : SameOptions (clocked.step b e).1 (clocked.step b' e).1 :=
    ((sameOptions_step b e).symm.trans h.options).trans (sameOptions_step b' e)
  cases e with
  | strike ip' now =>
    obtain rfl : ip' = ip := of_decide_eq_true he
    have hstanding : b'.standing ip' now = b.standing ip' now := h.standing
    refine ⟨congrArg BlacklistAnswer.strike ?_, hopt, ?_⟩
    · rw [strike_snd, strike_snd, hstanding, h.options.strikeThreshold]
    · refine standing_strike_self.trans (Eq.trans ?_ standing_strike_self.symm)
      rw [hstanding, h.options.banMs, h.options.strikeThreshold, h.options.strikeWindowMs]
  | ban ip' now =>
    obtain rfl : ip' = ip := of_decide_eq_true he
    refine ⟨congrArg (fun ms ↦ BlacklistAnswer.ban (now + ms)) h.options.banMs.symm, hopt, ?_⟩
    refine standing_ban_self.trans (Eq.trans ?_ standing_ban_self.symm)
    rw [h.options.banMs, h.options.strikeWindowMs]
  | isBanned ip' now =>
    obtain rfl : ip' = ip := of_decide_eq_true he
    have hstanding : b'.standing ip' now = b.standing ip' now := h.standing
    refine ⟨congrArg BlacklistAnswer.isBanned ?_, hopt, ?_⟩
    · rw [isBanned_eq_standing, isBanned_eq_standing, hstanding]
    · exact standing_isBanned.trans (hstanding.trans standing_isBanned.symm)
  | cleanup now => exact nomatch he

/-- **Each address is on its own**: leaving out `cleanup` and the calls for other addresses changes
no answer. -/
theorem answers_isFor {es : List BlacklistCall} (hes : clocked.Since t es) (b : IpBlacklist)
    (ip : String) :
    (clocked.answers b es).filter (fun a ↦ a.1.isFor ip) =
      clocked.answers b (es.filter (BlacklistCall.isFor ip)) := by
  refine Clocked.answers_filter (R := Alike ip) (fun t t' b b' hle h ↦ h.later hle)
    (fun b b' e he h ↦ h.step he) (fun b b' e he h ↦ ?_) hes ⟨.refl b, rfl⟩
  exact ⟨(sameOptions_step b e).symm.trans h.options,
    h.standing.trans (standing_step_of_not_isFor he).symm⟩

/-! ## From the call that bans to the end of the ban

The calls are taken one by one, on a clock that does not go back.  The instant at which the ban ends
belongs to the time after it. -/

/-- The call sets a ban on the address: it is an explicit one, or the strike that reaches the
threshold. -/
inductive SetsBan (ip : String) (b : IpBlacklist) : BlacklistCall → Prop
  | ban (now : ℕ) : SetsBan ip b (.ban ip now)
  | strike (now : ℕ) (hfree : (b.isBanned ip now).2 = false)
      (hbanned : (b.strike ip now).2.banned = true) : SetsBan ip b (.strike ip now)

/-- The standing after the call that sets the ban. -/
theorem standing_setsBan {e : BlacklistCall} (h : SetsBan ip b e) :
    (clocked.step b e).1.standing ip (clocked.time e) =
      Standing.at_ { ban := some (clocked.time e + b.banMs), window := none } b.strikeWindowMs
        (clocked.time e) := by
  cases h with
  | ban now => exact standing_ban_self
  | strike now hfree hbanned =>
    rw [isBanned_eq_standing] at hfree
    rw [strike_snd, Standing.strikeAnswer, if_neg (by simp [hfree])] at hbanned
    refine standing_strike_self.trans ?_
    rw [Standing.strike, if_neg (by simp [hfree]), if_pos (of_decide_eq_true hbanned)]
    rfl

/-- The ban that ends at `until_`, and nothing else. -/
def Serving (b : IpBlacklist) (ip : String) (until_ now : ℕ) : Prop :=
  b.standing ip now =
    Standing.at_ { ban := some until_, window := none } b.strikeWindowMs now

theorem Serving.later (h : Serving b ip until_ t) (hle : t ≤ t') : Serving b ip until_ t' := by
  rw [Serving, ← standing_later hle, h, Standing.at_at hle]

theorem Serving.ban_eq (h : Serving b ip until_ t) (hlt : t < until_) :
    (b.standing ip t).ban = some until_ := by
  rw [h]
  exact if_pos (decide_eq_true hlt)

theorem Serving.ban_eq_none (h : Serving b ip until_ t) (hle : until_ ≤ t) :
    (b.standing ip t).ban = none := by
  rw [h]
  exact if_neg (by simpa using hle)

theorem Serving.window_eq_none (h : Serving b ip until_ t) : (b.standing ip t).window = none := by
  rw [h]
  rfl

/-- A strike before the end is not counted, and does not move the end. -/
theorem Serving.strike (h : Serving b ip until_ t) (hlt : t < until_) :
    Serving (b.strike ip t).1 ip until_ t := by
  have hban : (b.standing ip t).ban.isSome = true := by rw [h.ban_eq hlt]; rfl
  refine standing_strike_self.trans ?_
  rw [Standing.strike, if_pos hban, standing_later le_rfl, h, sameOptions_strike.strikeWindowMs]

/-- What is not an explicit ban, nor a strike after the end, changes nothing. -/
theorem Serving.step {e : BlacklistCall} (h : Serving b ip until_ (clocked.time e))
    (hban : e.isBanOf ip = false) (hstrike : e.isStrikeFrom ip until_ = false) :
    Serving (clocked.step b e).1 ip until_ (clocked.time e) := by
  cases he : e.isFor ip with
  | false =>
    rw [Serving, standing_step_of_not_isFor he, (sameOptions_step b e).strikeWindowMs]
    exact h
  | true =>
    cases e with
    | strike ip' now =>
      obtain rfl : ip' = ip := of_decide_eq_true he
      have hlt : now < until_ := by
        simpa [BlacklistCall.isStrikeFrom] using hstrike
      exact Serving.strike h hlt
    | ban ip' now => exact absurd (of_decide_eq_true he) (of_decide_eq_false hban)
    | isBanned ip' now =>
      refine standing_isBanned.trans (h.trans ?_)
      rw [(sameOptions_step b (.isBanned ip' now)).strikeWindowMs]
    | cleanup now => exact nomatch he

/-- The ban that ends at `until_` stands, or is over with no other in its place. -/
def NoOther (b : IpBlacklist) (ip : String) (until_ now : ℕ) : Prop :=
  Serving b ip until_ now ∨ until_ ≤ now ∧ (b.standing ip now).ban = none

theorem NoOther.later (h : NoOther b ip until_ t) (hle : t ≤ t') : NoOther b ip until_ t' := by
  obtain h | ⟨huntil, hnone⟩ := h
  · exact .inl (h.later hle)
  · refine .inr ⟨huntil.trans hle, ?_⟩
    rw [← standing_later hle, Standing.at_, hnone]
    rfl

theorem NoOther.ban_eq_none (h : NoOther b ip until_ t) (hle : until_ ≤ t) :
    (b.standing ip t).ban = none := by
  obtain h | ⟨-, hnone⟩ := h
  · exact h.ban_eq_none hle
  · exact hnone

/-- What is not an explicit ban, nor a strike after the end that bans, sets no other ban. -/
theorem NoOther.step {e : BlacklistCall} (h : NoOther b ip until_ (clocked.time e))
    (hban : e.isBanOf ip = false)
    (hstrike : (e.isStrikeFrom ip until_ && (clocked.step b e).2.isBan) = false) :
    NoOther (clocked.step b e).1 ip until_ (clocked.time e) := by
  by_cases hle : until_ ≤ clocked.time e
  · have hnone := h.ban_eq_none hle
    refine .inr ⟨hle, ?_⟩
    cases he : e.isFor ip with
    | false => rwa [standing_step_of_not_isFor he]
    | true =>
      cases e with
      | strike ip' now =>
        obtain rfl : ip' = ip := of_decide_eq_true he
        have hanswer : (b.strike ip' now).2.banned = false := by
          have hfrom : BlacklistCall.isStrikeFrom ip' until_ (.strike ip' now) = true :=
            decide_eq_true ⟨rfl, hle⟩
          rw [hfrom, Bool.true_and] at hstrike
          exact hstrike
        have hfree : ¬(b.standing ip' now).ban.isSome = true := by
          have hnow : (b.standing ip' now).ban = none := hnone
          rw [hnow]
          exact Bool.false_ne_true
        rw [strike_snd, Standing.strikeAnswer, if_neg hfree] at hanswer
        refine (congrArg Standing.ban standing_strike_self).trans ?_
        rw [Standing.strike, if_neg hfree, if_neg (of_decide_eq_false hanswer)]
        rfl
      | ban ip' now => exact absurd (of_decide_eq_true he) (of_decide_eq_false hban)
      | isBanned ip' now => exact (congrArg Standing.ban standing_isBanned).trans hnone
      | cleanup now => cases he
  · have hserving : Serving b ip until_ (clocked.time e) := h.resolve_right fun hr ↦ hle hr.1
    refine .inl (hserving.step hban ?_)
    cases e with
    | strike ip' now => exact decide_eq_false fun hfrom ↦ hle hfrom.2
    | ban ip' now => rfl
    | isBanned ip' now => rfl
    | cleanup now => rfl

section
variable {e : BlacklistCall} {between : List BlacklistCall}

theorem SetsBan.start (h : SetsBan ip b e) :
    Serving (clocked.step b e).1 ip (clocked.time e + b.banMs) (clocked.time e) := by
  rw [Serving, (sameOptions_step b e).strikeWindowMs]
  exact standing_setsBan h

/-- As long as no strike comes after the end, the ban is all there is. -/
theorem SetsBan.serving (h : SetsBan ip b e) (hclock : clocked.Since (clocked.time e) between)
    (hban : ∀ e' ∈ between, e'.isBanOf ip = false)
    (hstrike : ∀ a ∈ clocked.answers (clocked.step b e).1 between,
      a.1.isStrikeFrom ip (clocked.time e + b.banMs) = false) :
    Serving (clocked.after (clocked.step b e).1 between) ip (clocked.time e + b.banMs)
      (clocked.last (clocked.time e) between) := by
  refine Clocked.invariant (I := fun t b' ↦ Serving b' ip (clocked.time e + b.banMs) t)
    (P := fun a ↦ a.1.isBanOf ip = false ∧
      a.1.isStrikeFrom ip (clocked.time e + b.banMs) = false)
    (fun t t' b' hle hb' ↦ hb'.later hle) (fun b' e' hb' he' ↦ hb'.step he'.1 he'.2) hclock h.start
    fun a ha ↦ ⟨hban a.1 (Clocked.mem_of_mem_answers ha), hstrike a ha⟩

/-- As long as no strike after the end bans, there is no other ban. -/
theorem SetsBan.noOther (h : SetsBan ip b e) (hclock : clocked.Since (clocked.time e) between)
    (hban : ∀ e' ∈ between, e'.isBanOf ip = false)
    (hstrike : ∀ a ∈ clocked.answers (clocked.step b e).1 between,
      (a.1.isStrikeFrom ip (clocked.time e + b.banMs) && a.2.isBan) = false) :
    NoOther (clocked.after (clocked.step b e).1 between) ip (clocked.time e + b.banMs)
      (clocked.last (clocked.time e) between) := by
  refine Clocked.invariant (I := fun t b' ↦ NoOther b' ip (clocked.time e + b.banMs) t)
    (P := fun a ↦ a.1.isBanOf ip = false ∧
      (a.1.isStrikeFrom ip (clocked.time e + b.banMs) && a.2.isBan) = false)
    (fun t t' b' hle hb' ↦ hb'.later hle) (fun b' e' hb' he' ↦ hb'.step he'.1 he'.2) hclock
    (.inl h.start) fun a ha ↦ ⟨hban a.1 (Clocked.mem_of_mem_answers ha), hstrike a ha⟩

end

/-- **The lifetime of a ban**, over any run of calls on a clock that does not go back.

What `cleanup` and the calls for other addresses do changes no answer for an address.  After a call
that sets a ban, and calls without an explicit ban of the address, `isBanned` says yes until
`banMs` have passed; from then on it says no, if no strike has set another ban in the meantime; and
the first strike from then on counts 1. -/
theorem ban_lifetime (banMs strikeThreshold strikeWindowMs : ℕ) (ip : String) :
    (∀ calls, clocked.Since 0 calls →
      (clocked.answers (ofOptions banMs strikeThreshold strikeWindowMs) calls).filter
          (fun a ↦ a.1.isFor ip) =
        clocked.answers (ofOptions banMs strikeThreshold strikeWindowMs)
          (calls.filter (BlacklistCall.isFor ip))) ∧
    ∀ before e between now, clocked.Since 0 (before ++ e :: between) →
      clocked.last 0 (before ++ e :: between) ≤ now →
      SetsBan ip (clocked.after (ofOptions banMs strikeThreshold strikeWindowMs) before) e →
      (∀ e' ∈ between, e'.isBanOf ip = false) →
      let b := clocked.after (ofOptions banMs strikeThreshold strikeWindowMs)
        (before ++ e :: between)
      let since := clocked.answers
        (clocked.after (ofOptions banMs strikeThreshold strikeWindowMs) (before ++ [e])) between
      (now < clocked.time e + banMs → (b.isBanned ip now).2 = true) ∧
        (clocked.time e + banMs ≤ now →
          (∀ a ∈ since, (a.1.isStrikeFrom ip (clocked.time e + banMs) && a.2.isBan) = false) →
          (b.isBanned ip now).2 = false) ∧
        (clocked.time e + banMs ≤ now →
          (∀ a ∈ since, a.1.isStrikeFrom ip (clocked.time e + banMs) = false) →
          (b.strike ip now).2 =
            { banned := decide (strikeThreshold ≤ 1), count := 1 }) := by
  refine ⟨fun calls hcalls ↦ answers_isFor hcalls _ ip, ?_⟩
  intro before e between now hclock hnow hsets hbetween
  have hbanMs : (clocked.after (ofOptions banMs strikeThreshold strikeWindowMs) before).banMs =
    banMs := (sameOptions_after _ before).banMs
  have hthreshold : (clocked.after (ofOptions banMs strikeThreshold strikeWindowMs)
    (before ++ e :: between)).strikeThreshold = strikeThreshold :=
    (sameOptions_after _ (before ++ e :: between)).strikeThreshold
  have hsince : clocked.Since (clocked.time e) between := (Clocked.since_append.mp hclock).2.2
  rw [Clocked.last_append] at hnow
  rw [Clocked.after_append] at hthreshold
  dsimp only
  rw [Clocked.after_append, Clocked.after_append]
  generalize clocked.after (ofOptions banMs strikeThreshold strikeWindowMs) before = b at *
  subst hbanMs
  refine ⟨fun hlt ↦ ?_, fun hle hstrike ↦ ?_, fun hle hstrike ↦ ?_⟩
  · -- every call so far comes before the end
    have hserving := (hsets.serving hsince hbetween fun a ha ↦ ?_).later hnow
    · rw [isBanned_eq_standing]
      exact (congrArg Option.isSome (hserving.ban_eq hlt)).trans rfl
    · have htime : clocked.time a.1 ≤ _ :=
        Clocked.time_le_last hsince (Clocked.mem_of_mem_answers ha)
      cases ha' : a.1 with
      | strike ip' t =>
        rw [ha'] at htime
        exact decide_eq_false fun hfrom ↦
          absurd (hfrom.2.trans (htime.trans hnow)) (by omega)
      | ban ip' t => rfl
      | isBanned ip' t => rfl
      | cleanup t => rfl
  · have hnoOther := (hsets.noOther hsince hbetween hstrike).later hnow
    rw [isBanned_eq_standing]
    exact (congrArg Option.isSome (hnoOther.ban_eq_none hle)).trans rfl
  · have hserving := (hsets.serving hsince hbetween hstrike).later hnow
    have hnone := hserving.ban_eq_none hle
    have hfirst : (Standing.mk none none).strikeAnswer strikeThreshold now =
      { banned := decide (strikeThreshold ≤ 1), count := 1 } := if_neg Bool.false_ne_true
    have hstanding : (clocked.after b (e :: between)).standing ip now =
      { ban := none, window := none } := congrArg₂ Standing.mk hnone hserving.window_eq_none
    refine (strike_snd _ ip now).trans ?_
    rw [hstanding, ← hfirst]
    exact congrArg (fun k ↦ (Standing.mk none none).strikeAnswer k now) hthreshold

/-- Two strikes ban for 10 ms; a third one on the way, and a `cleanup`, change nothing; the next
strike is a first one. -/
theorem ban_lifetime_sample :
    ((clocked.after (ofOptions 10 2 100)
        ([.strike "a" 0] ++ .strike "a" 1 :: [.strike "a" 9, .cleanup 10])).isBanned "a" 10).2 =
        true ∧
      ((clocked.after (ofOptions 10 2 100)
        ([.strike "a" 0] ++ .strike "a" 1 :: [.strike "a" 9, .cleanup 10])).isBanned "a" 11).2 =
        false ∧
      ((clocked.after (ofOptions 10 2 100)
        ([.strike "a" 0] ++ .strike "a" 1 :: [.strike "a" 9, .cleanup 10])).strike "a" 11).2 =
        { banned := false, count := 1 } := by
  have hsets : SetsBan "a" (clocked.after (ofOptions 10 2 100) [.strike "a" 0])
      (.strike "a" 1) := .strike 1 (by decide) (by decide)
  have hbetween : ∀ e' ∈ [BlacklistCall.strike "a" 9, .cleanup 10], e'.isBanOf "a" = false := by
    simp [BlacklistCall.isBanOf]
  have hlife := fun now hnow ↦ (ban_lifetime 10 2 100 "a").2 [.strike "a" 0] (.strike "a" 1)
    [.strike "a" 9, .cleanup 10] now (by simp [Clocked.Since, clocked]) hnow hsets hbetween
  have hstrikes : ∀ a ∈ clocked.answers (clocked.after (ofOptions 10 2 100)
      ([.strike "a" 0] ++ [.strike "a" 1])) [.strike "a" 9, .cleanup 10],
      a.1.isStrikeFrom "a" 11 = false := by
    simp [Clocked.answers, BlacklistCall.isStrikeFrom]
  refine ⟨(hlife 10 (by decide)).1 (by decide), (hlife 11 (by decide)).2.1 (by decide) ?_,
    (hlife 11 (by decide)).2.2 (by decide) hstrikes⟩
  intro a ha
  exact (congrArg (· && a.2.isBan) (hstrikes a ha)).trans rfl

end IpBlacklist

end AttestP2P
