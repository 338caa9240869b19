import AttestP2P.Lib.Clocked
import AttestP2P.Network.IpBlacklist

/-!
# The standing of an address

What a blacklist knows of one address, less what is over by now: the end of its ban and its window
of infractions.  The calls for the address act on its standing and on nothing else.

The blacklist itself is harder to speak about.  A ban that is over stays in its table until somebody
looks, or until `cleanup` comes by; so does a window.  Two blacklists may hold different tables and
yet give the same answers for ever.  The standing is what they have in common.

* `Standing.strike`, `Standing.ban`: the two calls that change a standing.
* `standing_strike`, `standing_ban`, `standing_isBanned`, `standing_cleanup`: the blacklist does
  just that, whatever tables it keeps and whenever it tidies them up.
* `standing_step_of_not_isFor`: addresses do not meddle with one another.
-/

set_option autoImplicit false

namespace AttestP2P

/-- A call of the blacklist, with its time. -/
inductive BlacklistCall where
  | strike (ip : String) (now : ℕ)
  | ban (ip : String) (now : ℕ)
  | isBanned (ip : String) (now : ℕ)
  | cleanup (now : ℕ)

/-- What a call returns, for each method. -/
inductive BlacklistAnswer where
  | strike (r : Strike)
  | ban (until_ : ℕ)
  | isBanned (banned : Bool)
  | cleanup

/-- The call is one for the address; `cleanup` is one for none. -/
def BlacklistCall.isFor (ip : String) : BlacklistCall → Bool
  | .strike ip' _ | .ban ip' _ | .isBanned ip' _ => ip' = ip
  | .cleanup _ => false

/-- The call is an explicit ban of the address. -/
def BlacklistCall.isBanOf (ip : String) : BlacklistCall → Bool
  | .ban ip' _ => ip' = ip
  | _ => false

/-- The call is a strike of the address at `from_` or later. -/
def BlacklistCall.isStrikeFrom (ip : String) (from_ : ℕ) : BlacklistCall → Bool
  | .strike ip' now => ip' = ip ∧ from_ ≤ now
  | _ => false

/-- The answer says that the address is banned. -/
def BlacklistAnswer.isBan : BlacklistAnswer → Bool
  | .strike r => r.banned
  | _ => false

/-- The standing of an address at some time. -/
structure Standing where
  /-- When its ban ends. -/
  ban : Option ℕ
  /-- The window of its infractions. -/
  window : Option StrikeWindow

namespace Standing

/-- What is not over at `now`: a ban that still lasts, and a window that is still open. -/
def at_ (st : Standing) (strikeWindowMs now : ℕ) : Standing where
  ban := st.ban.filter fun until_ ↦ now < until_
  window := st.window.filter fun s ↦ now - s.windowStart ≤ strikeWindowMs

/-- The window with one infraction more, which begins now where there is none. -/
def counted (st : Standing) (now : ℕ) : StrikeWindow :=
  let s := st.window.getD { count := 0, windowStart := now }
  { s with count := s.count + 1 }

/-- What a strike answers, computed from the standing of the address alone. -/
def strikeAnswer (st : Standing) (strikeThreshold now : ℕ) : Strike :=
  if st.ban.isSome then { banned := true, count := strikeThreshold }
  else
    { banned := decide (strikeThreshold ≤ (st.counted now).count), count := (st.counted now).count }

/-- What a strike makes of the standing: one who is banned has nothing counted. -/
def strike (st : Standing) (banMs strikeThreshold now : ℕ) : Standing :=
  if st.ban.isSome then st
  else if strikeThreshold ≤ (st.counted now).count then
    { ban := some (now + banMs), window := none }
  else { ban := none, window := some (st.counted now) }

/-- Time passes, and what is over stays over, so that it does not matter when it is forgotten. -/
theorem at_at {st : Standing} {w t t' : ℕ} (h : t ≤ t') : (st.at_ w t).at_ w t' = st.at_ w t' := by
  refine congrArg₂ Standing.mk (Clocked.filter_filter_of_imp (fun until_ hlt ↦ ?_) st.ban)
    (Clocked.filter_filter_of_imp (fun s hle ↦ ?_) st.window)
  · simp only [decide_eq_true_eq] at hlt ⊢
    omega
  · simp only [decide_eq_true_eq] at hle ⊢
    omega

end Standing

namespace IpBlacklist

/-- `new IpBlacklist({ banMs, strikeThreshold, strikeWindowMs })`, with any three options and
nothing held against anybody. -/
def ofOptions (banMs strikeThreshold strikeWindowMs : ℕ) : IpBlacklist where
  banMs := banMs
  strikeThreshold := strikeThreshold
  strikeWindowMs := strikeWindowMs
  strikes := .empty
  bans := .empty

/-- The blacklist and its calls, as an object whose calls carry their times. -/
def clocked : Clocked IpBlacklist BlacklistCall BlacklistAnswer where
  time
    | .strike _ now | .ban _ now | .isBanned _ now | .cleanup now => now
  step b
    | .strike ip now => ((b.strike ip now).1, .strike (b.strike ip now).2)
    | .ban ip now => (b.ban ip now, .ban (now + b.banMs))
    | .isBanned ip now => ((b.isBanned ip now).1, .isBanned (b.isBanned ip now).2)
    | .cleanup now => (b.cleanup now, .cleanup)

/-- The standing of an address: what the blacklist holds against it and is not over. -/
def standing (b : IpBlacklist) (ip : String) (now : ℕ) : Standing :=
  Standing.at_ { ban := b.bans.get? ip, window := b.strikes.get? ip } b.strikeWindowMs now

/-- The same options, which no call changes. -/
structure SameOptions (b b' : IpBlacklist) : Prop where
  banMs : b'.banMs = b.banMs
  strikeThreshold : b'.strikeThreshold = b.strikeThreshold
  strikeWindowMs : b'.strikeWindowMs = b.strikeWindowMs

variable {b b' : IpBlacklist} {ip ip' : String} {now t t' : ℕ}

theorem SameOptions.refl (b : IpBlacklist) : SameOptions b b := ⟨rfl, rfl, rfl⟩

theorem SameOptions.trans {b'' : IpBlacklist} (h : SameOptions b b') (h' : SameOptions b' b'') :
    SameOptions b b'' :=
  ⟨h'.banMs.trans h.banMs, h'.strikeThreshold.trans h.strikeThreshold,
    h'.strikeWindowMs.trans h.strikeWindowMs⟩

theorem SameOptions.symm (h : SameOptions b b') : SameOptions b' b :=
  ⟨h.banMs.symm, h.strikeThreshold.symm, h.strikeWindowMs.symm⟩

theorem standing_later (h : t ≤ t') :
    (b.standing ip t).at_ b.strikeWindowMs t' = b.standing ip t' :=
  Standing.at_at h

/-- Tables that agree on an address give it the same standing. -/
theorem standing_congr (hopt : SameOptions b b') (hbans : b'.bans.get? ip = b.bans.get? ip)
    (hstrikes : b'.strikes.get? ip = b.strikes.get? ip) :
    b'.standing ip now = b.standing ip now := by
  rw [standing, standing, hbans, hstrikes, hopt.strikeWindowMs]

/-! ## What is asked -/

theorem isBanned_eq_standing (b : IpBlacklist) (ip : String) (now : ℕ) :
    (b.isBanned ip now).2 = (b.standing ip now).ban.isSome := by
  rw [isBanned, standing, Standing.at_]
  cases b.bans.get? ip with
  | none => rfl
  | some until_ =>
    rw [Option.filter_some]
    dsimp only
    split
    · next h =>
      rw [if_neg (by simp only [decide_eq_true_eq]; omega)]
      rfl
    · next h =>
      rw [if_pos (by simp only [decide_eq_true_eq]; omega)]
      rfl

theorem window_eq_standing (b : IpBlacklist) (ip : String) (now : ℕ) :
    b.window ip now =
      (b.standing ip now).window.getD { count := 0, windowStart := now } := by
  rw [window, standing, Standing.at_]
  cases b.strikes.get? ip with
  | none => rfl
  | some s =>
    rw [Option.filter_some]
    dsimp only
    split
    · next h =>
      rw [if_neg (by simp only [decide_eq_true_eq]; omega)]
      rfl
    · next h =>
      rw [if_pos (by simp only [decide_eq_true_eq]; omega)]
      rfl

/-- `isBanned` lifts a ban that is over, and else does nothing. -/
theorem isBanned_fst (b : IpBlacklist) (ip : String) (now : ℕ) :
    (b.isBanned ip now).1 = b ∨
      (b.isBanned ip now).1 = { b with bans := b.bans.delete ip } ∧
        (b.standing ip now).ban = none := by
  rw [isBanned, standing, Standing.at_]
  cases b.bans.get? ip with
  | none => exact .inl rfl
  | some until_ =>
    dsimp only
    split
    · next h => exact .inr ⟨rfl, by rw [Option.filter_some, if_neg (by simpa using h)]⟩
    · exact .inl rfl

/-! ## What the calls change -/

theorem sameOptions_isBanned : SameOptions b (b.isBanned ip now).1 := by
  obtain h | ⟨h, -⟩ := b.isBanned_fst ip now <;> rw [h] <;> exact ⟨rfl, rfl, rfl⟩

theorem strikes_isBanned : (b.isBanned ip now).1.strikes = b.strikes := by
  obtain h | ⟨h, -⟩ := b.isBanned_fst ip now <;> rw [h]

theorem bans_isBanned_of_ne (h : ip ≠ ip') :
    (b.isBanned ip' now).1.bans.get? ip = b.bans.get? ip := by
  obtain hb | ⟨hb, -⟩ := b.isBanned_fst ip' now
  · rw [hb]
  · rw [hb]
    exact OrderedMap.get?_delete.trans (if_neg h)

/-- **Lazy expiry is not noticed**: `isBanned` deletes a ban only when it is over. -/
theorem standing_isBanned : (b.isBanned ip' now).1.standing ip now = b.standing ip now := by
  obtain h | ⟨h, hover⟩ := b.isBanned_fst ip' now
  · rw [h]
  · rw [h]
    by_cases hip : ip = ip'
    · subst hip
      refine congrArg₂ Standing.mk ?_ rfl
      rw [OrderedMap.get?_delete, if_pos rfl]
      exact hover.symm
    · exact standing_congr ⟨rfl, rfl, rfl⟩ (OrderedMap.get?_delete.trans (if_neg hip)) rfl

/-- **Eager expiry is not noticed**: `cleanup` deletes only what is over. -/
theorem standing_cleanup : (b.cleanup now).standing ip now = b.standing ip now := by
  have hbans : (b.cleanup now).bans.get? ip = (b.bans.get? ip).filter fun v ↦ !decide (now ≥ v) :=
    OrderedMap.get?_filter
  have hstrikes : (b.cleanup now).strikes.get? ip =
      (b.strikes.get? ip).filter fun v ↦ !decide (now - v.windowStart > b.strikeWindowMs) :=
    OrderedMap.get?_filter
  rw [standing, standing, hbans, hstrikes]
  refine congrArg₂ Standing.mk (Clocked.filter_filter_of_imp (fun until_ h ↦ ?_) _)
    (Clocked.filter_filter_of_imp (fun s h ↦ ?_) _)
  · simpa using h
  · simpa [cleanup] using h

theorem standing_ban_self :
    (b.ban ip now).standing ip now =
      Standing.at_ { ban := some (now + b.banMs), window := none } b.strikeWindowMs now := by
  rw [standing, ban, OrderedMap.get?_set_self, OrderedMap.get?_delete, if_pos rfl]

theorem standing_ban_of_ne (h : ip ≠ ip') : (b.ban ip' t).standing ip now = b.standing ip now :=
  standing_congr ⟨rfl, rfl, rfl⟩ (OrderedMap.get?_set_of_ne h)
    (OrderedMap.get?_delete.trans (if_neg h))

/-! ## What a strike does

The standing decides the answer: an address that is banned is told so and not counted, and otherwise
the strike is counted in the window, or in a new one if that is over. -/

theorem counted_standing (b : IpBlacklist) (ip : String) (now : ℕ) :
    (b.standing ip now).counted now =
      { b.window ip now with count := (b.window ip now).count + 1 } := by
  rw [window_eq_standing, Standing.counted]

/-- A strike looks at the ban first, and counts when there is none. -/
theorem strike_eq (b : IpBlacklist) (ip : String) (now : ℕ) :
    b.strike ip now =
      if (b.standing ip now).ban.isSome then
        ((b.isBanned ip now).1, { banned := true, count := b.strikeThreshold })
      else
        let s := (b.standing ip now).counted now
        let b' := (b.isBanned ip now).1
        let b' := { b' with strikes := b'.strikes.set ip s }
        if b.strikeThreshold ≤ s.count then
          (b'.ban ip now, { banned := true, count := s.count })
        else (b', { banned := false, count := s.count }) := by
  have hopt := @sameOptions_isBanned b ip now
  have hcounted : ((b.isBanned ip now).1.standing ip now).counted now =
      (b.standing ip now).counted now := by rw [standing_isBanned]
  rw [counted_standing (b.isBanned ip now).1] at hcounted
  rw [strike, ← isBanned_eq_standing, ← hcounted, ← hopt.strikeThreshold]
  obtain ⟨b', banned⟩ := b.isBanned ip now
  cases banned <;> rfl

/-- **What a strike answers** depends on the standing of the address alone. -/
theorem strike_snd (b : IpBlacklist) (ip : String) (now : ℕ) :
    (b.strike ip now).2 = (b.standing ip now).strikeAnswer b.strikeThreshold now := by
  rw [strike_eq, Standing.strikeAnswer]
  split
  · rfl
  · dsimp only
    split
    · next h => rw [decide_eq_true h]
    · next h => rw [decide_eq_false h]

theorem sameOptions_strike : SameOptions b (b.strike ip now).1 := by
  have hopt := @sameOptions_isBanned b ip now
  rw [strike_eq]
  dsimp only
  split
  · exact hopt
  · split
    · exact ⟨hopt.banMs, hopt.strikeThreshold, hopt.strikeWindowMs⟩
    · exact ⟨hopt.banMs, hopt.strikeThreshold, hopt.strikeWindowMs⟩

theorem standing_strike_of_ne (h : ip ≠ ip') :
    (b.strike ip' now).1.standing ip now = b.standing ip now := by
  refine standing_congr sameOptions_strike ?_ ?_
  · rw [strike_eq]
    dsimp only
    split
    · exact bans_isBanned_of_ne h
    · split
      · exact (OrderedMap.get?_set_of_ne h).trans (bans_isBanned_of_ne h)
      · exact bans_isBanned_of_ne h
  · rw [strike_eq]
    dsimp only
    split
    · rw [strikes_isBanned]
    · split
      · refine (OrderedMap.get?_delete.trans (if_neg h)).trans ?_
        rw [OrderedMap.get?_set_of_ne h, strikes_isBanned]
      · rw [OrderedMap.get?_set_of_ne h, strikes_isBanned]

/-- **What a strike makes of the standing**: one infraction more, and a ban at the threshold. -/
theorem standing_strike_self :
    (b.strike ip now).1.standing ip now =
      ((b.standing ip now).strike b.banMs b.strikeThreshold now).at_ b.strikeWindowMs now := by
  have hopt := @sameOptions_isBanned b ip now
  rw [strike_eq, Standing.strike]
  dsimp only
  split
  · rw [standing_isBanned, standing_later le_rfl]
  · next hban =>
    split
    · rw [standing_ban_self]
      dsimp only
      rw [hopt.banMs, hopt.strikeWindowMs]
    · refine congrArg₂ Standing.mk ?_ ?_
      · have hnone : (b.standing ip now).ban = none := by simpa using hban
        rw [← standing_isBanned] at hnone
        exact hnone
      · dsimp only
        rw [OrderedMap.get?_set_self, hopt.strikeWindowMs]

/-! ## Any call -/

theorem sameOptions_step (b : IpBlacklist) (e : BlacklistCall) :
    SameOptions b (clocked.step b e).1 := by
  cases e with
  | strike ip now => exact sameOptions_strike
  | ban ip now => exact ⟨rfl, rfl, rfl⟩
  | isBanned ip now => exact sameOptions_isBanned
  | cleanup now => exact ⟨rfl, rfl, rfl⟩

theorem sameOptions_after (b : IpBlacklist) (es : List BlacklistCall) :
    SameOptions b (clocked.after b es) := by
  induction es generalizing b with
  | nil => exact .refl b
  | cons e es ih => exact (sameOptions_step b e).trans (ih _)

/-- **Addresses do not meddle with one another**, and `cleanup` meddles with none. -/
theorem standing_step_of_not_isFor {e : BlacklistCall} (h : e.isFor ip = false) :
    (clocked.step b e).1.standing ip (clocked.time e) = b.standing ip (clocked.time e) := by
  cases e with
  | strike ip' now => exact standing_strike_of_ne (Ne.symm (of_decide_eq_false h))
  | ban ip' now => exact standing_ban_of_ne (Ne.symm (of_decide_eq_false h))
  | isBanned ip' now => exact standing_isBanned
  | cleanup now => exact standing_cleanup

end IpBlacklist

end AttestP2P
