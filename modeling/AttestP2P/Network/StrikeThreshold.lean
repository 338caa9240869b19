import AttestP2P.Network.Standing

/-!
# The threshold of strikes

The blacklist counts the strikes of an address in windows that follow one another: a window begins
with a strike, and the next one with the first strike after it is over.  The header of the source
speaks of a sliding window.  The two differ when a window ends in the middle of a burst: the strikes
before its end are forgotten, and the burst is counted as two.

* `windowOf` is the window after some strikes; the standing of an address is that window, unless it
  is over.
* `Unsplit`: no window begins in the middle of the strikes that matter.  It is computed from the
  times of the strikes.
* `strike_threshold`: a strike bans as in a sliding window exactly then.  The other direction never
  fails: the windows of the code ban nobody whom a sliding window would let in.

A ban forgets the window, so what counts for the next ban are the strikes since the last one ended.
-/

set_option autoImplicit false

namespace AttestP2P

namespace IpBlacklist

/-! ## The windows of some strikes -/

section
variable {strikeWindowMs : ℕ}

/-- A strike at the time `now`, counted in the window or in a new one. -/
def countStrike (strikeWindowMs : ℕ) (s : Option StrikeWindow) (now : ℕ) : Option StrikeWindow :=
  some (Standing.counted ⟨none, s.filter fun s ↦ now - s.windowStart ≤ strikeWindowMs⟩ now)

/-- The window after strikes at these times, which are in order. -/
def windowOf (strikeWindowMs : ℕ) (times : List ℕ) : Option StrikeWindow :=
  times.foldl (countStrike strikeWindowMs) none

theorem windowOf_append_singleton (times : List ℕ) (now : ℕ) :
    windowOf strikeWindowMs (times ++ [now]) =
      countStrike strikeWindowMs (windowOf strikeWindowMs times) now :=
  List.foldl_append

/-- The strikes since a time, which is what a window that slides would count. -/
def strikesSince (from_ : ℕ) (times : List ℕ) : ℕ := times.countP fun t ↦ from_ ≤ t

/-- What the window says of the strikes, if they came in the order of the clock: it began with one
of them, all came before it is over, and it counts those that came since it began. -/
structure Counts (times : List ℕ) (strikeWindowMs : ℕ) (s : StrikeWindow) : Prop where
  start : s.windowStart ∈ times
  within : ∀ t ∈ times, t ≤ s.windowStart + strikeWindowMs
  count : s.count = strikesSince s.windowStart times

theorem windowOf_eq_none {times : List ℕ} (h : windowOf strikeWindowMs times = none) :
    times = [] := by
  induction times using List.reverseRecOn with
  | nil => rfl
  | append_singleton times now ih =>
      exact nomatch (windowOf_append_singleton times now).symm.trans h

/-- Strikes that all came before `from_` are none since then. -/
theorem strikesSince_eq_zero {from_ : ℕ} {times : List ℕ} (h : ∀ t ∈ times, t < from_) :
    strikesSince from_ times = 0 :=
  List.countP_eq_zero.mpr fun t ht ↦ by simpa using h t ht

theorem strikesSince_append_singleton {from_ now : ℕ} {times : List ℕ} (h : from_ ≤ now) :
    strikesSince from_ (times ++ [now]) = strikesSince from_ times + 1 := by
  rw [strikesSince, List.countP_append, List.countP_singleton, if_pos (decide_eq_true h),
    strikesSince]

section
variable {times : List ℕ} {now : ℕ} {s : StrikeWindow}

/-- A window that begins now counts this strike, and no other. -/
theorem Counts.new (hlt : ∀ t ∈ times, t < now) :
    Counts (times ++ [now]) strikeWindowMs { count := 1, windowStart := now } where
  start := List.mem_append_right _ List.mem_cons_self
  within t ht := by
    obtain ht | ht := List.mem_append.mp ht
    · exact (hlt t ht).le.trans (Nat.le_add_right _ _)
    · exact (List.mem_singleton.mp ht).le.trans (Nat.le_add_right _ _)
  count := by rw [strikesSince_append_singleton le_rfl, strikesSince_eq_zero hlt]

/-- A window that is not over counts one strike more. -/
theorem Counts.next (h : Counts times strikeWindowMs s) (hle : ∀ t ∈ times, t ≤ now)
    (hlive : now - s.windowStart ≤ strikeWindowMs) :
    Counts (times ++ [now]) strikeWindowMs { s with count := s.count + 1 } where
  start := List.mem_append_left _ h.start
  within t ht := by
    obtain ht | ht := List.mem_append.mp ht
    · exact h.within t ht
    · rw [List.mem_singleton.mp ht]
      exact Nat.sub_le_iff_le_add'.mp hlive
  count := by rw [strikesSince_append_singleton (hle _ h.start), h.count]

theorem counts_windowOf (hsorted : times.Pairwise (· ≤ ·))
    (hs : windowOf strikeWindowMs times = some s) : Counts times strikeWindowMs s := by
  induction times using List.reverseRecOn generalizing s with
  | nil => exact nomatch hs
  | append_singleton times now ih =>
    obtain ⟨hsorted, -, hle⟩ := List.pairwise_append.mp hsorted
    replace hle : ∀ t ∈ times, t ≤ now := fun t ht ↦ hle t ht now List.mem_cons_self
    rw [windowOf_append_singleton, countStrike, Option.some.injEq] at hs
    subst hs
    cases hwindow : windowOf strikeWindowMs times with
    | none =>
      refine .new fun t ht ↦ ?_
      rw [windowOf_eq_none hwindow] at ht
      exact nomatch ht
    | some s =>
      have hcounts := ih hsorted hwindow
      rw [Option.filter_some]
      split
      · next hlive => exact hcounts.next hle (of_decide_eq_true hlive)
      · next hover =>
        refine .new fun t ht ↦ ?_
        have := hcounts.within t ht
        simp only [decide_eq_true_eq] at hover
        omega

end

end

/-! ## The condition

The strikes that a sliding window would count are the last ones, as many as the threshold.  The
condition is that the window of the code has not begun after the first of them. -/

/-- No window begins in the middle of the strikes that matter: when the last `strikeThreshold` of
the strikes came within `strikeWindowMs`, the window of the last one began no later than the first
of them. -/
def Unsplit (strikeThreshold strikeWindowMs : ℕ) (times : List ℕ) (now : ℕ) : Prop :=
  ∀ older recent, times = older ++ recent → recent.length = strikeThreshold →
    (∀ t ∈ recent, now ≤ t + strikeWindowMs) →
    ∀ s, windowOf strikeWindowMs times = some s → ∀ t ∈ recent, s.windowStart ≤ t

/-- The threshold of a sliding window: whoever strikes `strikeThreshold` times within
`strikeWindowMs` is banned. -/
def SlidingThreshold (strikeThreshold strikeWindowMs : ℕ) (times : List ℕ) (now : ℕ)
    (banned : Prop) : Prop :=
  ∀ older recent, times = older ++ recent → recent.length = strikeThreshold →
    (∀ t ∈ recent, now ≤ t + strikeWindowMs) → banned

/-- Among strikes in the order of the clock, the last `n` are since `from_` if as many are. -/
theorem le_of_mem_recent {older recent : List ℕ} {from_ : ℕ}
    (hsorted : (older ++ recent).Pairwise (· ≤ ·))
    (h : recent.length ≤ strikesSince from_ (older ++ recent)) : ∀ t ∈ recent, from_ ≤ t := by
  intro t ht
  by_contra hlt
  -- then nothing older is since `from_` either, and one of the recent ones is not
  have holder : strikesSince from_ older = 0 := by
    refine strikesSince_eq_zero fun t' ht' ↦ ?_
    have := (List.pairwise_append.mp hsorted).2.2 t' ht' t ht
    omega
  have hrecent : strikesSince from_ recent < recent.length := by
    refine List.countP_le_length.lt_of_ne fun hall ↦ hlt ?_
    exact of_decide_eq_true (List.countP_eq_length.mp hall t ht)
  rw [strikesSince, List.countP_append] at h
  rw [strikesSince] at holder hrecent
  omega

/-- **When the windows slide**: strikes of which the last window counts enough are those of a
sliding window, exactly if that window did not begin in the middle of them. -/
theorem slidingThreshold_iff {strikeThreshold strikeWindowMs now : ℕ} {times : List ℕ}
    {s : StrikeWindow} (hsorted : times.Pairwise (· ≤ ·))
    (hs : windowOf strikeWindowMs times = some s) :
    SlidingThreshold strikeThreshold strikeWindowMs times now (strikeThreshold ≤ s.count) ↔
      Unsplit strikeThreshold strikeWindowMs times now := by
  have hcounts := counts_windowOf hsorted hs
  constructor
  · intro h older recent htimes hlength hwithin s' hs'
    obtain rfl := Option.some.inj (hs.symm.trans hs')
    have hbanned := h older recent htimes hlength hwithin
    rw [hcounts.count, ← hlength, htimes] at hbanned
    exact le_of_mem_recent (htimes ▸ hsorted) hbanned
  · intro h older recent htimes hlength hwithin
    have hrecent := h older recent htimes hlength hwithin s hs
    have hall : strikesSince s.windowStart recent = recent.length :=
      List.countP_eq_length.mpr fun t ht ↦ decide_eq_true (hrecent t ht)
    rw [hcounts.count, ← hlength, ← hall, htimes, strikesSince, strikesSince, List.countP_append]
    exact Nat.le_add_left _ _

/-! ## The strikes of an address -/

/-- The strikes counted for the address since its last ban. -/
def strikeTimes (ip : String) (answers : List (BlacklistCall × BlacklistAnswer)) : List ℕ :=
  answers.foldl (fun times a ↦
    match a with
    | (.strike ip' now, .strike r) =>
      if ip' = ip then if r.banned then [] else times ++ [now] else times
    | (.ban ip' _, _) => if ip' = ip then [] else times
    | _ => times) []

/-- The standing is what the strikes have made of it. -/
structure Tracks (strikeWindowMs now : ℕ) (st : Standing) (times : List ℕ) : Prop where
  sorted : times.Pairwise (· ≤ ·)
  le : ∀ t ∈ times, t ≤ now
  window : st.window =
    (windowOf strikeWindowMs times).filter fun s ↦ now - s.windowStart ≤ strikeWindowMs
  free : st.ban.isSome = true → times = []

namespace Tracks

variable {strikeWindowMs now now' : ℕ} {st : Standing} {times : List ℕ}

theorem nil (ban : Option ℕ) : Tracks strikeWindowMs now ⟨ban, none⟩ [] where
  sorted := .nil
  le _ ht := nomatch ht
  window := rfl
  free _ := rfl

theorem later (h : Tracks strikeWindowMs now st times) (hle : now ≤ now') :
    Tracks strikeWindowMs now' (st.at_ strikeWindowMs now') times where
  sorted := h.sorted
  le t ht := (h.le t ht).trans hle
  window := by
    rw [Standing.at_, h.window]
    refine Clocked.filter_filter_of_imp (fun s hs ↦ ?_) _
    simp only [decide_eq_true_eq] at hs ⊢
    omega
  free hban := h.free (by
    cases hst : st.ban with
    | none => simp [Standing.at_, hst] at hban
    | some until_ => rfl)

/-- A strike is counted in the window after all strikes. -/
theorem counted (h : Tracks strikeWindowMs now st times) :
    windowOf strikeWindowMs (times ++ [now]) = some (st.counted now) := by
  rw [windowOf_append_singleton, countStrike, ← h.window]
  rfl

theorem sorted_append (h : Tracks strikeWindowMs now st times) :
    (times ++ [now]).Pairwise (· ≤ ·) :=
  List.pairwise_append.mpr ⟨h.sorted, List.pairwise_singleton _ _, fun t ht _ hnow ↦
    (h.le t ht).trans_eq (List.mem_singleton.mp hnow).symm⟩

theorem strike (h : Tracks strikeWindowMs now st times) (banMs strikeThreshold : ℕ) :
    Tracks strikeWindowMs now ((st.strike banMs strikeThreshold now).at_ strikeWindowMs now)
      (if (st.strikeAnswer strikeThreshold now).banned then [] else times ++ [now]) := by
  rw [Standing.strike, Standing.strikeAnswer]
  split
  · next hban =>
    rw [← h.free hban]
    exact h.later le_rfl
  · split
    · next hcount =>
      rw [if_pos (decide_eq_true hcount)]
      exact .nil _
    · next hcount =>
      rw [if_neg (by simpa using hcount)]
      exact
        { sorted := h.sorted_append
          le := fun t ht ↦ by
            obtain ht | ht := List.mem_append.mp ht
            · exact h.le t ht
            · exact (List.mem_singleton.mp ht).le
          window := by
            rw [h.counted]
            rfl
          free := fun hban ↦ by cases hban }

end Tracks

variable {ip : String} {now : ℕ} {b : IpBlacklist}

/-- A call for another address, and a question, are no strikes. -/
theorem strikeTimes_append (h : List (BlacklistCall × BlacklistAnswer))
    (a : BlacklistCall × BlacklistAnswer) :
    strikeTimes ip (h ++ [a]) =
      match a with
      | (.strike ip' now, .strike r) =>
        if ip' = ip then if r.banned then [] else strikeTimes ip h ++ [now] else strikeTimes ip h
      | (.ban ip' _, _) => if ip' = ip then [] else strikeTimes ip h
      | _ => strikeTimes ip h :=
  List.foldl_append

/-- **Every call keeps track**: the window is that of the strikes which have been made for the
address. -/
theorem Tracks.step {e : BlacklistCall} {h : List (BlacklistCall × BlacklistAnswer)}
    (hb : Tracks b.strikeWindowMs (clocked.time e) (b.standing ip (clocked.time e))
      (strikeTimes ip h)) :
    Tracks (clocked.step b e).1.strikeWindowMs (clocked.time e)
      ((clocked.step b e).1.standing ip (clocked.time e))
      (strikeTimes ip (h ++ [(e, (clocked.step b e).2)])) := by
  rw [strikeTimes_append, (sameOptions_step b e).strikeWindowMs]
  cases e with
  | strike ip' now =>
    dsimp only [clocked] at hb ⊢
    split
    · next hip =>
      subst hip
      rw [standing_strike_self, strike_snd]
      exact hb.strike b.banMs b.strikeThreshold
    · next hip => rwa [standing_strike_of_ne (Ne.symm hip)]
  | ban ip' now =>
    dsimp only [clocked] at hb ⊢
    split
    · next hip =>
      subst hip
      rw [standing_ban_self]
      exact .nil _
    · next hip => rwa [standing_ban_of_ne (Ne.symm hip)]
  | isBanned ip' now => exact (standing_isBanned : _ = b.standing ip now) ▸ hb
  | cleanup now => exact (standing_cleanup : _ = b.standing ip now) ▸ hb

/-- The strikes of a run, and what the blacklist keeps of them. -/
theorem tracks_after (banMs strikeThreshold strikeWindowMs : ℕ) {calls : List BlacklistCall}
    (hclock : clocked.Since 0 calls) (hnow : clocked.last 0 calls ≤ now) (ip : String) :
    Tracks strikeWindowMs now
      ((clocked.after (ofOptions banMs strikeThreshold strikeWindowMs) calls).standing ip now)
      (strikeTimes ip
        (clocked.answers (ofOptions banMs strikeThreshold strikeWindowMs) calls)) := by
  have hend := Clocked.invariant_history (C := clocked) (P := fun _ ↦ True) (h := [])
    (I := fun t b h ↦ Tracks b.strikeWindowMs t (b.standing ip t) (strikeTimes ip h))
    (fun t t' b h hle hb ↦ (standing_later hle : _ = b.standing ip t') ▸ hb.later hle)
    (fun b e h hb _ ↦ hb.step) hclock (s := ofOptions banMs strikeThreshold strikeWindowMs)
    (.nil none) (fun _ _ ↦ trivial)
  have hlater := hend.later hnow
  rw [standing_later hnow, (sameOptions_after _ calls).strikeWindowMs] at hlater
  exact hlater

/-- When the strike of an address that is not banned bans it. -/
theorem strike_bans_iff (hbanMs : 0 < b.banMs) (hfree : (b.standing ip now).ban.isSome = false) :
    (b.strike ip now).2.banned = true ∧ ((b.strike ip now).1.isBanned ip now).2 = true ↔
      b.strikeThreshold ≤ ((b.standing ip now).counted now).count := by
  have hnot : ¬(b.standing ip now).ban.isSome = true := by rw [hfree]; exact Bool.false_ne_true
  rw [strike_snd, isBanned_eq_standing, standing_strike_self, Standing.strikeAnswer, if_neg hnot,
    Standing.strike, if_neg hnot]
  constructor
  · rintro ⟨hbanned, -⟩
    exact of_decide_eq_true hbanned
  · intro hcount
    rw [if_pos hcount]
    have hlater : now < now + b.banMs := Nat.lt_add_of_pos_right hbanMs
    exact ⟨decide_eq_true hcount, by simp [Standing.at_, hlater]⟩

/-- **The threshold slides** exactly when no window begins in the middle of the strikes: in every
run on a clock that does not go back, at every strike of an address that is not banned. -/
theorem strike_threshold (banMs strikeThreshold strikeWindowMs : ℕ) (hbanMs : 0 < banMs)
    (ip : String) {calls : List BlacklistCall} (hclock : clocked.Since 0 calls)
    (hnow : clocked.last 0 calls ≤ now)
    (hfree : ((clocked.after (ofOptions banMs strikeThreshold strikeWindowMs) calls).isBanned
      ip now).2 = false) :
    let b := clocked.after (ofOptions banMs strikeThreshold strikeWindowMs) calls
    let times := strikeTimes ip
      (clocked.answers (ofOptions banMs strikeThreshold strikeWindowMs) calls) ++ [now]
    SlidingThreshold strikeThreshold strikeWindowMs times now
        ((b.strike ip now).2.banned = true ∧ ((b.strike ip now).1.isBanned ip now).2 = true) ↔
      Unsplit strikeThreshold strikeWindowMs times now := by
  have htracks := tracks_after banMs strikeThreshold strikeWindowMs hclock hnow ip
  have hopt := sameOptions_after (ofOptions banMs strikeThreshold strikeWindowMs) calls
  dsimp only
  generalize clocked.after (ofOptions banMs strikeThreshold strikeWindowMs) calls = b at *
  rw [← slidingThreshold_iff htracks.sorted_append htracks.counted]
  rw [isBanned_eq_standing] at hfree
  rw [strike_bans_iff (hopt.banMs ▸ hbanMs) hfree, hopt.strikeThreshold]
  rfl

/-- Three strikes within three seconds, and none bans: the window of the first strike ends between
them. -/
theorem split_burst :
    ((clocked.after (ofOptions 1000 3 10000) [.strike "9.9.9.9" 0, .strike "9.9.9.9" 9000,
      .strike "9.9.9.9" 11000]).isBanned "9.9.9.9" 12000).2 = false ∧
    ¬SlidingThreshold 3 10000
      (strikeTimes "9.9.9.9" (clocked.answers (ofOptions 1000 3 10000) [.strike "9.9.9.9" 0,
        .strike "9.9.9.9" 9000, .strike "9.9.9.9" 11000]) ++ [12000]) 12000
      (((clocked.after (ofOptions 1000 3 10000) [.strike "9.9.9.9" 0, .strike "9.9.9.9" 9000,
          .strike "9.9.9.9" 11000]).strike "9.9.9.9" 12000).2.banned = true ∧
        (((clocked.after (ofOptions 1000 3 10000) [.strike "9.9.9.9" 0, .strike "9.9.9.9" 9000,
          .strike "9.9.9.9" 11000]).strike "9.9.9.9" 12000).1.isBanned "9.9.9.9" 12000).2 =
          true) := by
  refine ⟨by decide, fun hsliding ↦ ?_⟩
  have hbanned := (hsliding [0] [9000, 11000, 12000] (by decide) rfl (by decide)).1
  exact absurd hbanned (by decide)

/-- An old strike, and later two more; the next one is the third within ten seconds. -/
def spread : List BlacklistCall :=
  [.strike "9.9.9.9" 20000, .strike "9.9.9.9" 100000, .strike "9.9.9.9" 104000]

/-- The window that has begun with the second of four strikes holds the last three, which ban. -/
theorem strike_threshold_sample :
    strikeTimes "9.9.9.9" (clocked.answers (ofOptions 1000 3 10000) spread) ++ [109000] =
        [20000, 100000, 104000, 109000] ∧
      ((clocked.after (ofOptions 1000 3 10000) spread).strike "9.9.9.9" 109000).2.banned = true ∧
      SlidingThreshold 3 10000 [20000, 100000, 104000, 109000] 109000
        (((clocked.after (ofOptions 1000 3 10000) spread).strike "9.9.9.9" 109000).2.banned = true ∧
          (((clocked.after (ofOptions 1000 3 10000) spread).strike "9.9.9.9" 109000).1.isBanned
            "9.9.9.9" 109000).2 = true) ∧
      Unsplit 3 10000 [20000, 100000, 104000, 109000] 109000 := by
  have hbanned :
      ((clocked.after (ofOptions 1000 3 10000) spread).strike "9.9.9.9" 109000).2.banned = true ∧
      (((clocked.after (ofOptions 1000 3 10000) spread).strike "9.9.9.9" 109000).1.isBanned
        "9.9.9.9" 109000).2 = true := by decide
  have hclock : clocked.Since 0 spread := by simp [Clocked.Since, clocked, spread]
  refine ⟨by decide, hbanned.1, fun _ _ _ _ _ ↦ hbanned, ?_⟩
  exact (strike_threshold 1000 3 10000 (by decide) "9.9.9.9" hclock (by decide) (by decide)).mp
    fun _ _ _ _ _ ↦ hbanned

end IpBlacklist

end AttestP2P
