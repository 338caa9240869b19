import AttestP2P.Lib.Clocked
import AttestP2P.Network.IpRateLimiter

/-!
# What the rate limit per address bounds

Calls of `allow` and `cleanup` for any addresses, on a clock that does not go back.

A window that is over is as good as none: `live` is what `allow` makes of a counter, and neither
`cleanup` nor a call for another address changes it.  This gives the isolation of the addresses
(`answers_isolated`): the decisions for one of them are those of a limiter that is asked about
nothing else.

The windows of an address open more than `windowMs` apart.  So an interval of length `windowMs`
meets two of them at most, and each of them lets `limit` packets through.  `Window` is the
invariant: how much the current window has let through, and how much came in the `windowMs` before
it.  Its step is `Bounded.step`, and `rate_limit_bound` the result
for all runs.  The bound is met by a burst at the end of one window and another one at the beginning
of the next.
-/

set_option autoImplicit false

namespace AttestP2P

/-- A call of the limiter, with the time at which it is made. -/
inductive RateCall where
  | allow (ip : String) (now : ℕ)
  | cleanup (now : ℕ)

/-- The call is `allow` for the address, and not one for another. -/
def RateCall.isAllowOf (ip : String) : RateCall → Bool
  | .allow ip' _ => ip' = ip
  | .cleanup _ => false

namespace IpRateLimiter

/-- `new IpRateLimiter(limit, windowMs)`, with any two options and no window yet. -/
def ofOptions (limit windowMs : ℕ) : IpRateLimiter := ⟨limit, windowMs, .empty⟩

/-- The limiter and its calls; `allow` answers with its decision. -/
def clocked : Clocked IpRateLimiter RateCall (Option Bool) where
  time
    | .allow _ now => now
    | .cleanup now => now
  step r
    | .allow ip now => ((r.allow ip now).1, some (r.allow ip now).2)
    | .cleanup now => (r.cleanup now, none)

/-- The times at which packets of the address have been let through. -/
def allowedAt (ip : String) (history : List (RateCall × Option Bool)) : List ℕ :=
  history.filterMap fun a ↦
    match a with
    | (.allow ip' now, some true) => if ip' = ip then some now else none
    | _ => none

/-! ## Windows that are over -/

/-- The window of an address, unless it is over. -/
def live (r : IpRateLimiter) (ip : String) (now : ℕ) : Option RateWindow :=
  (r.counters.get? ip).filter fun c ↦ now - c.windowStart ≤ r.windowMs

theorem window_eq_live (r : IpRateLimiter) (ip : String) (now : ℕ) :
    r.window ip now = (r.live ip now).getD { count := 0, windowStart := now } := by
  rw [window, live]
  cases r.counters.get? ip with
  | none => rfl
  | some c =>
    rw [Option.filter_some]
    dsimp only
    split
    · next h =>
      rw [if_neg (by simp only [decide_eq_true_eq]; omega)]
      rfl
    · next h =>
      rw [if_pos (by simp only [decide_eq_true_eq]; omega)]
      rfl

/-- A window that is over stays over, as long as time does not go back. -/
theorem live_later {r : IpRateLimiter} {ip : String} {t t' : ℕ} (h : t ≤ t') :
    r.live ip t' = (r.live ip t).filter fun c ↦ t' - c.windowStart ≤ r.windowMs := by
  rw [live, live, Clocked.filter_filter_of_imp]
  intro c hc
  simp only [decide_eq_true_eq] at hc ⊢
  omega

/-- The two limiters treat the address alike, from the time `t` on. -/
structure Alike (ip : String) (t : ℕ) (r r' : IpRateLimiter) : Prop where
  limit : r.limit = r'.limit
  windowMs : r.windowMs = r'.windowMs
  live : r.live ip t = r'.live ip t

theorem Alike.later {ip : String} {t t' : ℕ} {r r' : IpRateLimiter} (ht : t ≤ t')
    (h : Alike ip t r r') : Alike ip t' r r' :=
  ⟨h.limit, h.windowMs, by rw [live_later ht, live_later ht, h.live, h.windowMs]⟩

/-- The window that a packet is counted in is not over. -/
theorem live_allow_self (r : IpRateLimiter) (ip : String) (now : ℕ) :
    (r.allow ip now).1.live ip now =
      some { r.window ip now with count := (r.window ip now).count + 1 } := by
  have hopen : now - (r.window ip now).windowStart ≤ r.windowMs := by
    rw [window]
    cases r.counters.get? ip with
    | none => simp
    | some c =>
      dsimp only
      split
      · simp
      · next h => omega
  rw [live, allow]
  dsimp only
  rw [OrderedMap.get?_set_self, Option.filter_some, if_pos (by simpa using hopen)]

theorem Alike.allow {ip : String} {now : ℕ} {r r' : IpRateLimiter} (h : Alike ip now r r') :
    (r.allow ip now).2 = (r'.allow ip now).2 ∧
      Alike ip now (r.allow ip now).1 (r'.allow ip now).1 := by
  have hwindow : r.window ip now = r'.window ip now := by
    rw [window_eq_live, window_eq_live, h.live]
  refine ⟨?_, h.limit, h.windowMs, ?_⟩
  · rw [IpRateLimiter.allow, IpRateLimiter.allow]
    dsimp only
    rw [hwindow, h.limit]
  · rw [live_allow_self, live_allow_self, hwindow]

/-- A packet of another address does not change the window of this one. -/
theorem live_allow_of_ne {r : IpRateLimiter} {ip ip' : String} {now : ℕ} (h : ip ≠ ip') :
    (r.allow ip' now).1.live ip now = r.live ip now := by
  rw [live, live, IpRateLimiter.allow]
  dsimp only
  rw [OrderedMap.get?_set_of_ne h]

/-- `cleanup` forgets windows that are over, and no other. -/
theorem live_cleanup (r : IpRateLimiter) (ip : String) (now : ℕ) :
    (r.cleanup now).live ip now = r.live ip now := by
  rw [live, live, cleanup]
  dsimp only
  rw [OrderedMap.get?_filter, Clocked.filter_filter_of_imp]
  intro c hc
  simp only [decide_eq_true_eq, Bool.not_eq_true', decide_eq_false_iff_not] at hc ⊢
  omega

/-- **Isolation.**  The decisions for an address are those of the calls for it alone. -/
theorem answers_isolated {ip : String} {r : IpRateLimiter} {t : ℕ} {es : List RateCall}
    (hes : clocked.Since t es) :
    (clocked.answers r es).filter (fun a ↦ a.1.isAllowOf ip) =
      clocked.answers r (es.filter (RateCall.isAllowOf ip)) := by
  refine Clocked.answers_filter (R := Alike ip) (fun t t' s s' ht h ↦ h.later ht) ?_ ?_ hes
    ⟨rfl, rfl, rfl⟩
  · intro s s' e he h
    cases e with
    | allow ip' now =>
      obtain rfl : ip' = ip := of_decide_eq_true he
      obtain ⟨hanswer, hafter⟩ := Alike.allow h
      exact ⟨congrArg some hanswer, hafter⟩
    | cleanup now => cases he
  · intro s s' e he h
    cases e with
    | allow ip' now =>
      have hne : ip' ≠ ip := of_decide_eq_false he
      exact ⟨h.limit, h.windowMs, (live_allow_of_ne hne.symm).trans h.live⟩
    | cleanup now => exact ⟨h.limit, h.windowMs, (live_cleanup s ip now).trans h.live⟩

/-! ## How many packets are let through

An interval that begins in one window ends in the next one at the latest.  What was let through
before the current window opened is counted from its opening backwards. -/

/-- How many of the times are in the interval from `a` to `b`. -/
def countIn (a b : ℕ) (times : List ℕ) : ℕ := times.countP fun t ↦ a ≤ t ∧ t ≤ b

theorem countP_le_add {α : Type} {p q q' : α → Bool} {l : List α}
    (h : ∀ x ∈ l, p x = true → q x = true ∨ q' x = true) :
    l.countP p ≤ l.countP q + l.countP q' := by
  induction l with
  | nil => exact le_rfl
  | cons x l ih =>
    have hrest := ih fun y hy ↦ h y (List.mem_cons_of_mem x hy)
    have hx := h x List.mem_cons_self
    rw [List.countP_cons, List.countP_cons, List.countP_cons]
    cases hp : p x <;> cases hq : q x <;> cases hq' : q' x <;> simp_all <;> omega

/-- What has been let through, in the window opened at `start` and before it. -/
structure Window (limit windowMs start : ℕ) (times : List ℕ) : Prop where
  /-- The window lets `limit` packets through. -/
  current : times.countP (fun t ↦ start ≤ t) ≤ limit
  /-- So does what came before it, as far as it is no more than `windowMs` back. -/
  before : times.countP (fun t ↦ start ≤ t + windowMs ∧ t < start) ≤ limit
  last : ∀ t ∈ times, t ≤ start + windowMs

/-- A window that is opened after all that was let through. -/
theorem Window.new {limit windowMs now : ℕ} {times : List ℕ}
    (hbefore : times.countP (fun t ↦ now ≤ t + windowMs) ≤ limit) (hlast : ∀ t ∈ times, t < now) :
    Window limit windowMs now times where
  current := by
    rw [List.countP_eq_zero.mpr fun t ht ↦ by simpa using hlast t ht]
    exact Nat.zero_le _
  before := by
    refine (List.countP_mono_left fun t _ h ↦ ?_).trans hbefore
    simp only [decide_eq_true_eq] at h ⊢
    exact h.1
  last t ht := by
    have hlt := hlast t ht
    omega

/-- The window after the one opened at `start`. -/
theorem Window.next {limit windowMs start now : ℕ} {times : List ℕ}
    (h : Window limit windowMs start times) (hover : start + windowMs < now) :
    Window limit windowMs now times := by
  refine .new ((List.countP_mono_left fun t _ ht ↦ ?_).trans h.current) fun t ht ↦ ?_
  · simp only [decide_eq_true_eq] at ht ⊢
    omega
  · have hlast := h.last t ht
    omega

/-- One more packet is let through, in a window that is open and has room. -/
theorem Window.add {limit windowMs start now : ℕ} {times : List ℕ}
    (h : Window limit windowMs start times) (hstart : start ≤ now) (hopen : now ≤ start + windowMs)
    (hroom : times.countP (fun t ↦ start ≤ t) < limit) :
    Window limit windowMs start (times ++ [now]) where
  current := by
    rw [List.countP_append, List.countP_singleton]
    split
    · exact hroom
    · exact h.current
  before := by
    rw [List.countP_append, List.countP_singleton, if_neg (by simp; omega)]
    exact h.before
  last t ht := by
    rcases List.mem_append.mp ht with ht | ht
    · exact h.last t ht
    · rw [List.mem_singleton.mp ht]
      exact hopen

/-- **An interval meets two windows at most**, each of which lets through no more than the limit. -/
theorem Window.countIn_le {limit windowMs start a : ℕ} {times : List ℕ}
    (h : Window limit windowMs start times) (ha : start ≤ a + windowMs) :
    countIn a (a + windowMs) times ≤ 2 * limit := by
  have hsplit : countIn a (a + windowMs) times ≤
      times.countP (fun t ↦ start ≤ t) +
        times.countP (fun t ↦ start ≤ t + windowMs ∧ t < start) := by
    refine countP_le_add fun t _ ht ↦ ?_
    simp only [decide_eq_true_eq] at ht ⊢
    omega
  have hcurrent := h.current
  have hbefore := h.before
  omega

/-- What the limiter has let through for an address, up to the time `t`. -/
structure Bounded (limit windowMs : ℕ) (ip : String) (t : ℕ) (r : IpRateLimiter)
    (times : List ℕ) : Prop where
  limit_eq : r.limit = limit
  windowMs_eq : r.windowMs = windowMs
  window : ∀ c, r.counters.get? ip = some c → c.windowStart ≤ t ∧
    Window limit windowMs c.windowStart times ∧
    times.countP (fun t ↦ c.windowStart ≤ t) ≤ c.count
  /-- A counter that is gone is one whose window is long over. -/
  forgotten : r.counters.get? ip = none → ∀ t' ∈ times, t' + windowMs < t
  bound : ∀ a, countIn a (a + windowMs) times ≤ 2 * limit

section
variable {limit windowMs now : ℕ} {ip : String} {r : IpRateLimiter} {times : List ℕ}

theorem Bounded.later {t : ℕ} (h : Bounded limit windowMs ip t r times) (ht : t ≤ now) :
    Bounded limit windowMs ip now r times where
  limit_eq := h.limit_eq
  windowMs_eq := h.windowMs_eq
  window c hc := ⟨(h.window c hc).1.trans ht, (h.window c hc).2⟩
  forgotten hnone t' ht' := (h.forgotten hnone t' ht').trans_le ht
  bound := h.bound

/-- The window that the next packet is counted in. -/
theorem Bounded.window_spec (h : Bounded limit windowMs ip now r times) :
    (r.window ip now).windowStart ≤ now ∧ now ≤ (r.window ip now).windowStart + windowMs ∧
      Window limit windowMs (r.window ip now).windowStart times ∧
      times.countP (fun t ↦ (r.window ip now).windowStart ≤ t) ≤ (r.window ip now).count := by
  have hnew : ∀ ts : List ℕ, (∀ t ∈ ts, t < now) → ts.countP (fun t ↦ now ≤ t) ≤ 0 :=
    fun ts hts ↦ Nat.le_of_eq (List.countP_eq_zero.mpr fun t ht ↦ by simpa using hts t ht)
  rw [IpRateLimiter.window]
  cases hget : r.counters.get? ip with
  | none =>
    have hlong := h.forgotten hget
    have hlast : ∀ t ∈ times, t < now := fun t ht ↦ (Nat.le_add_right t _).trans_lt (hlong t ht)
    refine ⟨le_rfl, Nat.le_add_right _ _, .new ?_ hlast, hnew times hlast⟩
    rw [List.countP_eq_zero.mpr fun t ht ↦ by simpa using hlong t ht]
    exact Nat.zero_le _
  | some c =>
    obtain ⟨hstart, hwindow, hcount⟩ := h.window c hget
    have hms := h.windowMs_eq
    dsimp only
    split
    · next hover =>
      have hafter : c.windowStart + windowMs < now := by omega
      exact ⟨le_rfl, Nat.le_add_right _ _, hwindow.next hafter,
        hnew times fun t ht ↦ (hwindow.last t ht).trans_lt hafter⟩
    · next hopen => exact ⟨hstart, by omega, hwindow, hcount⟩

theorem Bounded.allow (h : Bounded limit windowMs ip now r times) :
    Bounded limit windowMs ip now (r.allow ip now).1
      (times ++ if (r.allow ip now).2 then [now] else []) := by
  obtain ⟨hstart, hopen, hwindow, hcount⟩ := h.window_spec
  have hget : (r.allow ip now).1.counters.get? ip =
      some { r.window ip now with count := (r.window ip now).count + 1 } :=
    OrderedMap.get?_set_self
  have hdecision : (r.allow ip now).2 = decide ((r.window ip now).count + 1 ≤ limit) := by
    rw [IpRateLimiter.allow, h.limit_eq]
  have hforgotten : (r.allow ip now).1.counters.get? ip = none →
      ∀ t ∈ times ++ (if (r.allow ip now).2 then [now] else []), t + windowMs < now := by
    rw [hget]
    exact fun h ↦ by cases h
  cases hallow : (r.allow ip now).2 with
  | false =>
    rw [hallow] at hforgotten
    rw [if_neg Bool.false_ne_true, List.append_nil] at hforgotten ⊢
    refine ⟨h.limit_eq, h.windowMs_eq, fun c hc ↦ ?_, hforgotten, h.bound⟩
    obtain rfl := Option.some.inj (hget.symm.trans hc)
    exact ⟨hstart, hwindow, hcount.trans (Nat.le_succ _)⟩
  | true =>
    rw [hallow] at hforgotten hdecision
    rw [if_pos rfl] at hforgotten ⊢
    have hroom : (r.window ip now).count + 1 ≤ limit := of_decide_eq_true hdecision.symm
    have hadd := hwindow.add hstart hopen (Nat.lt_of_lt_of_le (Nat.lt_succ_of_le hcount) hroom)
    refine ⟨h.limit_eq, h.windowMs_eq, fun c hc ↦ ?_, hforgotten, fun a ↦ ?_⟩
    · obtain rfl := Option.some.inj (hget.symm.trans hc)
      refine ⟨hstart, hadd, ?_⟩
      rw [List.countP_append, List.countP_singleton, if_pos (by simpa using hstart)]
      exact Nat.succ_le_succ hcount
    · by_cases ha : a ≤ now ∧ now ≤ a + windowMs
      · exact hadd.countIn_le (hstart.trans ha.2)
      · have hsame : countIn a (a + windowMs) (times ++ [now]) =
            countIn a (a + windowMs) times := by
          rw [countIn, countIn, List.countP_append, List.countP_singleton,
            if_neg (by simpa using ha), Nat.add_zero]
        rw [hsame]
        exact h.bound a

theorem Bounded.of_counters {r' : IpRateLimiter} (h : Bounded limit windowMs ip now r times)
    (hlimit : r'.limit = r.limit) (hms : r'.windowMs = r.windowMs)
    (hget : r'.counters.get? ip = r.counters.get? ip) :
    Bounded limit windowMs ip now r' times where
  limit_eq := hlimit.trans h.limit_eq
  windowMs_eq := hms.trans h.windowMs_eq
  window c hc := h.window c (hget ▸ hc)
  forgotten hnone := h.forgotten (hget ▸ hnone)
  bound := h.bound

theorem Bounded.cleanup (h : Bounded limit windowMs ip now r times) :
    Bounded limit windowMs ip now (r.cleanup now) times := by
  have hget : (r.cleanup now).counters.get? ip = (r.counters.get? ip).filter fun c ↦
      !decide (now - c.windowStart > r.windowMs * 2) := OrderedMap.get?_filter
  refine ⟨h.limit_eq, h.windowMs_eq, fun c hc ↦ ?_, fun hnone t ht ↦ ?_, h.bound⟩
  · rw [hget] at hc
    exact h.window c (Option.filter_eq_some_iff.mp hc).1
  · rw [hget] at hnone
    cases hold : r.counters.get? ip with
    | none => exact h.forgotten hold t ht
    | some c =>
      have hlast := (h.window c hold).2.1.last t ht
      have hms := h.windowMs_eq
      rw [hold, Option.filter_some] at hnone
      split at hnone
      · cases hnone
      · next hover =>
        simp only [Bool.not_eq_true', decide_eq_false_iff_not, not_not] at hover
        omega

theorem bounded_ofOptions (limit windowMs : ℕ) (ip : String) :
    Bounded limit windowMs ip 0 (ofOptions limit windowMs) [] where
  limit_eq := rfl
  windowMs_eq := rfl
  window _ hc := nomatch hc
  forgotten _ _ ht := nomatch ht
  bound _ := Nat.zero_le _

end

theorem allowedAt_append (ip : String) (h h' : List (RateCall × Option Bool)) :
    allowedAt ip (h ++ h') = allowedAt ip h ++ allowedAt ip h' := List.filterMap_append

/-- **One call** keeps the bound, whichever it is and whatever address it is for. -/
theorem Bounded.step {limit windowMs : ℕ} {ip : String} {r : IpRateLimiter} {e : RateCall}
    {h : List (RateCall × Option Bool)}
    (hr : Bounded limit windowMs ip (clocked.time e) r (allowedAt ip h)) :
    Bounded limit windowMs ip (clocked.time e) (clocked.step r e).1
      (allowedAt ip (h ++ [(e, (clocked.step r e).2)])) := by
  rw [allowedAt_append]
  cases e with
  | allow ip' now =>
    by_cases hip : ip' = ip
    · subst hip
      have hallow : Bounded limit windowMs ip' now (r.allow ip' now).1
          (allowedAt ip' h ++ if (r.allow ip' now).2 then [now] else []) := Bounded.allow hr
      have hone : allowedAt ip' [(RateCall.allow ip' now, some (r.allow ip' now).2)] =
          if (r.allow ip' now).2 then [now] else [] := by
        cases hdecision : (r.allow ip' now).2 <;> simp [allowedAt]
      rw [← hone] at hallow
      exact hallow
    · have hnone : allowedAt ip [(RateCall.allow ip' now, some (r.allow ip' now).2)] = [] := by
        cases hdecision : (r.allow ip' now).2 <;> simp [allowedAt, hip]
      have hother : Bounded limit windowMs ip now (r.allow ip' now).1 (allowedAt ip h) :=
        hr.of_counters rfl rfl (OrderedMap.get?_set_of_ne (Ne.symm hip))
      rw [← List.append_nil (allowedAt ip h), ← hnone] at hother
      exact hother
  | cleanup now =>
    have hcleanup := Bounded.cleanup hr
    rw [← List.append_nil (allowedAt ip h)] at hcleanup
    exact hcleanup

/-- **The rate limit per address**, over any run of calls on a clock that does not go back: what is
decided for an address is decided by the calls for it, and no interval of length `windowMs` sees
more than `2 * limit` packets let through. -/
theorem rate_limit_bound (limit windowMs : ℕ) {calls : List RateCall}
    (hclock : clocked.Since 0 calls) (ip : String) :
    (clocked.answers (ofOptions limit windowMs) calls).filter (fun a ↦ a.1.isAllowOf ip) =
        clocked.answers (ofOptions limit windowMs) (calls.filter (RateCall.isAllowOf ip)) ∧
      ∀ a, countIn a (a + windowMs)
        (allowedAt ip (clocked.answers (ofOptions limit windowMs) calls)) ≤ 2 * limit := by
  refine ⟨answers_isolated hclock, ?_⟩
  have hend := Clocked.invariant_history (C := clocked) (P := fun _ ↦ True) (h := [])
    (I := fun t r h ↦ Bounded limit windowMs ip t r (allowedAt ip h))
    (fun t t' r h ht hr ↦ hr.later ht) (fun r e h hr _ ↦ hr.step) hclock
    (bounded_ofOptions limit windowMs ip) (fun _ _ ↦ trivial)
  exact hend.bound

/-- Three packets, of which two are let through, a `cleanup`, and two packets of the next window. -/
theorem rate_limit_bound_sample :
    (clocked.answers (ofOptions 2 10) [.allow "a" 0, .allow "a" 10, .allow "a" 10, .cleanup 11,
        .allow "b" 11, .allow "a" 11, .allow "a" 11]).filter (fun a ↦ a.1.isAllowOf "a") =
      clocked.answers (ofOptions 2 10) ([.allow "a" 0, .allow "a" 10, .allow "a" 10, .cleanup 11,
        .allow "b" 11, .allow "a" 11, .allow "a" 11].filter (RateCall.isAllowOf "a")) ∧
    ∀ a, countIn a (a + 10) (allowedAt "a" (clocked.answers (ofOptions 2 10) [.allow "a" 0,
      .allow "a" 10, .allow "a" 10, .cleanup 11, .allow "b" 11, .allow "a" 11, .allow "a" 11])) ≤
      2 * 2 :=
  rate_limit_bound 2 10 (by simp [Clocked.Since, clocked]) "a"

end IpRateLimiter

end AttestP2P
