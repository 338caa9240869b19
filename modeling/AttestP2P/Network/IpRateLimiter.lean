import AttestP2P.Config
import AttestP2P.Lib.OrderedMap

/-!
# The rate limit per address

`src/network/ipRateLimiter.js`: packets are counted in windows that open with a packet, and a packet
that comes more than `windowMs` after its window opened opens the next one.

All sockets of an address share one counter, so that an attacker gains nothing by opening many of
them.  A packet is counted before it is compared with the limit: packets above the limit are counted
too, and refused as long as the window lasts.  The windows are not aligned to any clock.  Around
the border of two windows twice the limit may pass within `windowMs`, and not more; this is shown
in `Network.RateBound`.

`Paced` says of the arrivals that are still to come that a limiter lets them all through; it is what
an honest sender has to keep to.  It follows from a bound over every interval of the length of a
window (`paced_of_sliding`), which is easier to promise, and `Admits.allow` is its step.
-/

set_option autoImplicit false

namespace AttestP2P

/-- A window of the limiter: the packets of one address that it has let through, and when the window
began. -/
structure RateWindow where
  count : ℕ
  windowStart : ℕ

/-- The fields of an `IpRateLimiter`: its two options, and the window of each address. -/
structure IpRateLimiter where
  limit : ℕ
  windowMs : ℕ
  counters : OrderedMap String RateWindow

namespace IpRateLimiter

/-- `new IpRateLimiter()`, with the limit of the configuration and windows of a second. -/
def new : IpRateLimiter where
  limit := maxPacketsPerSecondPerIp
  windowMs := 1000
  counters := .empty

/-- The window `allow` counts in: the current one, or a new one. -/
def window (r : IpRateLimiter) (ip : String) (now : ℕ) : RateWindow :=
  match r.counters.get? ip with
  | none => { count := 0, windowStart := now }
  | some c => if now - c.windowStart > r.windowMs then { count := 0, windowStart := now } else c

/-- `allow`: the limiter afterwards, and whether the packet is allowed. -/
def allow (r : IpRateLimiter) (ip : String) (now : ℕ) : IpRateLimiter × Bool :=
  let c := r.window ip now
  let c := { c with count := c.count + 1 }
  ({ r with counters := r.counters.set ip c }, decide (c.count ≤ r.limit))

/-- `cleanup`: windows that are long over are forgotten. -/
def cleanup (r : IpRateLimiter) (now : ℕ) : IpRateLimiter :=
  { r with counters := r.counters.filter fun e ↦ !decide (now - e.2.windowStart > r.windowMs * 2) }

end IpRateLimiter

/-! ## Paced arrivals -/

/-- Arrivals that a limit per window lets through: there are at most `limit` in the window opened at
`start`, which has already seen `count` of them, and in each window opened after it. -/
def Paced (limit windowMs : ℕ) : ℕ → ℕ → List ℕ → Prop
  | _, _, [] => True
  | start, count, t :: ts =>
    if t - start > windowMs then 1 ≤ limit ∧ Paced limit windowMs t 1 ts
    else count + 1 ≤ limit ∧ Paced limit windowMs start (count + 1) ts

/-- `past` are the arrivals of the current window, which was opened no later than the first of
them. -/
theorem paced_append {limit windowMs : ℕ} (hlimit : 0 < limit) (start : ℕ) (past ts : List ℕ)
    (hpast : past.length ≤ limit) (hstart : ∀ t, (past ++ ts)[0]? = some t → start ≤ t)
    (hslide : ∀ i a b, (past ++ ts)[i]? = some a → (past ++ ts)[i + limit]? = some b →
      a + windowMs < b) :
    Paced limit windowMs start past.length ts := by
  induction ts generalizing start past with
  | nil => exact trivial
  | cons t ts ih =>
    rw [Paced]
    split
    · -- the arrival opens a new window
      refine ⟨hlimit, ih _ [t] hlimit (by simp) fun i a b ha hb ↦ ?_⟩
      refine hslide (past.length + i) a b ?_ ?_
      · rwa [List.getElem?_append_right (by omega), Nat.add_sub_cancel_left]
      · rwa [Nat.add_assoc, List.getElem?_append_right (by omega), Nat.add_sub_cancel_left]
    · next hinside =>
      have hroom : past.length + 1 ≤ limit := by
        by_contra hfull
        have hlen : past.length = limit := by omega
        have hpos : 0 < past.length := by omega
        have hfirst : (past ++ t :: ts)[0]? = some past[0] := by
          rw [List.getElem?_append_left hpos, List.getElem?_eq_getElem hpos]
        have hlast : (past ++ t :: ts)[0 + limit]? = some t := by
          rw [List.getElem?_append_right (by omega)]
          simp [hlen]
        have hgap := hslide 0 _ _ hfirst hlast
        have hopen := hstart _ hfirst
        omega
      refine ⟨hroom, ?_⟩
      have hnext := ih start (past ++ [t])
      simp only [List.length_append, List.length_singleton, List.append_assoc,
        List.singleton_append] at hnext
      exact hnext hroom hstart hslide

/-- Arrivals are paced when no `limit + 1` of them in a row fit into a window. -/
theorem paced_of_sliding {limit windowMs : ℕ} (hlimit : 0 < limit) {start : ℕ} {ts : List ℕ}
    (hstart : ∀ t, ts[0]? = some t → start ≤ t)
    (hslide : ∀ i a b, ts[i]? = some a → ts[i + limit]? = some b → a + windowMs < b) :
    Paced limit windowMs start 0 ts :=
  paced_append hlimit start [] ts (Nat.zero_le _) hstart hslide

namespace IpRateLimiter

/-- The limiter will let these arrivals through, given the window that the address is in now. -/
def Admits (r : IpRateLimiter) (ip : String) (ts : List ℕ) : Prop :=
  match r.counters.get? ip with
  | none => ∀ t ∈ ts.head?, Paced r.limit r.windowMs t 0 ts
  | some c => Paced r.limit r.windowMs c.windowStart c.count ts

theorem Admits.allow {r : IpRateLimiter} {ip : String} {t : ℕ} {ts : List ℕ}
    (h : r.Admits ip (t :: ts)) : (r.allow ip t).2 = true ∧ (r.allow ip t).1.Admits ip ts := by
  have hcount : (r.window ip t).count + 1 ≤ r.limit ∧
      Paced r.limit r.windowMs (r.window ip t).windowStart ((r.window ip t).count + 1) ts := by
    rw [Admits] at h
    rw [window]
    split at h
    · have hpaced := h t rfl
      rw [Paced, if_neg (by omega)] at hpaced
      exact hpaced
    · next c hsome =>
      rw [Paced] at h
      by_cases hover : t - c.windowStart > r.windowMs
      · rw [if_pos hover] at h
        simpa only [if_pos hover] using h
      · rw [if_neg hover] at h
        simpa only [if_neg hover] using h
  refine ⟨decide_eq_true hcount.1, ?_⟩
  rw [Admits, IpRateLimiter.allow]
  simp only [OrderedMap.get?_set_self]
  exact hcount.2

end IpRateLimiter

end AttestP2P
