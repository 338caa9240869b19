import AttestP2P.Config
import AttestP2P.Lib.OrderedMap

/-!
# The blacklist

`src/network/ipBlacklist.js`: an address that commits too many infractions within a window is
banned for a while.

Strikes are counted in one window for each address.  The window opens with a strike; a strike that
comes more than `strikeWindowMs` after it opened opens the next one, from zero.  The strike that
makes the count reach the threshold bans the address and forgets the window.  A ban is the time at
which it ends.  It is looked up by `isBanned`, which also forgets a ban that is over, so that both
a look and a strike can change the state.

Each function takes the time at which it is called, and returns the blacklist as it is afterwards
beside its result.  What the functions do to one address is studied in `Network.Standing`, and what
they do along a run in `Network.BanLifetime` and `Network.StrikeThreshold`.
-/

set_option autoImplicit false

namespace AttestP2P

/-- A window of infractions of one address: how many there were, and when it began. -/
structure StrikeWindow where
  count : ℕ
  windowStart : ℕ

/-- The fields of an `IpBlacklist`: its three options, the windows of infractions, and the bans. -/
structure IpBlacklist where
  banMs : ℕ
  strikeThreshold : ℕ
  strikeWindowMs : ℕ
  strikes : OrderedMap String StrikeWindow
  /-- The time each ban ends. -/
  bans : OrderedMap String ℕ

/-- The result of `strike`: whether the address is banned by now, and the infractions of its
window. -/
structure Strike where
  banned : Bool
  count : ℕ

namespace IpBlacklist

/-- `new IpBlacklist()`, with the options of the configuration. -/
def new : IpBlacklist where
  banMs := blacklistBanMs
  strikeThreshold := blacklistStrikeThreshold
  strikeWindowMs := blacklistStrikeWindowMs
  strikes := .empty
  bans := .empty

/-- `isBanned`: a ban that is over is lifted on the way. -/
def isBanned (b : IpBlacklist) (ip : String) (now : ℕ) : IpBlacklist × Bool :=
  match b.bans.get? ip with
  | none => (b, false)
  | some until_ => if now ≥ until_ then ({ b with bans := b.bans.delete ip }, false) else (b, true)

def ban (b : IpBlacklist) (ip : String) (now : ℕ) : IpBlacklist :=
  { b with bans := b.bans.set ip (now + b.banMs), strikes := b.strikes.delete ip }

/-- The window `strike` counts in: the current one, or a new one. -/
def window (b : IpBlacklist) (ip : String) (now : ℕ) : StrikeWindow :=
  match b.strikes.get? ip with
  | none => { count := 0, windowStart := now }
  | some s =>
    if now - s.windowStart > b.strikeWindowMs then { count := 0, windowStart := now } else s

def strike (b : IpBlacklist) (ip : String) (now : ℕ) : IpBlacklist × Strike :=
  match b.isBanned ip now with
  | (b, true) => (b, { banned := true, count := b.strikeThreshold })
  | (b, false) =>
    let s := b.window ip now
    let s := { s with count := s.count + 1 }
    let b := { b with strikes := b.strikes.set ip s }
    if s.count ≥ b.strikeThreshold then (b.ban ip now, { banned := true, count := s.count })
    else (b, { banned := false, count := s.count })

def cleanup (b : IpBlacklist) (now : ℕ) : IpBlacklist :=
  { b with
    bans := b.bans.filter fun e ↦ !decide (now ≥ e.2)
    strikes := b.strikes.filter fun e ↦ !decide (now - e.2.windowStart > b.strikeWindowMs) }

end IpBlacklist

end AttestP2P
