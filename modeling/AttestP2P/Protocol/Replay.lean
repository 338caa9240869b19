import AttestP2P.Config
import AttestP2P.Lib.OrderedMap

/-!
# The replay guard

`src/protocol/replay.js`: a packet is rejected when its timestamp is outside the window, or when a
packet of the same node with the same nonce is still in the cache.

The cache is a `Map`, which keeps its entries in the order in which they were put in.  Three things
happen to it in a `check` that gets past the window: what has left the window is purged from the
front, up to the first entry that has not; the nonce is looked up; and if it is new it is put in,
after the oldest entry was dropped if the cache was full.  The entries are in the order of their
arrival and not of their timestamps, which are the senders' (`Protocol.ReplayPurge` is about what
follows from that).

Times are milliseconds.  A timestamp read off the wire is always finite, so the test of
`Number.isFinite` is always passed.  A difference of times is truncated at zero where only a
positive one would be compared.
-/

set_option autoImplicit false

namespace AttestP2P

open Buffer

/-- The fields of a `ReplayGuard`: its two options, and what it has seen. -/
structure ReplayGuard where
  windowMs : ℕ
  maxEntries : ℕ
  /-- Keys and timestamps, in order of insertion. -/
  seen : OrderedMap String ℕ

/-- The result of `check`: accepted, or one of the two reasons for a rejection. -/
inductive ReplayGuard.Verdict where
  | ok
  | outsideWindow
  | nonceSeen
  deriving DecidableEq

/-- The `reason` of a rejection, in the words of the source. -/
def ReplayGuard.Verdict.reason : ReplayGuard.Verdict → Option String
  | .ok => none
  | .outsideWindow => some "timestamp hors fenêtre"
  | .nonceSeen => some "nonce déjà vu (replay)"

namespace ReplayGuard

/-- `new ReplayGuard()`, with the window and the maximum of the configuration. -/
def new : ReplayGuard where
  windowMs := replayWindowMs
  maxEntries := replayCacheMax
  seen := .empty

/-- `_key`: the same nonce from two nodes is two keys. -/
def key (nodeId nonce : Buffer) : String := hex nodeId ++ ":" ++ hex nonce

/-- `_purge`: from the oldest entry on, up to the first that is still in the window. -/
def purge (g : ReplayGuard) (now : ℕ) : ReplayGuard :=
  { g with seen := g.seen.dropWhile fun e ↦ now - e.2 > g.windowMs }

/-- `check`: the guard afterwards, and the verdict.  The window comes first, then the purge, and
only what is accepted is remembered. -/
def check (g : ReplayGuard) (nodeId : Buffer) (timestamp : ℕ) (nonce : Buffer) (now : ℕ) :
    ReplayGuard × Verdict :=
  if |(now : ℤ) - timestamp| > g.windowMs then (g, .outsideWindow)
  else
    let g := g.purge now
    let k := key nodeId nonce
    if g.seen.has k then (g, .nonceSeen)
    else
      let seen := if g.seen.size ≥ g.maxEntries then g.seen.deleteOldest else g.seen
      ({ g with seen := seen.set k timestamp }, .ok)

/-- Different nonces have different keys, whatever the nodes. -/
theorem key_inj {nodeId nodeId' nonce nonce' : Buffer} (h : key nodeId nonce = key nodeId' nonce') :
    nodeId = nodeId' ∧ nonce = nonce' := by
  have hlist :
      nodeId.hexChars ++ ':' :: nonce.hexChars = nodeId'.hexChars ++ ':' :: nonce'.hexChars := by
    simpa [key, hex, String.toList_append] using congrArg String.toList h
  obtain ⟨hnode, -, hnonce⟩ := (List.append_cons_inj_of_notMem (colon_notMem_hexChars _)
    (colon_notMem_hexChars _)).mp hlist
  exact ⟨hexChars_inj hnode, hexChars_inj hnonce⟩

/-- A fresh nonce with a timestamp inside the window is accepted; only its key is added. -/
theorem check_of_fresh {g : ReplayGuard} {nodeId nonce : Buffer} {timestamp now : ℕ}
    (hwindow : |(now : ℤ) - timestamp| ≤ g.windowMs) (hfresh : key nodeId nonce ∉ g.seen.keys) :
    (g.check nodeId timestamp nonce now).2 = .ok ∧
      (g.check nodeId timestamp nonce now).1.windowMs = g.windowMs ∧
      ∀ k ∈ (g.check nodeId timestamp nonce now).1.seen.keys,
        k = key nodeId nonce ∨ k ∈ g.seen.keys := by
  have hpurge : ∀ k ∈ (g.purge now).seen.keys, k ∈ g.seen.keys :=
    fun k hk ↦ OrderedMap.mem_keys_of_dropWhile hk
  have hnew : ¬ (g.purge now).seen.has (key nodeId nonce) = true := by
    rw [OrderedMap.has_iff]
    exact fun h ↦ hfresh (hpurge _ h)
  rw [check, if_neg (by omega)]
  simp only [if_neg hnew, true_and]
  refine ⟨rfl, fun k hk ↦ ?_⟩
  rcases OrderedMap.mem_keys_set.mp hk with hk | hk
  · exact .inl hk
  · split at hk
    · exact .inr (hpurge k (OrderedMap.mem_keys_of_deleteOldest hk))
    · exact .inr (hpurge k hk)

end ReplayGuard

end AttestP2P
