import AttestP2P.Config
import AttestP2P.Js.Json
import AttestP2P.Lib.OrderedMap

/-!
# Discovery

`src/network/udpDiscovery.js`: the peers a node has heard of, by the `nodeId` they announce.
Nothing proves an announcement: a datagram is taken at its word, and the address that is noted is
the one it came from (`onMessage_forged`).  What is dropped is what is not JSON, what is no
announcement or has no text for `nodeId`, and an announcement of the node's own identity.  The ports
are kept as they came, whatever they are.  An entry that has not been renewed for the time to live
is pruned.

`Session.PeerManager` reads the table at each of its ticks and dials those it has no session with.
Whether the one who answers is the one who was announced could only be found out by comparing the
announced identity with the one that the handshake has proved.

`JSON.parse(raw.toString())` is a parameter, `none` when it throws.  The clock is an input.
-/

set_option autoImplicit false

namespace AttestP2P

/-- What is kept of an announcement: fields that nobody has checked, and the address of the
datagram. -/
structure PeerEntry where
  address : String
  tcpPort : Option Json
  securePort : Option Json
  name : Option Json
  lastSeen : ℕ

/-- An element of `getPeers()`: an entry with the id it is kept under. -/
structure DiscoveredPeer extends PeerEntry where
  nodeId : String

/-- What `startDiscovery` keeps: its own id, and the latest announcement of every other. -/
structure UdpDiscovery where
  selfId : String
  peers : OrderedMap String PeerEntry

namespace UdpDiscovery

/-- The datagram of `announce()`, which is not signed. -/
def announce (selfId : String) (tcpPort securePort : Number) (name : String) : Buffer :=
  Json.utf8 ((Json.obj [("t", .str "announce"), ("nodeId", .str selfId), ("tcpPort", .num tcpPort),
    ("securePort", .num securePort), ("name", .str name)]).stringify "" "")

/-- The handler of `message`: an announcement of another node replaces what was kept under its id,
whoever sent it. -/
def onMessage (jsonParse : Buffer → Option Json) (s : UdpDiscovery) (raw : Buffer)
    (address : String) (now : ℕ) : UdpDiscovery :=
  match jsonParse raw with
  | none => s
  | some m =>
    if Json.strictEq (.str "announce") (m.get "t") then
      match m.get "nodeId" with
      | some (.str nodeId) =>
        if nodeId = s.selfId then s
        else
          let e : PeerEntry :=
            { address := address, tcpPort := m.get "tcpPort", securePort := m.get "securePort"
              name := m.get "name", lastSeen := now }
          { s with peers := s.peers.set nodeId e }
      | _ => s
    else s

/-- The interval `pruneTimer`: peers that have not been heard for too long are forgotten. -/
def prune (s : UdpDiscovery) (now : ℕ) : UdpDiscovery :=
  { s with peers := s.peers.filter fun e ↦ now - e.2.lastSeen ≤ peerTtlMs }

def getPeers (s : UdpDiscovery) : List DiscoveredPeer :=
  s.peers.entries.map fun e ↦ { nodeId := e.1, toPeerEntry := e.2 }

/-- What a datagram can do: nothing, or announce a peer that is not the node itself. -/
theorem onMessage_cases (jsonParse : Buffer → Option Json) (s : UdpDiscovery) (raw : Buffer)
    (address : String) (now : ℕ) :
    s.onMessage jsonParse raw address now = s ∨
      ∃ nodeId e, nodeId ≠ s.selfId ∧
        s.onMessage jsonParse raw address now = { s with peers := s.peers.set nodeId e } := by
  rw [onMessage]
  split
  · exact .inl rfl
  · split
    · split
      · split
        · exact .inl rfl
        · next h => exact .inr ⟨_, _, h, rfl⟩
      · exact .inl rfl
    · exact .inl rfl

/-- **An announcement is not authenticated.**  Whoever sends it, and from wherever, it is believed
about any identity but the node's own. -/
theorem onMessage_forged {jsonParse : Buffer → Option Json} {s : UdpDiscovery} {raw : Buffer}
    {nodeId : String} {tcpPort securePort name : Json} (address : String) (now : ℕ)
    (hne : nodeId ≠ s.selfId)
    (hraw : jsonParse raw = some (.obj [("t", .str "announce"), ("nodeId", .str nodeId),
      ("tcpPort", tcpPort), ("securePort", securePort), ("name", name)])) :
    (s.onMessage jsonParse raw address now).peers.get? nodeId =
      some ⟨address, some tcpPort, some securePort, some name, now⟩ := by
  simp [onMessage, hraw, Json.get, List.lookup_cons, Json.strictEq, hne]

/-- The node never lists itself, whatever datagrams arrive. -/
theorem selfId_notMem_onMessage {jsonParse : Buffer → Option Json} {s : UdpDiscovery}
    (hself : s.selfId ∉ s.peers.keys) (raw : Buffer) (address : String) (now : ℕ) :
    s.selfId ∉ (s.onMessage jsonParse raw address now).peers.keys := by
  obtain heq | ⟨nodeId, e, hne, heq⟩ := onMessage_cases jsonParse s raw address now
  · rw [heq]
    exact hself
  · rw [heq]
    intro h
    rcases OrderedMap.mem_keys_set.mp h with rfl | h
    · exact hne rfl
    · exact hself h

/-- A peer that has been silent for longer than `PEER_TTL_MS` is gone after the next `prune`. -/
theorem get?_prune {s : UdpDiscovery} {now : ℕ} {nodeId : String} :
    (s.prune now).peers.get? nodeId =
      (s.peers.get? nodeId).filter fun e ↦ now - e.lastSeen ≤ peerTtlMs :=
  OrderedMap.get?_filter

end UdpDiscovery

end AttestP2P
