import AttestP2P.Js.Json
import AttestP2P.Lib.Machine
import AttestP2P.Lib.OrderedMap

/-!
# The node and its sessions

`src/node/attestp2pNode.js`: every session that is secured — accepted by the server, dialled by the
peer manager, or dialled from the bootstrap list — is attached, and `sendMessage` looks the session
of a peer up in `sessionsByPeer`, which keeps the one that was attached last.

* A session is known by the order in which it was attached.  `conns` remembers all of them.
* `sent` holds what `sendMessage` has handed to sessions, and `asked` the queries it has passed on
  to the assistant, whose answers come from outside.
* Files are the business of `FileNode`.

When a session closes, the entry of its peer is deleted if it is this session.  An older session of
the same peer, that may still be open, is not put back into its place, and the peer counts as not
connected.  `Connected` says what an entry should mean, and `connected_iff_latestClosesLast` that it
means this exactly as long as sessions of one peer close in the right order.
-/

set_option autoImplicit false

namespace AttestP2P

/-- An attached session: the identity of its peer, and whether it has been closed. -/
structure AttachedConn where
  peerId : Buffer
  closed : Bool

/-- Who a line of a thread comes from. -/
inductive Direction where
  | incoming
  | outgoing
  | ai

structure ThreadLine where
  dir : Direction
  text : String
  ts : ℕ

structure AttestP2PNode where
  sessionsByPeer : OrderedMap String ℕ
  threads : OrderedMap String (List ThreadLine)
  conns : List AttachedConn
  sent : List (ℕ × Buffer)
  asked : List (String × String)

inductive NodeEvent where
  | attach (peerId : Buffer)
  | close (conn : ℕ)
  | sendMessage (nodeIdHex text : String) (now : ℕ)

namespace AttestP2PNode

/-! ## The assistant is called by name -/

/-- `\w`, without the flag `u`: the letters, digits and underscore of ASCII. -/
def isWord (c : Char) : Bool := c.isAlphanum || c = '_'

/-- What follows `word` at the start of the text. -/
def dropWord (word text : List Char) : Option (List Char) :=
  if word.isPrefixOf text then some (text.drop word.length) else none

/-- The text starts with `word`, which ends in a letter, and the word ends there. -/
def startsWithWord (word text : List Char) : Bool :=
  (dropWord word text).any fun rest ↦ !rest.head?.any isWord

def aiName : List Char := "@attestp2p-ai".toList

def askCommand : List Char := "/ask".toList

/-- `_isAiTrigger`: the name of the assistant somewhere, or the command at the start. -/
def isAiTrigger (text : String) : Bool :=
  text.toList.tails.any (startsWithWord aiName) ||
    startsWithWord askCommand (text.toList.dropWhile Number.isSpace)

/-- `t.replace(/@attestp2p-ai/g, "")`; `skip` characters of an occurrence are still to be left
out. -/
def removeName (skip : ℕ) : List Char → List Char
  | [] => []
  | c :: text =>
    match skip with
    | skip + 1 => removeName skip text
    | 0 =>
      if aiName.isPrefixOf (c :: text) then removeName (aiName.length - 1) text
      else c :: removeName 0 text

/-- `_stripTrigger`: the name is removed wherever it stands, and the command at the start, and what
remains is trimmed. -/
def stripTrigger (text : String) : String :=
  let named := removeName 0 text.toList
  let query := (dropWord askCommand (named.dropWhile Number.isSpace)).getD named
  String.ofList ((query.dropWhile Number.isSpace).reverse.dropWhile Number.isSpace).reverse

example : isAiTrigger "  /ask why?" = true ∧ isAiTrigger "hi @attestp2p-aim" = false ∧
    stripTrigger " /ask @attestp2p-ai why? " = "why?" := by decide +kernel

/-! ## The node -/

/-- `CHAT`, the type byte of a text message. -/
def chat : UInt8 := 0x20

/-- A node without sessions, threads or questions. -/
def start : AttestP2PNode := ⟨.empty, .empty, [], [], []⟩

/-- `_attach`: the newest session with a peer is the one that messages to it take. -/
def attach (s : AttestP2PNode) (peerId : Buffer) : AttestP2PNode :=
  { s with
    sessionsByPeer := s.sessionsByPeer.set peerId.hex s.conns.length
    conns := s.conns ++ [⟨peerId, false⟩] }

/-- The listener of `close`: the session `d` has the number `c`. -/
def onClose (s : AttestP2PNode) (c : ℕ) (d : AttachedConn) : AttestP2PNode :=
  { s with
    conns := s.conns.set c { d with closed := true }
    sessionsByPeer :=
      if s.sessionsByPeer.get? d.peerId.hex = some c then s.sessionsByPeer.delete d.peerId.hex
      else s.sessionsByPeer }

/-- The thread with a peer has a new line. -/
def push (s : AttestP2PNode) (peerHex : String) (line : ThreadLine) : AttestP2PNode :=
  { s with threads := s.threads.set peerHex ((s.threads.get? peerHex).getD [] ++ [line]) }

def sendMessage (s : AttestP2PNode) (nodeIdHex text : String) (now : ℕ) :
    Except String AttestP2PNode :=
  match s.sessionsByPeer.get? nodeIdHex with
  | none => .error ("pas de session ouverte avec " ++ String.ofList (nodeIdHex.toList.take 8))
  | some c =>
    let s := { s with sent := s.sent ++ [(c, chat :: Json.utf8 text)] }
    let s := s.push nodeIdHex ⟨.outgoing, text, now⟩
    .ok { s with
      asked := if isAiTrigger text then s.asked ++ [(nodeIdHex, stripTrigger text)] else s.asked }

def next (s : AttestP2PNode) : NodeEvent → AttestP2PNode
  | .attach peerId => s.attach peerId
  | .close c => (s.conns[c]?).elim s fun d ↦ s.onClose c d
  | .sendMessage nodeIdHex text now => (s.sendMessage nodeIdHex text now).toOption.getD s

/-! ## A connected peer is reachable -/

/-- The session with the number `c` is `d`, and is open. -/
def Open (s : AttestP2PNode) (c : ℕ) (d : AttachedConn) : Prop :=
  s.conns[c]? = some d ∧ d.closed = false

/-- **A connected peer is reachable**: where some session with it is open, its entry is an open
session. -/
structure Connected (s : AttestP2PNode) : Prop where
  /-- A peer has an entry exactly when a session with it is open. -/
  has_iff : ∀ peerHex, s.sessionsByPeer.has peerHex = true ↔
    ∃ c d, s.Open c d ∧ d.peerId.hex = peerHex
  /-- The entry is such a session. -/
  entry_open : ∀ peerHex c, s.sessionsByPeer.get? peerHex = some c →
    ∃ d, s.Open c d ∧ d.peerId.hex = peerHex
  /-- A message to a peer with an open session is not refused. -/
  sends : ∀ c d text now, s.Open c d →
    ∃ s', s.sendMessage d.peerId.hex text now = .ok s'

/-- No session of the peer was attached after `c`. -/
def Latest (s : AttestP2PNode) (c : ℕ) (peerHex : String) : Prop :=
  ∀ c' d', s.conns[c']? = some d' → d'.peerId.hex = peerHex → c' ≤ c

/-- The session that was attached last with a peer is not closed while an older one is open. -/
def LatestClosesLast (s : AttestP2PNode) : NodeEvent → Prop
  | .close c => ∀ d c' d', s.conns[c]? = some d → s.Latest c d.peerId.hex → s.Open c' d' →
      d'.peerId.hex = d.peerId.hex → c' = c
  | _ => True

/-- The invariant behind `Connected`: an entry is the session attached last, and an open session has
an entry. -/
structure Routed (s : AttestP2PNode) : Prop where
  entry : ∀ peerHex c, s.sessionsByPeer.get? peerHex = some c →
    s.Latest c peerHex ∧ ∃ d, s.Open c d ∧ d.peerId.hex = peerHex
  routed : ∀ c d, s.Open c d → ∃ c', s.sessionsByPeer.get? d.peerId.hex = some c'

variable {s : AttestP2PNode}

theorem Routed.connected (hs : s.Routed) : s.Connected where
  has_iff peerHex := by
    rw [OrderedMap.has, Option.isSome_iff_exists]
    constructor
    · rintro ⟨c, hget⟩
      obtain ⟨-, d, hopen, hhex⟩ := hs.entry peerHex c hget
      exact ⟨c, d, hopen, hhex⟩
    · rintro ⟨c, d, hopen, rfl⟩
      exact hs.routed c d hopen
  entry_open peerHex c hget := (hs.entry peerHex c hget).2
  sends c d text now hopen := by
    obtain ⟨c', hget⟩ := hs.routed c d hopen
    exact ⟨_, by rw [sendMessage, hget]⟩

theorem routed_start : start.Routed where
  entry _ _ h := absurd h (by simp [start])
  routed _ _ h := absurd h.1 (by simp [start])

/-- What is attached is attached last, under the next number. -/
theorem open_attach {peerId : Buffer} : (s.attach peerId).Open s.conns.length ⟨peerId, false⟩ :=
  ⟨List.getElem?_concat_length, rfl⟩

theorem conns_of_attach {peerId : Buffer} {c : ℕ} {d : AttachedConn}
    (h : (s.attach peerId).conns[c]? = some d) :
    s.conns[c]? = some d ∨ c = s.conns.length ∧ d = ⟨peerId, false⟩ := by
  rw [attach, List.getElem?_append] at h
  split at h
  · exact .inl h
  · rw [List.getElem?_singleton] at h
    split at h
    · exact .inr ⟨by omega, (Option.some.inj h).symm⟩
    · exact absurd h (by simp)

theorem open_attach_of_open {peerId : Buffer} {c : ℕ} {d : AttachedConn} (h : s.Open c d) :
    (s.attach peerId).Open c d :=
  ⟨(List.getElem?_append_left (List.getElem?_eq_some_iff.mp h.1).1).trans h.1, h.2⟩

theorem Routed.attach (hs : s.Routed) (peerId : Buffer) : (s.attach peerId).Routed where
  entry peerHex c hget := by
    by_cases hpeer : peerHex = peerId.hex
    · subst hpeer
      obtain rfl : s.conns.length = c := Option.some.inj (OrderedMap.get?_set_self.symm.trans hget)
      refine ⟨fun c' d' hc' _ ↦ ?_, _, open_attach, rfl⟩
      rcases conns_of_attach hc' with hold | ⟨rfl, -⟩
      · exact Nat.le_of_lt (List.getElem?_eq_some_iff.mp hold).1
      · exact Nat.le_refl _
    · obtain ⟨hlatest, d, hopen, hhex⟩ :=
        hs.entry peerHex c ((OrderedMap.get?_set_of_ne hpeer).symm.trans hget)
      refine ⟨fun c' d' hc' hhex' ↦ ?_, d, open_attach_of_open hopen, hhex⟩
      rcases conns_of_attach hc' with hold | ⟨-, rfl⟩
      · exact hlatest c' d' hold hhex'
      · exact absurd hhex'.symm hpeer
  routed c d h := by
    by_cases hpeer : d.peerId.hex = peerId.hex
    · exact ⟨_, by rw [hpeer]; exact OrderedMap.get?_set_self⟩
    · rcases conns_of_attach h.1 with hold | ⟨-, rfl⟩
      · obtain ⟨c', hget⟩ := hs.routed c d ⟨hold, h.2⟩
        exact ⟨c', (OrderedMap.get?_set_of_ne hpeer).trans hget⟩
      · exact absurd rfl hpeer

theorem conns_of_onClose {c c' : ℕ} {d d' : AttachedConn} (hd : s.conns[c]? = some d)
    (h : (s.onClose c d).conns[c']? = some d') :
    ∃ d₀, s.conns[c']? = some d₀ ∧ d₀.peerId = d'.peerId := by
  rw [onClose, List.getElem?_set] at h
  split at h
  · next heq =>
    subst heq
    split at h
    · obtain rfl := Option.some.inj h
      exact ⟨d, hd, rfl⟩
    · exact absurd h (by simp)
  · exact ⟨d', h, rfl⟩

theorem open_of_onClose {c c' : ℕ} {d d' : AttachedConn} (h : (s.onClose c d).Open c' d') :
    c' ≠ c ∧ s.Open c' d' := by
  obtain ⟨hget, hopen⟩ := h
  rw [onClose, List.getElem?_set] at hget
  split at hget
  · split at hget
    · exact absurd hopen (by rw [← Option.some.inj hget]; simp)
    · exact absurd hget (by simp)
  · next hne => exact ⟨Ne.symm hne, hget, hopen⟩

theorem open_onClose_of_ne {c c' : ℕ} {d d' : AttachedConn} (h : s.Open c' d') (hne : c' ≠ c) :
    (s.onClose c d).Open c' d' :=
  ⟨(List.getElem?_set_ne (Ne.symm hne)).trans h.1, h.2⟩

/-- The entry of a peer goes when the session it names closes, and nothing else changes. -/
theorem get?_onClose {c : ℕ} {d : AttachedConn} {peerHex : String} :
    (s.onClose c d).sessionsByPeer.get? peerHex =
      if peerHex = d.peerId.hex ∧ s.sessionsByPeer.get? peerHex = some c then none
      else s.sessionsByPeer.get? peerHex := by
  have hmap : (s.onClose c d).sessionsByPeer =
      if s.sessionsByPeer.get? d.peerId.hex = some c then s.sessionsByPeer.delete d.peerId.hex
      else s.sessionsByPeer := rfl
  rw [hmap]
  by_cases hpeer : peerHex = d.peerId.hex
  · subst hpeer
    by_cases hmapped : s.sessionsByPeer.get? d.peerId.hex = some c
    · rw [if_pos hmapped, if_pos ⟨rfl, hmapped⟩, OrderedMap.get?_delete, if_pos rfl]
    · rw [if_neg hmapped, if_neg (not_and_of_not_right _ hmapped)]
  · rw [if_neg (not_and_of_not_left _ hpeer)]
    split
    · rw [OrderedMap.get?_delete, if_neg hpeer]
    · rfl

theorem Routed.onClose (hs : s.Routed) {c : ℕ} {d : AttachedConn} (hd : s.conns[c]? = some d)
    (h : s.LatestClosesLast (.close c)) : (s.onClose c d).Routed where
  entry peerHex c' hget := by
    rw [get?_onClose] at hget
    split at hget
    · exact absurd hget (by simp)
    · next hkeep =>
      obtain ⟨hlatest, d', hopen, hhex⟩ := hs.entry peerHex c' hget
      have hne : c' ≠ c := by
        rintro rfl
        obtain rfl : d = d' := Option.some.inj (hd.symm.trans hopen.1)
        exact hkeep ⟨hhex.symm, hget⟩
      refine ⟨fun c₁ d₁ h₁ hhex₁ ↦ ?_, d', open_onClose_of_ne hopen hne, hhex⟩
      obtain ⟨d₀, h₀, hpeer⟩ := conns_of_onClose hd h₁
      exact hlatest c₁ d₀ h₀ (by rw [hpeer, hhex₁])
  routed c' d' hopen := by
    obtain ⟨hne, hopen⟩ := open_of_onClose hopen
    obtain ⟨e, hget⟩ := hs.routed c' d' hopen
    refine ⟨e, ?_⟩
    rw [get?_onClose, if_neg, hget]
    rintro ⟨hpeer, hmapped⟩
    -- the session that closes is the one attached last, and this one is still open
    have hlatest : s.Latest c d.peerId.hex := hpeer ▸ (hs.entry _ c hmapped).1
    exact hne (h d c' d' hd hlatest hopen hpeer)

theorem conns_sendMessage {nodeIdHex text : String} {now : ℕ} {s' : AttestP2PNode}
    (h : s.sendMessage nodeIdHex text now = .ok s') :
    s'.conns = s.conns ∧ s'.sessionsByPeer = s.sessionsByPeer := by
  rw [sendMessage] at h
  split at h
  · exact absurd h (by simp)
  · obtain rfl := Except.ok.inj h
    exact ⟨rfl, rfl⟩

/-- Sending messages changes nothing about the sessions, whether or not there is one for the
peer. -/
theorem Routed.sendMessage (hs : s.Routed) (nodeIdHex text : String) (now : ℕ) :
    (s.next (.sendMessage nodeIdHex text now)).Routed := by
  rw [AttestP2PNode.next]
  cases h : s.sendMessage nodeIdHex text now with
  | error e => exact hs
  | ok s' =>
    obtain ⟨hconns, hsessions⟩ := conns_sendMessage h
    have hopen : ∀ c d, s'.Open c d ↔ s.Open c d := fun c d ↦ by rw [Open, Open, hconns]
    constructor
    · intro peerHex c hget
      rw [Except.toOption, Option.getD_some, hsessions] at hget
      obtain ⟨hlatest, d, ho, hhex⟩ := hs.entry peerHex c hget
      refine ⟨fun c' d' hd' ↦ hlatest c' d' ?_, d, (hopen c d).mpr ho, hhex⟩
      exact hconns ▸ hd'
    · intro c d ho
      rw [Except.toOption, Option.getD_some, hsessions]
      exact hs.routed c d ((hopen c d).mp ho)

theorem Routed.next (hs : s.Routed) {e : NodeEvent} (h : s.LatestClosesLast e) :
    (s.next e).Routed := by
  cases e with
  | attach peerId => exact hs.attach peerId
  | sendMessage nodeIdHex text now => exact hs.sendMessage nodeIdHex text now
  | close c =>
    rw [AttestP2PNode.next]
    cases hd : s.conns[c]? with
    | none => exact hs
    | some d => exact hs.onClose hd h

/-- When the session attached last with a peer closes, its entry goes, and an older session that is
still open is not found any more. -/
theorem Routed.not_connected_next (hs : s.Routed) {e : NodeEvent} (h : ¬ s.LatestClosesLast e) :
    ¬ (s.next e).Connected := by
  intro hconn
  cases e with
  | attach peerId => exact h trivial
  | sendMessage nodeIdHex text now => exact h trivial
  | close c =>
    refine h fun d c' d' hd hlatest hopen hhex ↦ ?_
    refine Classical.byContradiction fun hne ↦ ?_
    rw [AttestP2PNode.next, hd, Option.elim_some] at hconn
    -- the entry is the session attached last
    obtain ⟨e, hget⟩ := hs.routed c' d' hopen
    rw [hhex] at hget
    obtain ⟨hlatest', d₀, hopen₀, hhex₀⟩ := hs.entry _ e hget
    obtain rfl : e = c := Nat.le_antisymm (hlatest e d₀ hopen₀.1 hhex₀) (hlatest' c d hd rfl)
    have hhas := (hconn.has_iff d.peerId.hex).mpr ⟨c', d', open_onClose_of_ne hopen hne, hhex⟩
    rw [OrderedMap.has, get?_onClose, if_pos ⟨rfl, hget⟩] at hhas
    exact absurd hhas (by simp)

/-- **A connected peer is reachable, exactly when sessions close in the right order**: in every
state of a run exactly when the session attached last with a peer never closes while an older one is
open. -/
theorem connected_iff_latestClosesLast (es : List NodeEvent) :
    Machine.Feasible LatestClosesLast next start es ↔
      ∀ es₁ es₂, es = es₁ ++ es₂ → (es₁.foldl next start).Connected :=
  Machine.feasible_iff_forall_prefix (I := Routed) (Q := Connected) (fun _ hs ↦ hs.connected)
    (fun _ _ hs _ h ↦ hs.next h) (fun _ _ hs _ h ↦ hs.not_connected_next h) routed_start
    Machine.feasible_true

/-- The identity of a peer, an Ed25519 public key. -/
def samplePeerId : Buffer :=
  Json.fromHex "3d4017c3e843895a92b70aa74d1b7ebc9c982ccf2ec4968cc0cd55f12af4660c"

/-- Both nodes have dialled each other, and the later session closes. -/
def sampleDuplicate : List NodeEvent := [.attach samplePeerId, .attach samplePeerId, .close 1]

/-- The first session is open, and a message is refused. -/
theorem open_session_not_found :
    ¬ (sampleDuplicate.foldl next start).Connected ∧
      (sampleDuplicate.foldl next start).Open 0 ⟨samplePeerId, false⟩ ∧
      (sampleDuplicate.foldl next start).sendMessage samplePeerId.hex "bonjour" 0 =
        .error "pas de session ouverte avec 3d4017c3" := by
  have hopen : (sampleDuplicate.foldl next start).Open 0 ⟨samplePeerId, false⟩ := ⟨rfl, rfl⟩
  have hrefused : (sampleDuplicate.foldl next start).sendMessage samplePeerId.hex "bonjour" 0 =
      .error "pas de session ouverte avec 3d4017c3" := by
    have hnone : (sampleDuplicate.foldl next start).sessionsByPeer.get? samplePeerId.hex =
        none := by
      decide +kernel
    rw [sendMessage, hnone]
    exact congrArg Except.error (by decide +kernel)
  refine ⟨fun hconn ↦ ?_, hopen, hrefused⟩
  obtain ⟨s', hs'⟩ := hconn.sends 0 _ "bonjour" 0 hopen
  exact absurd (hrefused.symm.trans hs') (by simp)

end AttestP2PNode

end AttestP2P
