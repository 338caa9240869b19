import AttestP2P.File.Conduct
import AttestP2P.File.Lacking

/-!
# Swarms

Nodes that share files, each with its own state, and the messages that are on their way between
them.  Events come in any order, and messages of one session stay in order.

* `Catalogue.swarm` is the machine: nodes are attached, connected and disconnected, they seed,
  download, and hear each other.  `SwarmStep` has one rule for each of these, and in each rule a
  node does what `FileNode.next` does.
* `Catalogue.Sharing` holds in every reachable state: the nodes are honest, and the network is sound
  in the sense of `Lib.Exchange`.
* `Sharing.networkStep` is what ties the two: a step of a swarm is a step of a network whose nodes
  abide, by `Honest.abides`.
* `supplied_of_reachable`: when nothing is on its way, nobody lacks what a neighbour has.

Nodes start with empty stores and with disks that do not fail; what they know of each other they
have from messages.  Sessions may close at any time, and what was on its way there is lost.
-/

set_option autoImplicit false

namespace AttestP2P

/-- What can happen in a swarm: something at one node, the arrival of a message, or the making or
end of a connection. -/
inductive SwarmEvent (ι : Type) where
  /-- Something happens to a node, which is no message. -/
  | act (i : ι) (e : FileEvent)
  /-- What was said first in the session arrives at its other end. -/
  | deliver (p : ι × String) (rank : ℕ → ℕ)
  /-- Two sessions are the ends of one connection. -/
  | join (p q : ι × String)

/-- The nodes `ι`, and what is on its way between them. -/
abbrev Swarm (P : Primitives) (ι : Type) := Network ι String (FileNode P) Buffer

namespace Swarm

open FileNode Slices

variable {P : Primitives} {ι : Type} {w : Swarm P ι} {i j : ι} {p q : ι × String}

/-- The session is open at the node whose end it is. -/
def Open (w : Swarm P ι) (p : ι × String) : Prop := (w.node p.1).sessions.has p.2 = true

/-- The peer of the session is the node of the other one. -/
def Identifies (w : Swarm P ι) (p q : ι × String) : Prop :=
  (w.node p.1).sessions.get? p.2 = some (P.publicKey (w.node q.1).signKey)

theorem open_of_identifies (h : w.Identifies p q) : w.Open p := Option.isSome_of_eq_some h

/-- The nodes are connected: a session of the one is wired to a session of the other, and open. -/
def Neighbours (w : Swarm P ι) (i j : ι) : Prop :=
  ∃ k l, w.wire (i, k) = some (j, l) ∧ w.Open (i, k)

/-- The node has all chunks of the file in its store, whether or not it ever downloaded it. -/
def HasFile (w : Swarm P ι) (i : ι) (f : String) (x : SharedFile P) : Prop :=
  ∀ idx < count x.content x.chunkSize, (w.node i).store.hasChunk f idx = .ok true

/-- The node downloads the file, and the download is not over. -/
def Downloads (w : Swarm P ι) (i : ι) (f : String) : Prop :=
  ((w.node i).downloads.get? f).isSome = true

variable [DecidableEq ι]

/-- The event happens to the node, and what it says is on its way. -/
def happen (jsonParse : Buffer → Option Json) (w : Swarm P ι) (i : ι) (e : FileEvent) :
    Swarm P ι :=
  w.act i ((w.node i).next jsonParse e)
    (((w.node i).next jsonParse e).sent.drop (w.node i).sent.length)

/-- Nothing is on its way, be it a message or the news that a session has been closed. -/
def AtRest (w : Swarm P ι) : Prop :=
  ∀ p q, w.wire p = some q → w.Open p → w.Open q ∧ w.queue p = []

end Swarm

namespace Catalogue

open FileNode Swarm Slices

variable {P : Primitives} {jsonParse : Buffer → Option Json} {C : Catalogue P jsonParse}
  {ι : Type} [DecidableEq ι] {w w' : Swarm P ι} {i j : ι} {p q : ι × String} {f : String}
  {s : FileNode P} {e : FileEvent}

variable (C) in
/-- A step of a swarm, in which every node does what the catalogue permits and no exception
interrupts it. -/
inductive SwarmStep : Swarm P ι → SwarmEvent ι → Swarm P ι → Prop
  | act {w : Swarm P ι} {i : ι} {e : FileEvent} (he : C.Permits (w.node i) e)
    (hmessage : ∀ session buf rank, e ≠ .message session buf rank) :
    SwarmStep w (.act i e) (w.happen jsonParse i e)
  | deliver {w : Swarm P ι} {p q : ι × String} {m : Buffer} {rest : List Buffer} {peerId : Buffer}
    {rank : ℕ → ℕ} (hwire : w.wire p = some q) (hqueue : w.queue p = m :: rest)
    (hsession : (w.node q.1).sessions.get? q.2 = some peerId)
    (hok : ((w.node q.1).handleMessage jsonParse ⟨q.2, peerId⟩ m rank).2 = .ok ()) :
    SwarmStep w (.deliver p rank)
      (Swarm.happen jsonParse (w.pop p) q.1 (.message ⟨q.2, peerId⟩ m rank))
  /-- The handshake has identified both ends to each other. -/
  | join {w : Swarm P ι} {p q : ι × String} (hne : p ≠ q) (hp : w.wire p = none)
    (hq : w.wire q = none) (hpq : w.Identifies p q) (hqp : w.Identifies q p) :
    SwarmStep w (.join p q) (w.join p q)

variable (C ι) in
/-- Nodes that start with nothing in their stores, and no sessions. -/
def swarm : Machine (Swarm P ι) (SwarmEvent ι) where
  init w := (∀ i, ∃ signKey baseDir disk parallel, 0 < parallel ∧
    w.node i = .new signKey ⟨baseDir, .empty, disk⟩ parallel) ∧ (∀ p, w.wire p = none) ∧
      w.flight = []
  step := SwarmStep C

/-! ## What holds in every reachable state

Two invariants hold each other up.  Nodes are honest as long as only honest nodes talk to them, and
the network is sound as long as all its nodes are honest. -/

variable (C) in
structure Sharing (hP : P.Lawful) (w : Swarm P ι) : Prop where
  honest : ∀ i, C.Honest (w.node i)
  lacking : ∀ i, Lacking (w.node i)
  roomy : ∀ i, Roomy (w.node i)
  sound : Exchange.Sound (C.view hP) w
  identified : ∀ p q, w.wire p = some q → w.Open p → w.Identifies p q

/-- Who is at the other end of a session does not change. -/
theorem get?_sessions_next (s : FileNode P) (e : FileEvent) {peerHex : String}
    (hopen : (s.next jsonParse e).sessions.has peerHex = true) :
    e.cause s.sessionKey = .attach peerHex ∨
      (s.next jsonParse e).sessions.get? peerHex = s.sessions.get? peerHex := by
  have hsessions : (s.next jsonParse e).sessions = _ :=
    (congrArg Knowledge.sessions (knowledge_next jsonParse s e)).trans Knowledge.sessions_learn
  rw [hsessions] at hopen ⊢
  cases e with
  | attach peerId =>
    dsimp only
    rw [OrderedMap.get?_set]
    split
    · next heq => exact .inl (congrArg Cause.attach heq.symm)
    · exact .inr rfl
  | close p rank =>
    dsimp only at hopen ⊢
    rw [OrderedMap.has, OrderedMap.get?_delete] at hopen
    rw [OrderedMap.get?_delete]
    split
    · next heq =>
      rw [if_pos heq] at hopen
      cases hopen
    · exact .inr rfl
  | _ => exact .inr rfl

theorem sent_eq_append_drop (h : C.Honest s) (he : C.Permits s e) :
    (s.next jsonParse e).sent = s.sent ++ (s.next jsonParse e).sent.drop s.sent.length := by
  obtain ⟨-, out, heq, -⟩ := says_next h he
  rw [heq, List.drop_left]

/-- A message that arrives is permitted: what was genuine when it was sent is still so when it is
read. -/
theorem Sharing.permits {hP : P.Lawful} (h : C.Sharing hP w) {m peerId : Buffer}
    {rest : List Buffer} {rank : ℕ → ℕ} (hwire : w.wire p = some q)
    (hqueue : w.queue p = m :: rest) (hsession : (w.node q.1).sessions.get? q.2 = some peerId)
    (hok : ((w.node q.1).handleMessage jsonParse ⟨q.2, peerId⟩ m rank).2 = .ok ()) :
    C.Permits (w.node q.1) (.message ⟨q.2, peerId⟩ m rank) := by
  have hspeaks : C.Speaks (w.node p.1) m :=
    h.sound.truthful p m (by rw [hqueue]; exact List.mem_cons_self)
  have hidentified := h.identified q p (h.sound.wire p q hwire) (Option.isSome_of_eq_some hsession)
  obtain rfl := Option.some.inj (hsession.symm.trans hidentified)
  exact .message hsession (hspeaks.genuine hP) hok

theorem cause_ne_hear {sessionKey : Buffer → String}
    (hmessage : ∀ session buf rank, e ≠ .message session buf rank) (k : String) (m : Buffer) :
    e.cause sessionKey ≠ .hear k m := by
  intro hcause
  cases e with
  | message session buf rank => exact hmessage session buf rank rfl
  | _ => cases hcause

/-- **A step of a swarm is a step of a network whose nodes abide.** -/
theorem Sharing.networkStep {hP : P.Lawful} (h : C.Sharing hP w) {e : SwarmEvent ι}
    (hstep : SwarmStep C w e w') :
    Network.Step (C.view hP).isOpen (Exchange.Abides (C.view hP)) w w' := by
  have habides {i : ι} {e : FileEvent} (he : C.Permits (w.node i) e) :=
    (h.honest i).abides hP he (sent_eq_append_drop (h.honest i) he)
  cases hstep with
  | act he hmessage => exact .act (cause_ne_hear hmessage) (habides he)
  | deliver hwire hqueue hsession hok =>
    exact .hear hwire hqueue (Option.isSome_of_eq_some hsession)
      (habides (h.permits hwire hqueue hsession hok))
  | join hne hp hq hpq hqp =>
    exact .join hne hp hq (open_of_identifies hpq) (open_of_identifies hqp)

/-- An event that is permitted keeps that, when the message it is about has been taken and the
network stays sound. -/
theorem Sharing.happen {hP : P.Lawful} (h : C.Sharing hP w) {v : Swarm P ι}
    (he : C.Permits (w.node i) e)
    (hv : Exchange.Hears (C.view hP) w v i (e.cause (w.node i).sessionKey))
    (hsound : Exchange.Sound (C.view hP) (v.happen jsonParse i e)) :
    C.Sharing hP (v.happen jsonParse i e) := by
  have habides := (h.honest i).abides hP he (sent_eq_append_drop (h.honest i) he)
  have hsame : Swarm.happen jsonParse v i e = v.act i ((w.node i).next jsonParse e)
      (((w.node i).next jsonParse e).sent.drop (w.node i).sent.length) := by
    rw [Swarm.happen, hv.node]
  rw [hsame] at hsound ⊢
  generalize hs' : (w.node i).next jsonParse e = s' at habides hsound
  generalize s'.sent.drop (w.node i).sent.length = out at habides hsound
  have hkey (j : ι) : ((v.act i s' out).node j).signKey = (w.node j).signKey := by
    rcases Exchange.node_act_cases hv s' out j with ⟨rfl, hnode⟩ | ⟨-, hnode⟩
    · rw [hnode, ← hs']
      exact congrArg Prod.fst (says_next (h.honest j) he).1
    · rw [hnode]
  refine ⟨fun j ↦ ?_, fun j ↦ ?_, fun j ↦ ?_, hsound, fun p q hwire hopen ↦ ?_⟩
  · rcases Exchange.node_act_cases hv s' out j with ⟨rfl, hnode⟩ | ⟨-, hnode⟩
    · rw [hnode, ← hs']
      exact (h.honest j).next hP he
    · rw [hnode]
      exact h.honest j
  · rcases Exchange.node_act_cases hv s' out j with ⟨rfl, hnode⟩ | ⟨-, hnode⟩
    · rw [hnode, ← hs']
      exact (h.honest j).lacking_next (h.lacking j) he
    · rw [hnode]
      exact h.lacking j
  · rcases Exchange.node_act_cases hv s' out j with ⟨rfl, hnode⟩ | ⟨-, hnode⟩
    · rw [hnode, ← hs']
      exact (h.honest j).roomy_next (h.roomy j) he
    · rw [hnode]
      exact h.roomy j
  · rw [Network.wire_act, hv.wire] at hwire
    have hbefore : w.Open p := Exchange.open_before_of_wire h.sound hv habides hwire hopen
    have hold := h.identified p q hwire hbefore
    rw [Identifies, hkey, ← hold]
    rw [Swarm.Open] at hopen
    rcases Exchange.node_act_cases hv s' out p.1 with ⟨hi, hnode⟩ | ⟨-, hnode⟩
    · rw [hnode] at hopen ⊢
      rw [← hs'] at hopen ⊢
      rcases get?_sessions_next (w.node i) e hopen with hattach | hsame
      · have hused := h.sound.used_of_wire p q hwire
        rw [Network.OpenAt, hi] at hused
        exact absurd hused (habides.fresh _ hattach)
      · rw [hsame, hi]
    · rw [hnode]

/-- **Every step keeps that**, which is the induction over runs of the swarm. -/
theorem Sharing.step {hP : P.Lawful} (h : C.Sharing hP w) {e : SwarmEvent ι}
    (hstep : SwarmStep C w e w') : C.Sharing hP w' := by
  have hsound := h.sound.step (h.networkStep hstep)
  cases hstep with
  | act he hmessage => exact h.happen he (.of_act (cause_ne_hear hmessage)) hsound
  | deliver hwire hqueue hsession hok =>
    exact h.happen (h.permits hwire hqueue hsession hok) (.of_hear hwire hqueue) hsound
  | join hne hp hq hpq hqp =>
    refine ⟨h.honest, h.lacking, h.roomy, hsound, fun r t hwire hopen ↦ ?_⟩
    rw [Network.wire_join] at hwire
    split at hwire
    · next hr =>
      obtain rfl := Option.some.inj hwire
      exact hr ▸ hqp
    · split at hwire
      · next hr =>
        obtain rfl := Option.some.inj hwire
        exact hr ▸ hpq
      · exact h.identified r t hwire hopen

theorem sharing_of_init (hP : P.Lawful) (h : (C.swarm ι).init w) : C.Sharing hP w := by
  obtain ⟨hnew, hwire, hflight⟩ := h
  have hclosed (p : ι × String) : ¬w.Open p := by
    obtain ⟨signKey, baseDir, disk, parallel, hparallel, hnode⟩ := hnew p.1
    rw [Swarm.Open, hnode]
    exact fun h ↦ by cases h
  have hqueue (p : ι × String) : w.queue p = [] := by rw [Network.queue, hflight]; rfl
  have hidle (i : ι) (f : String) : (w.node i).downloads.get? f = none := by
    obtain ⟨signKey, baseDir, disk, parallel, hparallel, hnode⟩ := hnew i
    rw [hnode]
    rfl
  refine ⟨fun i ↦ ?_, fun i f d hd ↦ ?_, fun i ↦ ?_, ?_, fun p q _ hopen ↦ absurd hopen (hclosed p)⟩
  · obtain ⟨signKey, baseDir, disk, parallel, hparallel, hnode⟩ := hnew i
    rw [hnode]
    exact .new signKey baseDir disk parallel
  · cases (hidle i f).symm.trans hd
  · obtain ⟨signKey, baseDir, disk, parallel, hparallel, hnode⟩ := hnew i
    refine ⟨by rw [hnode]; exact hparallel, fun f d hd ↦ ?_⟩
    cases (hidle i f).symm.trans hd
  · have hnone {p q : ι × String} (h : w.wire p = some q) : False := by
      rw [hwire] at h
      cases h
    have hnothing {p : ι × String} {m : Buffer} (h : m ∈ w.queue p) : False := by
      rw [hqueue] at h
      cases h
    have hwaits (p : ι × String) (x : String × ℕ) : ¬(C.view hP).waits (w.node p.1) p.2 x := by
      rintro ⟨r, ⟨d, hd, -⟩, -⟩
      cases (hidle p.1 x.1).symm.trans hd
    exact ⟨fun p q h ↦ (hnone h).elim, fun p hopen ↦ absurd hopen (hclosed p),
      fun p q h ↦ (hnone h).elim, fun p m h ↦ (hnothing h).elim,
      fun i k x _ hopen ↦ absurd hopen (hclosed (i, k)), fun p m h ↦ (hnothing h).elim,
      fun p x hopen ↦ absurd hopen (hclosed p), fun p q x h ↦ (hnone h).elim,
      fun p q x _ h ↦ (hnone h).elim, fun p x h ↦ absurd h (hwaits p x)⟩

theorem sharing_of_reachable (hP : P.Lawful) (h : (C.swarm ι).Reachable w) : C.Sharing hP w := by
  obtain ⟨w₀, es, hinit, hrun⟩ := h
  exact hrun.preserves (I := C.Sharing hP) (fun _ _ _ hs hstep ↦ hs.step hstep)
    (sharing_of_init hP hinit)

/-! ## Deliveries -/

theorem sessions_message (s : FileNode P) (session : FileSession) (m : Buffer) (rank : ℕ → ℕ) :
    (s.next jsonParse (.message session m rank)).sessions = s.sessions :=
  (congrArg Knowledge.sessions (knowledge_next jsonParse s _)).trans Knowledge.sessions_learn

/-- A delivery, step by step: the message that is first in its session is taken out and handled at
the other end. -/
theorem deliver_cases {rank : ℕ → ℕ} (h : SwarmStep C w (.deliver p rank) w') :
    ∃ q m rest peerId, w.wire p = some q ∧ w.queue p = m :: rest ∧
      (w.node q.1).sessions.get? q.2 = some peerId ∧
      ((w.node q.1).handleMessage jsonParse ⟨q.2, peerId⟩ m rank).2 = .ok () ∧
      w' = Swarm.happen jsonParse (w.pop p) q.1 (.message ⟨q.2, peerId⟩ m rank) := by
  cases h with
  | deliver hwire hqueue hsession hok => exact ⟨_, _, _, _, hwire, hqueue, hsession, hok, rfl⟩

/-- Nobody is connected or disconnected by a delivery. -/
theorem sessions_deliver {rank : ℕ → ℕ} (h : SwarmStep C w (.deliver p rank) w') (i : ι) :
    (w'.node i).sessions = (w.node i).sessions := by
  obtain ⟨q, m, rest, peerId, -, -, -, -, rfl⟩ := deliver_cases h
  rw [Swarm.happen]
  by_cases hi : i = q.1
  · subst hi
    rw [Network.node_act_self]
    exact sessions_message ..
  · rw [Network.node_act_of_ne hi]
    rfl

theorem wire_deliver {rank : ℕ → ℕ} (h : SwarmStep C w (.deliver p rank) w') :
    w'.wire = w.wire := by
  obtain ⟨q, m, rest, peerId, -, -, -, -, rfl⟩ := deliver_cases h
  rfl

/-! ## When nothing is on its way -/

/-- A node that waits for nobody has asked for all that it could. -/
theorem Honest.not_mem_needed (h : C.Honest s) {d : Download} (hd : s.downloads.get? f = some d)
    (hparallel : 0 < d.parallel) (hidle : ∀ idx r, ¬s.InFlight f idx r) {idx : ℕ}
    {peerHex : String} (hopen : s.sessions.has peerHex = true)
    (hknows : s.knowledge.Knows peerHex f idx) : idx ∉ d.needed := by
  intro hneeded
  obtain ⟨hkey, -, hbusy⟩ := h.saturated f d hd
  have hempty : d.inFlight.entries = [] := by
    refine List.eq_nil_iff_forall_not_mem.mpr fun entry hentry ↦ ?_
    exact hidle entry.1 entry.2 ⟨d, hd, OrderedMap.mem_entries_iff.mp hentry⟩
  have hnone : d.inFlight.has idx = false := by
    refine Bool.eq_false_iff.mpr fun hhas ↦ ?_
    obtain ⟨r, hr⟩ := Option.isSome_iff_exists.mp hhas
    exact hidle idx r ⟨d, hd, hr⟩
  refine hbusy List.not_mem_nil ?_ idx ⟨hneeded, hnone, peerHex, hopen, ?_, ?_⟩
  · rw [OrderedMap.size, hempty]
    exact hparallel
  · obtain ⟨set, hset, hmem⟩ := hknows
    rw [hkey, knownChunks, show (s.peerHave.get? peerHex).bind _ = some set from hset]
    exact hmem
  · rw [Download.isBad, show d.badPeerForChunk = _ from (h.fair f d hd).2.1]
    rfl

theorem Sharing.supplied {hP : P.Lawful} (h : C.Sharing hP w) (hrest : w.AtRest)
    (hij : w.Neighbours i j) {d : Download} (hd : (w.node i).downloads.get? f = some d) :
    ∀ idx ∈ d.needed, (w.node j).store.hasChunk f idx ≠ .ok true := by
  intro idx hneeded hheld
  obtain ⟨k, l, hwire, hopen⟩ := hij
  have hback := h.sound.wire _ _ hwire
  obtain ⟨hopen', -⟩ := hrest _ _ hwire hopen
  have hknows : (C.view hP).knows (w.node i) k (f, idx) :=
    h.sound.knows_of_quiet hrest hback hopen' hheld
  have hidle (idx : ℕ) (r : ChunkRequest) : ¬(w.node i).InFlight f idx r := fun hr ↦
    h.sound.idle_of_quiet hrest (p := (i, r.peerHex)) (x := (f, idx)) ⟨r, hr, rfl⟩
  exact (h.honest i).not_mem_needed hd ((h.roomy i).2 f d hd) hidle hopen hknows.2 hneeded

/-- **Nobody lacks what a neighbour has**, when nothing is on its way: a chunk that a download still
needs is in the store of no node that is connected. -/
theorem supplied_of_reachable (hP : P.Lawful) (hw : (C.swarm ι).Reachable w) (hrest : w.AtRest)
    (hij : w.Neighbours i j) {d : Download} (hd : (w.node i).downloads.get? f = some d) :
    ∀ idx ∈ d.needed, (w.node j).store.hasChunk f idx ≠ .ok true :=
  (sharing_of_reachable hP hw).supplied hrest hij hd

end Catalogue

/-! ## A sample -/

namespace SampleSwarm

open FileNode Manifest

/-- The texts of the two manifests are read as these. -/
def parse (raw : Buffer) : Option Json :=
  if raw = Json.utf8 ((SampleFile.manifest 9).stringify "" "") then some (SampleFile.manifest 9)
  else if raw = Json.utf8 (SampleFile.otherManifest.stringify "" "") then
    some SampleFile.otherManifest
  else none

def shared : SharedFile SampleFile.primitives where
  manifest := SampleFile.manifest 9
  digest := sampleFileId
  content := sampleContent
  chunkSize := 9
  describes := SampleFile.describes 9
  verified := SampleFile.verifyManifest_manifest (by decide)
  length_digest := by decide
  count_lt := by decide

def other : SharedFile SampleFile.primitives where
  manifest := SampleFile.otherManifest
  digest := sampleHash
  content := [10]
  chunkSize := 9
  describes := SampleFile.describes_other
  verified := SampleFile.verifyManifest_other
  length_digest := by decide
  count_lt := by decide

def file (f : String) : Option (SharedFile SampleFile.primitives) :=
  if f = sampleFileId.hex then some shared
  else if f = sampleHash.hex then some other
  else none

theorem file_cases {f : String} {x : SharedFile SampleFile.primitives} (hx : file f = some x) :
    f = sampleFileId.hex ∧ x = shared ∨ f = sampleHash.hex ∧ x = other := by
  rw [file] at hx
  split at hx
  · next hf => exact .inl ⟨hf, (Option.some.inj hx).symm⟩
  · split at hx
    · next hf => exact .inr ⟨hf, (Option.some.inj hx).symm⟩
    · cases hx

def catalogue : Catalogue SampleFile.primitives parse where
  file := file
  key f x hx := by
    obtain ⟨rfl, rfl⟩ | ⟨rfl, rfl⟩ := file_cases hx
    · rfl
    · rfl
  parses f x hx := by
    obtain ⟨-, rfl⟩ | ⟨-, rfl⟩ := file_cases hx
    · exact if_pos rfl
    · exact (if_neg (by decide +kernel)).trans (if_pos rfl)

/-- A node with the file on its disk, and one without; they are not connected yet. -/
def start : Swarm SampleFile.primitives Bool where
  node i := SampleFile.node (if i then [] else ["hello.txt"])
  wire _ := none
  flight := []

/-- The key of the session of each node with the other, which is the same since both have the
sample's identity. -/
def peer : String := sampleSender.hex ++ "#1"

/-- The nodes are connected, and each has announced an empty store to the other. -/
def connected : Swarm SampleFile.primitives Bool :=
  ((start.happen parse false (.attach sampleSender)).happen parse true (.attach sampleSender)).join
    (false, peer) (true, peer)

/-- The one without the file downloads it, from nobody yet. -/
def downloading : Swarm SampleFile.primitives Bool :=
  connected.happen parse true (.download (SampleFile.manifest 9) ["out.txt"] none fun i ↦ i)

/-- The first message of the session arrives, if it can. -/
def deliver (w : Swarm SampleFile.primitives Bool) (p : Bool × String) :
    Option (Swarm SampleFile.primitives Bool) :=
  match w.wire p, w.queue p with
  | some q, m :: _ =>
    ((w.node q.1).sessions.get? q.2).bind fun peerId ↦
      match ((w.node q.1).handleMessage parse ⟨q.2, peerId⟩ m fun i ↦ i).2 with
      | .ok _ => some (Swarm.happen parse (w.pop p) q.1 (.message ⟨q.2, peerId⟩ m fun i ↦ i))
      | .error _ => none
  | _, _ => none

theorem step_deliver {w w' : Swarm SampleFile.primitives Bool} {p : Bool × String}
    (h : deliver w p = some w') :
    Catalogue.SwarmStep catalogue w (.deliver p fun i ↦ i) w' := by
  rw [deliver] at h
  split at h
  · next q m rest hwire hqueue =>
    obtain ⟨peerId, hsession, h⟩ := Option.bind_eq_some_iff.mp h
    split at h
    · next hok =>
      obtain rfl := Option.some.inj h
      exact .deliver hwire hqueue hsession hok
    · cases h
  · cases h

def deliverAll (w : Swarm SampleFile.primitives Bool) :
    List (Bool × String) → Option (Swarm SampleFile.primitives Bool)
  | [] => some w
  | p :: ps => (deliver w p).bind fun w ↦ deliverAll w ps

theorem run_deliverAll {w w' : Swarm SampleFile.primitives Bool} {ps : List (Bool × String)}
    (h : deliverAll w ps = some w') :
    (catalogue.swarm Bool).Run w (ps.map fun p ↦ .deliver p fun i ↦ i) w' := by
  induction ps generalizing w with
  | nil =>
    obtain rfl := Option.some.inj h
    exact .nil w
  | cons p ps ih =>
    obtain ⟨w₁, hfirst, hrest⟩ := Option.bind_eq_some_iff.mp h
    exact .cons (step_deliver hfirst) (ih hrest)

/-- They leave the sessions as they are, however many messages are delivered. -/
theorem frame_deliverAll {w w' : Swarm SampleFile.primitives Bool} {ps : List (Bool × String)}
    (h : deliverAll w ps = some w') :
    w'.wire = w.wire ∧ ∀ i, (w'.node i).sessions = (w.node i).sessions := by
  induction ps generalizing w with
  | nil =>
    obtain rfl := Option.some.inj h
    exact ⟨rfl, fun _ ↦ rfl⟩
  | cons p ps ih =>
    obtain ⟨w₁, hfirst, hrest⟩ := Option.bind_eq_some_iff.mp h
    have hstep := step_deliver hfirst
    obtain ⟨hwire, hsessions⟩ := ih hrest
    exact ⟨hwire.trans (Catalogue.wire_deliver hstep),
      fun i ↦ (hsessions i).trans (Catalogue.sessions_deliver hstep i)⟩

theorem reachable_connected : (catalogue.swarm Bool).Reachable connected := by
  have hstart : (catalogue.swarm Bool).Reachable start :=
    .init ⟨fun i ↦ ⟨(), ["store"], _, 8, by decide, rfl⟩, fun _ ↦ rfl, rfl⟩
  have hattach {w : Swarm SampleFile.primitives Bool} (i : Bool)
      (h : (catalogue.swarm Bool).Reachable w) :
      (catalogue.swarm Bool).Reachable (w.happen parse i (.attach sampleSender)) :=
    h.step (e := .act i (.attach sampleSender)) (.act (.attach _) fun _ _ _ h ↦ by cases h)
  refine (hattach true (hattach false hstart)).step (e := .join (false, peer) (true, peer))
    (.join ?_ rfl rfl ?_ ?_)
  · exact fun h ↦ by cases h
  · show _ = _
    decide +kernel
  · show _ = _
    decide +kernel

theorem catalogue_file : catalogue.file sampleFileId.hex = some shared := by
  rw [catalogue]
  dsimp only
  rw [file, if_pos rfl]

theorem catalogue_other : catalogue.file sampleHash.hex = some other := by
  rw [catalogue]
  dsimp only
  rw [file, if_neg (by decide), if_pos rfl]

/-- An output in the root is beside the chunks of both files. -/
theorem ne_chunkPath {s : ChunkStore} (hbase : s.baseDir = ["store"]) {name g : String} (i : ℕ)
    (hg : (catalogue.file g).isSome) : [name] ≠ s.chunkPath g i := by
  obtain ⟨x, hx⟩ := Option.isSome_iff_exists.mp hg
  obtain ⟨rfl, -⟩ | ⟨rfl, -⟩ := file_cases hx
  · exact SampleFile.output_ne_chunkPath hbase (by decide) i
  · exact SampleFile.output_ne_chunkPath hbase (by decide) i

theorem reachable_downloading : (catalogue.swarm Bool).Reachable downloading :=
  reachable_connected.step (e := .act true _) (.act
    (.download catalogue_file ⟨0, by decide +kernel⟩ fun _ i hg ↦
      ne_chunkPath (by decide +kernel) i hg) fun _ _ _ h ↦ by cases h)

/-- The other file is downloaded too, which nobody has. -/
def both : Swarm SampleFile.primitives Bool :=
  downloading.happen parse true (.download SampleFile.otherManifest ["other.txt"] none fun i ↦ i)

/-- The first one is seeded by the node that has it on its disk. -/
def waiting : Swarm SampleFile.primitives Bool :=
  both.happen parse false (.seed (SampleFile.manifest 9) ["hello.txt"])

theorem reachable_waiting : (catalogue.swarm Bool).Reachable waiting := by
  have hboth : (catalogue.swarm Bool).Reachable both :=
    reachable_downloading.step (e := .act true _) (.act
      (.download catalogue_other ⟨1, by decide +kernel⟩ fun _ i hg ↦
        ne_chunkPath (by decide +kernel) i hg) fun _ _ _ h ↦ by cases h)
  exact hboth.step (e := .act false _)
    (.act (.seed catalogue_file (by decide +kernel)) fun _ _ _ h ↦ by cases h)

/-- The sessions of the messages, in the order in which these arrive. -/
def arrivals : List (Bool × String) :=
  [(true, peer), (true, peer), (false, peer), (false, peer), (true, peer), (false, peer),
    (true, peer), (true, peer)]

/-- There are no other sessions, so that the swarm is at rest when nothing is in flight. -/
theorem atRest {w : Swarm SampleFile.primitives Bool} (hwire : w.wire = downloading.wire)
    (hopen : ∀ i, w.Open (i, peer)) (hflight : w.flight = []) : w.AtRest := by
  intro p q hw _
  refine ⟨?_, by rw [Network.queue, hflight]; rfl⟩
  rw [hwire, show downloading.wire = connected.wire from rfl, connected, Network.wire_join] at hw
  split at hw
  · obtain rfl := Option.some.inj hw
    exact hopen _
  · split at hw
    · obtain rfl := Option.some.inj hw
      exact hopen _
    · cases hw

end SampleSwarm

namespace Catalogue

open Swarm

open FileNode Manifest SampleSwarm in
/-- One file has arrived.  The other one, which the neighbour does not have, is waited for. -/
theorem supplied_sample : ∃ w d, deliverAll waiting arrivals = some w ∧
    (w.node false).store.hasChunk sampleFileId.hex 0 = .ok true ∧
    (w.node true).downloads.get? sampleHash.hex = some d ∧ d.needed = {0} ∧
      ∀ idx ∈ d.needed, (w.node false).store.hasChunk sampleHash.hex idx ≠ .ok true := by
  have hafter : ((deliverAll waiting arrivals).bind fun w ↦
      if w.flight = [] ∧ (w.node false).store.hasChunk sampleFileId.hex 0 = .ok true then
        (w.node true).downloads.get? sampleHash.hex else none).map (fun d ↦ d.needed) =
          some {0} := by decide +kernel
  obtain ⟨d, hd, hneeded⟩ := Option.map_eq_some_iff.mp hafter
  obtain ⟨w, hw, hd⟩ := Option.bind_eq_some_iff.mp hd
  obtain ⟨⟨hflight, hheld⟩, hd⟩ := Option.ite_none_right_eq_some.mp hd
  obtain ⟨hwire, hsessions⟩ := frame_deliverAll hw
  have hopen (i : Bool) : w.Open (i, peer) := by
    rw [Swarm.Open, hsessions]
    cases i with
    | false => decide +kernel
    | true => decide +kernel
  have hneighbours : w.Neighbours true false :=
    ⟨peer, peer, by rw [hwire]; decide +kernel, hopen true⟩
  have hrest := atRest hwire hopen hflight
  exact ⟨w, d, hw, hheld, hd, hneeded, supplied_of_reachable SampleFile.lawful
    (reachable_waiting.run (run_deliverAll hw)) hrest hneighbours hd⟩

end Catalogue

end AttestP2P
