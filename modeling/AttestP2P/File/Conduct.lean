import AttestP2P.File.Hearing
import AttestP2P.File.Deeds

/-!
# Nodes that share files abide

`Lib.Exchange` speaks of nodes that exchange items over channels, in terms of what can be seen of a
node: the items it holds, what it knows of others, what it waits for, the messages it sends.  Here
the file node is seen as such a node.  Its items are the chunks of files, its channels the sessions,
and a message is read as a note with the help of the catalogue (`Catalogue.note`).

* `FileEvent.cause` is why an event happens: a session opens, it closes, a message is heard on it,
  or the node acts on its own (a seed, a download, a timer).
* `Catalogue.view` is what can be seen of a node.
* `Honest.abides` is the result: every event that the catalogue permits is a step that abides by
  the rules of the exchange.  Each rule is a lemma of its own before it, named after the rule; the
  rules about records come from `File.Hearing` and those about messages from `File.Deeds`.

With this the theorems of the library hold of swarms of file nodes, see `File.Swarm`.
-/

set_option autoImplicit false

namespace AttestP2P

/-- Why an event happens; a new session gets a key. -/
def FileEvent.cause (sessionKey : Buffer → String) : FileEvent → Cause String Buffer
  | .attach peerId => .attach (sessionKey peerId)
  | .message session buf _ => .hear session.peerHex buf
  | .close peerHex _ => .close peerHex
  | _ => .own

namespace Catalogue

open FileNode ChunkStore FileProtocol Slices

variable {P : Primitives} {jsonParse : Buffer → Option Json} {C : Catalogue P jsonParse}
  {s s' : FileNode P} {f g : String} {x y : SharedFile P} {i : ℕ} {m buf : Buffer}
  {peerHex : String} {e : FileEvent} {out : List (String × Buffer)}

variable (C) in
/-- What can be seen of a node by the protocol of announcements: what its messages say, which
sessions are open, what it holds and what it knows of others. -/
def view (hP : P.Lawful) : Exchange.View (FileNode P) String Buffer String (String × ℕ) where
  note := C.note
  used s := s.knowledge.Used
  isOpen s peerHex := s.sessions.has peerHex = true
  holds s x := s.store.hasChunk x.1 x.2 = .ok true
  knows s peerHex x := s.sessions.has peerHex = true ∧ s.knowledge.Knows peerHex x.1 x.2
  waits s peerHex x := ∃ r, s.InFlight x.1 x.2 r ∧ r.peerHex = peerHex
  met s f := (s.manifests.own.get? f).isSome = true
  vouches := C.Speaks
  holds_of_vouches _ _ _ h := h.holds hP

/-! ## The rules, one by one -/

/-- What is heard came as a message on the session. -/
theorem eq_message_of_hear {sessionKey : Buffer → String}
    (hcause : e.cause sessionKey = .hear peerHex m) :
    ∃ session rank, e = .message session m rank ∧ session.peerHex = peerHex := by
  cases e with
  | message session buf rank =>
    obtain ⟨hpeer, rfl⟩ := Cause.hear.inj hcause
    exact ⟨session, rank, rfl, hpeer⟩
  | _ => cases hcause

/-- A session that opens was opened for a peer, and has the key that the node chose for it. -/
theorem eq_attach_of_attach {sessionKey : Buffer → String}
    (hcause : e.cause sessionKey = .attach peerHex) :
    ∃ peerId, e = .attach peerId ∧ sessionKey peerId = peerHex := by
  cases e with
  | attach peerId => exact ⟨peerId, rfl, Cause.attach.inj hcause⟩
  | _ => cases hcause

theorem has_next (s : FileNode P) (e : FileEvent) :
    (s.next jsonParse e).sessions.has peerHex = true ↔ e.cause s.sessionKey = .attach peerHex ∨
      s.sessions.has peerHex = true ∧ e.cause s.sessionKey ≠ .close peerHex := by
  have hsessions : (s.next jsonParse e).sessions = _ :=
    (congrArg Knowledge.sessions (knowledge_next jsonParse s e)).trans Knowledge.sessions_learn
  rw [hsessions]
  cases e with
  | attach peerId =>
    dsimp only
    rw [OrderedMap.has, OrderedMap.get?_set, FileEvent.cause, Cause.attach.injEq]
    split
    · next heq => simp [heq, FileNode.sessionKey, knowledge]
    · next hne =>
      rw [or_iff_right fun heq ↦ hne heq.symm, and_iff_left fun h ↦ by cases h]
      rfl
  | close p rank =>
    dsimp only
    rw [OrderedMap.has, OrderedMap.get?_delete, FileEvent.cause, or_iff_right fun h ↦ by cases h]
    split
    · next heq => simp [heq]
    · next hne => exact (and_iff_left fun heq ↦ hne (Cause.close.inj heq).symm).symm
  | _ => exact ⟨fun h ↦ .inr ⟨h, fun h ↦ by cases h⟩, fun h ↦ (h.resolve_left fun h ↦ by cases h).1⟩

theorem used_mono (s : FileNode P) (e : FileEvent) (hused : s.knowledge.Used peerHex) :
    (s.next jsonParse e).knowledge.Used peerHex := by
  rw [knowledge_next]
  exact Knowledge.Used.learn hused

/-- The key of a new session is one that was never used. -/
theorem not_used_of_attach (hcause : e.cause s.sessionKey = .attach peerHex) :
    ¬s.knowledge.Used peerHex := by
  obtain ⟨peerId, -, rfl⟩ := eq_attach_of_attach hcause
  exact s.knowledge.not_used_sessionKey peerId

theorem Permits.met_next (he : C.Permits s e)
    (hmet : (s.manifests.own.get? f).isSome = true) :
    ((s.next jsonParse e).manifests.own.get? f).isSome = true := by
  have hmanifests := congrArg Knowledge.manifests (knowledge_next jsonParse s e)
  rw [show (s.next jsonParse e).manifests = _ from hmanifests]
  obtain ⟨m, hm, hregister, -⟩ | ⟨hsame, -⟩ := Knowledge.files_learn P jsonParse s.knowledge e
  · obtain ⟨g, x, hx, rfl⟩ := he.registers hm
    rw [hregister, own_register_file hx, OrderedMap.get?_set]
    split
    · rfl
    · exact hmet
  · rw [hsame]
    exact hmet

/-- A manifest introduces its file: after a permitted message that does so, the node has a manifest
for it. -/
theorem Permits.introduced {session : FileSession} {rank : ℕ → ℕ}
    (he : C.Permits s (.message session buf rank)) (hnote : C.note buf = .introduction f) :
    ((s.next jsonParse (.message session buf rank)).manifests.own.get? f).isSome = true := by
  have hmanifests :=
    congrArg Knowledge.manifests (knowledge_next jsonParse s (.message session buf rank))
  rw [show (s.next jsonParse (.message session buf rank)).manifests = _ from hmanifests]
  cases he with
  | message _ hgenuine =>
    obtain ⟨message, hdecode, hmessage⟩ := hgenuine
    rw [note_of_decode hdecode] at hnote
    cases message with
    | manifest m =>
      obtain ⟨g, x, hx, rfl⟩ := hmessage
      rw [meaning, get_fileId hx] at hnote
      obtain rfl := Note.introduction.inj hnote
      rw [Knowledge.learn, hdecode]
      dsimp only
      rw [if_pos x.verified, own_register_file hx, OrderedMap.get?_set_self]
      rfl
    | _ => cases hnote

/-- Messages come on sessions that are open, and leave them open. -/
theorem Permits.isOpen_next {session : FileSession} {rank : ℕ → ℕ}
    (he : C.Permits s (.message session buf rank)) :
    (s.next jsonParse (.message session buf rank)).sessions.has session.peerHex = true := by
  cases he with
  | message hsession =>
    exact (has_next s _).mpr (.inr ⟨Option.isSome_of_eq_some hsession, fun h ↦ by cases h⟩)

/-- What a message tells is known from then on. -/
theorem Honest.learns (h : C.Honest s) {session : FileSession} {rank : ℕ → ℕ}
    (he : C.Permits s (.message session buf rank))
    (htells : (C.note buf).Tells (fun f ↦ (s.manifests.own.get? f).isSome = true) (f, i)) :
    (s.next jsonParse (.message session buf rank)).knowledge.Knows session.peerHex f i := by
  cases he with
  | message _ hgenuine =>
    obtain ⟨message, hdecode, -⟩ := hgenuine
    rw [knowledge_next]
    exact Knowledge.knows_learn_message.mpr
      (.inr ⟨rfl, message, hdecode, (h.mem_told_iff hdecode).1 htells⟩)

/-- What is known of a session is known as long as it is open. -/
theorem knows_next (s : FileNode P) (e : FileEvent) (hknows : s.knowledge.Knows peerHex f i)
    (hopen : (s.next jsonParse e).sessions.has peerHex = true) :
    (s.next jsonParse e).knowledge.Knows peerHex f i := by
  rw [knowledge_next]
  refine hknows.learn fun rank hclose ↦ ?_
  subst hclose
  rcases (has_next s _).mp hopen with hcause | ⟨-, hcause⟩
  · cases hcause
  · exact hcause rfl

/-- What is known was known, or has just been mentioned. -/
theorem Honest.believes (h : C.Honest s) (e : FileEvent)
    (hopen : (s.next jsonParse e).sessions.has peerHex = true)
    (hknows : (s.next jsonParse e).knowledge.Knows peerHex f i) :
    s.sessions.has peerHex = true ∧ s.knowledge.Knows peerHex f i ∨
      ∃ m, e.cause s.sessionKey = .hear peerHex m ∧ (C.note m).Mentions (f, i) := by
  rw [knowledge_next] at hknows
  have hold (hknows : s.knowledge.Knows peerHex f i) : s.sessions.has peerHex = true := by
    rcases (has_next s e).mp hopen with hattach | ⟨hopen, -⟩
    · -- a new session has a key that is not used yet
      obtain ⟨set, hset, -⟩ := hknows
      cases e with
      | attach peerId =>
        obtain rfl := Cause.attach.inj hattach
        exact absurd (h.proper.used _ _ _ hset) (s.knowledge.not_used_sessionKey peerId)
      | _ => cases hattach
    · exact hopen
  by_cases he : ∃ session buf rank, e = .message session buf rank
  · obtain ⟨session, buf, rank, rfl⟩ := he
    rcases Knowledge.knows_learn_message.mp hknows with hknows | ⟨rfl, message, hdecode, hi⟩
    · exact .inl ⟨hold hknows, hknows⟩
    · exact .inr ⟨buf, rfl, (h.mem_told_iff hdecode).2 hi⟩
  · have hknows := Knowledge.knows_of_learn (fun session buf rank heq ↦
      he ⟨session, buf, rank, heq⟩) hknows
    exact .inl ⟨hold hknows, hknows⟩

/-- What is stored is announced in all sessions: a chunk that an event adds is told of in every
session that is open. -/
theorem Honest.announces_next (hP : P.Lawful) (h : C.Honest s) (he : C.Permits s e)
    (hout : (s.next jsonParse e).sent = s.sent ++ out)
    (hheld : (s.next jsonParse e).store.hasChunk f i = .ok true)
    (hopen : s.sessions.has peerHex = true) : s.store.hasChunk f i = .ok true ∨
      Note.AnyTells (f, i) (fun _ ↦ False) ((Network.said out peerHex).map C.note) := by
  have hi : C.Has f i := (h.next hP he).has hheld
  rcases hasChunk_of_next h.kept.keyed hheld with hold | ⟨data, hcarries⟩ | ⟨m, filePath, rfl, hid⟩
  · exact .inl hold
  · cases e with
    | message session buf rank =>
      obtain ⟨chunkHash, signature, hdecode⟩ := hcarries
      have hok : (s.handleMessage jsonParse session buf rank).2 = .ok () := by
        cases he with
        | message _ _ hok => exact hok
      rw [FileNode.next, FileNode.handleMessage, hdecode] at hout hheld
      rw [FileNode.handleMessage, hdecode] at hok
      refine (h.announces_chunkData he hdecode hout hok hheld hopen).imp_right fun hmem ↦ ?_
      refine Note.AnyTells.of_mem (List.mem_map.mpr
        ⟨encHavePiece f i, Network.mem_said.mpr hmem, rfl⟩) ?_
      rw [note_encHavePiece hi]
      exact rfl
    | _ => exact hcarries.elim
  · cases he with
    | seed hx hok =>
      obtain rfl := Json.str.inj (Option.some.inj ((get_fileId hx).symm.trans hid))
      exact .inr (h.announces_seed hx hok hopen hout hi hheld)

/-- A new peer is told of all that is stored. -/
theorem Honest.greets_next (h : C.Honest s)
    (hout : (s.next jsonParse e).sent = s.sent ++ out)
    (hcause : e.cause s.sessionKey = .attach peerHex)
    (hheld : (s.next jsonParse e).store.hasChunk f i = .ok true) :
    Note.AnyTells (f, i) (fun _ ↦ False) ((Network.said out peerHex).map C.note) := by
  obtain ⟨peerId, rfl, rfl⟩ := eq_attach_of_attach hcause
  rcases hasChunk_of_next h.kept.keyed hheld with hold | ⟨data, hdata⟩ | ⟨m, filePath, heq, -⟩
  · exact h.greets hold hout
  · exact hdata.elim
  · cases heq

/-- What is waited for has been asked for, and has not arrived. -/
theorem Honest.asks (hP : P.Lawful) (h : C.Honest s) (he : C.Permits s e)
    (hout : (s.next jsonParse e).sent = s.sent ++ out) {r : ChunkRequest}
    (hr : (s.next jsonParse e).InFlight f i r) :
    (∃ m, (r.peerHex, m) ∈ out ∧ C.note m = .request (f, i)) ∨
      s.InFlight f i r ∧ ∀ peerHex m, e.cause s.sessionKey = .hear peerHex m →
        C.note m ≠ .answer (f, i) := by
  rcases asks_of_inFlight h.kept.keyed hr hout with hold | hmem
  · refine .inr ⟨hold, fun p m hcause hanswer ↦ ?_⟩
    cases he with
    | message _ hgenuine hok =>
      obtain ⟨-, rfl⟩ := Cause.hear.inj hcause
      obtain ⟨message, hdecode, -⟩ := hgenuine
      rw [note_of_decode hdecode] at hanswer
      cases message with
      | manifest m =>
        rw [meaning] at hanswer
        split at hanswer
        · cases hanswer
        · cases hanswer
      | chunkData g j chunkHash signature data =>
        obtain ⟨rfl, rfl⟩ := Prod.mk.inj (Note.answer.inj hanswer)
        exact h.not_inFlight hdecode hok hold hr
      | _ => cases hanswer
    | _ => cases hcause
  · obtain ⟨d, hd, hget⟩ := hr
    have hnext := h.next hP he
    have hneeded := (hnext.active f d hd).scheduled.needed i r hget
    exact .inl ⟨_, hmem, note_encChunkReq (hnext.needs f d hd i hneeded)⟩

theorem Honest.relies (h : C.Honest s) {r : ChunkRequest} (hr : s.InFlight f i r) :
    s.sessions.has r.peerHex = true ∧ s.knowledge.Knows r.peerHex f i := by
  obtain ⟨d, hd, hget⟩ := hr
  have hserved := (h.active f d hd).scheduled.served i r hget
  refine ⟨hserved.connected, ?_⟩
  have hmem := hserved.announced
  rw [h.kept.keyed f d hd] at hmem
  cases hrecord : s.knowledge.record r.peerHex f with
  | none =>
    rw [knownChunks, show (s.peerHave.get? r.peerHex).bind _ = none from hrecord] at hmem
    exact absurd hmem (Finset.notMem_empty i)
  | some set =>
    rw [knownChunks, show (s.peerHave.get? r.peerHex).bind _ = some set from hrecord] at hmem
    exact ⟨set, hrecord, hmem⟩

theorem Honest.serves_next (hP : P.Lawful) (h : C.Honest s) (he : C.Permits s e)
    (hout : (s.next jsonParse e).sent = s.sent ++ out)
    (hcause : e.cause s.sessionKey = .hear peerHex m) (hnote : C.note m = .request (f, i))
    (hheld : s.store.hasChunk f i = .ok true) :
    ∃ m', (peerHex, m') ∈ out ∧ C.note m' = .answer (f, i) := by
  cases he with
  | message _ hgenuine hok =>
    obtain ⟨rfl, rfl⟩ := Cause.hear.inj hcause
    obtain ⟨message, hdecode, -⟩ := hgenuine
    rw [note_of_decode hdecode] at hnote
    cases message with
    | manifest m =>
      rw [meaning] at hnote
      split at hnote
      · cases hnote
      · cases hnote
    | chunkReq g j =>
      obtain ⟨rfl, rfl⟩ := Prod.mk.inj (Note.request.inj hnote)
      rw [FileNode.next, FileNode.handleMessage, hdecode] at hout
      rw [FileNode.handleMessage, hdecode] at hok
      exact h.serves hP hheld hok hout
    | _ => cases hnote
  | _ => cases hcause

/-- **A node that shares files does what is expected.** -/
theorem Honest.abides (hP : P.Lawful) (h : C.Honest s) (he : C.Permits s e)
    (hout : (s.next jsonParse e).sent = s.sent ++ out) :
    Exchange.Abides (C.view hP) s (e.cause s.sessionKey) out (s.next jsonParse e) := by
  have hgrows := (store_next h.kept.keyed jsonParse e).2
  obtain ⟨hsettings, out', heq, hsaid⟩ := says_next h he
  obtain rfl := List.append_cancel_left (heq.symm.trans hout)
  constructor
  case isOpen_iff => exact fun peerHex ↦ has_next s e
  case used => exact fun peerHex ↦ used_mono s e
  case used_of_isOpen => exact fun peerHex ↦ h.used_next peerHex
  case fresh => exact fun peerHex ↦ not_used_of_attach
  case speaks => exact fun peerHex m hm ↦ (hsaid _ hm).1
  case holds => exact fun x hx ↦ hgrows.hasChunk hx
  case met => exact fun f ↦ he.met_next
  case introduced =>
    intro peerHex m f hcause hnote
    obtain ⟨session, rank, rfl, -⟩ := eq_message_of_hear hcause
    exact he.introduced hnote
  case learns =>
    intro peerHex m x hcause htells
    obtain ⟨session, rank, rfl, rfl⟩ := eq_message_of_hear hcause
    exact ⟨he.isOpen_next, h.learns he htells⟩
  case remembers =>
    intro peerHex x hknows hopen
    exact ⟨hopen, knows_next s e hknows.2 hopen⟩
  case believes =>
    intro peerHex x hknows
    refine (h.believes e hknows.1 hknows.2).imp_left fun hold ↦ ⟨hold.1, hold⟩
  case truthful => exact fun peerHex m hm ↦ (hsaid _ hm).2
  case steadfast => exact fun m hm ↦ Speaks.mono hm (congrArg Prod.fst hsettings) hgrows
  case announces => exact fun peerHex x hheld hopen _ ↦ h.announces_next hP he hout hheld hopen
  case greets => exact fun peerHex x hcause hheld ↦ h.greets_next hout hcause hheld
  case asks =>
    rintro peerHex x ⟨r, hr, rfl⟩
    exact (h.asks hP he hout hr).imp_right fun hold ↦ ⟨⟨r, hold.1, rfl⟩, hold.2⟩
  case relies =>
    rintro peerHex x ⟨r, hr, rfl⟩
    obtain ⟨hopen, hknows⟩ := (h.next hP he).relies hr
    exact ⟨hopen, hopen, hknows⟩
  case serves => exact fun peerHex m x hcause hnote hheld ↦
    h.serves_next hP he hout hcause hnote hheld

end Catalogue

end AttestP2P
