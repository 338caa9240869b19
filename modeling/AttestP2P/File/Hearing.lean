import AttestP2P.File.Speech

/-!
# What a node is told

Other nodes say what they hold in two kinds of messages: a HAVE lists the chunks of a file in a
bitfield, and a HAVE_PIECE names one chunk.  A file node keeps what it hears in a record for each
peer, the chunks of each file that this peer has mentioned, and asks nobody else for a chunk.

A bitfield says nothing on its own, since its bits are read up to the number of chunks that the
manifest gives.  A node that has not met the manifest takes no chunk from it.  So what a message
*says*, with the catalogue at hand, and what the node *takes* from it are two things.

* `Knowledge.told` is what the node takes from a message, and `Knowledge.Knows` what it has on
  record.
* `Knowledge.knows_learn_message` and `Knowledge.knows_of_learn`: a message adds to the record what
  it tells, and nothing else adds to it.  `Knowledge.Knows.learn`: only the end of the session
  takes something away.
* `Honest.mem_told_iff`: with a catalogue that the files and their manifests come from, a node is
  told what is said about the files it has met, and it is never told of a chunk that was not
  mentioned.
-/

set_option autoImplicit false

namespace AttestP2P

/-! ## The record of a peer -/

namespace Knowledge

variable {P : Primitives} {jsonParse : Buffer → Option Json} {k : Knowledge} {e : FileEvent}
  {f peerHex : String} {i : ℕ}

/-- The chunks of the file that the message says are there. -/
def told (k : Knowledge) (f : String) : FileMessage → Finset ℕ
  | .have g bitfield => if g = f then
      (k.chunkCount f).elim ∅ fun nb ↦
        ((ChunkStore.parseBitfield bitfield (some nb)).getD []).toFinset
    else ∅
  | .havePiece g idx => if g = f then {idx} else ∅
  | _ => ∅

/-- The chunk is known to be there, at the other end of the session: it is in the record of the
peer. -/
def Knows (k : Knowledge) (peerHex f : String) (i : ℕ) : Prop :=
  ∃ set, k.record peerHex f = some set ∧ i ∈ set

theorem knows_addHave {p g : String} {chunks : Finset ℕ} :
    (k.addHave p g chunks).Knows peerHex f i ↔
      k.Knows peerHex f i ∨ peerHex = p ∧ f = g ∧ i ∈ chunks := by
  rw [Knows, record_addHave, Knows]
  by_cases h : peerHex = p ∧ f = g
  · rw [if_pos h]
    constructor
    · rintro ⟨set, hset, hi⟩
      obtain rfl := Option.some.inj hset
      rcases Finset.mem_union.mp hi with hi | hi
      · cases hrecord : k.record peerHex f with
        | none =>
          rw [hrecord] at hi
          exact absurd hi (Finset.notMem_empty i)
        | some set =>
          rw [hrecord] at hi
          exact .inl ⟨set, rfl, hi⟩
      · exact .inr ⟨h.1, h.2, hi⟩
    · rintro (⟨set, hset, hi⟩ | ⟨-, -, hi⟩)
      · exact ⟨_, rfl, Finset.mem_union_left _ (by rwa [hset])⟩
      · exact ⟨_, rfl, Finset.mem_union_right _ hi⟩
  · rw [if_neg h]
    exact (or_iff_left fun hi ↦ h ⟨hi.1, hi.2.1⟩).symm

theorem knows_register {m : Json} : (k.register m).Knows peerHex f i ↔ k.Knows peerHex f i := by
  rw [Knows, record_register, Knows]

/-- A message adds what it says to what is known of its own session, and nothing to any other. -/
theorem knows_learn_message {session : FileSession} {buf : Buffer} {rank : ℕ → ℕ} :
    (k.learn P jsonParse (.message session buf rank)).Knows peerHex f i ↔ k.Knows peerHex f i ∨
      peerHex = session.peerHex ∧ ∃ message, FileProtocol.decode jsonParse buf = .ok message ∧
        i ∈ k.told f message := by
  have hnone {message : FileMessage} (htold : k.told f message = ∅)
      (hdecode : FileProtocol.decode jsonParse buf = .ok message) :
      ¬(peerHex = session.peerHex ∧ ∃ message, FileProtocol.decode jsonParse buf = .ok message ∧
        i ∈ k.told f message) := by
    rintro ⟨-, message', hdecode', hi⟩
    obtain rfl := Except.ok.inj (hdecode.symm.trans hdecode')
    rw [htold] at hi
    exact Finset.notMem_empty i hi
  have hsome {message : FileMessage} {chunks : Finset ℕ} (g : String)
      (htold : k.told f message = if g = f then chunks else ∅)
      (hdecode : FileProtocol.decode jsonParse buf = .ok message) :
      k.Knows peerHex f i ∨ peerHex = session.peerHex ∧ f = g ∧ i ∈ chunks ↔
        k.Knows peerHex f i ∨ peerHex = session.peerHex ∧ ∃ message,
          FileProtocol.decode jsonParse buf = .ok message ∧ i ∈ k.told f message := by
    refine or_congr_right (and_congr_right fun _ ↦ ⟨fun ⟨hg, hi⟩ ↦ ⟨message, hdecode, ?_⟩, ?_⟩)
    · rwa [htold, if_pos hg.symm]
    · rintro ⟨message', hdecode', hi⟩
      obtain rfl := Except.ok.inj (hdecode.symm.trans hdecode')
      rw [htold] at hi
      split at hi
      · next hg => exact ⟨hg.symm, hi⟩
      · exact absurd hi (Finset.notMem_empty i)
  rw [learn]
  cases hdecode : FileProtocol.decode jsonParse buf with
  | error err => simp
  | ok message =>
    rw [hdecode] at hnone hsome
    cases message with
    | manifest m =>
      rw [or_iff_left (hnone rfl rfl)]
      dsimp only
      split
      · exact knows_register
      · rfl
    | «have» g bitfield =>
      dsimp only
      rw [onHave]
      cases hcount : k.chunkCount g with
      | none =>
        refine (or_iff_left (hnone ?_ rfl)).symm
        rw [told]
        split
        · next hg => rw [← hg, hcount, Option.elim_none]
        · rfl
      | some nb =>
        dsimp only
        rw [knows_addHave]
        refine hsome g ?_ rfl
        rw [told]
        split
        · next hg => rw [← hg, hcount, Option.elim_some]
        · rfl
    | havePiece g idx => exact knows_addHave.trans (hsome g rfl rfl)
    | chunkReq g idx => exact (or_iff_left (hnone rfl rfl)).symm
    | chunkData g idx chunkHash signature data => exact (or_iff_left (hnone rfl rfl)).symm
    | ack idx status => exact (or_iff_left (hnone rfl rfl)).symm

/-- Other events add nothing: whatever is known after them was known before. -/
theorem knows_of_learn (he : ∀ session buf rank, e ≠ .message session buf rank)
    (h : (k.learn P jsonParse e).Knows peerHex f i) : k.Knows peerHex f i := by
  cases e with
  | attach peerId =>
    obtain ⟨set, hset, hi⟩ := h
    exact ⟨set, by rwa [learn, record_attach] at hset, hi⟩
  | message session buf rank => exact absurd rfl (he session buf rank)
  | close p rank =>
    obtain ⟨set, hset, hi⟩ := h
    exact ⟨set, (record_close hset).2, hi⟩
  | timer t rank => exact h
  | download m outPath parallel rank => exact knows_register.mp h
  | seed m filePath => exact knows_register.mp h

/-- What is known is remembered, until the session is closed. -/
theorem Knows.learn (h : k.Knows peerHex f i) (he : ∀ rank, e ≠ .close peerHex rank) :
    (k.learn P jsonParse e).Knows peerHex f i := by
  cases e with
  | attach peerId =>
    obtain ⟨set, hset, hi⟩ := h
    exact ⟨set, by rwa [Knowledge.learn, record_attach], hi⟩
  | message session buf rank => exact knows_learn_message.mpr (.inl h)
  | close p rank =>
    obtain ⟨set, hset, hi⟩ := h
    refine ⟨set, ?_, hi⟩
    have hne : peerHex ≠ p := fun hp ↦ he rank (by rw [hp])
    rw [record] at hset ⊢
    rw [Knowledge.learn, close, OrderedMap.get?_delete, if_neg hne]
    exact hset
  | timer t rank => exact h
  | download m outPath parallel rank => exact knows_register.mpr h
  | seed m filePath => exact knows_register.mpr h

end Knowledge

namespace Catalogue

open FileNode ChunkStore FileProtocol Slices

variable {P : Primitives} {jsonParse : Buffer → Option Json} {C : Catalogue P jsonParse}
  {s s' : FileNode P} {f g : String} {x y : SharedFile P} {i : ℕ} {m buf : Buffer}
  {peerHex : String} {e : FileEvent} {out : List (String × Buffer)}

/-! ## What a node is told is what is said

The catalogue says what a message means, the node's own knowledge what is taken from it.  The two
differ when a node has not met the manifest: then it is told less. -/

/-- The chunks of a file are counted as the manifest counts them. -/
theorem Honest.chunkCount_eq (h : C.Honest s) {nb : Json}
    (hcount : s.knowledge.chunkCount f = some nb) :
    ∃ x, C.file f = some x ∧ nb = .num (.ofNat (count x.content x.chunkSize)) := by
  have hfile {m : Json} (hm : s.manifests.get f = some m) (hnb : m.get "nb_chunks" = some nb) :
      ∃ x, C.file f = some x ∧ nb = .num (.ofNat (count x.content x.chunkSize)) := by
    obtain ⟨x, hx, rfl⟩ := h.manifest_of_get hm
    exact ⟨x, hx, (Option.some.inj (x.describes.nbChunks.symm.trans hnb)).symm⟩
  rw [Knowledge.chunkCount, Knowledge.countOf] at hcount
  have hcount := Option.eq_some_of_filter_eq_some hcount
  cases hmanifest : (s.knowledge.manifests.get f).filter Json.truthy with
  | some m =>
    rw [hmanifest] at hcount
    exact hfile (Option.eq_some_of_filter_eq_some hmanifest) hcount
  | none =>
    rw [hmanifest, Option.elim_none, Option.join_eq_some_iff] at hcount
    obtain ⟨entry, hentry, hnb⟩ := Option.map_eq_some_iff.mp hcount
    obtain ⟨m, hm⟩ := Option.isSome_iff_exists.mp (h.entries f entry hentry)
    obtain ⟨x, hx, rfl⟩ := h.catalogued f m hm
    have hcounts := ((h.admits hx).entry entry hentry).nbChunks
    rw [hnb, x.describes.nbChunks] at hcounts
    exact ⟨x, hx, Option.some.inj hcounts⟩

/-- The chunks of a file that has been introduced are counted. -/
theorem Honest.chunkCount_of_met (h : C.Honest s) (hx : C.file f = some x)
    (hmet : (s.manifests.own.get? f).isSome = true) :
    s.knowledge.chunkCount f = some (.num (.ofNat (count x.content x.chunkSize))) := by
  obtain ⟨m, hm⟩ := Option.isSome_iff_exists.mp hmet
  obtain rfl := h.own_eq hm hx
  have hget : s.knowledge.manifests.get f = some x.manifest := by
    rw [JsonTable.get, if_neg (ne_proto hx), show s.knowledge.manifests.own.get? f = _ from hm,
      Option.some_or]
  have htruthy : x.manifest.truthy = true := Json.truthy_of_get (get_fileId hx)
  rw [Knowledge.chunkCount, Knowledge.countOf, hget, Option.filter_some_pos htruthy,
    Option.elim_some, x.describes.nbChunks]
  rfl

theorem mem_parseBitfield {bitfield : Buffer} {n : ℕ} (hn : n < 2 ^ 31) :
    i ∈ ((parseBitfield bitfield (some (.num (.ofNat n)))).getD []).toFinset ↔
      i < n ∧ bitSet bitfield i = true := by
  have hloop : loopCount (some (.num (.ofNat n))) = some n := Number.countBelow_ofNat (by omega)
  rw [parseBitfield, hloop, Option.map_some, Option.getD_some, List.mem_toFinset, List.mem_filter,
    List.mem_range]

/-- **What a node is told is what is said**, and what is said to those who have met the file is
what they are told. -/
theorem Honest.mem_told_iff (h : C.Honest s) {message : FileMessage}
    (hdecode : FileProtocol.decode jsonParse buf = .ok message) :
    ((C.note buf).Tells (fun f ↦ (s.manifests.own.get? f).isSome = true) (f, i) →
      i ∈ s.knowledge.told f message) ∧
    (i ∈ s.knowledge.told f message → (C.note buf).Mentions (f, i)) := by
  rw [note_of_decode hdecode]
  cases message with
  | manifest m =>
    refine ⟨fun htells ↦ ?_, fun hi ↦ absurd hi (Finset.notMem_empty i)⟩
    rw [meaning] at htells
    split at htells
    · exact htells.elim
    · exact htells.elim
  | «have» g bitfield =>
    rw [Knowledge.told]
    constructor
    · rintro ⟨hmet, rfl, ⟨x, hx, hlt⟩, hbit⟩
      rw [if_pos rfl, h.chunkCount_of_met hx hmet, Option.elim_some]
      exact (mem_parseBitfield x.count_lt).mpr ⟨hlt, hbit⟩
    · intro hi
      split at hi
      · next hg =>
        subst hg
        cases hcount : s.knowledge.chunkCount g with
        | none =>
          rw [hcount] at hi
          exact absurd hi (Finset.notMem_empty i)
        | some nb =>
          obtain ⟨x, hx, rfl⟩ := h.chunkCount_eq hcount
          rw [hcount, Option.elim_some, mem_parseBitfield x.count_lt] at hi
          exact ⟨rfl, ⟨x, hx, hi.1⟩, hi.2⟩
      · exact absurd hi (Finset.notMem_empty i)
  | havePiece g j =>
    rw [Knowledge.told]
    constructor
    · intro htells
      obtain ⟨rfl, rfl⟩ := Prod.mk.inj htells
      rw [if_pos rfl]
      exact Finset.mem_singleton_self j
    · intro hi
      split at hi
      · next hg =>
        rw [Finset.mem_singleton] at hi
        exact Prod.ext hg hi.symm
      · exact absurd hi (Finset.notMem_empty i)
  | chunkReq g j => exact ⟨False.elim, fun hi ↦ absurd hi (Finset.notMem_empty i)⟩
  | chunkData g j chunkHash signature data =>
    exact ⟨False.elim, fun hi ↦ absurd hi (Finset.notMem_empty i)⟩
  | ack j status => exact ⟨False.elim, fun hi ↦ absurd hi (Finset.notMem_empty i)⟩

end Catalogue

end AttestP2P
