import AttestP2P.Session.Link

/-!
# One direction of a link

Each direction of an established link is a queue of frames that have been sealed and not yet
opened.  A frame is sealed under the sender's key of that moment, which REKEY and REKEY_ACK frames
then advance; the receiver's key lags behind by the frames of the queue.

* `Item` is a frame of the queue before it is sealed, and `keyAfter` the key after the frames of the
  queue: replaying them from the receiver's key gives the sender's key.
* `Way` is what holds of one direction.  The bodies emitted and those of the queue are those sent,
  and sequence numbers increase.  Nothing in it mentions the other direction.
* `Way.send`, `Way.control`, `Way.advance` and `Way.emit` are what can happen to it: a frame joins
  the queue at one end, or leaves it at the other.
-/

set_option autoImplicit false

namespace AttestP2P

open Buffer SecureConnection

variable {S : Suite Buffer}

/-! ## One direction -/

/-- A frame of the channel before it is sealed, with the nonce that it is going to be sealed
with. -/
inductive Item (S : Suite Buffer)
  | data (nonce : S.Nonce) (seq : ℕ) (body : Buffer)
  | rekey (nonce : S.Nonce)
  | ack (nonce : S.Nonce)

namespace Item

def nonce : Item S → S.Nonce
  | data nonce _ _ => nonce
  | rekey nonce => nonce
  | ack nonce => nonce

def plaintext : Item S → Buffer
  | data _ seq body => dataPlaintext seq body
  | rekey _ => [ctrlRekey]
  | ack _ => [ctrlRekeyAck]

/-- The key of the direction after the frame, at either end. -/
def advance (key : S.Key) : Item S → S.Key
  | data _ _ _ => key
  | rekey _ => deriveRekey S key
  | ack _ => deriveRekey S key

def body? : Item S → Option Buffer
  | data _ _ body => some body
  | _ => none

def seq? : Item S → Option ℕ
  | data _ seq _ => some seq
  | _ => none

def isRekey : Item S → Bool
  | rekey _ => true
  | _ => false

def isAck : Item S → Bool
  | ack _ => true
  | _ => false

end Item

/-- The frames of a queue, sealed one after the other from `key` on. -/
def sealAll (key : S.Key) : List (Item S) → List Buffer
  | [] => []
  | it :: items => S.aeadSeal key it.nonce it.plaintext :: sealAll (it.advance key) items

/-- The key after a queue has been opened, which every rekey in it advances. -/
def keyAfter (key : S.Key) (items : List (Item S)) : S.Key := items.foldl Item.advance key

theorem sealAll_append (key : S.Key) (items : List (Item S)) (it : Item S) :
    sealAll key (items ++ [it]) =
      sealAll key items ++ [S.aeadSeal (keyAfter key items) it.nonce it.plaintext] := by
  induction items generalizing key with
  | nil => rfl
  | cons x items ih =>
    rw [List.cons_append, sealAll, sealAll, ih, List.cons_append]
    rfl

/-- One direction: the sender's key, the receiver's key, the bodies sent and emitted, the two
sequence numbers, and the queue between them. -/
structure Way (tx rx : S.Key) (sent emitted : List Buffer) (txSeq : ℕ) (rxSeq : Option ℕ)
    (items : List (Item S)) : Prop where
  key : keyAfter rx items = tx
  /-- `send` has thrown on the bodies that are missing, for want of sequence numbers. -/
  bodies : ∃ lost, sent = emitted ++ items.filterMap Item.body? ++ lost ∧
    (txSeq + 1 < 2 ^ 64 → lost = [])
  increasing : (rxSeq.toList ++ items.filterMap Item.seq?).Pairwise (· < ·)
  used : ∀ n ∈ rxSeq.toList ++ items.filterMap Item.seq?, n ≤ txSeq
  fits : ∀ n ∈ items.filterMap Item.seq?, n < 2 ^ 64

namespace Way

variable {tx rx : S.Key} {sent emitted : List Buffer} {txSeq : ℕ} {rxSeq : Option ℕ}
  {items : List (Item S)}

/-- A fresh direction, whatever its key: both ends hold the same one, and nothing is on the way. -/
theorem fresh (key : S.Key) : Way key key [] [] 0 none ([] : List (Item S)) where
  key := rfl
  bodies := ⟨[], rfl, fun _ ↦ rfl⟩
  increasing := .nil
  used := by simp
  fits := by simp

/-- A body is sealed with the next sequence number. -/
theorem send (h : Way tx rx sent emitted txSeq rxSeq items) (hseq : txSeq + 1 < 2 ^ 64)
    (nonce : S.Nonce) (body : Buffer) :
    Way tx rx (sent ++ [body]) emitted (txSeq + 1) rxSeq
      (items ++ [.data nonce (txSeq + 1) body]) := by
  obtain ⟨lost, hsent, hlost⟩ := h.bodies
  have hseqs : (items ++ [Item.data nonce (txSeq + 1) body]).filterMap Item.seq? =
      items.filterMap Item.seq? ++ [txSeq + 1] := by
    rw [List.filterMap_append]
    rfl
  refine ⟨?_, ⟨[], ?_, fun _ ↦ rfl⟩, ?_, ?_, ?_⟩
  · rw [keyAfter, List.foldl_append]
    exact h.key
  · rw [hsent, hlost hseq, List.filterMap_append]
    simp [Item.body?]
  · rw [hseqs, ← List.append_assoc, List.pairwise_append]
    refine ⟨h.increasing, List.pairwise_singleton _ _, fun a ha b hb ↦ ?_⟩
    have hused := h.used a ha
    rw [List.mem_singleton] at hb
    omega
  · intro n hn
    rw [hseqs, ← List.append_assoc, List.mem_append, List.mem_singleton] at hn
    rcases hn with hn | rfl
    · exact (h.used n hn).trans (Nat.le_succ _)
    · exact le_rfl
  · intro n hn
    rw [hseqs, List.mem_append, List.mem_singleton] at hn
    rcases hn with hn | rfl
    · exact h.fits n hn
    · exact hseq

/-- A body is refused: the sequence numbers are used up. -/
theorem refuse (h : Way tx rx sent emitted txSeq rxSeq items) (hseq : 2 ^ 64 ≤ txSeq + 1)
    (body : Buffer) : Way tx rx (sent ++ [body]) emitted (txSeq + 1) rxSeq items := by
  obtain ⟨lost, hsent, -⟩ := h.bodies
  refine ⟨h.key, ⟨lost ++ [body], ?_, fun hlt ↦ by omega⟩, h.increasing, fun n hn ↦ ?_, h.fits⟩
  · rw [hsent]
    simp only [List.append_assoc]
  · exact (h.used n hn).trans (Nat.le_succ _)

/-- A control frame is sealed and the sender's key advanced. -/
theorem control (h : Way tx rx sent emitted txSeq rxSeq items) (it : Item S)
    (hbody : it.body? = none) (hseq : it.seq? = none) :
    Way (it.advance tx) rx sent emitted txSeq rxSeq (items ++ [it]) := by
  have hbodies : (items ++ [it]).filterMap Item.body? = items.filterMap Item.body? := by
    simp [List.filterMap_append, hbody]
  have hseqs : (items ++ [it]).filterMap Item.seq? = items.filterMap Item.seq? := by
    simp [List.filterMap_append, hseq]
  refine ⟨?_, by rw [hbodies]; exact h.bodies, by rw [hseqs]; exact h.increasing,
    by rw [hseqs]; exact h.used, by rw [hseqs]; exact h.fits⟩
  rw [← h.key, keyAfter, keyAfter, List.foldl_append]
  rfl

/-- A control frame is opened and the receiver's key advanced. -/
theorem advance {it : Item S} (h : Way tx rx sent emitted txSeq rxSeq (it :: items))
    (hbody : it.body? = none) (hseq : it.seq? = none) :
    Way tx (it.advance rx) sent emitted txSeq rxSeq items := by
  obtain ⟨hkey, hbodies, hincreasing, hused, hfits⟩ := h
  rw [List.filterMap_cons_none hbody] at hbodies
  rw [List.filterMap_cons_none hseq] at hincreasing hused hfits
  exact ⟨hkey, hbodies, hincreasing, hused, hfits⟩

/-- A DATA frame is opened: its sequence number is fresh, and its body emitted. -/
theorem emit {nonce : S.Nonce} {seq : ℕ} {body : Buffer}
    (h : Way tx rx sent emitted txSeq rxSeq (.data nonce seq body :: items)) :
    (∀ n ∈ rxSeq, n < seq) ∧ seq < 2 ^ 64 ∧
      Way tx rx sent (emitted ++ [body]) txSeq (some seq) items := by
  obtain ⟨hkey, ⟨lost, hsent, hlost⟩, hincreasing, hused, hfits⟩ := h
  have hseqs : (Item.data nonce seq body :: items).filterMap Item.seq? =
      seq :: items.filterMap Item.seq? := rfl
  have hbodies : (Item.data nonce seq body :: items).filterMap Item.body? =
      body :: items.filterMap Item.body? := rfl
  rw [hseqs] at hincreasing hused hfits
  rw [hbodies] at hsent
  obtain ⟨-, htail, hlt⟩ := List.pairwise_append.mp hincreasing
  refine ⟨fun n hn ↦ ?_, hfits seq List.mem_cons_self, hkey, ⟨lost, ?_, hlost⟩, htail,
    fun n hn ↦ hused n (List.mem_append_right _ hn), fun n hn ↦ ?_⟩
  · exact hlt n (Option.mem_toList.mpr hn) seq List.mem_cons_self
  · rw [hsent]
    simp only [List.append_assoc, List.cons_append, List.nil_append]
  · exact hfits n (List.mem_cons_of_mem _ hn)

/-- The bodies emitted are a prefix of the bodies sent. -/
theorem delivered (h : Way tx rx sent emitted txSeq rxSeq items) : emitted <+: sent := by
  obtain ⟨lost, hsent, -⟩ := h.bodies
  rw [hsent, List.append_assoc]
  exact List.prefix_append _ _

end Way

end AttestP2P
