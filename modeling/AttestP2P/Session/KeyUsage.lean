import AttestP2P.Session.Closing

/-!
# How often a key is used

An initiator counts the messages that it sends (`_rk.msgs`) and rekeys after `rekeyEveryMsgs` of
them.  The key changes when REKEY is written or answered; the counter starts again when REKEY_ACK
arrives.  These are two different moments, and what is sent between them is sealed under the new key
and then forgotten.

* A `Meter` is what decides when the key changes, and `Moves` what a step does to it.
* `used` counts the DATA frames that are sealed under each key, and `Within` is the invariant that
  ties them to the meter.
* `used_le_of_paced`: no key seals more than `rekeyEveryMsgs` DATA frames as long as nothing is sent
  during a rekey and the counter starts again only then.

A key is named by its generation: `rekeyTx` derives the next one from the one before.  The steps of
a run are calls, frames and timers of `Session.EventLoop`, each with the connection it finds, so
that the condition can be read off the run before anything is computed from it.
-/

set_option autoImplicit false

namespace AttestP2P

variable {S : Suite Buffer}

/-! ## Keys and DATA frames -/

namespace SecureConnection

/-- The generation of the key that the step seals a DATA frame with. -/
def sealsWith (c : SecureConnection S) : SessionStep S → Option ℕ
  | .call (.send _ _ _ _) =>
    if c.txSeq + 1 < 2 ^ 64 then c.session.map SecureSession.txGen else none
  | _ => none

/-- The frame is a REKEY_ACK frame of the session, and the security context lets it pass. -/
def IsAck (c : SecureConnection S) (frame : Buffer) (allowFrame : Bool) : Prop :=
  allowFrame = true ∧ ∃ s pt, c.session = some s ∧ s.open frame = .ok pt ∧
    pt.headD ctrlData = ctrlRekeyAck

/-- A message is sent while no rekey is going on, and its frame is written, if the connection is not
closed.  A REKEY_ACK frame arrives during a rekey, or when nothing has been counted. -/
def Paced (c : SecureConnection S) : SessionStep S → Prop
  | .call (.send body _ _ _) => c.session ≠ none → c.txSeq + 1 < 2 ^ 64 →
    c.rekeying = false ∧ (c.closed = true ∨ body.length + 49 < 2 ^ 32)
  | .frame frame allowFrame _ _ => c.IsAck frame allowFrame → c.rekeying = true ∨ c.rkMsgs = 0
  | _ => True

end SecureConnection

/-- How many DATA frames the steps seal with the key of a generation. -/
def StepLog.used (l : StepLog S) (gen : ℕ) : ℕ := l.countP fun p ↦ p.1.sealsWith p.2 = some gen

/-! ## The meter -/

/-- What decides when an initiator changes the key. -/
structure Meter where
  initiator : Bool
  /-- How often the key has been changed, once there is one. -/
  gen : Option ℕ
  rekeying : Bool
  msgs : ℕ
  limit : ℕ

/-- What a step does to the meter; a message may be sealed, under the key of the given
generation. -/
inductive Meter.Moves (m : Meter) : Option ℕ → Meter → Prop
  | still : Moves m none m
  | opened (hnone : m.gen = none) (gen : Option ℕ) : Moves m none { m with gen := gen }
  /-- REKEY is answered. -/
  | turned {g} (hg : m.gen = some g) : Moves m none { m with gen := some (g + 1) }
  | acknowledged (h : m.rekeying = true ∨ m.msgs = 0) :
      Moves m none { m with rekeying := false, msgs := 0 }
  | rekeyed {g} (hg : m.gen = some g) (hidle : m.rekeying = false) :
      Moves m none { m with gen := some (g + 1), rekeying := true }
  | sent {g} (hg : m.gen = some g) (hidle : m.rekeying = false) (hlt : m.msgs + 1 < m.limit) :
      Moves m (some g) { m with msgs := m.msgs + 1 }
  /-- The message is the last one before a rekey. -/
  | last {g} (hg : m.gen = some g) (hidle : m.rekeying = false) :
      Moves m (some g) { m with gen := some (g + 1), rekeying := true, msgs := m.msgs + 1 }

/-- **The invariant.**  Under the key in use no more messages have been sealed than are counted, and
none during a rekey; when none is going on, the counter is below the limit. -/
structure Meter.Within (m : Meter) (used : ℕ → ℕ) : Prop where
  pos : 0 < m.limit
  le : ∀ g, used g ≤ m.limit
  later : ∀ g, (∀ g', m.gen = some g' → g' < g) → used g = 0
  counted : ∀ g, m.gen = some g → used g ≤ m.msgs
  pending : ∀ g, m.gen = some g → m.rekeying = true → used g = 0
  idle : m.rekeying = false → m.msgs < m.limit

namespace Meter

variable {m m' : Meter} {used : ℕ → ℕ} {o : Option ℕ}

/-- One more message is sealed under the key of the given generation, if there is one. -/
def count (used : ℕ → ℕ) (o : Option ℕ) (g : ℕ) : ℕ := used g + if o = some g then 1 else 0

theorem count_none (used : ℕ → ℕ) : count used none = used := by
  funext g
  simp [count]

theorem count_self (used : ℕ → ℕ) (g : ℕ) : count used (some g) g = used g + 1 := by
  simp [count]

theorem count_of_ne {g k : ℕ} (h : k ≠ g) : count used (some g) k = used k := by
  simp [count, h.symm]

theorem Within.zero (h : 0 < m.limit) (hmsgs : m.msgs = 0) :
    m.Within fun _ ↦ 0 where
  pos := h
  le _ := Nat.zero_le _
  later _ _ := rfl
  counted _ _ := Nat.zero_le _
  pending _ _ _ := rfl
  idle _ := hmsgs.trans_lt h

/-- The next key is new: no message has been sealed under it. -/
theorem Within.next {g : ℕ} (h : m.Within used) (hg : m.gen = some g) : used (g + 1) = 0 := by
  refine h.later (g + 1) fun g' hg' ↦ ?_
  obtain rfl := Option.some.inj (hg.symm.trans hg')
  exact Nat.lt_succ_self g

theorem Within.above {g k : ℕ} (h : m.Within used) (hg : m.gen = some g) (hk : g + 1 < k) :
    used k = 0 := by
  refine h.later k fun g' hg' ↦ ?_
  obtain rfl := Option.some.inj (hg.symm.trans hg')
  omega

/-- The key changes, and with it what the counter stands for. -/
theorem Within.turn {g : ℕ} {rekeying : Bool} (h : m.Within used) (hg : m.gen = some g)
    (hidle : rekeying = false → m.rekeying = false) :
    ({ m with gen := some (g + 1), rekeying := rekeying } : Meter).Within used where
  pos := h.pos
  le := h.le
  later k hk := h.above hg (hk (g + 1) rfl)
  counted := by
    rintro k ⟨⟩
    exact (h.next hg).trans_le (Nat.zero_le _)
  pending := by
    rintro k ⟨⟩ -
    exact h.next hg
  idle hrekeying := h.idle (hidle hrekeying)

/-- A message is sealed, and no key has sealed more than the limit. -/
theorem Within.seal {g : ℕ} (h : m.Within used) (hg : m.gen = some g) (hidle : m.rekeying = false)
    (k : ℕ) : count used (some g) k ≤ m.limit := by
  have hcounted := h.counted g hg
  have hlt := h.idle hidle
  by_cases hk : k = g
  · rw [hk, count_self]
    omega
  · rw [count_of_ne hk]
    exact h.le k

theorem Moves.keeps (h : m.Moves o m') : m'.initiator = m.initiator ∧ m'.limit = m.limit := by
  cases h with
  | _ => exact ⟨rfl, rfl⟩

/-- **A step keeps the invariant**, whichever of the moves it is. -/
theorem Within.moves (h : m.Within used) (hmoves : m.Moves o m') :
    m'.Within (Meter.count used o) := by
  cases hmoves with
  | still =>
    rw [count_none]
    exact h
  | opened hnone gen =>
    have hzero (g : ℕ) : used g = 0 := h.later g fun g' hg' ↦ nomatch hnone.symm.trans hg'
    rw [count_none]
    exact ⟨h.pos, h.le, fun g _ ↦ hzero g, fun g _ ↦ (hzero g).trans_le (Nat.zero_le _),
      fun g _ _ ↦ hzero g, h.idle⟩
  | turned hg =>
    rw [count_none]
    exact h.turn hg id
  | acknowledged hreset =>
    have hzero {g : ℕ} (hg : m.gen = some g) : used g = 0 := by
      rcases hreset with hrekeying | hmsgs
      · exact h.pending g hg hrekeying
      · exact Nat.le_zero.mp (hmsgs ▸ h.counted g hg)
    rw [count_none]
    exact ⟨h.pos, h.le, h.later, fun g hg ↦ (hzero hg).le, fun g hg _ ↦ hzero hg, fun _ ↦ h.pos⟩
  | rekeyed hg hidle =>
    rw [count_none]
    exact h.turn hg fun hfalse ↦ nomatch hfalse
  | @sent g hg hidle hlt =>
    refine ⟨h.pos, h.seal hg hidle, fun k hk ↦ ?_, fun k hk ↦ ?_,
      fun k hk hrekeying ↦ ?_, fun _ ↦ hlt⟩
    · have hlater := hk g hg
      rw [count_of_ne hlater.ne']
      exact h.later k hk
    · obtain rfl := Option.some.inj (hg.symm.trans hk)
      rw [count_self]
      exact Nat.succ_le_succ (h.counted g hg)
    · exact nomatch hidle.symm.trans hrekeying
  | @last g hg hidle =>
    have hnew : count used (some g) (g + 1) = 0 := by
      rw [count_of_ne (Nat.succ_ne_self g), h.next hg]
    refine ⟨h.pos, h.seal hg hidle, fun k hk ↦ ?_, ?_, ?_, nofun⟩
    · have hlater := hk (g + 1) rfl
      rw [count_of_ne (by omega)]
      exact h.above hg hlater
    · rintro k ⟨⟩
      exact hnew.trans_le (Nat.zero_le _)
    · rintro k ⟨⟩ -
      exact hnew

end Meter

/-! ## What a step does to the meter -/

namespace SecureConnection

variable {c c' : SecureConnection S} {s : SecureSession S}

def meter (c : SecureConnection S) : Meter where
  initiator := c.hs.isInitiator
  gen := c.session.map SecureSession.txGen
  rekeying := c.rekeying
  msgs := c.rkMsgs
  limit := c.rekeyEveryMsgs

theorem meter_of_session (hs : c.session = some s) : c.meter.gen = some s.txGen := by
  simp [meter, hs]

@[simp] theorem meter_fail (c : SecureConnection S) (err : String) :
    (c.fail err).1.meter = c.meter := by
  rw [fail]
  split
  · rfl
  · rfl

theorem exists_write {frame : Buffer} (h : c.closed = true ∨ frame.length < 2 ^ 32) :
    ∃ w, c.write frame = .ok w := by
  cases hclosed : c.closed with
  | true => exact ⟨_, write_of_closed hclosed frame⟩
  | false => exact ⟨_, write_of_open hclosed (h.resolve_left (by simp [hclosed]))⟩

theorem meter_rekey (hS : S.Lawful) (hs : c.session = some s) (hidle : c.rekeying = false)
    (nonce : S.Nonce) : (c.rekey nonce).1.meter =
      { c.meter with gen := some (s.txGen + 1), rekeying := true } := by
  obtain ⟨w, hw⟩ := exists_write (c := { c with rekeying := true })
    (.inr (length_seal_control hS s nonce ctrlRekey))
  rw [rekey, hs]
  simp only [hidle, Bool.false_eq_true, if_false]
  rw [hs] at hw
  rw [hw]
  rfl

theorem moves_rekey (hS : S.Lawful) (c : SecureConnection S) (nonce : S.Nonce) :
    c.meter.Moves none (c.rekey nonce).1.meter := by
  by_cases hbusy : c.session = none ∨ c.rekeying = true
  · rw [rekey_of_rekeying hbusy]
    exact .still
  · obtain ⟨hsession, hidle⟩ := not_or.mp hbusy
    obtain ⟨s, hs⟩ := Option.ne_none_iff_exists'.mp hsession
    rw [Bool.not_eq_true] at hidle
    rw [meter_rekey hS hs hidle]
    exact .rekeyed (meter_of_session hs) hidle

theorem moves_maybeAutoRekey (hS : S.Lawful) (c : SecureConnection S) (nonce : S.Nonce) (now : ℕ) :
    c.meter.Moves none (c.maybeAutoRekey nonce now).1.meter := by
  obtain h | h := c.maybeAutoRekey_eq nonce now
  · rw [h]
    exact .still
  · rw [h]
    exact moves_rekey hS c nonce

/-- An initiator that does not rekey is below the limit. -/
theorem meter_maybeAutoRekey (hS : S.Lawful) (hinitiator : c.hs.isInitiator = true)
    (hs : c.session = some s) (hidle : c.rekeying = false) (nonce : S.Nonce) (now : ℕ) :
    (c.maybeAutoRekey nonce now).1.meter = c.meter ∧ c.rkMsgs < c.rekeyEveryMsgs ∨
      (c.maybeAutoRekey nonce now).1.meter =
        { c.meter with gen := some (s.txGen + 1), rekeying := true } := by
  rw [maybeAutoRekey, if_neg (by simp [hinitiator, hs, hidle])]
  split
  · exact .inr (meter_rekey hS hs hidle nonce)
  · next hdue =>
    rw [not_or] at hdue
    exact .inl ⟨rfl, Nat.not_le.mp hdue.1⟩

theorem moves_send (hS : S.Lawful) (hinitiator : c.hs.isInitiator = true) {body : Buffer}
    {nonce nonce' : S.Nonce} {now : ℕ} (hpaced : c.Paced (.call (.send body nonce nonce' now))) :
    c.meter.Moves (c.sealsWith (.call (.send body nonce nonce' now)))
      (c.send body nonce nonce' now).1.meter := by
  cases hs : c.session with
  | none =>
    rw [send_of_none hs, sealsWith, hs, Option.map_none, ite_self]
    exact .still
  | some s =>
    by_cases hseq : c.txSeq + 1 < 2 ^ 64
    · obtain ⟨hidle, hfits⟩ := hpaced (by simp [hs]) hseq
      let c₁ : SecureConnection S := { c with
        txSeq := c.txSeq + 1, rkMsgs := c.rkMsgs + 1, rkBytes := c.rkBytes + body.length }
      have hfits' : c.closed = true ∨ (c.dataFrame s body nonce).length < 2 ^ 32 := by
        rwa [length_dataFrame hS]
      obtain ⟨w, hw⟩ := exists_write (c := { c with txSeq := c.txSeq + 1 }) hfits'
      have hsend : (c.send body nonce nonce' now).1 = (c₁.maybeAutoRekey nonce' now).1 := by
        rw [send, hs]
        simp only [Nat.not_le.mpr hseq, if_false]
        rw [dataFrame, hs] at hw
        rw [hw]
        simp only [c₁, hs]
      have hseals : c.sealsWith (.call (.send body nonce nonce' now)) = some s.txGen := by
        rw [sealsWith, if_pos hseq, hs, Option.map_some]
      rw [hsend, hseals]
      obtain ⟨hmeter, hlt⟩ | hmeter := meter_maybeAutoRekey (c := c₁) hS hinitiator hs
        hidle nonce' now
      · rw [hmeter]
        exact .sent (meter_of_session hs) hidle hlt
      · rw [hmeter]
        exact .last (meter_of_session hs) hidle
    · rw [send_of_overflow hs (Nat.not_lt.mp hseq), sealsWith, if_neg hseq]
      exact .still

/-! ### Frames -/

theorem meter_handleData (c : SecureConnection S) (pt : Buffer) (now : ℕ) :
    (c.handleData pt now).1.meter = c.meter := by
  obtain ⟨start, count, hc⟩ := msgAllow_eq c now
  have hmeter : (c.msgAllow now).1.meter = c.meter := by
    rw [hc]
    rfl
  by_cases hlen : pt.length < 9
  · rw [handleData_of_short hlen]
  · cases hallow : (c.msgAllow now).2 with
    | false =>
      rw [handleData_of_limited hlen hallow]
      simp [hmeter]
    | true =>
      by_cases hrx : c.rxSeq.any (pt.readBigUInt64BE 1 ≤ ·) = true
      · rw [handleData_of_replayed hlen hallow hrx]
        simp [hmeter]
      · rw [handleData_of_new hlen hallow hrx]
        exact hmeter

theorem moves_handleTransport (hs : c.session = some s) {frame : Buffer}
    (hpaced : c.IsAck frame true → c.rekeying = true ∨ c.rkMsgs = 0) (nonce : S.Nonce) (now : ℕ) :
    c.meter.Moves none (c.handleTransport s frame nonce now).1.meter := by
  rw [handleTransport]
  cases hopens : s.open frame with
  | error e => exact .still
  | ok pt =>
    dsimp only
    by_cases hdata : pt.headD ctrlData = ctrlData
    · rw [if_pos hdata, meter_handleData]
      exact .still
    · rw [if_neg hdata]
      by_cases hrekey : pt.headD ctrlData = ctrlRekey
      · rw [if_pos hrekey]
        have hgen := meter_of_session hs
        split
        · have hsame : ({ c with session := some s.rekeyRx } : SecureConnection S).meter =
              c.meter := by simp [meter, hs, SecureSession.rekeyRx]
          rw [hsame]
          exact .still
        · exact .turned hgen
      · rw [if_neg hrekey]
        by_cases hack : pt.headD ctrlData = ctrlRekeyAck
        · have hreset := hpaced ⟨rfl, s, pt, hs, hopens, hack⟩
          have hmeter : ({ c with
              session := some s.rekeyRx, rekeying := false, rkMsgs := 0, rkBytes := 0,
              rkSince := now } : SecureConnection S).meter =
                { c.meter with rekeying := false, msgs := 0 } := by
            simp [meter, hs, SecureSession.rekeyRx]
          rw [if_pos hack, hmeter]
          exact .acknowledged hreset
        · rw [if_neg hack]
          split
          · exact .still
          · exact .still

theorem moves_handleFrame {frame : Buffer}
    (hpaced : c.IsAck frame true → c.rekeying = true ∨ c.rkMsgs = 0) (nonce : S.Nonce) (now : ℕ) :
    c.meter.Moves none (c.handleFrame frame nonce now).1.meter := by
  cases hs : c.session with
  | some s =>
    rw [handleFrame_of_session hs]
    exact moves_handleTransport hs hpaced nonce now
  | none =>
    have hrole := (c.hs.onFrame_keeps frame).1
    have hmeter (session : Option (SecureSession S)) :
        ({ c with hs := (c.hs.onFrame frame).1, session := session } : SecureConnection S).meter =
          { c.meter with gen := session.map SecureSession.txGen } := by
      simp [meter, hrole]
    have hopened (session : Option (SecureSession S)) := Meter.Moves.opened (m := c.meter)
      (by simp [meter, hs]) (session.map SecureSession.txGen)
    simp only [← hmeter] at hopened
    rw [handleFrame, hs]
    dsimp only
    cases hon : c.hs.onFrame frame with
    | mk hs' r =>
      rw [hon] at hopened
      cases r with
      | error e => exact hopened none
      | ok r =>
        dsimp only
        split
        · exact hopened r.session
        · exact hopened r.session

theorem moves_onFrame {frame : Buffer} {allowFrame : Bool}
    (hpaced : c.IsAck frame allowFrame → c.rekeying = true ∨ c.rkMsgs = 0) (nonce : S.Nonce)
    (now : ℕ) : c.meter.Moves none (c.onFrame frame allowFrame nonce now).1.meter := by
  cases allowFrame with
  | false =>
    have hmeter : (c.onFrame frame false nonce now).1.meter = c.meter := meter_fail c _
    rw [hmeter]
    exact .still
  | true =>
    have hmoves := moves_handleFrame hpaced nonce now
    rw [onFrame_of_handleFrame]
    generalize c.handleFrame frame nonce now = r at hmoves
    obtain ⟨c', w, e | u⟩ := r
    · simpa using hmoves
    · exact hmoves

/-- **What a step does**, if it is paced: it is one of the moves of the meter.  All methods and all
kinds of frames are gone through here. -/
theorem moves_after (hS : S.Lawful) (hinitiator : c.hs.isInitiator = true) {m : SessionStep S}
    (hpaced : c.Paced m) : c.meter.Moves (c.sealsWith m) (c.after m).meter := by
  cases m with
  | call a =>
    cases a with
    | send body nonce nonce' now => exact moves_send hS hinitiator hpaced
    | rekey nonce => exact moves_rekey hS c nonce
    | close nonce => exact .still
  | frame frame allowFrame nonce now => exact moves_onFrame hpaced nonce now
  | tick nonce now => exact moves_maybeAutoRekey hS c nonce now

end SecureConnection

/-! ## Runs -/

open SecureConnection

theorem StepLog.used_cons (c : SecureConnection S) (m : SessionStep S) (l : StepLog S) (g : ℕ) :
    StepLog.used ((c, m) :: l) g = (if c.sealsWith m = some g then 1 else 0) + l.used g := by
  rw [StepLog.used, List.countP_cons, Nat.add_comm]
  simp [StepLog.used]

/-- The steps keep the invariant, with what they have sealed under each key added to what was sealed
before. -/
theorem Leads.within (hS : S.Lawful) {c c' : SecureConnection S} {l : StepLog S}
    (h : Leads c l c') (hinitiator : c.hs.isInitiator = true) {used : ℕ → ℕ}
    (hwithin : c.meter.Within used) (hpaced : ∀ p ∈ l, p.1.Paced p.2) :
    c'.meter.limit = c.meter.limit ∧ c'.meter.Within fun g ↦ used g + l.used g := by
  induction h generalizing used with
  | nil c => exact ⟨rfl, hwithin⟩
  | @step c c' m l _ ih =>
    obtain ⟨hm, hl⟩ := List.forall_mem_cons.mp hpaced
    have hmoves := moves_after hS hinitiator hm
    obtain ⟨hrole, hlimit⟩ := hmoves.keeps
    obtain ⟨hlimit', hlast⟩ := ih (hrole.trans hinitiator) (hwithin.moves hmoves) hl
    refine ⟨hlimit'.trans hlimit, ?_⟩
    simpa only [StepLog.used_cons, Meter.count, Nat.add_assoc] using hlast
  | adjust decoder closed _ ih => exact ih hinitiator hwithin hpaced

theorem orDefault_pos {o : Option ℕ} {n : ℕ} (h : 0 < n) : 0 < orDefault o n := by
  match o with
  | none => exact h
  | some 0 => exact h
  | some (k + 1) => exact Nat.succ_pos k

/-- **No key seals more than `rekeyEveryMsgs` DATA frames** in a run of an initiator whose steps are
all paced. -/
theorem used_le_of_paced {N : Sodium} (hN : N.Lawful) (hs : Handshake (octets N))
    (hinitiator : hs.isInitiator = true) (options : SessionOptions) (now : ℕ)
    (es : List (SessionEvent (octets N)))
    (hpaced : ∀ p ∈ (SessionState.start hs options now).runSteps es, p.1.Paced p.2) (gen : ℕ) :
    ((SessionState.start hs options now).runSteps es).used gen ≤
      (SessionState.start hs options now).conn.rekeyEveryMsgs := by
  have hstart : (SessionState.start hs options now).conn.meter.Within fun _ ↦ 0 :=
    .zero (orDefault_pos (by decide)) rfl
  obtain ⟨hlimit, hend⟩ := (Leads.run (SessionState.start hs options now) es).within
    (octets_lawful hN) hinitiator hstart hpaced
  have hle := hend.le gen
  rw [hlimit, Nat.zero_add] at hle
  exact hle

/-! ### Messages during a rekey -/

namespace SampleUsage

open SampleLink (sodium nonce ePubR idR sig2)

/-- An initiator that rekeys after three messages, and has received nothing. -/
def initiator : SessionState (octets sodium) :=
  .start (.new (octets sodium) true true true) { everyMsgs := some 3 } 0

/-- MSG2 arrives, which completes the handshake of the initiator. -/
def handshake : SessionEvent (octets sodium) :=
  .data (frameBytes (ePubR ++ idR ++ sig2)) fun _ ↦
    { allowFrame := true, nonce := nonce 0, now := 1, calls := [] }

def send : SessionEvent (octets sodium) := .call (.send [104, 105] (nonce 1) (nonce 2) 2)

/-- Three messages, and no more, which is as many as one key may seal. -/
def three : List (SessionEvent (octets sodium)) := [handshake, send, send, send]

/-- Four more while REKEY is on its way. -/
def seven : List (SessionEvent (octets sodium)) := three ++ [send, send, send, send]

/-- A check for steps that are paced, which can be evaluated. -/
def calm (p : SecureConnection (octets sodium) × SessionStep (octets sodium)) : Bool :=
  match p.2 with
  | .frame _ _ _ _ => p.1.rkMsgs = 0
  | .call (.send body _ _ _) => !p.1.rekeying && body.length + 49 < 2 ^ 32
  | _ => true

theorem paced_of_calm {p : SecureConnection (octets sodium) × SessionStep (octets sodium)}
    (h : calm p = true) : p.1.Paced p.2 := by
  obtain ⟨c, m⟩ := p
  match m with
  | .frame frame allowFrame nonce now => exact fun _ ↦ .inr (of_decide_eq_true h)
  | .call (.send body nonce nonce' now) =>
    rw [calm, Bool.and_eq_true, Bool.not_eq_true'] at h
    exact fun _ _ ↦ ⟨h.1, .inr (of_decide_eq_true h.2)⟩
  | .call (.rekey nonce) => exact trivial
  | .call (.close nonce) => exact trivial
  | .tick nonce now => exact trivial

theorem paced_three : ∀ p ∈ initiator.runSteps three, p.1.Paced p.2 := by
  have hcalm : (initiator.runSteps three).all calm = true := by decide +kernel
  exact fun p hp ↦ paced_of_calm (List.all_eq_true.mp hcalm p hp)

end SampleUsage

open SampleUsage in
theorem used_le_sample : (initiator.runSteps three).used 0 ≤ 3 :=
  used_le_of_paced SampleLink.sodium_lawful _ rfl _ _ three paced_three 0

open SampleUsage in
/-- The second key seals four messages, of an initiator that was to renew it after three. -/
theorem not_used_le : Machine.Feasible SessionState.enabled SessionState.next initiator seven ∧
    initiator.conn.rekeyEveryMsgs = 3 ∧ (initiator.runSteps seven).used 1 = 4 ∧
      ¬∀ gen, (initiator.runSteps seven).used gen ≤ initiator.conn.rekeyEveryMsgs := by
  have hused : (initiator.runSteps seven).used 1 = 4 := by decide +kernel
  refine ⟨?_, rfl, hused, fun h ↦ ?_⟩
  · refine ⟨⟨?_, ?_⟩, trivial, trivial, trivial, trivial, trivial, trivial, trivial, trivial⟩
    all_goals decide +kernel
  · have hle := h 1
    rw [hused] at hle
    exact absurd hle (by decide)

end AttestP2P
