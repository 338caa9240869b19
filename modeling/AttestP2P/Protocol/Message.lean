import AttestP2P.Config

/-!
# The anti-replay envelope

`src/protocol/message.js`: a payload starts with the time it was made, in milliseconds, and a random
nonce.

    timestamp(8) | nonce(16) | data

`wrapPayload` reads the clock and draws the nonce, so both are arguments here.  `unwrapPayload`
throws if there are not enough bytes for the envelope.  It turns the 64-bit timestamp into a double
(`numberOfBigInt`), which rounds from 2⁵³ on; a time that a clock can show is far below
(`maxTime` is the largest one of a `Date`), and for those nothing is lost
(`unwrapPayload_wrapPayload`).

The envelope is signed and authenticated with the packet that it is in.  What the receiver makes of
the timestamp and of the nonce is in `Protocol.Replay`.
-/

set_option autoImplicit false

namespace AttestP2P

open Buffer

def nonceLen : ℕ := 16
def timestampLen : ℕ := 8

/-- `wrapPayload`, with the time and the nonce it draws. -/
def wrapPayload (now : ℕ) (nonce data : Buffer) : Buffer := bigUInt64BE now ++ nonce ++ data

/-- `Number(n)` of a `BigInt` below `2 ^ 64`: rounded to 53 significant bits, ties to even. -/
def numberOfBigInt (n : ℕ) : ℕ :=
  if n ≤ 2 ^ 53 then n
  else
    let unit := 2 ^ (Nat.log2 n - 52)
    let q := n / unit
    let r := n % unit
    if 2 * r < unit ∨ 2 * r = unit ∧ q % 2 = 0 then q * unit else (q + 1) * unit

/-- What `unwrapPayload` returns: the timestamp, the nonce and the data of the application. -/
structure Envelope where
  timestamp : ℕ
  nonce : Buffer
  data : Buffer

def unwrapPayload (payload : Buffer) : Except String Envelope :=
  if payload.length < replayEnvelopeLen then
    .error "unwrapPayload : payload trop court pour l'enveloppe anti-replay"
  else
    .ok {
      timestamp := numberOfBigInt (payload.readBigUInt64BE 0)
      nonce := payload.subarray timestampLen replayEnvelopeLen
      data := payload.drop replayEnvelopeLen }

/-- The largest value of `Date.now()`: ECMAScript time values end there. -/
def maxTime : ℕ := 8640000000000000

theorem length_wrapPayload {now : ℕ} {nonce data : Buffer} (hnonce : nonce.length = nonceLen) :
    (wrapPayload now nonce data).length = replayEnvelopeLen + data.length := by
  simp only [wrapPayload, List.length_append, length_bigUInt64BE, hnonce, nonceLen,
    replayEnvelopeLen]

/-- Unwrapping undoes wrapping, for every time a clock can show. -/
theorem unwrapPayload_wrapPayload {now : ℕ} {nonce data : Buffer} (hnow : now ≤ maxTime)
    (hnonce : nonce.length = nonceLen) :
    unwrapPayload (wrapPayload now nonce data) = .ok ⟨now, nonce, data⟩ := by
  have hlen : (wrapPayload now nonce data).length = replayEnvelopeLen + data.length :=
    length_wrapPayload hnonce
  have htime : (wrapPayload now nonce data).readBigUInt64BE 0 = now := by
    rw [wrapPayload, List.append_assoc]
    exact readBigUInt64BE_append (a := []) rfl (by simp only [maxTime] at hnow; omega)
  have hexact : numberOfBigInt now = now := by
    rw [numberOfBigInt, if_pos (by simp only [maxTime] at hnow; omega)]
  have hsub : (wrapPayload now nonce data).subarray timestampLen replayEnvelopeLen = nonce := by
    rw [wrapPayload, List.append_assoc]
    exact subarray_append (length_bigUInt64BE now) (by rw [hnonce]; rfl)
  have hdrop : (wrapPayload now nonce data).drop replayEnvelopeLen = data :=
    List.drop_left' (by simp [hnonce, nonceLen, replayEnvelopeLen])
  rw [unwrapPayload, if_neg (by omega), htime, hexact, hsub, hdrop]

end AttestP2P
