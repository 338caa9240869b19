import Mathlib.Algebra.Ring.Nat
import Mathlib.Data.List.Induction
import Mathlib.Tactic.Ring

/-!
# Big-endian integers

Fixed-width unsigned integers as byte strings, most significant byte first.

* `toBE w n` is the last `w` base-256 digits of `n`, and `ofBE` reads them back: `ofBE_toBE` below
  `256 ^ w`.
* Every string of `w` bytes is such an encoding: `toBE_ofBE`, and its value is below `256 ^ w`:
  `ofBE_lt`.

Both directions are needed, the first by who writes an integer and wants it read, the second by who
reads one and wants to know that it could have been written.  A number that does not fit loses its
leading digits here; programs that throw instead do so before they come to the digits.
-/

set_option autoImplicit false

namespace BigEndian

/-- The `w` low base-256 digits of `n`, most significant first. -/
def toBE : ℕ → ℕ → List UInt8
  | 0, _ => []
  | w + 1, n => toBE w (n / 256) ++ [UInt8.ofNat n]

/-- The integer with the given digits in base 256, the first of which counts most. -/
def ofBE (l : List UInt8) : ℕ := l.foldl (fun acc b ↦ 256 * acc + b.toNat) 0

@[simp] theorem length_toBE (w n : ℕ) : (toBE w n).length = w := by
  induction w generalizing n with
  | zero => rfl
  | succ w ih => rw [toBE, List.length_append, ih, List.length_singleton]

@[simp] theorem ofBE_nil : ofBE [] = 0 := rfl

theorem ofBE_concat (l : List UInt8) (b : UInt8) : ofBE (l ++ [b]) = 256 * ofBE l + b.toNat := by
  rw [ofBE, ofBE, List.foldl_append, List.foldl_cons, List.foldl_nil]

theorem ofBE_toBE {w n : ℕ} (h : n < 256 ^ w) : ofBE (toBE w n) = n := by
  induction w generalizing n with
  | zero =>
    have hn : n = 0 := by simpa using h
    rw [hn, toBE, ofBE_nil]
  | succ w ih =>
    have hdiv : n / 256 < 256 ^ w := by
      rw [pow_succ'] at h
      exact Nat.div_lt_of_lt_mul h
    rw [toBE, ofBE_concat, ih hdiv, UInt8.toNat_ofNat']
    omega

theorem ofBE_lt (l : List UInt8) : ofBE l < 256 ^ l.length := by
  induction l using List.reverseRecOn with
  | nil => simp
  | append_singleton l b ih =>
    have hb : b.toNat < 256 := b.toNat_lt
    rw [ofBE_concat, List.length_append, List.length_singleton, pow_succ']
    omega

theorem toBE_ofBE (l : List UInt8) : toBE l.length (ofBE l) = l := by
  induction l using List.reverseRecOn with
  | nil => rfl
  | append_singleton l b ih =>
    have hb : b.toNat < 256 := b.toNat_lt
    have hdiv : (256 * ofBE l + b.toNat) / 256 = ofBE l := by omega
    have hlast : UInt8.ofNat (256 * ofBE l + b.toNat) = b := by
      rw [← UInt8.toNat_inj, UInt8.toNat_ofNat']
      omega
    rw [ofBE_concat, List.length_append, List.length_singleton, toBE, hdiv, hlast, ih]

end BigEndian
