import AttestP2P.Js.Number
import Mathlib.Tactic.GCongr
import Mathlib.Tactic.Linarith
import Mathlib.Tactic.NormNum
import Mathlib.Tactic.Ring

/-!
# Numbers are read back from their text

`Number::toString` writes as many digits as it takes for the number to be the double closest to what
is written.  So the text of a double, read as a decimal and rounded, is that double again, and two
doubles with one text are equal.

* `round_eq`: one formula for `round`, the small integers included.
* `round_of_near`: what is closer to a double than `2 ^ -54` of its size is rounded to it, so that
  17 digits are always enough (`shortest_spec`).
* `ofDecimal_positiveToString`: the text has the value of the digits, in each of its forms.  There
  is a lemma for each form: an integer with zeros at its end, a point between the digits, zeros in
  front of them, and an exponent.
* `toString_inj`: numbers with one text are one number.

The last section is about the characters of such a text, which tell whoever reads on where it ends.
-/

set_option autoImplicit false

namespace AttestP2P

namespace Number

/-! ## Rounding -/

theorem roundHalfEven_of_near {x : ℚ} {m : ℤ} (h : |x - m| < 1 / 2) : roundHalfEven x = m := by
  obtain ⟨hlower, hupper⟩ := abs_lt.mp h
  rw [roundHalfEven]
  rcases le_or_gt (m : ℚ) x with hle | hlt
  · have hfloor : ⌊x⌋ = m := Int.floor_eq_iff.mpr ⟨hle, by linarith⟩
    simp only [hfloor]
    exact if_pos (.inl (by linarith))
  · have hfloor : ⌊x⌋ = m - 1 := by
      refine Int.floor_eq_iff.mpr ⟨?_, ?_⟩ <;> push_cast <;> linarith
    simp only [hfloor]
    rw [if_neg, sub_add_cancel]
    push_cast
    rintro (hr | ⟨hr, -⟩) <;> linarith

@[simp] theorem roundHalfEven_intCast (m : ℤ) : roundHalfEven m = m :=
  roundHalfEven_of_near (by simp)

theorem roundHalfEven_le (x : ℚ) : roundHalfEven x ≤ ⌊x⌋ + 1 := by
  rw [roundHalfEven]
  split <;> omega

/-- The exponent of the last bit of the double closest to `q`. -/
def lastPlace (q : ℚ) : ℤ := max (Int.log 2 |q|) (-1022) - 52

/-- Small integers need no rounding: they are multiples of their last place. -/
theorem roundHalfEven_of_small {q : ℚ} (hq : q.den = 1 ∧ q.num.natAbs ≤ 2 ^ 53) :
    roundHalfEven (q / 2 ^ lastPlace q) * (2 : ℚ) ^ lastPlace q = q := by
  obtain ⟨hden, hnum⟩ := hq
  obtain ⟨m, rfl⟩ : ∃ m : ℤ, q = m := ⟨q.num, (Rat.coe_int_num_of_den_eq_one hden).symm⟩
  rw [Rat.num_intCast] at hnum
  -- the quotient is an integer
  suffices h : ∃ n : ℤ, (m : ℚ) = n * 2 ^ lastPlace m by
    obtain ⟨n, hn⟩ := h
    have hpos : (0 : ℚ) < 2 ^ lastPlace m := zpow_pos two_pos _
    rw [div_eq_iff hpos.ne' |>.mpr hn, roundHalfEven_intCast, ← hn]
  by_cases hzero : m = 0
  · exact ⟨0, by simp [hzero]⟩
  have hcast : |(m : ℚ)| = (m.natAbs : ℚ) := by
    rw [← Int.cast_abs, Nat.cast_natAbs]
  have hlog : lastPlace m = (Nat.log 2 m.natAbs : ℤ) - 52 := by
    rw [lastPlace, hcast, Int.log_natCast, max_eq_left (by omega)]
  rw [hlog]
  rcases Nat.lt_or_ge m.natAbs (2 ^ 53) with hlt | hge
  · have hle : Nat.log 2 m.natAbs ≤ 52 := by
      have h := Nat.log_lt_of_lt_pow (by omega) hlt
      omega
    refine ⟨m * 2 ^ (52 - Nat.log 2 m.natAbs), ?_⟩
    push_cast
    rw [mul_assoc, ← zpow_natCast (2 : ℚ), ← zpow_add₀ two_ne_zero,
      show ((52 - Nat.log 2 m.natAbs : ℕ) : ℤ) + ((Nat.log 2 m.natAbs : ℤ) - 52) = 0 by omega,
      zpow_zero, mul_one]
  · have heq : m.natAbs = 2 ^ 53 := by omega
    have hcases : m = 2 ^ 52 * 2 ∨ m = -2 ^ 52 * 2 := by omega
    have hone : (2 : ℚ) ^ (((53 : ℕ) : ℤ) - 52) = 2 := by norm_num
    rw [heq, Nat.log_pow (by decide), hone]
    rcases hcases with h | h
    · exact ⟨2 ^ 52, by rw [h]; push_cast; ring⟩
    · exact ⟨-2 ^ 52, by rw [h]; push_cast; ring⟩

/-- Rounding, small integers included, is one formula. -/
theorem round_eq (q : ℚ) :
    round q =
      let r : ℚ := roundHalfEven (q / 2 ^ lastPlace q) * 2 ^ lastPlace q
      if |r| ≥ 2 ^ 1024 then .infinity (decide (q < 0)) else .finite r := by
  rw [round]
  split
  · next hq =>
    have hlt : |q| < 2 ^ 1024 := by
      obtain ⟨hden, hnum⟩ := hq
      rw [← Rat.coe_int_num_of_den_eq_one hden, ← Int.cast_abs, ← Nat.cast_natAbs]
      calc (q.num.natAbs : ℚ) ≤ (2 ^ 53 : ℕ) := by exact_mod_cast hnum
        _ < 2 ^ 1024 := by
          rw [Nat.cast_pow]
          exact pow_lt_pow_right₀ one_lt_two (by decide)
    simp only
    rw [roundHalfEven_of_small hq, if_neg (not_le.mpr hlt)]
  · rfl

/-- A rational number that is a double: a mantissa of 53 bits, times a power of two that is not too
small. -/
def IsDouble (r : ℚ) : Prop :=
  ∃ m u : ℤ, r = m * (2 : ℚ) ^ u ∧ |m| ≤ 2 ^ 53 ∧ -1074 ≤ u ∧ |r| < 2 ^ 1024

theorem isDouble_of_round {q r : ℚ} (h : round q = .finite r) : IsDouble r := by
  rw [round_eq] at h
  simp only at h
  split at h
  · exact nomatch h
  · next hlt =>
    obtain rfl := (finite.inj h).symm
    refine ⟨_, lastPlace q, rfl, ?_, by rw [lastPlace]; omega, not_le.mp hlt⟩
    have hpos : (0 : ℚ) < 2 ^ lastPlace q := zpow_pos two_pos _
    have hbound : |q| < 2 ^ 53 * 2 ^ lastPlace q := by
      have hlog : |q| < 2 ^ (Int.log 2 |q| + 1) := Int.lt_zpow_succ_log_self (by decide) |q|
      have hle : (2 : ℚ) ^ (Int.log 2 |q| + 1) ≤ 2 ^ ((53 : ℕ) + lastPlace q : ℤ) :=
        zpow_le_zpow_right₀ one_le_two (by rw [lastPlace]; omega)
      rw [zpow_add₀ two_ne_zero (53 : ℕ), zpow_natCast] at hle
      exact hlog.trans_le hle
    have hx : |q / 2 ^ lastPlace q| < 2 ^ 53 := by
      rwa [abs_div, abs_of_pos hpos, div_lt_iff₀ hpos]
    obtain ⟨hlower, hupper⟩ := abs_lt.mp hx
    have hfloor : ⌊q / 2 ^ lastPlace q⌋ < 2 ^ 53 := Int.floor_lt.mpr (by exact_mod_cast hupper)
    have hfloor' : -2 ^ 53 ≤ ⌊q / 2 ^ lastPlace q⌋ :=
      Int.le_floor.mpr (by push_cast; exact hlower.le)
    have hle := roundHalfEven_le (q / 2 ^ lastPlace q)
    have hge := floor_le_roundHalfEven (q / 2 ^ lastPlace q)
    exact abs_le.mpr ⟨by omega, by omega⟩

/-- A double is a multiple of the last bit of what is close to it. -/
theorem IsDouble.exists_eq_mul {d r : ℚ} (hr : IsDouble r) (hd : 0 < d)
    (hnear : |d - r| < d * 2 ^ (-54 : ℤ)) : ∃ n : ℤ, r = n * (2 : ℚ) ^ lastPlace d := by
  obtain ⟨m, u, hmu, hm, hu, -⟩ := hr
  rcases le_or_gt (lastPlace d) u with hle | hlt
  · refine ⟨m * 2 ^ (u - lastPlace d).toNat, ?_⟩
    push_cast
    rw [hmu, mul_assoc, ← zpow_natCast (2 : ℚ), ← zpow_add₀ two_ne_zero,
      show ((u - lastPlace d).toNat : ℤ) + lastPlace d = u by omega]
  · -- the double is the power of two that `d` starts from
    have hplace : lastPlace d = Int.log 2 d - 52 := by
      rw [lastPlace, abs_of_pos hd] at hlt ⊢
      omega
    have hpow : (2 : ℚ) ^ Int.log 2 d ≤ d := Int.zpow_log_le_self (by decide) hd
    have hpos : (0 : ℚ) < 2 ^ u := zpow_pos two_pos _
    have hlower : (2 : ℚ) ^ Int.log 2 d * (1 - 2 ^ (-54 : ℤ)) < r := by
      have hmul : (2 : ℚ) ^ Int.log 2 d * (1 - 2 ^ (-54 : ℤ)) ≤ d * (1 - 2 ^ (-54 : ℤ)) :=
        mul_le_mul_of_nonneg_right hpow (by norm_num)
      linarith [(abs_lt.mp hnear).2]
    have hsplit : (2 : ℚ) ^ Int.log 2 d = 2 ^ (Int.log 2 d - u) * 2 ^ u := by
      rw [← zpow_add₀ two_ne_zero, sub_add_cancel]
    have hm' : (2 : ℚ) ^ (Int.log 2 d - u) * (1 - 2 ^ (-54 : ℤ)) < m := by
      rw [hsplit, mul_right_comm, hmu] at hlower
      exact lt_of_mul_lt_mul_right hlower hpos.le
    have hm2 : (m : ℚ) ≤ 2 ^ 53 := by exact_mod_cast (le_abs_self m).trans hm
    have hexp : Int.log 2 d - u = (53 : ℕ) := by
      by_contra hne
      have hbig : (2 : ℚ) ^ ((54 : ℕ) : ℤ) ≤ 2 ^ (Int.log 2 d - u) :=
        zpow_le_zpow_right₀ one_le_two (by omega)
      have hmul := mul_le_mul_of_nonneg_right hbig (by norm_num : (0 : ℚ) ≤ 1 - 2 ^ (-54 : ℤ))
      norm_num at hmul hm' hm2
      linarith
    have hm3 : m = 2 ^ 53 := by
      rw [hexp] at hm'
      have hlt : ((2 ^ 53 - 1 : ℤ) : ℚ) < m := by
        norm_num at hm' ⊢
        linarith
      have hlt' := Int.cast_lt.mp hlt
      have hle' : m ≤ 2 ^ 53 := by exact_mod_cast hm2
      omega
    refine ⟨2 ^ 52, ?_⟩
    rw [hmu, hm3, show u = lastPlace d - 1 by omega, zpow_sub_one₀ two_ne_zero]
    push_cast
    ring

/-- **What is close to a double is rounded to it.** -/
theorem round_of_near {d r : ℚ} (hr : IsDouble r) (hd : 0 < d)
    (hnear : |d - r| < d * 2 ^ (-54 : ℤ)) : round d = .finite r := by
  obtain ⟨n, hn⟩ := hr.exists_eq_mul hd hnear
  have hpos : (0 : ℚ) < 2 ^ lastPlace d := zpow_pos two_pos _
  have hhalf : d * 2 ^ (-54 : ℤ) < 2 ^ lastPlace d / 2 := by
    have hlog : d < 2 ^ (Int.log 2 d + 1) := Int.lt_zpow_succ_log_self (by decide) d
    have hle : (2 : ℚ) ^ (Int.log 2 d + 1) ≤ 2 ^ (lastPlace d + 53) :=
      zpow_le_zpow_right₀ one_le_two (by rw [lastPlace, abs_of_pos hd]; omega)
    calc d * 2 ^ (-54 : ℤ) < 2 ^ (lastPlace d + 53) * 2 ^ (-54 : ℤ) :=
          mul_lt_mul_of_pos_right (hlog.trans_le hle) (zpow_pos two_pos _)
      _ = 2 ^ lastPlace d / 2 := by
        rw [← zpow_add₀ two_ne_zero, show lastPlace d + 53 + -54 = lastPlace d - 1 by omega,
          zpow_sub_one₀ two_ne_zero, div_eq_mul_inv]
  have hround : roundHalfEven (d / 2 ^ lastPlace d) = n := by
    refine roundHalfEven_of_near ?_
    rw [hn] at hnear
    rw [div_sub' hpos.ne', abs_div, abs_of_pos hpos, div_lt_iff₀ hpos, mul_comm _ (n : ℚ)]
    exact (hnear.trans hhalf).trans_eq (by ring)
  obtain ⟨-, -, -, -, -, hfinite⟩ := hr
  rw [round_eq]
  simp only
  rw [hround, ← hn, if_neg (not_le.mpr hfinite)]

/-! ## The shortest digits

The two integers next to a number that has been scaled to `k` digits are tried, for `k` from one on.
Seventeen digits always contain the number, so that the search ends. -/

theorem mem_neighbours {x : ℚ} {s : ℕ} (h : s ∈ neighbours x) : s = ⌊x⌋₊ ∨ s = ⌊x⌋₊ + 1 := by
  rw [neighbours] at h
  split at h
  · simpa using h
  · simpa [or_comm] using h

/-- One of the neighbours is no further away than one half. -/
theorem exists_neighbour {x : ℚ} (hx : 0 ≤ x) : ∃ s ∈ neighbours x, |(s : ℚ) - x| ≤ 1 / 2 := by
  have hle := Nat.floor_le hx
  have hlt := Nat.lt_floor_add_one x
  have hfloor : ((⌊x⌋₊ : ℤ)) = ⌊x⌋ := Int.natCast_floor_eq_floor hx
  by_cases hhalf : x - ⌊x⌋₊ ≤ 1 / 2
  · refine ⟨⌊x⌋₊, ?_, abs_le.mpr ⟨by linarith, by linarith⟩⟩
    rw [neighbours]
    split <;> simp
  · refine ⟨⌊x⌋₊ + 1, ?_, ?_⟩
    · rw [neighbours]
      split <;> simp
    · push_cast
      exact abs_le.mpr ⟨by linarith, by linarith⟩

section
variable {q : ℚ} (hpos : 0 < q)

/-- So many digits of a number, as an integer. -/
def scaled (q : ℚ) (k : ℕ) : ℚ := q * 10 ^ ((k : ℤ) - (Int.log 10 q + 1))

include hpos

theorem scaled_bounds {k : ℕ} (hk : 0 < k) : (10 ^ (k - 1) : ℕ) ≤ scaled q k ∧
    scaled q k < (10 ^ k : ℕ) := by
  have hlow : (10 : ℚ) ^ Int.log 10 q ≤ q := Int.zpow_log_le_self (by decide) hpos
  have hhigh : q < (10 : ℚ) ^ (Int.log 10 q + 1) := Int.lt_zpow_succ_log_self (by decide) q
  have hten : (0 : ℚ) < 10 ^ ((k : ℤ) - (Int.log 10 q + 1)) := zpow_pos (by norm_num) _
  constructor
  · calc ((10 ^ (k - 1) : ℕ) : ℚ)
        = 10 ^ Int.log 10 q * 10 ^ ((k : ℤ) - (Int.log 10 q + 1)) := by
          rw [← zpow_add₀ (by norm_num), Nat.cast_pow, Nat.cast_ofNat, ← zpow_natCast]
          congr 1
          omega
      _ ≤ scaled q k := mul_le_mul_of_nonneg_right hlow hten.le
  · calc scaled q k < 10 ^ (Int.log 10 q + 1) * 10 ^ ((k : ℤ) - (Int.log 10 q + 1)) :=
          mul_lt_mul_of_pos_right hhigh hten
      _ = ((10 ^ k : ℕ) : ℚ) := by
          rw [← zpow_add₀ (by norm_num), Nat.cast_pow, Nat.cast_ofNat, ← zpow_natCast]
          congr 1
          omega

/-- The digits are as many as was asked for, unless the number is rounded up to a power of ten. -/
theorem neighbours_bounds {k s : ℕ} (hk : 0 < k) (hs : s ∈ neighbours (scaled q k)) :
    10 ^ (k - 1) ≤ s ∧ s ≤ 10 ^ k := by
  obtain ⟨hlow, hhigh⟩ := scaled_bounds hpos hk
  have hfloor : 10 ^ (k - 1) ≤ ⌊scaled q k⌋₊ := Nat.le_floor hlow
  have hfloor' : ⌊scaled q k⌋₊ < 10 ^ k :=
    (Nat.floor_lt ((Nat.cast_nonneg _).trans hlow)).mpr hhigh
  rcases mem_neighbours hs with rfl | rfl <;> omega

/-- **17 digits are enough**: among the decimals of this length that are next to a double, one
rounds to it. -/
theorem exists_seventeen (hq : IsDouble q) : ∃ s ∈ neighbours (scaled q 17),
    round (s * 10 ^ (Int.log 10 q + 1 - 17)) = .finite q := by
  obtain ⟨hlow, -⟩ := scaled_bounds hpos (k := 17) (by decide)
  obtain ⟨s, hs, hnear⟩ := exists_neighbour ((Nat.cast_nonneg _).trans hlow)
  have hlarge : (10 : ℚ) ^ 16 ≤ s := by
    exact_mod_cast (neighbours_bounds hpos (by decide) hs).1
  have hten : (0 : ℚ) < 10 ^ (Int.log 10 q + 1 - 17) := zpow_pos (by norm_num) _
  have hback : q = scaled q 17 * 10 ^ (Int.log 10 q + 1 - 17) := by
    rw [scaled, mul_assoc, ← zpow_add₀ (by norm_num), Nat.cast_ofNat,
      show (17 : ℤ) - (Int.log 10 q + 1) + (Int.log 10 q + 1 - 17) = 0 by omega, zpow_zero, mul_one]
  refine ⟨s, hs, round_of_near hq (mul_pos (by linarith) hten) ?_⟩
  have hdiff : (s : ℚ) * 10 ^ (Int.log 10 q + 1 - 17) - q =
      (s - scaled q 17) * 10 ^ (Int.log 10 q + 1 - 17) := by
    rw [sub_mul, ← hback]
  rw [hdiff, abs_mul, abs_of_pos hten, mul_right_comm]
  refine mul_lt_mul_of_pos_right (hnear.trans_lt ?_) hten
  calc (1 : ℚ) / 2 < 10 ^ 16 * 2 ^ (-54 : ℤ) := by norm_num
    _ ≤ s * 2 ^ (-54 : ℤ) := mul_le_mul_of_nonneg_right hlarge (by norm_num)

/-- The digits found are those of a number that is rounded to the given one. -/
theorem shortest_spec (hq : IsDouble q) :
    ∃ k : ℕ, 0 < k ∧ 10 ^ (k - 1) ≤ (shortest q).1 ∧ (shortest q).1 < 10 ^ k ∧
      round ((shortest q).1 * (10 : ℚ) ^ ((shortest q).2 - k)) = .finite q := by
  rw [shortest]
  simp only
  split
  · next k s hfound =>
    obtain ⟨k', hk', hmap⟩ := List.exists_of_findSome?_eq_some hfound
    obtain ⟨s', hfind, heq⟩ := Option.map_eq_some_iff.mp hmap
    obtain ⟨rfl, rfl⟩ := Prod.mk.inj heq
    have hfits := List.find?_some hfind
    rw [decide_eq_true_eq] at hfits
    have hk : 0 < k' := (List.mem_range'_1.mp hk').1
    obtain ⟨hlow, hhigh⟩ := neighbours_bounds hpos hk (List.mem_of_find?_eq_some hfind)
    by_cases hpower : s' = 10 ^ k'
    · -- rounded up to a power of ten, which has one digit
      have hvalue : ((1 : ℕ) : ℚ) * 10 ^ (Int.log 10 q + 1 + 1 - (1 : ℕ)) =
          (s' : ℚ) * 10 ^ (Int.log 10 q + 1 - k') := by
        have hten : ((10 : ℕ) : ℚ) = 10 := Nat.cast_ofNat
        rw [Nat.cast_one, one_mul, hpower, Nat.cast_pow, hten, ← zpow_natCast,
          ← zpow_add₀ (by norm_num)]
        congr 1
        omega
      rw [if_pos hpower]
      exact ⟨1, Nat.one_pos, le_rfl, Nat.lt_pow_self (by decide), hvalue ▸ hfits⟩
    · rw [if_neg hpower]
      exact ⟨k', hk, hlow, by omega, hfits⟩
  · next hnone =>
    obtain ⟨s, hs, hround⟩ := exists_seventeen hpos hq
    have h17 := List.findSome?_eq_none_iff.mp hnone 17 (by decide)
    rw [Option.map_eq_none_iff, List.find?_eq_none] at h17
    exact absurd (decide_eq_true hround) (h17 s hs)

end

/-! ## Reading the text -/

theorem digitsValue_of_isDigit {cs : List Char} (h : ∀ c ∈ cs, c.isDigit = true) :
    digitsValue 10 cs = some (Nat.ofDigitChars 10 cs 0) := by
  suffices hfold : ∀ n, cs.foldlM (fun n c ↦
      let d := if c.isDigit then c.toNat - 48 else c.toLower.toNat - 87
      if c.isAlphanum ∧ d < 10 then some (10 * n + d) else none) n =
      some (Nat.ofDigitChars 10 cs n) from hfold 0
  induction cs with
  | nil => exact fun _ ↦ rfl
  | cons c cs ih =>
    intro n
    obtain ⟨hc, hcs⟩ := List.forall_mem_cons.mp h
    have hle : c.toNat ≤ 57 := (Char.isDigit_iff_toNat.mp hc).2
    have hlt : c.toNat - 48 < 10 := by omega
    rw [List.foldlM_cons]
    simp only [hc, Char.isAlphanum, Bool.or_true, if_true, hlt, and_self, Option.bind_eq_bind,
      Option.bind_some, Nat.ofDigitChars_cons]
    exact ih hcs _

/-- The exponent at the end of a number in decimal: nothing, or the letter `e`, a sign and digits.
JavaScript writes a small number without an exponent, and a large or tiny one with it. -/
def IsExponent (tail : List Char) (e : ℤ) : Prop :=
  tail = [] ∧ e = 0 ∨ ∃ a : ℕ, tail = 'e' :: '+' :: Nat.toDigits 10 a ∧ e = a ∨
    tail = 'e' :: '-' :: Nat.toDigits 10 a ∧ e = -a

theorem isExponent_nil : IsExponent [] 0 := .inl ⟨rfl, rfl⟩

/-- The exponent that JavaScript writes carries its sign in front, the plus included. -/
theorem isExponent_natAbs (n : ℤ) :
    IsExponent ('e' :: (if 0 < n then '+' else '-') :: Nat.toDigits 10 (n - 1).natAbs)
      (n - 1) := by
  refine .inr ⟨(n - 1).natAbs, ?_⟩
  by_cases h : 0 < n
  · exact .inl ⟨by rw [if_pos h], by omega⟩
  · exact .inr ⟨by rw [if_neg h], by omega⟩

/-- A number in decimal: digits, a point with more digits, an exponent. -/
theorem ofDecimal_append (whole point fraction tail : List Char) (e : ℤ)
    (hwhole : ∀ c ∈ whole, c.isDigit = true) (hfraction : ∀ c ∈ fraction, c.isDigit = true)
    (hne : whole ≠ []) (hpoint : point = [] ∧ fraction = [] ∨ point = '.' :: fraction)
    (htail : IsExponent tail e) :
    ofDecimal (whole ++ point ++ tail) =
      some (Nat.ofDigitChars 10 (whole ++ fraction) 0 * (10 : ℚ) ^ (e - fraction.length)) := by
  have hdigit : ∀ c : Char, c.isDigit = true → c ≠ 'e' ∧ c ≠ 'E' ∧ c ≠ '.' := by
    intro c hc
    refine ⟨?_, ?_, ?_⟩ <;> rintro rfl <;> exact absurd hc (by decide)
  have hmantissa : (whole ++ point ++ tail).takeWhile (fun c ↦ c ≠ 'e' ∧ c ≠ 'E') =
      whole ++ point := by
    have hall : ∀ c ∈ whole ++ point, decide (c ≠ 'e' ∧ c ≠ 'E') = true := by
      have hfractionE : ∀ c ∈ fraction, decide (c ≠ 'e' ∧ c ≠ 'E') = true :=
        fun c hc ↦ decide_eq_true ⟨(hdigit c (hfraction c hc)).1, (hdigit c (hfraction c hc)).2.1⟩
      intro c hc
      rcases List.mem_append.mp hc with hc | hc
      · exact decide_eq_true ⟨(hdigit c (hwhole c hc)).1, (hdigit c (hwhole c hc)).2.1⟩
      · rcases hpoint with ⟨rfl, -⟩ | rfl
        · exact nomatch hc
        · rcases List.mem_cons.mp hc with rfl | hc
          · decide
          · exact hfractionE c hc
    rw [List.takeWhile_append_of_pos hall]
    rcases htail with ⟨rfl, -⟩ | ⟨a, ⟨rfl, -⟩ | ⟨rfl, -⟩⟩
    · rw [List.takeWhile_nil, List.append_nil]
    · rw [List.takeWhile_cons_of_neg (by decide), List.append_nil]
    · rw [List.takeWhile_cons_of_neg (by decide), List.append_nil]
  have hpart : (whole ++ point).takeWhile (· ≠ '.') = whole := by
    rw [List.takeWhile_append_of_pos fun c hc ↦ decide_eq_true (hdigit c (hwhole c hc)).2.2]
    rcases hpoint with ⟨rfl, -⟩ | rfl
    · rw [List.takeWhile_nil, List.append_nil]
    · rw [List.takeWhile_cons_of_neg (by decide), List.append_nil]
  have hdrop : point.drop 1 = fraction := by
    rcases hpoint with ⟨rfl, rfl⟩ | rfl <;> rfl
  have hdigits : digitsValue 10 (whole ++ fraction) =
      some (Nat.ofDigitChars 10 (whole ++ fraction) 0) :=
    digitsValue_of_isDigit fun c hc ↦ (List.mem_append.mp hc).elim (hwhole c) (hfraction c)
  have hexponent : ∀ a : ℕ, digitsValue 10 (Nat.toDigits 10 a) = some a := by
    intro a
    rw [digitsValue_of_isDigit fun c hc ↦ Nat.isDigit_of_mem_toDigits (by decide) le_rfl hc,
      Nat.ofDigitChars_ten_toDigits]
  rw [ofDecimal]
  simp only [hmantissa, hpart, List.drop_left, hdrop, hdigits, hne, false_and, if_false]
  rcases htail with ⟨rfl, rfl⟩ | ⟨a, ⟨rfl, rfl⟩ | ⟨rfl, rfl⟩⟩
  · rfl
  · simp only [hexponent, Nat.toDigits_ne_nil, if_false]
    rfl
  · simp only [hexponent, Nat.toDigits_ne_nil, if_false]
    rfl

/-- As many digits as there are between two powers of ten. -/
theorem length_toDigits {s k : ℕ} (hk : 0 < k) (hlow : 10 ^ (k - 1) ≤ s) (hhigh : s < 10 ^ k) :
    (Nat.toDigits 10 s).length = k := by
  have hle := (Nat.length_toDigits_le_iff (by decide) hk).mpr hhigh
  rcases Nat.lt_or_ge 1 k with hlt | hge
  · have hnot : ¬(Nat.toDigits 10 s).length ≤ k - 1 := fun h ↦
      absurd ((Nat.length_toDigits_le_iff (by decide) (by omega)).mp h) (by omega)
    omega
  · have hpos := Nat.length_toDigits_pos (b := 10) (n := s)
    omega

section Forms

/-! The four ways in which JavaScript writes a positive number with the digits `digits`. What each
one is worth is the number that the digits spell, moved by a power of ten. -/

variable {digits tail : List Char} {e : ℤ} (hdigits : ∀ c ∈ digits, c.isDigit = true)

include hdigits

/-- An integer, with zeros at its end, is read as the digits times a power of ten. -/
theorem ofDecimal_append_zeros (hne : digits ≠ []) (m : ℕ) :
    ofDecimal (digits ++ List.replicate m '0') =
      some (Nat.ofDigitChars 10 digits 0 * (10 : ℚ) ^ (m : ℤ)) := by
  have hwhole : ∀ c ∈ digits ++ List.replicate m '0', c.isDigit = true := by
    intro c hc
    rcases List.mem_append.mp hc with hc | hc
    · exact hdigits c hc
    · rw [List.eq_of_mem_replicate hc]
      rfl
  have heq := ofDecimal_append (digits ++ List.replicate m '0') [] [] [] 0 hwhole (by simp)
    (by simp [hne]) (.inl ⟨rfl, rfl⟩) isExponent_nil
  simp only [List.append_nil, Nat.ofDigitChars_append, Nat.ofDigitChars_replicate_zero,
    List.length_nil, Nat.cast_zero, sub_zero, zpow_zero, mul_one] at heq
  rw [heq, Nat.cast_mul, Nat.cast_pow, Nat.cast_ofNat, mul_comm, ← zpow_natCast]

/-- A point between the digits is read as a power of ten. -/
theorem ofDecimal_point {i : ℕ} (hi : 0 < i) (hle : i ≤ digits.length) (hne : digits ≠ [])
    (htail : IsExponent tail e) :
    ofDecimal (digits.take i ++ '.' :: digits.drop i ++ tail) =
      some (Nat.ofDigitChars 10 digits 0 * (10 : ℚ) ^ (e + i - digits.length)) := by
  have hwhole : ∀ c ∈ digits.take i, c.isDigit = true :=
    fun c hc ↦ hdigits c (List.mem_of_mem_take hc)
  have hfraction : ∀ c ∈ digits.drop i, c.isDigit = true :=
    fun c hc ↦ hdigits c (List.mem_of_mem_drop hc)
  rw [ofDecimal_append _ _ _ _ _ hwhole hfraction (by simp [hne]; omega) (.inr rfl) htail,
    List.take_append_drop, List.length_drop]
  congr 3
  omega

/-- A point and zeros in front of the digits. -/
theorem ofDecimal_zeros_append (m : ℕ) :
    ofDecimal ('0' :: '.' :: (List.replicate m '0' ++ digits)) =
      some (Nat.ofDigitChars 10 digits 0 * (10 : ℚ) ^ (-(m + digits.length : ℤ))) := by
  have hfraction : ∀ c ∈ List.replicate m '0' ++ digits, c.isDigit = true := by
    intro c hc
    rcases List.mem_append.mp hc with hc | hc
    · rw [List.eq_of_mem_replicate hc]
      rfl
    · exact hdigits c hc
  have heq := ofDecimal_append ['0'] ('.' :: (List.replicate m '0' ++ digits))
    (List.replicate m '0' ++ digits) [] 0 (by simp) hfraction (by simp) (.inr rfl) isExponent_nil
  have hzero : Nat.ofDigitChars 10 (['0'] ++ (List.replicate m '0' ++ digits)) 0 =
      Nat.ofDigitChars 10 digits 0 := by
    rw [Nat.ofDigitChars_append, Nat.ofDigitChars_append,
      show Nat.ofDigitChars 10 ['0'] 0 = 0 from rfl, Nat.ofDigitChars_replicate_zero, mul_zero]
  rw [List.append_nil, hzero, List.length_append, List.length_replicate] at heq
  rw [show '0' :: '.' :: (List.replicate m '0' ++ digits) =
    ['0'] ++ '.' :: (List.replicate m '0' ++ digits) from rfl, heq]
  congr 3
  push_cast
  omega

/-- The digits with an exponent are read as those digits times a power of ten. -/
theorem ofDecimal_append_exponent (hne : digits ≠ []) (htail : IsExponent tail e) :
    ofDecimal (digits ++ tail) = some (Nat.ofDigitChars 10 digits 0 * (10 : ℚ) ^ e) := by
  have heq := ofDecimal_append digits [] [] tail e hdigits (by simp) hne (.inl ⟨rfl, rfl⟩) htail
  simpa only [List.append_nil, List.length_nil, Nat.cast_zero, sub_zero] using heq

end Forms

/-- **The text of a number has the value of its digits.** -/
theorem ofDecimal_positiveToString (q : ℚ) {k : ℕ}
    (hk : (Nat.toDigits 10 (shortest q).1).length = k) :
    ofDecimal (positiveToString q).toList =
      some ((shortest q).1 * (10 : ℚ) ^ ((shortest q).2 - k)) := by
  rw [positiveToString]
  generalize shortest q = r at hk ⊢
  obtain ⟨s, n⟩ := r
  simp only [String.toList_ofList]
  simp only at hk
  have hdigits : ∀ c ∈ Nat.toDigits 10 s, c.isDigit = true :=
    fun c hc ↦ Nat.isDigit_of_mem_toDigits (by decide) le_rfl hc
  have hvalue : Nat.ofDigitChars 10 (Nat.toDigits 10 s) 0 = s := Nat.ofDigitChars_ten_toDigits
  have hpos : 0 < k := hk ▸ Nat.length_toDigits_pos
  have hne := Nat.toDigits_ne_nil (n := s) (b := 10)
  have htail := isExponent_natAbs n
  generalize 'e' :: (if 0 < n then '+' else '-') :: Nat.toDigits 10 (n - 1).natAbs = tail at htail ⊢
  generalize Nat.toDigits 10 s = digits at *
  rw [hk]
  split_ifs with h1 h2 h3 h4
  · -- an integer, with zeros at its end
    rw [ofDecimal_append_zeros hdigits hne, hvalue]
    congr 3
    omega
  · -- a point between the digits
    have heq := ofDecimal_point hdigits (i := n.toNat) (by omega) (by omega) hne isExponent_nil
    rw [List.append_nil, hvalue] at heq
    rw [heq]
    congr 3
    omega
  · -- a point and zeros in front of the digits
    rw [ofDecimal_zeros_append hdigits, hvalue]
    congr 3
    omega
  · -- one digit and an exponent
    rw [ofDecimal_append_exponent hdigits hne htail, hvalue]
    congr 3
    omega
  · -- a point behind the first digit, and an exponent
    have heq := ofDecimal_point hdigits (i := 1) (by omega) (by omega) hne htail
    rw [hvalue, List.append_assoc, List.cons_append] at heq
    rw [heq]
    congr 3
    omega

/-- Positive doubles are read back from their text, after rounding. -/
theorem round_ofDecimal_positiveToString {q : ℚ} (hpos : 0 < q) (hq : IsDouble q) :
    (ofDecimal (positiveToString q).toList).map round = some (.finite q) := by
  obtain ⟨k, hk, hlow, hhigh, hround⟩ := shortest_spec hpos hq
  rw [ofDecimal_positiveToString q (length_toDigits hk hlow hhigh), Option.map_some, hround]

/-! ## The characters of the text

Digits, a point, a sign and the letter of the exponent, and a digit or a sign in front.  Other
values do not begin like that, and nothing that follows a value in a JSON text goes on like that. -/

/-- A character of the text of a finite number. -/
def IsNumeral (c : Char) : Prop := c.isDigit = true ∨ c ∈ ['.', 'e', '+', '-']

instance (c : Char) : Decidable (IsNumeral c) :=
  inferInstanceAs (Decidable (c.isDigit = true ∨ c ∈ ['.', 'e', '+', '-']))

theorem isNumeral_of_mem_positiveToString {q : ℚ} :
    ∀ c ∈ (positiveToString q).toList, IsNumeral c := by
  intro c hc
  rw [positiveToString] at hc
  generalize shortest q = r at hc
  obtain ⟨s, n⟩ := r
  simp only [String.toList_ofList] at hc
  have hdigits : ∀ m, ∀ c ∈ Nat.toDigits 10 m, IsNumeral c :=
    fun m c hc ↦ .inl (Nat.isDigit_of_mem_toDigits (by decide) le_rfl hc)
  have hzeros : ∀ m, ∀ c ∈ List.replicate m '0', IsNumeral c := fun m c hc ↦ by
    rw [List.eq_of_mem_replicate hc]
    decide
  have hsign : IsNumeral (if 0 < n then '+' else '-') := by
    split <;> decide
  have htake : ∀ i, ∀ c ∈ (Nat.toDigits 10 s).take i, IsNumeral c :=
    fun i c hc ↦ hdigits s c (List.mem_of_mem_take hc)
  have hdrop : ∀ i, ∀ c ∈ (Nat.toDigits 10 s).drop i, IsNumeral c :=
    fun i c hc ↦ hdigits s c (List.mem_of_mem_drop hc)
  have hexponent : ∀ c ∈ 'e' :: (if 0 < n then '+' else '-') :: Nat.toDigits 10 (n - 1).natAbs,
      IsNumeral c :=
    List.forall_mem_cons.mpr ⟨by decide, List.forall_mem_cons.mpr ⟨hsign, hdigits _⟩⟩
  generalize 'e' :: (if 0 < n then '+' else '-') :: Nat.toDigits 10 (n - 1).natAbs = tail
    at hc hexponent
  split_ifs at hc
  · exact (List.mem_append.mp hc).elim (hdigits s c) (hzeros _ c)
  · exact (List.mem_append.mp hc).elim (htake _ c)
      (List.forall_mem_cons.mpr ⟨by decide, hdrop _⟩ c)
  · refine List.forall_mem_cons.mpr ⟨by decide, List.forall_mem_cons.mpr ⟨by decide, ?_⟩⟩ c hc
    exact fun c hc ↦ (List.mem_append.mp hc).elim (hzeros _ c) (hdigits s c)
  · exact (List.mem_append.mp hc).elim (hdigits s c) (hexponent c)
  · refine (List.mem_append.mp hc).elim (htake _ c) (List.forall_mem_cons.mpr ⟨by decide, ?_⟩ c)
    exact fun c hc ↦ (List.mem_append.mp hc).elim (hdrop _ c) (hexponent c)

theorem head_positiveToString (q : ℚ) :
    ∃ c cs, (positiveToString q).toList = c :: cs ∧ c.isDigit = true := by
  rw [positiveToString]
  generalize shortest q = r
  obtain ⟨s, n⟩ := r
  simp only [String.toList_ofList]
  obtain ⟨c, cs, hcons⟩ := List.exists_cons_of_ne_nil (Nat.toDigits_ne_nil (n := s) (b := 10))
  have hc : c.isDigit = true :=
    Nat.isDigit_of_mem_toDigits (b := 10) (by decide) le_rfl (hcons ▸ List.mem_cons_self)
  rw [hcons]
  split_ifs with h h'
  · exact ⟨c, _, rfl, hc⟩
  · obtain ⟨m, hm⟩ : ∃ m, n.toNat = m + 1 := ⟨n.toNat - 1, by omega⟩
    rw [hm]
    exact ⟨c, _, rfl, hc⟩
  · exact ⟨'0', _, rfl, by decide⟩
  all_goals exact ⟨c, _, rfl, hc⟩

theorem isNumeral_of_mem_toString {q : ℚ} : ∀ c ∈ (toString (.finite q)).toList, IsNumeral c := by
  intro c hc
  rw [toString] at hc
  split_ifs at hc
  · obtain rfl := List.mem_singleton.mp hc
    decide
  · rw [String.toList_append] at hc
    rcases List.mem_append.mp hc with hc | hc
    · obtain rfl := List.mem_singleton.mp hc
      decide
    · exact isNumeral_of_mem_positiveToString c hc
  · exact isNumeral_of_mem_positiveToString c hc

theorem IsDouble.neg {q : ℚ} (h : IsDouble q) : IsDouble (-q) := by
  obtain ⟨m, u, rfl, hm, hu, hlt⟩ := h
  exact ⟨-m, u, by push_cast; ring, by rwa [abs_neg], hu, by rwa [abs_neg]⟩

/-- Positive doubles with one text are one, since each is read back from it. -/
theorem positiveToString_inj {p q : ℚ} (hp : 0 < p) (hp' : IsDouble p) (hq : 0 < q)
    (hq' : IsDouble q) (h : (positiveToString p).toList = (positiveToString q).toList) : p = q := by
  have hread := round_ofDecimal_positiveToString hp hp'
  rw [h, round_ofDecimal_positiveToString hq hq'] at hread
  exact (finite.inj (Option.some_inj.mp hread)).symm

/-- The text of a number starts with a minus or with a digit. -/
theorem toList_toString (q : ℚ) :
    q = 0 ∧ (toString (.finite q)).toList = ['0'] ∨
      0 < q ∧ (toString (.finite q)).toList = (positiveToString q).toList ∨
        q < 0 ∧ (toString (.finite q)).toList = '-' :: (positiveToString (-q)).toList := by
  rw [toString]
  rcases lt_trichotomy q 0 with hq | rfl | hq
  · rw [if_neg hq.ne, if_pos hq, String.toList_append]
    exact .inr (.inr ⟨hq, rfl⟩)
  · exact .inl ⟨rfl, rfl⟩
  · rw [if_neg hq.ne', if_neg (not_lt.mpr hq.le)]
    exact .inr (.inl ⟨hq, rfl⟩)

theorem positiveToString_ne_zero {q : ℚ} (hpos : 0 < q) (hq : IsDouble q) :
    (positiveToString q).toList ≠ ['0'] := by
  intro heq
  have hread := round_ofDecimal_positiveToString hpos hq
  rw [heq, show (ofDecimal ['0']).map round = some (.finite 0) by decide +kernel] at hread
  exact hpos.ne (finite.inj (Option.some_inj.mp hread))

theorem positiveToString_ne_minus (q : ℚ) (cs : List Char) :
    (positiveToString q).toList ≠ '-' :: cs := by
  intro heq
  obtain ⟨c, cs', hcons, hc⟩ := head_positiveToString q
  rw [hcons] at heq
  obtain ⟨rfl, -⟩ := List.cons.inj heq
  exact absurd hc (by decide)

/-- **Finite numbers with one text are one number.** -/
theorem toString_inj {p q : ℚ} (hp : IsDouble p) (hq : IsDouble q)
    (h : (toString (.finite p)).toList = (toString (.finite q)).toList) : p = q := by
  rcases toList_toString p with ⟨hp0, htext⟩ | ⟨hp0, htext⟩ | ⟨hp0, htext⟩ <;>
    rcases toList_toString q with ⟨hq0, htext'⟩ | ⟨hq0, htext'⟩ | ⟨hq0, htext'⟩ <;>
      rw [htext, htext'] at h
  · exact hp0.trans hq0.symm
  · exact absurd h.symm (positiveToString_ne_zero hq0 hq)
  · exact absurd h (by simp)
  · exact absurd h (positiveToString_ne_zero hp0 hp)
  · exact positiveToString_inj hp0 hp hq0 hq h
  · exact absurd h (positiveToString_ne_minus p _)
  · exact absurd h (by simp)
  · exact absurd h.symm (positiveToString_ne_minus q _)
  · exact neg_injective (positiveToString_inj (neg_pos.mpr hp0) hp.neg (neg_pos.mpr hq0) hq.neg
      (List.cons.inj h).2)

end Number

end AttestP2P
