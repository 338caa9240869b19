import Mathlib.Data.Int.Log
import Mathlib.Data.Rat.Floor

/-!
# Numbers of JavaScript

A number is a double.  Finite ones are given by their value, so that `-0` is `0`: the program never
tells them apart.  Operations are exact and then rounded (`round`), as IEEE 754 has it, to the
nearest double and to the even one of two; what is too large becomes infinite.

The program counts and indexes with these numbers, and some of them come from a manifest that
anybody may have written.  So the conversions that cut a number down to an integer are here too,
`toUint8` and `toInt32` for the bit operators and `safeNat?` for what serves as an index, and
`countBelow`, the number of rounds of a loop that counts up to a bound that is any number.  On
natural numbers of ordinary size all of this is the arithmetic of `ℕ`, by the lemmas of the first
section.

`toString` is ECMAScript's `Number::toString`, the shortest digits that round to the number, and
`ofString` is `Number(text)`.  That the second undoes the first is shown in `Js.NumberText`.
-/

set_option autoImplicit false

namespace AttestP2P

/-- A double, up to the sign of zero. -/
inductive Number where
  | nan
  | infinity (negative : Bool)
  | finite (q : ℚ)
  deriving DecidableEq

namespace Number

/-- The integer closest to `q`, the even one of two. -/
def roundHalfEven (q : ℚ) : ℤ :=
  let n := ⌊q⌋
  let r := q - n
  if r < 1 / 2 ∨ r = 1 / 2 ∧ n % 2 = 0 then n else n + 1

/-- The double closest to `q`: 53 significant bits, the last of them worth `2 ^ -1074` at least. -/
def round (q : ℚ) : Number :=
  if q.den = 1 ∧ q.num.natAbs ≤ 2 ^ 53 then .finite q
  else
    let unit : ℚ := 2 ^ (max (Int.log 2 |q|) (-1022) - 52)
    let rounded := roundHalfEven (q / unit) * unit
    if |rounded| ≥ 2 ^ 1024 then .infinity (decide (q < 0)) else .finite rounded

instance : Zero Number := ⟨.finite 0⟩

def ofNat (n : ℕ) : Number := round n

/-- `a + b`: the sum, rounded to the nearest double. -/
def add : Number → Number → Number
  | .finite p, .finite q => round (p + q)
  | .infinity a, .infinity b => if a = b then .infinity a else .nan
  | .infinity a, .finite _ => .infinity a
  | .finite _, .infinity b => .infinity b
  | .nan, _ => .nan
  | _, .nan => .nan

/-- `a * b`: the product, rounded to the nearest double. -/
def mul : Number → Number → Number
  | .finite p, .finite q => round (p * q)
  | .infinity a, .infinity b => .infinity (a != b)
  | .infinity a, .finite q | .finite q, .infinity a =>
    if q = 0 then .nan else .infinity (a != decide (q < 0))
  | .nan, _ => .nan
  | _, .nan => .nan

/-- `a === b`, which not-a-number is not, even to itself. -/
def strictEq (a b : Number) : Bool := decide (a ≠ .nan ∧ a = b)

/-- `if (n)`: zero and not-a-number are false. -/
def truthy : Number → Bool
  | .nan => false
  | .infinity _ => true
  | .finite q => decide (q ≠ 0)

/-- How many `i = 0, 1, ...` satisfy `i < n`; `none` if all do. -/
def countBelow : Number → Option ℕ
  | .nan => some 0
  | .infinity negative => if negative then some 0 else none
  | .finite q => some ⌈q⌉₊

/-- The integer part of a positive number, and zero for any other. -/
def floor : Number → ℕ
  | .finite q => ⌊q⌋₊
  | _ => 0

/-- `Math.trunc(q)`: the fraction is dropped, towards zero. -/
def trunc (q : ℚ) : ℤ := if q < 0 then -⌊-q⌋ else ⌊q⌋

/-- The last eight bits of the integer part, as a typed array stores it. -/
def toUint8 : Number → UInt8
  | .finite q => UInt8.ofNat (trunc q % 256).toNat
  | _ => 0

/-- `n | 0`: the last 32 bits of the integer part, the first of them a sign. -/
def toInt32 : Number → ℤ
  | .finite q => (trunc q).bmod (2 ^ 32)
  | _ => 0

/-- A natural number up to `Number.MAX_SAFE_INTEGER`, if the number is one. -/
def safeNat? : Number → Option ℕ
  | .finite q => if q.den = 1 ∧ 0 ≤ q ∧ q < 2 ^ 53 then some q.num.toNat else none
  | _ => none

/-! ### Natural numbers -/

section
variable {m n k i : ℕ}

theorem ofNat_of_le (h : n ≤ 2 ^ 53) : ofNat n = .finite n := if_pos (by simpa using h)

theorem add_ofNat (h : m + n ≤ 2 ^ 53) : add (ofNat m) (ofNat n) = ofNat (m + n) := by
  rw [ofNat_of_le (Nat.le_of_add_right_le h), ofNat_of_le (Nat.le_of_add_left_le h), add, ofNat,
    Nat.cast_add]

theorem strictEq_ofNat (h : n ≤ 2 ^ 53) : strictEq (ofNat n) (ofNat n) = true := by
  rw [ofNat_of_le h]
  exact decide_eq_true ⟨nofun, rfl⟩

theorem countBelow_ofNat (h : n ≤ 2 ^ 53) : countBelow (ofNat n) = some n := by
  rw [ofNat_of_le h, countBelow, Nat.ceil_natCast]

theorem floor_ofNat (h : n ≤ 2 ^ 53) : floor (ofNat n) = n := by
  rw [ofNat_of_le h, floor, Nat.floor_natCast]

theorem floor_le_roundHalfEven (q : ℚ) : ⌊q⌋ ≤ roundHalfEven q := by
  rw [roundHalfEven]
  split
  · exact le_rfl
  · omega

/-- Numbers that need rounding are above those that do not, and stay there. -/
theorem le_countBelow_ofNat (hn : 2 ^ 53 < n) (hk : countBelow (ofNat n) = some k) :
    2 ^ 53 ≤ k := by
  have hbig : ¬((n : ℚ).den = 1 ∧ (n : ℚ).num.natAbs ≤ 2 ^ 53) := by
    simpa using hn
  have hlog : (53 : ℤ) ≤ Int.log 2 (n : ℚ) := by
    rw [Int.log_natCast]
    exact_mod_cast (Nat.le_log_iff_pow_le (by decide) (by omega)).mpr hn.le
  have hmax : max (Int.log 2 |(n : ℚ)|) (-1022) = Int.log 2 (n : ℚ) := by
    rw [Nat.abs_cast]
    exact max_eq_left (by omega)
  have hnonneg : decide ((n : ℚ) < 0) = false :=
    decide_eq_false (not_lt.mpr (Nat.cast_nonneg n))
  have hpos : (0 : ℚ) < 2 ^ (Int.log 2 (n : ℚ) - 52) := zpow_pos two_pos _
  have hself : (2 : ℚ) ^ Int.log 2 (n : ℚ) ≤ n :=
    Int.zpow_log_le_self (by decide) (Nat.cast_pos.mpr (by omega))
  have hsplit : (2 : ℚ) ^ Int.log 2 (n : ℚ) =
      (2 ^ 52 : ℤ) * 2 ^ (Int.log 2 (n : ℚ) - 52) := by
    have hcast : ((2 ^ 52 : ℤ) : ℚ) = 2 ^ (52 : ℤ) := by rw [Int.cast_pow, Int.cast_ofNat]; rfl
    rw [hcast, ← zpow_add₀ two_ne_zero]
    congr 1
    omega
  rw [ofNat, round, if_neg hbig] at hk
  dsimp only at hk
  rw [hmax, hnonneg] at hk
  split at hk
  · exact nomatch hk
  · have hfloor : (2 ^ 52 : ℤ) ≤ roundHalfEven (n / 2 ^ (Int.log 2 (n : ℚ) - 52)) := by
      refine le_trans (Int.le_floor.mpr ?_) (floor_le_roundHalfEven _)
      rw [le_div_iff₀ hpos, ← hsplit]
      exact hself
    have hrounded : ((2 ^ 53 : ℕ) : ℚ) ≤
        roundHalfEven (n / 2 ^ (Int.log 2 (n : ℚ) - 52)) * 2 ^ (Int.log 2 (n : ℚ) - 52) := by
      calc ((2 ^ 53 : ℕ) : ℚ) = 2 ^ (53 : ℤ) := by rw [Nat.cast_pow, Nat.cast_ofNat]; rfl
        _ ≤ 2 ^ Int.log 2 (n : ℚ) := zpow_le_zpow_right₀ one_le_two hlog
        _ = (2 ^ 52 : ℤ) * 2 ^ (Int.log 2 (n : ℚ) - 52) := hsplit
        _ ≤ _ := mul_le_mul_of_nonneg_right (Int.cast_le.mpr hfloor) hpos.le
    have hceil := Option.some.inj hk
    rw [← hceil]
    exact Nat.cast_le.mp (hrounded.trans (Nat.le_ceil _))

theorem lt_countBelow_ofNat (hi : i < n) (hsmall : i < 2 ^ 53)
    (hk : countBelow (ofNat n) = some k) : i < k := by
  rcases Nat.lt_or_ge (2 ^ 53) n with hn | hn
  · exact hsmall.trans_le (le_countBelow_ofNat hn hk)
  · rw [countBelow_ofNat hn] at hk
    exact hi.trans_eq (Option.some.inj hk)

end

/-! ### Conversion to and from text -/

/-- The two natural numbers next to a positive one, the closer one first. -/
def neighbours (x : ℚ) : List ℕ :=
  let below := ⌊x⌋₊
  if roundHalfEven x = below then [below, below + 1] else [below + 1, below]

/-- The digits of a positive number: the fewest digits `s`, and the place `n` of the decimal point,
such that `0.s * 10 ^ n` rounds to it. -/
def shortest (q : ℚ) : ℕ × ℤ :=
  let n := Int.log 10 q + 1
  let fits (k s : ℕ) : Bool := decide (round (s * 10 ^ (n - k)) = .finite q)
  let found := (List.range' 1 17).findSome? fun k : ℕ ↦
    ((neighbours (q * 10 ^ ((k : ℤ) - n))).find? (fits k)).map fun s ↦ (k, s)
  match found with
  | some (k, s) => if s = 10 ^ k then (1, n + 1) else (s, n)
  | none => (0, n)

/-- `Number::toString` of a positive number: its shortest digits, with zeros, a point or an exponent
as the specification places them. -/
def positiveToString (q : ℚ) : String :=
  let (s, n) := shortest q
  let digits := Nat.toDigits 10 s
  let k := digits.length
  String.ofList <|
    if k ≤ n ∧ n ≤ 21 then digits ++ List.replicate (n.toNat - k) '0'
    else if 0 < n ∧ n ≤ 21 then digits.take n.toNat ++ '.' :: digits.drop n.toNat
    else if -6 < n ∧ n ≤ 0 then '0' :: '.' :: (List.replicate (-n).toNat '0' ++ digits)
    else
      let exponent := (if 0 < n then '+' else '-') :: Nat.toDigits 10 (n - 1).natAbs
      if k = 1 then digits ++ 'e' :: exponent
      else digits.take 1 ++ '.' :: (digits.drop 1 ++ 'e' :: exponent)

/-- `String(n)`, in which negative zero is "0". -/
def toString : Number → String
  | .nan => "NaN"
  | .infinity negative => if negative then "-Infinity" else "Infinity"
  | .finite q =>
    if q = 0 then "0"
    else if q < 0 then "-" ++ positiveToString (-q) else positiveToString q

/-- The value of a run of digits in the given base, if it is one. -/
def digitsValue (base : ℕ) (cs : List Char) : Option ℕ :=
  cs.foldlM (fun n c ↦
    let d := if c.isDigit then c.toNat - 48 else c.toLower.toNat - 87
    if c.isAlphanum ∧ d < base then some (base * n + d) else none) 0

/-- `digits`, `digits.digits`, with or without an exponent: the rational number that a decimal
literal stands for. -/
def ofDecimal (cs : List Char) : Option ℚ :=
  let mantissa := cs.takeWhile fun c ↦ c ≠ 'e' ∧ c ≠ 'E'
  let whole := mantissa.takeWhile (· ≠ '.')
  let fraction := (mantissa.drop whole.length).drop 1
  let exponent : Option ℤ :=
    match cs.drop mantissa.length with
    | [] => some 0
    | _ :: '-' :: ds => if ds = [] then none else (digitsValue 10 ds).map fun n ↦ -n
    | _ :: '+' :: ds => if ds = [] then none else (digitsValue 10 ds).map fun n ↦ (n : ℤ)
    | _ :: ds => if ds = [] then none else (digitsValue 10 ds).map fun n ↦ (n : ℤ)
  if whole = [] ∧ fraction = [] then none
  else
    match digitsValue 10 (whole ++ fraction), exponent with
    | some n, some e => some (n * 10 ^ (e - fraction.length))
    | _, _ => none

/-- White space and line ends, as `Number` and `trim` strip them and `\s` matches them. -/
def isSpace (c : Char) : Bool :=
  c ∈ ['\t', '\n', '\x0b', '\x0c', '\r', ' ', '\u00a0', '\u1680', '\u2028', '\u2029', '\u202f',
    '\u205f', '\u3000', '\ufeff'] || 0x2000 ≤ c.toNat && c.toNat ≤ 0x200a

/-- `Number(text)`: white space is trimmed at both ends, and what remains has to be a literal as a
whole. -/
def ofString (text : String) : Number :=
  let trim (cs : List Char) := cs.dropWhile isSpace
  let cs := (trim (trim text.toList).reverse).reverse
  let decimal (negative : Bool) (cs : List Char) : Number :=
    if cs = "Infinity".toList then .infinity negative
    else
      match ofDecimal cs with
      | some q => round (if negative then -q else q)
      | none => .nan
  let based (base : ℕ) (ds : List Char) : Number :=
    if ds = [] then .nan
    else
      match digitsValue base ds with
      | some n => ofNat n
      | none => .nan
  match cs with
  | [] => .finite 0
  | '0' :: 'x' :: ds | '0' :: 'X' :: ds => based 16 ds
  | '0' :: 'o' :: ds | '0' :: 'O' :: ds => based 8 ds
  | '0' :: 'b' :: ds | '0' :: 'B' :: ds => based 2 ds
  | '-' :: ds => decimal true ds
  | '+' :: ds => decimal false ds
  | ds => decimal false ds

example : (ofString "\u00a00x1F\n", ofString "-1.5e3", ofString "1e999", ofString "1.2.3") =
    (.finite 31, .finite (-1500), .infinity false, .nan) := by decide +kernel

example : [toString (ofString "0.1"), toString (ofString "1e21"),
    toString (ofString "123456.789e3"), toString (ofString "-5e-324"),
    toString (ofNat 9007199254740993), toString (ofString "1e23"),
    toString (ofNat (2 ^ 89))] =
    ["0.1", "1e+21", "123456789", "-5e-324", "9007199254740992", "1e+23",
      "6.189700196426902e+26"] := by decide +kernel

end Number

end AttestP2P
