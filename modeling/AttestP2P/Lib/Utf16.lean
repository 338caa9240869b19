import Mathlib.Data.List.Basic

/-!
# Strings of 16-bit code units

A string may hold surrogates that do not belong to a pair.  Its code points are characters and such
lone surrogates, `Point` for short, and there is exactly one way to read it: a high surrogate with a
low one right behind it is a pair, and every other surrogate is alone.

* `flatMap_units_points`: a string is the code units of its code points.  So nothing is lost in
  going over to the code points, and two strings with the same points are equal.
* `points_ofText`: the code points of a text are its characters.  So text, embedded by `ofText`, is
  recognized as what it is.

Functions on strings that treat lone surrogates in a way of their own, such as those that write
JSON, are defined on the code points.
-/

set_option autoImplicit false

namespace Utf16

def IsHigh (u : UInt16) : Prop := 0xd800 ≤ u.toNat ∧ u.toNat < 0xdc00

def IsLow (u : UInt16) : Prop := 0xdc00 ≤ u.toNat ∧ u.toNat < 0xe000

def IsSurrogate (u : UInt16) : Prop := 0xd800 ≤ u.toNat ∧ u.toNat < 0xe000

instance (u : UInt16) : Decidable (IsHigh u) :=
  inferInstanceAs (Decidable (0xd800 ≤ u.toNat ∧ u.toNat < 0xdc00))

instance (u : UInt16) : Decidable (IsLow u) :=
  inferInstanceAs (Decidable (0xdc00 ≤ u.toNat ∧ u.toNat < 0xe000))

instance (u : UInt16) : Decidable (IsSurrogate u) :=
  inferInstanceAs (Decidable (0xd800 ≤ u.toNat ∧ u.toNat < 0xe000))

/-- A code point of a string: a character, or a surrogate that has no partner. -/
inductive Point where
  | char (c : Char)
  | lone (u : UInt16) (h : IsSurrogate u)

/-- The code units of a code point: one, or the two of a surrogate pair. -/
def Point.units : Point → List UInt16
  | .char c =>
    if c.toNat < 0x10000 then [.ofNat c.toNat]
    else [.ofNat (0xd800 + (c.toNat - 0x10000) / 0x400),
      .ofNat (0xdc00 + (c.toNat - 0x10000) % 0x400)]
  | .lone u _ => [u]

/-- A code unit that is not part of a pair. -/
def single (u : UInt16) : Point :=
  if h : IsSurrogate u then .lone u h else .char (Char.ofNat u.toNat)

/-- The character of a pair of surrogates. -/
def pair (u v : UInt16) : Char :=
  Char.ofNat (0x10000 + (u.toNat - 0xd800) * 0x400 + (v.toNat - 0xdc00))

/-- The code points of a string, where a high surrogate takes a low one that follows it. -/
def points : List UInt16 → List Point
  | [] => []
  | [u] => [single u]
  | u :: v :: s =>
    if IsHigh u ∧ IsLow v then .char (pair u v) :: points s else single u :: points (v :: s)

/-- The code units of a text, character by character. -/
def ofText (cs : List Char) : List UInt16 := cs.flatMap fun c ↦ (Point.char c).units

theorem toNat_unit {n : ℕ} (h : n < 0x10000) : (UInt16.ofNat n).toNat = n := by
  rw [UInt16.toNat_ofNat']
  omega

theorem toNat_ofNat_of_valid {n : ℕ} (h : n < 0xd800 ∨ 0xdfff < n ∧ n < 0x110000) :
    (Char.ofNat n).toNat = n := by
  rw [Char.ofNat, dif_pos h]
  rfl

theorem units_single (u : UInt16) : (single u).units = [u] := by
  rw [single]
  split
  · rfl
  · next h =>
    have hlt := u.toNat_lt
    have hvalid : u.toNat < 0xd800 ∨ 0xdfff < u.toNat ∧ u.toNat < 0x110000 := by
      rw [IsSurrogate] at h
      omega
    rw [Point.units, toNat_ofNat_of_valid hvalid, if_pos hlt, UInt16.ofNat_toNat]

theorem units_pair {u v : UInt16} (hu : IsHigh u) (hv : IsLow v) :
    (Point.char (pair u v)).units = [u, v] := by
  obtain ⟨hu, hu'⟩ := hu
  obtain ⟨hv, hv'⟩ := hv
  rw [Point.units, pair, toNat_ofNat_of_valid (by omega), if_neg (by omega)]
  have hfirst : 0xd800 + (0x10000 + (u.toNat - 0xd800) * 0x400 + (v.toNat - 0xdc00) - 0x10000) /
      0x400 = u.toNat := by omega
  have hsecond : 0xdc00 + (0x10000 + (u.toNat - 0xd800) * 0x400 + (v.toNat - 0xdc00) - 0x10000) %
      0x400 = v.toNat := by omega
  rw [hfirst, hsecond, UInt16.ofNat_toNat, UInt16.ofNat_toNat]

/-- **A string is the code units of its code points.** -/
theorem flatMap_units_points (s : List UInt16) : (points s).flatMap Point.units = s := by
  fun_induction points s with
  | case1 => rfl
  | case2 u => rw [List.flatMap_singleton, units_single]
  | case3 u v s h ih => rw [List.flatMap_cons, units_pair h.1 h.2, ih]; rfl
  | case4 u v s h ih => rw [List.flatMap_cons, units_single, ih]; rfl

theorem points_inj {s t : List UInt16} (h : points s = points t) : s = t := by
  rw [← flatMap_units_points s, h, flatMap_units_points]

/-- A character is a code point of its own, whatever follows it. -/
theorem points_units_append (c : Char) (s : List UInt16) :
    points ((Point.char c).units ++ s) = .char c :: points s := by
  have hvalid : c.toNat < 0xd800 ∨ 0xdfff < c.toNat ∧ c.toNat < 0x110000 := c.valid
  rw [Point.units]
  split
  · next hlt =>
    have hunit := toNat_unit hlt
    have hsurrogate : ¬IsSurrogate (UInt16.ofNat c.toNat) := by
      rw [IsSurrogate, hunit]
      omega
    have hhigh : ¬IsHigh (UInt16.ofNat c.toNat) := by
      rw [IsHigh, hunit]
      omega
    have hsingle : single (UInt16.ofNat c.toNat) = .char c := by
      rw [single, dif_neg hsurrogate, hunit, Char.ofNat_toNat]
    cases s with
    | nil => exact congrArg (· :: []) hsingle
    | cons v s => rw [List.singleton_append, points, if_neg fun h ↦ hhigh h.1, hsingle]
  · next hge =>
    have hhigh : IsHigh (UInt16.ofNat (0xd800 + (c.toNat - 0x10000) / 0x400)) := by
      rw [IsHigh, toNat_unit (by omega)]
      omega
    have hlow : IsLow (UInt16.ofNat (0xdc00 + (c.toNat - 0x10000) % 0x400)) := by
      rw [IsLow, toNat_unit (by omega)]
      omega
    have hpair : pair (UInt16.ofNat (0xd800 + (c.toNat - 0x10000) / 0x400))
        (UInt16.ofNat (0xdc00 + (c.toNat - 0x10000) % 0x400)) = c := by
      have hself : Char.ofNat c.toNat = c := Char.ofNat_toNat c
      have hvalue : 0x10000 + (0xd800 + (c.toNat - 0x10000) / 0x400 - 0xd800) * 0x400 +
          (0xdc00 + (c.toNat - 0x10000) % 0x400 - 0xdc00) = c.toNat := by omega
      rw [pair, toNat_unit (by omega), toNat_unit (by omega), hvalue, hself]
    rw [List.cons_append, List.singleton_append, points, if_pos ⟨hhigh, hlow⟩, hpair]

/-- **The code points of a text are its characters.** -/
theorem points_ofText (cs : List Char) : points (ofText cs) = cs.map .char := by
  induction cs with
  | nil => rfl
  | cons c cs ih =>
    rw [ofText, List.flatMap_cons, points_units_append, List.map_cons, ← ih]
    rfl

/-- The text that a string is, if no surrogate is alone. -/
def text (s : List UInt16) : Option (List Char) :=
  (points s).mapM fun
    | .char c => some c
    | .lone _ _ => none

theorem text_ofText (cs : List Char) : text (ofText cs) = some cs := by
  rw [text, points_ofText]
  induction cs with
  | nil => rfl
  | cons c cs ih =>
    rw [List.map_cons, List.mapM_cons, ih]
    rfl

theorem ofText_inj {cs cs' : List Char} (h : ofText cs = ofText cs') : cs = cs' := by
  have hpoints := congrArg points h
  rw [points_ofText, points_ofText] at hpoints
  exact List.map_injective_iff.mpr (fun _ _ h ↦ Point.char.inj h) hpoints

end Utf16
