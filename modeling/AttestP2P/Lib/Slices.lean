import Mathlib.Data.List.Basic
import Mathlib.Algebra.BigOperators.Group.List.Basic
import Mathlib.Algebra.GroupWithZero.Nat

/-!
# Cutting a list into slices

A list of any length is cut into slices of the same length, of which only the last may be shorter.
Side by side, they are the list again.

There are three ways to speak about such a cut, and the lemmas here go from one to the other.

* `slice l c i` is the `i`-th piece, and `count l c` how many there are; `flatMap_slice_count` says
  that they make up the list.
* Who reads a file by offsets knows the beginning of a piece and its length: `length_slice` and
  `lt_count_iff` say which offsets there are.
* Who is only told the lengths of some pieces can ask whether they may be the lengths of such a cut
  (`Pieces`).  If so, their number and each of them are determined by the sum, by `Pieces.spec`.
-/

set_option autoImplicit false

universe u

namespace Slices

variable {α : Type u}

/-- The `i`-th slice of length `c`, counted from zero; the last one may be shorter. -/
def slice (l : List α) (c i : ℕ) : List α := (l.drop (i * c)).take c

/-- How many slices there are: as many as it takes to cover the list. -/
def count (l : List α) (c : ℕ) : ℕ := (l.length + c - 1) / c

variable {l : List α} {c i : ℕ}

theorem length_slice : (slice l c i).length = min c (l.length - i * c) := by
  rw [slice, List.length_take, List.length_drop]

theorem length_slice_le : (slice l c i).length ≤ c := length_slice.trans_le (Nat.min_le_left _ _)

/-- A slice starts before the end, exactly if it is one of those that are counted. -/
theorem lt_count_iff (hc : 0 < c) : i < count l c ↔ i * c < l.length := by
  rw [count, Nat.lt_iff_add_one_le, Nat.le_div_iff_mul_le hc, Nat.add_mul]
  omega

theorem count_le (hc : 0 < c) : count l c ≤ l.length :=
  Nat.not_lt.mp fun h ↦
    Nat.not_lt.mpr (Nat.le_mul_of_pos_right l.length hc) ((lt_count_iff hc).mp h)

theorem length_slice_pos (hc : 0 < c) (h : i < count l c) : 0 < (slice l c i).length := by
  rw [lt_count_iff hc] at h
  rw [length_slice]
  omega

/-- Only the last slice may be shorter: every other one has the full length. -/
theorem length_slice_of_lt (hc : 0 < c) (h : i + 1 < count l c) : (slice l c i).length = c := by
  rw [lt_count_iff hc, Nat.add_mul] at h
  rw [length_slice]
  omega

/-- The slices up to the `k`-th are a prefix of the list. -/
theorem flatMap_slice (l : List α) (c k : ℕ) :
    (List.range k).flatMap (slice l c) = l.take (k * c) := by
  induction k with
  | zero => simp
  | succ k ih =>
    rw [List.range_succ, List.flatMap_append, ih, List.flatMap_singleton, slice, Nat.succ_mul,
      List.take_add]

/-- **The slices are the list**, when they are put together in order. -/
theorem flatMap_slice_count (hc : 0 < c) : (List.range (count l c)).flatMap (slice l c) = l := by
  rw [flatMap_slice, List.take_of_length_le]
  exact Nat.not_lt.mp fun h ↦ Nat.lt_irrefl _ ((lt_count_iff hc).mpr h)

theorem sum_length_slice (hc : 0 < c) :
    ((List.range (count l c)).map fun i ↦ (slice l c i).length).sum = l.length := by
  rw [← List.length_flatMap, flatMap_slice_count hc]

/-- Pieces that all have length `c`, but for the last. -/
structure Pieces (c n : ℕ) (lengths : ℕ → ℕ) : Prop where
  pos : ∀ i < n, 0 < lengths i
  le : ∀ i < n, lengths i ≤ c
  full : ∀ i, i + 1 < n → lengths i = c

theorem Pieces.sum_map_range {n : ℕ} {lengths : ℕ → ℕ} (h : Pieces c (n + 1) lengths) :
    ((List.range (n + 1)).map lengths).sum = n * c + lengths n := by
  have hfull : ∀ k ≤ n, ((List.range k).map lengths).sum = k * c := by
    intro k hk
    induction k with
    | zero => simp
    | succ k ih =>
      rw [List.range_succ, List.map_append, List.sum_append, ih (by omega), List.map_singleton,
        List.sum_singleton, h.full k (by omega), Nat.succ_mul]
  rw [List.range_succ, List.map_append, List.sum_append, hfull n (Nat.le_refl n),
    List.map_singleton,
    List.sum_singleton]

/-- **There are as many pieces as it takes**, and each is as long as a slice. -/
theorem Pieces.spec (hc : 0 < c) {n : ℕ} {lengths : ℕ → ℕ} (h : Pieces c n lengths) :
    n = (((List.range n).map lengths).sum + c - 1) / c ∧
      ∀ i < n, lengths i = min c (((List.range n).map lengths).sum - i * c) := by
  cases n with
  | zero => exact ⟨(Nat.div_eq_of_lt (by simp; omega)).symm, nofun⟩
  | succ n =>
    have hlast := h.pos n n.lt_succ_self
    have hle := h.le n n.lt_succ_self
    rw [h.sum_map_range]
    refine ⟨?_, fun i hi ↦ ?_⟩
    · symm
      rw [Nat.div_eq_iff hc, Nat.succ_mul]
      omega
    · rcases Nat.lt_succ_iff_lt_or_eq.mp hi with hlt | rfl
      · have hmul : (i + 1) * c ≤ n * c := Nat.mul_le_mul_right c hlt
        rw [Nat.succ_mul] at hmul
        rw [h.full i (by omega)]
        omega
      · omega

/-- The slices are pieces: none is empty or too long, and only the last is short. -/
theorem pieces_slice (hc : 0 < c) : Pieces c (count l c) fun i ↦ (slice l c i).length :=
  ⟨fun _ ↦ length_slice_pos hc, fun _ _ ↦ length_slice_le, fun _ ↦ length_slice_of_lt hc⟩

end Slices
