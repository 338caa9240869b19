import Mathlib.Data.Finset.Card
import Mathlib.Data.Finset.Range
import Mathlib.Data.List.Sort

/-!
# Sets of indices as lists

A set of indices below `n`, kept as a strictly increasing list: it is full exactly if it has length
`n` (`length_eq_iff`), it is what a scan over all indices finds in it (`filter_range`), and it stays
so when an index is appended and the list sorted (`insert`).

Programs keep such lists where they mean sets, and count them where they mean to ask whether all
indices are there.  That the count answers the question is due to the bound and to the order: no
index is in the list twice, and none is too large.
-/

set_option autoImplicit false

/-- A strictly increasing list of indices below `n`. -/
structure Increasing (n : ℕ) (l : List ℕ) : Prop where
  sorted : l.Pairwise (· < ·)
  below : ∀ i ∈ l, i < n

namespace Increasing

variable {n i : ℕ} {l : List ℕ}

theorem nil (n : ℕ) : Increasing n [] := ⟨.nil, nofun⟩

theorem nodup (h : Increasing n l) : l.Nodup := h.sorted.imp fun hlt ↦ hlt.ne

theorem toFinset_subset (h : Increasing n l) : l.toFinset ⊆ Finset.range n := fun i hi ↦
  Finset.mem_range.mpr (h.below i (List.mem_toFinset.mp hi))

theorem card_toFinset (h : Increasing n l) : l.toFinset.card = l.length :=
  List.toFinset_card_of_nodup h.nodup

theorem length_le (h : Increasing n l) : l.length ≤ n := by
  have hle := Finset.card_le_card h.toFinset_subset
  rwa [h.card_toFinset, Finset.card_range] at hle

/-- **Full, by its length**: such a list has `n` elements exactly if it has all that it may have. -/
theorem length_eq_iff (h : Increasing n l) : l.length = n ↔ ∀ i < n, i ∈ l := by
  constructor
  · intro hlength i hi
    have heq : l.toFinset = Finset.range n := Finset.eq_of_subset_of_card_le h.toFinset_subset
      (by rw [Finset.card_range, h.card_toFinset, hlength])
    exact List.mem_toFinset.mp (heq ▸ Finset.mem_range.mpr hi)
  · intro hall
    have heq : l.toFinset = Finset.range n := h.toFinset_subset.antisymm fun i hi ↦
      List.mem_toFinset.mpr (hall i (Finset.mem_range.mp hi))
    rw [← h.card_toFinset, heq, Finset.card_range]

/-- **A scan over all indices** finds the list. -/
theorem filter_range (h : Increasing n l) {p : ℕ → Bool} (hp : ∀ i < n, p i = true ↔ i ∈ l) :
    (List.range n).filter p = l := by
  have hsorted : ((List.range n).filter p).Pairwise (· < ·) := List.pairwise_lt_range.filter p
  refine hsorted.eq_of_mem_iff h.sorted fun i ↦ ?_
  rw [List.mem_filter, List.mem_range]
  exact ⟨fun ⟨hi, hpi⟩ ↦ (hp i hi).mp hpi, fun hi ↦ ⟨h.below i hi, (hp i (h.below i hi)).mpr hi⟩⟩

/-- **An index is added**, by appending it and sorting again. -/
theorem insert (h : Increasing n l) (hi : i ∉ l) (hlt : i < n) :
    Increasing n (l ++ [i]).mergeSort := by
  have hperm : (l ++ [i]).mergeSort.Perm (i :: l) :=
    (List.mergeSort_perm _ _).trans (List.perm_append_singleton i l)
  have hnodup : (l ++ [i]).mergeSort.Nodup :=
    hperm.nodup_iff.mpr (List.nodup_cons.mpr ⟨hi, h.nodup⟩)
  have hle : (l ++ [i]).mergeSort.Pairwise (· ≤ ·) := List.pairwise_mergeSort' (· ≤ ·) (l ++ [i])
  refine ⟨hle.imp₂ (fun a b hab hne ↦ lt_of_le_of_ne hab hne) hnodup, fun j hj ↦ ?_⟩
  rcases List.mem_cons.mp (hperm.mem_iff.mp hj) with rfl | hj
  · exact hlt
  · exact h.below j hj

end Increasing
