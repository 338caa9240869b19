import Mathlib.Data.List.Nodup

/-!
# The first of the least

Sorting by a key puts a least element first; as the order is stable, it is the one that stood before
all others with the same key.  `head?_mergeSort_iff` says this without sorting.

Programs that want one best element often sort the whole list and take its head.  Which element that
is among several with the least key depends on the sort being stable, and so does whatever is said
about ties.  `Before key l a b` is the order that decides: the key of `a` is less, or it is the same
and `a` comes first in `l`.
-/

set_option autoImplicit false

universe u

namespace StableMin

variable {α : Type u} {key : α → ℕ} {l : List α} {a b : α}

/-- The key is less, or the same and the element comes first. -/
def Before (key : α → ℕ) (l : List α) (a b : α) : Prop :=
  key a < key b ∨ key a = key b ∧ [a, b].Sublist l

/-- Of two elements of a list one comes first. -/
theorem sublist_or_sublist (ha : a ∈ l) (hb : b ∈ l) (hne : a ≠ b) :
    [a, b].Sublist l ∨ [b, a].Sublist l := by
  induction l with
  | nil => exact absurd ha List.not_mem_nil
  | cons c l ih =>
    rcases List.mem_cons.mp ha with rfl | ha'
    · have hb' := (List.mem_cons.mp hb).resolve_left hne.symm
      exact .inl (.cons_cons a (List.singleton_sublist.mpr hb'))
    · rcases List.mem_cons.mp hb with rfl | hb'
      · exact .inr (.cons_cons b (List.singleton_sublist.mpr ha'))
      · exact (ih ha' hb').imp (.cons c) (.cons c)

/-- And the other one does not, if the list has no duplicates. -/
theorem not_sublist_swap (hl : l.Nodup) (h : [a, b].Sublist l) : ¬[b, a].Sublist l := by
  induction l with
  | nil => exact nomatch h
  | cons c l ih =>
    obtain ⟨hc, hl⟩ := List.nodup_cons.mp hl
    intro h'
    cases h with
    | cons _ h =>
      cases h' with
      | cons _ h' => exact ih hl h h'
      | cons_cons _ h' => exact hc (h.subset (by simp))
    | cons_cons _ h =>
      cases h' with
      | cons _ h' => exact hc (h'.subset (by simp))
      | cons_cons _ h' => exact hc (List.singleton_sublist.mp h')

theorem Before.asymm (hl : l.Nodup) (h : Before key l a b) : ¬Before key l b a := by
  rintro (hlt | ⟨heq, hsub⟩)
  · rcases h with hlt' | ⟨heq, -⟩
    · exact Nat.lt_asymm hlt hlt'
    · exact Nat.ne_of_gt hlt heq
  · rcases h with hlt' | ⟨-, hsub'⟩
    · exact Nat.ne_of_gt hlt' heq
    · exact not_sublist_swap hl hsub' hsub

/-- The head of the sorted list comes before all others. -/
theorem before_of_head? (hl : l.Nodup)
    (h : (l.mergeSort fun a b ↦ key a ≤ key b).head? = some a) (hb : b ∈ l) (hne : b ≠ a) :
    Before key l a b := by
  have htrans (a b c : α) (hab : decide (key a ≤ key b) = true)
      (hbc : decide (key b ≤ key c) = true) : decide (key a ≤ key c) = true :=
    decide_eq_true (Nat.le_trans (of_decide_eq_true hab) (of_decide_eq_true hbc))
  have htotal (a b : α) : (decide (key a ≤ key b) || decide (key b ≤ key a)) = true := by
    simpa using Nat.le_total (key a) (key b)
  obtain ⟨rest, hsorted⟩ := List.head?_eq_some_iff.mp h
  have hnodup := (List.mergeSort_perm l fun a b ↦ decide (key a ≤ key b)).nodup_iff.mpr hl
  have hle : (l.mergeSort fun a b ↦ key a ≤ key b).Pairwise fun a b ↦
      decide (key a ≤ key b) = true := List.pairwise_mergeSort htrans htotal l
  rw [hsorted] at hnodup hle
  have ha : a ∈ l := List.mem_mergeSort.mp (List.mem_of_mem_head? h)
  have hrest : b ∈ rest := by
    have hmem : b ∈ l.mergeSort fun a b ↦ key a ≤ key b := List.mem_mergeSort.mpr hb
    rw [hsorted] at hmem
    exact (List.mem_cons.mp hmem).resolve_left hne
  have hkey : key a ≤ key b := of_decide_eq_true ((List.pairwise_cons.mp hle).1 b hrest)
  refine (Nat.lt_or_eq_of_le hkey).imp_right fun heq ↦ ⟨heq, ?_⟩
  refine (sublist_or_sublist ha hb hne.symm).resolve_right fun hsub ↦ ?_
  -- the order of the two would be kept, but `a` is first
  have hkept : [b, a].Sublist (l.mergeSort fun a b ↦ key a ≤ key b) :=
    List.pair_sublist_mergeSort htrans htotal (decide_eq_true (Nat.le_of_eq heq.symm)) hsub
  rw [hsorted] at hkept
  exact not_sublist_swap hnodup hkept (.cons_cons a (List.singleton_sublist.mpr hrest))

/-- **The head of a list that is sorted by a key**, stably. -/
theorem head?_mergeSort_iff (hl : l.Nodup) :
    (l.mergeSort fun a b ↦ key a ≤ key b).head? = some a ↔
      a ∈ l ∧ ∀ b ∈ l, b ≠ a → Before key l a b := by
  refine ⟨fun h ↦ ⟨List.mem_mergeSort.mp (List.mem_of_mem_head? h),
    fun b hb hne ↦ before_of_head? hl h hb hne⟩, fun ⟨ha, hbefore⟩ ↦ ?_⟩
  cases h : (l.mergeSort fun a b ↦ key a ≤ key b).head? with
  | none =>
    have hmem : a ∈ l.mergeSort fun a b ↦ key a ≤ key b := List.mem_mergeSort.mpr ha
    rw [List.head?_eq_none_iff.mp h] at hmem
    exact absurd hmem List.not_mem_nil
  | some c =>
    have hc : c ∈ l := List.mem_mergeSort.mp (List.mem_of_mem_head? h)
    by_cases hne : c = a
    · rw [hne]
    · exact absurd (hbefore c hc hne) ((before_of_head? hl h ha (Ne.symm hne)).asymm hl)

end StableMin
