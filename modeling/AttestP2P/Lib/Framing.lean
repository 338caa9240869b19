import Mathlib.Data.List.Basic
import Mathlib.Data.List.Infix

/-!
# Cutting a byte stream into items

A `Cutter` looks at the front of a buffer and says that it needs more input, that an item of so
many symbols is complete, or that no continuation will ever be valid.  More input never changes its
mind about the last two.  `Cutter.split` is the loop every incremental decoder runs: cut items off
the front for as long as there are complete ones.

* `split_append` is the fact behind all segmentation arguments: what a decoder makes of a stream
  does not depend on where the stream was cut, because splitting `b ++ c` is splitting `b`, and then
  splitting what was left of it followed by `c`.
* `split_flatten_append`: complete items, glued together, are cut apart again.
* `batches_spec`: a decoder that throws on a malformed buffer, whatever else is in it, hands out a
  prefix of the items of a stream; how long a prefix depends on where the stream was cut.
* `split_prefix`: after any part of such a stream, all complete items are out, and what is left is
  a strict prefix of the next one.
-/

set_option autoImplicit false

universe u v

/-- What a decoder makes of the front of its buffer. -/
inductive Cut (ε : Type v) where
  /-- No item is complete yet. -/
  | more
  /-- The first `n` symbols are an item. -/
  | item (n : ℕ)
  /-- The buffer is malformed, whatever comes after it. -/
  | bad (e : ε)

/-- A decision procedure for the front of a buffer that more input cannot overturn. -/
structure Cutter (α : Type u) (ε : Type v) where
  cut : List α → Cut ε
  item_pos : ∀ {b n}, cut b = .item n → 0 < n
  item_le : ∀ {b n}, cut b = .item n → n ≤ b.length
  item_append : ∀ {b n} (c), cut b = .item n → cut (b ++ c) = .item n
  item_take : ∀ {b n}, cut b = .item n → cut (b.take n) = .item n
  bad_append : ∀ {b e} (c), cut b = .bad e → cut (b ++ c) = .bad e

namespace Cutter

variable {α : Type u} {ε : Type v} (C : Cutter α ε)

/-- Cut off complete items for as long as there are any: the items, and what is left. -/
def split (b : List α) : List (List α) × List α :=
  match _h : C.cut b with
  | .item n =>
    let s := split (b.drop n)
    (b.take n :: s.1, s.2)
  | _ => ([], b)
termination_by b.length
decreasing_by
  have hpos := C.item_pos _h
  have hle := C.item_le _h
  simp only [List.length_drop]
  omega

variable {C}

theorem split_of_item {b : List α} {n : ℕ} (h : C.cut b = .item n) :
    C.split b = (b.take n :: (C.split (b.drop n)).1, (C.split (b.drop n)).2) := by
  rw [split]
  split
  · next m hm =>
    obtain rfl := Cut.item.inj (h.symm.trans hm)
    rfl
  · next hne => exact absurd h (hne n)

theorem split_of_not_item {b : List α} (h : ∀ n, C.cut b ≠ .item n) : C.split b = ([], b) := by
  rw [split]
  split
  · next n hn => exact absurd hn (h n)
  · rfl

theorem split_of_more {b : List α} (h : C.cut b = .more) : C.split b = ([], b) :=
  split_of_not_item fun n hn ↦ by simp [h] at hn

/-- Induction along the items a buffer is cut into. -/
theorem split_induction {P : List α → Prop} (hend : ∀ b, (∀ n, C.cut b ≠ .item n) → P b)
    (hitem : ∀ b n, C.cut b = .item n → P (b.drop n) → P b) (b : List α) : P b := by
  by_cases h : ∃ n, C.cut b = .item n
  · obtain ⟨n, hn⟩ := h
    have hpos := C.item_pos hn
    have hle := C.item_le hn
    exact hitem b n hn (split_induction hend hitem (b.drop n))
  · exact hend b fun n hn ↦ h ⟨n, hn⟩
termination_by b.length
decreasing_by
  simp only [List.length_drop]
  omega

/-- Nothing is lost: the items and what is left make up the buffer. -/
theorem flatten_split (b : List α) : (C.split b).1.flatten ++ (C.split b).2 = b := by
  induction b using split_induction (C := C) with
  | hend b h => rw [split_of_not_item h, List.flatten_nil, List.nil_append]
  | hitem b n h ih =>
    rw [split_of_item h, List.flatten_cons, List.append_assoc, ih, List.take_append_drop]

/-- What is left starts with no complete item. -/
theorem cut_rest_ne_item (b : List α) (n : ℕ) : C.cut (C.split b).2 ≠ .item n := by
  induction b using split_induction (C := C) with
  | hend b h => rw [split_of_not_item h]; exact h n
  | hitem b m h ih => rwa [split_of_item h]

/-- **Splitting does not depend on segmentation**: what is split off first does not change what is
split off later. -/
theorem split_append (b c : List α) :
    C.split (b ++ c) = ((C.split b).1 ++ (C.split ((C.split b).2 ++ c)).1,
      (C.split ((C.split b).2 ++ c)).2) := by
  induction b using split_induction (C := C) with
  | hend b h => rw [split_of_not_item h, List.nil_append]
  | hitem b n h ih =>
    have hle := C.item_le h
    rw [split_of_item (C.item_append c h), split_of_item h, List.drop_append_of_le_length hle,
      List.take_append_of_le_length hle, ih, List.cons_append]

/-- The list is one item and nothing else. -/
def Complete (C : Cutter α ε) (x : List α) : Prop := C.cut x = .item x.length

theorem complete_of_mem_split {b x : List α} (hx : x ∈ (C.split b).1) : C.Complete x := by
  induction b using split_induction (C := C) with
  | hend b h => simp [split_of_not_item h] at hx
  | hitem b n h ih =>
    rw [split_of_item h] at hx
    rcases List.mem_cons.mp hx with rfl | hx
    · rw [Complete, C.item_take h, List.length_take, min_eq_left (C.item_le h)]
    · exact ih hx

theorem Complete.split_append {x : List α} (hx : C.Complete x) (c : List α) :
    C.split (x ++ c) = (x :: (C.split c).1, (C.split c).2) := by
  rw [split_of_item (C.item_append c hx), List.take_left, List.drop_left]

/-- **Complete items, glued together, are cut apart again.** -/
theorem split_flatten_append {xs : List (List α)} (hxs : ∀ x ∈ xs, C.Complete x) (c : List α) :
    C.split (xs.flatten ++ c) = (xs ++ (C.split c).1, (C.split c).2) := by
  induction xs with
  | nil => rfl
  | cons x xs ih =>
    have hx : C.Complete x := hxs x List.mem_cons_self
    have hrest := ih fun y hy ↦ hxs y (List.mem_cons_of_mem x hy)
    rw [List.flatten_cons, List.append_assoc, hx.split_append, hrest, List.cons_append]

/-- A strict prefix of an item needs more input. -/
theorem Complete.cut_of_append {x r c : List α} (hx : C.Complete x) (h : r ++ c = x) (hc : c ≠ []) :
    C.cut r = .more := by
  subst h
  cases hr : C.cut r with
  | more => rfl
  | item n =>
    have hn := C.item_append c hr
    rw [hx, Cut.item.injEq, List.length_append] at hn
    have hle := C.item_le hr
    have hpos := List.length_pos_of_ne_nil hc
    omega
  | bad e =>
    have hbad := C.bad_append c hr
    rw [hx] at hbad
    cases hbad

theorem split_nil : C.split [] = ([], []) :=
  split_of_not_item fun n hn ↦ by
    have hpos := C.item_pos hn
    have hle := C.item_le hn
    rw [List.length_nil] at hle
    omega

/-- **Part of a stream of complete items**: the items that are complete are cut off, and what is
left is nothing at the end of an item, and otherwise a strict prefix of the next one. -/
theorem split_prefix {xs : List (List α)} (hxs : ∀ x ∈ xs, C.Complete x) {p q : List α}
    (h : p ++ q = xs.flatten) :
    ∃ zs, xs = (C.split p).1 ++ zs ∧ ((C.split p).2 = [] ∧ q = zs.flatten ∨
      ∃ z zs' c, zs = z :: zs' ∧ c ≠ [] ∧ (C.split p).2 ++ c = z ∧ q = c ++ zs'.flatten) := by
  induction xs generalizing p with
  | nil =>
    obtain ⟨rfl, rfl⟩ := List.append_eq_nil_iff.mp h
    exact ⟨[], by rw [split_nil]; rfl, .inl ⟨by rw [split_nil], rfl⟩⟩
  | cons x xs ih =>
    have hx : C.Complete x := hxs x List.mem_cons_self
    rw [List.flatten_cons] at h
    rcases List.append_eq_append_iff.mp h with ⟨c, rfl, rfl⟩ | ⟨p', rfl, hp'⟩
    · -- `p` is a prefix of `x`
      by_cases hc : c = []
      · subst hc
        rw [List.append_nil] at hx
        have hsplit := hx.split_append []
        rw [List.append_nil, split_nil] at hsplit
        exact ⟨xs, by rw [hsplit, List.append_nil]; rfl, .inl ⟨by rw [hsplit], rfl⟩⟩
      · have hsplit := split_of_more (hx.cut_of_append rfl hc)
        exact ⟨_, by rw [hsplit]; rfl, .inr ⟨_, _, c, rfl, hc, by rw [hsplit], rfl⟩⟩
    · obtain ⟨zs, hzs, hrest⟩ := ih (fun y hy ↦ hxs y (List.mem_cons_of_mem x hy)) hp'.symm
      rw [hx.split_append]
      exact ⟨zs, by rw [List.cons_append, ← hzs], hrest⟩

/-! ### Decoders that give up on a malformed buffer

A decoder that throws loses what the last batch had in front of the malformed part.  What it has
returned before is what the stream begins with. -/

variable (C)

/-- Whether the buffer is malformed: no unit can be cut off, whatever follows. -/
def malformed (b : List α) : Option ε :=
  match C.cut b with
  | .bad e => some e
  | _ => none

/-- What a decoder hands out that throws as soon as a chunk leaves it with a malformed buffer: the
items of each chunk before that one, and the error.  The decoder starts with the buffer `b`. -/
def batches (b : List α) : List (List α) → List (List (List α)) × Option ε
  | [] => ([], none)
  | c :: cs =>
    match C.malformed (C.split (b ++ c)).2 with
    | some e => ([], some e)
    | none =>
      let r := batches (C.split (b ++ c)).2 cs
      ((C.split (b ++ c)).1 :: r.1, r.2)

variable {C}

theorem malformed_eq_some {b : List α} {e : ε} : C.malformed b = some e ↔ C.cut b = .bad e := by
  rw [malformed]
  split
  · next e' he => rw [he, Option.some_inj, Cut.bad.injEq]
  · next hne => exact ⟨nofun, fun h ↦ absurd h (hne e)⟩

/-- The buffer that is left of one that is not malformed needs more input. -/
theorem cut_rest_of_not_malformed {b : List α} (h : C.malformed (C.split b).2 = none) :
    C.cut (C.split b).2 = .more := by
  cases hcut : C.cut (C.split b).2 with
  | more => rfl
  | item n => exact absurd hcut (cut_rest_ne_item b n)
  | bad e => cases h.symm.trans (malformed_eq_some.mpr hcut)

/-- What is malformed stays malformed, however many bytes are added. -/
theorem malformed_append {b : List α} {e : ε} (h : C.malformed (C.split b).2 = some e)
    (c : List α) : C.malformed (C.split (b ++ c)).2 = some e := by
  have hbad := C.bad_append c (malformed_eq_some.mp h)
  have hsplit : C.split ((C.split b).2 ++ c) = ([], (C.split b).2 ++ c) :=
    split_of_not_item fun n hn ↦ by cases hbad.symm.trans hn
  rw [split_append, hsplit]
  exact malformed_eq_some.mpr hbad

theorem malformed_of_append {b c : List α} (h : C.malformed (C.split (b ++ c)).2 = none) :
    C.malformed (C.split b).2 = none := by
  cases hb : C.malformed (C.split b).2 with
  | none => rfl
  | some e => exact absurd (h.symm.trans (malformed_append hb c)) nofun

/-- **However the stream is cut up**, the error is that of the stream, and the items handed out are
the first of the stream: all of them, unless there is an error. -/
theorem batches_spec {b : List α} (hb : C.cut b = .more) (cs : List (List α)) :
    (C.batches b cs).2 = C.malformed (C.split (b ++ cs.flatten)).2 ∧
      (C.batches b cs).1.flatten <+: (C.split (b ++ cs.flatten)).1 ∧
      ((C.batches b cs).2 = none →
        (C.batches b cs).1.flatten = (C.split (b ++ cs.flatten)).1) := by
  induction cs generalizing b with
  | nil =>
    rw [List.flatten_nil, List.append_nil, split_of_more hb]
    refine ⟨?_, List.nil_prefix, fun _ ↦ rfl⟩
    rw [batches, malformed, hb]
  | cons c cs ih =>
    rw [List.flatten_cons, ← List.append_assoc, split_append, batches]
    cases hbad : C.malformed (C.split (b ++ c)).2 with
    | some e =>
      -- what comes later does not mend the buffer
      have hlater := malformed_append hbad cs.flatten
      rw [split_append] at hlater
      exact ⟨hlater.symm, List.nil_prefix, fun h ↦ by cases h⟩
    | none =>
      obtain ⟨herror, hprefix, hall⟩ := ih (cut_rest_of_not_malformed hbad)
      refine ⟨herror, ?_, fun h ↦ ?_⟩
      · rw [List.flatten_cons]
        exact (List.prefix_append_right_inj _).mpr hprefix
      · rw [List.flatten_cons, hall h]

end Cutter
