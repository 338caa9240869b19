import Mathlib.Algebra.GroupWithZero.Nat
import Mathlib.Data.List.Nodup

/-!
# Insertion-ordered maps

The `Map` of JavaScript: a finite map that is iterated over in the order in which its keys were
first inserted.  Setting a key that is there changes its value and keeps its place; a new key goes
to the end.

An `OrderedMap` carries the proof that no key occurs twice.  Everything else is said through
`get?`: what each operation does to the key it is about, and that it leaves the others alone.  The
lemmas of that form are simp lemmas where they decide the matter, and equations with an `if` where
the keys have to be compared.  Only where the order counts, as it does for a cache that drops its
oldest entry, are the entries themselves looked at.

The section on sums is for measures that add something up over all values.  The last section is
about any state that is read and written by keys (`KeyedWrites`): writes whose order does not
matter.
-/

set_option autoImplicit false

universe u v

/-- A finite map with an order of insertion. -/
structure OrderedMap (κ : Type u) (ν : Type v) where
  /-- The keys and values, oldest first. -/
  entries : List (κ × ν)
  /-- No key occurs twice. -/
  nodup : (entries.map Prod.fst).Nodup

namespace OrderedMap

variable {κ : Type u} {ν : Type v} [DecidableEq κ]

def empty : OrderedMap κ ν := ⟨[], List.nodup_nil⟩

def keys (m : OrderedMap κ ν) : List κ := m.entries.map Prod.fst

def size (m : OrderedMap κ ν) : ℕ := m.entries.length

def get? (m : OrderedMap κ ν) (k : κ) : Option ν := m.entries.lookup k

def has (m : OrderedMap κ ν) (k : κ) : Bool := (m.get? k).isSome

/-- Give the key `k` the value `v` where it stands. -/
def replace (k : κ) (v : ν) (e : κ × ν) : κ × ν := if e.1 = k then (k, v) else e

theorem lookup_cons (e : κ × ν) (l : List (κ × ν)) (j : κ) :
    (e :: l).lookup j = if j = e.1 then some e.2 else l.lookup j := by
  rw [List.lookup_cons]
  by_cases h : j = e.1
  · simp [h]
  · rw [if_neg h, beq_false_of_ne h]

theorem map_fst_replace (k : κ) (v : ν) (l : List (κ × ν)) :
    (l.map (replace k v)).map Prod.fst = l.map Prod.fst := by
  rw [List.map_map]
  refine List.map_congr_left fun e _ ↦ ?_
  rw [Function.comp_apply, replace]
  split
  · next h => exact h.symm
  · rfl

/-- `Map.prototype.set`: the value is replaced in its place, and a new key comes last. -/
def set (m : OrderedMap κ ν) (k : κ) (v : ν) : OrderedMap κ ν :=
  if h : k ∈ m.keys then ⟨m.entries.map (replace k v), by rw [map_fst_replace]; exact m.nodup⟩
  else ⟨m.entries ++ [(k, v)], by
    rw [List.map_append, List.nodup_append]
    refine ⟨m.nodup, List.nodup_singleton _, fun a ha b hb ↦ ?_⟩
    obtain rfl : b = k := List.mem_singleton.mp hb
    rintro rfl
    exact h ha⟩

/-- Keep the entries that satisfy `p`, in their order. -/
def filter (p : κ × ν → Bool) (m : OrderedMap κ ν) : OrderedMap κ ν :=
  ⟨m.entries.filter p, m.nodup.sublist (List.filter_sublist.map Prod.fst)⟩

/-- `Map.prototype.delete`, after which the same key would come last. -/
def delete (m : OrderedMap κ ν) (k : κ) : OrderedMap κ ν := m.filter fun e ↦ e.1 ≠ k

/-- Delete from the oldest entry on, up to the first that does not satisfy `p`. -/
def dropWhile (p : κ × ν → Bool) (m : OrderedMap κ ν) : OrderedMap κ ν :=
  ⟨m.entries.dropWhile p, m.nodup.sublist ((List.dropWhile_sublist p).map Prod.fst)⟩

/-- Delete the oldest entry, which is the one that was first set. -/
def deleteOldest (m : OrderedMap κ ν) : OrderedMap κ ν :=
  ⟨m.entries.tail, m.nodup.sublist ((List.tail_sublist m.entries).map Prod.fst)⟩

/-! ## What the operations do to each key -/

variable {m : OrderedMap κ ν} {j k : κ} {v : ν}

@[simp] theorem get?_empty : (empty : OrderedMap κ ν).get? k = none := rfl

theorem get?_eq_none : m.get? k = none ↔ k ∉ m.keys := by
  rw [get?, keys]
  induction m.entries with
  | nil => simp
  | cons e l ih =>
    rw [lookup_cons, List.map_cons, List.mem_cons]
    by_cases h : k = e.1
    · simp [h]
    · rw [if_neg h, ih, or_iff_right h]

theorem has_iff : m.has k = true ↔ k ∈ m.keys := by
  rw [has, Option.isSome_iff_ne_none, Ne, get?_eq_none, not_not]

theorem lookup_replace (l : List (κ × ν)) :
    (l.map (replace k v)).lookup j = if j = k then (l.lookup k).map fun _ ↦ v else l.lookup j := by
  induction l with
  | nil => simp
  | cons e l ih =>
    rw [List.map_cons, lookup_cons, lookup_cons, lookup_cons, ih, replace]
    by_cases he : e.1 = k
    · rw [if_pos he, if_pos he.symm, he]
      by_cases hj : j = k
      · simp [hj]
      · simp [hj]
    · rw [if_neg he, if_neg (Ne.symm he)]
      by_cases hj : j = k
      · rw [if_pos hj, if_pos hj, hj, if_neg (Ne.symm he)]
      · rw [if_neg hj, if_neg hj]

theorem get?_set : (m.set k v).get? j = if j = k then some v else m.get? j := by
  rw [set]
  split
  · next h =>
    have hsome : (m.entries.lookup k).isSome = true := has_iff.mpr h
    obtain ⟨w, hw⟩ := Option.isSome_iff_exists.mp hsome
    rw [get?, get?, lookup_replace, hw]
    rfl
  · next h =>
    have hnone : m.entries.lookup k = none := get?_eq_none.mpr h
    rw [get?, get?, List.lookup_append, lookup_cons]
    by_cases hj : j = k
    · rw [if_pos hj, hj, hnone, if_pos rfl, Option.none_or]
    · rw [if_neg hj, if_neg hj, List.lookup_nil, Option.or_none]

theorem entries_set_of_notMem (h : k ∉ m.keys) : (m.set k v).entries = m.entries ++ [(k, v)] := by
  rw [set, dif_neg h]

omit [DecidableEq κ] in
theorem eq_of_entries {m m' : OrderedMap κ ν} (h : m.entries = m'.entries) : m = m' := by
  cases m
  cases h
  rfl

theorem entries_set_of_mem (h : k ∈ m.keys) :
    (m.set k v).entries = m.entries.map (replace k v) := by
  rw [set, dif_pos h]

theorem size_set_of_notMem (h : k ∉ m.keys) : (m.set k v).size = m.size + 1 := by
  rw [size, size, entries_set_of_notMem h, List.length_append, List.length_singleton]

theorem size_set_le : (m.set k v).size ≤ m.size + 1 := by
  rw [set, size, size]
  split
  · rw [List.length_map]
    exact Nat.le_succ _
  · exact Nat.le_of_eq List.length_append

@[simp] theorem get?_set_self : (m.set k v).get? k = some v := by rw [get?_set, if_pos rfl]

theorem get?_set_of_ne (h : j ≠ k) : (m.set k v).get? j = m.get? j := by rw [get?_set, if_neg h]

theorem mem_keys_set : j ∈ (m.set k v).keys ↔ j = k ∨ j ∈ m.keys := by
  rw [← has_iff, ← has_iff, has, has, get?_set]
  by_cases h : j = k
  · simp [h]
  · simp [h]

theorem get?_delete : (m.delete k).get? j = if j = k then none else m.get? j := by
  change (m.entries.filter fun e ↦ e.1 ≠ k).lookup j = if j = k then none else m.entries.lookup j
  induction m.entries with
  | nil => simp
  | cons e l ih =>
    rw [List.filter_cons, lookup_cons]
    by_cases he : e.1 = k
    · rw [if_neg (by simpa using he), ih, he]
      by_cases hj : j = k
      · rw [if_pos hj, if_pos hj]
      · rw [if_neg hj, if_neg hj, if_neg hj]
    · rw [if_pos (by simpa using he), lookup_cons, ih]
      by_cases hj : j = k
      · rw [if_pos hj, if_pos hj, hj, if_neg (Ne.symm he)]
      · rw [if_neg hj, if_neg hj]

theorem lookup_filter {p : κ × ν → Bool} {l : List (κ × ν)} (hl : (l.map Prod.fst).Nodup) :
    (l.filter p).lookup j = (l.lookup j).filter fun v ↦ p (j, v) := by
  induction l with
  | nil => rfl
  | cons e l ih =>
    obtain ⟨hnotMem, hrest⟩ := List.nodup_cons.mp hl
    rw [List.filter_cons, lookup_cons]
    by_cases hj : j = e.1
    · subst hj
      rw [if_pos rfl, Option.filter_some]
      split
      · rw [lookup_cons, if_pos rfl]
      · -- no other entry has the key
        rw [List.lookup_eq_none_iff]
        intro x hx
        have hmem := List.mem_map_of_mem (f := Prod.fst) (List.mem_of_mem_filter hx)
        exact bne_iff_ne.mpr fun heq : e.1 = x.1 ↦ hnotMem (heq ▸ hmem)
    · rw [if_neg hj, ← ih hrest]
      split
      · rw [lookup_cons, if_neg hj]
      · rfl

theorem get?_filter {p : κ × ν → Bool} :
    (m.filter p).get? j = (m.get? j).filter fun v ↦ p (j, v) :=
  lookup_filter m.nodup

theorem mem_iff_lookup {e : κ × ν} {l : List (κ × ν)} (hl : (l.map Prod.fst).Nodup) :
    e ∈ l ↔ l.lookup e.1 = some e.2 := by
  induction l with
  | nil => simp
  | cons x l ih =>
    obtain ⟨hnotMem, hrest⟩ := List.nodup_cons.mp hl
    rw [List.mem_cons, lookup_cons]
    by_cases hx : e.1 = x.1
    · rw [if_pos hx, Option.some.injEq]
      constructor
      · rintro (rfl | hmem)
        · rfl
        · exact absurd (hx ▸ List.mem_map_of_mem hmem) hnotMem
      · exact fun h ↦ .inl (Prod.ext hx h.symm)
    · rw [if_neg hx, ← ih hrest]
      exact or_iff_right fun h ↦ hx (congrArg Prod.fst h)

/-- The entries are the keys with their values. -/
theorem mem_entries_iff {e : κ × ν} : e ∈ m.entries ↔ m.get? e.1 = some e.2 :=
  mem_iff_lookup m.nodup

/-- A key is set to the value that it has. -/
theorem set_eq_self (h : m.get? k = some v) : m.set k v = m := by
  have hk : k ∈ m.keys := has_iff.mp (Option.isSome_of_eq_some h)
  refine eq_of_entries ?_
  rw [entries_set_of_mem hk]
  refine (List.map_congr_left fun e he ↦ ?_).trans (List.map_id _)
  rw [replace]
  split
  · next hek =>
    have hget := mem_entries_iff.mp he
    rw [hek, h] at hget
    exact Prod.ext hek.symm (Option.some.inj hget)
  · rfl

theorem replace_replace (v w : ν) (e : κ × ν) : replace k w (replace k v e) = replace k w e := by
  by_cases he : e.1 = k
  · have hv : replace k v e = (k, v) := if_pos he
    rw [hv, replace, replace, if_pos rfl, if_pos he]
  · have hv : replace k v e = e := if_neg he
    rw [hv]

theorem map_replace_of_notMem (h : k ∉ m.keys) : m.entries.map (replace k v) = m.entries := by
  refine (List.map_congr_left fun e he ↦ ?_).trans (List.map_id _)
  have hne : e.1 ≠ k := by
    rintro rfl
    exact h (List.mem_map_of_mem he)
  exact if_neg hne

/-- Of two values that a key is set to, the second stays. -/
theorem set_set (w : ν) : (m.set k v).set k w = m.set k w := by
  have hk : k ∈ (m.set k v).keys := mem_keys_set.mpr (.inl rfl)
  refine eq_of_entries ?_
  rw [entries_set_of_mem hk]
  by_cases hmem : k ∈ m.keys
  · rw [entries_set_of_mem hmem, entries_set_of_mem hmem, List.map_map]
    exact List.map_congr_left fun e _ ↦ replace_replace v w e
  · rw [entries_set_of_notMem hmem, entries_set_of_notMem hmem, List.map_append,
      map_replace_of_notMem hmem, List.map_singleton, replace, if_pos rfl]

/-- A key that is not there is deleted. -/
theorem delete_eq_self (h : m.get? k = none) : m.delete k = m := by
  refine eq_of_entries (List.filter_eq_self.mpr fun e he ↦ decide_eq_true fun hek ↦ ?_)
  have hget := mem_entries_iff.mp he
  rw [hek, h] at hget
  exact nomatch hget

omit [DecidableEq κ] in
theorem size_filter_le {p : κ × ν → Bool} : (m.filter p).size ≤ m.size := List.length_filter_le _ _

omit [DecidableEq κ] in
theorem mem_keys_of_dropWhile {p : κ × ν → Bool} (h : j ∈ (m.dropWhile p).keys) : j ∈ m.keys :=
  ((List.dropWhile_sublist p).map Prod.fst).subset h

omit [DecidableEq κ] in
theorem mem_keys_of_deleteOldest (h : j ∈ m.deleteOldest.keys) : j ∈ m.keys :=
  ((List.tail_sublist m.entries).map Prod.fst).subset h

/-! ## Sums over the values -/

/-- The sum over all values of what `g` makes of them. -/
def sum (m : OrderedMap κ ν) (g : ν → ℕ) : ℕ := (m.entries.map fun e ↦ g e.2).sum

/-- A value that is replaced makes way for another one. -/
theorem sum_set {g : ν → ℕ} {w : ν} (h : m.get? k = some v) :
    (m.set k w).sum g + g v = m.sum g + g w := by
  have hk : k ∈ m.keys := has_iff.mp (Option.isSome_of_eq_some h)
  have hnodup := m.nodup
  rw [set, dif_pos hk, sum, sum]
  rw [get?] at h
  dsimp only
  generalize m.entries = l at h hnodup
  induction l with
  | nil => cases h
  | cons e l ih =>
    obtain ⟨hnotMem, hnodup⟩ := List.nodup_cons.mp hnodup
    rw [lookup_cons] at h
    rw [List.map_cons, List.map_cons, List.map_cons, List.sum_cons, List.sum_cons, replace]
    split at h
    · next he =>
      obtain rfl := Option.some.inj h
      have hrest : l.map (replace k w) = l :=
        map_replace_of_notMem (m := ⟨l, hnodup⟩) (by exact he ▸ hnotMem)
      rw [if_pos he.symm, hrest]
      dsimp only
      omega
    · next he =>
      have hrest := ih h hnodup
      rw [if_neg (Ne.symm he)]
      omega

theorem sum_delete {g : ν → ℕ} (h : m.get? k = some v) :
    (m.delete k).sum g + g v = m.sum g := by
  have hnodup := m.nodup
  rw [delete, filter, sum, sum]
  rw [get?] at h
  dsimp only
  generalize m.entries = l at h hnodup
  induction l with
  | nil => cases h
  | cons e l ih =>
    obtain ⟨hnotMem, hnodup⟩ := List.nodup_cons.mp hnodup
    rw [lookup_cons] at h
    rw [List.filter_cons, List.map_cons, List.sum_cons]
    split at h
    · next he =>
      obtain rfl := Option.some.inj h
      have hrest : l.filter (fun e ↦ e.1 ≠ k) = l := List.filter_eq_self.mpr fun x hx ↦
        decide_eq_true fun hxk ↦ hnotMem (List.mem_map.mpr ⟨x, hx, hxk.trans he⟩)
      rw [if_neg (by simp [he]), hrest]
      omega
    · next he =>
      have hrest := ih h hnodup
      rw [if_pos (by simp [Ne.symm he]), List.map_cons, List.sum_cons]
      omega

end OrderedMap

/-! ## Writes in any order

A state is read by keys, and a write changes what is read under its own key, or is absorbed where
another one has been before.  If no two writes of a list differ about a key, their order is of no
consequence. -/

/-- A state that is written key by key: what is read under a key after a write is what was read
before, merged with the value when the write is to that key. -/
structure KeyedWrites (σ : Type u) (κ ν τ : Type v) [DecidableEq κ] where
  read : σ → κ → τ
  write : σ → κ × ν → σ
  merge : κ → τ → ν → τ
  read_write : ∀ s e j, read (write s e) j = if j = e.1 then merge j (read s j) e.2 else read s j
  merge_idem : ∀ j o v, merge j (merge j o v) v = merge j o v

namespace KeyedWrites

variable {σ : Type u} {κ ν τ : Type v} [DecidableEq κ] (w : KeyedWrites σ κ ν τ)

/-- Writes that make no difference to a key leave what is read there. -/
theorem read_foldl_of_absorbed {l : List (κ × ν)} {s : σ} {j : κ}
    (h : ∀ v, (j, v) ∈ l → w.merge j (w.read s j) v = w.read s j) :
    w.read (l.foldl w.write s) j = w.read s j := by
  induction l generalizing s with
  | nil => rfl
  | cons e l ih =>
    have hhead : w.read (w.write s e) j = w.read s j := by
      rw [w.read_write]
      split
      · next hj =>
        subst hj
        exact h e.2 List.mem_cons_self
      · rfl
    rw [List.foldl_cons, ih fun v hv ↦ ?_, hhead]
    rw [hhead]
    exact h v (List.mem_cons_of_mem _ hv)

/-- A key that is always written with the same value ends up with it, once or many times. -/
theorem read_foldl_of_mem {l : List (κ × ν)} {s : σ} {j : κ} {v : ν} (hmem : (j, v) ∈ l)
    (hsame : ∀ v', (j, v') ∈ l → v' = v) :
    w.read (l.foldl w.write s) j = w.merge j (w.read s j) v := by
  induction l generalizing s with
  | nil => exact absurd hmem List.not_mem_nil
  | cons e l ih =>
    have hrest : ∀ v', (j, v') ∈ l → v' = v := fun v' hv' ↦ hsame v' (List.mem_cons_of_mem _ hv')
    rw [List.foldl_cons]
    by_cases hj : j = e.1
    · obtain rfl : e.2 = v := hsame e.2 (by rw [hj]; exact List.mem_cons_self)
      have hhead : w.read (w.write s e) j = w.merge j (w.read s j) e.2 := by
        rw [w.read_write, if_pos hj]
      rw [w.read_foldl_of_absorbed fun v' hv' ↦ ?_, hhead]
      rw [hhead, hrest v' hv', w.merge_idem]
    · have hl : (j, v) ∈ l := by
        rcases List.mem_cons.mp hmem with rfl | hl
        · exact absurd rfl hj
        · exact hl
      rw [ih hl hrest, w.read_write, if_neg hj]

/-- **The same writes in any order.** Two lists of writes with the same members, in which no key has
two values, leave the same behind. -/
theorem read_foldl_congr {l₁ l₂ : List (κ × ν)} (hmem : ∀ e, e ∈ l₁ ↔ e ∈ l₂)
    (hsame : ∀ j v v', (j, v) ∈ l₁ → (j, v') ∈ l₁ → v' = v) (s : σ) (j : κ) :
    w.read (l₁.foldl w.write s) j = w.read (l₂.foldl w.write s) j := by
  by_cases h : ∃ v, (j, v) ∈ l₁
  · obtain ⟨v, hv⟩ := h
    rw [w.read_foldl_of_mem hv fun v' hv' ↦ hsame j v v' hv hv',
      w.read_foldl_of_mem ((hmem _).mp hv) fun v' hv' ↦ hsame j v v' hv ((hmem _).mpr hv')]
  · have h₁ : ∀ v, (j, v) ∉ l₁ := fun v hv ↦ h ⟨v, hv⟩
    rw [w.read_foldl_of_absorbed fun v hv ↦ absurd hv (h₁ v),
      w.read_foldl_of_absorbed fun v hv ↦ absurd ((hmem _).mpr hv) (h₁ v)]

end KeyedWrites
