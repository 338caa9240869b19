import AttestP2P.Js.Json
import AttestP2P.Lib.OrderedMap

/-!
# Objects used as maps

The file modules keep their tables in plain objects, which inherit from `Object.prototype`: a key
that names one of its properties is found in a table that is empty, and setting `__proto__` sets the
object to inherit from.

* `inheritedNames` are the keys that every table finds.
* A `JsonTable` holds JSON values, and may inherit from one.  `JsonTable.writes` says what is found
  under a key after some properties have been set, and is an instance of `KeyedWrites`.
* `enumerate` is the order of `Object.keys`, `Object.values` and `JSON.stringify`: array indices
  first, in ascending order, and then the other keys as they were added.

That order is why a table that is written and read again need not be the same object, although its
properties are; `enumerate_enumerate` says that it changes no further.
-/

set_option autoImplicit false

namespace AttestP2P

/-- The properties of `Object.prototype`, which every plain object seems to have. -/
def inheritedNames : List String :=
  ["__proto__", "constructor", "hasOwnProperty", "isPrototypeOf", "propertyIsEnumerable",
    "toLocaleString", "toString", "valueOf", "__defineGetter__", "__defineSetter__",
    "__lookupGetter__", "__lookupSetter__"]

/-- The number of an array index, if the key is one in its canonical form. -/
def arrayIndex (key : String) : Option ℕ :=
  key.toNat?.filter fun n ↦ n < 2 ^ 32 - 1 ∧ Nat.repr n = key

/-- The properties of an object in the order in which they are enumerated, from the order in which
they were added. -/
def enumerate {ν : Type} (entries : List (String × ν)) : List (String × ν) :=
  (entries.filter fun e ↦ (arrayIndex e.1).isSome).mergeSort
      (fun e e' ↦ (arrayIndex e.1).getD 0 ≤ (arrayIndex e'.1).getD 0) ++
    entries.filter fun e ↦ (arrayIndex e.1).isNone

section
variable {ν ν' : Type}

/-- A key that is no number is no array index. -/
theorem arrayIndex_eq_none {key : String} (h : ∃ c ∈ key.toList, c.isDigit = false) :
    arrayIndex key = none := by
  obtain ⟨c, hc, hdigit⟩ := h
  rw [arrayIndex, Option.filter_eq_none_iff]
  rintro n - hn
  have hrepr : Nat.repr n = key := (of_decide_eq_true hn).2
  rw [← hrepr, Nat.toList_repr] at hc
  exact absurd (Nat.isDigit_of_mem_toDigits (by decide) (by decide) hc) (by simp [hdigit])

theorem map_enumerate (f : ν → ν') (entries : List (String × ν)) :
    (enumerate entries).map (fun e ↦ (e.1, f e.2)) =
      enumerate (entries.map fun e ↦ (e.1, f e.2)) := by
  have hsort (l : List (String × ν)) : (l.mergeSort fun e e' ↦
      (arrayIndex e.1).getD 0 ≤ (arrayIndex e'.1).getD 0).map (fun e ↦ (e.1, f e.2)) =
        (l.map fun e ↦ (e.1, f e.2)).mergeSort fun e e' ↦
          (arrayIndex e.1).getD 0 ≤ (arrayIndex e'.1).getD 0 :=
    List.map_mergeSort fun _ _ _ _ ↦ rfl
  rw [enumerate, enumerate, List.map_append, hsort, List.filter_map, List.filter_map]
  rfl

/-- Indices in order, and then other keys: such a list is enumerated as it is. -/
theorem enumerate_of_sorted {indices others : List (String × ν)}
    (hindices : ∀ e ∈ indices, (arrayIndex e.1).isSome = true)
    (hothers : ∀ e ∈ others, arrayIndex e.1 = none)
    (hsorted : indices.Pairwise fun e e' ↦ (arrayIndex e.1).getD 0 ≤ (arrayIndex e'.1).getD 0) :
    enumerate (indices ++ others) = indices ++ others := by
  have hsome : (indices ++ others).filter (fun e ↦ (arrayIndex e.1).isSome) = indices := by
    rw [List.filter_append, List.filter_eq_self.mpr hindices, List.filter_eq_nil_iff.mpr,
      List.append_nil]
    intro e he
    simp [hothers e he]
  have hnone : (indices ++ others).filter (fun e ↦ (arrayIndex e.1).isNone) = others := by
    rw [List.filter_append, List.filter_eq_nil_iff.mpr, List.filter_eq_self.mpr, List.nil_append]
    · intro e he
      simp [hothers e he]
    · intro e he
      simpa [Option.isSome_iff_ne_none] using hindices e he
  rw [enumerate, hsome, hnone, List.mergeSort_of_pairwise]
  exact hsorted.imp decide_eq_true

/-- **The order of enumeration** is kept when an object is made anew in that order. -/
theorem enumerate_enumerate (entries : List (String × ν)) :
    enumerate (enumerate entries) = enumerate entries := by
  refine enumerate_of_sorted (fun e he ↦ ?_) (fun e he ↦ ?_) ?_
  · exact (List.mem_filter.mp (List.mem_mergeSort.mp he)).2
  · exact Option.isNone_iff_eq_none.mp (List.mem_filter.mp he).2
  · refine List.Pairwise.imp of_decide_eq_true (List.pairwise_mergeSort (fun a b c hab hbc ↦ ?_)
      (fun a b ↦ ?_) _)
    · exact decide_eq_true ((of_decide_eq_true hab).trans (of_decide_eq_true hbc))
    · simpa using Nat.le_total ..

theorem perm_enumerate (entries : List (String × ν)) : (enumerate entries).Perm entries := by
  have hnot : (fun e : String × ν ↦ (arrayIndex e.1).isNone) = fun e ↦ !(arrayIndex e.1).isSome :=
    funext fun e ↦ (Option.not_isSome _).symm
  rw [enumerate, hnot]
  exact ((List.mergeSort_perm _ _).append_right _).trans (List.filter_append_perm _ entries)

theorem mem_enumerate {entries : List (String × ν)} {e : String × ν} :
    e ∈ enumerate entries ↔ e ∈ entries := (perm_enumerate entries).mem_iff

end

/-- A plain object whose properties are set to JSON values. -/
structure JsonTable where
  own : OrderedMap String Json
  /-- What `__proto__` has been set to. -/
  proto : Option Json

namespace JsonTable

def empty : JsonTable := ⟨.empty, none⟩

/-- `o[key]`, of a key that `Object.prototype` does not have. -/
def get (t : JsonTable) (key : String) : Option Json :=
  if key = "__proto__" then t.proto else (t.own.get? key).or (t.proto.bind (·.get key))

/-- `o[key] = v`, where `v` is an object. -/
def set (t : JsonTable) (key : String) (v : Json) : JsonTable :=
  if key = "__proto__" then { t with proto := some v } else { t with own := t.own.set key v }

/-- What was set last under the key, without what is inherited. -/
def stored (t : JsonTable) (key : String) : Option Json :=
  if key = "__proto__" then t.proto else t.own.get? key

theorem stored_set (t : JsonTable) (e : String × Json) (j : String) :
    (t.set e.1 e.2).stored j = if j = e.1 then some e.2 else t.stored j := by
  rw [stored, stored, set]
  by_cases hproto : e.1 = "__proto__"
  · rw [if_pos hproto, hproto]
    split
    · rfl
    · rfl
  · rw [if_neg hproto]
    by_cases hj : j = "__proto__"
    · rw [if_pos hj, if_pos hj, if_neg fun h ↦ hproto (h.symm.trans hj)]
    · rw [if_neg hj, if_neg hj, OrderedMap.get?_set]

/-- A table, written by setting properties, where the last write of a key wins. -/
def writes : KeyedWrites JsonTable String Json (Option Json) where
  read := stored
  write t e := t.set e.1 e.2
  merge _ _ v := some v
  read_write := stored_set
  merge_idem _ _ _ := rfl

theorem get_eq_stored {t : JsonTable} {key : String} :
    t.get key = (t.stored key).or ((t.stored "__proto__").bind (·.get key)) := by
  have hproto : t.stored "__proto__" = t.proto := if_pos rfl
  rw [get, hproto, stored]
  split
  · cases t.proto with
    | none => rfl
    | some v => rfl
  · rfl

end JsonTable

/-- A key of hexadecimal digits is no property of `Object.prototype`. -/
theorem hex_notMem_inheritedNames (b : Buffer) : b.hex ∉ inheritedNames := by
  intro h
  have hother : ∀ name ∈ inheritedNames,
      (name.toList.any fun c ↦ decide (∀ d : Fin 16, Nat.digitChar d ≠ c)) = true := by decide
  obtain ⟨c, hc, hdigit⟩ := List.any_eq_true.mp (hother _ h)
  rw [Buffer.hex, String.toList_ofList] at hc
  obtain ⟨d, hd⟩ := Buffer.digit_of_mem_hexChars hc
  exact of_decide_eq_true hdigit d hd

end AttestP2P
