import AttestP2P.Lib.BigEndian
import Mathlib.Data.List.Basic

/-!
# Buffers

Node's `Buffer`, as the program uses it: slices, fixed-width integers, and text in hexadecimal.

A buffer is the list of its bytes.  `subarray` clamps its bounds as Node's does.  The readers of
integers are for offsets in range: past the end Node throws, and the definitions that may read there
check the length first or model the exception themselves.  Integers are written and read in network
order, by `Lib.BigEndian`, and `maxLength` is the size of the largest buffer there can be.

The lemmas are those that parsers and builders of messages need: a slice of a concatenation, the
length of a slice, an integer that is read where it has been written, and that different bytes have
different hexadecimal texts (`hex_inj`), which is what keeps the keys of the program's maps apart.
-/

set_option autoImplicit false

namespace AttestP2P

/-- A Node `Buffer`, as the list of its bytes. -/
abbrev Buffer := List UInt8

namespace Buffer

/-- `buffer.constants.MAX_LENGTH`, beyond which no buffer is allocated. -/
def maxLength : ℕ := 2 ^ 53 - 1

/-- `buf.subarray(start, stop)`, which ends at the end of the buffer if `stop` is beyond it. -/
def subarray (b : Buffer) (start stop : ℕ) : Buffer := (b.take stop).drop start

/-- `buf.readUInt32BE(offset)`, where the four bytes are in range. -/
def readUInt32BE (b : Buffer) (offset : ℕ) : ℕ :=
  BigEndian.ofBE (b.subarray offset (offset + 4))

/-- `buf.readBigUInt64BE(offset)`, where the eight bytes are in range. -/
def readBigUInt64BE (b : Buffer) (offset : ℕ) : ℕ :=
  BigEndian.ofBE (b.subarray offset (offset + 8))

/-- Four bytes holding `n`, which is below `2 ^ 32`. -/
def uint32BE (n : ℕ) : Buffer := BigEndian.toBE 4 n

/-- Eight bytes holding `n`, which is below `2 ^ 64`. -/
def bigUInt64BE (n : ℕ) : Buffer := BigEndian.toBE 8 n

/-- `buf.toString("hex")`, as a list of characters. -/
def hexChars (b : Buffer) : List Char :=
  b.flatMap fun x ↦ [Nat.digitChar (x.toNat / 16), Nat.digitChar (x.toNat % 16)]

/-- `buf.toString("hex")`: two lower-case digits for each byte. -/
def hex (b : Buffer) : String := String.ofList b.hexChars

/-! ## Slices and integers -/

@[simp] theorem length_uint32BE (n : ℕ) : (uint32BE n).length = 4 := BigEndian.length_toBE 4 n

@[simp] theorem length_bigUInt64BE (n : ℕ) : (bigUInt64BE n).length = 8 := BigEndian.length_toBE 8 n

/-- The slice that a field occupies between what comes before and after it. -/
theorem subarray_append {a b c : Buffer} {start stop : ℕ} (ha : a.length = start)
    (hb : start + b.length = stop) : (a ++ (b ++ c)).subarray start stop = b := by
  subst ha hb
  rw [subarray, ← List.append_assoc, List.take_left' (by simp), List.drop_left]

/-- A slice of a prefix is a slice of the whole. -/
theorem subarray_append_left {b : Buffer} (c : Buffer) {start stop : ℕ} (h : stop ≤ b.length) :
    (b ++ c).subarray start stop = b.subarray start stop := by
  rw [subarray, subarray, List.take_append_of_le_length h]

theorem length_subarray {b : Buffer} {start stop : ℕ} (hstop : stop ≤ b.length) :
    (b.subarray start stop).length = stop - start := by
  rw [subarray, List.length_drop, List.length_take_of_le hstop]

/-- Slices next to each other are one slice. -/
theorem subarray_append_subarray {b : Buffer} {start mid stop : ℕ} (hstart : start ≤ mid)
    (hmid : mid ≤ stop) : b.subarray start mid ++ b.subarray mid stop = b.subarray start stop := by
  have htake : b.take mid = (b.take stop).take mid := by rw [List.take_take, min_eq_left hmid]
  have hdrop : (b.take stop).drop mid = ((b.take stop).drop start).drop (mid - start) := by
    rw [List.drop_drop, Nat.add_sub_cancel' hstart]
  rw [subarray, subarray, subarray, htake, List.drop_take, hdrop, List.take_append_drop]

theorem singleton_getD {b : Buffer} {i : ℕ} (h : i < b.length) :
    [b.getD i 0] = b.subarray i (i + 1) := by
  rw [subarray, List.drop_take, Nat.add_sub_cancel_left, List.drop_eq_getElem_cons h,
    List.getD_eq_getElem?_getD, List.getElem?_eq_getElem h]
  rfl

theorem uint32BE_readUInt32BE {b : Buffer} {offset : ℕ} (h : offset + 4 ≤ b.length) :
    uint32BE (b.readUInt32BE offset) = b.subarray offset (offset + 4) := by
  have hlen : (b.subarray offset (offset + 4)).length = 4 := by
    rw [length_subarray h, Nat.add_sub_cancel_left]
  have hback := BigEndian.toBE_ofBE (b.subarray offset (offset + 4))
  rwa [hlen] at hback

theorem readUInt32BE_append_left {b : Buffer} (c : Buffer) {offset : ℕ}
    (h : offset + 4 ≤ b.length) : (b ++ c).readUInt32BE offset = b.readUInt32BE offset := by
  rw [readUInt32BE, readUInt32BE, subarray_append_left c h]

theorem readUInt32BE_append {a c : Buffer} {n offset : ℕ} (ha : a.length = offset)
    (hn : n < 2 ^ 32) : (a ++ (uint32BE n ++ c)).readUInt32BE offset = n := by
  rw [readUInt32BE, subarray_append ha (by simp), uint32BE, BigEndian.ofBE_toBE hn]

theorem readUInt32BE_lt (b : Buffer) (offset : ℕ) : b.readUInt32BE offset < 2 ^ 32 := by
  have hlen : (b.subarray offset (offset + 4)).length ≤ 4 := by
    rw [subarray, List.length_drop, List.length_take]
    omega
  exact (BigEndian.ofBE_lt _).trans_le (Nat.pow_le_pow_right (by decide) hlen)

theorem readBigUInt64BE_append {a c : Buffer} {n offset : ℕ} (ha : a.length = offset)
    (hn : n < 2 ^ 64) : (a ++ (bigUInt64BE n ++ c)).readBigUInt64BE offset = n := by
  rw [readBigUInt64BE, subarray_append ha (by simp), bigUInt64BE, BigEndian.ofBE_toBE hn]

/-! ## Hexadecimal

Two digits for each byte.  The texts serve as keys, and what matters of them is that different
buffers have different ones, and that no digit is a colon, which separates the parts of a key. -/

theorem digitChar_inj {m n : ℕ} (hm : m < 16) (hn : n < 16)
    (h : Nat.digitChar m = Nat.digitChar n) : m = n := by
  have hall : ∀ a b : Fin 16, Nat.digitChar a = Nat.digitChar b → a = b := by decide
  simpa using hall ⟨m, hm⟩ ⟨n, hn⟩ h

theorem hexChars_inj {a b : Buffer} (h : a.hexChars = b.hexChars) : a = b := by
  induction a generalizing b with
  | nil =>
    cases b with
    | nil => rfl
    | cons y b => simp [hexChars] at h
  | cons x a ih =>
    cases b with
    | nil => simp [hexChars] at h
    | cons y b =>
      simp only [hexChars, List.flatMap_cons, List.cons_append, List.nil_append,
        List.cons.injEq] at h
      obtain ⟨hhigh, hlow, htail⟩ := h
      have hx := x.toNat_lt
      have hy := y.toNat_lt
      have h₁ := digitChar_inj (by omega) (by omega) hhigh
      have h₂ := digitChar_inj (by omega) (by omega) hlow
      have hxy : x = y := by
        rw [← UInt8.toNat_inj]
        omega
      rw [hxy, ih htail]

theorem hex_inj {a b : Buffer} (h : a.hex = b.hex) : a = b :=
  hexChars_inj (by simpa [hex] using congrArg String.toList h)

theorem digit_of_mem_hexChars {b : Buffer} {c : Char} (h : c ∈ b.hexChars) :
    ∃ d : Fin 16, Nat.digitChar d = c := by
  obtain ⟨x, -, hx⟩ := List.mem_flatMap.mp h
  have hlt := x.toNat_lt
  rcases List.mem_pair.mp hx with rfl | rfl
  · exact ⟨⟨x.toNat / 16, by omega⟩, rfl⟩
  · exact ⟨⟨x.toNat % 16, by omega⟩, rfl⟩

theorem colon_notMem_hexChars (b : Buffer) : ':' ∉ b.hexChars := by
  intro h
  have hall : ∀ d : Fin 16, Nat.digitChar d ≠ ':' := by decide
  obtain ⟨d, hd⟩ := digit_of_mem_hexChars h
  exact hall d hd

end Buffer

end AttestP2P
