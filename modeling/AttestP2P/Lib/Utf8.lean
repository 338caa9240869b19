import Mathlib.Data.List.Basic
import Mathlib.Data.List.Infix

/-!
# Decoding UTF-8 that may be malformed

The decoder of the WHATWG Encoding Standard, without its treatment of a byte order mark: what is no
character becomes U+FFFD, one for each maximal part of a character.

The decoder is a machine that takes one byte at a time.  It is between two characters, or inside one
(`Pending`), and then it knows which bytes may come next.  A byte that may not come ends the
character there, with a replacement, and is looked at again as the first one of what follows.

* `decode_encode_append`: text is decoded again, whatever follows it.
* `firsts_le_length_decode`: a string of bytes decodes to a character for each byte that begins one,
  at least, and to one more if it starts in the middle of a character.
* `decode_chunks_iff`: pieces of a text, decoded one by one, make up the text exactly when every cut
  is between two characters.  For the one direction, such pieces are texts themselves; for the
  other, the count of characters shows that a severed one makes the result too long.
-/

set_option autoImplicit false

namespace Utf8

/-- U+FFFD, which stands for bytes that encode no character. -/
def replacement : Char := '\ufffd'

/-- A decoder inside a character: the bits so far, how many bytes are missing, and the bounds of the
next one. -/
structure Pending where
  bits : ℕ
  needed : ℕ
  lower : ℕ
  upper : ℕ
  le_lower : 0x80 ≤ lower
  upper_le : upper ≤ 0xbf

/-- A byte between characters: what is written, and where the decoder is then. -/
def start (b : UInt8) : List Char × Option Pending :=
  let n := b.toNat
  if n ≤ 0x7f then ([Char.ofNat n], none)
  else if 0xc2 ≤ n ∧ n ≤ 0xdf then ([], some ⟨n - 0xc0, 1, 0x80, 0xbf, le_rfl, le_rfl⟩)
  else if 0xe0 ≤ n ∧ n ≤ 0xef then
    ([], some ⟨n - 0xe0, 2, if n = 0xe0 then 0xa0 else 0x80, if n = 0xed then 0x9f else 0xbf,
      by split <;> omega, by split <;> omega⟩)
  else if 0xf0 ≤ n ∧ n ≤ 0xf4 then
    ([], some ⟨n - 0xf0, 3, if n = 0xf0 then 0x90 else 0x80, if n = 0xf4 then 0x8f else 0xbf,
      by split <;> omega, by split <;> omega⟩)
  else ([replacement], none)

/-- The next byte of a character, or one that cuts it short and is then looked at again. -/
def continue_ (p : Pending) (b : UInt8) : List Char × Option Pending :=
  if p.lower ≤ b.toNat ∧ b.toNat ≤ p.upper then
    let bits := p.bits * 64 + (b.toNat - 0x80)
    if p.needed = 1 then ([Char.ofNat bits], none)
    else ([], some ⟨bits, p.needed - 1, 0x80, 0xbf, le_rfl, le_rfl⟩)
  else (replacement :: (start b).1, (start b).2)

def step : Option Pending → UInt8 → List Char × Option Pending
  | none, b => start b
  | some p, b => continue_ p b

def decodeFrom : Option Pending → List UInt8 → List Char
  | none, [] => []
  | some _, [] => [replacement]
  | s, b :: bs => (step s b).1 ++ decodeFrom (step s b).2 bs

def decode (bs : List UInt8) : List Char := decodeFrom none bs

def encode (cs : List Char) : List UInt8 := cs.flatMap String.utf8EncodeChar

theorem toList_toUTF8 (text : String) : text.toUTF8.data.toList = encode text.toList := by
  rw [String.toUTF8_eq_toByteArray]
  conv => lhs; rw [← String.ofList_toList (s := text)]
  rw [String.toByteArray_ofList, List.utf8Encode, List.toList_data_toByteArray, encode]

@[simp] theorem encode_nil : encode [] = [] := rfl

@[simp] theorem encode_append (cs cs' : List Char) : encode (cs ++ cs') = encode cs ++ encode cs' :=
  List.flatMap_append

theorem encode_cons (c : Char) (cs : List Char) :
    encode (c :: cs) = String.utf8EncodeChar c ++ encode cs :=
  List.flatMap_cons

/-! ## Text is decoded again

A character takes one to four bytes, and after the first of them the decoder is inside the character
until the last one has come. -/

section
variable {n : ℕ} {b : UInt8}

theorem toNat_byte (h : n < 256) : (UInt8.ofNat n).toNat = n := by
  rw [UInt8.toNat_ofNat']
  omega

theorem start_one (hb : b.toNat = n) (h : n ≤ 0x7f) : start b = ([Char.ofNat n], none) := by
  simp only [start, hb]
  rw [if_pos h]

theorem start_two (hb : b.toNat = n + 0xc0) (h : 2 ≤ n) (h' : n < 0x20) :
    start b = ([], some ⟨n, 1, 0x80, 0xbf, le_rfl, le_rfl⟩) := by
  simp only [start, hb]
  rw [if_neg (by omega), if_pos (by omega)]
  simp only [Nat.add_sub_cancel]

theorem start_three (hb : b.toNat = n + 0xe0) (h : n < 0x10) :
    start b = ([], some ⟨n, 2, if n = 0 then 0xa0 else 0x80, if n = 13 then 0x9f else 0xbf,
      by split <;> omega, by split <;> omega⟩) := by
  simp only [start, hb]
  rw [if_neg (by omega), if_neg (by omega), if_pos (by omega)]
  simp only [Nat.add_sub_cancel, Nat.add_eq_right, Nat.reduceEqDiff]

theorem start_four (hb : b.toNat = n + 0xf0) (h : n ≤ 4) :
    start b = ([], some ⟨n, 3, if n = 0 then 0x90 else 0x80, if n = 4 then 0x8f else 0xbf,
      by split <;> omega, by split <;> omega⟩) := by
  simp only [start, hb]
  rw [if_neg (by omega), if_neg (by omega), if_neg (by omega), if_pos (by omega)]
  simp only [Nat.add_sub_cancel, Nat.add_eq_right, Nat.reduceEqDiff]

theorem decodeFrom_next {p : Pending} (h : p.lower ≤ n) (h' : n ≤ p.upper) (hn : n < 256)
    (hneeded : p.needed ≠ 1) (bs : List UInt8) :
    decodeFrom (some p) (UInt8.ofNat n :: bs) =
      decodeFrom (some ⟨p.bits * 64 + (n - 0x80), p.needed - 1, 0x80, 0xbf, le_rfl, le_rfl⟩)
        bs := by
  rw [decodeFrom, step, continue_, toNat_byte hn, if_pos ⟨h, h'⟩, if_neg hneeded]
  rfl

theorem decodeFrom_last {p : Pending} (h : p.lower ≤ n) (h' : n ≤ p.upper) (hn : n < 256)
    (hneeded : p.needed = 1) (bs : List UInt8) :
    decodeFrom (some p) (UInt8.ofNat n :: bs) =
      Char.ofNat (p.bits * 64 + (n - 0x80)) :: decodeFrom none bs := by
  rw [decodeFrom, step, continue_, toNat_byte hn, if_pos ⟨h, h'⟩, if_pos hneeded]
  rfl

end

/-- One character is decoded again, whatever bytes follow it. -/
theorem decodeFrom_utf8EncodeChar_append (c : Char) (bs : List UInt8) :
    decodeFrom none (String.utf8EncodeChar c ++ bs) = c :: decodeFrom none bs := by
  have hvalid : c.toNat < 0xd800 ∨ 0xdfff < c.toNat ∧ c.toNat < 0x110000 := c.valid
  have hc : Char.ofNat c.toNat = c := Char.ofNat_toNat c
  rw [String.utf8EncodeChar, show c.val.toNat = c.toNat from rfl]
  generalize c.toNat = v at hvalid hc
  split
  · next h1 =>
    rw [List.singleton_append, decodeFrom, step, start_one (toNat_byte (by omega)) h1, hc]
    rfl
  · next h1 =>
    split
    · next h2 =>
      have hlead : v / 64 % 0x20 + 0xc0 = v / 64 + 0xc0 := by omega
      rw [hlead, List.cons_append, List.singleton_append, decodeFrom, step,
        start_two (toNat_byte (by omega)) (by omega) (by omega), List.nil_append,
        decodeFrom_last (by simp) (by simp; omega) (by omega) rfl]
      rw [show v / 64 * 64 + (v % 0x40 + 0x80 - 0x80) = v by omega, hc]
    · next h2 =>
      split
      · next h3 =>
        have hlead : v / 4096 % 0x10 + 0xe0 = v / 4096 + 0xe0 := by omega
        rw [hlead, List.cons_append, List.cons_append, List.singleton_append, decodeFrom, step,
          start_three (toNat_byte (by omega)) (by omega), List.nil_append,
          decodeFrom_next (by simp only; split <;> omega) (by simp only; split <;> omega)
            (by omega) (by simp),
          decodeFrom_last (by simp) (by simp; omega) (by omega) rfl]
        simp only
        rw [show (v / 4096 * 64 + (v / 64 % 0x40 + 0x80 - 0x80)) * 64 + (v % 0x40 + 0x80 - 0x80) = v
          by omega, hc]
      · next h3 =>
        have hlead : v / 262144 % 0x08 + 0xf0 = v / 262144 + 0xf0 := by omega
        rw [hlead, List.cons_append, List.cons_append, List.cons_append, List.singleton_append,
          decodeFrom, step, start_four (toNat_byte (by omega)) (by omega), List.nil_append,
          decodeFrom_next (by simp only; split <;> omega) (by simp only; split <;> omega)
            (by omega) (by simp),
          decodeFrom_next (by simp) (by simp; omega) (by omega) (by simp),
          decodeFrom_last (by simp) (by simp; omega) (by omega) rfl]
        simp only
        rw [show ((v / 262144 * 64 + (v / 4096 % 0x40 + 0x80 - 0x80)) * 64 +
            (v / 64 % 0x40 + 0x80 - 0x80)) * 64 + (v % 0x40 + 0x80 - 0x80) = v by omega, hc]

/-- **Text is decoded again, whatever follows it**, so that only a cut inside a character can do
harm. -/
theorem decode_encode_append (cs : List Char) (bs : List UInt8) :
    decode (encode cs ++ bs) = cs ++ decode bs := by
  induction cs with
  | nil => rfl
  | cons c cs ih =>
    rw [encode_cons, List.append_assoc, decode, decodeFrom_utf8EncodeChar_append, ← decode, ih]
    rfl

@[simp] theorem decode_encode (cs : List Char) : decode (encode cs) = cs := by
  have h := decode_encode_append cs []
  rwa [List.append_nil, show decode [] = [] from rfl, List.append_nil] at h

/-! ## Bytes that begin a character

Bytes from `0x80` to `0xbf` continue a character, all others begin one.  Each byte that begins one
makes the decoder write something, sooner or later. -/

/-- The byte does not begin a character: it continues one. -/
def IsContinuation (b : UInt8) : Prop := 0x80 ≤ b.toNat ∧ b.toNat ≤ 0xbf

instance (b : UInt8) : Decidable (IsContinuation b) :=
  inferInstanceAs (Decidable (0x80 ≤ b.toNat ∧ b.toNat ≤ 0xbf))

/-- The bytes start in the middle of a character. -/
def Severed (bs : List UInt8) : Prop := ∃ b ∈ bs.head?, IsContinuation b

/-- How many bytes begin a character, which bounds the characters from below. -/
def firsts (bs : List UInt8) : ℕ := bs.countP fun b ↦ ¬IsContinuation b

theorem firsts_cons_of_continuation {b : UInt8} (h : IsContinuation b) (bs : List UInt8) :
    firsts (b :: bs) = firsts bs := by
  simp [firsts, h]

theorem firsts_cons_of_first {b : UInt8} (h : ¬IsContinuation b) (bs : List UInt8) :
    firsts (b :: bs) = firsts bs + 1 := by
  simp [firsts, h]

@[simp] theorem firsts_append (bs bs' : List UInt8) : firsts (bs ++ bs') = firsts bs + firsts bs' :=
  List.countP_append

/-- The first byte of a character begins it, and the others do not. -/
theorem utf8EncodeChar_eq_cons (c : Char) : ∃ b bs, String.utf8EncodeChar c = b :: bs ∧
    ¬IsContinuation b ∧ ∀ x ∈ bs, IsContinuation x := by
  have hvalid : c.toNat < 0xd800 ∨ 0xdfff < c.toNat ∧ c.toNat < 0x110000 := c.valid
  have hnext : ∀ n, IsContinuation (UInt8.ofNat (n % 0x40 + 0x80)) := by
    intro n
    rw [IsContinuation, toNat_byte (by omega)]
    omega
  rw [String.utf8EncodeChar, show c.val.toNat = c.toNat from rfl]
  split
  · refine ⟨_, _, rfl, ?_, nofun⟩
    rw [IsContinuation, toNat_byte (by omega)]
    omega
  · split
    · refine ⟨_, _, rfl, ?_, List.forall_mem_singleton.mpr (hnext _)⟩
      rw [IsContinuation, toNat_byte (by omega)]
      omega
    · split
      · refine ⟨_, _, rfl, ?_, List.forall_mem_cons.mpr
          ⟨hnext _, List.forall_mem_singleton.mpr (hnext _)⟩⟩
        rw [IsContinuation, toNat_byte (by omega)]
        omega
      · refine ⟨_, _, rfl, ?_, List.forall_mem_cons.mpr
          ⟨hnext _, List.forall_mem_cons.mpr ⟨hnext _, List.forall_mem_singleton.mpr (hnext _)⟩⟩⟩
        rw [IsContinuation, toNat_byte (by omega)]
        omega

theorem not_severed_encode (cs : List Char) : ¬Severed (encode cs) := by
  rintro ⟨b, hb, hcontinuation⟩
  cases cs with
  | nil => exact nomatch hb
  | cons c cs =>
    obtain ⟨b', bs, heq, hfirst, -⟩ := utf8EncodeChar_eq_cons c
    rw [encode_cons, heq, List.cons_append, List.head?_cons, Option.mem_some_iff] at hb
    exact hfirst (hb ▸ hcontinuation)

theorem firsts_encode (cs : List Char) : firsts (encode cs) = cs.length := by
  induction cs with
  | nil => rfl
  | cons c cs ih =>
    obtain ⟨b, bs, heq, hfirst, hrest⟩ := utf8EncodeChar_eq_cons c
    have hnone : firsts bs = 0 := List.countP_eq_zero.mpr fun x hx ↦ by simpa using hrest x hx
    rw [encode_cons, heq, firsts_append, firsts_cons_of_first hfirst, hnone, ih, List.length_cons]
    omega

/-- A byte between characters is a character, or nothing yet. -/
theorem start_cases (b : UInt8) : (∃ c, start b = ([c], none)) ∨ ∃ p, start b = ([], some p) := by
  rw [start]
  split
  · exact .inl ⟨_, rfl⟩
  · split
    · exact .inr ⟨_, rfl⟩
    · split
      · exact .inr ⟨_, rfl⟩
      · split
        · exact .inr ⟨_, rfl⟩
        · exact .inl ⟨_, rfl⟩

theorem lt_length_start {b : UInt8} {bs : List UInt8}
    (ihsome : ∀ p, firsts bs < (decodeFrom (some p) bs).length)
    (ihnone : firsts bs ≤ (decodeFrom none bs).length) :
    firsts bs < ((start b).1 ++ decodeFrom (start b).2 bs).length := by
  rcases start_cases b with ⟨c, h⟩ | ⟨p, h⟩
  · rw [h, List.singleton_append, List.length_cons]
    exact Nat.lt_succ_of_le ihnone
  · rw [h]
    exact ihsome p

/-- Inside a character there is one to come. -/
theorem firsts_le_length_decodeFrom (bs : List UInt8) :
    (∀ p, firsts bs < (decodeFrom (some p) bs).length) ∧
      firsts bs ≤ (decodeFrom none bs).length := by
  induction bs with
  | nil => exact ⟨fun _ ↦ Nat.zero_lt_one, le_rfl⟩
  | cons b bs ih =>
    obtain ⟨ihsome, ihnone⟩ := ih
    have hstart := lt_length_start (b := b) ihsome ihnone
    have hle : firsts (b :: bs) ≤ firsts bs + 1 := by
      by_cases h : IsContinuation b
      · rw [firsts_cons_of_continuation h]
        omega
      · rw [firsts_cons_of_first h]
    refine ⟨fun p ↦ ?_, by rw [decodeFrom, step]; omega⟩
    rw [decodeFrom, step, continue_]
    split
    · next hrange =>
      have hcontinuation : IsContinuation b :=
        ⟨p.le_lower.trans hrange.1, hrange.2.trans p.upper_le⟩
      rw [firsts_cons_of_continuation hcontinuation]
      split
      · simpa [Nat.lt_succ_iff] using ihnone
      · exact ihsome _
    · rw [List.cons_append, List.length_cons]
      exact Nat.lt_succ_of_le (hle.trans hstart)

/-- **A character for each byte that begins one.** -/
theorem firsts_le_length_decode (bs : List UInt8) : firsts bs ≤ (decode bs).length :=
  (firsts_le_length_decodeFrom bs).2

/-- Where the bytes start in the middle of a character, there is one more. -/
theorem firsts_lt_length_decode {bs : List UInt8} (h : Severed bs) :
    firsts bs < (decode bs).length := by
  obtain ⟨b, hb, hcontinuation⟩ := h
  obtain ⟨bs', rfl⟩ := List.head?_eq_some_iff.mp hb
  obtain ⟨ihsome, ihnone⟩ := firsts_le_length_decodeFrom bs'
  rw [firsts_cons_of_continuation hcontinuation, decode, decodeFrom, step]
  exact lt_length_start ihsome ihnone

/-! ## Pieces of a text

Where no piece begins inside a character, all pieces are texts.  Where one does, the decoder writes
a replacement before it and one after it, and the result has too many characters. -/

/-- **Cuts that sever no character** are cuts of the text. -/
theorem split_of_not_severed {cs : List Char} {bs bs' : List UInt8} (h : bs ++ bs' = encode cs)
    (hcut : ¬Severed bs') : ∃ cs₁ cs₂, cs = cs₁ ++ cs₂ ∧ bs = encode cs₁ ∧ bs' = encode cs₂ := by
  induction cs generalizing bs with
  | nil =>
    obtain ⟨rfl, rfl⟩ := List.append_eq_nil_iff.mp h
    exact ⟨[], [], rfl, rfl, rfl⟩
  | cons c cs ih =>
    obtain ⟨b, rest, heq, -, hrest⟩ := utf8EncodeChar_eq_cons c
    cases bs with
    | nil => exact ⟨[], c :: cs, rfl, rfl, h⟩
    | cons x bs =>
      rw [encode_cons, heq, List.cons_append, List.cons_append, List.cons.injEq] at h
      obtain ⟨rfl, h⟩ := h
      rcases List.append_eq_append_iff.mp h with ⟨ys, rfl, hys⟩ | ⟨ys, rfl, hys⟩
      · -- the cut is inside the first character, or just behind it
        cases ys with
        | nil =>
          rw [List.append_nil] at heq
          exact ⟨[c], cs, rfl, by rw [encode_cons, heq, encode_nil, List.append_nil], hys⟩
        | cons y ys =>
          exact absurd ⟨y, by rw [hys]; rfl, hrest y (by simp)⟩ hcut
      · obtain ⟨cs₁, cs₂, rfl, rfl, hbs'⟩ := ih hys.symm
        exact ⟨c :: cs₁, cs₂, rfl, by rw [encode_cons, heq, List.cons_append], hbs'⟩

theorem not_severed_flatten {chunks : List (List UInt8)} (h : ∀ bs ∈ chunks, ¬Severed bs) :
    ¬Severed chunks.flatten := by
  induction chunks with
  | nil => exact fun ⟨b, hb, _⟩ ↦ nomatch hb
  | cons bs chunks ih =>
    obtain ⟨hbs, hchunks⟩ := List.forall_mem_cons.mp h
    rw [List.flatten_cons]
    cases bs with
    | nil => exact ih hchunks
    | cons b bs => exact hbs

/-- Pieces that sever no character are decoded to the pieces of the text. -/
theorem decode_chunks_of_not_severed {cs : List Char} {chunks : List (List UInt8)}
    (hchunks : chunks.flatten = encode cs) (h : ∀ bs ∈ chunks, ¬Severed bs) :
    chunks.flatMap decode = cs := by
  induction chunks generalizing cs with
  | nil =>
    rw [← decode_encode cs, ← hchunks]
    rfl
  | cons bs chunks ih =>
    obtain ⟨hbs, hrest⟩ := List.forall_mem_cons.mp h
    obtain ⟨cs₁, cs₂, rfl, rfl, hcs₂⟩ :=
      split_of_not_severed (List.flatten_cons ▸ hchunks) (not_severed_flatten hrest)
    rw [List.flatMap_cons, decode_encode, ih hcs₂ hrest]

/-- Pieces are decoded to a character for each byte that begins one, at least, and to more if they
sever one. -/
theorem not_severed_of_length_le {chunks : List (List UInt8)}
    (h : (chunks.flatMap decode).length ≤ firsts chunks.flatten) : ∀ bs ∈ chunks, ¬Severed bs := by
  have hle : ∀ chunks : List (List UInt8),
      firsts chunks.flatten ≤ (chunks.flatMap decode).length := by
    intro chunks
    induction chunks with
    | nil => exact le_rfl
    | cons bs chunks ih =>
      have hbs := firsts_le_length_decode bs
      rw [List.flatten_cons, firsts_append, List.flatMap_cons, List.length_append]
      omega
  induction chunks with
  | nil => simp
  | cons bs chunks ih =>
    rw [List.flatten_cons, firsts_append, List.flatMap_cons, List.length_append] at h
    have hbs := firsts_le_length_decode bs
    have hchunks := hle chunks
    refine List.forall_mem_cons.mpr ⟨fun hsevered ↦ ?_, ih (by omega)⟩
    have hmore := firsts_lt_length_decode hsevered
    omega

/-- **Pieces of a text, decoded one by one**, make up the text exactly when every cut is between two
characters. -/
theorem decode_chunks_iff {cs : List Char} {chunks : List (List UInt8)}
    (hchunks : chunks.flatten = encode cs) :
    chunks.flatMap decode = cs ↔
      ∀ k, ∃ cs₁ cs₂, cs = cs₁ ++ cs₂ ∧ (chunks.take k).flatten = encode cs₁ := by
  constructor
  · intro h k
    have hlength : (chunks.flatMap decode).length ≤ firsts chunks.flatten := by
      rw [h, hchunks, firsts_encode]
    have hpieces := not_severed_of_length_le hlength
    have hsplit : (chunks.take k).flatten ++ (chunks.drop k).flatten = encode cs := by
      rw [← List.flatten_append, List.take_append_drop, hchunks]
    obtain ⟨cs₁, cs₂, heq, hcs₁, -⟩ := split_of_not_severed hsplit
      (not_severed_flatten fun bs hbs ↦ hpieces bs (List.mem_of_mem_drop hbs))
    exact ⟨cs₁, cs₂, heq, hcs₁⟩
  · intro h
    refine decode_chunks_of_not_severed hchunks fun bs hbs hsevered ↦ ?_
    obtain ⟨k, hk, rfl⟩ := List.getElem_of_mem hbs
    obtain ⟨cs₁, cs₂, rfl, hcs₁⟩ := h k
    have hrest : (chunks.drop k).flatten = encode cs₂ := by
      rw [← List.take_append_drop k chunks, List.flatten_append, hcs₁, encode_append] at hchunks
      exact List.append_cancel_left hchunks
    obtain ⟨b, hb, hcontinuation⟩ := hsevered
    refine not_severed_encode cs₂ ⟨b, ?_, hcontinuation⟩
    rw [← hrest, List.drop_eq_getElem_cons hk, List.flatten_cons, List.head?_append, hb]
    rfl

end Utf8
