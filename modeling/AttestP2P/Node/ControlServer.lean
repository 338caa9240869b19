import AttestP2P.Js.Json
import AttestP2P.Lib.Utf8

/-!
# The body of a control request

`readBody` of `src/node/controlServer.js` puts the text of a request together from its data events.
It decodes each of them on its own, as `b += c` does: a chunk is a buffer, and is turned into a text
before it is added.  A character that is cut in two by the end of a chunk is decoded as two parts,
each of which is replaced.

* `collect_eq_some_iff`: the text is what the chunks are decoded to, if it never gets too long.
  The length is counted in code units of UTF-16, after each event.
* `readBody_iff`: the body of a request resolves to what its text is parsed to, whatever the parser,
  exactly when no data event ends in the middle of a character.

How UTF-8 is decoded, and when decoding the parts is decoding the whole, is in `Lib.Utf8`.
-/

set_option autoImplicit false

namespace AttestP2P

namespace ControlServer

/-- `buffer.toString()`: the text that the bytes are in UTF-8, with a replacement character for what
is none. -/
def toText (c : Buffer) : String := String.ofList (Utf8.decode c)

/-- `text.length`, which counts the code units of UTF-16. -/
def textLength (text : String) : ℕ :=
  (text.toList.map fun c ↦ if c.toNat < 0x10000 then 1 else 2).sum

/-- The handler of `data` events: `b` after all of them, unless the request is destroyed. -/
def collect (limit : ℕ) : String → List Buffer → Option String
  | b, [] => some b
  | b, c :: cs =>
    let b := b ++ toText c
    if textLength b > limit then none else collect limit b cs

/-- `readBody` of a request with these data events: what the promise resolves to, if it does. -/
def readBody (jsonParse : String → Option Json) (limit : ℕ) (chunks : List Buffer) : Option Json :=
  (collect limit "" chunks).map fun b ↦
    if b = "" then .obj [] else (jsonParse b).getD (.obj [])

theorem textLength_append (s t : String) : textLength (s ++ t) = textLength s + textLength t := by
  simp [textLength]

/-- The chunks are decoded one by one, as long as the text is not too long. -/
theorem collect_eq_some_iff {limit : ℕ} {b t : String} {chunks : List Buffer}
    (ht : textLength t ≤ limit) :
    collect limit b chunks = some t ↔ b.toList ++ chunks.flatMap Utf8.decode = t.toList := by
  induction chunks generalizing b with
  | nil =>
    rw [collect, Option.some_inj, List.flatMap_nil, List.append_nil, String.toList_inj]
  | cons c cs ih =>
    have htext : (b ++ toText c).toList = b.toList ++ Utf8.decode c := by
      rw [String.toList_append, toText, String.toList_ofList]
    rw [collect, List.flatMap_cons, ← List.append_assoc, ← htext]
    split
    · next hlong =>
      refine ⟨nofun, fun heq ↦ absurd hlong (Nat.not_lt.mpr ?_)⟩
      have hlength : t = b ++ toText c ++ String.ofList (cs.flatMap Utf8.decode) := by
        rw [← String.toList_inj, String.toList_append, ← heq, String.toList_ofList]
      rw [hlength, textLength_append] at ht
      omega
    · exact ih

/-- No data event ends in the middle of a character of the text. -/
def KeepsCharacters (t : String) (chunks : List Buffer) : Prop :=
  ∀ k, ∃ t₁ t₂, t = t₁ ++ t₂ ∧ (chunks.take k).flatten = Json.utf8 t₁

/-- The same for the characters as a list. -/
theorem keepsCharacters_iff {t : String} {chunks : List Buffer} :
    KeepsCharacters t chunks ↔ ∀ k, ∃ cs₁ cs₂, t.toList = cs₁ ++ cs₂ ∧
      (chunks.take k).flatten = Utf8.encode cs₁ := by
  refine forall_congr' fun k ↦ ⟨fun ⟨t₁, t₂, ht, hk⟩ ↦ ?_, fun ⟨cs₁, cs₂, ht, hk⟩ ↦ ?_⟩
  · refine ⟨t₁.toList, t₂.toList, ?_, hk.trans (Utf8.toList_toUTF8 t₁)⟩
    rw [ht, String.toList_append]
  · refine ⟨String.ofList cs₁, String.ofList cs₂, ?_, ?_⟩
    · rw [← String.toList_inj, ht, String.toList_append, String.toList_ofList, String.toList_ofList]
    · rw [hk, Json.utf8, Utf8.toList_toUTF8, String.toList_ofList]

/-- The text that is handed to the parser is the text of the body where no character is cut. -/
theorem collect_iff {limit : ℕ} {t : String} (ht : textLength t ≤ limit) {chunks : List Buffer}
    (hbody : chunks.flatten = Json.utf8 t) :
    collect limit "" chunks = some t ↔ KeepsCharacters t chunks := by
  rw [collect_eq_some_iff ht, keepsCharacters_iff]
  exact Utf8.decode_chunks_iff (hbody.trans (Utf8.toList_toUTF8 t))

/-- **The body of a request does not depend on chunking where no character is cut.**  Every parser
that takes the text of the body, and not the empty text, has its value returned, if and only if all
data events end between characters. -/
theorem readBody_iff {limit : ℕ} {t : String} (ht : textLength t ≤ limit) {chunks : List Buffer}
    (hbody : chunks.flatten = Json.utf8 t) :
    (∀ jsonParse v, jsonParse "" = none → jsonParse t = some v →
        readBody jsonParse limit chunks = some v) ↔ KeepsCharacters t chunks := by
  rw [← collect_iff ht hbody]
  constructor
  · intro h
    by_cases hempty : t = ""
    · subst hempty
      have hnil : ∀ c ∈ chunks, c = [] := List.flatten_eq_nil_iff.mp hbody
      rw [collect_eq_some_iff ht]
      exact List.flatMap_eq_nil_iff.mpr fun c hc ↦ by rw [hnil c hc]; rfl
    · -- a parser that takes this text only
      have hread := h (fun s ↦ if s = t then some .null else none) .null
        (if_neg (Ne.symm hempty)) (if_pos rfl)
      rw [readBody, Option.map_eq_some_iff] at hread
      obtain ⟨b, hcollect, hvalue⟩ := hread
      by_cases hb : b = t
      · rw [hcollect, hb]
      · simp [hb] at hvalue
  · intro hcollect jsonParse v hnone hparse
    have hne : t ≠ "" := by
      rintro rfl
      exact nomatch hnone.symm.trans hparse
    rw [readBody, hcollect, Option.map_some, if_neg hne, hparse]
    rfl

/-! ### A text with an accent -/

/-- `readBody(req)` without a limit of its own has this one, of 64 MiB. -/
def bodyLimit : ℕ := 64 * 1024 * 1024

/-- `JSON.parse` on two texts, which differ in how a letter of two bytes was decoded. -/
def sampleParse (text : String) : Option Json :=
  if text = "\"é\"" then some (.str "é")
  else if text = "\"\ufffd\ufffd\"" then some (.str "\ufffd\ufffd")
  else none

/-- A data event that ends in the middle of the accented letter. -/
theorem readBody_cut :
    [[0x22, 0xc3], [0xa9, 0x22]].flatten = Json.utf8 "\"é\"" ∧
      sampleParse "\"é\"" = some (.str "é") ∧
        readBody sampleParse bodyLimit [[0x22, 0xc3], [0xa9, 0x22]] ≠ some (.str "é") := by
  have hcollect : collect bodyLimit "" [[0x22, 0xc3], [0xa9, 0x22]] = some "\"\ufffd\ufffd\"" := by
    decide +kernel
  refine ⟨by decide +kernel, if_pos rfl, ?_⟩
  rw [readBody, hcollect]
  simp [sampleParse]

/-- Cut in front of the letter, it is kept. -/
theorem readBody_iff_sample :
    readBody sampleParse bodyLimit [[0x22], [0xc3, 0xa9], [0x22]] = some (.str "é") := by
  refine (readBody_iff (t := "\"é\"") (by decide +kernel) (by decide +kernel)).mpr ?_ sampleParse
    (.str "é") (by simp [sampleParse]) (if_pos rfl)
  intro k
  match k with
  | 0 => exact ⟨"", "\"é\"", rfl, by decide +kernel⟩
  | 1 => exact ⟨"\"", "é\"", by decide +kernel, by decide +kernel⟩
  | 2 => exact ⟨"\"é", "\"", by decide +kernel, by decide +kernel⟩
  | k + 3 => exact ⟨"\"é\"", "", by decide +kernel,
      by rw [List.take_of_length_le (by simp)]; decide +kernel⟩

end ControlServer

end AttestP2P
