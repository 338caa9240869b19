import AttestP2P.Js.Json
import AttestP2P.Js.NumberText

/-!
# What a JSON text determines

Values with strings as JavaScript has them, sequences of 16-bit code units in which surrogates may
be alone, and what `JSON.stringify` makes of them.  `Json` is the part of them whose strings are
text (`ofJson`, `text_ofJson`).

* `blur` replaces the numbers that JSON does not know, which `JSON.stringify` writes as `null`.
* `text_append_inj`: a text that is followed by no numeral is the text of one blurred value only,
  and ends where the value ends.  It is proved along the value; strings are read code point by code
  point (`readPoint_quotePoint`), numbers up to the first character that is no numeral.
* `text_eq_iff`: values have one text if and only if they are blurred to one value.
-/

set_option autoImplicit false

namespace AttestP2P

/-- A string, as its UTF-16 code units, which need not be text. -/
abbrev JsString := List UInt16

/-- A JSON value; the fields of an object are in the order in which they are enumerated. -/
inductive JsonValue where
  | null
  | bool (b : Bool)
  | num (n : Number)
  | str (s : JsString)
  | arr (xs : List JsonValue)
  | obj (fields : List (JsString × JsonValue))

/-- The code units of a text, as JavaScript stores it. -/
def JsString.of (s : String) : JsString := Utf16.ofText s.toList

namespace JsonValue

open Utf16 (Point points)

/-! ## `JSON.stringify` -/

/-- A number below `2 ^ 16`, in hexadecimal. -/
def hex4 (n : ℕ) : List Char :=
  [Nat.digitChar (n / 4096), Nat.digitChar (n / 256 % 16), Nat.digitChar (n / 16 % 16),
    Nat.digitChar (n % 16)]

/-- One code point of a quoted string; a surrogate without its partner is escaped. -/
def quotePoint : Point → List Char
  | .char c => Json.quoteChar c
  | .lone u _ => '\\' :: 'u' :: hex4 u.toNat

def quote (s : JsString) : List Char := '"' :: ((points s).flatMap quotePoint ++ ['"'])

mutual

/-- `JSON.stringify(v)`. -/
def text : JsonValue → List Char
  | .null => ['n', 'u', 'l', 'l']
  | .bool b => if b then ['t', 'r', 'u', 'e'] else ['f', 'a', 'l', 's', 'e']
  | .num n =>
    match n with
    | .finite q => (Number.toString (.finite q)).toList
    | _ => ['n', 'u', 'l', 'l']
  | .str s => quote s
  | .arr xs => '[' :: ([','].intercalate (texts xs) ++ [']'])
  | .obj fields => '\x7b' :: ([','].intercalate (fieldTexts fields) ++ ['\x7d'])

def texts : List JsonValue → List (List Char)
  | [] => []
  | x :: xs => x.text :: texts xs

def fieldTexts : List (JsString × JsonValue) → List (List Char)
  | [] => []
  | (key, v) :: fields => (quote key ++ ':' :: v.text) :: fieldTexts fields

end

mutual

/-- The value with `null` for every number that is not finite. -/
def blur : JsonValue → JsonValue
  | .null => .null
  | .bool b => .bool b
  | .num n =>
    match n with
    | .finite q => .num (.finite q)
    | _ => .null
  | .str s => .str s
  | .arr xs => .arr (blurItems xs)
  | .obj fields => .obj (blurFields fields)

def blurItems : List JsonValue → List JsonValue
  | [] => []
  | x :: xs => x.blur :: blurItems xs

def blurFields : List (JsString × JsonValue) → List (JsString × JsonValue)
  | [] => []
  | (key, v) :: fields => (key, v.blur) :: blurFields fields

end

mutual

/-- `JSON.parse` may return the value: its numbers are doubles, infinite or not. -/
def Parsed : JsonValue → Prop
  | .null => True
  | .bool _ => True
  | .num n =>
    match n with
    | .nan => False
    | .infinity _ => True
    | .finite q => Number.IsDouble q
  | .str _ => True
  | .arr xs => ParsedItems xs
  | .obj fields => ParsedFields fields

def ParsedItems : List JsonValue → Prop
  | [] => True
  | x :: xs => x.Parsed ∧ ParsedItems xs

def ParsedFields : List (JsString × JsonValue) → Prop
  | [] => True
  | (_, v) :: fields => v.Parsed ∧ ParsedFields fields

end

/-- What a decimal is rounded to is a number of a parsed value. -/
theorem parsed_round (q : ℚ) : (JsonValue.num (Number.round q)).Parsed := by
  cases h : Number.round q with
  | nan =>
    rw [Number.round_eq] at h
    simp only at h
    split at h <;> exact nomatch h
  | infinity negative => trivial
  | finite r => exact Number.isDouble_of_round h

/-! ## Numbers that JSON does not know

Infinities and NaN are written as `null`.  Blurring a value first makes no difference to its text,
and of blurred values the text is injective. -/

mutual

/-- The numbers of the value are finite doubles. -/
def Plain : JsonValue → Prop
  | .null => True
  | .bool _ => True
  | .num n =>
    match n with
    | .finite q => Number.IsDouble q
    | _ => False
  | .str _ => True
  | .arr xs => PlainItems xs
  | .obj fields => PlainFields fields

def PlainItems : List JsonValue → Prop
  | [] => True
  | x :: xs => x.Plain ∧ PlainItems xs

def PlainFields : List (JsString × JsonValue) → Prop
  | [] => True
  | (_, v) :: fields => v.Plain ∧ PlainFields fields

end

mutual

theorem plain_blur : ∀ {v : JsonValue}, v.Parsed → v.blur.Plain
  | .null, _ => trivial
  | .bool _, _ => trivial
  | .num n, h => by
    cases n with
    | nan => exact h.elim
    | infinity negative => trivial
    | finite q => exact h
  | .str _, _ => trivial
  | .arr _, h => plainItems_blur h
  | .obj _, h => plainFields_blur h

theorem plainItems_blur : ∀ {xs : List JsonValue}, ParsedItems xs → PlainItems (blurItems xs)
  | [], _ => trivial
  | _ :: _, h => ⟨plain_blur h.1, plainItems_blur h.2⟩

theorem plainFields_blur : ∀ {fields : List (JsString × JsonValue)}, ParsedFields fields →
    PlainFields (blurFields fields)
  | [], _ => trivial
  | (_, _) :: _, h => ⟨plain_blur h.1, plainFields_blur h.2⟩

end

mutual

/-- The text does not tell a value from the blurred one. -/
theorem text_blur : ∀ v : JsonValue, v.blur.text = v.text
  | .null => rfl
  | .bool _ => rfl
  | .num n => by cases n <;> rfl
  | .str _ => rfl
  | .arr xs => by rw [blur, text, text, texts_blurItems]
  | .obj fields => by rw [blur, text, text, fieldTexts_blurFields]

theorem texts_blurItems : ∀ xs : List JsonValue, texts (blurItems xs) = texts xs
  | [] => rfl
  | x :: xs => by rw [blurItems, texts, texts, text_blur, texts_blurItems]

theorem fieldTexts_blurFields : ∀ fields : List (JsString × JsonValue),
    fieldTexts (blurFields fields) = fieldTexts fields
  | [] => rfl
  | (key, v) :: fields => by
    rw [blurFields, fieldTexts, fieldTexts, text_blur, fieldTexts_blurFields]

end

/-! ## Reading strings

A reader for one code point, which is the inverse of writing it.  Escapes, surrogates and plain
characters begin differently, so the reader knows from the first characters what it has before it.
-/

/-- The value of four hexadecimal digits, as they follow `\u`. -/
def readHex4 (a b c d : Char) : ℕ :=
  ((Json.hexDigit a).getD 0 * 4096 + (Json.hexDigit b).getD 0 * 256 +
    (Json.hexDigit c).getD 0 * 16 + (Json.hexDigit d).getD 0)

/-- The code point of an escape sequence, and what follows it. -/
def readEscape : List Char → Option (Point × List Char)
  | 'u' :: a :: b :: c :: d :: r => some (Utf16.single (UInt16.ofNat (readHex4 a b c d)), r)
  | 'b' :: r => some (.char '\x08', r)
  | 'f' :: r => some (.char '\x0c', r)
  | 'n' :: r => some (.char '\n', r)
  | 'r' :: r => some (.char '\r', r)
  | 't' :: r => some (.char '\t', r)
  | c :: r => some (.char c, r)
  | [] => none

/-- The first code point of what stands between the quotes. -/
def readPoint : List Char → Option (Point × List Char)
  | [] => none
  | c :: r => if c = '\\' then readEscape r else some (.char c, r)

theorem hexDigit_digitChar {d : ℕ} (h : d < 16) : Json.hexDigit (Nat.digitChar d) = some d := by
  have hall : ∀ d : Fin 16, Json.hexDigit (Nat.digitChar d) = some d.val := by decide
  exact hall ⟨d, h⟩

theorem readHex4_hex4 {n : ℕ} (h : n < 0x10000) :
    readHex4 (Nat.digitChar (n / 4096)) (Nat.digitChar (n / 256 % 16))
      (Nat.digitChar (n / 16 % 16)) (Nat.digitChar (n % 16)) = n := by
  rw [readHex4, hexDigit_digitChar (by omega), hexDigit_digitChar (by omega),
    hexDigit_digitChar (by omega), hexDigit_digitChar (by omega)]
  simp only [Option.getD_some]
  omega

/-- **A code point is read back**, whatever follows it. -/
theorem readPoint_quotePoint (p : Point) (r : List Char) :
    readPoint (quotePoint p ++ r) = some (p, r) := by
  cases p with
  | lone u h =>
    have hread := readHex4_hex4 u.toNat_lt
    have hsingle : Utf16.single u = .lone u h := dif_pos h
    show some (Utf16.single (UInt16.ofNat (readHex4 _ _ _ _)), r) = _
    rw [hread, UInt16.ofNat_toNat, hsingle]
  | char c =>
    rw [quotePoint, Json.quoteChar]
    split_ifs with hquote hslash hb hf hn hr ht hcontrol
    · rw [hquote]; rfl
    · rw [hslash]; rfl
    · rw [hb]; rfl
    · rw [hf]; rfl
    · rw [hn]; rfl
    · rw [hr]; rfl
    · rw [ht]; rfl
    · -- a control character
      have hread : readHex4 '0' '0' (Nat.digitChar (c.toNat / 16)) (Nat.digitChar (c.toNat % 16)) =
          c.toNat := by
        have h := readHex4_hex4 (n := c.toNat) (by omega)
        rwa [show c.toNat / 4096 = 0 by omega, show c.toNat / 256 % 16 = 0 by omega,
          Nat.mod_eq_of_lt (a := c.toNat / 16) (by omega)] at h
      have hsingle : Utf16.single (UInt16.ofNat c.toNat) = .char c := by
        have hunit := Utf16.toNat_unit (n := c.toNat) (by omega)
        rw [Utf16.single, dif_neg, hunit, Char.ofNat_toNat]
        rw [Utf16.IsSurrogate, hunit]
        omega
      show some (Utf16.single (UInt16.ofNat (readHex4 _ _ _ _)), r) = _
      rw [hread, hsingle]
    · rw [List.singleton_append, readPoint, if_neg hslash]

/-- What is quoted does not start with the closing quote. -/
theorem quotePoint_append_ne_quote (p : Point) (r r' : List Char) :
    quotePoint p ++ r ≠ '"' :: r' := by
  intro h
  have hread := readPoint_quotePoint p r
  rw [h, readPoint, if_neg (by decide), Option.some_inj, Prod.mk.injEq] at hread
  obtain ⟨rfl, rfl⟩ := hread
  have hlength := congrArg List.length h
  simp [quotePoint, Json.quoteChar] at hlength

theorem quotePoints_inj {ps ps' : List Point} {r r' : List Char}
    (h : ps.flatMap quotePoint ++ '"' :: r = ps'.flatMap quotePoint ++ '"' :: r') :
    ps = ps' ∧ r = r' := by
  induction ps generalizing ps' with
  | nil =>
    cases ps' with
    | nil => exact ⟨rfl, (List.cons.inj h).2⟩
    | cons p' ps' =>
      rw [List.flatMap_cons, List.append_assoc] at h
      exact absurd h.symm (quotePoint_append_ne_quote p' _ r)
  | cons p ps ih =>
    rw [List.flatMap_cons, List.append_assoc] at h
    cases ps' with
    | nil => exact absurd h (quotePoint_append_ne_quote p _ r')
    | cons p' ps' =>
      rw [List.flatMap_cons, List.append_assoc] at h
      have hread := congrArg readPoint h
      rw [readPoint_quotePoint, readPoint_quotePoint, Option.some_inj, Prod.mk.injEq] at hread
      obtain ⟨hpoints, hrest⟩ := ih hread.2
      exact ⟨by rw [hread.1, hpoints], hrest⟩

/-- **A quoted string is read back**, whatever follows it. -/
theorem quote_append_inj {s s' : JsString} {r r' : List Char} (h : quote s ++ r = quote s' ++ r') :
    s = s' ∧ r = r' := by
  rw [quote, quote, List.cons_append, List.cons_append, List.append_assoc, List.append_assoc] at h
  obtain ⟨hpoints, hrest⟩ := quotePoints_inj (List.cons.inj h).2
  exact ⟨Utf16.points_inj hpoints, hrest⟩

/-! ## Reading values

No parser is written for values.  It is enough that texts of different kinds begin with different
characters, and that a text that goes on differs from one that has ended. -/

/-- No numeral goes on here: the next character, if any, is no part of one. -/
def Stops (r : List Char) : Prop := ∀ c ∈ r.head?, ¬Number.IsNumeral c

theorem Stops.cons {c : Char} (h : ¬Number.IsNumeral c) (r : List Char) : Stops (c :: r) := by
  intro c' hc'
  rwa [← Option.mem_some_iff.mp hc']

/-- A run of numerals ends where they end. -/
theorem numerals_append_inj {s s' r r' : List Char} (hs : ∀ c ∈ s, Number.IsNumeral c)
    (hs' : ∀ c ∈ s', Number.IsNumeral c) (hr : Stops r) (hr' : Stops r') (h : s ++ r = s' ++ r') :
    s = s' ∧ r = r' := by
  have htake : ∀ {s r : List Char}, (∀ c ∈ s, Number.IsNumeral c) → Stops r →
      (s ++ r).takeWhile (fun c ↦ decide (Number.IsNumeral c)) = s := by
    intro s r hs hr
    rw [List.takeWhile_append_of_pos fun c hc ↦ decide_eq_true (hs c hc)]
    cases r with
    | nil => rw [List.takeWhile_nil, List.append_nil]
    | cons c r =>
      rw [List.takeWhile_cons_of_neg (by simpa using hr c rfl), List.append_nil]
  have heq := congrArg (List.takeWhile fun c ↦ decide (Number.IsNumeral c)) h
  rw [htake hs hr, htake hs' hr'] at heq
  subst heq
  exact ⟨rfl, List.append_cancel_left h⟩

/-- What the first character of a text says about the value; no text starts with a bracket that
closes. -/
def kindOf (c : Char) : ℕ :=
  if c = 'n' then 0 else if c = 't' then 1 else if c = 'f' then 2 else if c = '"' then 3
  else if c = '[' then 4 else if c = '\x7b' then 5 else if c = ']' then 7 else 6

def kind : JsonValue → ℕ
  | .null => 0
  | .bool b => if b then 1 else 2
  | .num _ => 6
  | .str _ => 3
  | .arr _ => 4
  | .obj _ => 5

theorem kindOf_of_isNumeral {c : Char} (h : Number.IsNumeral c) : kindOf c = 6 := by
  have hne : ∀ d : Char, ¬Number.IsNumeral d → c ≠ d := fun d hd heq ↦ hd (heq ▸ h)
  rw [kindOf, if_neg (hne _ (by decide)), if_neg (hne _ (by decide)), if_neg (hne _ (by decide)),
    if_neg (hne _ (by decide)), if_neg (hne _ (by decide)), if_neg (hne _ (by decide)),
    if_neg (hne _ (by decide))]

theorem text_eq_cons {v : JsonValue} (hv : v.Plain) :
    ∃ c cs, v.text = c :: cs ∧ kindOf c = v.kind := by
  cases v with
  | null => exact ⟨_, _, rfl, rfl⟩
  | bool b => cases b <;> exact ⟨_, _, rfl, rfl⟩
  | num n =>
    cases n with
    | finite q =>
      have hnumerals := Number.isNumeral_of_mem_toString (q := q)
      have hne : (Number.toString (.finite q)).toList ≠ [] := by
        rcases Number.toList_toString q with ⟨-, h⟩ | ⟨-, h⟩ | ⟨-, h⟩
        · simp [h]
        · obtain ⟨c, cs, hcons, -⟩ := Number.head_positiveToString q
          simp [h, hcons]
        · simp [h]
      obtain ⟨c, cs, hcons⟩ := List.exists_cons_of_ne_nil hne
      exact ⟨c, cs, hcons, kindOf_of_isNumeral (hnumerals c (hcons ▸ List.mem_cons_self))⟩
    | _ => exact hv.elim
  | str s => exact ⟨_, _, rfl, rfl⟩
  | arr xs => exact ⟨_, _, rfl, rfl⟩
  | obj fields => exact ⟨_, _, rfl, rfl⟩

theorem kind_eq_of_text_append_eq {v w : JsonValue} (hv : v.Plain) (hw : w.Plain) {r r' : List Char}
    (h : v.text ++ r = w.text ++ r') : v.kind = w.kind := by
  obtain ⟨c, cs, htext, hkind⟩ := text_eq_cons hv
  obtain ⟨c', cs', htext', hkind'⟩ := text_eq_cons hw
  rw [htext, htext'] at h
  rw [← hkind, ← hkind', (List.cons.inj h).1]

theorem intercalate_cons (t : List Char) (ts : List (List Char)) :
    [','].intercalate (t :: ts) = t ++ ts.flatMap (',' :: ·) := by
  induction ts generalizing t with
  | nil => simp [List.intercalate]
  | cons t' ts ih => rw [List.intercalate_cons_cons, ih, List.flatMap_cons]; simp

theorem stops_of_more (ts : List (List Char)) {c : Char} (hc : ¬Number.IsNumeral c)
    (r : List Char) :
    Stops (ts.flatMap (',' :: ·) ++ c :: r) := by
  cases ts with
  | nil => exact .cons hc r
  | cons t ts => exact .cons (by decide) _

theorem text_append_ne_bracket {v : JsonValue} (hv : v.Plain) (r r' : List Char) :
    v.text ++ r ≠ ']' :: r' := by
  intro h
  obtain ⟨c, cs, htext, hkind⟩ := text_eq_cons hv
  rw [htext] at h
  obtain ⟨rfl, -⟩ := List.cons.inj h
  have hbracket : kindOf ']' = 7 := by decide
  rw [hbracket] at hkind
  cases v with
  | bool b => cases b <;> exact nomatch hkind
  | _ => exact nomatch hkind

mutual

/-- **A text determines its value**, and where it ends. -/
theorem text_append_inj : ∀ {v w : JsonValue}, v.Plain → w.Plain → ∀ {r r' : List Char}, Stops r →
    Stops r' → v.text ++ r = w.text ++ r' → v = w ∧ r = r' := by
  intro v w hv hw r r' hr hr' h
  have hkind := kind_eq_of_text_append_eq hv hw h
  cases v with
  | null =>
    cases w with
    | null => exact ⟨rfl, List.append_cancel_left h⟩
    | bool b => cases b <;> exact nomatch hkind
    | _ => exact nomatch hkind
  | bool b =>
    cases w with
    | bool b' =>
      obtain rfl : b = b' := by
        cases b <;> cases b' <;> first | rfl | exact nomatch hkind
      exact ⟨rfl, List.append_cancel_left h⟩
    | _ => cases b <;> exact nomatch hkind
  | num n =>
    cases w with
    | num n' =>
      cases n with
      | finite q =>
        cases n' with
        | finite q' =>
          obtain ⟨htext, hrest⟩ := numerals_append_inj Number.isNumeral_of_mem_toString
            Number.isNumeral_of_mem_toString hr hr' h
          exact ⟨by rw [Number.toString_inj hv hw htext], hrest⟩
        | _ => exact hw.elim
      | _ => exact hv.elim
    | bool b => cases b <;> exact nomatch hkind
    | _ => exact nomatch hkind
  | str s =>
    cases w with
    | str s' =>
      obtain ⟨rfl, hrest⟩ := quote_append_inj h
      exact ⟨rfl, hrest⟩
    | bool b => cases b <;> exact nomatch hkind
    | _ => exact nomatch hkind
  | arr xs =>
    cases w with
    | arr ys =>
      rw [text, text, List.cons_append, List.cons_append, List.append_assoc, List.append_assoc] at h
      obtain ⟨rfl, hrest⟩ := items_append_inj hv hw (List.cons.inj h).2
      exact ⟨rfl, hrest⟩
    | bool b => cases b <;> exact nomatch hkind
    | _ => exact nomatch hkind
  | obj fields =>
    cases w with
    | obj fields' =>
      rw [text, text, List.cons_append, List.cons_append, List.append_assoc, List.append_assoc] at h
      obtain ⟨rfl, hrest⟩ := fields_append_inj hv hw (List.cons.inj h).2
      exact ⟨rfl, hrest⟩
    | bool b => cases b <;> exact nomatch hkind
    | _ => exact nomatch hkind

theorem items_append_inj : ∀ {xs ys : List JsonValue}, PlainItems xs → PlainItems ys →
    ∀ {r r' : List Char}, [','].intercalate (texts xs) ++ ']' :: r =
      [','].intercalate (texts ys) ++ ']' :: r' → xs = ys ∧ r = r' := by
  intro xs ys hxs hys r r' h
  cases xs with
  | nil =>
    cases ys with
    | nil => exact ⟨rfl, (List.cons.inj h).2⟩
    | cons y ys =>
      rw [texts, texts, intercalate_cons, List.append_assoc] at h
      exact absurd h.symm (text_append_ne_bracket hys.1 _ r)
  | cons x xs =>
    rw [texts, intercalate_cons, List.append_assoc] at h
    cases ys with
    | nil => exact absurd h (text_append_ne_bracket hxs.1 _ r')
    | cons y ys =>
      rw [texts, intercalate_cons, List.append_assoc] at h
      obtain ⟨rfl, hmore⟩ := text_append_inj hxs.1 hys.1 (stops_of_more _ (by decide) r)
        (stops_of_more _ (by decide) r') h
      obtain ⟨rfl, hrest⟩ := more_append_inj hxs.2 hys.2 hmore
      exact ⟨rfl, hrest⟩

theorem more_append_inj : ∀ {xs ys : List JsonValue}, PlainItems xs → PlainItems ys →
    ∀ {r r' : List Char}, (texts xs).flatMap (',' :: ·) ++ ']' :: r =
      (texts ys).flatMap (',' :: ·) ++ ']' :: r' → xs = ys ∧ r = r' := by
  intro xs ys hxs hys r r' h
  cases xs with
  | nil =>
    cases ys with
    | nil => exact ⟨rfl, (List.cons.inj h).2⟩
    | cons y ys => exact absurd (List.cons.inj h).1 (by decide)
  | cons x xs =>
    cases ys with
    | nil => exact absurd (List.cons.inj h).1 (by decide)
    | cons y ys =>
      rw [texts, texts, List.flatMap_cons, List.flatMap_cons, List.append_assoc,
        List.append_assoc] at h
      obtain ⟨rfl, hmore⟩ := text_append_inj hxs.1 hys.1 (stops_of_more _ (by decide) r)
        (stops_of_more _ (by decide) r') (List.cons.inj h).2
      obtain ⟨rfl, hrest⟩ := more_append_inj hxs.2 hys.2 hmore
      exact ⟨rfl, hrest⟩

theorem fields_append_inj : ∀ {fields fields' : List (JsString × JsonValue)}, PlainFields fields →
    PlainFields fields' → ∀ {r r' : List Char},
      [','].intercalate (fieldTexts fields) ++ '\x7d' :: r =
        [','].intercalate (fieldTexts fields') ++ '\x7d' :: r' → fields = fields' ∧ r = r' := by
  intro fields fields' hfields hfields' r r' h
  match fields, fields' with
  | [], [] => exact ⟨rfl, (List.cons.inj h).2⟩
  | [], (key', w) :: fields' =>
    rw [fieldTexts, fieldTexts, intercalate_cons, quote] at h
    exact absurd (List.cons.inj h).1 (by decide)
  | (key, v) :: fields, [] =>
    rw [fieldTexts, fieldTexts, intercalate_cons, quote] at h
    exact absurd (List.cons.inj h).1 (by decide)
  | (key, v) :: fields, (key', w) :: fields' =>
    rw [fieldTexts, fieldTexts, intercalate_cons, intercalate_cons] at h
    simp only [List.append_assoc, List.cons_append] at h
    obtain ⟨rfl, hvalue⟩ := quote_append_inj h
    obtain ⟨rfl, hmore⟩ := text_append_inj hfields.1 hfields'.1 (stops_of_more _ (by decide) r)
      (stops_of_more _ (by decide) r') (List.cons.inj hvalue).2
    obtain ⟨rfl, hrest⟩ := moreFields_append_inj hfields.2 hfields'.2 hmore
    exact ⟨rfl, hrest⟩

theorem moreFields_append_inj : ∀ {fields fields' : List (JsString × JsonValue)},
    PlainFields fields → PlainFields fields' → ∀ {r r' : List Char},
      (fieldTexts fields).flatMap (',' :: ·) ++ '\x7d' :: r =
        (fieldTexts fields').flatMap (',' :: ·) ++ '\x7d' :: r' → fields = fields' ∧ r = r' := by
  intro fields fields' hfields hfields' r r' h
  match fields, fields' with
  | [], [] => exact ⟨rfl, (List.cons.inj h).2⟩
  | [], (key', w) :: fields' => exact absurd (List.cons.inj h).1 (by decide)
  | (key, v) :: fields, [] => exact absurd (List.cons.inj h).1 (by decide)
  | (key, v) :: fields, (key', w) :: fields' =>
    rw [fieldTexts, fieldTexts, List.flatMap_cons, List.flatMap_cons] at h
    simp only [List.append_assoc, List.cons_append, List.cons.injEq, true_and] at h
    obtain ⟨rfl, hvalue⟩ := quote_append_inj h
    obtain ⟨rfl, hmore⟩ := text_append_inj hfields.1 hfields'.1 (stops_of_more _ (by decide) r)
      (stops_of_more _ (by decide) r') (List.cons.inj hvalue).2
    obtain ⟨rfl, hrest⟩ := moreFields_append_inj hfields.2 hfields'.2 hmore
    exact ⟨rfl, hrest⟩

end

/-- **Values have one text if and only if they are blurred to one value.** -/
theorem text_eq_iff {v w : JsonValue} (hv : v.Parsed) (hw : w.Parsed) :
    v.text = w.text ↔ v.blur = w.blur := by
  constructor
  · intro h
    rw [← text_blur v, ← text_blur w, ← List.append_nil v.blur.text,
      ← List.append_nil w.blur.text] at h
    exact (text_append_inj (plain_blur hv) (plain_blur hw) (by simp [Stops]) (by simp [Stops]) h).1
  · intro h
    rw [← text_blur v, h, text_blur]

/-! ## Strings that are text -/

mutual

/-- A value whose strings are text, as one with code units. -/
def ofJson : Json → JsonValue
  | .null => .null
  | .bool b => .bool b
  | .num n => .num n
  | .str s => .str (.of s)
  | .arr xs => .arr (ofItems xs)
  | .obj fields => .obj (ofFields fields)

def ofItems : List Json → List JsonValue
  | [] => []
  | x :: xs => ofJson x :: ofItems xs

def ofFields : List (String × Json) → List (JsString × JsonValue)
  | [] => []
  | (key, v) :: fields => (.of key, ofJson v) :: ofFields fields

end

theorem quote_of (s : String) : quote (.of s) = (Json.quote s).toList := by
  rw [quote, JsString.of, Utf16.points_ofText, List.flatMap_map, Json.quote, String.toList_ofList]
  rfl

theorem toList_bracket (opening closing : String) (items : List String) :
    (Json.bracket "" "" opening closing items).toList =
      opening.toList ++ ([','].intercalate (items.map String.toList) ++ closing.toList) := by
  rw [Json.bracket]
  split_ifs with h
  · simp [h]
  · rw [String.toList_append, String.toList_append, String.toList_intercalate, List.append_assoc]
    rfl
  · contradiction

mutual

/-- The text of a value whose strings are text. -/
theorem text_ofJson : ∀ v : Json, (ofJson v).text = (v.stringify "" "").toList
  | .null => rfl
  | .bool b => by cases b <;> rfl
  | .num n => by cases n <;> simp [ofJson, text, Json.stringify]
  | .str s => quote_of s
  | .arr xs => by
    rw [ofJson, text, texts_ofItems, Json.stringify, toList_bracket]
    rfl
  | .obj fields => by
    rw [ofJson, text, fieldTexts_ofFields, Json.stringify, toList_bracket]
    rfl

theorem texts_ofItems : ∀ xs : List Json,
    texts (ofItems xs) = (Json.stringifyItems "" "" xs).map String.toList
  | [] => rfl
  | x :: xs => by
    rw [ofItems, texts, text_ofJson, texts_ofItems, Json.stringifyItems, List.map_cons]

theorem fieldTexts_ofFields : ∀ fields : List (String × Json),
    fieldTexts (ofFields fields) = (Json.stringifyFields "" "" fields).map String.toList
  | [] => rfl
  | (key, v) :: fields => by
    rw [ofFields, fieldTexts, quote_of, text_ofJson, fieldTexts_ofFields, Json.stringifyFields,
      List.map_cons, if_pos rfl, String.toList_append, String.toList_append, List.append_assoc]
    rfl

end

end JsonValue

end AttestP2P
