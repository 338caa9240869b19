import AttestP2P.Js.JsonText

/-!
# Conversions of values with any strings

A JavaScript string is a sequence of UTF-16 units, and surrogates in it may stand alone.  `Json`
has Lean's strings, in which they cannot.  Where that matters, which is where texts are compared
that an attacker may choose, the values are those of `Js.JsonText`, with lists of units for strings,
and this module has the conversions for them: property access, truth, `String(v)`, `Number(v)`, the
operators `+` and `===`, and `Buffer.from(v, "hex")`.

They are the definitions of `Js.Json` once more, over the other strings.  What ties the two together
is that on text they agree, by the lemmas from `get_ofJson` to `bufferFrom_ofJson`: `ofJson` puts a
value of the one kind among those of the other, and each conversion commutes with it.  Hence a
result about all parsed values, as in `File.Tampering`, speaks of the same code as one about `Json`.
-/

set_option autoImplicit false

namespace AttestP2P

/-- A value of type number or string, with code units for its text. -/
inductive JsPrim where
  | num (n : Number)
  | str (s : JsString)

namespace JsonValue

/-- The value of an own property, of an object only. -/
def get : JsonValue → String → Option JsonValue
  | .obj fields, key => fields.lookup (.of key)
  | _, _ => none

/-- `if (v)`, as for values whose strings are text. -/
def truthy : JsonValue → Bool
  | .null => false
  | .bool b => b
  | .num n => n.truthy
  | .str s => s ≠ []
  | .arr _ => true
  | .obj _ => true

mutual

/-- `String(v)`, and `none` where the conversion throws, as for an object whose own `toString` is no
function. -/
def toText : JsonValue → Option JsString
  | .null => some (.of "null")
  | .bool b => some (.of (if b then "true" else "false"))
  | .num n => some (.of n.toString)
  | .str s => some s
  | .arr xs => (toTexts xs).map ((JsString.of ",").intercalate ·)
  | .obj fields =>
    if (fields.lookup (.of "toString")).isSome then none else some (.of "[object Object]")

def toTexts : List JsonValue → Option (List JsString)
  | [] => some []
  | .null :: xs => (toTexts xs).map ([] :: ·)
  | x :: xs => x.toText.bind fun text ↦ (toTexts xs).map (text :: ·)

end

/-- `Number(s)`; a surrogate that is alone is part of no number. -/
def numberOf (s : JsString) : Number :=
  match Utf16.text s with
  | some cs => .ofString (String.ofList cs)
  | none => .nan

/-- `Number(v)`, through the string for an array or object. -/
def toNumber : JsonValue → Option Number
  | .null => some 0
  | .bool b => some (if b then .finite 1 else 0)
  | .num n => some n
  | .str s => some (numberOf s)
  | v => v.toText.map numberOf

/-- `a + v`, where `v` may be `undefined`. -/
def add : JsPrim → Option JsonValue → Option JsPrim
  | .str s, none => some (.str (s ++ .of "undefined"))
  | .str s, some v => v.toText.map fun text ↦ .str (s ++ text)
  | .num _, none => some (.num .nan)
  | .num n, some (.str s) => some (.str (.of n.toString ++ s))
  | .num n, some (.arr xs) => (JsonValue.arr xs).toText.map fun text ↦ .str (.of n.toString ++ text)
  | .num n, some (.obj fields) =>
    (JsonValue.obj fields).toText.map fun text ↦ .str (.of n.toString ++ text)
  | .num n, some v => v.toNumber.map fun m ↦ .num (n.add m)

/-- `a === v`, where strings are compared unit by unit. -/
def strictEq : JsPrim → Option JsonValue → Bool
  | .num m, some (.num n) => m.strictEq n
  | .str s, some (.str t) => s = t
  | _, _ => false

/-- The bytes of an array-like object with the given length and elements. -/
def fromArrayLike (length : ℕ) (item : ℕ → Option JsonValue) : Except String Buffer :=
  (List.range length).mapM fun i ↦
    match (item i).elim (some .nan) toNumber with
    | some n => .ok n.toUint8
    | none => .error "Cannot convert object to primitive value"

/-- The bytes of what has a `length`: as many as it says, which must not be too many. -/
def fromLength (length : JsonValue) (item : ℕ → Option JsonValue) : Except String Buffer :=
  match length with
  | .num (.infinity false) => .error "Invalid typed array length"
  | .num n =>
    if Buffer.maxLength < n.floor then .error "Invalid typed array length"
    else fromArrayLike n.floor item
  | _ => .ok []

/-- `fromObject`, where `Buffer.from(v, "hex")` ends for an object. -/
def fromObject (fields : List (JsString × JsonValue)) : Except String Buffer :=
  match fields.lookup (.of "length"), fields.lookup (.of "type"), fields.lookup (.of "data") with
  | some length, _, _ => fromLength length fun i ↦ fields.lookup (.of (Nat.repr i))
  | none, some (.str type), some (.arr xs) =>
    if type = .of "Buffer" then fromArrayLike xs.length fun i ↦ xs[i]?
    else .error "ERR_INVALID_ARG_TYPE"
  | none, _, _ => .error "ERR_INVALID_ARG_TYPE"

/-- `Buffer.from(v, "hex")`, which throws unless it gets a string or an object. -/
def bufferFrom : Option JsonValue → Except String Buffer
  | some (.str s) => .ok (Json.hexDecode s)
  | some (.arr xs) => fromArrayLike xs.length fun i ↦ xs[i]?
  | some (.obj fields) =>
    match fields.lookup (.of "valueOf") with
    | some (.str s) => if s = [] then .ok [] else .error "value.valueOf is not a function"
    | some v => if v.truthy then .error "value.valueOf is not a function" else fromObject fields
    | none => fromObject fields
  | _ => .error "ERR_INVALID_ARG_TYPE"

/-! ## Text -/

theorem of_inj {s t : String} (h : JsString.of s = JsString.of t) : s = t :=
  String.toList_inj.mp (Utf16.ofText_inj h)

theorem of_append (s t : String) : JsString.of (s ++ t) = .of s ++ .of t := by
  simp [JsString.of, Utf16.ofText]

theorem of_eq_nil_iff {s : String} : JsString.of s = [] ↔ s = "" :=
  ⟨fun h ↦ of_inj (t := "") h, fun h ↦ congrArg JsString.of h⟩

theorem of_intercalate (s : String) (ts : List String) :
    JsString.of (s.intercalate ts) = (JsString.of s).intercalate (ts.map JsString.of) := by
  induction ts with
  | nil => rfl
  | cons t ts ih =>
    cases ts with
    | nil => simp
    | cons t' ts =>
      rw [String.intercalate_cons_cons, of_append, of_append, ih, List.map_cons,
        List.map_cons, List.map_cons, List.intercalate_cons_cons, List.append_assoc]

theorem numberOf_of (s : String) : numberOf (.of s) = .ofString s := by
  rw [numberOf, JsString.of, Utf16.text_ofText]
  dsimp only
  rw [String.ofList_toList]

theorem lookup_ofFields (fields : List (String × Json)) (key : String) :
    (ofFields fields).lookup (.of key) = (fields.lookup key).map ofJson := by
  induction fields with
  | nil => rfl
  | cons field fields ih =>
    obtain ⟨key', v⟩ := field
    rw [ofFields, List.lookup_cons, List.lookup_cons, ih]
    by_cases h : key = key'
    · rw [h, beq_self_eq_true, beq_self_eq_true]
      rfl
    · have hne : JsString.of key ≠ .of key' := fun heq ↦ h (of_inj heq)
      rw [beq_false_of_ne h, beq_false_of_ne hne]

theorem getElem?_ofItems (xs : List Json) (i : ℕ) : (ofItems xs)[i]? = xs[i]?.map ofJson := by
  induction xs generalizing i with
  | nil => rfl
  | cons x xs ih =>
    cases i with
    | zero => rfl
    | succ i => exact ih i

theorem length_ofItems (xs : List Json) : (ofItems xs).length = xs.length := by
  induction xs with
  | nil => rfl
  | cons x xs ih => rw [ofItems, List.length_cons, List.length_cons, ih]

theorem get_ofJson (m : Json) (key : String) : (ofJson m).get key = (m.get key).map ofJson := by
  cases m with
  | obj fields => exact lookup_ofFields fields key
  | _ => rfl

theorem truthy_ofJson (v : Json) : (ofJson v).truthy = v.truthy := by
  cases v with
  | str s => simp [ofJson, truthy, Json.truthy, of_eq_nil_iff]
  | _ => rfl

mutual

theorem toText_ofJson : ∀ v : Json, (ofJson v).toText = v.toText.map JsString.of
  | .null => rfl
  | .bool _ => rfl
  | .num _ => rfl
  | .str _ => rfl
  | .arr xs => by
    rw [ofJson, toText, toTexts_ofItems, Json.toText, Option.map_map, Option.map_map]
    exact congrArg (Option.map · _) (funext fun ts ↦ (of_intercalate "," ts).symm)
  | .obj fields => by
    rw [ofJson, toText, Json.toText, lookup_ofFields, Option.isSome_map]
    split_ifs <;> rfl

theorem toTexts_ofItems : ∀ xs : List Json,
    toTexts (ofItems xs) = (Json.toTexts xs).map (List.map JsString.of)
  | [] => rfl
  | x :: xs => by
    have hrest := toTexts_ofItems xs
    have hcons : (toText (ofJson x)).bind (fun text ↦ (toTexts (ofItems xs)).map (text :: ·)) =
        (x.toText.bind fun text ↦ (Json.toTexts xs).map (text :: ·)).map
          (List.map JsString.of) := by
      rw [toText_ofJson, hrest]
      cases x.toText with
      | none => rfl
      | some text => cases Json.toTexts xs <;> rfl
    cases x with
    | null =>
      rw [ofItems, ofJson, toTexts, Json.toTexts, hrest]
      cases Json.toTexts xs <;> rfl
    | _ => exact hcons

end

theorem toNumber_ofJson (v : Json) : (ofJson v).toNumber = v.toNumber := by
  have htext : ((ofJson v).toText.map numberOf) = v.toText.map .ofString := by
    rw [toText_ofJson, Option.map_map]
    exact congrArg (Option.map · _) (funext numberOf_of)
  cases v with
  | str s => exact congrArg some (numberOf_of s)
  | arr xs => exact htext
  | obj fields => exact htext
  | _ => rfl

/-- A number or a text, as one with code units. -/
def ofPrim : Prim → JsPrim
  | .num n => .num n
  | .str s => .str (.of s)

theorem add_ofPrim (a : Prim) (v : Option Json) :
    add (ofPrim a) (v.map ofJson) = (Json.add a v).map ofPrim := by
  have htext : ∀ (s : String) (v : Json),
      (ofJson v).toText.map (fun text ↦ JsPrim.str (.of s ++ text)) =
        (v.toText.map fun text ↦ Prim.str (s ++ text)).map ofPrim := by
    intro s v
    rw [toText_ofJson, Option.map_map, Option.map_map]
    exact congrArg (Option.map · _) (funext fun t ↦ congrArg JsPrim.str (of_append s t).symm)
  cases v with
  | none =>
    cases a with
    | num n => rfl
    | str s => exact congrArg (some ∘ JsPrim.str) (of_append s "undefined").symm
  | some v =>
    cases a with
    | str s => exact htext s v
    | num n =>
      cases v with
      | str s => exact congrArg (some ∘ JsPrim.str) (of_append n.toString s).symm
      | arr xs => exact htext n.toString (.arr xs)
      | obj fields => exact htext n.toString (.obj fields)
      | _ => rfl

theorem strictEq_ofPrim (a : Prim) (v : Option Json) :
    strictEq (ofPrim a) (v.map ofJson) = Json.strictEq a v := by
  cases v with
  | none => cases a <;> rfl
  | some v =>
    cases a with
    | num n => cases v <;> rfl
    | str s =>
      cases v with
      | str t =>
        have hiff : JsString.of s = .of t ↔ s = t := ⟨of_inj, congrArg _⟩
        exact decide_eq_decide.mpr hiff
      | _ => rfl

/-! ## Text as bytes

`Buffer.from` on an object of many shapes: what is read off it are numbers and texts, and these are
the same on both sides. -/

theorem fromArrayLike_ofJson {length : ℕ} {item : ℕ → Option Json} {item' : ℕ → Option JsonValue}
    (h : ∀ i, item' i = (item i).map ofJson) :
    fromArrayLike length item' = Json.fromArrayLike length item := by
  refine congrArg (List.mapM · (List.range length)) (funext fun i ↦ ?_)
  rw [h]
  cases item i with
  | none => rfl
  | some v =>
    exact congrArg (fun n : Option Number ↦
      match n with
      | some n => Except.ok n.toUint8
      | none => .error "Cannot convert object to primitive value") (toNumber_ofJson v)

theorem fromArrayLike_ofItems (xs : List Json) :
    fromArrayLike (ofItems xs).length (fun i ↦ (ofItems xs)[i]?) =
      Json.fromArrayLike xs.length fun i ↦ xs[i]? := by
  rw [length_ofItems, fromArrayLike_ofJson (getElem?_ofItems xs)]

theorem fromLength_ofJson (v : Json) (fields : List (String × Json)) :
    fromLength (ofJson v) (fun i ↦ (ofFields fields).lookup (.of (Nat.repr i))) =
      Json.fromLength v fun i ↦ fields.lookup (Nat.repr i) := by
  cases v with
  | num n =>
    have hitems := @fromArrayLike_ofJson n.floor _ _ fun i ↦ lookup_ofFields fields (Nat.repr i)
    cases n with
    | infinity negative => cases negative <;> rfl
    | _ => simp only [ofJson, fromLength, Json.fromLength, hitems]
  | _ => rfl

theorem fromObject_ofFields (fields : List (String × Json)) :
    fromObject (ofFields fields) = Json.fromObject fields := by
  rw [fromObject, Json.fromObject, lookup_ofFields, lookup_ofFields, lookup_ofFields]
  cases fields.lookup "length" with
  | some v => exact fromLength_ofJson v fields
  | none =>
    cases fields.lookup "type" with
    | none => rfl
    | some type =>
      cases type with
      | str type =>
        have hiff : JsString.of type = .of "Buffer" ↔ type = "Buffer" := ⟨of_inj, congrArg _⟩
        cases fields.lookup "data" with
        | none => dsimp only [Option.map_some, Option.map_none, ofJson]; split <;> simp_all
        | some data =>
          cases data with
          | arr xs =>
            by_cases h : type = "Buffer"
            · subst h
              exact (if_pos rfl).trans (fromArrayLike_ofItems xs)
            · refine (if_neg (mt hiff.mp h)).trans ?_
              split <;> simp_all
          | _ => dsimp only [Option.map_some, ofJson]; split <;> simp_all
      | _ => rfl

/-- On text, `Buffer.from` is that of `Json`, so that both models agree where both apply. -/
theorem bufferFrom_ofJson (v : Option Json) : bufferFrom (v.map ofJson) = Json.bufferFrom v := by
  cases v with
  | none => rfl
  | some v =>
    cases v with
    | str s => rfl
    | arr xs => exact fromArrayLike_ofItems xs
    | obj fields =>
      rw [Option.map_some, ofJson, bufferFrom, Json.bufferFrom, lookup_ofFields]
      cases fields.lookup "valueOf" with
      | none => exact fromObject_ofFields fields
      | some v =>
        have htruthy : (if (ofJson v).truthy = true then .error "value.valueOf is not a function"
            else fromObject (ofFields fields)) = if v.truthy = true then
              .error "value.valueOf is not a function" else Json.fromObject fields := by
          rw [truthy_ofJson, fromObject_ofFields]
        cases v with
        | str s => exact ite_congr (propext of_eq_nil_iff) (fun _ ↦ rfl) fun _ ↦ rfl
        | _ => exact htruthy
    | _ => rfl

end JsonValue

end AttestP2P
