import AttestP2P.Buffer
import AttestP2P.Js.Number
import AttestP2P.Lib.Utf16
import Mathlib.Tactic.SplitIfs

/-!
# Values that `JSON.parse` returns

What comes from the network is any JSON value, and the program uses it without looking at its type:
it reads properties off numbers, adds strings, compares lists with texts.  So the operators are
modelled as ECMAScript has them for the values that `JSON.parse` can return.

A property that an object does not have reads as `undefined`, which is `none` of `Option Json`, and
a conversion that throws is `none` as well: reading a property of `undefined` or `null`, and turning
into a text an object whose own `toString` is not a function.  Strings are sequences of Unicode
scalar values: a lone surrogate is left out, and `Js.JsonValue` is for results in which it matters.

`stringify` is `JSON.stringify` without spaces, `toText`, `toNumber` and `add` are `String(v)`,
`Number(v)` and `+`, and `bufferFrom` is `Buffer.from(v, "hex")`, which accepts more than strings.
-/

set_option autoImplicit false

namespace AttestP2P

/-- A JSON value; the fields of an object are in the order in which they are enumerated. -/
inductive Json where
  | null
  | bool (b : Bool)
  | num (n : Number)
  | str (s : String)
  | arr (xs : List Json)
  | obj (fields : List (String × Json))

/-- A value of type number or string, which is what `+` and `===` are used on. -/
inductive Prim where
  | num (n : Number)
  | str (s : String)
  deriving DecidableEq

namespace Json

/-- The value of an own property, of an object only. -/
def get : Json → String → Option Json
  | .obj fields, key => fields.lookup key
  | _, _ => none

/-- `if (v)`: every value is true but `null`, `false`, zero, not-a-number and the empty string. -/
def truthy : Json → Bool
  | .null => false
  | .bool b => b
  | .num n => n.truthy
  | .str s => s ≠ ""
  | .arr _ => true
  | .obj _ => true

/-- Only an object has properties that were parsed, and objects count as true. -/
theorem truthy_of_get {m v : Json} {key : String} (h : m.get key = some v) : m.truthy = true := by
  cases m with
  | obj fields => rfl
  | _ => simp [get] at h

mutual

/-- `String(v)`, which is also the property that `o[v]` names.  An object is not converted when a
field hides its method `toString`. -/
def toText : Json → Option String
  | .null => some "null"
  | .bool b => some (if b then "true" else "false")
  | .num n => some n.toString
  | .str s => some s
  | .arr xs => (toTexts xs).map (",".intercalate ·)
  | .obj fields => if (fields.lookup "toString").isSome then none else some "[object Object]"

/-- The elements of an array as `join` writes them. -/
def toTexts : List Json → Option (List String)
  | [] => some []
  | .null :: xs => (toTexts xs).map ("" :: ·)
  | x :: xs => x.toText.bind fun text ↦ (toTexts xs).map (text :: ·)

end

/-- `Number(v)`; an array or object is made a string first, which throws where this is `none`. -/
def toNumber : Json → Option Number
  | .null => some 0
  | .bool b => some (if b then .finite 1 else 0)
  | .num n => some n
  | .str s => some (.ofString s)
  | v => v.toText.map .ofString

/-- `a + v`, where `v` may be `undefined`: an addition of numbers, and a concatenation if either
becomes a string. -/
def add : Prim → Option Json → Option Prim
  | .str s, none => some (.str (s ++ "undefined"))
  | .str s, some v => v.toText.map fun text ↦ .str (s ++ text)
  | .num _, none => some (.num .nan)
  | .num n, some (.str s) => some (.str (n.toString ++ s))
  | .num n, some (.arr xs) => (Json.arr xs).toText.map fun text ↦ .str (n.toString ++ text)
  | .num n, some (.obj fields) =>
    (Json.obj fields).toText.map fun text ↦ .str (n.toString ++ text)
  | .num n, some v => v.toNumber.map fun m ↦ .num (n.add m)

/-- `a === v`, which no two values of different types are. -/
def strictEq : Prim → Option Json → Bool
  | .num m, some (.num n) => m.strictEq n
  | .str s, some (.str t) => s = t
  | _, _ => false

/-- A string is strictly equal only to itself. -/
theorem eq_of_strictEq {text : String} {v : Option Json} (h : strictEq (.str text) v = true) :
    v = some (.str text) := by
  cases v with
  | none => exact nomatch h
  | some v =>
    cases v with
    | str hash => exact congrArg (some ∘ Json.str) (of_decide_eq_true h).symm
    | _ => exact nomatch h

/-! ## `JSON.stringify` -/

/-- One character of a quoted string, escaped where `JSON.stringify` escapes it. -/
def quoteChar (c : Char) : List Char :=
  if c = '"' then ['\\', '"']
  else if c = '\\' then ['\\', '\\']
  else if c = '\x08' then ['\\', 'b']
  else if c = '\x0c' then ['\\', 'f']
  else if c = '\n' then ['\\', 'n']
  else if c = '\r' then ['\\', 'r']
  else if c = '\t' then ['\\', 't']
  else if c.toNat < 32 then
    ['\\', 'u', '0', '0', Nat.digitChar (c.toNat / 16), Nat.digitChar (c.toNat % 16)]
  else [c]

def quote (s : String) : String := String.ofList ('"' :: (s.toList.flatMap quoteChar ++ ['"']))

/-- Items between brackets; with a `gap`, one on each line and `indent` in front. -/
def bracket (gap indent opening closing : String) (items : List String) : String :=
  if items = [] then opening ++ closing
  else if gap = "" then opening ++ ",".intercalate items ++ closing
  else
    opening ++ "\n" ++ indent ++ gap ++ (",\n" ++ indent ++ gap).intercalate items ++ "\n" ++
      indent ++ closing

mutual

/-- `JSON.stringify(v, null, gap)`, below `indent`. -/
def stringify (gap indent : String) : Json → String
  | .null => "null"
  | .bool b => if b then "true" else "false"
  | .num n =>
    match n with
    | .finite q => (Number.finite q).toString
    | _ => "null"
  | .str s => quote s
  | .arr xs => bracket gap indent "[" "]" (stringifyItems gap (indent ++ gap) xs)
  | .obj fields => bracket gap indent "\x7b" "\x7d" (stringifyFields gap (indent ++ gap) fields)

def stringifyItems (gap indent : String) : List Json → List String
  | [] => []
  | x :: xs => x.stringify gap indent :: stringifyItems gap indent xs

def stringifyFields (gap indent : String) : List (String × Json) → List String
  | [] => []
  | (key, v) :: fields =>
    (quote key ++ (if gap = "" then ":" else ": ") ++ v.stringify gap indent) ::
      stringifyFields gap indent fields

end

/-- `Buffer.from(text)`: the bytes of the text in UTF-8. -/
def utf8 (text : String) : Buffer := text.toUTF8.data.toList

theorem utf8_append (a b : String) : utf8 (a ++ b) = utf8 a ++ utf8 b := by
  simp only [utf8, String.toUTF8_eq_toByteArray, String.toByteArray_append, ByteArray.data_append,
    Array.toList_append]

theorem head?_utf8_brace (text : String) : (utf8 ("\x7b" ++ text)).head? = some 0x7b := by
  have hbrace : utf8 "\x7b" = [0x7b] := by decide
  rw [utf8_append, hbrace]
  rfl

/-- The text of an object starts with a brace. -/
theorem head?_utf8_stringify_obj (gap indent : String) (fields : List (String × Json)) :
    (utf8 ((Json.obj fields).stringify gap indent)).head? = some 0x7b := by
  rw [stringify, bracket]
  split_ifs
  · exact head?_utf8_brace _
  · rw [String.append_assoc]
    exact head?_utf8_brace _
  · simp only [String.append_assoc]
    exact head?_utf8_brace _

/-! ## `Buffer.from(v, "hex")`

It takes a string of hexadecimal digits, and stops at the first unit whose lower byte is none; and
it takes arrays and objects that look like one.  Anything else throws. -/

/-- The value of a hexadecimal digit, of either case. -/
def hexDigit (c : Char) : Option ℕ := Number.digitsValue 16 [c]

/-- The digit that a code unit is read as.  Of its sixteen bits the last eight count: `ĵ`, which is
U+0135, is read as `5`. -/
def unhex (u : UInt16) : Option ℕ := hexDigit (Char.ofNat (u.toNat % 256))

/-- Pairs of digits, up to the first pair that is none. -/
def hexDecode : List UInt16 → Buffer
  | u :: v :: s =>
    match unhex u, unhex v with
    | some x, some y => UInt8.ofNat (16 * x + y) :: hexDecode s
    | _, _ => []
  | _ => []

/-- `Buffer.from(s, "hex")`: pairs of digits up to the first that is none, where of every UTF-16
unit only the low byte is looked at. -/
def fromHex (s : String) : Buffer := hexDecode (Utf16.ofText s.toList)

example : fromHex "0\u0135ff!!00" = [5, 255] := by decide +kernel

/-- Hexadecimal text is read back to the bytes that it was written for. -/
theorem fromHex_hex (b : Buffer) : fromHex b.hex = b := by
  have hdigit : ∀ d : Fin 16,
      (Utf16.Point.char (Nat.digitChar d)).units = [.ofNat (Nat.digitChar d).toNat] ∧
        unhex (.ofNat (Nat.digitChar d).toNat) = some d.val := by decide
  rw [fromHex, Buffer.hex, String.toList_ofList]
  induction b with
  | nil => rfl
  | cons x b ih =>
    have hlt := x.toNat_lt
    obtain ⟨hu, hx⟩ := hdigit ⟨x.toNat / 16, by omega⟩
    obtain ⟨hv, hy⟩ := hdigit ⟨x.toNat % 16, by omega⟩
    have hcons : Utf16.ofText (Buffer.hexChars (x :: b)) =
        (Utf16.Point.char (Nat.digitChar (x.toNat / 16))).units ++
          ((Utf16.Point.char (Nat.digitChar (x.toNat % 16))).units ++
            Utf16.ofText (Buffer.hexChars b)) := rfl
    rw [hcons, hu, hv, List.singleton_append, List.singleton_append, hexDecode, hx, hy, ih]
    dsimp only
    rw [Nat.div_add_mod, UInt8.ofNat_toNat]

/-- The bytes of an array-like object with the given length and elements. -/
def fromArrayLike (length : ℕ) (item : ℕ → Option Json) : Except String Buffer :=
  (List.range length).mapM fun i ↦
    match (item i).elim (some .nan) toNumber with
    | some n => .ok n.toUint8
    | none => .error "Cannot convert object to primitive value"

/-- The bytes of what has a `length`: none if it is not a number, or not positive. -/
def fromLength (length : Json) (item : ℕ → Option Json) : Except String Buffer :=
  match length with
  | .num (.infinity false) => .error "Invalid typed array length"
  | .num n =>
    if Buffer.maxLength < n.floor then .error "Invalid typed array length"
    else fromArrayLike n.floor item
  | _ => .ok []

/-- `fromObject`, where `Buffer.from(v, "hex")` ends for an object. -/
def fromObject (fields : List (String × Json)) : Except String Buffer :=
  match fields.lookup "length", fields.lookup "type", fields.lookup "data" with
  | some length, _, _ => fromLength length fun i ↦ fields.lookup (Nat.repr i)
  | none, some (.str "Buffer"), some (.arr xs) => fromArrayLike xs.length fun i ↦ xs[i]?
  | none, _, _ => .error "ERR_INVALID_ARG_TYPE"

/-- `Buffer.from(v, "hex")`, which throws unless it gets a string or an object.  A field `valueOf`
is called unless it is falsy, and the empty string then stands for the object. -/
def bufferFrom : Option Json → Except String Buffer
  | some (.str s) => .ok (fromHex s)
  | some (.arr xs) => fromArrayLike xs.length fun i ↦ xs[i]?
  | some (.obj fields) =>
    match fields.lookup "valueOf" with
    | some (.str s) => if s = "" then .ok [] else .error "value.valueOf is not a function"
    | some v => if v.truthy then .error "value.valueOf is not a function" else fromObject fields
    | none => fromObject fields
  | _ => .error "ERR_INVALID_ARG_TYPE"

example : (Json.obj [("a", .arr [.num 0, .str "x\"\n"]), ("b", .null)]).stringify "" "" =
    "\x7b\"a\":[0,\"x\\\"\\n\"],\"b\":null\x7d" := by decide +kernel

end Json

end AttestP2P
