import AttestP2P.File.Manifest
import AttestP2P.Js.JsonValue
import AttestP2P.Lib.Utf8

/-!
# What the signature of a manifest covers

`manifestHash` and `verifyManifest` of `src/file/manifest.js` for every value that `JSON.parse`
returns, with strings that need not be text.  On text they are those of `Manifest`
(`manifestHash_ofJson`, `verifyManifest_ofJson`).

The hash is taken of what `JSON.stringify` writes.  It writes different values as different texts,
with one exception: a number that is not finite is written as `null`.  `JSON.parse` returns such
numbers, since `1e999` is read as infinity.  `blur` is what the text keeps of a value, and all that
follows is a consequence of the injectivity of that text up to `blur`, which is in `Js.JsonText`.

* `manifestHash_eq_iff`: manifests have one hash exactly when their signed fields are the same up to
  numbers that are not finite.
* `tamperEvident_iff`: a signed field cannot be altered unseen, but for such numbers.  Of the
  primitives it assumes what a signature is for (`Binding`): digests do not collide, and a signature
  is one of a single message.
-/

set_option autoImplicit false

namespace AttestP2P

namespace ParsedManifest

open Manifest (signedFields)
open JsonValue (blur blurFields)

/-- The given fields of an object, those that it has. -/
def pick (keys : List String) (get : String → Option JsonValue) : List (JsString × JsonValue) :=
  keys.filterMap fun key ↦ (get key).map fun v ↦ (.of key, v)

/-- What is signed; `JSON.stringify` leaves an absent field out. -/
def ordered (m : JsonValue) : JsonValue := .obj (pick signedFields m.get)

variable (P : Primitives)

def manifestHash (m : JsonValue) : Buffer := P.sha256 (Utf8.encode (ordered m).text)

/-- `chunks.reduce((a, c) => a + c.size, 0)`. -/
def totalSize (chunks : List JsonValue) : Option JsPrim :=
  chunks.foldlM (fun a c ↦
    match c with
    | .null => none
    | c => JsonValue.add a (c.get "size")) (.num 0)

/-- The signature of the manifest is one of its sender. -/
def verifySignature (m : JsonValue) : Bool :=
  match JsonValue.bufferFrom (m.get "signature"), JsonValue.bufferFrom (m.get "sender_id") with
  | .ok signature, .ok sender =>
    (P.cryptoSignVerifyDetached signature (manifestHash P m) sender).toOption.getD false
  | _, _ => false

def verifyManifest (m : JsonValue) : Option Bool :=
  if (m.get "file_id").any JsonValue.truthy = false then some false
  else
    match m.get "chunks" with
    | some (.arr chunks) =>
      if JsonValue.strictEq (.num (.ofNat chunks.length)) (m.get "nb_chunks") = false then
        some false
      else
        (totalSize chunks).map fun total ↦
          JsonValue.strictEq total (m.get "size") && verifySignature P m
    | _ => some false

/-! ## Manifests that are text -/

theorem pick_ofFields (keys : List String) (m : Json) :
    pick keys (JsonValue.ofJson m).get =
      JsonValue.ofFields (keys.filterMap fun key ↦ (m.get key).map fun v ↦ (key, v)) := by
  induction keys with
  | nil => rfl
  | cons key keys ih =>
    rw [pick] at ih
    rw [pick, List.filterMap_cons, List.filterMap_cons, ih, JsonValue.get_ofJson]
    cases m.get key <;> rfl

theorem manifestHash_ofJson (m : Json) :
    manifestHash P (JsonValue.ofJson m) = Manifest.manifestHash P m := by
  have htext : (ordered (JsonValue.ofJson m)).text =
      ((Manifest.ordered m).stringify "" "").toList := by
    rw [← JsonValue.text_ofJson, ordered, pick_ofFields]
    rfl
  rw [manifestHash, htext, Manifest.manifestHash, Json.utf8, Utf8.toList_toUTF8]

theorem foldlM_ofItems {f : Prim → Json → Option Prim} {g : JsPrim → JsonValue → Option JsPrim}
    (h : ∀ a c, g (JsonValue.ofPrim a) (JsonValue.ofJson c) = (f a c).map JsonValue.ofPrim)
    (chunks : List Json) (a : Prim) :
    (JsonValue.ofItems chunks).foldlM g (JsonValue.ofPrim a) =
      (chunks.foldlM f a).map JsonValue.ofPrim := by
  induction chunks generalizing a with
  | nil => rfl
  | cons c chunks ih =>
    rw [JsonValue.ofItems, List.foldlM_cons, List.foldlM_cons, h]
    cases f a c with
    | none => rfl
    | some b => exact ih b

theorem totalSize_ofItems (chunks : List Json) :
    totalSize (JsonValue.ofItems chunks) = (Manifest.totalSize chunks).map JsonValue.ofPrim := by
  refine foldlM_ofItems (fun a c ↦ ?_) chunks (.num 0)
  have hadd : JsonValue.add (JsonValue.ofPrim a) ((JsonValue.ofJson c).get "size") =
      (Json.add a (c.get "size")).map JsonValue.ofPrim := by
    rw [JsonValue.get_ofJson, JsonValue.add_ofPrim]
  cases c with
  | null => rfl
  | _ => exact hadd

theorem verifySignature_ofJson (m : Json) :
    verifySignature P (JsonValue.ofJson m) = Manifest.verifySignature P m := by
  rw [verifySignature, JsonValue.get_ofJson, JsonValue.get_ofJson, JsonValue.bufferFrom_ofJson,
    JsonValue.bufferFrom_ofJson, manifestHash_ofJson]
  rfl

/-- **A manifest that is text is verified as `Manifest.verifyManifest` has it.** -/
theorem verifyManifest_ofJson (m : Json) :
    verifyManifest P (JsonValue.ofJson m) = Manifest.verifyManifest P m := by
  have hid : ((JsonValue.ofJson m).get "file_id").any JsonValue.truthy =
      (m.get "file_id").any Json.truthy := by
    rw [JsonValue.get_ofJson]
    cases m.get "file_id" with
    | none => rfl
    | some v => exact JsonValue.truthy_ofJson v
  rw [verifyManifest, Manifest.verifyManifest, hid, verifySignature_ofJson]
  split_ifs
  · rfl
  · rw [JsonValue.get_ofJson, JsonValue.get_ofJson, JsonValue.get_ofJson]
    cases m.get "chunks" with
    | none => rfl
    | some v =>
      cases v with
      | arr chunks =>
        rw [Option.map_some, JsonValue.ofJson]
        dsimp only
        have hsize : (fun total ↦ JsonValue.strictEq total ((m.get "size").map JsonValue.ofJson) &&
            Manifest.verifySignature P m) ∘ JsonValue.ofPrim =
            fun total ↦ Json.strictEq total (m.get "size") && Manifest.verifySignature P m := by
          funext total
          rw [Function.comp_apply, JsonValue.strictEq_ofPrim]
        rw [JsonValue.length_ofItems, totalSize_ofItems, Option.map_map, hsize,
          ← JsonValue.strictEq_ofPrim]
        rfl
      | _ => rfl

/-! ## What the hash determines

The fields that are signed are picked from the manifest in a fixed order, so their text tells each
of them apart, also where one is absent. -/

theorem lookup_pick (keys : List String) (get : String → Option JsonValue) (key : String) :
    (pick keys get).lookup (.of key) = if key ∈ keys then get key else none := by
  induction keys with
  | nil => rfl
  | cons key' keys ih =>
    rw [pick] at ih
    rw [pick, List.filterMap_cons]
    by_cases hkey : key = key'
    · subst hkey
      cases hget : get key with
      | none =>
        rw [Option.map_none, ih, hget]
        split_ifs <;> rfl
      | some v => rw [Option.map_some, List.lookup_cons_self, if_pos List.mem_cons_self]
    · have hmem : key ∈ key' :: keys ↔ key ∈ keys := by simp [hkey]
      have hne : JsString.of key ≠ .of key' := fun h ↦ hkey (JsonValue.of_inj h)
      cases get key' with
      | none => simpa [hmem] using ih
      | some v =>
        rw [Option.map_some, List.lookup_cons, beq_false_of_ne hne]
        simpa [hmem] using ih

/-- The fields that are picked are the same exactly when each of them is. -/
theorem pick_eq_iff {keys : List String} {get get' : String → Option JsonValue} :
    pick keys get = pick keys get' ↔ ∀ key ∈ keys, get key = get' key := by
  constructor
  · intro h key hkey
    have hlookup := congrArg (List.lookup (JsString.of key)) h
    rwa [lookup_pick, lookup_pick, if_pos hkey, if_pos hkey] at hlookup
  · intro h
    exact List.filterMap_congr fun key hkey ↦ by rw [h key hkey]

theorem blurFields_pick (keys : List String) (get : String → Option JsonValue) :
    blurFields (pick keys get) = pick keys fun key ↦ (get key).map blur := by
  induction keys with
  | nil => rfl
  | cons key keys ih =>
    rw [pick, pick] at ih
    rw [pick, pick, List.filterMap_cons, List.filterMap_cons, ← ih]
    cases get key <;> rfl

theorem parsed_of_lookup {fields : List (JsString × JsonValue)} (h : JsonValue.ParsedFields fields)
    {key : JsString} {v : JsonValue} (hv : fields.lookup key = some v) : v.Parsed := by
  induction fields with
  | nil => exact nomatch hv
  | cons field fields ih =>
    rw [List.lookup_cons] at hv
    split at hv
    · exact Option.some_inj.mp hv ▸ h.1
    · exact ih h.2 hv

theorem parsed_of_get {m v : JsonValue} (hm : m.Parsed) {key : String} (hv : m.get key = some v) :
    v.Parsed := by
  cases m with
  | obj fields => exact parsed_of_lookup hm hv
  | _ => exact nomatch hv

theorem parsed_ordered {m : JsonValue} (hm : m.Parsed) : (ordered m).Parsed := by
  have hpick : ∀ keys, JsonValue.ParsedFields (pick keys m.get) := by
    intro keys
    induction keys with
    | nil => trivial
    | cons key keys ih =>
      rw [pick] at ih ⊢
      rw [List.filterMap_cons]
      cases hget : m.get key with
      | none => exact ih
      | some v => exact ⟨parsed_of_get hm hget, ih⟩
  exact hpick signedFields

variable {P}

/-- **Manifests have one hash exactly when their signed fields are blurred to the same values.** -/
theorem manifestHash_eq_iff (hinj : Function.Injective P.sha256) {m m' : JsonValue} (hm : m.Parsed)
    (hm' : m'.Parsed) : manifestHash P m = manifestHash P m' ↔
      ∀ key ∈ signedFields, (m.get key).map blur = (m'.get key).map blur := by
  have hencode : Utf8.encode (ordered m).text = Utf8.encode (ordered m').text ↔
      (ordered m).text = (ordered m').text := by
    refine ⟨fun h ↦ ?_, congrArg _⟩
    rw [← Utf8.decode_encode (ordered m).text, h, Utf8.decode_encode]
  rw [manifestHash, manifestHash, hinj.eq_iff, hencode,
    JsonValue.text_eq_iff (parsed_ordered hm) (parsed_ordered hm'), ordered, ordered, blur, blur,
    JsonValue.obj.injEq, blurFields_pick, blurFields_pick, pick_eq_iff]

/-! ## Altered manifests

There are two ways to alter a manifest: to keep the signature, or to keep the hash that others know.
Both come down to the question which manifests have the same hash. -/

/-- What is assumed of the primitives: SHA-256 is injective, and a signature is valid for one
message at most. -/
structure Binding (P : Primitives) : Prop where
  sha256_inj : Function.Injective P.sha256
  eq_of_verify : ∀ signature message message' key key',
    P.verifyDetached signature message key = true →
      P.verifyDetached signature message' key' = true → message = message'

/-- The signed fields are equal. -/
def SameFields (m m' : JsonValue) : Prop := ∀ key ∈ signedFields, m.get key = m'.get key

/-- The signature of the manifest is one of its hash, under some key. -/
def Signed (P : Primitives) (m : JsonValue) : Prop :=
  ∃ signature key, JsonValue.bufferFrom (m.get "signature") = .ok signature ∧
    P.cryptoSignVerifyDetached signature (manifestHash P m) key = .ok true

/-- The hash of a manifest, and the signature of a signed one, fit no manifest with other fields. -/
def TamperEvident (P : Primitives) (m m' : JsonValue) : Prop :=
  (manifestHash P m = manifestHash P m' → SameFields m m') ∧
    (Signed P m →
      JsonValue.bufferFrom (m'.get "signature") = JsonValue.bufferFrom (m.get "signature") →
      verifyManifest P m' = some true → SameFields m m')

/-- Signed fields differ, but in numbers only that are not finite: where one manifest has such a
number, the other has `null` or another such number. -/
def DifferInOverflow (m m' : JsonValue) : Prop :=
  (∀ key ∈ signedFields, (m.get key).map blur = (m'.get key).map blur) ∧ ¬SameFields m m'

theorem verify_of_cryptoSignVerifyDetached {signature message key : Buffer}
    (h : P.cryptoSignVerifyDetached signature message key = .ok true) :
    P.verifyDetached signature message key = true := by
  rw [Primitives.cryptoSignVerifyDetached] at h
  split_ifs at h
  exact Except.ok.inj h

/-- An accepted manifest is signed, by its sender. -/
theorem signed_of_verifyManifest {m : JsonValue} (h : verifyManifest P m = some true) :
    Signed P m := by
  have hsignature : verifySignature P m = true := by
    rw [verifyManifest] at h
    split at h
    · exact nomatch h
    · split at h
      · split at h
        · exact nomatch h
        · obtain ⟨total, -, htotal⟩ := Option.map_eq_some_iff.mp h
          exact (Bool.and_eq_true_iff.mp htotal).2
      · exact nomatch h
  rw [verifySignature] at hsignature
  split at hsignature
  · next signature sender hsig hsender =>
    refine ⟨signature, sender, hsig, ?_⟩
    cases hverify : P.cryptoSignVerifyDetached signature (manifestHash P m) sender with
    | error e => rw [hverify] at hsignature; exact nomatch hsignature
    | ok b => rw [hverify] at hsignature; exact congrArg Except.ok hsignature
  · exact nomatch hsignature

/-- Manifests that are signed with one signature have one hash. -/
theorem manifestHash_eq_of_signed (hP : Binding P) {m m' : JsonValue} (hm : Signed P m)
    (hm' : Signed P m') (hsignature : JsonValue.bufferFrom (m'.get "signature") =
      JsonValue.bufferFrom (m.get "signature")) : manifestHash P m = manifestHash P m' := by
  obtain ⟨signature, key, hbuffer, hverify⟩ := hm
  obtain ⟨signature', key', hbuffer', hverify'⟩ := hm'
  rw [hsignature, hbuffer] at hbuffer'
  obtain rfl := Except.ok.inj hbuffer'
  exact hP.eq_of_verify _ _ _ _ _ (verify_of_cryptoSignVerifyDetached hverify)
    (verify_of_cryptoSignVerifyDetached hverify')

/-- **Signed fields are tamper-evident but for numbers that are not finite.**  `JSON.stringify`
writes these as `null`, and nothing that is hashed or checked tells them apart. -/
theorem tamperEvident_iff (hP : Binding P) {m m' : JsonValue} (hm : m.Parsed) (hm' : m'.Parsed) :
    TamperEvident P m m' ↔ ¬DifferInOverflow m m' := by
  have hhash := manifestHash_eq_iff hP.sha256_inj hm hm'
  constructor
  · intro h hdiffer
    exact hdiffer.2 (h.1 (hhash.mpr hdiffer.1))
  · intro h
    have hsame : manifestHash P m = manifestHash P m' → SameFields m m' :=
      fun heq ↦ not_not.mp fun hne ↦ h ⟨hhash.mp heq, hne⟩
    refine ⟨hsame, fun hsigned hsignature hverify ↦ hsame ?_⟩
    exact manifestHash_eq_of_signed hP hsigned (signed_of_verifyManifest hverify) hsignature

/-- The SHA-256 of the signed fields of the manifest below, with `null` for its `chunk_size`. -/
def sampleHash : Buffer :=
  [46, 101, 153, 128, 54, 102, 219, 235, 204, 98, 106, 17, 21, 16, 233, 115, 8, 244, 74, 3, 246, 27,
    94, 11, 212, 50, 197, 36, 18, 2, 12, 204]

/-- Its signature by the sender. -/
def sampleSignature : Buffer :=
  [225, 57, 125, 76, 44, 184, 188, 147, 154, 206, 85, 12, 152, 203, 132, 145, 0, 209, 160, 201, 142,
    160, 25, 76, 150, 98, 167, 247, 40, 248, 45, 237, 202, 94, 38, 246, 47, 195, 158, 254, 216, 118,
    135, 203, 211, 94, 71, 36, 102, 126, 252, 56, 136, 40, 136, 170, 163, 14, 68, 242, 30, 58,
    184, 7]

/-- The manifest of `hello.txt` with the given name and `chunk_size`. -/
def sample (filename : String) (chunkSize : JsonValue) : JsonValue :=
  .obj [(.of "file_id", .str (.of Manifest.sampleFileId.hex)),
    (.of "filename", .str (.of filename)),
    (.of "size", .num (.ofNat 9)), (.of "chunk_size", chunkSize),
    (.of "nb_chunks", .num (.ofNat 1)),
    (.of "chunks", .arr [.obj [(.of "index", .num 0),
      (.of "hash", .str (.of Manifest.sampleFileId.hex)), (.of "size", .num (.ofNat 9))]]),
    (.of "sender_id", .str (.of Manifest.sampleSender.hex)),
    (.of "signature", .str (.of sampleSignature.hex))]

/-- Functions that take the values of the real ones on that manifest, and are one-to-one. -/
def samplePrimitives : Primitives where
  SignKey := Unit
  publicKey _ := Manifest.sampleSender
  signDetached _ _ := sampleSignature
  verifyDetached signature message publicKey :=
    signature = sampleSignature ∧ message = sampleHash ∧ publicKey = Manifest.sampleSender
  sha256 m :=
    if m = Utf8.encode (ordered (sample "hello.txt" .null)).text then sampleHash
    else m ++ List.replicate 33 0
  hmacSha256 _ _ := List.replicate 32 0

theorem binding_samplePrimitives : Binding samplePrimitives where
  sha256_inj a b h := by
    have hlength : sampleHash.length = 32 := rfl
    simp only [samplePrimitives] at h
    split_ifs at h with ha hb hb
    · rw [ha, hb]
    · have hlen := congrArg List.length h
      rw [List.length_append, List.length_replicate] at hlen
      omega
    · have hlen := congrArg List.length h
      rw [List.length_append, List.length_replicate] at hlen
      omega
    · exact List.append_cancel_right h
  eq_of_verify signature message message' key key' h h' := by
    simp only [samplePrimitives, decide_eq_true_eq] at h h'
    rw [h.2.1, h'.2.1]

theorem get_sample (filename : String) (chunkSize : JsonValue) {key : String}
    (h : key ≠ "chunk_size") :
    (sample filename chunkSize).get key = (sample filename .null).get key := by
  have hne : JsString.of key ≠ .of "chunk_size" := fun heq ↦ h (JsonValue.of_inj heq)
  simp only [sample, JsonValue.get, List.lookup_cons, beq_false_of_ne hne]

theorem get_chunkSize_sample (filename : String) (chunkSize : JsonValue) :
    (sample filename chunkSize).get "chunk_size" = some chunkSize := by
  rfl

theorem manifestHash_sample {chunkSize : JsonValue} (h : chunkSize.blur = .null) :
    manifestHash samplePrimitives (sample "hello.txt" chunkSize) = sampleHash := by
  have hfields : ∀ key ∈ signedFields, ((sample "hello.txt" chunkSize).get key).map blur =
      ((sample "hello.txt" .null).get key).map blur := by
    intro key _
    by_cases hkey : key = "chunk_size"
    · rw [hkey, get_chunkSize_sample, get_chunkSize_sample, Option.map_some, h]
      rfl
    · rw [get_sample _ _ hkey]
  have htext : (ordered (sample "hello.txt" chunkSize)).text =
      (ordered (sample "hello.txt" .null)).text := by
    rw [← JsonValue.text_blur, ← JsonValue.text_blur (ordered (sample "hello.txt" .null)), ordered,
      ordered, blur, blur, blurFields_pick, blurFields_pick, pick_eq_iff.mpr hfields]
  exact if_pos (congrArg Utf8.encode htext)

theorem verifySignature_sample {chunkSize : JsonValue} (h : chunkSize.blur = .null) :
    verifySignature samplePrimitives (sample "hello.txt" chunkSize) = true := by
  have hhex : ∀ b : Buffer, Json.hexDecode (JsString.of b.hex) = b := Json.fromHex_hex
  have hsignature : (sample "hello.txt" chunkSize).get "signature" =
    some (.str (.of sampleSignature.hex)) := rfl
  have hsender : (sample "hello.txt" chunkSize).get "sender_id" =
    some (.str (.of Manifest.sampleSender.hex)) := rfl
  rw [verifySignature, hsignature, hsender, JsonValue.bufferFrom, JsonValue.bufferFrom, hhex, hhex,
    manifestHash_sample h]
  decide

theorem verifyManifest_sample {chunkSize : JsonValue} (h : chunkSize.blur = .null) :
    verifyManifest samplePrimitives (sample "hello.txt" chunkSize) = some true := by
  have hid : ((sample "hello.txt" chunkSize).get "file_id").any JsonValue.truthy = true := by
    rw [get_sample _ _ (by decide)]
    decide +kernel
  have hchunks : (sample "hello.txt" chunkSize).get "chunks" =
    some (.arr [.obj [(.of "index", .num (.ofNat 0)),
      (.of "hash", .str (.of Manifest.sampleFileId.hex)), (.of "size", .num (.ofNat 9))]]) := rfl
  have hcount : (sample "hello.txt" chunkSize).get "nb_chunks" = some (.num (.ofNat 1)) := rfl
  have hsize : (sample "hello.txt" chunkSize).get "size" = some (.num (.ofNat 9)) := rfl
  rw [verifyManifest, hid, hchunks, hcount, hsize, verifySignature_sample h]
  decide +kernel

theorem parsed_sample (filename : String) {chunkSize : JsonValue} (h : chunkSize.Parsed) :
    (sample filename chunkSize).Parsed := by
  have hnat : ∀ n : ℕ, (JsonValue.num (.ofNat n)).Parsed := fun n ↦ JsonValue.parsed_round n
  exact ⟨trivial, trivial, hnat 9, h, hnat 1, ⟨⟨hnat 0, trivial, hnat 9, trivial⟩, trivial⟩,
    trivial, trivial, trivial⟩

/-- A file cannot be renamed. -/
theorem tamperEvident_sample :
    TamperEvident samplePrimitives (sample "hello.txt" .null) (sample "bye.txt" .null) := by
  have hnull : JsonValue.null.Parsed := trivial
  refine (tamperEvident_iff binding_samplePrimitives (parsed_sample _ hnull)
    (parsed_sample _ hnull)).mpr fun h ↦ ?_
  have hname : some (JsonValue.str (.of "hello.txt")) = some (.str (.of "bye.txt")) :=
    h.1 "filename" (by decide)
  have htext := JsonValue.of_inj (JsonValue.str.inj (Option.some_inj.mp hname))
  exact absurd htext (by decide)

/-- **A `chunk_size` of `null` can be replaced by `1e999`.**  Both manifests are accepted. -/
theorem not_tamperEvident_sample :
    Binding samplePrimitives ∧ (sample "hello.txt" .null).Parsed ∧
      (sample "hello.txt" (.num (.ofString "1e999"))).Parsed ∧
      verifyManifest samplePrimitives (sample "hello.txt" .null) = some true ∧
      verifyManifest samplePrimitives (sample "hello.txt" (.num (.ofString "1e999"))) = some true ∧
      ¬TamperEvident samplePrimitives (sample "hello.txt" .null)
        (sample "hello.txt" (.num (.ofString "1e999"))) := by
  have hinfinity : Number.ofString "1e999" = .infinity false := by decide +kernel
  rw [hinfinity]
  refine ⟨binding_samplePrimitives, parsed_sample _ trivial, parsed_sample _ trivial,
    verifyManifest_sample rfl, verifyManifest_sample rfl, fun h ↦ ?_⟩
  have hsame := h.1 ((manifestHash_sample rfl).trans (manifestHash_sample rfl).symm)
  have hfield := hsame "chunk_size" (by decide)
  rw [get_chunkSize_sample, get_chunkSize_sample] at hfield
  exact nomatch hfield

end ParsedManifest

end AttestP2P
