import AttestP2P.File.FileNode
import AttestP2P.File.Footprint
import AttestP2P.Lib.Increasing
import AttestP2P.Lib.Machine
import Mathlib.Algebra.Order.Floor.Semiring

/-!
# What the index of a store says

The index lists the chunks of each file in increasing order; how many there are, which bits they set
and what `_load` finds on the disk follow from that and from when `_save` is called.

* `Json.Plain`: the values that `JSON.parse` reads back.  A number must be finite, and an object
  must have its fields in the order in which they are enumerated.
* `parseBitfield_bitfield` and `isComplete_iff`: what others are told of the index, and what the
  node itself concludes from it, is what it lists.
* `StoreLog` is a store with the calls that have been made, as far as they matter: for each chunk,
  the data that was written last.
* `Represents` is what the index should be after any calls, on the disk as well as in memory;
  `Sound` is the invariant behind it, which also says where on the disk everything is.
* `represents_of_careful`: the index is right as long as no two files share a directory and every
  file that is new can be registered.

Calls that are refused change nothing, and calls that are repeated write again what is there.
-/

set_option autoImplicit false

namespace AttestP2P

/-! ## Values that are read back -/

/-- A finite double, which is what a number of a parsed text is unless it overflows. -/
def Number.IsFinite : Number → Prop
  | .finite q => Number.round q = .finite q
  | _ => False

theorem Number.isFinite_ofNat {n : ℕ} (h : n ≤ 2 ^ 53) : (Number.ofNat n).IsFinite := by
  rw [Number.ofNat_of_le h]
  exact Number.ofNat_of_le h

namespace Json

mutual

/-- `JSON.parse(JSON.stringify(v))` is `v` again: the numbers in it are finite, and its objects are
objects, with each field once and in the order in which it is enumerated. -/
def Plain : Json → Prop
  | .null => True
  | .bool _ => True
  | .num n => n.IsFinite
  | .str _ => True
  | .arr xs => PlainItems xs
  | .obj fields => (fields.map Prod.fst).Nodup ∧ enumerate fields = fields ∧ PlainFields fields

def PlainItems : List Json → Prop
  | [] => True
  | x :: xs => x.Plain ∧ PlainItems xs

def PlainFields : List (String × Json) → Prop
  | [] => True
  | (_, v) :: fields => v.Plain ∧ PlainFields fields

end

theorem plainItems_iff {xs : List Json} : PlainItems xs ↔ ∀ x ∈ xs, x.Plain := by
  induction xs with
  | nil => simp [PlainItems]
  | cons x xs ih => simp [PlainItems, ih]

theorem plainFields_iff {fields : List (String × Json)} :
    PlainFields fields ↔ ∀ e ∈ fields, e.2.Plain := by
  induction fields with
  | nil => simp [PlainFields]
  | cons e fields ih => simp [PlainFields, ih]

/-- An object whose keys are no array indices, so that they are enumerated in the order of
insertion. -/
theorem plain_obj {fields : List (String × Json)} (hnodup : (fields.map Prod.fst).Nodup)
    (hkeys : ∀ e ∈ fields, arrayIndex e.1 = none) (hplain : ∀ e ∈ fields, e.2.Plain) :
    (Json.obj fields).Plain := by
  have hsorted : enumerate ([] ++ fields) = [] ++ fields := enumerate_of_sorted nofun hkeys .nil
  exact ⟨hnodup, hsorted, plainFields_iff.mpr hplain⟩

/-- A map as an object, whose values are plain if those of the map are. -/
theorem plain_enumerate {ν : Type} (m : OrderedMap String ν) {value : ν → Json}
    (h : ∀ key v, m.get? key = some v → (value v).Plain) :
    (Json.obj ((enumerate m.entries).map fun e ↦ (e.1, value e.2))).Plain := by
  rw [map_enumerate]
  refine ⟨?_, enumerate_enumerate _, plainFields_iff.mpr fun e he ↦ ?_⟩
  · rw [((perm_enumerate _).map _).nodup_iff, List.map_map]
    exact m.nodup
  · obtain ⟨⟨key, v⟩, hv, rfl⟩ := List.mem_map.mp (mem_enumerate.mp he)
    exact h key v (OrderedMap.mem_entries_iff.mp hv)

end Json

namespace ChunkStore

open FileSystem

variable {P : Primitives} {s : ChunkStore} {f : String} {chunks : List ℕ} {n i j k : ℕ}
  {e : StoreEntry}

/-- The index in memory, of which `indexText` is the text. -/
def indexJson (s : ChunkStore) : Json :=
  .obj [("files", .obj ((enumerate s.files.entries).map fun e ↦ (e.1, entryJson e.2)))]

/-- Every field of the entry that the manifest has given is read back. -/
structure PlainEntry (e : StoreEntry) : Prop where
  filename : ∀ v ∈ e.filename, v.Plain
  size : ∀ v ∈ e.size, v.Plain
  chunkSize : ∀ v ∈ e.chunkSize, v.Plain
  replicationFactor : e.replicationFactor = 1

/-- A field, if it is there: `JSON.stringify` leaves out what is `undefined`. -/
def present (key : String) (v : Option Json) : List (String × Json) := v.elim [] fun v ↦ [(key, v)]

theorem sublist_present (key : String) (v : Option Json) :
    ((present key v).map Prod.fst).Sublist [key] := by
  cases v with
  | none => exact List.nil_sublist _
  | some v => exact List.Sublist.refl _

theorem plain_of_present {key : String} {v : Option Json} {field : String × Json}
    (hv : ∀ w ∈ v, w.Plain) (hfield : field ∈ present key v) : field.2.Plain := by
  cases v with
  | none => exact nomatch hfield
  | some v =>
    rw [List.mem_singleton.mp hfield]
    exact hv v rfl

/-- The fields of an entry, in the order in which the source writes them. -/
def entryFields (e : StoreEntry) : List (String × Json) :=
  present "filename" e.filename ++ present "size" e.size ++ present "chunk_size" e.chunkSize ++
    present "nb_chunks" e.nbChunks ++
    [("chunks", .arr (e.chunks.map fun i ↦ .num (.ofNat i))),
      ("replicationFactor", .num (.ofNat e.replicationFactor))]

theorem entryJson_eq (e : StoreEntry) : entryJson e = .obj (entryFields e) := rfl

theorem sublist_entryFields (e : StoreEntry) : ((entryFields e).map Prod.fst).Sublist
    ["filename", "size", "chunk_size", "nb_chunks", "chunks", "replicationFactor"] := by
  simp only [entryFields, List.map_append]
  exact ((((sublist_present _ _).append (sublist_present _ _)).append (sublist_present _ _)).append
    (sublist_present _ _)).append (List.Sublist.refl _)

theorem plain_entryJson (h : PlainEntry e) (hnb : e.nbChunks = some (.num (.ofNat n)))
    (hn : n ≤ 2 ^ 53) (hchunks : ∀ i ∈ e.chunks, i < n) : (entryJson e).Plain := by
  have hnames := sublist_entryFields e
  have hnone : ∀ key ∈ ["filename", "size", "chunk_size", "nb_chunks", "chunks",
      "replicationFactor"], ∃ c ∈ key.toList, c.isDigit = false := by simp
  rw [entryJson_eq]
  refine Json.plain_obj (hnames.nodup (by decide)) (fun field hfield ↦ ?_) fun field hfield ↦ ?_
  · exact arrayIndex_eq_none (hnone _ (hnames.subset (List.mem_map_of_mem hfield)))
  · simp only [entryFields, List.mem_append, List.mem_cons, List.not_mem_nil, or_false] at hfield
    obtain (((hfield | hfield) | hfield) | hfield) | rfl | rfl := hfield
    · exact plain_of_present h.filename hfield
    · exact plain_of_present h.size hfield
    · exact plain_of_present h.chunkSize hfield
    · refine plain_of_present (fun v hv ↦ ?_) hfield
      obtain rfl := Option.some.inj (hnb.symm.trans hv)
      exact Number.isFinite_ofNat hn
    · refine Json.plainItems_iff.mpr fun x hx ↦ ?_
      obtain ⟨i, hi, rfl⟩ := List.mem_map.mp hx
      exact Number.isFinite_ofNat ((hchunks i hi).le.trans hn)
    · exact Number.isFinite_ofNat (by rw [h.replicationFactor]; decide)

theorem plain_indexJson (h : ∀ f e, s.files.get? f = some e → (entryJson e).Plain) :
    s.indexJson.Plain := by
  refine Json.plain_obj (by simp) (fun field hfield ↦ ?_) fun field hfield ↦ ?_
  · have hf : ∃ c ∈ "files".toList, c.isDigit = false := by simp
    rw [List.mem_singleton.mp hfield]
    exact arrayIndex_eq_none hf
  · rw [List.mem_singleton.mp hfield]
    exact Json.plain_enumerate s.files h

/-! ## Bits

Whether a bit is set can be read off the list of chunks, and the list off the bits, given the number
of chunks. -/

/-- A bit of a byte of `bitfield` is set exactly if the chunk at its place is listed. -/
theorem testBit_bitfieldByte : (bitfieldByte chunks j).toNat.testBit k = true ↔
    ∃ i ∈ chunks, i / 8 = j ∧ 7 - i % 8 = k := by
  have hfold (b : UInt8) : (chunks.foldl (fun b i ↦ if i / 8 = j then
      b ||| UInt8.ofNat (2 ^ (7 - i % 8)) else b) b).toNat.testBit k = true ↔
        b.toNat.testBit k = true ∨ ∃ i ∈ chunks, i / 8 = j ∧ 7 - i % 8 = k := by
    induction chunks generalizing b with
    | nil => simp
    | cons i chunks ih =>
      have hpow : (UInt8.ofNat (2 ^ (7 - i % 8))).toNat = 2 ^ (7 - i % 8) := by
        rw [UInt8.toNat_ofNat']
        exact Nat.mod_eq_of_lt (Nat.pow_lt_pow_right (by decide) (by omega))
      rw [List.foldl_cons, ih]
      by_cases hi : i / 8 = j
      · rw [if_pos hi, UInt8.toNat_or, Nat.testBit_or, Bool.or_eq_true, hpow, Nat.testBit_two_pow,
          decide_eq_true_iff, or_assoc]
        simp [hi]
      · rw [if_neg hi]
        simp [hi]
  rw [bitfieldByte, hfold]
  simp

theorem bitfieldLength_ofNat (h : n ≤ 2 ^ 53) :
    bitfieldLength (some (.num (.ofNat n))) = some ⌈(n : ℚ) / 8⌉₊ := by
  have hfinite : (Json.num (.ofNat n)).toNumber = some (.finite n) :=
    congrArg some (Number.ofNat_of_le h)
  have hcount : (-8 : ℚ) < n := (neg_lt_zero.mpr (by norm_num)).trans_le (Nat.cast_nonneg _)
  rw [bitfieldLength, Option.bind_some, hfinite]
  exact if_pos hcount

/-- The bits that are set are those of the chunks; `>>` and `<<` take `n` up to `2 ^ 31`. -/
theorem bitSet_bitfield (hn : n < 2 ^ 31) (hi : i < n) :
    bitSet ((List.range ⌈(n : ℚ) / 8⌉₊).map (bitfieldByte chunks)) i = true ↔ i ∈ chunks := by
  have hmod : i % 2 ^ 32 = i := Nat.mod_eq_of_lt (by omega)
  have hbyte : i / 8 < ⌈(n : ℚ) / 8⌉₊ := by
    rw [Nat.lt_ceil, lt_div_iff₀ (by norm_num)]
    exact_mod_cast (Nat.div_mul_le_self i 8).trans_lt hi
  rw [bitSet, hmod, List.getElem?_map, List.getElem?_range hbyte, Option.map_some, Option.any_some,
    Bool.and_eq_true, testBit_bitfieldByte]
  constructor
  · rintro ⟨-, j, hj, hdiv, hmod⟩
    obtain rfl : j = i := by omega
    exact hj
  · exact fun hmem ↦ ⟨decide_eq_true (by omega), i, hmem, rfl, rfl⟩

/-- An entry lists chunks of the file, in increasing order. -/
structure Lists (e : StoreEntry) (n : ℕ) : Prop where
  nbChunks : e.nbChunks = some (.num (.ofNat n))
  chunks : Increasing n e.chunks

theorem lookup_of_get? (he : s.files.get? f = some e) : s.lookup f = .entry e := by
  rw [lookup, he]

/-- **A bit field is read back** as the chunks that it was made from, which are those that the index
lists. -/
theorem parseBitfield_bitfield (he : s.files.get? f = some e) (h : Lists e n) (hn : n < 2 ^ 31) :
    ∃ bf, s.bitfield f = .ok bf ∧ s.availableChunks f = .ok e.chunks ∧
      parseBitfield bf (some (.num (.ofNat n))) = some e.chunks := by
  have hlookup := lookup_of_get? he
  refine ⟨(List.range ⌈(n : ℚ) / 8⌉₊).map (bitfieldByte e.chunks), ?_, ?_, ?_⟩
  · rw [bitfield, hlookup]
    dsimp only
    rw [h.nbChunks, bitfieldLength_ofNat (by omega)]
  · rw [availableChunks, hlookup]
  · have hcount : loopCount (some (.num (.ofNat n))) = some n :=
      Number.countBelow_ofNat (by omega)
    rw [parseBitfield, hcount, Option.map_some, h.chunks.filter_range]
    exact fun i hi ↦ bitSet_bitfield hn hi

/-- **A file is complete** when the index lists all chunks. -/
theorem isComplete_iff (he : s.files.get? f = some e) (h : Lists e n) (hn : n < 2 ^ 31) :
    s.isComplete f = .ok true ↔ ∀ i < n, s.hasChunk f i = .ok true := by
  have hhas (i : ℕ) : s.hasChunk f i = .ok true ↔ i ∈ e.chunks := by
    simp [hasChunk_iff, he]
  have hle := h.chunks.length_le
  have heq : Json.strictEq (.num (.ofNat e.chunks.length)) e.nbChunks = true ↔
      e.chunks.length = n := by
    rw [h.nbChunks, Number.ofNat_of_le (by omega), Number.ofNat_of_le (by omega)]
    simp [Json.strictEq, Number.strictEq]
  simp only [hhas]
  rw [isComplete, lookup_of_get? he, ← h.chunks.length_eq_iff, ← heq]
  simp

/-! ## The index on disk

After every call the text on disk is that of the index in memory, or the index is still empty and
there is no such file. -/

/-- The disk has the index that is in memory. -/
structure Saved (s : ChunkStore) : Prop where
  writable : s.disk.Writable s.indexPath
  content : s.disk s.indexPath = some (.file s.indexText)

/-- The disk has the index, or nothing has been registered yet. -/
def Persisted (s : ChunkStore) : Prop :=
  s.Saved ∨ s.files = .empty ∧ ∀ content, s.disk s.indexPath ≠ some (.file content)

theorem saved_save (h : s.disk.Writable s.indexPath) : s.save.1.Saved ∧ s.save.2 = .ok () := by
  obtain ⟨disk, hwrite⟩ := (writable_iff s.indexText).mp h
  obtain ⟨haccepts, hwrites⟩ := writes_of_writeFileSync hwrite
  have hparent : s.indexPath.dropLast ≠ s.indexPath := fun heq ↦ by
    have hlen := congrArg List.length heq
    rw [List.length_dropLast, length_indexPath] at hlen
    omega
  rw [save, hwrite]
  refine ⟨⟨⟨haccepts, h.named, ?_, ?_⟩, hwrites.written⟩, rfl⟩
  · exact fun hdir ↦ by cases hwrites.written.symm.trans hdir
  · exact (hwrites.others _ hparent).trans h.parent

/-- An index that is on the disk stays there when files are written elsewhere. -/
theorem Saved.writes {disk : FileSystem} {data : Buffer} (h : s.Saved)
    (hwritable : s.disk.Writable (s.chunkPath f i))
    (hwrites : Writes s.disk disk (s.chunkPath f i) data) :
    ({ s with disk := disk } : ChunkStore).Saved where
  writable := (writable_index_of_writes hwrites hwritable.free).mpr h.writable
  content := (hwrites.others _ chunkPath_ne_index.symm).trans h.content

/-- And when directories are made, the index can still be written. -/
theorem Saved.mkdirSync {disk : FileSystem} {loc : Location} (h : s.Saved)
    (hmkdir : s.disk.mkdirSync loc = .ok disk) : disk.Writable s.indexPath := by
  obtain ⟨hmade, hkept⟩ := of_mkdirSync hmkdir
  have hindex : disk s.indexPath = s.disk s.indexPath :=
    hkept _ fun hprefix ↦ (hmade _ hprefix).2 _ h.content
  refine ⟨h.writable.accepts, h.writable.named, hindex ▸ h.writable.free, ?_⟩
  by_cases hprefix : s.indexPath.dropLast <+: loc
  · exact (hmade _ hprefix).1
  · exact (hkept _ hprefix).trans h.writable.parent

/-- A file that has an entry is registered again. -/
theorem Saved.registerManifest {m : Json} (h : s.Saved) (he : s.files.get? f = some e) :
    (s.registerManifest f m).1.Saved := by
  have hadd : s.addEntry f m = s := by rw [addEntry, lookup_of_get? he]
  rw [ChunkStore.registerManifest, hadd]
  split
  · split
    · next disk hmkdir =>
      have hwritable : disk.Writable s.indexPath := h.mkdirSync hmkdir
      exact (saved_save (s := { s with disk := disk }) hwritable).1
    · exact h
  · exact h

theorem saved_registerManifest {m : Json} (h : (s.registerManifest f m).2 = .ok ()) :
    (s.registerManifest f m).1.Saved := by
  rw [registerManifest] at h ⊢
  split at h
  · split at h
    · next disk hmkdir => exact (saved_save (save_eq_ok_iff.mp h)).1
    · cases h
  · cases h

/-- **Opening the store again** gives the index, if `JSON.parse` reads plain values back. -/
theorem Persisted.load (h : s.Persisted) {jsonParse : Buffer → Option Json}
    (hparse : jsonParse s.indexText = some s.indexJson) : s.load jsonParse = s.indexJson := by
  rw [ChunkStore.load]
  rcases h with h | ⟨hfiles, hnone⟩
  · rw [readFileSync_of_file h.writable.accepts h.content]
    simp [hparse]
  · have hempty : s.indexJson = .obj [("files", .obj [])] := by
      simp [indexJson, hfiles, OrderedMap.empty, enumerate]
    cases hread : s.disk.readFileSync s.indexPath with
    | ok content => exact absurd (readFileSync_eq_ok hread).2 (hnone content)
    | error err => exact hempty.symm

theorem getChunk_registerManifest {key : String} {m : Json} {data : Buffer}
    (h : s.getChunk f i = .ok data) : (s.registerManifest key m).1.getChunk f i = .ok data := by
  obtain ⟨haccepts, hfile⟩ := readFileSync_eq_ok h
  rw [getChunk, chunkPath_congr (confined_registerManifest s key m).baseDir]
  exact readFileSync_of_file haccepts (file_registerManifest chunkPath_ne_index hfile)

/-! ## Putting a chunk -/

/-- The data does not have the hash that is expected. -/
def Refuses (P : Primitives) (data : Buffer) (expected : Option Json) : Prop :=
  expected.any Json.truthy = true ∧ Json.strictEq (.str (P.sha256 data).hex) expected = false

instance (P : Primitives) (data : Buffer) (expected : Option Json) :
    Decidable (Refuses P data expected) := inferInstanceAs (Decidable (_ ∧ _))

/-- What `putChunk` leaves and returns: nothing new, a file that no entry lists, or a chunk in the
index and on the disk. -/
inductive Put (s : ChunkStore) (f : String) (i : ℕ) (data : Buffer) :
    ChunkStore → Except String Bool → Prop
  | nothing {r} (hr : r ≠ .ok true) : Put s f i data s r
  | unlisted {disk r} (hwritable : s.disk.Writable (s.chunkPath f i))
    (hwrites : Writes s.disk disk (s.chunkPath f i) data) (hnone : s.files.get? f = none) :
    Put s f i data { s with disk := disk } r
  | again {disk e} (hwritable : s.disk.Writable (s.chunkPath f i))
    (hwrites : Writes s.disk disk (s.chunkPath f i) data) (he : s.files.get? f = some e)
    (hi : i ∈ e.chunks) : Put s f i data { s with disk := disk } (.ok true)
  | listed {disk e} (hwritable : s.disk.Writable (s.chunkPath f i))
    (hwrites : Writes s.disk disk (s.chunkPath f i) data) (he : s.files.get? f = some e)
    (hi : i ∉ e.chunks) {s' : ChunkStore} {r}
    (hsave : ({ s with disk := disk, files := s.files.set f (addChunk e i) } : ChunkStore).save =
      (s', r)) : Put s f i data s' (r.map fun _ ↦ true)

theorem putChunk_of_refuses {data : Buffer} {expected : Option Json}
    (h : Refuses P data expected) : s.putChunk P f i data expected = (s, .ok false) := by
  obtain ⟨htruthy, hhash⟩ := h
  rw [putChunk, if_pos]
  simp [htruthy, hhash]

theorem put_putChunk {data : Buffer} {expected : Option Json} (h : ¬Refuses P data expected) :
    Put s f i data (s.putChunk P f i data expected).1 (s.putChunk P f i data expected).2 := by
  rw [putChunk, if_neg (by simpa [Refuses] using h)]
  cases hwrite : s.disk.writeFileSync (s.chunkPath f i) data with
  | error err => exact .nothing (fun h ↦ by cases h)
  | ok disk =>
    have hwritable := (writable_iff data).mpr ⟨disk, hwrite⟩
    have hwrites := (writes_of_writeFileSync hwrite).2
    have hlookup : ({ s with disk := disk } : ChunkStore).lookup f = s.lookup f := rfl
    dsimp only
    rw [hlookup, lookup]
    cases hget : s.files.get? f with
    | none =>
      by_cases hinherited : f ∈ inheritedNames
      · rw [if_pos hinherited]
        exact .unlisted hwritable hwrites hget
      · rw [if_neg hinherited]
        exact .unlisted hwritable hwrites hget
    | some e =>
      by_cases hi : i ∈ e.chunks
      · dsimp only
        rw [if_pos (List.contains_iff_mem.mpr hi)]
        exact .again hwritable hwrites hget hi
      · dsimp only
        rw [if_neg fun hmem ↦ hi (List.contains_iff_mem.mp hmem)]
        exact .listed hwritable hwrites hget hi rfl

variable {s' : ChunkStore} {r : Except String Bool} {data : Buffer}

theorem Persisted.saved (h : s.Persisted) (he : s.files.get? f = some e) : s.Saved := by
  rcases h with h | ⟨hempty, -⟩
  · exact h
  · simp [hempty] at he

theorem Persisted.writes {disk : FileSystem} (h : s.Persisted)
    (hwritable : s.disk.Writable (s.chunkPath f i))
    (hwrites : Writes s.disk disk (s.chunkPath f i) data) :
    ({ s with disk := disk } : ChunkStore).Persisted := by
  rcases h with h | ⟨hempty, hnone⟩
  · exact .inl (h.writes hwritable hwrites)
  · refine .inr ⟨hempty, fun content hcontent ↦ hnone content ?_⟩
    exact (hwrites.others _ chunkPath_ne_index.symm).symm.trans hcontent

/-- The index can be saved when a chunk is listed. -/
theorem Persisted.list {disk : FileSystem} (h : s.Persisted)
    (hwritable : s.disk.Writable (s.chunkPath f i))
    (hwrites : Writes s.disk disk (s.chunkPath f i) data) (he : s.files.get? f = some e) :
    (⟨s.baseDir, s.files.set f (addChunk e i), disk⟩ : ChunkStore).save.1.Saved ∧
      (⟨s.baseDir, s.files.set f (addChunk e i), disk⟩ : ChunkStore).save.2 = .ok () :=
  saved_save (s := ⟨s.baseDir, s.files.set f (addChunk e i), disk⟩)
    ((h.saved he).writes hwritable hwrites).writable

theorem Put.persisted (h : Put s f i data s' r) (hs : s.Persisted) : s'.Persisted := by
  cases h with
  | nothing hr => exact hs
  | unlisted hwritable hwrites hnone => exact hs.writes hwritable hwrites
  | again hwritable hwrites he hi => exact hs.writes hwritable hwrites
  | listed hwritable hwrites he hi hsave =>
    have hnew := hs.list hwritable hwrites he
    rw [hsave] at hnew
    exact .inl hnew.1

/-- Nothing happens, or the chunk is written; a file that has an entry then has the chunk. -/
theorem Put.wrote (h : Put s f i data s' r) (hs : s.Persisted) :
    s' = s ∧ r ≠ .ok true ∨ s.disk.Writable (s.chunkPath f i) ∧ Wrote s s' f i data ∧
      ∀ e, s.files.get? f = some e → r = .ok true := by
  cases h with
  | nothing hr => exact .inl ⟨rfl, hr⟩
  | unlisted hwritable hwrites hnone =>
    exact .inr ⟨hwritable, wrote_of_writes hwrites, fun e he ↦ nomatch hnone.symm.trans he⟩
  | again hwritable hwrites he hi =>
    exact .inr ⟨hwritable, wrote_of_writes hwrites, fun _ _ ↦ rfl⟩
  | listed hwritable hwrites he hi hsave =>
    have hwrote := (wrote_of_writes hwrites).list he
    have hnew := hs.list hwritable hwrites he
    dsimp only at hwrote
    rw [hsave] at hwrote hnew
    exact .inr ⟨hwritable, hwrote, fun _ _ ↦ congrArg (Except.map fun _ ↦ true) hnew.2⟩

/-- Entries are as before, except that the chunk has been added. -/
theorem Put.entry {g : String} {e' : StoreEntry} (h : Put s f i data s' r)
    (he' : s'.files.get? g = some e') : s.files.get? g = some e' ∨
      g = f ∧ ∃ e, s.files.get? f = some e ∧ i ∉ e.chunks ∧ e' = addChunk e i := by
  cases h with
  | nothing hr => exact .inl he'
  | unlisted hwritable hwrites hnone => exact .inl he'
  | again hwritable hwrites he hi => exact .inl he'
  | @listed disk e hwritable hwrites he hi _ _ hsave =>
    have hfiles : s'.files = s.files.set f (addChunk e i) := by
      have hsame := files_save ⟨s.baseDir, s.files.set f (addChunk e i), disk⟩
      rwa [hsave] at hsame
    rw [hfiles, OrderedMap.get?_set] at he'
    by_cases hg : g = f
    · rw [if_pos hg] at he'
      exact .inr ⟨hg, e, he, hi, (Option.some.inj he').symm⟩
    · rw [if_neg hg] at he'
      exact .inl he'

theorem Put.exists_entry {g : String} (h : Put s f i data s' r) (hs : s.Persisted)
    (he : s.files.get? g = some e) : ∃ e', s'.files.get? g = some e' := by
  obtain ⟨rfl, -⟩ | ⟨-, hwrote, -⟩ := h.wrote hs
  · exact ⟨e, he⟩
  · rcases hwrote.files with hfiles | ⟨e₀, he₀, hfiles⟩
    · exact ⟨e, by rw [hfiles, he]⟩
    · rw [hfiles, OrderedMap.get?_set]
      split
      · exact ⟨_, rfl⟩
      · exact ⟨e, he⟩

end ChunkStore

/-! ## Calls

The two calls that change a store, with what is recorded of them.  `Careful` is the condition under
which the index stays right; it looks at the call and at the store before it. -/

/-- A call of the store that writes to it; the others only read. -/
inductive StoreCall where
  | registerManifest (m : Json)
  | putChunk (fileId : String) (idx : ℕ) (data : Buffer) (expectedHashHex : Option Json)

/-- A store after some calls, with what has been registered and written by them. -/
structure StoreLog where
  store : ChunkStore
  /-- The files whose manifests have been registered. -/
  registered : List String
  /-- The data of the last `putChunk` of each chunk that was successful. -/
  written : String → ℕ → Option Buffer

namespace StoreLog

open FileSystem ChunkStore

variable {P : Primitives} {nb : String → ℕ} {log : StoreLog} {call : StoreCall}

/-- The data is what was put last, if the call was successful. -/
def record (written : String → ℕ → Option Buffer) (f : String) (idx : ℕ) (data : Buffer) :
    Except String Bool → String → ℕ → Option Buffer
  | .ok true => fun g i ↦ if g = f ∧ i = idx then some data else written g i
  | _ => written

def next (P : Primitives) (log : StoreLog) : StoreCall → StoreLog
  | .registerManifest m =>
    match FileNode.fileKey m with
    | .error _ => log
    | .ok key =>
      { log with
        store := (log.store.registerManifest key m).1
        registered := key :: log.registered }
  | .putChunk f idx data expected =>
    { log with
      store := (log.store.putChunk P f idx data expected).1
      written := record log.written f idx data (log.store.putChunk P f idx data expected).2 }

/-- A new store, in a directory without an index. -/
structure Fresh (log : StoreLog) : Prop where
  files : log.store.files = .empty
  index : ∀ content, log.store.disk log.store.indexPath ≠ some (.file content)
  registered : log.registered = []

/-- Every manifest of a file says that it has `nb` chunks, and the chunks that are put are among
them. -/
def Conforms (nb : String → ℕ) : StoreCall → Prop
  | .registerManifest m =>
    ∀ key, FileNode.fileKey m = .ok key → m.get "nb_chunks" = some (.num (.ofNat (nb key)))
  | .putChunk f idx _ _ => idx < nb f

/-- A file that is new has a string for an id, which is no property of `Object.prototype`; the disk
takes its directory and the index, and what the index keeps of its manifest is read back. -/
structure Registers (s : ChunkStore) (key : String) (m : Json) : Prop where
  fileId : m.get "file_id" = some (.str key)
  own : key ∉ inheritedNames
  disk : s.CanRegister key
  plain : PlainEntry (newEntry m)

/-- Either the file has been registered before, or it `Registers`.  Either the data is refused, or
it overwrites no chunk of a file that has the same directory with other data. -/
def Careful (P : Primitives) (log : StoreLog) : StoreCall → Prop
  | .registerManifest m => ∀ key, FileNode.fileKey m = .ok key →
    (log.store.files.get? key).isSome ∨ Registers log.store key m
  | .putChunk f idx data expected => Refuses P data expected ∨ ∀ g ≠ f,
    log.store.dir g = log.store.dir f → log.store.hasChunk g idx = .ok true →
      log.store.getChunk g idx = .ok data

/-- **The index is right**: its chunks are sorted and below the count, on the disk, and the same in
the bit field and after a reload. -/
structure Represents (nb : String → ℕ) (log : StoreLog) : Prop where
  chunks : ∀ f e, log.store.files.get? f = some e → Increasing (nb f) e.chunks
  content : ∀ f i, log.store.hasChunk f i = .ok true →
    ∃ data, log.written f i = some data ∧ log.store.getChunk f i = .ok data
  bitfield : ∀ f ∈ log.registered, ∃ bf chunks, log.store.bitfield f = .ok bf ∧
    log.store.availableChunks f = .ok chunks ∧
    parseBitfield bf (some (.num (.ofNat (nb f)))) = some chunks
  isComplete : ∀ f ∈ log.registered,
    log.store.isComplete f = .ok true ↔ ∀ i < nb f, log.store.hasChunk f i = .ok true
  load : ∀ jsonParse : Buffer → Option Json,
    (log.store.indexJson.Plain → jsonParse log.store.indexText = some log.store.indexJson) →
    log.store.load jsonParse = log.store.indexJson

/-- The invariant, which also says that the index has been saved and that its entries survive the
text. -/
structure Sound (nb : String → ℕ) (log : StoreLog) : Prop where
  persisted : log.store.Persisted
  registered : ∀ f ∈ log.registered, ∃ e, log.store.files.get? f = some e
  entries : ∀ f e, log.store.files.get? f = some e → Lists e (nb f) ∧ PlainEntry e
  content : ∀ f e i, log.store.files.get? f = some e → i ∈ e.chunks →
    ∃ data, log.written f i = some data ∧ log.store.getChunk f i = .ok data

theorem Sound.represents (h : log.Sound nb) (hnb : ∀ f, nb f < 2 ^ 31) : log.Represents nb where
  chunks f e he := (h.entries f e he).1.chunks
  content f i hhas := by
    obtain ⟨e, he, hi⟩ := hasChunk_iff.mp hhas
    exact h.content f e i he hi
  bitfield f hf := by
    obtain ⟨e, he⟩ := h.registered f hf
    obtain ⟨bf, hbf, havailable, hparse⟩ :=
      parseBitfield_bitfield he (h.entries f e he).1 (hnb f)
    exact ⟨bf, e.chunks, hbf, havailable, hparse⟩
  isComplete f hf := by
    obtain ⟨e, he⟩ := h.registered f hf
    exact isComplete_iff he (h.entries f e he).1 (hnb f)
  load jsonParse hparse := by
    refine h.persisted.load (hparse (plain_indexJson fun f e he ↦ ?_))
    obtain ⟨hlists, hplain⟩ := h.entries f e he
    exact plain_entryJson hplain hlists.nbChunks ((hnb f).le.trans (by decide))
      hlists.chunks.below

theorem Fresh.sound (h : log.Fresh) : log.Sound nb where
  persisted := .inr ⟨h.files, h.index⟩
  registered f hf := by simp [h.registered] at hf
  entries f e he := by simp [h.files] at he
  content f e i he := by simp [h.files] at he

/-! ## A manifest is registered -/

theorem Sound.saved_register (h : log.Sound nb) {key : String} {m : Json}
    (hkey : (log.store.files.get? key).isSome ∨ Registers log.store key m) :
    (log.store.registerManifest key m).1.Saved := by
  rcases hkey with hsome | hregisters
  · obtain ⟨e, he⟩ := Option.isSome_iff_exists.mp hsome
    rcases h.persisted with hsaved | ⟨hempty, -⟩
    · exact hsaved.registerManifest he
    · simp [hempty] at he
  · exact saved_registerManifest
      ((registerManifest_eq_ok_iff hregisters.fileId).mpr hregisters.disk)

/-- The entries are those that there were, and that of the file. -/
theorem get?_register {key f : String} {m : Json} {e : StoreEntry}
    (hkey : (log.store.files.get? key).isSome ∨ Registers log.store key m)
    (he : (log.store.registerManifest key m).1.files.get? f = some e) :
    log.store.files.get? f = some e ∨ f = key ∧ Registers log.store key m ∧ e = newEntry m := by
  rw [files_registerManifest, get?_addEntry] at he
  by_cases hf : f = key
  · subst hf
    rw [if_pos rfl] at he
    cases hget : log.store.files.get? f with
    | some e' => exact .inl (by simpa [hget] using he)
    | none =>
      have hregisters : Registers log.store f m := hkey.resolve_left (by simp [hget])
      rw [if_neg hregisters.own, hget] at he
      exact .inr ⟨rfl, hregisters, (Option.some.inj he).symm⟩
  · rw [if_neg hf] at he
    exact .inl he

theorem exists_register {key : String} {m : Json}
    (hkey : (log.store.files.get? key).isSome ∨ Registers log.store key m) :
    ∃ e, (log.store.registerManifest key m).1.files.get? key = some e := by
  rw [files_registerManifest, get?_addEntry, if_pos rfl]
  rcases hkey with hsome | hregisters
  · obtain ⟨e, he⟩ := Option.isSome_iff_exists.mp hsome
    exact ⟨e, by simp [he]⟩
  · rw [if_neg hregisters.own]
    exact ⟨_, rfl⟩

theorem Sound.registerManifest (h : log.Sound nb) {key : String} {m : Json}
    (hnb : m.get "nb_chunks" = some (.num (.ofNat (nb key))))
    (hkey : (log.store.files.get? key).isSome ∨ Registers log.store key m) :
    Sound nb { log with
      store := (log.store.registerManifest key m).1
      registered := key :: log.registered } where
  persisted := .inl (h.saved_register hkey)
  registered f hf := by
    rcases List.mem_cons.mp hf with rfl | hf
    · exact exists_register hkey
    · obtain ⟨e, he⟩ := h.registered f hf
      obtain ⟨e', he', -⟩ := grows_registerManifest log.store key m f e he
      exact ⟨e', he'⟩
  entries f e he := by
    obtain he | ⟨rfl, hregisters, rfl⟩ := get?_register hkey he
    · exact h.entries f e he
    · exact ⟨⟨hnb, .nil _⟩, hregisters.plain⟩
  content f e i he hi := by
    obtain he | ⟨rfl, hregisters, rfl⟩ := get?_register hkey he
    · obtain ⟨data, hwritten, hget⟩ := h.content f e i he hi
      exact ⟨data, hwritten, getChunk_registerManifest hget⟩
    · exact nomatch hi

/-! ## A chunk is put -/

theorem record_of_ne {written : String → ℕ → Option Buffer} {f g : String} {i j : ℕ} {data : Buffer}
    {r : Except String Bool} (h : ¬(g = f ∧ j = i)) :
    record written f i data r g j = written g j := by
  rw [record.eq_def]
  split
  · rw [if_neg h]
  · rfl

theorem record_of_failed {written : String → ℕ → Option Buffer} {f : String} {i : ℕ} {data : Buffer}
    {r : Except String Bool} (h : r ≠ .ok true) : record written f i data r = written := by
  rw [record.eq_def]
  split
  · exact absurd rfl h
  · rfl

/-- What is listed after a chunk has been put has the data that was put last. -/
theorem Sound.content_put {s' : ChunkStore} {r : Except String Bool} {f g : String} {i j : ℕ}
    {data : Buffer} {e : StoreEntry} (h : log.Sound nb) (hput : Put log.store f i data s' r)
    (hcareful : ∀ g ≠ f, log.store.dir g = log.store.dir f → log.store.hasChunk g i = .ok true →
      log.store.getChunk g i = .ok data)
    (he : s'.files.get? g = some e) (hj : j ∈ e.chunks) :
    ∃ d, record log.written f i data r g j = some d ∧ s'.getChunk g j = .ok d := by
  have hold (hne : ¬(g = f ∧ j = i)) : ∃ e₀, log.store.files.get? g = some e₀ ∧ j ∈ e₀.chunks := by
    obtain he | ⟨rfl, e₀, he₀, hi, rfl⟩ := hput.entry he
    · exact ⟨e, he, hj⟩
    · exact ⟨e₀, he₀, (mem_chunks_addChunk.mp hj).resolve_right fun heq ↦ hne ⟨rfl, heq⟩⟩
  obtain ⟨rfl, hr⟩ | ⟨hwritable, hwrote, hresult⟩ := hput.wrote h.persisted
  · rw [record_of_failed hr]
    exact h.content g e j he hj
  · have hpath : s'.chunkPath g j = log.store.chunkPath g j :=
      chunkPath_congr hwrote.confined.baseDir g j
    rw [getChunk, hpath]
    by_cases hsame : g = f ∧ j = i
    · obtain ⟨rfl, rfl⟩ := hsame
      have hr : r = .ok true := by
        obtain he | ⟨-, e₀, he₀, -⟩ := hput.entry he
        · exact hresult e he
        · exact hresult e₀ he₀
      exact ⟨data, by simp [hr, record], readFileSync_of_file hwritable.accepts hwrote.chunk⟩
    · rw [record_of_ne hsame]
      obtain ⟨e₀, he₀, hj₀⟩ := hold hsame
      obtain ⟨d, hwritten, hget⟩ := h.content g e₀ j he₀ hj₀
      refine ⟨d, hwritten, ?_⟩
      by_cases heq : log.store.chunkPath g j = log.store.chunkPath f i
      · obtain ⟨hdir, rfl⟩ := chunkPath_eq_iff.mp heq
        have hne : g ≠ f := fun hgf ↦ hsame ⟨hgf, rfl⟩
        have hdata := hcareful g hne hdir (hasChunk_iff.mpr ⟨e₀, he₀, hj₀⟩)
        obtain rfl := Except.ok.inj (hget.symm.trans hdata)
        rw [heq]
        exact readFileSync_of_file hwritable.accepts hwrote.chunk
      · obtain ⟨haccepts, hfile⟩ := readFileSync_eq_ok hget
        refine readFileSync_of_file haccepts ((hwrote.confined.disk _ ?_).trans hfile)
        rintro (hindex | hchunk)
        · exact chunkPath_ne_index hindex
        · exact heq hchunk

theorem Sound.put {s' : ChunkStore} {r : Except String Bool} {f : String} {i : ℕ} {data : Buffer}
    (h : log.Sound nb) (hput : Put log.store f i data s' r) (hi : i < nb f)
    (hcareful : ∀ g ≠ f, log.store.dir g = log.store.dir f → log.store.hasChunk g i = .ok true →
      log.store.getChunk g i = .ok data) :
    Sound nb { log with store := s', written := record log.written f i data r } where
  persisted := hput.persisted h.persisted
  registered g hg := by
    obtain ⟨e, he⟩ := h.registered g hg
    exact hput.exists_entry h.persisted he
  entries g e he := by
    obtain he | ⟨rfl, e₀, he₀, hnot, rfl⟩ := hput.entry he
    · exact h.entries g e he
    · obtain ⟨hlists, hplain⟩ := h.entries g e₀ he₀
      refine ⟨⟨hlists.nbChunks, hlists.chunks.insert hnot hi⟩, ?_⟩
      exact ⟨hplain.filename, hplain.size, hplain.chunkSize, hplain.replicationFactor⟩
  content g e j he hj := h.content_put hput hcareful he hj

/-! ## Runs -/

theorem Sound.next (h : log.Sound nb) (hconforms : Conforms nb call)
    (hcareful : log.Careful P call) :
    (log.next P call).Sound nb := by
  cases call with
  | registerManifest m =>
    rw [StoreLog.next]
    cases hkey : FileNode.fileKey m with
    | error err => exact h
    | ok key => exact h.registerManifest (hconforms key hkey) (hcareful key hkey)
  | putChunk f i data expected =>
    by_cases hrefuses : Refuses P data expected
    · rw [StoreLog.next, putChunk_of_refuses hrefuses]
      exact h
    · exact h.put (put_putChunk hrefuses) hconforms (hcareful.resolve_left hrefuses)

/-- All sequences of calls of a new store that conform to the counts of the files. -/
def calls (P : Primitives) (nb : String → ℕ) : Machine StoreLog StoreCall :=
  Machine.ofFun Fresh (fun _ call ↦ Conforms nb call) (next P)

/-- **The index is right** in every state of a run whose calls are all careful. -/
theorem represents_of_careful (P : Primitives) (nb : String → ℕ) (hnb : ∀ f, nb f < 2 ^ 31)
    (log : StoreLog) (h : ((calls P nb).guard (Careful P)).Reachable log) : log.Represents nb := by
  refine Sound.represents (h.invariant (I := Sound nb) (fun log hlog ↦ ?_) ?_) hnb
  · exact Fresh.sound (show log.Fresh from hlog)
  · rintro log call log' - hlog ⟨hcareful, hconforms, rfl⟩
    exact hlog.next hconforms hcareful

namespace SampleCalls

def disk : FileSystem := fun loc ↦ if loc <+: ["store"] then some .dir else none

def start : StoreLog := ⟨⟨["store"], .empty, disk⟩, [], fun _ _ ↦ none⟩

/-- The manifest of a file of one chunk, with no more fields than the store reads. -/
def manifest (fileId : String) : Json :=
  .obj [("file_id", .str fileId), ("nb_chunks", .num (.ofNat 1))]

theorem fileKey_manifest (fileId : String) : FileNode.fileKey (manifest fileId) = .ok fileId :=
  FileNode.fileKey_of_get rfl

theorem fresh_start : start.Fresh where
  files := rfl
  index content h := by
    have hnone : disk ["store", "index.json"] = none := by decide
    exact nomatch hnone.symm.trans h
  registered := rfl

theorem conforms_manifest (fileId : String) :
    Conforms (fun _ ↦ 1) (.registerManifest (manifest fileId)) := fun _ _ ↦ rfl

/-- All entries are of these two files, and the store is in its directory. -/
def Plain (log : StoreLog) : Prop :=
  log.store.baseDir = ["store"] ∧ ∀ f e, log.store.files.get? f = some e → f = "a" ∨ f = "b"

/-- A call that is about one of the two files. -/
def About : StoreCall → Prop
  | .registerManifest m => m = manifest "a" ∨ m = manifest "b"
  | .putChunk f _ _ _ => f = "a" ∨ f = "b"

theorem plain_next (P : Primitives) {log : StoreLog} (h : Plain log) (call : StoreCall)
    (hcall : About call) : Plain (next P log call) := by
  cases call with
  | registerManifest m =>
    obtain ⟨f, hf, rfl⟩ : ∃ f, (f = "a" ∨ f = "b") ∧ m = manifest f := by
      rcases hcall with rfl | rfl
      · exact ⟨"a", .inl rfl, rfl⟩
      · exact ⟨"b", .inr rfl, rfl⟩
    simp only [next, fileKey_manifest]
    refine ⟨(confined_registerManifest log.store f _).baseDir.trans h.1, fun g e he ↦ ?_⟩
    rw [files_registerManifest, get?_addEntry] at he
    by_cases hg : g = f
    · exact hg ▸ hf
    · rw [if_neg hg] at he
      exact h.2 g e he
  | putChunk f i data expected =>
    refine ⟨(baseDir_putChunk P log.store f i data expected).trans h.1, fun g e he ↦ ?_⟩
    rcases files_putChunk P log.store f i data expected with ⟨hsame, -⟩ | ⟨e', he', hset⟩
    · exact h.2 g e (hsame ▸ he)
    · dsimp only [next] at he
      rw [hset, OrderedMap.get?_set] at he
      by_cases hg : g = f
      · exact hg ▸ hcall
      · rw [if_neg hg] at he
        exact h.2 g e he

/-- The two files have directories of their own, so that a chunk of one is never that of the
other. -/
theorem careful_put {log : StoreLog} (h : Plain log) {f : String} (hf : f = "a" ∨ f = "b")
    (P : Primitives) (i : ℕ) (data : Buffer) : Careful P log (.putChunk f i data none) := by
  refine .inr fun g hg hdir hhas ↦ ?_
  obtain ⟨e, he, -⟩ := hasChunk_iff.mp hhas
  rw [ChunkStore.dir, ChunkStore.dir, h.1] at hdir
  rcases h.2 g e he with rfl | rfl <;> rcases hf with rfl | rfl
  · exact absurd rfl hg
  · exact absurd hdir (by decide)
  · exact absurd hdir (by decide)
  · exact absurd rfl hg

/-- Two files of one chunk.  A chunk is refused, and another one is put twice. -/
def twoFiles : List StoreCall :=
  [.registerManifest (manifest "a"), .registerManifest (manifest "b"),
    .putChunk "a" 0 [2] (some (.str "00")), .putChunk "b" 0 [3] none, .putChunk "a" 0 [1] none,
    .putChunk "a" 0 [4] none, .registerManifest (manifest "a")]

theorem careful_register {log : StoreLog} {f : String} (hf : f ∉ inheritedNames)
    (hok : (log.store.registerManifest f (manifest f)).2 = .ok ()) (P : Primitives) :
    Careful P log (.registerManifest (manifest f)) := by
  intro key hkey
  obtain rfl := Except.ok.inj ((fileKey_manifest f).symm.trans hkey)
  exact .inr ⟨rfl, hf, (registerManifest_eq_ok_iff (m := manifest f) rfl).mp hok,
    ⟨nofun, nofun, nofun, rfl⟩⟩

theorem reachable_twoFiles :
    ((calls Manifest.samplePrimitives fun _ ↦ 1).guard
      (Careful Manifest.samplePrimitives)).Reachable
        (twoFiles.foldl (next Manifest.samplePrimitives) start) := by
  have hstart : Plain start := ⟨rfl, fun f e he ↦ nomatch he⟩
  have hfirst := plain_next Manifest.samplePrimitives hstart (.registerManifest (manifest "a"))
    (.inl rfl)
  have hregistered := plain_next Manifest.samplePrimitives hfirst
    (.registerManifest (manifest "b")) (.inr rfl)
  have hrefused := plain_next Manifest.samplePrimitives hregistered
    (.putChunk "a" 0 [2] (some (.str "00"))) (.inl rfl)
  have hother := plain_next Manifest.samplePrimitives hrefused (.putChunk "b" 0 [3] none) (.inr rfl)
  have hput := plain_next Manifest.samplePrimitives hother (.putChunk "a" 0 [1] none) (.inl rfl)
  refine ⟨start, twoFiles, fresh_start, Machine.run_guard_ofFun
    ⟨⟨careful_register (by decide) (by decide +kernel) _, conforms_manifest "a"⟩,
      ⟨careful_register (by decide) (by decide +kernel) _, conforms_manifest "b"⟩,
      ⟨.inl (by decide), Nat.one_pos⟩, ⟨careful_put hrefused (.inr rfl) _ _ _, Nat.one_pos⟩,
      ⟨careful_put hother (.inl rfl) _ _ _, Nat.one_pos⟩,
      ⟨careful_put hput (.inl rfl) _ _ _, Nat.one_pos⟩,
      ⟨careful_register (by decide) (by decide +kernel) _, conforms_manifest "a"⟩, trivial⟩⟩

/-- Two ids name one directory: `a` and `./a` are different keys of the index, but one path. -/
def oneDirectory : List StoreCall :=
  [.registerManifest (manifest "a"), .registerManifest (manifest "./a"), .putChunk "a" 0 [1] none,
    .putChunk "./a" 0 [2] none]

end SampleCalls

open SampleCalls in
/-- Two files are registered, and one of them twice.  A chunk with the wrong hash is refused, and
one that is there already is put again. -/
theorem represents_twoFiles :
    let log := twoFiles.foldl (next Manifest.samplePrimitives) start
    (log.store.getChunk "a" 0 = .ok [4] ∧ log.store.getChunk "b" 0 = .ok [3] ∧
      log.store.isComplete "a" = .ok true) ∧ log.Represents fun _ ↦ 1 :=
  ⟨by decide +kernel, represents_of_careful Manifest.samplePrimitives (fun _ ↦ 1)
    (fun _ ↦ by decide) _ reachable_twoFiles⟩

open SampleCalls in
/-- The chunk of the first file is overwritten by that of the second, which the index does
not see. -/
theorem not_represents :
    ¬∀ log, (calls Manifest.samplePrimitives fun _ ↦ 1).Reachable log →
      log.Represents fun _ ↦ 1 := by
  intro h
  have hreach : (calls Manifest.samplePrimitives fun _ ↦ 1).Reachable
      (oneDirectory.foldl (next Manifest.samplePrimitives) start) := by
    refine ⟨start, oneDirectory, fresh_start, Machine.run_foldl
      (M := calls Manifest.samplePrimitives fun _ ↦ 1) (fun _ _ he ↦ Machine.step_ofFun he) ?_⟩
    exact ⟨conforms_manifest "a", conforms_manifest "./a", Nat.one_pos, Nat.one_pos, trivial⟩
  obtain ⟨data, hwritten, hget⟩ := (h _ hreach).content "a" 0 (by decide +kernel)
  have hfirst : (oneDirectory.foldl (next Manifest.samplePrimitives) start).written "a" 0 =
      some [1] := by decide +kernel
  have hsecond : (oneDirectory.foldl (next Manifest.samplePrimitives) start).store.getChunk "a" 0 =
      .ok [2] := by decide +kernel
  obtain rfl := Option.some.inj (hfirst.symm.trans hwritten)
  exact absurd (hsecond.symm.trans hget) (by decide)

end StoreLog

end AttestP2P
