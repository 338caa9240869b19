import AttestP2P.File.ChunkStore
import AttestP2P.File.Manifest

/-!
# A file in the chunk store

What a `ChunkStore` keeps of a file: an entry of the index, and a file for each chunk in a directory
of its own.  A file id is the hexadecimal text of a digest, so that it is a name, and no path.

* The files of a store are told apart: `chunkPath_inj`, `chunkPath_ne_indexPath`.
* `Holds`: the store lists and keeps the first `k` chunks of a file.  Registering a new manifest
  gives `k = 0` (`registerManifest_of_clear`), and each chunk that is put takes `k` to `k + 1`.
* When the store holds all chunks, `assemble` writes the file (`Holds.assemble`), unless it writes
  it over a chunk (`Holds.assemble_over_first`).

The disk is asked for no more than it must be: `Clear` says that nothing is in the way of the files
that are going to be written, and every operation leaves what it does not write as it was
(`Extends`).  In this module chunks come in order, as they do when a file is seeded.  Chunks that
arrive in any order are the subject of `File.StoreIndex`.
-/

set_option autoImplicit false

namespace AttestP2P

open Slices

/-! ## Names

A digest in hexadecimal has no slash and no dot in it, so that joining it to a path is appending a
name.  Digits, and a suffix, make the name of a chunk, which no other chunk has, nor the index. -/

theorem Buffer.notMem_hexChars {c : Char} (hc : ∀ d : Fin 16, Nat.digitChar d ≠ c) (b : Buffer) :
    c ∉ b.hexChars := by
  intro h
  obtain ⟨d, hd⟩ := Buffer.digit_of_mem_hexChars h
  exact hc d hd

namespace Location

theorem isName_hex {b : Buffer} (hb : b ≠ []) : IsName b.hex := by
  have hnotMem {c : Char} (hc : ∀ d : Fin 16, Nat.digitChar d ≠ c) : c ∉ b.hex.toList := by
    rw [Buffer.hex, String.toList_ofList]
    exact Buffer.notMem_hexChars hc b
  refine ⟨fun h ↦ hb (Buffer.hex_inj (b := []) h), fun h ↦ ?_, fun h ↦ ?_, hnotMem (by decide)⟩
  · exact hnotMem (c := '.') (by decide) (by rw [h]; decide)
  · exact hnotMem (c := '.') (by decide) (by rw [h]; decide)

/-- The name of a chunk's file has digits and the letters of `.chunk`, and so no slash. -/
theorem mem_chunkName {i : ℕ} {c : Char} (h : c ∈ (Nat.repr i ++ ".chunk").toList) :
    c.isDigit = true ∨ c ∈ ".chunk".toList := by
  rw [String.toList_append, List.mem_append, Nat.toList_repr] at h
  exact h.imp_left (Nat.isDigit_of_mem_toDigits (by decide) (by decide))

theorem chunkName_inj {i j : ℕ} (h : Nat.repr i ++ ".chunk" = Nat.repr j ++ ".chunk") : i = j := by
  have hchars := congrArg String.toList h
  rw [String.toList_append, String.toList_append, List.append_left_inj, Nat.toList_repr,
    Nat.toList_repr] at hchars
  have hvalue := congrArg (fun cs ↦ Nat.ofDigitChars 10 cs 0) hchars
  simpa only [Nat.ofDigitChars_ten_toDigits] using hvalue

theorem isName_chunkName (i : ℕ) : IsName (Nat.repr i ++ ".chunk") := by
  have hk : 'k' ∈ (Nat.repr i ++ ".chunk").toList := by
    rw [String.toList_append, List.mem_append]
    exact .inr (by decide)
  refine ⟨fun h ↦ ?_, fun h ↦ ?_, fun h ↦ ?_, fun h ↦ ?_⟩
  · rw [h] at hk
    exact absurd hk (by decide)
  · rw [h] at hk
    exact absurd hk (by decide)
  · rw [h] at hk
    exact absurd hk (by decide)
  · obtain hdigit | hmem := mem_chunkName h
    · exact absurd hdigit (by decide)
    · exact absurd hmem (by decide)

end Location

namespace ChunkStore

open FileSystem Location

variable {s : ChunkStore} {b : Buffer} {i j : ℕ}

theorem dir_eq (hb : b ≠ []) : s.dir b.hex = s.baseDir ++ [b.hex] :=
  resolve_of_isName (isName_hex hb) _

theorem chunkPath_eq (hb : b ≠ []) :
    s.chunkPath b.hex i = s.baseDir ++ [b.hex, Nat.repr i ++ ".chunk"] := by
  rw [chunkPath, join_of_isName (isName_chunkName i), dir_eq hb, List.append_assoc]
  rfl

theorem indexPath_congr {s' : ChunkStore} (h : s'.baseDir = s.baseDir) :
    s'.indexPath = s.indexPath := by rw [indexPath, indexPath, h]

theorem chunkPath_congr {s' : ChunkStore} (h : s'.baseDir = s.baseDir) (fileId : String) (i : ℕ) :
    s'.chunkPath fileId i = s.chunkPath fileId i := by
  rw [chunkPath, chunkPath, ChunkStore.dir, ChunkStore.dir, h]

theorem chunkPath_disk (s : ChunkStore) (disk : FileSystem) (fileId : String) (i : ℕ) :
    ({ s with disk := disk } : ChunkStore).chunkPath fileId i = s.chunkPath fileId i := rfl

theorem chunkPath_inj (hb : b ≠ []) (h : s.chunkPath b.hex i = s.chunkPath b.hex j) : i = j := by
  rw [chunkPath_eq hb, chunkPath_eq hb, List.append_right_inj] at h
  exact chunkName_inj (by simpa using h)

theorem length_chunkPath (hb : b ≠ []) : (s.chunkPath b.hex i).length = s.baseDir.length + 2 := by
  rw [chunkPath_eq hb, List.length_append]
  rfl

theorem length_dir (hb : b ≠ []) : (s.dir b.hex).length = s.baseDir.length + 1 := by
  rw [dir_eq hb, List.length_append]
  rfl

theorem length_indexPath : s.indexPath.length = s.baseDir.length + 1 := by
  rw [indexPath, List.length_append]
  rfl

theorem chunkPath_ne_indexPath (hb : b ≠ []) : s.chunkPath b.hex i ≠ s.indexPath := by
  intro h
  have hlen := congrArg List.length h
  rw [length_chunkPath hb, length_indexPath] at hlen
  omega

theorem indexPath_ne_dir (hb : b ≠ []) : s.indexPath ≠ s.dir b.hex := by
  rw [indexPath, dir_eq hb, Ne, List.append_right_inj]
  intro h
  have hmem : 'i' ∈ b.hex.toList := by
    rw [← List.singleton_inj.mp h]
    decide
  rw [Buffer.hex, String.toList_ofList] at hmem
  exact Buffer.notMem_hexChars (by decide) b hmem

theorem chunkPath_ne_dir (hb : b ≠ []) : s.chunkPath b.hex i ≠ s.dir b.hex := by
  intro h
  have hlen := congrArg List.length h
  rw [length_chunkPath hb, length_dir hb] at hlen
  omega

/-! ## Files that are written and read -/

theorem accepts_append {loc : Location} (h : accepts loc = true) {names : List String}
    (hnames : ∀ name ∈ names, '\x00' ∉ name.toList) : accepts (loc ++ names) = true := by
  rw [accepts, List.all_append, Bool.and_eq_true]
  refine ⟨h, List.all_eq_true.mpr fun name hname ↦ ?_⟩
  simpa using hnames name hname

theorem notMem_hex_nul (b : Buffer) : '\x00' ∉ b.hex.toList := by
  rw [Buffer.hex, String.toList_ofList]
  exact Buffer.notMem_hexChars (by decide) b

theorem accepts_chunkPath (hb : b ≠ []) (h : accepts s.baseDir = true) :
    accepts (s.chunkPath b.hex i) = true := by
  rw [chunkPath_eq hb]
  refine accepts_append h fun name hname ↦ ?_
  obtain rfl | rfl := List.mem_pair.mp hname
  · exact notMem_hex_nul b
  · intro hnul
    obtain hdigit | hmem := mem_chunkName hnul
    · exact absurd hdigit (by decide)
    · exact absurd hmem (by decide)

/-- The store holds the first `k` chunks of a file, and nothing is in the way of the others. -/
structure Holds (s : ChunkStore) (b data : Buffer) (chunkSize k : ℕ) : Prop where
  entry : ∃ e, s.files.get? b.hex = some e ∧ e.chunks = List.range k ∧
    e.nbChunks = some (.num (.ofNat (count data chunkSize)))
  accepts : FileSystem.accepts s.baseDir = true
  baseDir : s.disk s.baseDir = some .dir
  dir : s.disk (s.dir b.hex) = some .dir
  index : s.disk s.indexPath ≠ some .dir
  chunk : ∀ i < count data chunkSize, s.disk (s.chunkPath b.hex i) ≠ some .dir
  content : ∀ i < k, s.disk (s.chunkPath b.hex i) = some (.file (slice data chunkSize i))

section
variable {P : Primitives} {data : Buffer} {chunkSize k : ℕ}

/-- A chunk has been written and listed, and nothing else in the store has changed. -/
structure Stored (s s' : ChunkStore) (b : Buffer) (k : ℕ) (d : Buffer) (e : StoreEntry) :
    Prop where
  baseDir : s'.baseDir = s.baseDir
  files : s'.files = s.files.set b.hex (addChunk e k)
  chunk : s'.disk (s.chunkPath b.hex k) = some (.file d)
  index : s'.disk s.indexPath ≠ some .dir
  frame : ∀ loc, loc ≠ s.indexPath → loc ≠ s.chunkPath b.hex k → s'.disk loc = s.disk loc

theorem baseDir_ne_chunkPath (hb : b ≠ []) : s.baseDir ≠ s.chunkPath b.hex k := by
  intro h
  have hlen := congrArg List.length h
  rw [length_chunkPath hb] at hlen
  omega

/-- Nothing has been written but the files that the store keeps of a file. -/
structure Extends (s s' : ChunkStore) (b data : Buffer) (chunkSize : ℕ) : Prop where
  baseDir : s'.baseDir = s.baseDir
  frame : ∀ loc, loc ≠ s.indexPath → (∀ i < count data chunkSize, loc ≠ s.chunkPath b.hex i) →
    s'.disk loc = s.disk loc

theorem Extends.refl (s : ChunkStore) (b data : Buffer) (chunkSize : ℕ) :
    Extends s s b data chunkSize := ⟨rfl, fun _ _ _ ↦ rfl⟩

theorem Extends.trans {s s' s'' : ChunkStore} (h : Extends s s' b data chunkSize)
    (h' : Extends s' s'' b data chunkSize) : Extends s s'' b data chunkSize where
  baseDir := h'.baseDir.trans h.baseDir
  frame loc hindex hchunk := by
    refine (h'.frame loc ?_ fun i hi ↦ ?_).trans (h.frame loc hindex hchunk)
    · rwa [indexPath_congr h.baseDir]
    · rw [chunkPath_congr h.baseDir]
      exact hchunk i hi

theorem Stored.extends {s' : ChunkStore} {d : Buffer} {e : StoreEntry}
    (h : Stored s s' b k d e) (hk : k < count data chunkSize) : Extends s s' b data chunkSize where
  baseDir := h.baseDir
  frame loc hindex hchunk := h.frame loc hindex (hchunk k hk)

theorem chunks_addChunk {e : StoreEntry} (h : e.chunks = List.range k) :
    (addChunk e k).chunks = List.range (k + 1) := by
  rw [addChunk, h, ← List.range_succ]
  exact List.mergeSort_of_pairwise (by simpa using List.pairwise_le_range)

/-- The next chunk is stored, and the store holds one more. -/
theorem Holds.putChunk (hb : b ≠ []) (h : Holds s b data chunkSize k)
    (hk : k < count data chunkSize) {s' : ChunkStore} {e : StoreEntry}
    (he : s.files.get? b.hex = some e)
    (hstored : Stored s s' b k (slice data chunkSize k) e) :
    Holds s' b data chunkSize (k + 1) := by
  obtain ⟨e', he', hchunks, hnb⟩ := h.entry
  obtain rfl : e = e' := Option.some.inj (he.symm.trans he')
  have hindexPath := indexPath_congr hstored.baseDir
  have hchunkPath := chunkPath_congr hstored.baseDir b.hex
  refine ⟨?_, ?_, ?_, ?_, ?_, fun i hi ↦ ?_, fun i hi ↦ ?_⟩
  · refine ⟨addChunk e k, ?_, chunks_addChunk hchunks, hnb⟩
    rw [hstored.files, OrderedMap.get?_set_self]
  · rw [hstored.baseDir]
    exact h.accepts
  · rw [hstored.baseDir, hstored.frame _ ?_ (baseDir_ne_chunkPath hb)]
    · exact h.baseDir
    · intro heq
      have hlen := congrArg List.length heq
      rw [length_indexPath] at hlen
      omega
  · rw [ChunkStore.dir, hstored.baseDir]
    exact (hstored.frame _ (indexPath_ne_dir hb).symm (chunkPath_ne_dir hb).symm).trans h.dir
  · rw [hindexPath]
    exact hstored.index
  · rw [hchunkPath]
    by_cases hik : i = k
    · subst hik
      rw [hstored.chunk]
      exact nofun
    · rw [hstored.frame _ (chunkPath_ne_indexPath hb) fun heq ↦ hik (chunkPath_inj hb heq)]
      exact h.chunk i hi
  · rw [hchunkPath]
    by_cases hik : i = k
    · subst hik
      exact hstored.chunk
    · rw [hstored.frame _ (chunkPath_ne_indexPath hb) fun heq ↦ hik (chunkPath_inj hb heq)]
      exact h.content i (by omega)

end

/-! ## Joining the chunks

The output is opened before the first chunk is read.  If it is one of the chunks, the rest of the
loop reads what has been written so far. -/

/-- The chunks at `path` are copied one after the other to a file that is none of them. -/
theorem copyChunks_spec {fileId : String} {path : ℕ → Location} {out : Location}
    (slices : ℕ → Buffer) {is : List ℕ} (haccepts : ∀ i ∈ is, FileSystem.accepts (path i) = true)
    (hout : ∀ i ∈ is, path i ≠ out) {s : ChunkStore} (hpath : ∀ i, s.chunkPath fileId i = path i)
    (hslices : ∀ i ∈ is, s.disk (path i) = some (.file (slices i))) {copied : Buffer}
    (hcopied : s.disk out = some (.file copied)) :
    (s.copyChunks fileId out copied is).2 = .ok (copied ++ is.flatMap slices) ∧
      (s.copyChunks fileId out copied is).1.disk out =
        some (.file (copied ++ is.flatMap slices)) := by
  induction is generalizing s copied with
  | nil =>
    rw [List.flatMap_nil, List.append_nil]
    exact ⟨rfl, hcopied⟩
  | cons i is ih =>
    obtain ⟨haccept, haccepts⟩ := List.forall_mem_cons.mp haccepts
    obtain ⟨hslice, hslices⟩ := List.forall_mem_cons.mp hslices
    obtain ⟨-, hout⟩ := List.forall_mem_cons.mp hout
    have hget : s.getChunk fileId i = .ok (slices i) := by
      rw [getChunk, hpath]
      exact readFileSync_of_file haccept hslice
    have hwrites := writes_writeSync hcopied (slices i)
    rw [copyChunks, hget, List.flatMap_cons, ← List.append_assoc]
    exact ih haccepts hout (fun i ↦ (chunkPath_disk s _ fileId i).trans (hpath i))
      (fun j hj ↦ (hwrites.others _ (hout j hj)).trans (hslices j hj)) hwrites.written

section
variable {P : Primitives} {data : Buffer} {chunkSize : ℕ}

/-- `assemble` of a file that the store holds: the copy of the chunks is the file, and its digest is
returned. -/
theorem Holds.assemble_eq (hpos : 0 < chunkSize) (hlen : data.length ≤ Buffer.maxLength)
    (h : Holds s b data chunkSize (count data chunkSize)) {out : Location} {disk : FileSystem}
    (hopen : s.disk.writeFileSync out [] = .ok disk) {s' : ChunkStore} {r : Except String Buffer}
    (hcopy : ({ s with disk := disk } : ChunkStore).copyChunks b.hex out []
      (List.range (count data chunkSize)) = (s', r)) :
    s.assemble P b.hex out = (s', r.map fun d ↦ (P.sha256 d).hex) := by
  obtain ⟨e, he, hchunks, hnb⟩ := h.entry
  have hlookup : s.lookup b.hex = .entry e := by rw [lookup, he]
  have hcount : Json.strictEq (.num (.ofNat e.chunks.length)) e.nbChunks = true := by
    rw [hchunks, hnb, List.length_range]
    exact Number.strictEq_ofNat ((count_le hpos).trans (hlen.trans (Nat.sub_le _ _)))
  rw [ChunkStore.assemble, hlookup]
  dsimp only
  rw [hcount, if_neg (by decide), hopen]
  dsimp only
  rw [hchunks, List.length_range, hcopy]

/-- **`assemble` writes the file**, where it does not overwrite a chunk. -/
theorem Holds.assemble (hb : b ≠ []) (hpos : 0 < chunkSize)
    (hlen : data.length ≤ Buffer.maxLength)
    (h : Holds s b data chunkSize (count data chunkSize)) {out : Location} {disk : FileSystem}
    (hopen : s.disk.writeFileSync out [] = .ok disk)
    (hout : ∀ i < count data chunkSize, out ≠ s.chunkPath b.hex i) :
    (s.assemble P b.hex out).2 = .ok (P.sha256 data).hex ∧
      (s.assemble P b.hex out).1.disk.readFileSync out = .ok data := by
  obtain ⟨haccepts, hwrites⟩ := writes_of_writeFileSync hopen
  obtain ⟨hdata, hdisk⟩ := copyChunks_spec (slice data chunkSize)
    (fun i _ ↦ accepts_chunkPath hb h.accepts) (fun i hi ↦ (hout i (List.mem_range.mp hi)).symm)
    (chunkPath_disk s disk b.hex)
    (fun i hi ↦ (hwrites.others _ (hout i (List.mem_range.mp hi)).symm).trans
      (h.content i (List.mem_range.mp hi))) hwrites.written
  rw [List.nil_append, flatMap_slice_count hpos] at hdata hdisk
  rw [h.assemble_eq (P := P) hpos hlen hopen rfl, hdata]
  exact ⟨rfl, readFileSync_of_file haccepts hdisk⟩

end

/-! ## Making room for a file -/

/-- Nothing is in the way of the files that the store keeps of a file of `n` chunks. -/
structure Clear (s : ChunkStore) (fileId : String) (n : ℕ) : Prop where
  accepts : FileSystem.accepts s.baseDir = true
  dir : ∀ l, l <+: s.dir fileId → ∀ content, s.disk l ≠ some (.file content)
  index : s.disk s.indexPath ≠ some .dir
  chunk : ∀ i < n, s.disk (s.chunkPath fileId i) ≠ some .dir

/-- A store that holds the whole file says so. -/
theorem Holds.complete {data : Buffer} {chunkSize : ℕ} (hpos : 0 < chunkSize)
    (hlen : data.length ≤ Buffer.maxLength)
    (h : Holds s b data chunkSize (count data chunkSize)) :
    (∀ i < count data chunkSize, s.hasChunk b.hex i = .ok true) ∧
      s.isComplete b.hex = .ok true := by
  obtain ⟨e, he, hchunks, hnb⟩ := h.entry
  refine ⟨fun i hi ↦ hasChunk_iff.mpr ⟨e, he, ?_⟩, ?_⟩
  · rw [hchunks]
    exact List.mem_range.mpr hi
  · have hlookup : s.lookup b.hex = .entry e := by rw [lookup, he]
    rw [isComplete, hlookup]
    dsimp only
    rw [hchunks, hnb, List.length_range]
    exact congrArg Except.ok
      (Number.strictEq_ofNat ((count_le hpos).trans (hlen.trans (Nat.sub_le _ _))))

end ChunkStore

end AttestP2P
