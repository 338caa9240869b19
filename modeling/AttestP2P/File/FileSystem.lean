import AttestP2P.Buffer
import Mathlib.Data.List.Basic
import Mathlib.Data.List.Infix
import Mathlib.Logic.Function.Basic
import Mathlib.Tactic.SplitIfs

/-!
# Paths and files

What the file modules use of Node's `path` and `fs`, on POSIX and without symbolic links.

* A `Location` is an absolute path in normal form: the names on the way from the root.
  `Location.resolve` is where a path leads from a directory.  It walks over the segments of the
  string: it stays at empty segments and `.`, and goes up at `..`.  `Location.join` is `path.join`,
  which keeps a slash at the end; the empty name after it stands for the slash, and no file is
  opened there.
* `relative` is the normal form of a string on its own: how many times it goes up before it goes
  down, and the names it then goes down by.  `resolve_eq` is the link between the two.
* A `FileSystem` says what is at each location.  Strings with a NUL character are refused, as `fs`
  refuses them.
-/

set_option autoImplicit false

namespace AttestP2P

/-- An absolute path in normal form: the names on the way from the root, where an empty last name
stands for a trailing slash. -/
abbrev Location := List String

namespace Location

/-- The parts of a path between slashes. -/
def segments (path : String) : List String := (path.toList.splitOn '/').map String.ofList

/-- Where a segment of a path leads to: nowhere, one step up, or one step down. -/
def step (loc : Location) (segment : String) : Location :=
  if segment = "" ∨ segment = "." then loc
  else if segment = ".." then loc.dropLast
  else loc ++ [segment]

/-- Where `path.join(loc, path)` leads, whether or not it ends in a slash. -/
def resolve (loc : Location) (path : String) : Location := (segments path).foldl step loc

/-- `path.join(loc, path)`, which keeps the slash that `path` ends in.  The file system then takes
the location for a directory. -/
def join (loc : Location) (path : String) : Location :=
  if path.toList.getLast? = some '/' then loc.resolve path ++ [""] else loc.resolve path

/-- One segment more of a relative path, given how far up the path leads so far, and then down to
what. -/
def relativeStep (r : ℕ × List String) (segment : String) : ℕ × List String :=
  if segment = "" ∨ segment = "." then r
  else if segment = ".." then if r.2 = [] then (r.1 + 1, []) else (r.1, r.2.dropLast)
  else (r.1, r.2 ++ [segment])

/-- The normal form of a relative path: how far up it leads, and then down to what. -/
def relative (path : String) : ℕ × List String := (segments path).foldl relativeStep (0, [])

/-- Going up from `loc`, but never above the root, and then down. -/
def follow (loc : Location) (r : ℕ × List String) : Location := loc.take (loc.length - r.1) ++ r.2

theorem step_follow (loc : Location) (r : ℕ × List String) (segment : String) :
    step (loc.follow r) segment = loc.follow (relativeStep r segment) := by
  rw [step, relativeStep]
  split_ifs with hstay hup hdown
  · rfl
  · rw [follow, follow, hdown, List.append_nil, List.append_nil, List.dropLast_eq_take,
      List.take_take, List.length_take]
    congr 1
    omega
  · rw [follow, follow, List.dropLast_append_of_ne_nil hdown]
  · rw [follow, follow, List.append_assoc]

/-- **A path leads where its normal form leads.** -/
theorem resolve_eq (loc : Location) (path : String) :
    loc.resolve path = loc.follow (relative path) := by
  have hfold : ∀ (segments : List String) (r : ℕ × List String),
      segments.foldl step (loc.follow r) = loc.follow (segments.foldl relativeStep r) := by
    intro segments
    induction segments with
    | nil => exact fun r ↦ rfl
    | cons s segments ih =>
      intro r
      rw [List.foldl_cons, List.foldl_cons, step_follow, ih]
  have hstart : loc = loc.follow (0, []) := by
    rw [follow, Nat.sub_zero, List.take_length, List.append_nil]
  rw [resolve, relative, ← hfold, ← hstart]

/-- The location is inside the directory, and not the directory itself. -/
def StrictlyBelow (dir loc : Location) : Prop := ∃ names, names ≠ [] ∧ loc = dir ++ names

theorem StrictlyBelow.append {dir loc : Location} (h : StrictlyBelow dir loc)
    (names : List String) : StrictlyBelow dir (loc ++ names) := by
  obtain ⟨below, hne, rfl⟩ := h
  exact ⟨below ++ names, List.append_ne_nil_of_left_ne_nil hne names, List.append_assoc ..⟩

/-- From `dir` the path goes down at least once; or it goes up and comes back the same way, and then
goes further down. -/
def Inside (dir : Location) (path : String) : Prop :=
  ∃ names, names ≠ [] ∧
    (relative path).2 = dir.drop (dir.length - (relative path).1) ++ names

/-- **Containment is a matter of the normal form.** -/
theorem strictlyBelow_resolve {dir : Location} {path : String} :
    StrictlyBelow dir (dir.resolve path) ↔ Inside dir path := by
  rw [resolve_eq, follow]
  refine exists_congr fun names ↦ and_congr_right fun _ ↦ ?_
  have hdir : dir ++ names = dir.take (dir.length - (relative path).1) ++
      (dir.drop (dir.length - (relative path).1) ++ names) := by
    rw [← List.append_assoc, List.take_append_drop]
  rw [hdir, List.append_right_inj]

/-- A name that is no path: what may stand between two slashes and leads one step down. -/
def IsName (s : String) : Prop := s ≠ "" ∧ s ≠ "." ∧ s ≠ ".." ∧ '/' ∉ s.toList

theorem segments_of_isName {s : String} (h : '/' ∉ s.toList) : segments s = [s] := by
  have hsplit : s.toList.splitOn '/' = [s.toList] :=
    List.splitOnP_eq_singleton fun c hc ↦ beq_false_of_ne fun heq ↦ h (heq ▸ hc)
  rw [segments, hsplit, List.map_singleton, String.ofList_toList]

theorem resolve_of_isName {s : String} (h : IsName s) (loc : Location) :
    loc.resolve s = loc ++ [s] := by
  obtain ⟨hempty, hdot, hdots, hslash⟩ := h
  rw [resolve, segments_of_isName hslash, List.foldl_cons, List.foldl_nil, step,
    if_neg (by simp [hempty, hdot]), if_neg hdots]

theorem join_of_isName {s : String} (h : IsName s) (loc : Location) : loc.join s = loc ++ [s] := by
  rw [join, if_neg fun hlast ↦ h.2.2.2 (List.mem_of_getLast? hlast), resolve_of_isName h]

/-- A name leads one step down, so that joining it to a directory stays inside. -/
theorem inside_of_isName {s : String} (h : IsName s) (dir : Location) : Inside dir s :=
  strictlyBelow_resolve.mp ⟨[s], List.cons_ne_nil s [], resolve_of_isName h dir⟩

end Location

/-- What is at a location of the disk, where there is anything. -/
inductive FsEntry where
  | file (content : Buffer)
  | dir
  deriving DecidableEq

abbrev FileSystem := Location → Option FsEntry

namespace FileSystem

/-- `fs` takes no NUL characters: a path that has one is refused before the disk is asked. -/
def accepts (loc : Location) : Bool := loc.all fun name ↦ !name.toList.contains '\x00'

/-- `fs.mkdirSync(loc, { recursive: true })`: every directory on the way is made, unless there is a
file on it. -/
def mkdirSync (fs : FileSystem) (loc : Location) : Except String FileSystem :=
  if accepts loc = false then .error "ERR_INVALID_ARG_VALUE"
  else if loc.inits.any fun l ↦ (fs l).any fun e ↦ e matches .file _ then .error "EEXIST"
  else .ok fun l ↦ if l <+: loc then some .dir else fs l

/-- `fs.writeFileSync(loc, content)`: the file is made or replaced.  Its directory has to be there,
and nothing else may be in its place. -/
def writeFileSync (fs : FileSystem) (loc : Location) (content : Buffer) :
    Except String FileSystem :=
  if accepts loc = false then .error "ERR_INVALID_ARG_VALUE"
  else if loc.getLast? = some "" then .error "EISDIR"
  else
    match fs loc, fs loc.dropLast with
    | some .dir, _ => .error "EISDIR"
    | _, some .dir => .ok (Function.update fs loc (some (.file content)))
    | _, _ => .error "ENOENT"

/-- `fs.readFileSync(loc)`, of a file of any size.  The limit on the size is `readBuffer`'s. -/
def readFileSync (fs : FileSystem) (loc : Location) : Except String Buffer :=
  if accepts loc = false then .error "ERR_INVALID_ARG_VALUE"
  else
    match fs loc with
    | some (.file content) => .ok content
    | some .dir => .error "EISDIR"
    | none => .error "ENOENT"

/-- `fs.openSync(loc, "r")`, which also opens a directory; only reading from it throws then. -/
def openSync (fs : FileSystem) (loc : Location) : Except String Unit :=
  if accepts loc = false then .error "ERR_INVALID_ARG_VALUE"
  else if (fs loc).isNone then .error "ENOENT" else .ok ()

/-- `fs.readSync(fd, buf, 0, length, position)`, where `fd` is the open file: the bytes read. -/
def readSync (fs : FileSystem) (loc : Location) (length position : ℕ) : Except String Buffer :=
  if length = 0 then .ok []
  else
    match fs loc with
    | some (.file content) => .ok (content.subarray position (position + length))
    | _ => .error "EISDIR"

/-- `fs.writeSync(fd, data)`, where `fd` is at the end of the open file. -/
def writeSync (fs : FileSystem) (loc : Location) (data : Buffer) : FileSystem :=
  match fs loc with
  | some (.file content) => Function.update fs loc (some (.file (content ++ data)))
  | _ => fs

/-! ## When operations succeed -/

/-- A file has been written, and nothing else on the disk has changed. -/
structure Writes (fs fs' : FileSystem) (loc : Location) (content : Buffer) : Prop where
  written : fs' loc = some (.file content)
  others : ∀ l, l ≠ loc → fs' l = fs l

variable {fs fs' : FileSystem} {loc : Location} {content : Buffer}

theorem writes_update (fs : FileSystem) (loc : Location) (content : Buffer) :
    Writes fs (Function.update fs loc (some (.file content))) loc content where
  written := Function.update_self ..
  others _ h := Function.update_of_ne h ..

/-- A file can be written there: `writeFileSync` succeeds, whatever the content. -/
structure Writable (fs : FileSystem) (loc : Location) : Prop where
  accepts : FileSystem.accepts loc = true
  named : loc.getLast? ≠ some ""
  free : fs loc ≠ some .dir
  parent : fs loc.dropLast = some .dir

theorem Writable.write (h : fs.Writable loc) (content : Buffer) :
    ∃ fs', fs.writeFileSync loc content = .ok fs' ∧ Writes fs fs' loc content := by
  refine ⟨_, ?_, writes_update fs loc content⟩
  rw [writeFileSync, if_neg (by rw [h.accepts]; decide), if_neg h.named, h.parent]
  cases hentry : fs loc with
  | none => rfl
  | some entry =>
    cases entry with
    | file content => rfl
    | dir => exact absurd hentry h.free

theorem of_writeFileSync (h : fs.writeFileSync loc content = .ok fs') :
    fs.Writable loc ∧ Writes fs fs' loc content := by
  rw [writeFileSync] at h
  split at h
  · cases h
  · next haccepts =>
    split at h
    · cases h
    · next hnamed =>
      split at h
      · cases h
      · next hparent hfree =>
        cases h
        exact ⟨⟨eq_true_of_ne_false haccepts, hnamed, hfree, hparent⟩, writes_update fs loc content⟩
      · cases h

theorem writes_of_writeFileSync (h : fs.writeFileSync loc content = .ok fs') :
    accepts loc = true ∧ Writes fs fs' loc content :=
  ⟨(of_writeFileSync h).1.accepts, (of_writeFileSync h).2⟩

theorem writable_iff (content : Buffer) :
    fs.Writable loc ↔ ∃ fs', fs.writeFileSync loc content = .ok fs' :=
  ⟨fun h ↦ (h.write content).imp fun _ ↦ And.left, fun ⟨_, h⟩ ↦ (of_writeFileSync h).1⟩

theorem readFileSync_of_file (haccepts : accepts loc = true)
    (hfile : fs loc = some (.file content)) : fs.readFileSync loc = .ok content := by
  rw [readFileSync, if_neg (by rw [haccepts]; decide), hfile]

theorem readFileSync_eq_ok (h : fs.readFileSync loc = .ok content) :
    accepts loc = true ∧ fs loc = some (.file content) := by
  rw [readFileSync] at h
  split at h
  · cases h
  · next haccepts =>
    split at h
    · next hfile =>
      cases h
      exact ⟨eq_true_of_ne_false haccepts, hfile⟩
    · cases h
    · cases h

theorem writes_writeSync (hfile : fs loc = some (.file content)) (data : Buffer) :
    Writes fs (fs.writeSync loc data) loc (content ++ data) := by
  rw [writeSync, hfile]
  exact writes_update fs loc (content ++ data)

theorem writeSync_of_ne {l : Location} (h : l ≠ loc) {data : Buffer} :
    fs.writeSync loc data l = fs l := by
  cases hentry : fs loc with
  | none => rw [writeSync, hentry]
  | some entry =>
    cases entry with
    | dir => rw [writeSync, hentry]
    | file content => exact (writes_writeSync hentry data).others l h

/-- A directory is made where no file is in the way. -/
theorem mkdirSync_of_free (haccepts : accepts loc = true)
    (hfree : ∀ l, l <+: loc → ∀ content, fs l ≠ some (.file content)) :
    ∃ fs', fs.mkdirSync loc = .ok fs' ∧ (∀ l, l <+: loc → fs' l = some .dir) ∧
      ∀ l, ¬l <+: loc → fs' l = fs l := by
  refine ⟨fun l ↦ if l <+: loc then some .dir else fs l, ?_, fun l hl ↦ if_pos hl,
    fun l hl ↦ if_neg hl⟩
  rw [mkdirSync, if_neg (by rw [haccepts]; decide), if_neg]
  intro hany
  obtain ⟨l, hl, hfile⟩ := List.any_eq_true.mp hany
  have hprefix := (List.mem_inits _ _).mp hl
  cases hentry : fs l with
  | none => simp [hentry] at hfile
  | some entry =>
    cases entry with
    | file content => exact hfree l hprefix content hentry
    | dir => simp [hentry] at hfile

theorem of_mkdirSync (h : fs.mkdirSync loc = .ok fs') :
    (∀ l, l <+: loc → fs' l = some .dir ∧ ∀ content, fs l ≠ some (.file content)) ∧
      ∀ l, ¬l <+: loc → fs' l = fs l := by
  rw [mkdirSync] at h
  split at h
  · cases h
  · split at h
    · cases h
    · next hfree =>
      cases h
      refine ⟨fun l hl ↦ ⟨if_pos hl, fun content hfile ↦ hfree ?_⟩, fun l hl ↦ if_neg hl⟩
      exact List.any_eq_true.mpr ⟨l, (List.mem_inits _ _).mpr hl, by simp [hfile]⟩

end FileSystem

end AttestP2P
