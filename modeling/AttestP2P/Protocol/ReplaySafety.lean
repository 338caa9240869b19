import Mathlib.Algebra.Order.Group.Abs
import AttestP2P.Protocol.Replay

/-!
# Replay safety

What a `ReplayGuard` promises over any run of calls of `check`, on a clock that does not go back.

An accepted packet puts an entry at the end of the cache.  `Remembers g k ts n` says where the entry
is: `n` others were put in after it.  A call can remove entries from the front only.

* `_purge` stops at the entry at the latest, for as long as the timestamp is in the window, whatever
  the timestamps before it;
* the memory bound evicts it only when nothing is left before it, and then the cache is full of
  entries that were accepted after it.

A packet whose timestamp has left the window is rejected for that reason, so that an entry which is
purged is one that is not needed any more.
-/

set_option autoImplicit false

namespace AttestP2P

/-- The arguments of a call of `check`, the time included. -/
structure ReplayGuard.Call where
  nodeId : Buffer
  timestamp : ℕ
  nonce : Buffer
  now : ℕ

namespace ReplayGuard

/-- `new ReplayGuard({ windowMs, maxEntries })`, with any two options and nothing seen. -/
def ofOptions (windowMs maxEntries : ℕ) : ReplayGuard where
  windowMs := windowMs
  maxEntries := maxEntries
  seen := .empty

namespace Call

/-- The key of the call in the cache. -/
def key (c : Call) : String := ReplayGuard.key c.nodeId c.nonce

/-- The two calls are about the same packet. -/
def SamePacket (c c' : Call) : Prop :=
  c.nodeId = c'.nodeId ∧ c.timestamp = c'.timestamp ∧ c.nonce = c'.nonce

end Call

/-- The guard after a call, whatever the verdict. -/
def next (g : ReplayGuard) (c : Call) : ReplayGuard :=
  (g.check c.nodeId c.timestamp c.nonce c.now).1

/-- Whether the call returns `{ ok: true }`. -/
def accepts (g : ReplayGuard) (c : Call) : Bool :=
  (g.check c.nodeId c.timestamp c.nonce c.now).2 = .ok

/-- The guard after some calls, in their order. -/
def after (g : ReplayGuard) (calls : List Call) : ReplayGuard := calls.foldl next g

/-- How many of the calls return `{ ok: true }`. -/
def acceptedCalls : ReplayGuard → List Call → ℕ
  | _, [] => 0
  | g, c :: calls => (if g.accepts c then 1 else 0) + acceptedCalls (g.next c) calls

/-! ## One call -/

variable {g : ReplayGuard} {c : Call}

/-- A call that is rejected does no more than purge. -/
theorem next_of_rejected (h : g.accepts c = false) :
    g.next c = g ∨ g.next c = g.purge c.now := by
  rw [accepts] at h
  rw [next]
  rw [check] at h ⊢
  split
  · exact .inl rfl
  · next hwindow =>
    rw [if_neg hwindow] at h
    simp only at h ⊢
    split
    · exact .inr rfl
    · next hseen =>
      rw [if_neg hseen] at h
      simp at h

/-- A call that is accepted finds its timestamp in the window and its key not in the cache; it puts
the key at the end, and may have to make room for it. -/
theorem next_of_accepted (h : g.accepts c = true) :
    |(c.now : ℤ) - c.timestamp| ≤ g.windowMs ∧ c.key ∉ (g.purge c.now).seen.keys ∧
      g.next c = { g with
        seen := (if (g.purge c.now).seen.size ≥ g.maxEntries then (g.purge c.now).seen.deleteOldest
          else (g.purge c.now).seen).set c.key c.timestamp } := by
  rw [accepts] at h
  rw [next]
  rw [check] at h ⊢
  split
  · next hwindow =>
    rw [if_pos hwindow] at h
    simp at h
  · next hwindow =>
    rw [if_neg hwindow] at h
    simp only at h ⊢
    split
    · next hseen =>
      rw [if_pos hseen] at h
      simp at h
    · next hseen =>
      rw [OrderedMap.has_iff] at hseen
      exact ⟨by omega, hseen, rfl⟩

/-- The options never change, whatever is called. -/
theorem next_options (g : ReplayGuard) (c : Call) :
    (g.next c).windowMs = g.windowMs ∧ (g.next c).maxEntries = g.maxEntries := by
  cases h : g.accepts c with
  | false => rcases next_of_rejected h with h | h <;> (rw [h]; exact ⟨rfl, rfl⟩)
  | true =>
    obtain ⟨-, -, h⟩ := next_of_accepted h
    rw [h]
    exact ⟨rfl, rfl⟩

theorem size_purge_le (g : ReplayGuard) (now : ℕ) : (g.purge now).seen.size ≤ g.seen.size :=
  (List.dropWhile_sublist _).length_le

/-- **The memory bound**: a call that adds an entry to a full cache deletes the oldest. -/
theorem size_next_le (hmax : 1 ≤ g.maxEntries) (hsize : g.seen.size ≤ g.maxEntries) :
    (g.next c).seen.size ≤ g.maxEntries := by
  have hpurge := size_purge_le g c.now
  cases h : g.accepts c with
  | false =>
    rcases next_of_rejected h with h | h
    · rwa [h]
    · rw [h]
      omega
  | true =>
    obtain ⟨-, -, h⟩ := next_of_accepted h
    rw [h]
    refine (OrderedMap.size_set_le).trans ?_
    split
    · next hfull =>
      have htail : (g.purge c.now).seen.deleteOldest.size = (g.purge c.now).seen.size - 1 :=
        List.length_tail
      omega
    · omega

/-! ## What the cache remembers -/

/-- The key is in the cache with the timestamp, and `n` entries come after it. -/
def Remembers (g : ReplayGuard) (k : String) (ts n : ℕ) : Prop :=
  ∃ older newer, g.seen.entries = older ++ (k, ts) :: newer ∧ newer.length = n

theorem Remembers.mem_keys {k : String} {ts n : ℕ} (h : g.Remembers k ts n) : k ∈ g.seen.keys := by
  obtain ⟨older, newer, hentries, -⟩ := h
  rw [OrderedMap.keys, hentries, List.map_append, List.map_cons]
  exact List.mem_append_right _ List.mem_cons_self

/-- **A purge keeps what is in the window**, and all that came after it. -/
theorem Remembers.purge {k : String} {ts n now : ℕ} (h : g.Remembers k ts n)
    (hnow : now ≤ ts + g.windowMs) : (g.purge now).Remembers k ts n := by
  obtain ⟨older, newer, hentries, hn⟩ := h
  refine ⟨older.dropWhile fun e ↦ now - e.2 > g.windowMs, newer, ?_, hn⟩
  have hkept : decide (now - ts > g.windowMs) = false := by
    rw [decide_eq_false_iff_not]
    omega
  show g.seen.entries.dropWhile _ = _
  rw [hentries, List.dropWhile_append]
  split
  · next hnone =>
    rw [List.isEmpty_iff.mp hnone, List.dropWhile_cons_of_neg (by simpa using hkept)]
    rfl
  · rfl

theorem Remembers.of_rejected {k : String} {ts n : ℕ} (h : g.Remembers k ts n)
    (hnow : c.now ≤ ts + g.windowMs) (hc : g.accepts c = false) : (g.next c).Remembers k ts n := by
  rcases next_of_rejected hc with heq | heq
  · rwa [heq]
  · rw [heq]
    exact h.purge hnow

/-- An accepted call comes after the entry, or evicts it when the cache is full of later ones. -/
theorem Remembers.of_accepted {k : String} {ts n : ℕ} (h : g.Remembers k ts n)
    (hnow : c.now ≤ ts + g.windowMs) (hc : g.accepts c = true) :
    (g.next c).Remembers k ts (n + 1) ∨ g.maxEntries ≤ n + 1 := by
  obtain ⟨-, hfresh, heq⟩ := next_of_accepted hc
  obtain ⟨older, newer, hentries, hn⟩ := h.purge hnow
  rw [heq]
  split
  · next hfull =>
    cases older with
    | nil =>
      -- the entry is the oldest, and is evicted
      refine .inr ?_
      rw [OrderedMap.size, hentries, List.nil_append, List.length_cons, hn] at hfull
      exact hfull
    | cons e older =>
      refine .inl ⟨older, newer ++ [(c.key, c.timestamp)], ?_, by simp [hn]⟩
      have hnew : c.key ∉ (g.purge c.now).seen.deleteOldest.keys :=
        fun hmem ↦ hfresh (OrderedMap.mem_keys_of_deleteOldest hmem)
      show (OrderedMap.set _ _ _).entries = _
      rw [OrderedMap.entries_set_of_notMem hnew]
      show (g.purge c.now).seen.entries.tail ++ _ = _
      rw [hentries, List.cons_append, List.tail_cons, List.append_assoc, List.cons_append]
  · refine .inl ⟨older, newer ++ [(c.key, c.timestamp)], ?_, by simp [hn]⟩
    show (OrderedMap.set _ _ _).entries = _
    rw [OrderedMap.entries_set_of_notMem hfresh, hentries, List.append_assoc, List.cons_append]

/-- An accepted call is remembered, with nothing accepted after it yet. -/
theorem remembers_of_accepted (hc : g.accepts c = true) :
    (g.next c).Remembers c.key c.timestamp 0 := by
  obtain ⟨-, hfresh, heq⟩ := next_of_accepted hc
  rw [heq]
  have hnew : c.key ∉ (if (g.purge c.now).seen.size ≥ g.maxEntries then
      (g.purge c.now).seen.deleteOldest else (g.purge c.now).seen).keys := by
    split
    · exact fun hmem ↦ hfresh (OrderedMap.mem_keys_of_deleteOldest hmem)
    · exact hfresh
  exact ⟨_, [], OrderedMap.entries_set_of_notMem hnew, rfl⟩

/-- What is remembered is not accepted again, as long as its timestamp is in the window. -/
theorem Remembers.rejects {ts n : ℕ} (h : g.Remembers c.key ts n)
    (hnow : c.now ≤ ts + g.windowMs) : g.accepts c = false := by
  cases hc : g.accepts c with
  | false => rfl
  | true => exact absurd (h.purge hnow).mem_keys (next_of_accepted hc).2.1

/-! ## Runs -/

theorem after_options (g : ReplayGuard) (calls : List Call) :
    (g.after calls).windowMs = g.windowMs ∧ (g.after calls).maxEntries = g.maxEntries := by
  induction calls generalizing g with
  | nil => exact ⟨rfl, rfl⟩
  | cons c calls ih =>
    obtain ⟨hwindow, hmax⟩ := ih (g.next c)
    obtain ⟨hwindow', hmax'⟩ := next_options g c
    exact ⟨hwindow.trans hwindow', hmax.trans hmax'⟩

theorem size_after_le (hmax : 1 ≤ g.maxEntries) (hsize : g.seen.size ≤ g.maxEntries)
    (calls : List Call) : (g.after calls).seen.size ≤ g.maxEntries := by
  induction calls generalizing g with
  | nil => exact hsize
  | cons c calls ih =>
    have hnext := (next_options g c).2
    have hstep := ih (g := g.next c) (by rwa [hnext])
      (by rw [hnext]; exact size_next_le hmax hsize)
    rwa [hnext] at hstep

/-- **While a packet is in the window**, its entry stays until `maxEntries` others have been
accepted. -/
theorem Remembers.after {k : String} {ts n : ℕ} {calls : List Call} (h : g.Remembers k ts n)
    (hnow : ∀ c ∈ calls, c.now ≤ ts + g.windowMs) :
    (g.after calls).Remembers k ts (n + g.acceptedCalls calls) ∨
      g.maxEntries ≤ n + g.acceptedCalls calls := by
  induction calls generalizing g n with
  | nil => exact .inl h
  | cons c calls ih =>
    obtain ⟨hwindow, hmax⟩ := next_options g c
    have hc := hnow c List.mem_cons_self
    have hrest : ∀ c' ∈ calls, c'.now ≤ ts + (g.next c).windowMs := fun c' hc' ↦ by
      rw [hwindow]
      exact hnow c' (List.mem_cons_of_mem c hc')
    rw [acceptedCalls, show g.after (c :: calls) = (g.next c).after calls from rfl]
    cases haccepts : g.accepts c with
    | false =>
      have hih := ih (h.of_rejected hc haccepts) hrest
      rw [hmax] at hih
      simpa using hih
    | true =>
      rcases h.of_accepted hc haccepts with hnext | hfull
      · have hih := ih hnext hrest
        rw [hmax] at hih
        simpa [Nat.add_assoc] using hih
      · refine .inr ?_
        simp only [if_true]
        omega

theorem after_append (g : ReplayGuard) (calls calls' : List Call) :
    g.after (calls ++ calls') = (g.after calls).after calls' :=
  List.foldl_append

/-- **Replay safety.**  On a clock that does not go back, the cache stays within its bound, and
between two accepted calls about one packet at least `maxEntries` other calls are accepted. -/
theorem replay_safety {windowMs maxEntries : ℕ} (hmax : 1 ≤ maxEntries) {calls : List Call}
    (hnow : calls.Pairwise fun c c' ↦ c.now ≤ c'.now) :
    ((ofOptions windowMs maxEntries).after calls).seen.size ≤ maxEntries ∧
      ∀ before c between c' later, calls = before ++ c :: (between ++ c' :: later) →
        c.SamePacket c' →
        ((ofOptions windowMs maxEntries).after before).accepts c = true →
        ((ofOptions windowMs maxEntries).after (before ++ c :: between)).accepts c' = true →
        maxEntries ≤
          ((ofOptions windowMs maxEntries).after (before ++ [c])).acceptedCalls between := by
  refine ⟨size_after_le hmax (Nat.zero_le _) calls, ?_⟩
  rintro before c between c' later rfl ⟨hnode, htimestamp, hnonce⟩ hc hc'
  obtain ⟨hwindow, hbound⟩ :=
    after_options (ofOptions windowMs maxEntries) (before ++ [c])
  rw [List.append_cons, after_append] at hc'
  have hremembers := remembers_of_accepted hc
  rw [show next (after _ before) c = after _ (before ++ [c]) from (after_append _ before [c]).symm]
    at hremembers
  have hpairs := (List.pairwise_cons.mp (List.pairwise_append.mp hnow).2.1).2
  -- the second call is in the window, and so are all before it
  have hlast : c'.now ≤ c.timestamp + windowMs := by
    have hin := (next_of_accepted hc').1
    rw [(after_options _ between).1, hwindow, ← htimestamp, abs_le] at hin
    have : ((ofOptions windowMs maxEntries).windowMs : ℤ) = windowMs := rfl
    omega
  have hbetween : ∀ d ∈ between, d.now ≤ c.timestamp +
      ((ofOptions windowMs maxEntries).after (before ++ [c])).windowMs := by
    intro d hd
    have hle := (List.pairwise_append.mp hpairs).2.2 d hd c' List.mem_cons_self
    rw [hwindow]
    exact hle.trans hlast
  rcases hremembers.after hbetween with hstays | hfull
  · rw [show c.key = c'.key by rw [Call.key, Call.key, hnode, hnonce]] at hstays
    have hrejects := hstays.rejects (by
      rw [(after_options _ between).1, hwindow]
      exact hlast)
    rw [hrejects] at hc'
    cases hc'
  · rw [hbound, Nat.zero_add] at hfull
    exact hfull

/-- A packet of one node, made at the time 1000. -/
def sampleCall (nonce : UInt8) (now : ℕ) : Call where
  nodeId := [7]
  timestamp := 1000
  nonce := [nonce]
  now := now

/-- Four calls about three packets, the first of which comes a second time. -/
def sampleCalls : List Call :=
  [sampleCall 1 1000, sampleCall 2 1001, sampleCall 3 31000, sampleCall 1 31000]

/-- With room for two entries, a packet is accepted again after two others, and not before. -/
theorem replay_safety_sample :
    ((ofOptions 30000 2).after sampleCalls).seen.size ≤ 2 ∧
      2 ≤ ((ofOptions 30000 2).after [sampleCall 1 1000]).acceptedCalls
        [sampleCall 2 1001, sampleCall 3 31000] := by
  obtain ⟨hsize, hbetween⟩ :=
    @replay_safety 30000 2 (by decide) sampleCalls (by simp [sampleCalls, sampleCall])
  exact ⟨hsize, hbetween [] (sampleCall 1 1000) [sampleCall 2 1001, sampleCall 3 31000]
    (sampleCall 1 31000) [] rfl ⟨rfl, rfl, rfl⟩ (by decide) (by decide)⟩

end ReplayGuard

end AttestP2P
