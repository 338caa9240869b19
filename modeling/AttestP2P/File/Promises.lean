import AttestP2P.File.Footprint
import AttestP2P.File.Effects
import AttestP2P.File.Scheduler

/-!
# The promises of downloads

A promise belongs to one call of `download`, the state that can settle it to a file.  The table of
downloads has one place for each file, so a second call for a file, made while the first one is not
over, puts its state in the place of the first.  From then on nothing can settle the first promise.

* `Serves`: a step settles what it takes off; so does all that is no call of `download`.
* `Begun`, `startDownload_begun`: a call that begins a download puts its own promise in the place of
  whatever is there.
* `Begins` is what it takes to get that far, before the call: an id, a disk that takes the directory
  and the index, and a number of chunks to count up to.  A call that begins none throws, or returns
  a promise that is rejected (`download_serves`).
* `no_orphan_iff`: no promise is orphaned along a run, exactly if no download takes the place of one
  that is not settled.

`Promises` is a node with the promises that it has returned so far, since the node itself forgets
them.
-/

set_option autoImplicit false

namespace AttestP2P

namespace FileNode

variable {P : Primitives} {s s' s'' : FileNode P} {f g : String} {p q : ℕ} {m : Json}
  {jsonParse : Buffer → Option Json} {e : FileEvent}

def HasSettled (s : FileNode P) (p : ℕ) : Prop := ∃ r, (p, r) ∈ s.settled

/-- The promise of the active download of a file. -/
def promiseOf (s : FileNode P) (f : String) : Option ℕ := (s.downloads.get? f).map Download.promise

theorem promiseOf_of_downloads_eq (h : s'.downloads = s.downloads) (f : String) :
    s'.promiseOf f = s.promiseOf f := by rw [promiseOf, promiseOf, h]

theorem Quiet.promiseOf (h : s.Quiet s') (f : String) : s'.promiseOf f = s.promiseOf f := by
  have htasks := congrArg (Option.map DownloadTask.promise) (h.tasks f)
  rwa [Option.map_map, Option.map_map] at htasks

theorem Quiet.hasSettled_iff (h : s.Quiet s') : s'.HasSettled p ↔ s.HasSettled p := by
  rw [HasSettled, HasSettled, h.settled]

theorem settled_settle {r : Settlement} : (s.settle p r).HasSettled q ↔ s.HasSettled q ∨ q = p := by
  rw [settle]
  split
  · next hany =>
    obtain ⟨⟨p', r'⟩, hmem, heq⟩ := List.any_eq_true.mp hany
    obtain rfl : p' = p := of_decide_eq_true heq
    refine ⟨.inl, fun h ↦ h.elim id ?_⟩
    rintro rfl
    exact ⟨r', hmem⟩
  · constructor
    · rintro ⟨r', hmem⟩
      rcases List.mem_append.mp hmem with hold | hnew
      · exact .inl ⟨r', hold⟩
      · exact .inr (Prod.mk.inj (List.mem_singleton.mp hnew)).1
    · rintro (⟨r', hold⟩ | rfl)
      · exact ⟨r', List.mem_append_left _ hold⟩
      · exact ⟨r, List.mem_append_right _ (List.mem_singleton.mpr rfl)⟩

theorem nextPromise_settle (s : FileNode P) (p : ℕ) (r : Settlement) :
    (s.settle p r).nextPromise = s.nextPromise := by
  rw [settle]
  split
  · rfl
  · rfl

theorem settled_finish {d : Download} : (s.finish f d).HasSettled q ↔
    s.HasSettled q ∨ q = d.promise := by
  rw [finish]
  dsimp only
  split
  · exact settled_settle
  · exact settled_settle

theorem nextPromise_finish (s : FileNode P) (f : String) (d : Download) :
    (s.finish f d).nextPromise = s.nextPromise := by
  rw [finish]
  dsimp only
  split
  · exact nextPromise_settle ..
  · exact nextPromise_settle ..

theorem promiseOf_finish (s : FileNode P) (d : Download) :
    (s.finish f d).promiseOf g = if g = f then none else s.promiseOf g := by
  rw [promiseOf, downloads_finish, OrderedMap.get?_delete]
  split
  · rfl
  · rfl

theorem promiseOf_set {d : Download} (h : s'.downloads = s.downloads.set f d) :
    s'.promiseOf g = if g = f then some d.promise else s.promiseOf g := by
  rw [promiseOf, h, OrderedMap.get?_set]
  split
  · rfl
  · rfl

/-! ## Steps that begin no download -/

/-- A download goes on with its promise, or is over and its promise settled. -/
structure Serves (s s' : FileNode P) : Prop where
  settled : ∀ p, s.HasSettled p → s'.HasSettled p
  nextPromise : s.nextPromise ≤ s'.nextPromise
  kept : ∀ f p, s'.promiseOf f = some p → s.promiseOf f = some p
  served : ∀ f p, s.promiseOf f = some p → s'.promiseOf f = some p ∨ s'.HasSettled p

theorem Serves.of_same (hsettled : s'.settled = s.settled) (hnext : s.nextPromise ≤ s'.nextPromise)
    (hpromise : ∀ f, s'.promiseOf f = s.promiseOf f) : s.Serves s' where
  settled p h := by rwa [HasSettled, hsettled]
  nextPromise := hnext
  kept f p h := hpromise f ▸ h
  served f p h := .inl ((hpromise f).trans h)

theorem Serves.refl (s : FileNode P) : s.Serves s := .of_same rfl le_rfl fun _ ↦ rfl

theorem Serves.trans (h : s.Serves s') (h' : s'.Serves s'') : s.Serves s'' where
  settled p hp := h'.settled p (h.settled p hp)
  nextPromise := h.nextPromise.trans h'.nextPromise
  kept f p hp := h.kept f p (h'.kept f p hp)
  served f p hp := (h.served f p hp).elim (h'.served f p)
    fun hsettled ↦ .inr (h'.settled p hsettled)

theorem Quiet.serves (h : s.Quiet s') : s.Serves s' :=
  .of_same h.settled h.nextPromise.ge h.promiseOf

theorem serves_settle (s : FileNode P) (p : ℕ) (r : Settlement) : s.Serves (s.settle p r) where
  settled _ h := settled_settle.mpr (.inl h)
  nextPromise := (nextPromise_settle s p r).ge
  kept f _ h := (promiseOf_of_downloads_eq (downloads_settle s p r) f).symm.trans h
  served f _ h := .inl ((promiseOf_of_downloads_eq (downloads_settle s p r) f).trans h)

theorem serves_registerManifest (s : FileNode P) (m : Json) :
    s.Serves (s.registerManifest m).1 := by
  refine .of_same ?_ ?_ (promiseOf_of_downloads_eq (downloads_registerManifest s m))
  · rw [registerManifest]
    split
    · rfl
    · rfl
  · rw [registerManifest]
    split
    · exact le_rfl
    · exact le_rfl

theorem serves_finish {d : Download} (hd : s.downloads.get? f = some d) :
    s.Serves (s.finish f d) where
  settled _ h := settled_finish.mpr (.inl h)
  nextPromise := (nextPromise_finish s f d).ge
  kept g p h := by
    rw [promiseOf_finish] at h
    split at h
    · exact nomatch h
    · exact h
  served g p h := by
    rw [promiseOf_finish]
    split
    · next hg =>
      rw [promiseOf, hg, hd] at h
      exact .inr (settled_finish.mpr (.inr (Option.some.inj h).symm))
    · exact .inl h

/-- **Every effect serves the downloads**, or is the beginning of one with the next promise. -/
theorem Effect.serves_or_starts {s₀ : FileNode P} (h : Effect jsonParse s₀ e s s') :
    s.Serves s' ∨ (∃ m outPath parallel rank, e = .download m outPath parallel rank) ∧
      s'.nextPromise = s.nextPromise + 1 ∧
        ∃ f d, s'.downloads = s.downloads.set f d ∧ d.promise = s.nextPromise := by
  cases h with
  | quiet h => exact .inl h.serves
  | register => exact .inl (serves_registerManifest s _)
  | refused => exact .inl (.of_same rfl le_rfl fun _ ↦ rfl)
  | @received _ f idx data d d' h hdata hput hd' =>
    refine .inl (.of_same rfl le_rfl fun g ↦ ?_)
    rw [promiseOf_set (s := s) rfl]
    split
    · next hg =>
      have hpromise : d'.promise = d.promise := congrArg DownloadTask.promise hd'
      rw [hg, promiseOf, h.get, Option.map_some, hpromise]
    · rfl
  | @start m outPath parallel rank f n needed d hdownload hid hok hn hneeded hd =>
    have hpromise : d.promise = s₀.nextPromise := congrArg DownloadTask.promise hd
    have hnext : (s₀.registerManifest m).1.nextPromise = s₀.nextPromise := by
      rw [registerManifest_eq_of_get hid]
    refine .inr ⟨⟨m, outPath, parallel, rank, hdownload⟩, ?_, f, d, ?_, hpromise.trans hnext.symm⟩
    · rw [hnext]
    · rw [downloads_registerManifest]
  | promise => exact .inl (.of_same rfl (Nat.le_succ _) fun _ ↦ rfl)
  | reject => exact .inl (serves_settle ..)
  | finish hd => exact .inl (serves_finish hd)
  | seeded => exact .inl (.of_same rfl le_rfl fun _ ↦ rfl)

theorem Effects.serves {s₀ : FileNode P} (h : Effects jsonParse s₀ e s s')
    (he : ∀ m outPath parallel rank, e ≠ .download m outPath parallel rank) : s.Serves s' := by
  induction h with
  | refl => exact .refl s
  | tail _ h ih =>
    obtain hserves | ⟨⟨m, outPath, parallel, rank, hdownload⟩, -⟩ := h.serves_or_starts
    · exact ih.trans hserves
    · exact absurd hdownload (he m outPath parallel rank)

/-! ## Numbers

Promises are numbered as they are returned.  A number that has not been given out yet can be the
promise of no download, and settled neither. -/

/-- The promises that are settled, or have an active download, have been given out. -/
structure Numbered (s : FileNode P) : Prop where
  active : ∀ f p, s.promiseOf f = some p → p < s.nextPromise
  settled : ∀ p, s.HasSettled p → p < s.nextPromise

/-- No effect gives an active download a number that is yet to come. -/
theorem Effect.active {s₀ : FileNode P} (h : Effect jsonParse s₀ e s s')
    (hs : ∀ f p, s.promiseOf f = some p → p < s.nextPromise) :
    s.nextPromise ≤ s'.nextPromise ∧ ∀ f p, s'.promiseOf f = some p → p < s'.nextPromise := by
  obtain hserves | ⟨-, hnext, g, d, hdownloads, hpromise⟩ := h.serves_or_starts
  · exact ⟨hserves.nextPromise, fun f p hp ↦
      (hs f p (hserves.kept f p hp)).trans_le hserves.nextPromise⟩
  · refine ⟨hnext ▸ Nat.le_succ _, fun f p hp ↦ ?_⟩
    rw [promiseOf_set hdownloads] at hp
    rw [hnext]
    split at hp
    · rw [← Option.some.inj hp, hpromise]
      exact Nat.lt_succ_self _
    · exact (hs f p hp).trans (Nat.lt_succ_self _)

theorem Effects.active {s₀ : FileNode P} (h : Effects jsonParse s₀ e s s')
    (hs : ∀ f p, s.promiseOf f = some p → p < s.nextPromise) :
    s.nextPromise ≤ s'.nextPromise ∧ ∀ f p, s'.promiseOf f = some p → p < s'.nextPromise := by
  induction h with
  | refl => exact ⟨le_rfl, hs⟩
  | tail _ h ih =>
    obtain ⟨hle, hactive⟩ := h.active ih.2
    exact ⟨ih.1.trans hle, hactive⟩

theorem Numbered.silent {s₀ : FileNode P} (hs : s.Numbered) (h : Silent jsonParse s₀ e s s') :
    s.nextPromise ≤ s'.nextPromise ∧ s'.Numbered := by
  obtain ⟨hle, hactive⟩ := h.effects.active hs.active
  refine ⟨hle, hactive, fun p hp ↦ (hs.settled p ?_).trans_le hle⟩
  rwa [HasSettled, ← h.settled]

theorem Numbered.quiet (hs : s.Numbered) (h : s.Quiet s') : s'.Numbered where
  active f p hp := by
    rw [h.promiseOf] at hp
    rw [h.nextPromise]
    exact hs.active f p hp
  settled p hp := by
    rw [h.nextPromise]
    exact hs.settled p (h.hasSettled_iff.mp hp)

theorem Numbered.settle (hs : s.Numbered) {r : Settlement} (hp : p < s.nextPromise) :
    (s.settle p r).Numbered where
  active f q hq := by
    rw [promiseOf_of_downloads_eq (downloads_settle s p r)] at hq
    rw [nextPromise_settle]
    exact hs.active f q hq
  settled q hq := by
    rw [nextPromise_settle]
    obtain hold | rfl := settled_settle.mp hq
    · exact hs.settled q hold
    · exact hp

theorem Numbered.complete (hs : s.Numbered) (f : String) : (s.complete f).Numbered := by
  obtain ⟨hsame, -⟩ | ⟨d, s₁, hd, hquiet, hdownloads, heq⟩ := complete_cases s f
  · rwa [hsame]
  · have hs₁ := hs.quiet hquiet
    have hp : d.promise < s₁.nextPromise :=
      hs₁.active f d.promise (by rw [promiseOf, hdownloads, hd, Option.map_some])
    rw [heq]
    refine ⟨fun g q hq ↦ ?_, fun q hq ↦ ?_⟩
    · rw [promiseOf_finish] at hq
      rw [nextPromise_finish]
      split at hq
      · exact nomatch hq
      · exact hs₁.active g q hq
    · rw [nextPromise_finish]
      obtain hold | rfl := settled_finish.mp hq
      · exact hs₁.settled q hold
      · exact hp

theorem Numbered.next (hs : s.Numbered) (hk : s.Keyed) (jsonParse : Buffer → Option Json)
    (e : FileEvent) :
    s.nextPromise ≤ (s.next jsonParse e).nextPromise ∧ (s.next jsonParse e).Numbered := by
  have hle := ((effects_next hk jsonParse e).active hs.active).1
  refine ⟨hle, ?_⟩
  have hends := ends_next hk jsonParse e
  generalize s.next jsonParse e = t at hends
  cases hends with
  | silent hsilent => exact (hs.silent hsilent).2
  | reject hsilent hp => exact (hs.silent hsilent).2.settle hp
  | @complete t f hsilent => exact (hs.silent hsilent).2.complete f

theorem numbered_of_reachable (h : (machine jsonParse).Reachable s) : s.Keyed ∧ s.Numbered := by
  refine h.invariant (I := fun s ↦ s.Keyed ∧ s.Numbered) ?_ ?_
  · rintro s ⟨signKey, store, parallel, rfl⟩
    exact ⟨nofun, nofun, nofun⟩
  · rintro s e t - ⟨hk, hs⟩ ⟨-, rfl⟩
    exact ⟨(effects_next hk jsonParse e).keyed hk, (hs.next hk jsonParse e).2⟩

/-! ## The beginning of a download

A new state is put into the table, whatever is there.  It may be over at once, when the store has
all chunks already. -/

/-- A download with the promise `p` begins: it takes the place of another, or is over at once. -/
structure Begun (s : FileNode P) (f : String) (p : ℕ) (s' : FileNode P) : Prop where
  nextPromise : s.nextPromise ≤ s'.nextPromise
  settled : ∀ q, q ≠ p → (s'.HasSettled q ↔ s.HasSettled q)
  others : ∀ g, g ≠ f → s'.promiseOf g = s.promiseOf g
  place : s'.promiseOf f = some p ∨ s'.promiseOf f = none ∧ s'.HasSettled p

theorem begun_putDownload (s : FileNode P) (d : Download) :
    s.Begun d.fileId d.promise (s.putDownload d) where
  nextPromise := le_rfl
  settled _ _ := Iff.rfl
  others _ hg := (promiseOf_set rfl).trans (if_neg hg)
  place := .inl ((promiseOf_set rfl).trans (if_pos rfl))

theorem Begun.quiet (h : s.Begun f p s') (hquiet : s'.Quiet s'') : s.Begun f p s'' where
  nextPromise := h.nextPromise.trans hquiet.nextPromise.ge
  settled q hq := hquiet.hasSettled_iff.trans (h.settled q hq)
  others g hg := (hquiet.promiseOf g).trans (h.others g hg)
  place := by
    rw [hquiet.promiseOf, hquiet.hasSettled_iff]
    exact h.place

theorem Begun.reject (h : s.Begun f p s') (err : String) :
    s.Begun f p (s'.settle p (.rejected err)) where
  nextPromise := h.nextPromise.trans (nextPromise_settle s' p _).ge
  settled q hq := settled_settle.trans ((or_iff_left hq).trans (h.settled q hq))
  others g hg := (promiseOf_of_downloads_eq (downloads_settle s' p _) g).trans (h.others g hg)
  place := by
    rw [promiseOf_of_downloads_eq (downloads_settle s' p _)]
    exact h.place.imp_right fun hnone ↦ ⟨hnone.1, settled_settle.mpr (.inr rfl)⟩

theorem Begun.finish (h : s.Begun f p s') {d : Download} (hd : d.promise = p) :
    s.Begun f p (s'.finish f d) where
  nextPromise := h.nextPromise.trans (nextPromise_finish s' f d).ge
  settled q hq := settled_finish.trans ((or_iff_left (hd ▸ hq)).trans (h.settled q hq))
  others g hg := by
    rw [promiseOf_finish, if_neg hg]
    exact h.others g hg
  place := by
    rw [promiseOf_finish, if_pos rfl]
    exact .inr ⟨rfl, settled_finish.mpr (.inr hd.symm)⟩

theorem Begun.complete (h : s.Begun f p s') (hp : s'.promiseOf f = some p) :
    s.Begun f p (s'.complete f) := by
  obtain ⟨hsame, -⟩ | ⟨d, s₁, hd, hquiet, -, heq⟩ := complete_cases s' f
  · rwa [hsame]
  · rw [heq]
    rw [promiseOf, hd] at hp
    exact (h.quiet hquiet).finish (Option.some.inj hp)

section
variable {n : ℕ} {needed : Finset ℕ} (outPath : Location) (parallel : ℕ) (rank : ℕ → ℕ)

/-- The executor ends with an exception before the download begins. -/
theorem startDownload_refused (p : ℕ) (h : ∀ n needed, loopCount (m.get "nb_chunks") = some n →
    missing s.store f n ≠ .ok needed) :
    ∃ err, s.startDownload m f outPath parallel p rank = s.settle p (.rejected err) := by
  rw [startDownload]
  split
  · exact ⟨_, rfl⟩
  · next n hn =>
    split
    · exact ⟨_, rfl⟩
    · next needed hneeded => exact absurd hneeded (h n needed hn)

/-- **The executor puts the promise into the place of the file.** -/
theorem startDownload_begun (hk : s.Keyed) (p : ℕ) (hn : loopCount (m.get "nb_chunks") = some n)
    (hneeded : missing s.store f n = .ok needed) :
    s.Begun f p (s.startDownload m f outPath parallel p rank) := by
  let d : Download :=
    { manifest := m, fileId := f, outPath := outPath, needed := needed
      inFlight := .empty, badPeerForChunk := .empty, parallel := parallel
      promise := p, done := false, received := n - needed.card, tick := none }
  have hput : s.Begun f p (s.putDownload d) := begun_putDownload s d
  have hkeyed : (s.putDownload d).Keyed := keyed_putDownload hk d
  have hhave := quiet_broadcastHave (s.putDownload d) f
  have htold := hput.quiet hhave
  obtain ⟨d₁, hd₁, htask⟩ := hhave.get?_of (get?_putDownload_self s d)
  rw [startDownload, hn]
  dsimp only
  rw [hneeded]
  dsimp only
  split
  · exact htold.reject _
  · split
    · refine htold.complete ?_
      rw [hhave.promiseOf]
      exact (promiseOf_set rfl).trans (if_pos rfl)
    · have htimer := quiet_setTimer ((s.putDownload d).broadcastHave f).1 (.tick f)
      have hticks := quiet_putDownload
        (s := ((s.putDownload d).broadcastHave f).1.setTimer (.tick f))
        (d := { d with tick := some ((s.putDownload d).broadcastHave f).1.nextTimer })
        hd₁ htask.symm
      have hquiet := htimer.trans hticks
      exact (htold.quiet hquiet).quiet
        ((hquiet.keyed (hhave.keyed hkeyed)).quiet_schedule f rank)

end

/-! ## A call of `download` -/

/-- The call gets as far as putting its state into `downloads`. -/
structure Begins (s : FileNode P) (m : Json) (f : String) : Prop where
  fileId : m.get "file_id" = some (.str f)
  registers : s.store.CanRegister f
  /-- The chunks that are missing can be told. -/
  counts : ∃ n, loopCount (m.get "nb_chunks") = some n ∧
    (n = 0 ∨ f ∉ inheritedNames ∨ (s.store.files.get? f).isSome)

theorem registerManifest_eq_ok_iff (hid : m.get "file_id" = some (.str f)) :
    (s.registerManifest m).2 = .ok () ↔ s.store.CanRegister f := by
  rw [registerManifest_eq_of_get hid]
  exact ChunkStore.registerManifest_eq_ok_iff hid

theorem missing_eq_ok_iff {store : ChunkStore} {n : ℕ} :
    (∃ needed, missing store f n = .ok needed) ↔
    n = 0 ∨ f ∉ inheritedNames ∨ (store.files.get? f).isSome := by
  rw [missing, ChunkStore.lookup]
  cases store.files.get? f with
  | some e => exact iff_of_true ⟨_, rfl⟩ (.inr (.inr rfl))
  | none =>
    by_cases hinherited : f ∈ inheritedNames
    · rw [if_pos hinherited]
      by_cases hn : n = 0
      · exact iff_of_true ⟨∅, by rw [if_pos hn]⟩ (.inl hn)
      · dsimp only
        rw [if_neg hn]
        refine iff_of_false (by rintro ⟨_, h⟩; cases h) ?_
        rintro (h | h | h)
        · exact hn h
        · exact h hinherited
        · cases h
    · rw [if_neg hinherited]
      exact iff_of_true ⟨_, rfl⟩ (.inr (.inl hinherited))

/-- What `registerManifest` leaves in the index has the same say. -/
theorem missing_registerManifest_iff (hid : m.get "file_id" = some (.str f)) {n : ℕ} :
    (∃ needed, missing (s.registerManifest m).1.store f n = .ok needed) ↔
      n = 0 ∨ f ∉ inheritedNames ∨ (s.store.files.get? f).isSome := by
  rw [missing_eq_ok_iff, registerManifest_eq_of_get hid]
  dsimp only
  rw [ChunkStore.files_registerManifest, ChunkStore.get?_addEntry, if_pos rfl]
  by_cases hinherited : f ∈ inheritedNames
  · rw [if_pos hinherited]
  · simp [hinherited]

section
variable (outPath : Location) (parallel : Option ℕ) (rank : ℕ → ℕ)

theorem download_eq (hid : m.get "file_id" = some (.str f)) (hok : s.store.CanRegister f) :
    ∃ parallel', s.download m outPath parallel rank =
      (startDownload { (s.registerManifest m).1 with nextPromise := s.nextPromise + 1 } m f outPath
        parallel' s.nextPromise rank, .ok s.nextPromise) := by
  have hregister := (registerManifest_eq_ok_iff hid).mpr hok
  have hnext : (s.registerManifest m).1.nextPromise = s.nextPromise := by
    rw [registerManifest_eq_of_get hid]
  refine ⟨(parallel.filter fun n ↦ n ≠ 0).getD (s.registerManifest m).1.parallel, ?_⟩
  rw [download]
  dsimp only
  rw [hregister]
  dsimp only
  rw [hid]
  dsimp only
  rw [hnext]

/-- The file has no id, or the disk does not take it: the call throws. -/
theorem download_throws (h : ∀ f, m.get "file_id" = some (.str f) → ¬s.store.CanRegister f) :
    ∃ err, s.download m outPath parallel rank = ((s.registerManifest m).1, .error err) := by
  rw [download]
  dsimp only
  split
  · next err herr => exact ⟨err, rfl⟩
  · next hok =>
    split
    · next f hid => exact absurd ((registerManifest_eq_ok_iff hid).mp hok) (h f hid)
    · exact ⟨_, rfl⟩

/-- The promise that an event has returned, and the file that it is for. -/
def returned (s : FileNode P) : FileEvent → List (ℕ × String)
  | .download m outPath parallel rank =>
    match (s.download m outPath parallel rank).2, m.get "file_id" with
    | .ok p, some (.str f) => [(p, f)]
    | _, _ => []
  | _ => []

theorem returned_cases (s : FileNode P) (e : FileEvent) :
    s.returned e = [] ∨ ∃ f, s.returned e = [(s.nextPromise, f)] := by
  cases e with
  | download m outPath parallel rank =>
    by_cases hid : ∃ f, m.get "file_id" = some (.str f) ∧ s.store.CanRegister f
    · obtain ⟨f, hid, hok⟩ := hid
      obtain ⟨parallel', hdownload⟩ := download_eq outPath parallel rank hid hok
      exact .inr ⟨f, by rw [returned, hdownload, hid]⟩
    · obtain ⟨err, hthrows⟩ := download_throws (P := P) (s := s) (m := m) outPath parallel rank
        fun f hf hok ↦ hid ⟨f, hf, hok⟩
      exact .inl (by rw [returned, hthrows])
  | _ => exact .inl rfl

theorem eq_of_mem_returned (h : (p, f) ∈ s.returned e) : p = s.nextPromise := by
  obtain hnil | ⟨g, hsingle⟩ := s.returned_cases e
  · rw [hnil] at h
    exact nomatch h
  · rw [hsingle] at h
    exact (Prod.mk.inj (List.mem_singleton.mp h)).1

theorem unique_of_mem_returned (hf : (p, f) ∈ s.returned e) (hg : (q, g) ∈ s.returned e) :
    f = g := by
  obtain hnil | ⟨g', hsingle⟩ := s.returned_cases e
  · rw [hnil] at hf
    exact nomatch hf
  · rw [hsingle] at hf hg
    exact (Prod.mk.inj (List.mem_singleton.mp hf)).2.trans
      (Prod.mk.inj (List.mem_singleton.mp hg)).2.symm

/-- **A call that begins a download** returns the promise that it puts into the place of the
file. -/
theorem Begins.begun (h : s.Begins m f) (hk : s.Keyed) :
    s.returned (.download m outPath parallel rank) = [(s.nextPromise, f)] ∧
      s.nextPromise < (s.download m outPath parallel rank).1.nextPromise ∧
      s.Begun f s.nextPromise (s.download m outPath parallel rank).1 := by
  obtain ⟨n, hn, hcounts⟩ := h.counts
  obtain ⟨needed, hneeded⟩ := (missing_registerManifest_iff h.fileId).mpr hcounts
  obtain ⟨parallel', hdownload⟩ := download_eq outPath parallel rank h.fileId h.registers
  rw [returned, hdownload, h.fileId]
  rw [registerManifest_eq_of_get h.fileId] at hneeded ⊢
  have hbegun := startDownload_begun (s := { s with
      manifests := s.manifests.set f m, store := (s.store.registerManifest f m).1
      nextPromise := s.nextPromise + 1 }) outPath parallel' rank hk s.nextPromise hn hneeded
  exact ⟨rfl, hbegun.nextPromise, (Nat.le_succ _).trans hbegun.nextPromise, hbegun.settled,
    hbegun.others, hbegun.place⟩

/-- **A call that begins no download** throws, or returns a promise that is rejected. -/
theorem download_serves (h : ∀ f, ¬s.Begins m f) :
    s.Serves (s.download m outPath parallel rank).1 ∧
      ∀ p f, (p, f) ∈ s.returned (.download m outPath parallel rank) →
        p < (s.download m outPath parallel rank).1.nextPromise ∧
          (s.download m outPath parallel rank).1.HasSettled p := by
  by_cases hid : ∃ f, m.get "file_id" = some (.str f) ∧ s.store.CanRegister f
  · obtain ⟨f, hid, hok⟩ := hid
    obtain ⟨parallel', hdownload⟩ := download_eq outPath parallel rank hid hok
    let u : FileNode P := { (s.registerManifest m).1 with nextPromise := s.nextPromise + 1 }
    have hu : s.Serves u := by
      refine (serves_registerManifest s m).trans (.of_same rfl ?_ fun _ ↦ rfl)
      rw [registerManifest_eq_of_get hid]
      exact Nat.le_succ _
    obtain ⟨err, hrefused⟩ := startDownload_refused (s := u) (m := m) (f := f)
      outPath parallel' rank
      s.nextPromise fun n needed hn hneeded ↦
        h f ⟨hid, hok, n, hn, (missing_registerManifest_iff hid).mp ⟨needed, hneeded⟩⟩
    rw [returned, hdownload, hid, hrefused]
    refine ⟨hu.trans (serves_settle u ..), fun p g hmem ↦ ?_⟩
    obtain ⟨rfl, -⟩ := Prod.mk.inj (List.mem_singleton.mp hmem)
    dsimp only
    rw [nextPromise_settle]
    exact ⟨Nat.lt_succ_self _, settled_settle.mpr (.inr rfl)⟩
  · obtain ⟨err, hthrows⟩ := download_throws (P := P) (s := s) (m := m) outPath parallel rank
      fun f hf hok ↦ hid ⟨f, hf, hok⟩
    rw [returned, hthrows]
    exact ⟨serves_registerManifest s m, nofun⟩

/-- **The promise of a call** is the next one. -/
theorem promise_of_download (hk : s.Keyed) (h : (s.download m outPath parallel rank).2 = .ok p) :
    p = s.nextPromise ∧ p < (s.download m outPath parallel rank).1.nextPromise := by
  obtain ⟨f, hmem⟩ : ∃ f, (p, f) ∈ s.returned (.download m outPath parallel rank) := by
    by_cases hid : ∃ f, m.get "file_id" = some (.str f) ∧ s.store.CanRegister f
    · obtain ⟨f, hid, -⟩ := hid
      exact ⟨f, by simp [returned, h, hid]⟩
    · obtain ⟨err, hthrows⟩ := download_throws (P := P) (s := s) (m := m) outPath parallel rank
        fun f hf hok ↦ hid ⟨f, hf, hok⟩
      rw [hthrows] at h
      exact nomatch h
  have hp := eq_of_mem_returned hmem
  refine ⟨hp, ?_⟩
  by_cases hbegins : ∃ f, s.Begins m f
  · obtain ⟨f, hbegins⟩ := hbegins
    exact hp ▸ (hbegins.begun outPath parallel rank hk).2.1
  · exact ((download_serves outPath parallel rank fun f hf ↦ hbegins ⟨f, hf⟩).2 p f hmem).1

end

/-! ## Runs -/

end FileNode

/-- A node, with the promises that `download` has returned and the files that they are for. -/
structure Promises (P : Primitives) where
  node : FileNode P
  returned : List (ℕ × String)

namespace Promises

variable {P : Primitives} {l : Promises P} {f : String} {p : ℕ} {m : Json}
  {jsonParse : Buffer → Option Json} {e : FileEvent}

def next (jsonParse : Buffer → Option Json) (l : Promises P) (e : FileEvent) : Promises P :=
  ⟨l.node.next jsonParse e, l.returned ++ l.node.returned e⟩

/-- Every promise that is not settled can be reached from `downloads`, and those for a file that has
no active download are all settled. -/
structure NoOrphan (l : Promises P) : Prop where
  reachable : ∀ p f, (p, f) ∈ l.returned → l.node.HasSettled p ∨
    ∃ g d, l.node.downloads.get? g = some d ∧ d.promise = p
  completed : ∀ p f, (p, f) ∈ l.returned → l.node.downloads.get? f = none → l.node.HasSettled p

/-- No call of `download` takes the place of a download whose promise is not settled. -/
def Spares (l : Promises P) (e : FileEvent) : Prop :=
  ∀ m outPath parallel rank f d, e = .download m outPath parallel rank → l.node.Begins m f →
    l.node.downloads.get? f = some d → l.node.HasSettled d.promise

/-- Whose promise is where: each that was returned is settled, or is that of the download of its
file, and no two files share one. -/
structure Right (l : Promises P) : Prop where
  keyed : l.node.Keyed
  kept : ∀ p f, (p, f) ∈ l.returned → l.node.HasSettled p ∨ l.node.promiseOf f = some p
  owned : ∀ p f, l.node.promiseOf f = some p → (p, f) ∈ l.returned
  old : ∀ p f, (p, f) ∈ l.returned → p < l.node.nextPromise
  unique : ∀ p f g, (p, f) ∈ l.returned → (p, g) ∈ l.returned → f = g

theorem Right.noOrphan (h : l.Right) : l.NoOrphan where
  reachable p f hmem := (h.kept p f hmem).imp_right fun hp ↦ by
    obtain ⟨d, hd, hpromise⟩ := Option.map_eq_some_iff.mp hp
    exact ⟨f, d, hd, hpromise⟩
  completed p f hmem hnone := (h.kept p f hmem).resolve_right fun hp ↦ by
    rw [FileNode.promiseOf, hnone] at hp
    exact nomatch hp

/-! ## One step -/

theorem mem_next {q : ℕ} {g : String} : (q, g) ∈ (l.next jsonParse e).returned ↔
    (q, g) ∈ l.returned ∨ (q, g) ∈ l.node.returned e := List.mem_append

/-- A step that serves the downloads keeps the promises right, if those that it returns are
settled. -/
theorem Right.serves (h : l.Right) (hserves : l.node.Serves (l.node.next jsonParse e))
    (hreturned : ∀ p f, (p, f) ∈ l.node.returned e →
      p < (l.node.next jsonParse e).nextPromise ∧ (l.node.next jsonParse e).HasSettled p) :
    (l.next jsonParse e).Right where
  keyed := (FileNode.effects_next h.keyed jsonParse e).keyed h.keyed
  kept p f hmem := by
    rcases mem_next.mp hmem with hold | hnew
    · rcases h.kept p f hold with hsettled | hp
      · exact .inl (hserves.settled p hsettled)
      · exact (hserves.served f p hp).symm
    · exact .inl (hreturned p f hnew).2
  owned p f hp := mem_next.mpr (.inl (h.owned p f (hserves.kept f p hp)))
  old p f hmem := by
    rcases mem_next.mp hmem with hold | hnew
    · exact (h.old p f hold).trans_le hserves.nextPromise
    · exact (hreturned p f hnew).1
  unique p f g hf hg := by
    rcases mem_next.mp hf with hf | hf
    · rcases mem_next.mp hg with hg | hg
      · exact h.unique p f g hf hg
      · exact absurd (h.old p f hf) (FileNode.eq_of_mem_returned hg).not_lt
    · rcases mem_next.mp hg with hg | hg
      · exact absurd (h.old p g hg) (FileNode.eq_of_mem_returned hf).not_lt
      · exact FileNode.unique_of_mem_returned hf hg

/-- A download begins in a free place, or in that of a promise that is settled. -/
theorem Right.begun (h : l.Right) {m : Json} {outPath : Location} {parallel : Option ℕ}
    {rank : ℕ → ℕ} (hbegins : l.node.Begins m f)
    (hspares : ∀ p, l.node.promiseOf f = some p → l.node.HasSettled p) :
    (l.next jsonParse (.download m outPath parallel rank)).Right := by
  obtain ⟨hreturned, hlt, hbegun⟩ := hbegins.begun outPath parallel rank h.keyed
  have hmem {q : ℕ} {g : String} :
      (q, g) ∈ (l.next jsonParse (.download m outPath parallel rank)).returned ↔
        (q, g) ∈ l.returned ∨ q = l.node.nextPromise ∧ g = f := by
    rw [mem_next, hreturned, List.mem_singleton, Prod.mk.injEq]
  have hold {q : ℕ} {g : String} (hq : (q, g) ∈ l.returned) : q ≠ l.node.nextPromise :=
    (h.old q g hq).ne
  constructor
  case keyed => exact (FileNode.effects_next h.keyed jsonParse _).keyed h.keyed
  case kept =>
    intro q g hq
    rcases hmem.mp hq with hq | ⟨rfl, rfl⟩
    · have hsettled : l.node.HasSettled q → _ := (hbegun.settled q (hold hq)).mpr
      rcases h.kept q g hq with hdone | hplace
      · exact .inl (hsettled hdone)
      · by_cases hg : g = f
        · exact .inl (hsettled (hspares q (hg ▸ hplace)))
        · exact .inr ((hbegun.others g hg).trans hplace)
    · exact hbegun.place.symm.imp_left And.right
  case owned =>
    intro q g hq
    by_cases hg : g = f
    · subst hg
      rcases hbegun.place with hplace | ⟨hnone, -⟩
      · exact hmem.mpr (.inr ⟨Option.some.inj (hq.symm.trans hplace), rfl⟩)
      · exact nomatch hq.symm.trans hnone
    · exact hmem.mpr (.inl (h.owned q g ((hbegun.others g hg).symm.trans hq)))
  case old =>
    intro q g hq
    rcases hmem.mp hq with hq | ⟨rfl, -⟩
    · exact (h.old q g hq).trans hlt
    · exact hlt
  case unique =>
    intro q g g' hq hq'
    rcases hmem.mp hq with hq | ⟨rfl, rfl⟩
    · exact h.unique q g g' hq ((hmem.mp hq').resolve_right fun heq ↦ hold hq heq.1)
    · exact ((hmem.mp hq').resolve_left fun hq' ↦ hold hq' rfl).2.symm

theorem Right.next (h : l.Right) (hspares : l.Spares e) : (l.next jsonParse e).Right := by
  by_cases he : ∃ m outPath parallel rank, e = .download m outPath parallel rank
  · obtain ⟨m, outPath, parallel, rank, rfl⟩ := he
    by_cases hbegins : ∃ f, l.node.Begins m f
    · obtain ⟨f, hbegins⟩ := hbegins
      refine h.begun hbegins fun p hp ↦ ?_
      obtain ⟨d, hd, rfl⟩ := Option.map_eq_some_iff.mp hp
      exact hspares m outPath parallel rank f d rfl hbegins hd
    · obtain ⟨hserves, hreturned⟩ := FileNode.download_serves (s := l.node) outPath parallel rank
        fun f hf ↦ hbegins ⟨f, hf⟩
      exact h.serves hserves hreturned
  · have hno (m : Json) (outPath : Location) (parallel : Option ℕ) (rank : ℕ → ℕ) :
        e ≠ .download m outPath parallel rank := fun heq ↦ he ⟨m, outPath, parallel, rank, heq⟩
    refine h.serves ((FileNode.effects_next h.keyed jsonParse e).serves hno) fun p f hmem ↦ ?_
    cases e with
    | download m outPath parallel rank => exact absurd rfl (hno m outPath parallel rank)
    | _ => exact nomatch hmem

/-- **A promise whose place is taken** is neither settled nor found again. -/
theorem Right.orphan (h : l.Right) (hspares : ¬l.Spares e) : ¬(l.next jsonParse e).NoOrphan := by
  simp only [Spares, not_forall] at hspares
  obtain ⟨m, outPath, parallel, rank, f, d, rfl, hbegins, hd, hsettled⟩ := hspares
  have howned : (d.promise, f) ∈ l.returned := h.owned _ _ (congrArg (Option.map _) hd)
  have hne : d.promise ≠ l.node.nextPromise := (h.old _ _ howned).ne
  obtain ⟨-, -, hbegun⟩ := hbegins.begun outPath parallel rank h.keyed
  intro hno
  rcases hno.reachable d.promise f (mem_next.mpr (.inl howned)) with hdone | ⟨g, d', hd', hpromise⟩
  · exact hsettled ((hbegun.settled _ hne).mp hdone)
  · have hplace : (l.node.download m outPath parallel rank).1.promiseOf g = some d.promise :=
      (congrArg (Option.map _) hd').trans (congrArg some hpromise)
    by_cases hg : g = f
    · subst hg
      rcases hbegun.place with htaken | ⟨hnone, -⟩
      · exact hne (Option.some.inj (hplace.symm.trans htaken))
      · cases hplace.symm.trans hnone
    · exact hg (h.unique _ _ _ (h.owned _ _ ((hbegun.others g hg).symm.trans hplace)) howned)

/-- **No promise is orphaned along a run**, exactly if no call of `download` takes the place of a
download whose promise is not settled. -/
theorem no_orphan_iff (jsonParse : Buffer → Option Json) (signKey : P.SignKey) (store : ChunkStore)
    (parallel : ℕ) (es : List FileEvent) :
    Machine.Feasible Spares (next jsonParse) ⟨.new signKey store parallel, []⟩ es ↔
      ∀ es₁ es₂, es = es₁ ++ es₂ →
        (es₁.foldl (next jsonParse) ⟨.new signKey store parallel, []⟩ : Promises P).NoOrphan :=
  Machine.feasible_iff_forall_prefix (E := fun _ _ ↦ True) (I := Right)
    (fun _ h ↦ h.noOrphan) (fun _ _ h _ hspares ↦ h.next hspares)
    (fun _ _ h _ hspares ↦ h.orphan hspares) ⟨nofun, nofun, nofun, nofun, nofun⟩
    Machine.feasible_true

/-- Two downloads of one file, the second of which replaces the first before it is over. -/
def sample : Promises Manifest.samplePrimitives :=
  [.download Manifest.sampleManifest ["first.txt"] none fun i ↦ i,
    .download Manifest.sampleManifest ["second.txt"] none fun i ↦ i].foldl
      (next fun _ ↦ none) ⟨FileNode.SampleDownload.start, []⟩

/-- The second download takes the place of the first, whose promise is pending and has no state. -/
theorem not_no_orphan : (0, Manifest.sampleFileId.hex) ∈ sample.returned ∧
    ¬sample.node.HasSettled 0 ∧ (∀ g d, sample.node.downloads.get? g = some d → d.promise ≠ 0) ∧
      ¬sample.NoOrphan := by
  have hreturned : (0, Manifest.sampleFileId.hex) ∈ sample.returned := by decide +kernel
  have hsettled : ¬sample.node.HasSettled 0 := by
    have hnone : sample.node.settled.map Prod.fst = [] := by decide +kernel
    rintro ⟨r, hmem⟩
    rw [List.map_eq_nil_iff.mp hnone] at hmem
    exact nomatch hmem
  have hplaces : ∀ g d, sample.node.downloads.get? g = some d → d.promise ≠ 0 := by
    have hsecond : sample.node.downloads.entries.map (·.2.promise) = [1] := by decide +kernel
    intro g d hd hpromise
    have hmem : d.promise ∈ sample.node.downloads.entries.map (·.2.promise) :=
      List.mem_map.mpr ⟨(g, d), OrderedMap.mem_entries_iff.mpr hd, rfl⟩
    rw [hsecond, hpromise] at hmem
    exact absurd hmem (by decide)
  refine ⟨hreturned, hsettled, hplaces, fun hno ↦ ?_⟩
  rcases hno.reachable 0 _ hreturned with hdone | ⟨g, d, hd, hpromise⟩
  · exact hsettled hdone
  · exact hplaces g d hd hpromise

end Promises

end AttestP2P
