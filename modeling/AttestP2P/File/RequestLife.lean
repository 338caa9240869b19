import AttestP2P.File.Timers

/-!
# The life of a request

A request begins when it is sent, with a timer that no request had before, and it ends when a turn
disturbs it.  In between nothing that happens to other requests, other downloads or other peers has
any influence on it.

* `Moves.holds`: a request stays in flight, with its timer, until a turn disturbs it.
* `Moves.gone`: once it is gone it does not come back, since another request has another timer.
* `Moves.account`: what a download needs and has received is left alone, but for turns that count a
  chunk and those that begin or end the download.
-/

set_option autoImplicit false

namespace AttestP2P

namespace FileNode

variable {P : Primitives} {s s' s'' : FileNode P} {d d' : Download} {f g : String} {idx t : ℕ}
  {r : ChunkRequest} {peerHex : String} {a : Act} {A B : Act → Prop}

/-! ## The life of a request -/

theorem Turn.nextTimer_le (h : Turn s a s') : s.nextTimer ≤ s'.nextTimer := by
  cases h with
  | still h => exact h.nextTimer.ge
  | request => exact Nat.le_succ _
  | tick => exact Nat.le_succ _
  | @finish d =>
    rw [clearRequests, nextTimer_clearTimers]
    cases d.tick with
    | none => rfl
    | some t => rfl
  | @detach d peerHex hd =>
    rw [releasePeer, hd]
    exact (nextTimer_clearTimers ..).ge
  | _ => rfl

theorem get?_inFlight_addRequest {i : ℕ} {q : ChunkRequest} :
    (d.addRequests [(i, q)]).inFlight.get? idx =
      if idx = i then some q else d.inFlight.get? idx := OrderedMap.get?_set

/-- **A request is not forgotten** until a turn disturbs it. -/
theorem Turn.holds (h : Turn s a s') (hr : s.InFlight f idx r) (ha : ¬a.Disturbs f idx) :
    s'.InFlight f idx r := by
  have hget {d : Download} (hd : s.downloads.get? d.fileId = some d) (hf : f = d.fileId) :
      d.inFlight.get? idx = some r := by
    obtain ⟨d', hd', hr⟩ := hr
    obtain rfl := Option.some.inj (hd.symm.trans (hf ▸ hd'))
    exact hr
  have hput {d d' : Download} {s' : FileNode P}
      (hset : s'.downloads = s.downloads.set d.fileId d') (hself : f = d.fileId →
        d'.inFlight.get? idx = some r) : s'.InFlight f idx r := by
    by_cases hf : f = d.fileId
    · exact (inFlight_set_iff hset).mpr (.inl ⟨hf, hself hf⟩)
    · exact (inFlight_set_iff hset).mpr (.inr ⟨hf, hr⟩)
  have hrelease {d : Download} {i : ℕ} (hd : s.downloads.get? d.fileId = some d)
      (hdisturbs : ¬Act.Disturbs f idx (.release d.fileId i)) (hf : f = d.fileId) :
      (d.release i).inFlight.get? idx = some r := by
    have hne : idx ≠ i := fun hi ↦ hdisturbs ⟨hf.symm, hi.symm⟩
    rw [Download.release, OrderedMap.get?_delete, if_neg hne, hget hd hf]
  cases h with
  | still h => exact (inFlight_congr h.downloads).mpr hr
  | @request d i _ hd hidle =>
    refine hput (d := d) rfl fun hf ↦ ?_
    have hne : idx ≠ i := by
      rintro rfl
      have hhas : d.inFlight.has idx = true := Option.isSome_of_eq_some (hget hd hf)
      exact absurd (hhas.symm.trans hidle) (fun h ↦ by cases h)
    rw [get?_inFlight_addRequest, if_neg hne, hget hd hf]
  | release hd => exact hput rfl (hrelease hd ha)
  | expire _ hd => exact hput rfl (hrelease hd ha)
  | lapse => exact hr
  | @markBad d i peerHex hd => exact hput (d := d) rfl (hget hd)
  | @receive d i hd => exact hput (d := d) rfl (hget hd)
  | start => exact hput rfl fun hf ↦ absurd hf.symm ha
  | @tick d hd => exact hput (d := d) rfl (hget hd)
  | @finish _ g =>
    obtain ⟨d', hd', hr⟩ := hr
    refine ⟨d', ?_, hr⟩
    have hne : f ≠ g := fun hf ↦ ha hf.symm
    rw [OrderedMap.get?_delete, if_neg hne, hd']
  | detach hd => exact hput (downloads_releasePeer hd) fun hf ↦ absurd hf.symm ha

/-- Where a request comes from: it was in flight before the turn, or the turn sent it with a new
timer. -/
theorem Turn.inFlight (h : Turn s a s') (hr : s'.InFlight f idx r) :
    s.InFlight f idx r ∧ a ≠ .release f idx ∨
      r.timer = s.nextTimer ∧ a = .request f idx r.peerHex := by
  have hrelease {d : Download} {i : ℕ} {s' : FileNode P}
      (hd : s.downloads.get? d.fileId = some d)
      (hset : s'.downloads = s.downloads.set d.fileId (d.release i)) (hr : s'.InFlight f idx r) :
      s.InFlight f idx r ∧ Act.release d.fileId i ≠ .release f idx := by
    rcases (inFlight_set_iff hset).mp hr with ⟨rfl, hget⟩ | ⟨hf, hold⟩
    · rw [Download.release, OrderedMap.get?_delete] at hget
      split at hget
      · cases hget
      · next hne => exact ⟨⟨d, hd, hget⟩, fun heq ↦ hne (Act.release.inj heq).2.symm⟩
    · exact ⟨hold, fun heq ↦ hf (Act.release.inj heq).1.symm⟩
  -- The other turns that change a download add no request to it.
  have hkept {d : Download} {s' : FileNode P} (d' : Download)
      (hd : s.downloads.get? d.fileId = some d) (hset : s'.downloads = s.downloads.set d.fileId d')
      (hself : d'.inFlight.get? idx = some r → d.inFlight.get? idx = some r)
      (hr : s'.InFlight f idx r) : s.InFlight f idx r := by
    rcases (inFlight_set_iff hset).mp hr with ⟨rfl, hget⟩ | ⟨-, hold⟩
    · exact ⟨d, hd, hself hget⟩
    · exact hold
  cases h with
  | still h => exact .inl ⟨(inFlight_congr h.downloads).mp hr, fun h ↦ by cases h⟩
  | @request d i peerHex hd =>
    rcases (inFlight_set_iff (s := s) rfl).mp hr with ⟨rfl, hget⟩ | ⟨-, hold⟩
    · rw [get?_inFlight_addRequest] at hget
      split at hget
      · next hi =>
        subst hi
        obtain rfl := Option.some.inj hget
        exact .inr ⟨rfl, rfl⟩
      · exact .inl ⟨⟨d, hd, hget⟩, fun h ↦ by cases h⟩
    · exact .inl ⟨hold, fun h ↦ by cases h⟩
  | release hd => exact .inl (hrelease hd rfl hr)
  | expire _ hd => exact .inl (hrelease hd rfl hr)
  | lapse => exact .inl ⟨hr, fun h ↦ by cases h⟩
  | @markBad d i peerHex hd =>
    exact .inl ⟨hkept (d.markBad i peerHex) hd rfl id hr, fun h ↦ by cases h⟩
  | @receive d i hd => exact .inl ⟨hkept (d.receive i) hd rfl id hr, fun h ↦ by cases h⟩
  | start _ _ hflight =>
    rcases (inFlight_set_iff (s := s) rfl).mp hr with ⟨rfl, hget⟩ | ⟨-, hold⟩
    · rw [hflight] at hget
      cases hget
    · exact .inl ⟨hold, fun h ↦ by cases h⟩
  | @tick d hd =>
    exact .inl ⟨hkept { d with tick := some s.nextTimer } hd rfl id hr, fun h ↦ by cases h⟩
  | @finish _ g =>
    obtain ⟨d', hd', hr⟩ := hr
    rw [OrderedMap.get?_delete] at hd'
    split at hd'
    · cases hd'
    · exact .inl ⟨⟨d', hd', hr⟩, fun h ↦ by cases h⟩
  | @detach d peerHex hd =>
    have hself (hget : (d.withoutPeer peerHex).inFlight.get? idx = some r) :
        d.inFlight.get? idx = some r := by
      rw [Download.withoutPeer, OrderedMap.get?_filter] at hget
      exact Option.eq_some_of_filter_eq_some hget
    exact .inl ⟨hkept _ hd (downloads_releasePeer hd) hself hr, fun h ↦ by cases h⟩

theorem Moves.nextTimer_le (h : Moves A s s') : s.nextTimer ≤ s'.nextTimer := by
  obtain ⟨acts, hrun, -⟩ := h
  exact hrun.relates (R := fun s s' : FileNode P ↦ s.nextTimer ≤ s'.nextTimer)
    (fun _ ↦ Nat.le_refl _)
    (fun _ _ _ ↦ Nat.le_trans) fun _ _ _ ↦ Turn.nextTimer_le

theorem Moves.holds (h : Moves A s s') (hr : s.InFlight f idx r)
    (hA : ∀ a, A a → ¬a.Disturbs f idx) : s'.InFlight f idx r := by
  obtain ⟨acts, hrun, hacts⟩ := h
  induction hrun with
  | nil => exact hr
  | cons hturn _ ih =>
    obtain ⟨ha, hacts⟩ := List.forall_mem_cons.mp hacts
    exact ih (Turn.holds hturn hr (hA _ ha)) hacts

/-- **A request that is gone does not come back**: another one has another timer. -/
theorem Moves.gone (h : Moves A s s') (ht : r.timer < s.nextTimer) (hgone : ¬s.InFlight f idx r) :
    ¬s'.InFlight f idx r := by
  obtain ⟨acts, hrun, -⟩ := h
  induction hrun with
  | nil => exact hgone
  | @cons s₁ s₂ _ a _ hturn _ ih =>
    refine ih (ht.trans_le (Turn.nextTimer_le hturn)) fun hr ↦ ?_
    rcases Turn.inFlight hturn hr with ⟨hold, -⟩ | ⟨hnew, -⟩
    · exact hgone hold
    · exact ht.ne hnew

/-! ## The account of a download

What a download needs, and what it has received, changes in three turns only: when a chunk is
counted, and when the download begins or ends. -/

/-- A download is put back with the same account. -/
theorem account_of_set (hd : s.downloads.get? d.fileId = some d)
    (hset : s'.downloads = s.downloads.set d.fileId d') (haccount : d'.account = d.account) :
    (s'.downloads.get? f).map Download.account = (s.downloads.get? f).map Download.account := by
  rw [hset, OrderedMap.get?_set]
  split
  · next hf => rw [hf, hd, Option.map_some, Option.map_some, haccount]
  · rfl

/-- **The account of a download** changes where it begins or ends, and where a chunk is counted. -/
theorem Turn.account (h : Turn s a s') (ha : a.Plain) (hdrop : a ≠ .drop f) :
    (s'.downloads.get? f).map Download.account = (s.downloads.get? f).map Download.account := by
  cases h with
  | still h => rw [h.downloads]
  | @request d i peerHex hd => exact account_of_set (d := d) hd rfl rfl
  | release hd => exact account_of_set hd rfl rfl
  | expire _ hd => exact account_of_set hd rfl rfl
  | lapse => rfl
  | @markBad d i peerHex hd => exact account_of_set (d := d) hd rfl rfl
  | receive => exact ha.elim
  | @start d =>
    have hne : f ≠ d.fileId := fun hf ↦ hdrop (congrArg Act.drop hf.symm)
    rw [putDownload, OrderedMap.get?_set_of_ne hne]
  | @tick d hd => exact account_of_set (d := d) hd rfl rfl
  | @finish d g =>
    have hne : f ≠ g := fun hf ↦ hdrop (congrArg Act.drop hf.symm)
    dsimp only
    rw [OrderedMap.get?_delete, if_neg hne]
  | detach hd => exact account_of_set hd (downloads_releasePeer hd) rfl

theorem Moves.account (h : Moves A s s') (hA : ∀ a, A a → a.Plain ∧ a ≠ .drop f) :
    (s'.downloads.get? f).map Download.account = (s.downloads.get? f).map Download.account := by
  obtain ⟨acts, hrun, hacts⟩ := h
  induction hrun with
  | nil => rfl
  | cons hturn _ ih =>
    obtain ⟨ha, hacts⟩ := List.forall_mem_cons.mp hacts
    exact (ih hacts).trans (Turn.account hturn (hA _ ha).1 (hA _ ha).2)

end FileNode

end AttestP2P
