import AttestP2P.File.EventTurns

/-!
# Timers

A request is sent together with a timer, which is cleared when the request is released.  The code
keeps the handle of the timer in the request, and nothing else ties the two together.  That they
stay together is an invariant of turns: no request is without its timer, no two requests share one,
and a timer that fires finds the request it was set for.

* `InFlight` is a request that has been sent and has not been released.
* `Timed` is the invariant, and `Turn.timed` says that every turn keeps it, by one lemma for each
  kind of turn.
* `keyed_and_timed_of_reachable`: it holds in every reachable state.
-/

set_option autoImplicit false

namespace AttestP2P

namespace FileNode

variable {P : Primitives} {s s' s'' : FileNode P} {d d' : Download} {f g : String} {idx t : ℕ}
  {r : ChunkRequest} {peerHex : String} {a : Act} {A B : Act → Prop}

/-! ## Timers

A timer is named by a number that is never used again, and belongs to one request or to the tick of
one download.  Between two events each request in flight has its timer running, and each running
timer has its request. -/

/-- The request is in flight, in the download of its file. -/
def InFlight (s : FileNode P) (f : String) (idx : ℕ) (r : ChunkRequest) : Prop :=
  ∃ d, s.downloads.get? f = some d ∧ d.inFlight.get? idx = some r

/-- Every request in flight, and every download that goes on, has a timer of its own. -/
structure Timed (s : FileNode P) : Prop where
  pending : ∀ t x, s.timers.get? t = some x → t < s.nextTimer
  requests : ∀ f idx r, s.InFlight f idx r → s.timers.get? r.timer = some (.request f idx)
  ticks : ∀ f d t, s.downloads.get? f = some d → d.tick = some t →
    s.timers.get? t = some (.tick f)

theorem get?_clearTimers {α : Type} (s : FileNode P) (timer : α → ℕ) (l : List α) (t : ℕ) :
    (l.foldl (fun s a ↦ s.clearTimer (timer a)) s).timers.get? t =
      if t ∈ l.map timer then none else s.timers.get? t := by
  induction l generalizing s with
  | nil => rfl
  | cons a l ih =>
    rw [List.foldl_cons, ih, clearTimer, OrderedMap.get?_delete, List.map_cons]
    by_cases ht : t = timer a
    · simp [ht]
    · simp [ht]

theorem nextTimer_clearTimers {α : Type} (s : FileNode P) (timer : α → ℕ) (l : List α) :
    (l.foldl (fun s a ↦ s.clearTimer (timer a)) s).nextTimer = s.nextTimer := by
  induction l generalizing s with
  | nil => rfl
  | cons a l ih => exact ih (s.clearTimer (timer a))

/-- Some timers have been cleared, and neither a request that is left nor a download had one. -/
theorem Timed.of_cleared (h : s.Timed) (cleared : ℕ → Prop) (hnext : s'.nextTimer = s.nextTimer)
    (hsub : ∀ t x, s'.timers.get? t = some x → s.timers.get? t = some x)
    (hkept : ∀ t, ¬cleared t → s'.timers.get? t = s.timers.get? t)
    (hflight : ∀ f idx r, s'.InFlight f idx r → s.InFlight f idx r ∧ ¬cleared r.timer)
    (hticks : ∀ f d t, s'.downloads.get? f = some d → d.tick = some t →
      ∃ d₀, s.downloads.get? f = some d₀ ∧ d₀.tick = some t ∧ ¬cleared t) : s'.Timed where
  pending t x hx := by
    rw [hnext]
    exact h.pending t x (hsub t x hx)
  requests f idx r hr := by
    obtain ⟨hold, hne⟩ := hflight f idx r hr
    rw [hkept _ hne, h.requests f idx r hold]
  ticks f d t hd ht := by
    obtain ⟨d₀, hd₀, ht₀, hne⟩ := hticks f d t hd ht
    rw [hkept t hne, h.ticks f d₀ t hd₀ ht₀]

theorem get?_clearTimer_of_ne {t t' : ℕ} (h : t' ≠ t) :
    (s.clearTimer t).timers.get? t' = s.timers.get? t' := by
  rw [clearTimer, OrderedMap.get?_delete, if_neg h]

theorem get?_of_clearTimer {t t' : ℕ} {x : Timer} (h : (s.clearTimer t).timers.get? t' = some x) :
    s.timers.get? t' = some x := by
  rw [clearTimer, OrderedMap.get?_delete] at h
  split at h
  · cases h
  · exact h

/-- The downloads after one has been put: this one, and the others as they were. -/
theorem get?_of_set (hset : s'.downloads = s.downloads.set g d)
    (h : s'.downloads.get? f = some d') :
    f = g ∧ d' = d ∨ f ≠ g ∧ s.downloads.get? f = some d' := by
  rw [hset, OrderedMap.get?_set] at h
  split at h
  · next hf => exact .inl ⟨hf, (Option.some.inj h).symm⟩
  · next hf => exact .inr ⟨hf, h⟩

theorem inFlight_set_iff (hset : s'.downloads = s.downloads.set g d) : s'.InFlight f idx r ↔
    f = g ∧ d.inFlight.get? idx = some r ∨ f ≠ g ∧ s.InFlight f idx r := by
  constructor
  · rintro ⟨d', hd', hr⟩
    rcases get?_of_set hset hd' with ⟨hf, rfl⟩ | ⟨hf, hold⟩
    · exact .inl ⟨hf, hr⟩
    · exact .inr ⟨hf, d', hold, hr⟩
  · rintro (⟨rfl, hr⟩ | ⟨hf, d', hd', hr⟩)
    · exact ⟨d, by rw [hset, OrderedMap.get?_set_self], hr⟩
    · exact ⟨d', by rw [hset, OrderedMap.get?_set_of_ne hf, hd'], hr⟩

theorem inFlight_congr (h : s'.downloads = s.downloads) :
    s'.InFlight f idx r ↔ s.InFlight f idx r := by
  rw [InFlight, InFlight, h]

/-- Requests that have the same timer are the same. -/
theorem Timed.eq_of_timer (h : s.Timed) {i : ℕ} {r' : ChunkRequest} (hr : s.InFlight f idx r)
    (hr' : s.InFlight g i r') (htimer : r.timer = r'.timer) : f = g ∧ idx = i := by
  have hsame := h.requests f idx r hr
  rw [htimer, h.requests g i r' hr'] at hsame
  obtain ⟨rfl, rfl⟩ := Timer.request.inj (Option.some.inj hsame)
  exact ⟨rfl, rfl⟩

/-- The interval of a download is no timer of a request. -/
theorem Timed.tick_ne (h : s.Timed) (hr : s.InFlight f idx r) (hd : s.downloads.get? g = some d)
    (ht : d.tick = some t) : t ≠ r.timer := by
  rintro rfl
  have hsame := h.requests f idx r hr
  rw [h.ticks g d r.timer hd ht] at hsame
  exact nomatch Option.some.inj hsame

/-- A request is released, and its timer is cleared, maybe with another one of it. -/
theorem Timed.release (h : s.Timed) (hd : s.downloads.get? d.fileId = some d)
    (hr : d.inFlight.get? idx = some r) (cleared : ℕ → Prop)
    (ht : ∀ t, cleared t → t = r.timer ∨ s.timers.get? t = some (.request d.fileId idx))
    (hnext : s'.nextTimer = s.nextTimer)
    (hdownloads : s'.downloads = s.downloads.set d.fileId (d.release idx))
    (hsub : ∀ t x, s'.timers.get? t = some x → s.timers.get? t = some x)
    (hkept : ∀ t, ¬cleared t → s'.timers.get? t = s.timers.get? t) : s'.Timed := by
  have hflight : s.InFlight d.fileId idx r := ⟨d, hd, hr⟩
  have hput {f : String} {i : ℕ} {r' : ChunkRequest} (h' : s'.InFlight f i r') :
      s.InFlight f i r' ∧ (f ≠ d.fileId ∨ i ≠ idx) := by
    rcases (inFlight_set_iff hdownloads).mp h' with ⟨rfl, hget⟩ | ⟨hne, hold⟩
    · rw [Download.release, OrderedMap.get?_delete] at hget
      split at hget
      · cases hget
      · next hne => exact ⟨⟨d, hd, hget⟩, .inr hne⟩
    · exact ⟨hold, .inl hne⟩
  refine h.of_cleared cleared hnext hsub hkept (fun f i r' h' ↦ ?_) fun f d' t hd' htick ↦ ?_
  · obtain ⟨hold, hne⟩ := hput h'
    refine ⟨hold, fun hcleared ↦ ?_⟩
    have hsame : f = d.fileId ∧ i = idx := by
      rcases ht _ hcleared with htimer | htimer
      · exact h.eq_of_timer hold hflight htimer
      · rw [h.requests f i r' hold] at htimer
        obtain ⟨rfl, rfl⟩ := Timer.request.inj (Option.some.inj htimer)
        exact ⟨rfl, rfl⟩
    exact hne.elim (· hsame.1) (· hsame.2)
  · obtain ⟨d₀, hd₀, ht₀⟩ : ∃ d₀, s.downloads.get? f = some d₀ ∧ d₀.tick = some t := by
      rcases get?_of_set hdownloads hd' with ⟨rfl, rfl⟩ | ⟨-, hold⟩
      · exact ⟨d, hd, htick⟩
      · exact ⟨d', hold, htick⟩
    refine ⟨d₀, hd₀, ht₀, fun hcleared ↦ ?_⟩
    rcases ht _ hcleared with htimer | htimer
    · exact h.tick_ne hflight hd₀ ht₀ htimer
    · rw [h.ticks f d₀ t hd₀ ht₀] at htimer
      cases Option.some.inj htimer

theorem Timed.congr (h : s.Timed) (hdownloads : s'.downloads = s.downloads)
    (htimers : s'.timers = s.timers) (hnext : s'.nextTimer = s.nextTimer) : s'.Timed := by
  exact h.of_cleared (fun _ ↦ False) hnext (fun t x hx ↦ htimers ▸ hx)
    (fun t _ ↦ by rw [htimers])
    (fun f idx r hr ↦ ⟨(inFlight_congr hdownloads).mp hr, not_false⟩)
    fun f d t hd ht ↦ ⟨d, hdownloads ▸ hd, ht, not_false⟩

/-- A download is put back with no more requests, and with its interval. -/
theorem Timed.put (h : s.Timed) (hflight : ∀ idx r, d.inFlight.get? idx = some r →
      s.InFlight d.fileId idx r) (htick : ∀ t, d.tick = some t →
      ∃ d₀, s.downloads.get? d.fileId = some d₀ ∧ d₀.tick = some t) : (s.putDownload d).Timed := by
  refine h.of_cleared (fun _ ↦ False) rfl (fun t x hx ↦ hx) (fun t _ ↦ rfl)
    (fun f idx r hr ↦ ⟨?_, not_false⟩) fun f d' t hd' ht ↦ ?_
  · rcases (inFlight_set_iff (s := s) rfl).mp hr with ⟨rfl, hget⟩ | ⟨-, hold⟩
    · exact hflight idx r hget
    · exact hold
  · rcases get?_of_set (s := s) rfl hd' with ⟨rfl, rfl⟩ | ⟨-, hold⟩
    · obtain ⟨d₀, hd₀, ht₀⟩ := htick t ht
      exact ⟨d₀, hd₀, ht₀, not_false⟩
    · exact ⟨d', hold, ht, not_false⟩

/-- A timer that is set is new, and replaces none that is pending. -/
theorem Timed.get?_set_nextTimer (h : s.Timed) {x y : Timer} (ht : s.timers.get? t = some x) :
    (s.timers.set s.nextTimer y).get? t = some x := by
  rw [OrderedMap.get?_set_of_ne (h.pending t x ht).ne, ht]

theorem Timed.pending_set (h : s.Timed) {y : Timer} (t : ℕ) (x : Timer)
    (ht : (s.timers.set s.nextTimer y).get? t = some x) : t < s.nextTimer + 1 := by
  rw [OrderedMap.get?_set] at ht
  split at ht
  · next heq => rw [heq]; exact Nat.lt_succ_self _
  · exact Nat.lt_succ_of_lt (h.pending t x ht)

theorem Timed.request (h : s.Timed) (hd : s.downloads.get? d.fileId = some d) :
    (s.addRequests d [(idx, ⟨peerHex, s.nextTimer⟩)]).Timed where
  pending := h.pending_set
  requests f i r hr := by
    rcases (inFlight_set_iff (s := s) rfl).mp hr with ⟨rfl, hget⟩ | ⟨-, hold⟩
    · rw [Download.addRequests, List.foldl_cons, List.foldl_nil, OrderedMap.get?_set] at hget
      split at hget
      · next hi =>
        obtain rfl := Option.some.inj hget
        rw [hi]
        exact OrderedMap.get?_set_self
      · exact h.get?_set_nextTimer (h.requests _ i r ⟨d, hd, hget⟩)
    · exact h.get?_set_nextTimer (h.requests f i r hold)
  ticks f d' t hd' ht := by
    rcases get?_of_set (s := s) rfl hd' with ⟨rfl, rfl⟩ | ⟨-, hold⟩
    · exact h.get?_set_nextTimer (h.ticks _ d t hd ht)
    · exact h.get?_set_nextTimer (h.ticks f d' t hold ht)

theorem Timed.tick (h : s.Timed) (hd : s.downloads.get? d.fileId = some d) :
    ((s.setTimer (.tick d.fileId)).putDownload { d with tick := some s.nextTimer }).Timed where
  pending := h.pending_set
  requests f i r hr := by
    rcases (inFlight_set_iff (s := s) rfl).mp hr with ⟨rfl, hget⟩ | ⟨-, hold⟩
    · exact h.get?_set_nextTimer (h.requests _ i r ⟨d, hd, hget⟩)
    · exact h.get?_set_nextTimer (h.requests f i r hold)
  ticks f d' t hd' ht := by
    rcases get?_of_set (s := s) rfl hd' with ⟨rfl, rfl⟩ | ⟨-, hold⟩
    · obtain rfl := Option.some.inj ht
      exact OrderedMap.get?_set_self
    · exact h.get?_set_nextTimer (h.ticks f d' t hold ht)

theorem Timed.lapse (h : s.Timed) (ht : s.timers.get? t = some (.request f idx))
    (hidle : ∀ d, s.downloads.get? f = some d → d.inFlight.has idx = false) :
    (s.clearTimer t).Timed := by
  refine h.of_cleared (· = t) rfl (fun _ _ ↦ get?_of_clearTimer)
    (fun _ ↦ get?_clearTimer_of_ne) (fun g i r hr ↦ ⟨hr, ?_⟩) fun g d t' hd htick ↦
      ⟨d, hd, htick, ?_⟩
  · rintro rfl
    have hsame := ht.symm.trans (h.requests g i r hr)
    obtain ⟨rfl, rfl⟩ := Timer.request.inj (Option.some.inj hsame)
    obtain ⟨d, hd, hr⟩ := hr
    have hhas : d.inFlight.has idx = true := Option.isSome_of_eq_some hr
    exact absurd (hhas.symm.trans (hidle d hd)) nofun
  · rintro rfl
    have hsame := ht.symm.trans (h.ticks g d t' hd htick)
    exact nomatch Option.some.inj hsame

theorem get?_clearRequests (s : FileNode P) (d : Download) (t : ℕ) :
    ((d.tick.elim s s.clearTimer).clearRequests d).timers.get? t =
      if d.tick = some t ∨ t ∈ d.inFlight.entries.map (fun e ↦ e.2.timer) then none
      else s.timers.get? t := by
  rw [clearRequests, get?_clearTimers]
  by_cases hmem : t ∈ d.inFlight.entries.map fun e ↦ e.2.timer
  · rw [if_pos hmem, if_pos (.inr hmem)]
  · rw [if_neg hmem]
    cases htick : d.tick with
    | none => rw [if_neg (not_or.mpr ⟨(fun h ↦ by cases h), hmem⟩)]; rfl
    | some u =>
      rw [Option.elim_some, clearTimer, OrderedMap.get?_delete]
      by_cases ht : t = u
      · rw [if_pos ht, if_pos (.inl (by rw [ht]))]
      · rw [if_neg ht, if_neg (not_or.mpr ⟨fun h ↦ ht (Option.some.inj h).symm, hmem⟩)]

theorem Timed.finish (h : s.Timed) (hd : s.downloads.get? f = some d) :
    Timed { (d.tick.elim s s.clearTimer).clearRequests d with
      downloads := s.downloads.delete f } := by
  have hget {g : String} {d' : Download} (h' : (s.downloads.delete f).get? g = some d') :
      g ≠ f ∧ s.downloads.get? g = some d' := by
    rw [OrderedMap.get?_delete] at h'
    split at h'
    · cases h'
    · next hne => exact ⟨hne, h'⟩
  have hnext : ((d.tick.elim s s.clearTimer).clearRequests d).nextTimer = s.nextTimer := by
    rw [clearRequests, nextTimer_clearTimers]
    cases d.tick with
    | none => rfl
    | some t => rfl
  have hflight {t : ℕ} (ht : t ∈ d.inFlight.entries.map fun e ↦ e.2.timer) :
      ∃ idx r, s.InFlight f idx r ∧ r.timer = t := by
    obtain ⟨e, he, rfl⟩ := List.mem_map.mp ht
    exact ⟨e.1, e.2, ⟨d, hd, OrderedMap.mem_entries_iff.mp he⟩, rfl⟩
  refine h.of_cleared (fun t ↦
    d.tick = some t ∨ t ∈ d.inFlight.entries.map fun e ↦ e.2.timer) hnext (fun t x hx ↦ ?_)
    (fun t ht ↦ (get?_clearRequests s d t).trans (if_neg ht)) (fun g i r hr ↦ ?_)
    fun g d' t hd' htick ↦ ?_
  · have hx' := (get?_clearRequests s d t).symm.trans hx
    split at hx'
    · cases hx'
    · exact hx'
  · obtain ⟨d', hd', hr'⟩ := hr
    obtain ⟨hne, hold⟩ := hget hd'
    refine ⟨⟨d', hold, hr'⟩, ?_⟩
    rintro (htick | hmem)
    · exact h.tick_ne ⟨d', hold, hr'⟩ hd htick rfl
    · obtain ⟨j, r', hr'', htimer⟩ := hflight hmem
      exact hne (h.eq_of_timer hr'' ⟨d', hold, hr'⟩ htimer).1.symm
  · obtain ⟨hne, hold⟩ := hget hd'
    refine ⟨d', hold, htick, ?_⟩
    rintro (htick' | hmem)
    · have hsame := (h.ticks f d t hd htick').symm.trans (h.ticks g d' t hold htick)
      exact hne (Timer.tick.inj (Option.some.inj hsame)).symm
    · obtain ⟨j, r', hr'', htimer⟩ := hflight hmem
      exact h.tick_ne hr'' hold htick htimer.symm

theorem Timed.detach (h : s.Timed) (hd : s.downloads.get? d.fileId = some d) (peerHex : String) :
    (s.releasePeer d.fileId peerHex).Timed := by
  let lost := d.inFlight.entries.filter fun e ↦ e.2.peerHex = peerHex
  have hrelease : s.releasePeer d.fileId peerHex =
      (lost.foldl (fun s e ↦ s.clearTimer e.2.timer) s).putDownload (d.withoutPeer peerHex) := by
    rw [releasePeer, hd]
    rfl
  have hset : (s.releasePeer d.fileId peerHex).downloads =
      s.downloads.set d.fileId (d.withoutPeer peerHex) := downloads_releasePeer hd
  have hget (t : ℕ) : (s.releasePeer d.fileId peerHex).timers.get? t =
      if t ∈ lost.map (fun e ↦ e.2.timer) then none else s.timers.get? t := by
    rw [hrelease]
    exact get?_clearTimers s (fun e : ℕ × ChunkRequest ↦ e.2.timer) lost t
  have hnext : (s.releasePeer d.fileId peerHex).nextTimer = s.nextTimer := by
    rw [hrelease]
    exact nextTimer_clearTimers s (fun e : ℕ × ChunkRequest ↦ e.2.timer) lost
  have hlost {t : ℕ} (ht : t ∈ lost.map fun e ↦ e.2.timer) :
      ∃ idx r, d.inFlight.get? idx = some r ∧ r.peerHex = peerHex ∧ r.timer = t := by
    obtain ⟨e, he, rfl⟩ := List.mem_map.mp ht
    obtain ⟨hmem, hpeer⟩ := List.mem_filter.mp he
    exact ⟨e.1, e.2, OrderedMap.mem_entries_iff.mp hmem, of_decide_eq_true hpeer, rfl⟩
  have hkept {idx : ℕ} {r : ChunkRequest}
      (hr : (d.withoutPeer peerHex).inFlight.get? idx = some r) :
      d.inFlight.get? idx = some r ∧ r.peerHex ≠ peerHex := by
    rw [Download.withoutPeer, OrderedMap.get?_filter, Option.filter_eq_some_iff] at hr
    exact ⟨hr.1, of_decide_eq_true hr.2⟩
  refine h.of_cleared (· ∈ lost.map fun e ↦ e.2.timer) hnext (fun t x hx ↦ ?_)
    (fun t ht ↦ (hget t).trans (if_neg ht)) (fun g i r hr ↦ ?_) fun g d' t hd' htick ↦ ?_
  · rw [hget] at hx
    split at hx
    · cases hx
    · exact hx
  · rcases (inFlight_set_iff hset).mp hr with ⟨rfl, hleft⟩ | ⟨hne, hold⟩
    · obtain ⟨hold, hpeer⟩ := hkept hleft
      refine ⟨⟨d, hd, hold⟩, fun hmem ↦ ?_⟩
      obtain ⟨j, r', hr', hpeer', htimer⟩ := hlost hmem
      obtain ⟨-, rfl⟩ := h.eq_of_timer ⟨d, hd, hr'⟩ ⟨d, hd, hold⟩ htimer
      obtain rfl := Option.some.inj (hold.symm.trans hr')
      exact hpeer hpeer'
    · refine ⟨hold, fun hmem ↦ ?_⟩
      obtain ⟨j, r', hr', -, htimer⟩ := hlost hmem
      exact hne (h.eq_of_timer ⟨d, hd, hr'⟩ hold htimer).1.symm
  · obtain ⟨d₀, hd₀, htick⟩ : ∃ d₀, s.downloads.get? g = some d₀ ∧ d₀.tick = some t := by
      rcases get?_of_set hset hd' with ⟨rfl, rfl⟩ | ⟨-, hold⟩
      · exact ⟨d, hd, htick⟩
      · exact ⟨d', hold, htick⟩
    refine ⟨d₀, hd₀, htick, fun hmem ↦ ?_⟩
    obtain ⟨j, r', hr', -, htimer⟩ := hlost hmem
    exact h.tick_ne ⟨d, hd, hr'⟩ hd₀ htick htimer.symm

/-- **A turn leaves every request its timer**: those that remain keep theirs, and a new request gets
a new one. -/
theorem Turn.timed (h : Turn s a s') (hs : s.Timed) : s'.Timed := by
  cases h with
  | still h => exact hs.congr h.downloads h.timers h.nextTimer
  | request hd => exact hs.request hd
  | @release d idx r hd hr =>
    exact hs.release hd hr (· = r.timer) (fun _ ↦ .inl) rfl rfl
      (fun _ _ ↦ get?_of_clearTimer) fun _ ↦ get?_clearTimer_of_ne
  | @expire d idx r t ht hd hr =>
    refine hs.release hd hr (fun t' ↦ t' = t ∨ t' = r.timer) (fun t' h' ↦ ?_) rfl rfl
      (fun _ _ h' ↦ get?_of_clearTimer (get?_of_clearTimer h')) fun t' h' ↦ ?_
    · rcases h' with rfl | rfl
      · exact .inr ht
      · exact .inl rfl
    · obtain ⟨hne, hne'⟩ := not_or.mp h'
      exact (get?_clearTimer_of_ne hne').trans (get?_clearTimer_of_ne hne)
  | lapse ht hidle => exact hs.lapse ht hidle
  | @markBad d idx peerHex hd =>
    exact hs.put (d := d.markBad idx peerHex) (fun i r hr ↦ ⟨d, hd, hr⟩) fun t ht ↦ ⟨d, hd, ht⟩
  | @receive d idx hd =>
    have hput : (s.putDownload (d.receive idx)).Timed :=
      hs.put (fun i r hr ↦ ⟨d, hd, hr⟩) fun t ht ↦ ⟨d, hd, ht⟩
    exact hput.congr rfl rfl rfl
  | start _ _ hflight htick =>
    refine hs.put (fun idx r hr ↦ ?_) fun t ht ↦ ?_
    · rw [hflight] at hr
      exact nomatch hr
    · rw [htick] at ht
      exact nomatch ht
  | tick hd => exact hs.tick hd
  | finish hd => exact hs.finish hd
  | detach hd => exact hs.detach hd _

theorem Moves.timed (h : Moves A s s') (hs : s.Timed) : s'.Timed := by
  obtain ⟨acts, hrun, -⟩ := h
  exact hrun.preserves (I := Timed) (fun _ _ _ hs hturn ↦ Turn.timed hturn hs) hs

theorem keyed_and_timed_of_reachable (jsonParse : Buffer → Option Json)
    (hs : (machine (P := P) jsonParse).Reachable s) : s.Keyed ∧ s.Timed := by
  refine hs.invariant (I := fun s ↦ s.Keyed ∧ s.Timed) ?_ ?_
  · rintro _ ⟨signKey, store, parallel, rfl⟩
    refine ⟨nofun, nofun, ?_, nofun⟩
    rintro f idx r ⟨d, hd, -⟩
    exact nomatch hd
  · rintro s e _ _ ⟨hk, ht⟩ ⟨-, rfl⟩
    have hmoves := hk.moves_next jsonParse e
    exact ⟨hmoves.keyed hk, hmoves.timed ht⟩

end FileNode

end AttestP2P
