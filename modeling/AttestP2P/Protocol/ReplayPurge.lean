import AttestP2P.Protocol.ReplaySafety

/-!
# What a purge leaves

`_purge` goes through the cache from the oldest entry on and stops at the first that is still in the
window.  The source says why: what was put in later is still in the window too.  The timestamps are
those of the senders, though, and may be off by `windowMs` in either direction.

* `InOrder` is the assumption of `_purge`, for the cache that it finds.
* `purge_in_order`: nothing that has expired is left exactly under this assumption, and only then a
  full cache gives up an entry that is still in the window for a good reason.
* `inOrder_after`: packets whose timestamps come in order meet it.
-/

set_option autoImplicit false

namespace AttestP2P

namespace ReplayGuard

/-- What is left of a list from its first good element on is all good, if and only if nothing bad
comes after something good. -/
theorem dropWhile_forall_iff {α : Type*} (p : α → Bool) (l : List α) :
    (∀ a ∈ l.dropWhile p, p a = false) ↔ l.Pairwise fun a b ↦ p b = true → p a = true := by
  induction l with
  | nil => exact ⟨fun _ ↦ .nil, fun _ _ ha ↦ nomatch ha⟩
  | cons a l ih =>
    rw [List.pairwise_cons]
    cases ha : p a with
    | true =>
      rw [List.dropWhile_cons_of_pos ha, ih]
      exact ⟨fun h ↦ ⟨fun _ _ _ ↦ rfl, h⟩, And.right⟩
    | false =>
      rw [List.dropWhile_cons_of_neg (by simp [ha]), List.forall_mem_cons]
      constructor
      · rintro ⟨-, hl⟩
        have hnot : ∀ b ∈ l, ¬p b = true := fun b hb ↦ by simp [hl b hb]
        exact ⟨fun b hb hpb ↦ absurd hpb (hnot b hb),
          List.pairwise_of_forall_mem_list fun _ _ b hb hpb ↦ absurd hpb (hnot b hb)⟩
      · rintro ⟨hl, -⟩
        refine ⟨ha, fun b hb ↦ ?_⟩
        cases hpb : p b with
        | false => rfl
        | true => exact nomatch hl b hb hpb

variable {g : ReplayGuard} {c : Call} {e : String × ℕ}

/-- The entry has expired: its timestamp has left the window. -/
def expired (g : ReplayGuard) (now : ℕ) (e : String × ℕ) : Bool := now - e.2 > g.windowMs

/-- No entry that has expired was put in after one that has not. -/
def InOrder (g : ReplayGuard) (now : ℕ) : Prop :=
  g.seen.entries.Pairwise fun e e' ↦ g.expired now e' = true → g.expired now e = true

/-- The entry that the call evicts because the cache is full. -/
def evicts (g : ReplayGuard) (c : Call) : Option (String × ℕ) :=
  if g.accepts c ∧ (g.purge c.now).seen.size ≥ g.maxEntries then
    (g.purge c.now).seen.entries.head?
  else none

/-- **What a purge leaves** has not expired, exactly if the cache is in order. -/
theorem purge_iff (g : ReplayGuard) (now : ℕ) :
    (∀ e ∈ (g.purge now).seen.entries, g.expired now e = false) ↔ g.InOrder now :=
  dropWhile_forall_iff _ _

/-- The evicted entry is the first of those that the purge has left. -/
theorem purge_of_evicts (h : g.evicts c = some e) :
    ∃ rest, (g.purge c.now).seen.entries = e :: rest := by
  rw [evicts] at h
  split at h
  · exact ⟨_, List.eq_cons_of_mem_head? h⟩
  · exact nomatch h

/-- The evicted entry is gone, and the others are kept. -/
theorem entries_next_of_evicts (h : g.evicts c = some e) {rest : List (String × ℕ)}
    (hrest : (g.purge c.now).seen.entries = e :: rest) :
    (g.next c).seen.entries = rest ++ [(c.key, c.timestamp)] := by
  rw [evicts] at h
  split at h
  · next hfull =>
    obtain ⟨-, hfresh, heq⟩ := next_of_accepted hfull.1
    have htail : (g.purge c.now).seen.deleteOldest.entries = rest := congrArg List.tail hrest
    rw [heq, if_pos hfull.2, OrderedMap.entries_set_of_notMem, htail]
    exact fun hmem ↦ hfresh (OrderedMap.mem_keys_of_deleteOldest hmem)
  · exact nomatch h

/-- **The evicted entry** is the one that the purge has left and that is gone after the call. -/
theorem evicts_eq_some_iff : g.evicts c = some e ↔
    e ∈ (g.purge c.now).seen.entries ∧ e ∉ (g.next c).seen.entries := by
  constructor
  · intro h
    obtain ⟨rest, hrest⟩ := purge_of_evicts h
    have hnext := entries_next_of_evicts h hrest
    refine ⟨by simp [hrest], fun hmem ↦ ?_⟩
    rw [hnext, List.mem_append, List.mem_singleton] at hmem
    have hkeys : ((e :: rest).map Prod.fst).Nodup := hrest ▸ (g.purge c.now).seen.nodup
    rcases hmem with hold | hnew
    · exact (List.nodup_cons.mp hkeys).1 (List.mem_map_of_mem hold)
    · -- the key of the call is not one of those that the purge has left
      rw [evicts] at h
      split at h
      · next hfull =>
        obtain ⟨-, hfresh, -⟩ := next_of_accepted hfull.1
        refine hfresh ?_
        rw [OrderedMap.keys, hrest, hnew]
        exact List.mem_cons_self
      · cases h
  · rintro ⟨hleft, hgone⟩
    cases hc : g.accepts c with
    | false =>
      refine absurd ?_ hgone
      obtain h | h := next_of_rejected hc
      · rw [h]
        exact (List.dropWhile_sublist _).mem hleft
      · rw [h]
        exact hleft
    | true =>
      obtain ⟨-, hfresh, h⟩ := next_of_accepted hc
      rw [h] at hgone
      dsimp only at hgone
      split at hgone
      · next hfull =>
        obtain ⟨first, rest, hrest⟩ := List.exists_cons_of_ne_nil (List.ne_nil_of_mem hleft)
        have hevicts : g.evicts c = some first := by
          rw [evicts, if_pos ⟨hc, hfull⟩, hrest]
          rfl
        have hkept := entries_next_of_evicts hevicts hrest
        rw [h, if_pos hfull] at hkept
        rw [hkept, List.mem_append, not_or] at hgone
        rw [hrest] at hleft
        rw [hevicts, (List.mem_cons.mp hleft).resolve_right hgone.1]
      · rw [OrderedMap.entries_set_of_notMem hfresh, List.mem_append, not_or] at hgone
        exact absurd hleft hgone.1

/-- The evicted entry is in the window, since those outside have been purged before. -/
theorem expired_of_evicts (h : g.evicts c = some e) : g.expired c.now e = false := by
  obtain ⟨rest, hrest⟩ := purge_of_evicts h
  have hhead := List.head?_dropWhile_not (g.expired c.now) g.seen.entries
  have hfirst : (g.seen.entries.dropWhile (g.expired c.now)).head? = some e :=
    congrArg List.head? hrest
  rw [hfirst] at hhead
  exact hhead

/-- The call spares what is in the window: its purge leaves nothing that has expired, and an entry
in the window is evicted only when all the others are in the window too. -/
structure Spares (g : ReplayGuard) (c : Call) : Prop where
  purged : ∀ e ∈ (g.purge c.now).seen.entries, g.expired c.now e = false
  evicted : ∀ e, g.evicts c = some e → g.expired c.now e = false →
    ∀ e' ∈ (g.purge c.now).seen.entries, g.expired c.now e' = false

/-- **One call** spares what is in the window exactly if the cache is in order; when it evicts an
entry, that is so of the eviction alone. -/
theorem spares_iff : g.Spares c ↔ g.InOrder c.now :=
  ⟨fun h ↦ (purge_iff g c.now).mp h.purged, fun h ↦
    ⟨(purge_iff g c.now).mpr h, fun _ _ _ ↦ (purge_iff g c.now).mpr h⟩⟩

theorem evicts_iff (h : g.evicts c = some e) :
    (g.expired c.now e = false →
      ∀ e' ∈ (g.purge c.now).seen.entries, g.expired c.now e' = false) ↔ g.InOrder c.now := by
  rw [← purge_iff]
  exact ⟨fun hall ↦ hall (expired_of_evicts h), fun hall _ ↦ hall⟩

/-! ## Timestamps that come in order -/

/-- A call adds its own entry at the end, if any. -/
theorem sublist_next (g : ReplayGuard) (c : Call) :
    (g.next c).seen.entries.Sublist (g.seen.entries ++ [(c.key, c.timestamp)]) := by
  have hpurge : (g.purge c.now).seen.entries.Sublist g.seen.entries := List.dropWhile_sublist _
  cases hc : g.accepts c with
  | false =>
    obtain h | h := next_of_rejected hc
    · rw [h]
      exact List.sublist_append_left _ _
    · rw [h]
      exact hpurge.trans (List.sublist_append_left _ _)
  | true =>
    obtain ⟨-, hfresh, h⟩ := next_of_accepted hc
    rw [h]
    dsimp only
    split
    · rw [OrderedMap.entries_set_of_notMem
        fun hmem ↦ hfresh (OrderedMap.mem_keys_of_deleteOldest hmem)]
      exact ((List.tail_sublist _).trans hpurge).append_right _
    · rw [OrderedMap.entries_set_of_notMem hfresh]
      exact hpurge.append_right _

theorem sublist_after (g : ReplayGuard) (calls : List Call) :
    (g.after calls).seen.entries.Sublist
      (g.seen.entries ++ calls.map fun c ↦ (c.key, c.timestamp)) := by
  induction calls generalizing g with
  | nil => exact List.sublist_append_left _ _
  | cons c calls ih =>
    refine (ih (g.next c)).trans ?_
    rw [List.map_cons, List.append_cons]
    exact (sublist_next g c).append_right _

/-- **Packets whose timestamps come in order** leave the cache in order. -/
theorem inOrder_after (windowMs maxEntries : ℕ) {calls : List Call}
    (h : calls.Pairwise fun c c' ↦ c.timestamp ≤ c'.timestamp) (now : ℕ) :
    ((ofOptions windowMs maxEntries).after calls).InOrder now := by
  have hsorted : (calls.map fun c ↦ (c.key, c.timestamp)).Pairwise fun e e' ↦ e.2 ≤ e'.2 :=
    List.pairwise_map.mpr h
  refine (hsorted.sublist (sublist_after _ calls)).imp fun {e e'} hle hexpired ↦ ?_
  rw [expired, decide_eq_true_eq] at hexpired ⊢
  omega

/-! ## Runs -/

/-- **Runs that spare what is in the window** are those in which every call whose timestamp is in
the window, and which purges therefore, finds the cache in order; in such a run and in any other, an
eviction is at the expense of an entry in the window, while one that has expired stays, exactly if
the cache was not in order.  What is evicted is what the purge has left and the call has not.  Where
the timestamps come in order, so does the cache. -/
theorem purge_in_order (windowMs maxEntries : ℕ) (calls : List Call) :
    ((∀ before c later, calls = before ++ c :: later → |(c.now : ℤ) - c.timestamp| ≤ windowMs →
        ((ofOptions windowMs maxEntries).after before).Spares c) ↔
      ∀ before c later, calls = before ++ c :: later → |(c.now : ℤ) - c.timestamp| ≤ windowMs →
        ((ofOptions windowMs maxEntries).after before).InOrder c.now) ∧
      (∀ before c later e, calls = before ++ c :: later →
        ((ofOptions windowMs maxEntries).after before).evicts c = some e →
        ((((ofOptions windowMs maxEntries).after before).expired c.now e = false →
            ∀ e' ∈ (((ofOptions windowMs maxEntries).after before).purge c.now).seen.entries,
              ((ofOptions windowMs maxEntries).after before).expired c.now e' = false) ↔
          ((ofOptions windowMs maxEntries).after before).InOrder c.now)) ∧
      (∀ before c later e, calls = before ++ c :: later →
        (((ofOptions windowMs maxEntries).after before).evicts c = some e ↔
          e ∈ (((ofOptions windowMs maxEntries).after before).purge c.now).seen.entries ∧
            e ∉ ((ofOptions windowMs maxEntries).after (before ++ [c])).seen.entries)) ∧
      ((calls.Pairwise fun c c' ↦ c.timestamp ≤ c'.timestamp) →
        ∀ before c later, calls = before ++ c :: later →
          ((ofOptions windowMs maxEntries).after before).InOrder c.now) := by
  refine ⟨forall₃_congr fun _ _ _ ↦ imp_congr_right fun _ ↦ imp_congr_right fun _ ↦ spares_iff,
    fun _ _ _ _ _ he ↦ evicts_iff he, fun before c _ e _ ↦ ?_,
    fun hsorted before c later hcalls ↦ ?_⟩
  · rw [after_append]
    exact evicts_eq_some_iff
  · rw [hcalls] at hsorted
    exact inOrder_after windowMs maxEntries (List.pairwise_append.mp hsorted).1 c.now

/-- A packet of one node, with the nonce, the timestamp and the time of its arrival. -/
def stampedCall (nonce : UInt8) (timestamp now : ℕ) : Call where
  nodeId := [7]
  timestamp := timestamp
  nonce := [nonce]
  now := now

/-- A packet from the future is put in before one from the past: once the second one has expired,
a third packet evicts the first one, which is in the window and is accepted again. -/
theorem live_entry_evicted :
    [stampedCall 1 60000 30000, stampedCall 2 0 30000, stampedCall 3 30001 30001].Pairwise
        (fun c c' ↦ c.now ≤ c'.now) ∧
      ((ofOptions 30000 2).after [stampedCall 1 60000 30000, stampedCall 2 0 30000]).evicts
        (stampedCall 3 30001 30001) = some ((stampedCall 1 60000 30000).key, 60000) ∧
      ¬((ofOptions 30000 2).after [stampedCall 1 60000 30000, stampedCall 2 0 30000]).Spares
        (stampedCall 3 30001 30001) ∧
      ((ofOptions 30000 2).after [stampedCall 1 60000 30000, stampedCall 2 0 30000,
        stampedCall 3 30001 30001]).accepts (stampedCall 1 60000 30001) = true := by
  refine ⟨by decide, by decide, fun hspares ↦ ?_, by decide⟩
  exact absurd (hspares.purged ((stampedCall 2 0 30000).key, 0) (by decide)) (by decide)

end ReplayGuard

end AttestP2P
