import Mathlib.Tactic.Basic

/-!
# Labelled transition systems

A `Machine` is a set of initial states and a step relation labelled by events.  Everything said
about a program that runs for ever — a protocol, a server, a store — is said about the states such
a machine can reach.

* `Machine.Run` is a finite run, event by event, and `Machine.Reachable` the states at its end.
* `Machine.Reachable.invariant` is the one induction every invariant below is proved by: it holds
  at the start, and a step from a reachable state keeps it.
* `Machine.Run.erase` compares a run with what is left of it when some events are taken out.
* `Machine.guard` cuts a machine down to the steps that meet a condition.  Its runs are the runs of
  the machine *all of whose steps* meet the condition, which is what a statement about well-behaved
  runs has to quantify over.
* `Machine.ofFun` is the machine of a program: events that are enabled, and a function saying what
  each of them does.
-/

set_option autoImplicit false

universe u v

/-- A labelled transition system with states `σ` and events `ε`. -/
structure Machine (σ : Type u) (ε : Type v) where
  /-- The states a run may start in. -/
  init : σ → Prop
  /-- What one event can do. -/
  step : σ → ε → σ → Prop

namespace Machine

variable {σ : Type u} {ε : Type v} {M : Machine σ ε}

/-- `M.Run s es t`: the events `es`, in order, lead from `s` to `t`. -/
inductive Run (M : Machine σ ε) : σ → List ε → σ → Prop
  | nil (s : σ) : Run M s [] s
  | cons {s t u : σ} {e : ε} {es : List ε} (hstep : M.step s e t) (hrun : Run M t es u) :
      Run M s (e :: es) u

/-- The states at the end of some run. -/
def Reachable (M : Machine σ ε) (t : σ) : Prop := ∃ s es, M.init s ∧ M.Run s es t

theorem Run.append {s t u : σ} {es fs : List ε} (h : M.Run s es t) (h' : M.Run t fs u) :
    M.Run s (es ++ fs) u := by
  induction h with
  | nil => exact h'
  | cons hstep _ ih => exact .cons hstep (ih h')

/-- What one step keeps, a run keeps: the induction behind every invariant. -/
theorem Run.preserves {I : σ → Prop} (hI : ∀ s e t, I s → M.step s e t → I t) {s t : σ}
    {es : List ε} (h : M.Run s es t) (hs : I s) : I t := by
  induction h with
  | nil => exact hs
  | cons hstep _ ih => exact ih (hI _ _ _ hs hstep)

/-- What relates the two ends of every step, reflexively and transitively, relates the two ends of
every run. -/
theorem Run.relates {R : σ → σ → Prop} (hrefl : ∀ s, R s s)
    (htrans : ∀ s t u, R s t → R t u → R s u) (hR : ∀ s e t, M.step s e t → R s t) {s t : σ}
    {es : List ε} (h : M.Run s es t) : R s t := by
  induction h with
  | nil => exact hrefl _
  | cons hstep _ ih => exact htrans _ _ _ (hR _ _ _ hstep) ih

/-- **Erasing events.**  If hidden events keep `R`, and visible events of `M` are matched in `N`,
then a run of `M` without its hidden events is a run of `N`. -/
theorem Run.erase {N : Machine σ ε} {R : σ → σ → Prop} {visible : ε → Bool}
    (hhidden : ∀ s t e s', R s t → M.step s e s' → visible e = false → R s' t)
    (hvisible : ∀ s t e s', R s t → M.step s e s' → visible e = true →
      ∃ t', N.step t e t' ∧ R s' t')
    {s s' t : σ} {es : List ε} (h : M.Run s es s') (hR : R s t) :
    ∃ t', N.Run t (es.filter visible) t' ∧ R s' t' := by
  induction h generalizing t with
  | nil => exact ⟨t, .nil t, hR⟩
  | @cons s m u e es hstep _ ih =>
    cases he : visible e with
    | false =>
      rw [List.filter_cons_of_neg (by simp [he])]
      exact ih (hhidden s t e m hR hstep he)
    | true =>
      obtain ⟨t₁, hstep', hR'⟩ := hvisible s t e m hR hstep he
      obtain ⟨t', hrun, hR''⟩ := ih hR'
      rw [List.filter_cons_of_pos he]
      exact ⟨t', .cons hstep' hrun, hR''⟩

theorem Reachable.init {s : σ} (h : M.init s) : M.Reachable s := ⟨s, [], h, .nil s⟩

theorem Reachable.run {s t : σ} {es : List ε} (h : M.Reachable s) (hrun : M.Run s es t) :
    M.Reachable t := by
  obtain ⟨s₀, before, h₀, hbefore⟩ := h
  exact ⟨s₀, before ++ es, h₀, hbefore.append hrun⟩

theorem Reachable.step {s t : σ} {e : ε} (h : M.Reachable s) (hstep : M.step s e t) :
    M.Reachable t :=
  h.run (.cons hstep (.nil t))

/-- **Invariants.**  What holds at the start, and is kept by every step out of a reachable state,
holds in every reachable state. -/
theorem Reachable.invariant {I : σ → Prop} (hinit : ∀ s, M.init s → I s)
    (hstep : ∀ s e t, M.Reachable s → I s → M.step s e t → I t) {t : σ} (h : M.Reachable t) :
    I t := by
  obtain ⟨s, es, h₀, hrun⟩ := h
  have hboth : M.Reachable t ∧ I t :=
    hrun.preserves (I := fun s => M.Reachable s ∧ I s)
      (fun s e t hs he => ⟨hs.1.step he, hstep s e t hs.1 hs.2 he⟩) ⟨.init h₀, hinit s h₀⟩
  exact hboth.2

/-- The machine `M` cut down to the steps that meet the condition `P`. -/
def guard (M : Machine σ ε) (P : σ → ε → Prop) : Machine σ ε where
  init := M.init
  step s e t := P s e ∧ M.step s e t

theorem guard_step {P : σ → ε → Prop} {s t : σ} {e : ε} :
    (M.guard P).step s e t ↔ P s e ∧ M.step s e t :=
  Iff.rfl

theorem Reachable.of_guard {P : σ → ε → Prop} {t : σ} (h : (M.guard P).Reachable t) :
    M.Reachable t := by
  refine Reachable.invariant (M := M.guard P) (fun s h₀ => Reachable.init (M := M) h₀)
    (fun s e t _ hs hstep => ?_) h
  exact hs.step (guard_step.mp hstep).2

/-- The machine of a program: `enabled` says which events can happen, `next` what they do. -/
def ofFun (init : σ → Prop) (enabled : σ → ε → Prop) (next : σ → ε → σ) : Machine σ ε where
  init := init
  step s e t := enabled s e ∧ t = next s e

theorem step_ofFun {init : σ → Prop} {enabled : σ → ε → Prop} {next : σ → ε → σ} {s : σ} {e : ε}
    (h : enabled s e) : (ofFun init enabled next).step s e (next s e) :=
  ⟨h, rfl⟩

/-- Every event of the list is enabled when its turn comes. -/
def Feasible (enabled : σ → ε → Prop) (next : σ → ε → σ) : σ → List ε → Prop
  | _, [] => True
  | s, e :: es => enabled s e ∧ Feasible enabled next (next s e) es

instance Feasible.decidable {enabled : σ → ε → Prop} [∀ s e, Decidable (enabled s e)]
    {next : σ → ε → σ} : ∀ s es, Decidable (Feasible enabled next s es)
  | _, [] => .isTrue trivial
  | s, e :: es =>
    have : Decidable (Feasible enabled next (next s e) es) := Feasible.decidable (next s e) es
    inferInstanceAs (Decidable (enabled s e ∧ Feasible enabled next (next s e) es))

/-- What the events keep, each when its turn comes, holds in the end. -/
theorem Feasible.invariant {P : σ → ε → Prop} {next : σ → ε → σ} {I : σ → Prop}
    (hI : ∀ s e, I s → P s e → I (next s e)) {s : σ} {es : List ε} (h : Feasible P next s es)
    (hs : I s) : I (es.foldl next s) := by
  induction es generalizing s with
  | nil => exact hs
  | cons e es ih => exact ih h.2 (hI s e hs h.1)

/-- What holds of all events of a list, each when its turn comes. -/
theorem feasible_iff {P : σ → ε → Prop} {next : σ → ε → σ} {s : σ} {es : List ε} :
    Feasible P next s es ↔ ∀ es₁ e es₂, es = es₁ ++ e :: es₂ → P (es₁.foldl next s) e := by
  induction es generalizing s with
  | nil => exact ⟨fun _ es₁ e es₂ h ↦ by simp at h, fun _ ↦ trivial⟩
  | cons e es ih =>
    rw [Feasible, ih]
    refine ⟨fun ⟨he, hes⟩ es₁ e' es₂ h ↦ ?_, fun h ↦ ⟨h [] e es rfl, fun es₁ e' es₂ hes ↦ ?_⟩⟩
    · rcases List.cons_eq_append_iff.mp h with ⟨rfl, h'⟩ | ⟨es₁', rfl, h'⟩
      · obtain ⟨rfl, -⟩ := List.cons.inj h'
        exact he
      · exact hes es₁' e' es₂ h'
    · exact h (e :: es₁) e' es₂ (by rw [hes]; rfl)

/-- **An exact condition for a property of runs.** Let `I` imply the property `Q` and be kept by the
steps that meet `P`, and let the other steps out of a state with `I` break `Q`.  Then the states
along a run have `Q` exactly when its steps all meet `P`. -/
theorem feasible_iff_forall_prefix {E P : σ → ε → Prop} {I Q : σ → Prop} {next : σ → ε → σ}
    (hQ : ∀ s, I s → Q s) (hkeep : ∀ s e, I s → E s e → P s e → I (next s e))
    (hbreak : ∀ s e, I s → E s e → ¬ P s e → ¬ Q (next s e)) {s : σ} {es : List ε} (hs : I s)
    (hes : Feasible E next s es) :
    Feasible P next s es ↔ ∀ es₁ es₂, es = es₁ ++ es₂ → Q (es₁.foldl next s) := by
  induction es generalizing s with
  | nil =>
    refine ⟨fun _ es₁ es₂ h ↦ ?_, fun _ ↦ trivial⟩
    obtain ⟨rfl, -⟩ := List.append_eq_nil_iff.mp h.symm
    exact hQ s hs
  | cons e es ih =>
    obtain ⟨hE, hrest⟩ := hes
    constructor
    · rintro ⟨hP, hPs⟩ es₁ es₂ h
      rcases List.cons_eq_append_iff.mp h with ⟨rfl, -⟩ | ⟨es₁', rfl, h'⟩
      · exact hQ s hs
      · exact (ih (hkeep s e hs hE hP) hrest).mp hPs es₁' es₂ h'
    · intro h
      have hP : P s e :=
        Classical.byContradiction fun hP ↦ hbreak s e hs hE hP (h [e] es rfl)
      refine ⟨hP, (ih (hkeep s e hs hE hP) hrest).mpr fun es₁ es₂ heq ↦ ?_⟩
      exact h (e :: es₁) es₂ (congrArg (e :: ·) heq)

/-- Nothing is asked of the events, so that every sequence of them is a run. -/
theorem feasible_true {next : σ → ε → σ} {s : σ} {es : List ε} :
    Feasible (fun _ _ ↦ True) next s es :=
  feasible_iff.mpr fun _ _ _ _ ↦ trivial

/-- Folding over events that are all enabled is a run. -/
theorem run_foldl {enabled : σ → ε → Prop} {next : σ → ε → σ}
    (hM : ∀ s e, enabled s e → M.step s e (next s e)) {s : σ} {es : List ε}
    (h : Feasible enabled next s es) : M.Run s es (es.foldl next s) := by
  induction es generalizing s with
  | nil => exact .nil s
  | cons e es ih => exact .cons (hM s e h.1) (ih h.2)

/-- Folding over events that are all enabled and meet the condition is a run of the machine of a
program, cut down to the condition. -/
theorem run_guard_ofFun {init : σ → Prop} {enabled P : σ → ε → Prop} {next : σ → ε → σ} {s : σ}
    {es : List ε} (h : Feasible (fun s e ↦ P s e ∧ enabled s e) next s es) :
    ((ofFun init enabled next).guard P).Run s es (es.foldl next s) :=
  run_foldl (M := (ofFun init enabled next).guard P) (fun _ _ he ↦ ⟨he.1, he.2, rfl⟩) h

end Machine
