import Mathlib.Order.Basic

/-!
# Components on a clock

A component is called at times that do not go back, and answers.  Many components forget: what they
keep of the past depends on how long ago it was, and a call that tidies up is not meant to be
noticed.  So relations between states, and invariants of a state, are indexed by the time up to
which they speak.

* `Clocked.answers` are the calls of a run with their answers, and `Clocked.after` is the state at
  its end.
* `Clocked.Since`: the clock does not go back.
* `Clocked.answers_filter`: calls that no other call can notice are left out.
* `Clocked.invariant`, `Clocked.invariant_history`: what every call keeps, for the state alone and
  for the state together with what has been answered.
-/

set_option autoImplicit false

universe u v w

/-- A component with states `σ`, calls `ε` and answers `ο`. -/
structure Clocked (σ : Type u) (ε : Type v) (ο : Type w) where
  /-- The time of a call. -/
  time : ε → ℕ
  /-- What a call does to the state, and its answer. -/
  step : σ → ε → σ × ο

namespace Clocked

/-- What has lapsed by the time of `q` may have lapsed before, at the time of `p`. -/
theorem filter_filter_of_imp {α : Type u} {p q : α → Bool} (h : ∀ a, q a = true → p a = true)
    (o : Option α) : (o.filter p).filter q = o.filter q := by
  rw [Option.filter_filter]
  refine congrArg (fun r ↦ o.filter r) (funext fun a ↦ ?_)
  cases hq : q a with
  | false => exact Bool.and_false _
  | true => rw [h a hq, Bool.and_true]

variable {σ : Type u} {ε : Type v} {ο : Type w} (C : Clocked σ ε ο)

/-- The calls and their answers, in the order in which they were made. -/
def answers : σ → List ε → List (ε × ο)
  | _, [] => []
  | s, e :: es => (e, (C.step s e).2) :: answers (C.step s e).1 es

/-- The state after some calls, whose answers are dropped. -/
def after (s : σ) (es : List ε) : σ := es.foldl (fun s e ↦ (C.step s e).1) s

/-- The calls come in the order of the clock, from the time `t` on. -/
def Since : ℕ → List ε → Prop
  | _, [] => True
  | t, e :: es => t ≤ C.time e ∧ Since (C.time e) es

/-- The time of the last call, or `t` if there was none. -/
def last (t : ℕ) : List ε → ℕ
  | [] => t
  | e :: es => last (C.time e) es

variable {C}

theorem since_append {t : ℕ} {es es' : List ε} :
    C.Since t (es ++ es') ↔ C.Since t es ∧ C.Since (C.last t es) es' := by
  induction es generalizing t with
  | nil => exact ⟨fun h ↦ ⟨trivial, h⟩, And.right⟩
  | cons e es ih => exact (and_congr_right fun _ ↦ ih).trans and_assoc.symm

theorem after_append {s : σ} {es es' : List ε} :
    C.after s (es ++ es') = C.after (C.after s es) es' :=
  List.foldl_append

theorem last_append {t : ℕ} {es es' : List ε} :
    C.last t (es ++ es') = C.last (C.last t es) es' := by
  induction es generalizing t with
  | nil => rfl
  | cons e es ih => exact ih

/-- What has been answered has been called, so that a fact about the calls is one about the
answers. -/
theorem mem_of_mem_answers {s : σ} {es : List ε} {a : ε × ο} (h : a ∈ C.answers s es) :
    a.1 ∈ es := by
  induction es generalizing s with
  | nil => exact nomatch h
  | cons e es ih =>
    obtain rfl | h := List.mem_cons.mp h
    · exact List.mem_cons_self
    · exact List.mem_cons_of_mem _ (ih h)

theorem le_last {t : ℕ} {es : List ε} (hes : C.Since t es) : t ≤ C.last t es := by
  induction es generalizing t with
  | nil => exact Nat.le_refl t
  | cons e es ih => exact Nat.le_trans hes.1 (ih hes.2)

/-- No call comes after the last one, since their times are in order. -/
theorem time_le_last {t : ℕ} {es : List ε} {e : ε} (hes : C.Since t es) (h : e ∈ es) :
    C.time e ≤ C.last t es := by
  induction es generalizing t with
  | nil => exact nomatch h
  | cons e' es ih =>
    obtain rfl | h := List.mem_cons.mp h
    · exact le_last hes.2
    · exact ih hes.2 h

/-- **Calls that nobody notices.**  States that are related answer the calls that are kept alike and
stay related; a call that is not kept leaves a state related to what it was related to. -/
theorem answers_filter {R : ℕ → σ → σ → Prop} {keep : ε → Bool}
    (hlater : ∀ t t' s s', t ≤ t' → R t s s' → R t' s s')
    (hkeep : ∀ s s' e, keep e = true → R (C.time e) s s' →
      (C.step s e).2 = (C.step s' e).2 ∧ R (C.time e) (C.step s e).1 (C.step s' e).1)
    (hdrop : ∀ s s' e, keep e = false → R (C.time e) s s' → R (C.time e) (C.step s e).1 s')
    {t : ℕ} {s s' : σ} {es : List ε} (hes : C.Since t es) (h : R t s s') :
    (C.answers s es).filter (fun a ↦ keep a.1) = C.answers s' (es.filter keep) := by
  induction es generalizing t s s' with
  | nil => rfl
  | cons e es ih =>
    obtain ⟨hle, hrest⟩ := hes
    have hnow : R (C.time e) s s' := hlater t _ s s' hle h
    rw [answers]
    cases he : keep e with
    | false =>
      rw [List.filter_cons_of_neg (by simp [he]), List.filter_cons_of_neg (by simp [he])]
      exact ih hrest (hdrop s s' e he hnow)
    | true =>
      obtain ⟨hanswer, hafter⟩ := hkeep s s' e he hnow
      rw [List.filter_cons_of_pos (by simp [he]), List.filter_cons_of_pos he, answers, hanswer,
        ih hrest hafter]

/-- **Invariants** of the state and what has been answered so far. -/
theorem invariant_history {I : ℕ → σ → List (ε × ο) → Prop} {P : ε × ο → Prop}
    (hlater : ∀ t t' s h, t ≤ t' → I t s h → I t' s h)
    (hstep : ∀ s e h, I (C.time e) s h → P (e, (C.step s e).2) →
      I (C.time e) (C.step s e).1 (h ++ [(e, (C.step s e).2)]))
    {t : ℕ} {s : σ} {h : List (ε × ο)} {es : List ε} (hes : C.Since t es) (hs : I t s h)
    (hP : ∀ a ∈ C.answers s es, P a) :
    I (C.last t es) (C.after s es) (h ++ C.answers s es) := by
  induction es generalizing t s h with
  | nil => rwa [answers, List.append_nil]
  | cons e es ih =>
    obtain ⟨hle, hrest⟩ := hes
    have hnow := hstep s e h (hlater t _ s h hle hs) (hP _ List.mem_cons_self)
    have hend := ih hrest hnow fun a ha ↦ hP a (List.mem_cons_of_mem _ ha)
    rwa [List.append_assoc] at hend

/-- **Invariants** of the state, along calls that have the property `P`. -/
theorem invariant {I : ℕ → σ → Prop} {P : ε × ο → Prop}
    (hlater : ∀ t t' s, t ≤ t' → I t s → I t' s)
    (hstep : ∀ s e, I (C.time e) s → P (e, (C.step s e).2) → I (C.time e) (C.step s e).1)
    {t : ℕ} {s : σ} {es : List ε} (hes : C.Since t es) (hs : I t s)
    (hP : ∀ a ∈ C.answers s es, P a) : I (C.last t es) (C.after s es) :=
  invariant_history (I := fun t s _ ↦ I t s) (h := []) (fun t t' s _ ↦ hlater t t' s)
    (fun s e _ ↦ hstep s e) hes hs hP

end Clocked
