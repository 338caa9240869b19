import AttestP2P.Lib.Machine
import Mathlib.Algebra.BigOperators.Fin

/-!
# Nodes and the channels between them

A node has sessions, and what it says in a session is on its way until the node at the other end
hears it.  A session that is joined to another one is a pair of reliable channels, one in each
direction: what was said is heard once, and in the order in which it was said.

Nodes are of any kind: a relation `R` says what a node with a given state may do for a given cause,
and what it says then.  All messages on the way are in one list, and the channels are what one sees
of it session by session, so that messages of different sessions may overtake each other and those
of one session may not.

* `Network.Step` is what can happen, for nodes of any kind.
* `Network.queue` is what is on its way in a session.
* `Network.load` is a measure that hearing makes smaller, whatever the nodes say in return, if every
  message is paid for (`Network.Pays`): by what it weighs itself, or by what the node has left to
  spend.  It is what brings an exchange to an end.
-/

set_option autoImplicit false

/-- Nodes `ι` with states `σ`, whose sessions are named by `κ`, and which say `μ`. -/
structure Network (ι κ σ μ : Type*) where
  node : ι → σ
  /-- The other end of a session. -/
  wire : ι × κ → Option (ι × κ)
  /-- What is on its way, with the session it was said in. -/
  flight : List ((ι × κ) × μ)

/-- What makes a node act: it does so by itself, a session comes or goes, or a message arrives. -/
inductive Cause (κ μ : Type*) where
  | own
  | attach (k : κ)
  | close (k : κ)
  | hear (k : κ) (m : μ)

namespace Network

variable {ι κ σ μ : Type*} [DecidableEq ι]

section
variable [DecidableEq κ]

/-- What is said in the session `k`, in order. -/
def said (out : List (κ × μ)) (k : κ) : List μ := (out.filter fun e ↦ e.1 = k).map Prod.snd

/-- What has been said in the session and has not been heard. -/
def queue (w : Network ι κ σ μ) (p : ι × κ) : List μ :=
  (w.flight.filter fun e ↦ e.1 = p).map Prod.snd

end

/-- The node is now `s`, and has said `out`. -/
def act (w : Network ι κ σ μ) (i : ι) (s : σ) (out : List (κ × μ)) : Network ι κ σ μ :=
  { w with
    node := Function.update w.node i s
    flight := w.flight ++ out.map fun e ↦ ((i, e.1), e.2) }

section
variable [DecidableEq κ]

/-- The first message of the session arrives, and is no longer in flight. -/
def pop (w : Network ι κ σ μ) (p : ι × κ) : Network ι κ σ μ :=
  { w with flight := w.flight.eraseP fun e ↦ e.1 = p }

/-- Two sessions are the ends of one connection from now on. -/
def join (w : Network ι κ σ μ) (p q : ι × κ) : Network ι κ σ μ :=
  { w with wire := Function.update (Function.update w.wire p (some q)) q (some p) }

end

variable {w w' : Network ι κ σ μ} {i j : ι} {k : κ} {p q : ι × κ} {s : σ} {m : μ}
  {out : List (κ × μ)}

@[simp] theorem wire_act : (w.act i s out).wire = w.wire := rfl

@[simp] theorem node_act_self : (w.act i s out).node i = s := Function.update_self ..

theorem node_act_of_ne (h : j ≠ i) : (w.act i s out).node j = w.node j :=
  Function.update_of_ne h ..

variable [DecidableEq κ]

@[simp] theorem node_pop : (w.pop p).node = w.node := rfl

@[simp] theorem wire_pop : (w.pop p).wire = w.wire := rfl

@[simp] theorem node_join : (w.join p q).node = w.node := rfl

@[simp] theorem queue_join {r : ι × κ} : (w.join p q).queue r = w.queue r := rfl

theorem wire_join {r : ι × κ} :
    (w.join p q).wire r = if r = q then some p else if r = p then some q else w.wire r := by
  rw [join]
  dsimp only
  rw [Function.update_apply, Function.update_apply]

theorem queue_act : (w.act i s out).queue p =
    w.queue p ++ if p.1 = i then said out p.2 else [] := by
  rw [queue, act]
  dsimp only
  rw [List.filter_append, List.map_append, List.filter_map, List.map_map, queue]
  congr 1
  by_cases hi : p.1 = i
  · subst hi
    rw [if_pos rfl, said]
    congr 1
    exact List.filter_congr fun e _ ↦ decide_eq_decide.mpr
      ⟨fun h ↦ congrArg Prod.snd h, fun h ↦ Prod.ext rfl h⟩
  · rw [if_neg hi, List.map_eq_nil_iff, List.filter_eq_nil_iff]
    exact fun e _ h ↦ hi (congrArg Prod.fst (of_decide_eq_true h)).symm

theorem queue_pop_of_ne {r : ι × κ} (h : r ≠ p) : (w.pop p).queue r = w.queue r := by
  rw [queue, pop, queue]
  dsimp only
  congr 1
  induction w.flight with
  | nil => rfl
  | cons e flight ih =>
    by_cases he : e.1 = p
    · rw [List.eraseP_cons_of_pos (by simp [he]),
        List.filter_cons_of_neg (by simp [he, Ne.symm h])]
    · rw [List.eraseP_cons_of_neg (by simp [he])]
      simp only [List.filter_cons, ih]

theorem queue_pop_self : (w.pop p).queue p = (w.queue p).tail := by
  rw [queue, pop, queue]
  dsimp only
  induction w.flight with
  | nil => rfl
  | cons e flight ih =>
    by_cases he : e.1 = p
    · rw [List.eraseP_cons_of_pos (by simp [he]),
        List.filter_cons_of_pos (by simp [he])]
      rfl
    · rw [List.eraseP_cons_of_neg (by simp [he]), List.filter_cons_of_neg (by simp [he]),
        List.filter_cons_of_neg (by simp [he]), ih]

theorem mem_said : m ∈ said out k ↔ (k, m) ∈ out := by
  rw [said, List.mem_map]
  constructor
  · rintro ⟨⟨k', m'⟩, he, rfl⟩
    obtain ⟨hmem, hk⟩ := List.mem_filter.mp he
    obtain rfl := of_decide_eq_true hk
    exact hmem
  · exact fun h ↦ ⟨(k, m), List.mem_filter.mpr ⟨h, decide_eq_true rfl⟩, rfl⟩

omit [DecidableEq ι] in
theorem said_cons {k' : κ} :
    said ((k', m) :: out) k = (if k' = k then [m] else []) ++ said out k := by
  rw [said, List.filter_cons, said]
  by_cases hk : k' = k
  · rw [if_pos (by simp [hk]), if_pos hk]
    rfl
  · rw [if_neg (by simp [hk]), if_neg hk]
    rfl

/-! ## What can happen -/

/-- A session is open at a node, which each node says of its own. -/
def OpenAt (isOpen : σ → κ → Prop) (w : Network ι κ σ μ) (p : ι × κ) : Prop :=
  isOpen (w.node p.1) p.2

/-- A step of a network whose nodes act as `R` says: a node acts of its own accord, or on what it
hears, or two open sessions are joined. -/
inductive Step (isOpen : σ → κ → Prop) (R : σ → Cause κ μ → List (κ × μ) → σ → Prop) :
    Network ι κ σ μ → Network ι κ σ μ → Prop
  | act {w : Network ι κ σ μ} {i : ι} {c : Cause κ μ} {out : List (κ × μ)} {s : σ}
    (hc : ∀ k m, c ≠ .hear k m) (hR : R (w.node i) c out s) : Step isOpen R w (w.act i s out)
  | hear {w : Network ι κ σ μ} {p q : ι × κ} {m : μ} {rest : List μ} {out : List (κ × μ)} {s : σ}
    (hwire : w.wire p = some q) (hqueue : w.queue p = m :: rest) (hopen : w.OpenAt isOpen q)
    (hR : R (w.node q.1) (.hear q.2 m) out s) : Step isOpen R w ((w.pop p).act q.1 s out)
  | join {w : Network ι κ σ μ} {p q : ι × κ} (hne : p ≠ q) (hp : w.wire p = none)
    (hq : w.wire q = none) (hopen : w.OpenAt isOpen p) (hopen' : w.OpenAt isOpen q) :
    Step isOpen R w (w.join p q)

/-! ## Hearing comes to an end

Each message has a weight and each node a budget.  If whoever hears a message spends less than the
message weighs, the sum of all weights and budgets goes down. -/

/-- How much there is to do: what the messages in flight weigh, and what the nodes may still say. -/
def load [Fintype ι] (weight : μ → ℕ) (budget : σ → ℕ) (w : Network ι κ σ μ) : ℕ :=
  (w.flight.map fun e ↦ weight e.2).sum + ∑ i, budget (w.node i)

/-- What a node says when it hears something is paid for. -/
def Pays (weight : μ → ℕ) (budget : σ → ℕ) (s : σ) (m : μ) (out : List (κ × μ)) (s' : σ) : Prop :=
  (out.map fun e ↦ weight e.2).sum + budget s' < weight m + budget s

theorem sum_pop (weight : μ → ℕ) {rest : List μ} (h : w.queue p = m :: rest) :
    weight m + ((w.pop p).flight.map fun e ↦ weight e.2).sum =
      (w.flight.map fun e ↦ weight e.2).sum := by
  rw [queue] at h
  rw [pop]
  dsimp only
  generalize w.flight = flight at h
  induction flight with
  | nil => cases h
  | cons e flight ih =>
    by_cases he : e.1 = p
    · rw [List.filter_cons_of_pos (by simp [he]), List.map_cons] at h
      obtain ⟨rfl, -⟩ := List.cons.inj h
      rw [List.eraseP_cons_of_pos (by simp [he]), List.map_cons, List.sum_cons]
    · rw [List.filter_cons_of_neg (by simp [he])] at h
      have hrest := ih h
      rw [List.eraseP_cons_of_neg (by simp [he]), List.map_cons, List.map_cons, List.sum_cons,
        List.sum_cons]
      omega

/-- **What is heard makes the load smaller**, if a node pays for what it says out of the message and
its budget. -/
theorem load_hear [Fintype ι] {weight : μ → ℕ} {budget : σ → ℕ} {rest : List μ}
    (h : w.queue p = m :: rest) (hpays : Pays weight budget (w.node i) m out s) :
    ((w.pop p).act i s out).load weight budget < w.load weight budget := by
  have hflight := sum_pop weight h
  have hsum : ∑ j, budget ((w.act i s out).node j) + budget (w.node i) =
      ∑ j, budget (w.node j) + budget s := by
    rw [← Finset.sum_erase_add _ _ (Finset.mem_univ i),
      ← Finset.sum_erase_add Finset.univ (fun j ↦ budget (w.node j)) (Finset.mem_univ i),
      node_act_self]
    have hothers : ∑ j ∈ Finset.univ.erase i, budget ((w.act i s out).node j) =
        ∑ j ∈ Finset.univ.erase i, budget (w.node j) :=
      Finset.sum_congr rfl fun j hj ↦ by rw [node_act_of_ne (Finset.ne_of_mem_erase hj)]
    omega
  have hout : (((w.pop p).act i s out).flight.map fun e ↦ weight e.2).sum =
      ((w.pop p).flight.map fun e ↦ weight e.2).sum + (out.map fun e ↦ weight e.2).sum := by
    rw [act, List.map_append, List.sum_append, List.map_map]
    rfl
  have hnodes : ∑ j, budget (((w.pop p).act i s out).node j) =
      ∑ j, budget ((w.act i s out).node j) := rfl
  rw [Pays] at hpays
  rw [load, load, hout, hnodes]
  omega

end Network
