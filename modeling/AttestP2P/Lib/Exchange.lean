import AttestP2P.Lib.Network

/-!
# Exchanging items

Nodes hold items, tell each other which ones, and ask each other for them.  A list of the items of a
file is heeded only by those who have been introduced to the file, since it says nothing to others.

* `Note` is what a message says, and `View` what can be seen of a node: nothing else is known of
  either, and a program that is to be an instance says how it is to be seen.
* `Abides` is what a node is expected to do, whatever it is otherwise: to tell everybody of what it
  gets hold of, to tell no lies, to remember what it is told, to answer what it is asked, and to
  wait only for what it has asked for.
* `Sound` is what then holds of the whole network, in every interleaving (`Sound.step`).  An item
  that one node holds is known to each neighbour, or what tells of it is on its way there; and who
  waits for an answer has a request or an answer on its way.
* `Sound.knows_of_quiet`, `Sound.idle_of_quiet`: when nothing is on its way, everybody knows what
  the neighbours hold, and nobody waits for an answer.
-/

set_option autoImplicit false

/-- What a message says: files are `φ`, items `γ`. -/
inductive Note (φ γ : Type*) where
  | introduction (f : φ)
  | list (f : φ) (xs : Set γ)
  | item (x : γ)
  | request (x : γ)
  | answer (x : γ)
  | other

namespace Note

variable {φ γ : Type*}

/-- Who has been introduced to the files `met` learns that the other one holds the item. -/
def Tells (met : φ → Prop) (x : γ) : Note φ γ → Prop
  | .list f xs => met f ∧ x ∈ xs
  | .item y => y = x
  | _ => False

/-- It is said that the item is held. -/
def Mentions (x : γ) : Note φ γ → Prop
  | .list _ xs => x ∈ xs
  | .item y => y = x
  | _ => False

/-- The files that one has been introduced to afterwards. -/
def meet (met : φ → Prop) : Note φ γ → φ → Prop
  | .introduction f, g => g = f ∨ met g
  | _, g => met g

/-- One of the messages tells of the item. -/
def AnyTells (x : γ) : (φ → Prop) → List (Note φ γ) → Prop
  | _, [] => False
  | met, n :: ns => n.Tells met x ∨ AnyTells x (n.meet met) ns

/-- What a message may set off, where `n` sessions are open: a request is answered, and what is
answered is acknowledged, and told of in all sessions. -/
def weight (n : ℕ) : Note φ γ → ℕ
  | .request _ => n + 3
  | .answer _ => n + 2
  | _ => 1

variable {met met' : φ → Prop} {x : γ} {n : Note φ γ} {ns ns' : List (Note φ γ)}

theorem Tells.mono (h : n.Tells met x) (hmet : ∀ f, met f → met' f) : n.Tells met' x := by
  cases n with
  | list f xs => exact ⟨hmet f h.1, h.2⟩
  | item y => exact h
  | _ => exact h.elim

theorem meet_of_met {f : φ} (h : met f) : n.meet met f := by
  cases n with
  | introduction g => exact .inr h
  | _ => exact h

theorem meet_mono (hmet : ∀ f, met f → met' f) {f : φ} (h : n.meet met f) : n.meet met' f := by
  cases n with
  | introduction g => exact h.imp_right (hmet f)
  | _ => exact hmet f h

theorem AnyTells.mono (h : AnyTells x met ns) (hmet : ∀ f, met f → met' f) :
    AnyTells x met' ns := by
  induction ns generalizing met met' with
  | nil => exact h
  | cons n ns ih => exact h.imp (fun h ↦ h.mono hmet) fun h ↦ ih h fun _ ↦ meet_mono hmet

theorem AnyTells.append (h : AnyTells x met ns) : AnyTells x met (ns ++ ns') := by
  induction ns generalizing met with
  | nil => exact h.elim
  | cons n ns ih => exact h.imp_right ih

theorem AnyTells.prepend (h : AnyTells x met ns') : AnyTells x met (ns ++ ns') := by
  induction ns generalizing met with
  | nil => exact h
  | cons n ns ih => exact .inr (ih (h.mono fun _ ↦ meet_of_met))

theorem AnyTells.of_mem (hn : n ∈ ns) (h : n.Tells met x) : AnyTells x met ns := by
  induction ns generalizing met with
  | nil => cases hn
  | cons n' ns ih =>
    rcases List.mem_cons.mp hn with rfl | hn
    · exact .inl h
    · exact .inr (ih hn (h.mono fun _ ↦ meet_of_met))

/-- An introduction, and a list later on, tell of everything in the list. -/
theorem AnyTells.of_list {f : φ} {xs : Set γ} (hx : x ∈ xs)
    (h : List.Sublist [.introduction f, .list f xs] ns) : AnyTells x met ns := by
  induction ns generalizing met with
  | nil => cases h
  | cons n ns ih =>
    cases h with
    | cons _ h => exact .inr (ih h)
    | cons_cons _ h =>
      exact .inr (.of_mem (List.singleton_sublist.mp h) ⟨.inl rfl, hx⟩)

end Note

namespace Exchange

open Network

/-- What can be seen of a node that is `σ`, and what its messages say. -/
structure View (σ κ μ φ γ : Type*) where
  note : μ → Note φ γ
  /-- A session of this name has been there. -/
  used : σ → κ → Prop
  isOpen : σ → κ → Prop
  holds : σ → γ → Prop
  /-- The node knows that the other end of the session holds the item. -/
  knows : σ → κ → γ → Prop
  /-- The node waits for the other end of the session to send the item. -/
  waits : σ → κ → γ → Prop
  met : σ → φ → Prop
  /-- The node stands by the message, and holds what it mentions. -/
  vouches : σ → μ → Prop
  holds_of_vouches : ∀ s m x, vouches s m → (note m).Mentions x → holds s x

variable {ι κ σ μ φ γ : Type*} [DecidableEq ι] [DecidableEq κ]

/-- What is expected of a node that acts. -/
structure Abides (V : View σ κ μ φ γ) (s : σ) (c : Cause κ μ) (out : List (κ × μ)) (s' : σ) :
    Prop where
  isOpen_iff : ∀ k, V.isOpen s' k ↔ c = .attach k ∨ V.isOpen s k ∧ c ≠ .close k
  used : ∀ k, V.used s k → V.used s' k
  used_of_isOpen : ∀ k, V.isOpen s' k → V.used s' k
  fresh : ∀ k, c = .attach k → ¬V.used s k
  speaks : ∀ k m, (k, m) ∈ out → V.isOpen s' k
  holds : ∀ x, V.holds s x → V.holds s' x
  met : ∀ f, V.met s f → V.met s' f
  introduced : ∀ k m f, c = .hear k m → V.note m = .introduction f → V.met s' f
  learns : ∀ k m x, c = .hear k m → (V.note m).Tells (V.met s) x → V.knows s' k x
  remembers : ∀ k x, V.knows s k x → V.isOpen s' k → V.knows s' k x
  believes : ∀ k x, V.knows s' k x →
    V.isOpen s k ∧ V.knows s k x ∨ ∃ m, c = .hear k m ∧ (V.note m).Mentions x
  truthful : ∀ k m, (k, m) ∈ out → V.vouches s' m
  steadfast : ∀ m, V.vouches s m → V.vouches s' m
  announces : ∀ k x, V.holds s' x → V.isOpen s k → V.isOpen s' k →
    V.holds s x ∨ Note.AnyTells x (fun _ ↦ False) ((said out k).map V.note)
  greets : ∀ k x, c = .attach k → V.holds s' x →
    Note.AnyTells x (fun _ ↦ False) ((said out k).map V.note)
  asks : ∀ k x, V.waits s' k x → (∃ m, (k, m) ∈ out ∧ V.note m = .request x) ∨
    V.waits s k x ∧ ∀ k' m, c = .hear k' m → V.note m ≠ .answer x
  relies : ∀ k x, V.waits s' k x → V.isOpen s' k ∧ V.knows s' k x
  serves : ∀ k m x, c = .hear k m → V.note m = .request x → V.holds s x →
    ∃ m', (k, m') ∈ out ∧ V.note m' = .answer x

/-- What holds of a network, along every run of nodes that keep to the rules. -/
structure Sound (V : View σ κ μ φ γ) (w : Network ι κ σ μ) : Prop where
  wire : ∀ p q, w.wire p = some q → w.wire q = some p
  used_of_isOpen : ∀ p, w.OpenAt V.isOpen p → w.OpenAt V.used p
  used_of_wire : ∀ p q, w.wire p = some q → w.OpenAt V.used p
  used_of_queue : ∀ p m, m ∈ w.queue p → w.OpenAt V.used p
  /-- Nothing is known but what is true, of the other end of a session that is joined. -/
  heard : ∀ i k x, V.knows (w.node i) k x → V.isOpen (w.node i) k →
    ∃ q, w.wire (i, k) = some q ∧ V.holds (w.node q.1) x
  truthful : ∀ p m, m ∈ w.queue p → V.vouches (w.node p.1) m
  /-- Before a session is joined, everything is told anew. -/
  greeted : ∀ p x, w.OpenAt V.isOpen p → w.wire p = none → V.holds (w.node p.1) x →
    Note.AnyTells x (fun _ ↦ False) ((w.queue p).map V.note)
  /-- What one holds, the other end knows, or will hear of. -/
  announced : ∀ p q x, w.wire p = some q → w.OpenAt V.isOpen p → w.OpenAt V.isOpen q →
    V.holds (w.node p.1) x →
      V.knows (w.node q.1) q.2 x ∨
        Note.AnyTells x (V.met (w.node q.1)) ((w.queue p).map V.note)
  /-- One waits only while the request or the answer is on its way. -/
  owed : ∀ p q x, V.waits (w.node p.1) p.2 x → w.wire p = some q → w.OpenAt V.isOpen q →
    (∃ m ∈ w.queue p, V.note m = .request x) ∨ ∃ m ∈ w.queue q, V.note m = .answer x
  relies : ∀ p x, V.waits (w.node p.1) p.2 x →
    w.OpenAt V.isOpen p ∧ V.knows (w.node p.1) p.2 x

/-- Nothing is on its way, be it a message or the news that a session has been closed. -/
def Quiet (V : View σ κ μ φ γ) (w : Network ι κ σ μ) : Prop :=
  ∀ p q, w.wire p = some q → w.OpenAt V.isOpen p → w.OpenAt V.isOpen q ∧ w.queue p = []

variable {V : View σ κ μ φ γ} {w : Network ι κ σ μ} {p q : ι × κ} {x : γ}

/-- **When nothing is on its way, everybody knows what the neighbours hold.** -/
theorem Sound.knows_of_quiet (hw : Sound V w) (hquiet : Quiet V w) (hwire : w.wire p = some q)
    (hopen : w.OpenAt V.isOpen p) (hx : V.holds (w.node p.1) x) : V.knows (w.node q.1) q.2 x := by
  obtain ⟨hopen', hqueue⟩ := hquiet p q hwire hopen
  rcases hw.announced p q x hwire hopen hopen' hx with hknows | htells
  · exact hknows
  · rw [hqueue] at htells
    exact htells.elim

/-- **When nothing is on its way, nobody waits.** -/
theorem Sound.idle_of_quiet (hw : Sound V w) (hquiet : Quiet V w) :
    ¬V.waits (w.node p.1) p.2 x := by
  intro hwaits
  obtain ⟨hopen, hknows⟩ := hw.relies p x hwaits
  obtain ⟨q, hwire, -⟩ := hw.heard p.1 p.2 x hknows hopen
  obtain ⟨hopen', hqueue⟩ := hquiet p q hwire hopen
  obtain ⟨-, hqueue'⟩ := hquiet q p (hw.wire p q hwire) hopen'
  rcases hw.owed p q x hwaits hwire hopen' with ⟨m, hm, -⟩ | ⟨m, hm, -⟩
  · rw [hqueue] at hm
    cases hm
  · rw [hqueue'] at hm
    cases hm

/-! ## Every step keeps that

Nodes act one at a time.  For each pair of joined sessions there are four cases: the one who acts is
at this end, at the other end, at both, or elsewhere; and what was on the way stays on the way, but
for what is heard. -/

/-- What is on its way before a node acts and while it does: it may be hearing a message. -/
structure Hears (V : View σ κ μ φ γ) (w v : Network ι κ σ μ) (i : ι) (c : Cause κ μ) : Prop where
  node : v.node = w.node
  wire : v.wire = w.wire
  queue : ∀ r, w.queue r = v.queue r ∨
    ∃ k m, c = .hear k m ∧ w.wire r = some (i, k) ∧ w.queue r = m :: v.queue r
  said : ∀ k m, c = .hear k m → ∃ r, w.wire r = some (i, k) ∧ m ∈ w.queue r

variable {v : Network ι κ σ μ} {i : ι} {c : Cause κ μ} {s : σ} {out : List (κ × μ)}

theorem Hears.of_act (hc : ∀ k m, c ≠ .hear k m) : Hears V w w i c :=
  ⟨rfl, rfl, fun _ ↦ .inl rfl, fun k m h ↦ absurd h (hc k m)⟩

theorem Hears.of_hear {m : μ} {rest : List μ} (hwire : w.wire p = some q)
    (hqueue : w.queue p = m :: rest) : Hears V w (w.pop p) q.1 (.hear q.2 m) := by
  refine ⟨rfl, rfl, fun r ↦ ?_, fun k m' h ↦ ?_⟩
  · by_cases hr : r = p
    · subst hr
      refine .inr ⟨q.2, m, rfl, hwire, ?_⟩
      rw [queue_pop_self, hqueue, List.tail_cons]
    · exact .inl (queue_pop_of_ne hr).symm
  · obtain ⟨rfl, rfl⟩ := Cause.hear.inj h
    exact ⟨p, hwire, by rw [hqueue]; exact List.mem_cons_self⟩

theorem Hears.mem (h : Hears V w v i c) {r : ι × κ} {m : μ} (hm : m ∈ v.queue r) :
    m ∈ w.queue r := by
  rcases h.queue r with hsame | ⟨k, m', -, -, hcons⟩
  · rwa [hsame]
  · rw [hcons]
    exact List.mem_cons_of_mem m' hm

/-- What the node says is added to what is on its way. -/
theorem mem_queue_act {r : ι × κ} {m : μ} : m ∈ (v.act i s out).queue r ↔
    m ∈ v.queue r ∨ r.1 = i ∧ (r.2, m) ∈ out := by
  rw [queue_act, List.mem_append]
  refine or_congr_right ?_
  split
  · next hi => rw [mem_said, and_iff_right hi]
  · next hi => simp [hi]

section
variable (hw : Sound V w) (hv : Hears V w v i c) (h : Abides V (w.node i) c out s)

/-- What holds of the node that acts and of the others, before and after. -/
theorem Hears.of_node {Q : σ → Prop} (hv : Hears V w v i c) (hQ : Q (w.node i) → Q s) {j : ι}
    (hj : Q (w.node j)) : Q ((v.act i s out).node j) := by
  by_cases hij : j = i
  · subst hij
    rw [node_act_self]
    exact hQ hj
  · rwa [node_act_of_ne hij, hv.node]

include hv in
theorem node_act_cases (s : σ) (out : List (κ × μ)) (j : ι) : j = i ∧ (v.act i s out).node j = s ∨
    j ≠ i ∧ (v.act i s out).node j = w.node j := by
  by_cases hij : j = i
  · subst hij
    exact .inl ⟨rfl, node_act_self⟩
  · exact .inr ⟨hij, by rw [node_act_of_ne hij, hv.node]⟩

include hv h in
/-- A session that is open now has just been attached, or was open before. -/
theorem open_before (hopen : (v.act i s out).OpenAt V.isOpen p) :
    p.1 = i ∧ c = .attach p.2 ∨ w.OpenAt V.isOpen p := by
  rcases node_act_cases hv s out p.1 with ⟨hi, hnode⟩ | ⟨-, hnode⟩
  · rw [OpenAt, hnode] at hopen
    rcases (h.isOpen_iff _).mp hopen with hattach | ⟨hold, -⟩
    · exact .inl ⟨hi, hattach⟩
    · exact .inr (by rwa [OpenAt, hi])
  · rw [OpenAt, hnode] at hopen
    exact .inr hopen

include hw hv h in
/-- A session that is joined has not just been attached. -/
theorem open_before_of_wire (hwire : w.wire p = some q)
    (hopen : (v.act i s out).OpenAt V.isOpen p) : w.OpenAt V.isOpen p := by
  rcases open_before hv h hopen with ⟨hi, hattach⟩ | hold
  · have hused := hw.used_of_wire p q hwire
    rw [OpenAt, hi] at hused
    exact absurd hused (h.fresh _ hattach)
  · exact hold

include hw hv h in
theorem heard_act (j : ι) (k : κ) (x : γ) (hknows : V.knows ((v.act i s out).node j) k x)
    (hopen : V.isOpen ((v.act i s out).node j) k) :
    ∃ q, (v.act i s out).wire (j, k) = some q ∧ V.holds ((v.act i s out).node q.1) x := by
  have hmono {q : ι × κ} (hq : w.wire (j, k) = some q) (hx : V.holds (w.node q.1) x) :
      ∃ q, (v.act i s out).wire (j, k) = some q ∧ V.holds ((v.act i s out).node q.1) x := by
    refine ⟨q, ?_, hv.of_node (Q := fun s ↦ V.holds s x) (h.holds x) hx⟩
    rw [wire_act, hv.wire, hq]
  rcases node_act_cases hv s out j with ⟨rfl, hnode⟩ | ⟨-, hnode⟩
  · rw [hnode] at hknows
    rcases h.believes k x hknows with ⟨hopen', hold⟩ | ⟨m, hc, hmentions⟩
    · obtain ⟨q, hq, hx⟩ := hw.heard j k x hold hopen'
      exact hmono hq hx
    · obtain ⟨r, hr, hm⟩ := hv.said k m hc
      exact hmono (hw.wire _ _ hr) (V.holds_of_vouches _ m x (hw.truthful r m hm) hmentions)
  · rw [hnode] at hknows hopen
    obtain ⟨q, hq, hx⟩ := hw.heard j k x hknows hopen
    exact hmono hq hx

include hw hv h in
theorem greeted_act (x : γ) (hopen : (v.act i s out).OpenAt V.isOpen p) (hnone : w.wire p = none)
    (hx : V.holds ((v.act i s out).node p.1) x) :
    Note.AnyTells x (fun _ ↦ False) (((v.act i s out).queue p).map V.note) := by
  have hqueue : w.queue p = v.queue p := by
    rcases hv.queue p with hsame | ⟨k, m, -, hwire, -⟩
    · exact hsame
    · rw [hnone] at hwire
      cases hwire
  rw [queue_act, List.map_append]
  rcases node_act_cases hv s out p.1 with ⟨hi, hnode⟩ | ⟨hi, hnode⟩
  · rw [if_pos hi]
    rw [hnode] at hx
    rcases open_before hv h hopen with ⟨-, hattach⟩ | hold
    · exact (h.greets _ x hattach hx).prepend
    · rw [OpenAt, hnode] at hopen
      have hold' := hold
      rw [OpenAt, hi] at hold'
      rcases h.announces _ x hx hold' hopen with hbefore | htells
      · have htells := hw.greeted p x hold hnone (by rwa [hi])
        rw [hqueue] at htells
        exact htells.append
      · exact htells.prepend
  · rw [hnode] at hx
    rw [OpenAt, hnode] at hopen
    have htells := hw.greeted p x hopen hnone hx
    rw [hqueue] at htells
    exact htells.append

include hw hv h in
theorem announced_act (x : γ) (hwire : w.wire p = some q)
    (hopen : (v.act i s out).OpenAt V.isOpen p) (hopen' : (v.act i s out).OpenAt V.isOpen q)
    (hx : V.holds ((v.act i s out).node p.1) x) :
    V.knows ((v.act i s out).node q.1) q.2 x ∨ Note.AnyTells x
      (V.met ((v.act i s out).node q.1)) (((v.act i s out).queue p).map V.note) := by
  have hp := open_before_of_wire hw hv h hwire hopen
  have hq := open_before_of_wire hw hv h (hw.wire p q hwire) hopen'
  have hmet (f : φ) (hf : V.met (w.node q.1) f) : V.met ((v.act i s out).node q.1) f :=
    hv.of_node (Q := fun s ↦ V.met s f) (h.met f) hf
  rw [queue_act, List.map_append]
  -- what the holder gets hold of, it tells of
  have hold : V.holds (w.node p.1) x ∨ p.1 = i ∧
      Note.AnyTells x (fun _ ↦ False) ((said out p.2).map V.note) := by
    rcases node_act_cases hv s out p.1 with ⟨hi, hnode⟩ | ⟨-, hnode⟩
    · rw [hnode] at hx
      rw [OpenAt, hnode] at hopen
      rw [OpenAt, hi] at hp
      rcases h.announces _ x hx hp hopen with hbefore | htells
      · exact .inl (by rwa [hi])
      · exact .inr ⟨hi, htells⟩
    · rw [hnode] at hx
      exact .inl hx
  rcases hold with hold | ⟨hi, htells⟩
  · rcases hw.announced p q x hwire hp hq hold with hknows | htells
    · -- what the listener knows, it remembers
      left
      rcases node_act_cases hv s out q.1 with ⟨hi, hnode⟩ | ⟨-, hnode⟩
      · rw [OpenAt, hnode] at hopen'
        rw [hi] at hknows
        rw [hnode]
        exact h.remembers _ x hknows hopen'
      · rwa [hnode]
    · rcases hv.queue p with hsame | ⟨k, m, hc, hik, hcons⟩
      · rw [hsame] at htells
        exact .inr (htells.mono hmet).append
      · -- the listener hears the message
        obtain rfl : q = (i, k) := Option.some.inj (hwire.symm.trans hik)
        rw [node_act_self]
        rw [hcons, List.map_cons] at htells
        rcases htells with htells | htells
        · exact .inl (h.learns k m x hc htells)
        · refine .inr (htells.mono fun f hf ↦ ?_).append
          cases hnote : V.note m with
          | introduction g =>
            rw [hnote] at hf
            rcases hf with rfl | hf
            · exact h.introduced k m f hc hnote
            · exact h.met f hf
          | _ =>
            rw [hnote] at hf
            exact h.met f hf
  · rw [if_pos hi]
    exact .inr (htells.mono fun f hf ↦ hf.elim).prepend

include hw hv h in
theorem owed_act (x : γ) (hwaits : V.waits ((v.act i s out).node p.1) p.2 x)
    (hwire : w.wire p = some q) (hopen : (v.act i s out).OpenAt V.isOpen q) :
    (∃ m ∈ (v.act i s out).queue p, V.note m = .request x) ∨
      ∃ m ∈ (v.act i s out).queue q, V.note m = .answer x := by
  have hq := open_before_of_wire hw hv h (hw.wire p q hwire) hopen
  have hcases : (p.1 = i ∧ ∃ m, (p.2, m) ∈ out ∧ V.note m = .request x) ∨
      V.waits (w.node p.1) p.2 x ∧
        (p.1 = i → ∀ k m, c = .hear k m → V.note m ≠ .answer x) := by
    rcases node_act_cases hv s out p.1 with ⟨hi, hnode⟩ | ⟨hi, hnode⟩
    · rw [hnode] at hwaits
      rcases h.asks _ x hwaits with hrequest | ⟨hold, hother⟩
      · exact .inl ⟨hi, hrequest⟩
      · exact .inr ⟨by rwa [hi], fun _ ↦ hother⟩
    · rw [hnode] at hwaits
      exact .inr ⟨hwaits, fun hi' ↦ absurd hi' hi⟩
  rcases hcases with ⟨hi, m, hm, hrequest⟩ | ⟨hold, hother⟩
  · exact .inl ⟨m, mem_queue_act.mpr (.inr ⟨hi, hm⟩), hrequest⟩
  · rcases hw.owed p q x hold hwire hq with ⟨m, hm, hrequest⟩ | ⟨m, hm, hanswer⟩
    · rcases hv.queue p with hsame | ⟨k, m', hc, hik, hcons⟩
      · exact .inl ⟨m, mem_queue_act.mpr (.inl (hsame ▸ hm)), hrequest⟩
      · obtain rfl : q = (i, k) := Option.some.inj (hwire.symm.trans hik)
        rw [hcons] at hm
        rcases List.mem_cons.mp hm with rfl | hm
        · -- the request is heard: it is for something that is there, and is answered
          obtain ⟨hp, hknows⟩ := hw.relies p x hold
          obtain ⟨q', hq', hx⟩ := hw.heard p.1 p.2 x hknows hp
          obtain rfl : q' = (i, k) := Option.some.inj (hq'.symm.trans hwire)
          obtain ⟨m', hm', hanswer⟩ := h.serves k m x hc hrequest hx
          exact .inr ⟨m', mem_queue_act.mpr (.inr ⟨rfl, hm'⟩), hanswer⟩
        · exact .inl ⟨m, mem_queue_act.mpr (.inl hm), hrequest⟩
    · rcases hv.queue q with hsame | ⟨k, m', hc, hik, hcons⟩
      · exact .inr ⟨m, mem_queue_act.mpr (.inl (hsame ▸ hm)), hanswer⟩
      · obtain rfl : p = (i, k) := Option.some.inj ((hw.wire p q hwire).symm.trans hik)
        rw [hcons] at hm
        rcases List.mem_cons.mp hm with rfl | hm
        · exact absurd hanswer (hother rfl k m hc)
        · exact .inr ⟨m, mem_queue_act.mpr (.inl hm), hanswer⟩

include hw hv h in
/-- **A node that abides keeps the network sound.** -/
theorem Sound.act : Sound V (v.act i s out) where
  wire p q hwire := by
    rw [wire_act, hv.wire] at hwire ⊢
    exact hw.wire p q hwire
  used_of_isOpen p hopen := by
    rcases node_act_cases hv s out p.1 with ⟨-, hnode⟩ | ⟨-, hnode⟩
    · rw [OpenAt, hnode] at hopen ⊢
      exact h.used_of_isOpen _ hopen
    · rw [OpenAt, hnode] at hopen ⊢
      exact hw.used_of_isOpen p hopen
  used_of_wire p q hwire := by
    rw [wire_act, hv.wire] at hwire
    exact hv.of_node (Q := fun s ↦ V.used s p.2) (h.used p.2) (hw.used_of_wire p q hwire)
  used_of_queue p m hm := by
    rcases mem_queue_act.mp hm with hm | ⟨hi, hm⟩
    · exact hv.of_node (Q := fun s ↦ V.used s p.2) (h.used p.2) (hw.used_of_queue p m (hv.mem hm))
    · rw [OpenAt, hi, node_act_self]
      exact h.used_of_isOpen _ (h.speaks _ m hm)
  heard := heard_act hw hv h
  truthful p m hm := by
    rcases mem_queue_act.mp hm with hm | ⟨hi, hm⟩
    · exact hv.of_node (Q := fun s ↦ V.vouches s m) (h.steadfast m) (hw.truthful p m (hv.mem hm))
    · rw [hi, node_act_self]
      exact h.truthful _ m hm
  greeted p x hopen hnone := by
    rw [wire_act, hv.wire] at hnone
    exact greeted_act hw hv h x hopen hnone
  announced p q x hwire := by
    rw [wire_act, hv.wire] at hwire
    exact announced_act hw hv h x hwire
  owed p q x hwaits hwire := by
    rw [wire_act, hv.wire] at hwire
    exact owed_act hw hv h x hwaits hwire
  relies p x hwaits := by
    rcases node_act_cases hv s out p.1 with ⟨-, hnode⟩ | ⟨-, hnode⟩
    · rw [hnode] at hwaits
      rw [OpenAt, hnode]
      exact h.relies _ x hwaits
    · rw [hnode] at hwaits
      rw [OpenAt, hnode]
      exact hw.relies p x hwaits

end

/-- Two sessions that have told each other everything are joined. -/
theorem Sound.join (hw : Sound V w) (hne : p ≠ q) (hp : w.wire p = none) (hq : w.wire q = none)
    (hopen : w.OpenAt V.isOpen p) (hopen' : w.OpenAt V.isOpen q) : Sound V (w.join p q) := by
  have hold {r t : ι × κ} (h : w.wire r = some t) : (w.join p q).wire r = some t := by
    rw [wire_join, if_neg, if_neg, h]
    · rintro rfl
      exact absurd (hp.symm.trans h) (by simp)
    · rintro rfl
      exact absurd (hq.symm.trans h) (by simp)
  have hcases {r t : ι × κ} (h : (w.join p q).wire r = some t) :
      r = q ∧ t = p ∨ r = p ∧ t = q ∨ w.wire r = some t := by
    rw [wire_join] at h
    split at h
    · next hr => exact .inl ⟨hr, (Option.some.inj h).symm⟩
    · split at h
      · next hr => exact .inr (.inl ⟨hr, (Option.some.inj h).symm⟩)
      · exact .inr (.inr h)
  have hself : (w.join p q).wire p = some q := by rw [wire_join, if_neg hne, if_pos rfl]
  have hself' : (w.join p q).wire q = some p := by rw [wire_join, if_pos rfl]
  constructor
  · intro r t hwire
    rcases hcases hwire with ⟨rfl, rfl⟩ | ⟨rfl, rfl⟩ | hwire
    · exact hself
    · exact hself'
    · exact hold (hw.wire r t hwire)
  · exact hw.used_of_isOpen
  · intro r t hwire
    rcases hcases hwire with ⟨rfl, rfl⟩ | ⟨rfl, rfl⟩ | hwire
    · exact hw.used_of_isOpen r hopen'
    · exact hw.used_of_isOpen r hopen
    · exact hw.used_of_wire r t hwire
  · exact hw.used_of_queue
  · intro i k x hknows hk
    obtain ⟨t, hwire, hx⟩ := hw.heard i k x hknows hk
    exact ⟨t, hold hwire, hx⟩
  · exact hw.truthful
  · intro r x hr hnone
    refine hw.greeted r x hr ?_
    cases hwire : w.wire r with
    | none => rfl
    | some t =>
      rw [hold hwire] at hnone
      cases hnone
  · intro r t x hwire hr ht hx
    rcases hcases hwire with ⟨rfl, rfl⟩ | ⟨rfl, rfl⟩ | hwire
    · exact .inr ((hw.greeted r x hr hq hx).mono fun _ h ↦ h.elim)
    · exact .inr ((hw.greeted r x hr hp hx).mono fun _ h ↦ h.elim)
    · exact hw.announced r t x hwire hr ht hx
  · intro r t x hwaits hwire ht
    obtain ⟨hr, hknows⟩ := hw.relies r x hwaits
    obtain ⟨t', hwire', -⟩ := hw.heard r.1 r.2 x hknows hr
    obtain rfl : t' = t := Option.some.inj ((hold hwire').symm.trans hwire)
    exact hw.owed r t' x hwaits hwire' ht
  · exact hw.relies

/-- **Every step of nodes that abide keeps the network sound.** -/
theorem Sound.step {w' : Network ι κ σ μ} (hw : Sound V w)
    (h : Step V.isOpen (Abides V) w w') : Sound V w' := by
  cases h with
  | act hc hR => exact hw.act (.of_act hc) hR
  | hear hwire hqueue _ hR => exact hw.act (.of_hear hwire hqueue) hR
  | join hne hp hq hopen hopen' => exact hw.join hne hp hq hopen hopen'

end Exchange
