/-
Automata whose states are well linked: the start state is not entered, the final state is not
left, and the words from one to the other are known.
-/
import Gobo.EpsilonPaths
import Gobo.Nfa

namespace Gobo

open Option List

open scoped Computability

namespace NfaStates

variable {C : Type} {h : NfaStates C} {p q target : Nat} {label : NfaLabel C}

/-- Where a state leads to. -/
def links (h : NfaStates C) (p : Nat) : Option (NfaLabel C × Nat) × Option Nat :=
  ((h.state p).transition, (h.state p).epsilonTransition)

/-- A transition of the state `p` has the target `q`. -/
def Leads (h : NfaStates C) (p q : Nat) : Prop :=
  (∃ label, (h.links p).1 = some (label, q)) ∨ (h.links p).2 = some q

theorem state_change_self (s : NfaState C) : (h.change p s).state p = s := Function.update_self ..

theorem state_change_of_ne (s : NfaState C) (hqp : q ≠ p) : (h.change p s).state q = h.state q :=
  Function.update_of_ne hqp ..

theorem state_create_self (s : NfaState C) : (h.create s).state h.created = s :=
  Function.update_self ..

theorem state_create_of_ne (s : NfaState C) (hq : q ≠ h.created) :
    (h.create s).state q = h.state q :=
  Function.update_of_ne hq ..

theorem links_create_self (s : NfaState C) :
    (h.create s).links h.created = (s.transition, s.epsilonTransition) := by
  rw [links, state_create_self]

theorem links_create_of_ne (s : NfaState C) (hq : q ≠ h.created) :
    (h.create s).links q = h.links q := by
  rw [links, state_create_of_ne s hq, links]

theorem links_setTransition_self :
    (h.setTransition p label target).links p = (some (label, target), (h.links p).2) := by
  rw [links, setTransition, state_change_self, links]

theorem links_setTransition_of_ne (hqp : q ≠ p) :
    (h.setTransition p label target).links q = h.links q := by
  rw [links, setTransition, state_change_of_ne _ hqp, links]

theorem links_setEpsilonTransition_self :
    (h.setEpsilonTransition p target).links p = ((h.links p).1, some target) := by
  rw [links, setEpsilonTransition, state_change_self, links]

theorem links_setEpsilonTransition_of_ne (hqp : q ≠ p) :
    (h.setEpsilonTransition p target).links q = h.links q := by
  rw [links, setEpsilonTransition, state_change_of_ne _ hqp, links]

theorem links_setId (id : Nat) : (h.setId p id).links q = h.links q := by
  rcases eq_or_ne q p with rfl | hqp
  · rw [links, setId, state_change_self, links]
  · rw [links, setId, state_change_of_ne _ hqp, links]

theorem links_setAcceptedRule (rule : Nat) : (h.setAcceptedRule p rule).links q = h.links q := by
  rcases eq_or_ne q p with rfl | hqp
  · rw [links, setAcceptedRule, state_change_self, links]
  · rw [links, setAcceptedRule, state_change_of_ne _ hqp, links]

theorem leads_setTransition {a b : Nat} (hl : (h.setTransition p label target).Leads a b) :
    h.Leads a b ∨ a = p ∧ b = target := by
  rcases eq_or_ne a p with rfl | hne
  · rw [Leads, links_setTransition_self] at hl
    rcases hl with ⟨label', hl⟩ | hl
    · exact Or.inr ⟨rfl, ((Prod.mk.inj (some.inj hl)).2).symm⟩
    · exact Or.inl (Or.inr hl)
  · rw [Leads, links_setTransition_of_ne hne] at hl
    exact Or.inl hl

theorem leads_setEpsilonTransition {a b : Nat} (hl : (h.setEpsilonTransition p target).Leads a b) :
    h.Leads a b ∨ a = p ∧ b = target := by
  rcases eq_or_ne a p with rfl | hne
  · rw [Leads, links_setEpsilonTransition_self] at hl
    rcases hl with hl | hl
    · exact Or.inl (Or.inl hl)
    · exact Or.inr ⟨rfl, (some.inj hl).symm⟩
  · rw [Leads, links_setEpsilonTransition_of_ne hne] at hl
    exact Or.inl hl

theorem leads_create {a b : Nat} {inContext : Bool}
    (hl : (h.create (.make inContext)).Leads a b) : a ≠ h.created ∧ h.Leads a b := by
  rcases eq_or_ne a h.created with rfl | hne
  · rw [Leads, links_create_self] at hl
    rcases hl with ⟨label, hl⟩ | hl <;> exact nomatch hl
  · rw [Leads, links_create_of_ne _ hne] at hl
    exact ⟨hne, hl⟩

/-- A new state from which two empty transitions start. -/
def fork (h : NfaStates C) (inContext : Bool) (q target : Nat) : NfaStates C :=
  ((h.create (.make inContext)).setTransition h.created .epsilon q).setEpsilonTransition h.created
    target

variable {inContext : Bool}

theorem links_fork_self :
    (h.fork inContext q target).links h.created = (some (.epsilon, q), some target) := by
  rw [fork, links_setEpsilonTransition_self, links_setTransition_self]

theorem links_fork_of_ne (hp : p ≠ h.created) :
    (h.fork inContext q target).links p = h.links p := by
  rw [fork, links_setEpsilonTransition_of_ne hp, links_setTransition_of_ne hp,
    links_create_of_ne _ hp]

theorem leads_fork {a b : Nat} (hl : (h.fork inContext q target).Leads a b) :
    a ≠ h.created ∧ h.Leads a b ∨ a = h.created ∧ (b = q ∨ b = target) := by
  rcases leads_setEpsilonTransition hl with hl | ⟨ha, hb⟩
  · rcases leads_setTransition hl with hl | ⟨ha, hb⟩
    · exact Or.inl (leads_create hl)
    · exact Or.inr ⟨ha, Or.inl hb⟩
  · exact Or.inr ⟨ha, Or.inr hb⟩

theorem Leads.congr {h' : NfaStates C} (hlinks : h'.links p = h.links p) (hl : h'.Leads p q) :
    h.Leads p q := by
  rwa [Leads, hlinks] at hl

end NfaStates

namespace Nfa

variable {C : Type} {has : C → Int → Bool} {h h' : NfaStates C} {n n' other : Nfa}
  {L L' : Language Int} {p q s f x : Nat} {mid used : List Nat}

theorem mem_step {o : Option Int} : q ∈ step has h p o ↔
    (∃ label, (h.links p).1 = some (label, q) ∧ labeled has label o) ∨
      (h.links p).2 = some q ∧ o = none := Iff.rfl

theorem step_congr (hlinks : h'.links p = h.links p) : step has h' p = step has h p := by
  funext o
  ext q
  rw [mem_step, mem_step, hlinks]

theorem leads_of_mem_step {o : Option Int} (hq : q ∈ step has h p o) : h.Leads p q :=
  (mem_step.mp hq).imp (fun ⟨label, hlabel, _⟩ => ⟨label, hlabel⟩) fun hq => hq.1

theorem step_eq_empty (hlinks : h.links p = (none, none)) (o : Option Int) :
    step has h p o = ∅ := by
  ext q
  rw [mem_step, hlinks]
  simp

/-- All the states. -/
def graph (has : C → Int → Bool) (h : NfaStates C) : εNFA Int Nat := ⟨step has h, ∅, ∅⟩

def between (has : C → Int → Bool) (h : NfaStates C) (p q : Nat) : Language Int :=
  pathLanguage (graph has h) p q

theorem accepts_automaton (hs : n.startState = some s) (hf : n.finalState = some f) :
    (automaton has h n).accepts = between has h s f := by
  have hstart : (automaton has h n).start = {s} := by
    ext p
    exact (by rw [hs, some_inj]; exact eq_comm : n.startState = some p ↔ p = s)
  have haccept : (automaton has h n).accept = {f} := by
    ext p
    exact (by rw [hf, some_inj]; exact eq_comm : n.finalState = some p ↔ p = f)
  rw [accepts_eq hstart haccept]
  have hstep : (automaton has h n).step = (graph has h).step := rfl
  exact pathLanguage_congr hstep s f

/-- An automaton with the language `L`. -/
structure Built (has : C → Int → Bool) (h : NfaStates C) (n : Nfa) (L : Language Int) : Prop where
  two : 2 ≤ n.states.length
  nodup : n.states.Nodup
  created : ∀ p ∈ n.states, p < h.created
  closed : ∀ p ∈ n.states, ∀ q, h.Leads p q → q ∈ n.states
  start : ∀ s ∈ n.startState, ∀ p ∈ n.states, ¬h.Leads p s
  final : ∀ f ∈ n.finalState, h.links f = (none, none)
  language : (automaton has h n).accepts = L

/-- The states of an automaton, from the start state to the final one. -/
theorem exists_shape {states : List Nat} (htwo : 2 ≤ states.length) :
    ∃ s mid f, states = s :: (mid ++ [f]) := by
  obtain ⟨s, rest, rfl⟩ := exists_cons_of_length_pos (Nat.lt_of_lt_of_le Nat.two_pos htwo)
  have hrest : rest ≠ [] := by
    rintro rfl
    exact Nat.not_succ_le_self 1 htwo
  exact ⟨s, rest.dropLast, rest.getLast hrest, by rw [dropLast_concat_getLast]⟩

theorem startState_of_shape (hstates : n.states = s :: (mid ++ [f])) : n.startState = some s := by
  rw [startState, hstates, head?_cons]

theorem finalState_of_shape (hstates : n.states = s :: (mid ++ [f])) : n.finalState = some f := by
  rw [finalState, hstates, ← cons_append, getLast?_concat]

/-- An automaton, with the names of its start state and of its final one. -/
structure Shaped (has : C → Int → Bool) (h : NfaStates C) (n : Nfa) (L : Language Int)
    (s : Nat) (mid : List Nat) (f : Nat) : Prop where
  states : n.states = s :: (mid ++ [f])
  nodup : n.states.Nodup
  created : ∀ p ∈ n.states, p < h.created
  closed : ∀ p ∈ n.states, ∀ q, h.Leads p q → q ∈ n.states
  start : ∀ p ∈ n.states, ¬h.Leads p s
  final : h.links f = (none, none)
  language : between has h s f = L

theorem Built.shape (hb : Built has h n L) : ∃ s mid f, Shaped has h n L s mid f := by
  obtain ⟨s, mid, f, hstates⟩ := exists_shape hb.two
  have hs := startState_of_shape hstates
  have hf := finalState_of_shape hstates
  exact ⟨s, mid, f, hstates, hb.nodup, hb.created, hb.closed, hb.start s hs, hb.final f hf,
    (accepts_automaton hs hf).symm.trans hb.language⟩

namespace Shaped

section

variable (hn : Shaped has h n L s mid f)

include hn

theorem built : Built has h n L := by
  have hs := startState_of_shape hn.states
  have hf := finalState_of_shape hn.states
  refine ⟨?_, hn.nodup, hn.created, hn.closed, fun a ha => ?_, fun a ha => ?_,
    (accepts_automaton hs hf).trans hn.language⟩
  · rw [hn.states, length_cons, length_append]
    exact Nat.succ_le_succ (Nat.succ_le_succ (Nat.zero_le _))
  · obtain rfl := some.inj (hs.symm.trans ha)
    exact hn.start
  · obtain rfl := some.inj (hf.symm.trans ha)
    exact hn.final

theorem start_mem : s ∈ n.states := by
  rw [hn.states]
  exact mem_cons_self

theorem final_mem : f ∈ n.states := by
  rw [hn.states]
  exact mem_cons_of_mem s (mem_append_right _ mem_cons_self)

theorem start_ne_final : s ≠ f := by
  have hnodup := hn.nodup
  rw [hn.states] at hnodup
  rintro rfl
  exact (nodup_cons.mp hnodup).1 (mem_append_right _ mem_cons_self)

theorem isPart : IsPart (graph has h) {p | p ∈ n.states} f :=
  ⟨fun p hp _ q hq => hn.closed p hp q (leads_of_mem_step hq), step_eq_empty hn.final⟩

/-- Another automaton is left through its final state. -/
theorem leave
    (hlinks : ∀ p ∈ n.states, p ≠ f → h'.links p = h.links p) (hx : x ∈ n.states → x = f) :
    between has h' s x = L * between has h' f x := by
  rw [← hn.language]
  exact hn.isPart.pathLanguage_eq (fun p hp hpf => step_congr (hlinks p hp hpf)) hn.start_mem hx

/-- The start state has an empty transition besides. -/
theorem leave_add (hlinks : ∀ p ∈ n.states, p ≠ s → p ≠ f → h'.links p = h.links p)
    (hnone : (h.links s).2 = none) (hmore : h'.links s = ((h.links s).1, some q))
    (hx : x ∈ n.states → x = f) :
    between has h' s x = L * between has h' f x + between has h' q x := by
  rw [← hn.language]
  refine hn.isPart.pathLanguage_add hn.start_mem hn.start_ne_final
    (fun p hp o hs => hn.start p hp (leads_of_mem_step hs))
    (fun p hp hps hpf => step_congr (hlinks p hp hps hpf)) (fun o r => ?_) hx
  change r ∈ step has h' s o ↔ r ∈ step has h s o ∨ _
  rw [mem_step, mem_step, hmore, hnone]
  simp only [reduceCtorEq, false_and, or_false, some_inj]
  exact or_congr_right ⟨fun hr => ⟨hr.2, hr.1.symm⟩, fun hr => ⟨hr.2.symm, hr.1⟩⟩

/-- An automaton that is left alone. -/
theorem frame (hle : h.created ≤ h'.created)
    (hlinks : ∀ p ∈ n.states, h'.links p = h.links p) : Shaped has h' n L s mid f := by
  refine ⟨hn.states, hn.nodup, fun p hp => (hn.created p hp).trans_le hle,
    fun p hp q hq => hn.closed p hp q (hq.congr (hlinks p hp)),
    fun p hp hs => hn.start p hp (hs.congr (hlinks p hp)),
    (hlinks f hn.final_mem).trans hn.final, ?_⟩
  rw [hn.leave (fun p hp _ => hlinks p hp) fun _ => rfl, between,
    pathLanguage_self (step_eq_empty ((hlinks f hn.final_mem).trans hn.final)), mul_one]

end

end Shaped

theorem Built.frame (hb : Built has h n L) (hle : h.created ≤ h'.created)
    (hlinks : ∀ p ∈ n.states, h'.links p = h.links p) : Built has h' n L := by
  obtain ⟨s, mid, f, hn⟩ := hb.shape
  exact (hn.frame hle hlinks).built

theorem between_self (hlinks : h.links p = (none, none)) : between has h p p = 1 :=
  pathLanguage_self (step_eq_empty hlinks)

theorem between_jump (hpx : p ≠ x) (hlinks : h.links p = (some (.epsilon, q), none)) :
    between has h p x = between has h q x := by
  refine pathLanguage_jump hpx fun o r => ?_
  change r ∈ step has h p o ↔ _
  rw [mem_step, hlinks]
  simp only [some_inj, Prod.mk.injEq, reduceCtorEq, false_and, or_false]
  constructor
  · rintro ⟨label, ⟨rfl, rfl⟩, ho⟩
    exact ⟨ho, rfl⟩
  · rintro ⟨ho, rfl⟩
    exact ⟨_, ⟨rfl, rfl⟩, ho⟩

theorem step_fork {target : Nat} (hlinks : h.links p = (some (.epsilon, q), some target))
    (o : Option Int) (r : Nat) :
    r ∈ (graph has h).step p o ↔ o = none ∧ (r = q ∨ r = target) := by
  change r ∈ step has h p o ↔ _
  rw [mem_step, hlinks]
  simp only [some_inj, Prod.mk.injEq]
  constructor
  · rintro (⟨label, ⟨rfl, rfl⟩, ho⟩ | ⟨rfl, ho⟩)
    · exact ⟨ho, Or.inl rfl⟩
    · exact ⟨ho, Or.inr rfl⟩
  · rintro ⟨ho, rfl | rfl⟩
    · exact Or.inl ⟨_, ⟨rfl, rfl⟩, ho⟩
    · exact Or.inr ⟨rfl, ho⟩

theorem between_fork {inContext : Bool} {target : Nat} (hx : x ≠ h.created) :
    between has (h.fork inContext q target) h.created x =
      between has (h.fork inContext q target) q x +
        between has (h.fork inContext q target) target x :=
  pathLanguage_fork hx.symm (step_fork NfaStates.links_fork_self)

end Nfa

end Gobo
