/-
The operations that link automata together, and their languages.
-/
import Gobo.NfaStates

namespace Gobo

open List

open scoped Computability

namespace Nfa

open NfaStates

variable {C : Type} {has : C → Int → Bool} {h h' : NfaStates C} {n n' other : Nfa}
  {L L' : Language Int} {p q s f x v : Nat} {mid used : List Nat}

/-- Only the states `used` are taken over by the automaton `n`, with the language `L`. -/
structure Spliced (has : C → Int → Bool) (h : NfaStates C) (used : List Nat) (h' : NfaStates C)
    (n : Nfa) (L : Language Int) : Prop where
  built : Built has h' n L
  created_le : h.created ≤ h'.created
  frame : ∀ p < h.created, p ∉ used → h'.links p = h.links p
  states : ∀ p ∈ n.states, p ∈ used ∨ h.created ≤ p

/-- One operation after another. -/
theorem Spliced.trans {h₁ h₂ : NfaStates C} {used₁ : List Nat} (hs : Spliced has h₁ used₁ h₂ n L)
    (hle : h.created ≤ h₁.created) (hframe : ∀ p < h.created, p ∉ used → h₁.links p = h.links p)
    (hused : ∀ p ∈ used₁, p ∈ used ∨ h.created ≤ p) : Spliced has h used h₂ n L := by
  refine ⟨hs.built, hle.trans hs.created_le, fun p hlt hp => ?_, fun p hp => ?_⟩
  · refine (hs.frame p (hlt.trans_le hle) fun hp' => ?_).trans (hframe p hlt hp)
    exact (hused p hp').elim hp fun hge => Nat.not_le_of_lt hlt hge
  · exact (hs.states p hp).elim (hused p) fun hge => Or.inr (hle.trans hge)

theorem replace_first (hstates : n.states = s :: (mid ++ [f])) :
    n.replace v 1 = some { n with states := v :: (mid ++ [f]) } := by
  rw [replace, if_neg, hstates]
  · rfl
  · rw [hstates, length_cons]
    omega

theorem replace_last (hstates : n.states = s :: (mid ++ [f])) :
    n.replace v n.states.length = some { n with states := s :: (mid ++ [v]) } := by
  have hlength : n.states.length = mid.length + 2 := by
    rw [hstates, length_cons, length_append]
    rfl
  rw [replace, if_neg (by omega), hlength, hstates, Nat.add_sub_assoc (by decide)]
  simp

/-- The old start state is kept before the final one. -/
theorem perm_newStart (hstates : n.states = s :: (mid ++ [f])) (v : Nat) :
    (v :: ((mid ++ [s]) ++ [f])).Perm (v :: n.states) := by
  rw [hstates, append_assoc]
  exact perm_middle.cons v

/-- `build_concatenation`. -/
theorem buildConcatenation_eq (hn : Built has h n L) (ho : Built has h other L')
    (hapart : n.states.Disjoint other.states) :
    ∃ h' n', buildConcatenation h n other = some (h', n') ∧
      Spliced has h (n.states ++ other.states) h' n' (L * L') := by
  obtain ⟨s₁, m₁, f₁, hn⟩ := hn.shape
  obtain ⟨s₂, m₂, f₂, ho⟩ := ho.shape
  have hf : ∀ p ∈ other.states, p ≠ f₁ := fun p hp hpf => hapart hn.final_mem (hpf ▸ hp)
  have hlinks : ∀ p, p ≠ f₁ → (h.setTransition f₁ .epsilon s₂).links p = h.links p :=
    fun p hp => links_setTransition_of_ne hp
  have hfirst : (h.setTransition f₁ .epsilon s₂).links f₁ = (some (.epsilon, s₂), none) := by
    rw [links_setTransition_self, hn.final]
  have hlast : (h.setTransition f₁ .epsilon s₂).links f₂ = (none, none) :=
    (hlinks f₂ (hf f₂ ho.final_mem)).trans ho.final
  have hshape : Shaped has (h.setTransition f₁ .epsilon s₂) (n.appendLast other) (L * L') s₁
      (m₁ ++ f₁ :: s₂ :: m₂) f₂ := by
    constructor
    case states => simp [appendLast, hn.states, ho.states]
    case nodup => exact nodup_append'.mpr ⟨hn.nodup, ho.nodup, hapart⟩
    case created =>
      intro p hp
      exact (mem_append.mp hp).elim (hn.created p) (ho.created p)
    case closed =>
      intro p hp q hq
      rcases leads_setTransition hq with hq | ⟨-, rfl⟩
      · exact (mem_append.mp hp).elim (fun hp => mem_append_left _ (hn.closed p hp q hq))
          fun hp => mem_append_right _ (ho.closed p hp q hq)
      · exact mem_append_right _ ho.start_mem
    case start =>
      intro p hp hs
      rcases leads_setTransition hs with hs | ⟨-, rfl⟩
      · rcases mem_append.mp hp with hp | hp
        · exact hn.start p hp hs
        · exact hapart hn.start_mem (ho.closed p hp s₁ hs)
      · exact hapart hn.start_mem ho.start_mem
    case final => exact hlast
    case language =>
      rw [hn.leave (fun p _ hp => hlinks p hp) fun hx => absurd ho.final_mem (hapart hx),
        between_jump (hf f₂ ho.final_mem).symm hfirst,
        ho.leave (fun p hp _ => hlinks p (hf p hp)) fun _ => rfl, between_self hlast, mul_one]
  refine ⟨_, _, ?_, hshape.built, Nat.le_refl _, fun p _ hp => hlinks p ?_, fun p hp => Or.inl hp⟩
  · rw [buildConcatenation, startState_of_shape ho.states, finalState_of_shape hn.states]
    rfl
  · exact fun hpf => hp (mem_append_left _ (hpf ▸ hn.final_mem))

/-- `build_optional`. -/
theorem buildOptional_eq (hn : Built has h n L) :
    ∃ h' n', buildOptional h n = some (h', n') ∧ Spliced has h n.states h' n' (L + 1) := by
  obtain ⟨s, m, f, hn⟩ := hn.shape
  rw [buildOptional, startState_of_shape hn.states, finalState_of_shape hn.states,
    some_bind, some_bind]
  split_ifs with hnone
  · have hlinks : ∀ p, p ≠ s → (h.setEpsilonTransition s f).links p = h.links p :=
      fun p hp => links_setEpsilonTransition_of_ne hp
    have hlast : (h.setEpsilonTransition s f).links f = (none, none) :=
      (hlinks f hn.start_ne_final.symm).trans hn.final
    have hshape : Shaped has (h.setEpsilonTransition s f) n (L + 1) s m f := by
      refine ⟨hn.states, hn.nodup, hn.created, fun p hp q hq => ?_, fun p hp hs => ?_, hlast, ?_⟩
      · rcases leads_setEpsilonTransition hq with hq | ⟨-, rfl⟩
        · exact hn.closed p hp q hq
        · exact hn.final_mem
      · rcases leads_setEpsilonTransition hs with hs | ⟨-, hsf⟩
        · exact hn.start p hp hs
        · exact hn.start_ne_final hsf
      · rw [hn.leave_add (fun p _ hps _ => hlinks p hps) hnone links_setEpsilonTransition_self
          fun _ => rfl, between_self hlast, mul_one]
    exact ⟨_, n, rfl, hshape.built, Nat.le_refl _,
      fun p _ hp => hlinks p fun hps => hp (hps ▸ hn.start_mem), fun p hp => Or.inl hp⟩
  · have hold : ∀ p ∈ n.states, p ≠ h.created := fun p hp => Nat.ne_of_lt (hn.created p hp)
    have hlinks : ∀ p ∈ n.states, (h.fork n.inTrailContext s f).links p = h.links p :=
      fun p hp => links_fork_of_ne (hold p hp)
    have hlast := (hlinks f hn.final_mem).trans hn.final
    have hnew : h.created ∉ n.states := fun hp => hold _ hp rfl
    have hperm := perm_newStart hn.states h.created
    have hmem : ∀ p, p ∈ h.created :: ((m ++ [s]) ++ [f]) ↔ p = h.created ∨ p ∈ n.states :=
      fun p => hperm.mem_iff.trans mem_cons
    have hshape : Shaped has (h.fork n.inTrailContext s f)
        { n with states := h.created :: ((m ++ [s]) ++ [f]) } (L + 1) h.created (m ++ [s]) f := by
      constructor
      case states => rfl
      case nodup => exact hperm.nodup_iff.mpr (nodup_cons.mpr ⟨hnew, hn.nodup⟩)
      case created =>
        intro p hp
        rcases (hmem p).mp hp with rfl | hp
        · exact Nat.lt_succ_self _
        · exact (hn.created p hp).trans (Nat.lt_succ_self _)
      case closed =>
        intro p hp q hq
        refine (hmem q).mpr (Or.inr ?_)
        rcases leads_fork hq with ⟨hne, hq⟩ | ⟨-, rfl | rfl⟩
        · exact hn.closed p (((hmem p).mp hp).resolve_left hne) q hq
        · exact hn.start_mem
        · exact hn.final_mem
      case start =>
        intro p hp hs
        rcases leads_fork hs with ⟨hne, hq⟩ | ⟨-, hs | hf⟩
        · exact hnew (hn.closed p (((hmem p).mp hp).resolve_left hne) _ hq)
        · exact hold s hn.start_mem hs.symm
        · exact hold f hn.final_mem hf.symm
      case final => exact hlast
      case language =>
        rw [between_fork (hold f hn.final_mem), hn.leave (fun p hp _ => hlinks p hp) fun _ => rfl,
          between_self hlast, mul_one]
    refine ⟨h.fork n.inTrailContext s f, { n with states := h.created :: ((m ++ [s]) ++ [f]) }, ?_,
      hshape.built, Nat.le_succ _, fun p hp _ => links_fork_of_ne (Nat.ne_of_lt hp), fun p hp => ?_⟩
    · have hsecond := replace_last (n := { n with states := h.created :: (m ++ [f]) }) (v := s) rfl
      simp only [replace_first hn.states, some_bind]
      rw [hsecond]
      simp [forceLast, fork]
    · rcases (hmem p).mp hp with rfl | hp
      · exact Or.inr (Nat.le_refl _)
      · exact Or.inl hp

/-- `build_positive_closure`. -/
theorem buildPositiveClosure_eq (hn : Built has h n L) :
    ∃ h' n', buildPositiveClosure h n = some (h', n') ∧ Spliced has h n.states h' n' (L * L∗) := by
  obtain ⟨s, m, f, hn⟩ := hn.shape
  have hold : ∀ p ∈ n.states, p ≠ h.created ∧ p ≠ h.created + 1 := fun p hp =>
    ⟨Nat.ne_of_lt (hn.created p hp), Nat.ne_of_lt (Nat.lt_succ_of_lt (hn.created p hp))⟩
  obtain ⟨hf, hf'⟩ := hold f hn.final_mem
  have hc : h.created ≠ h.created + 1 := Nat.ne_of_lt (Nat.lt_succ_self _)
  obtain ⟨h', hh'⟩ : ∃ h', h' = ((((h.setTransition f .epsilon s).create
      (.make n.inTrailContext)).setTransition h.created .epsilon s).create
        (.make n.inTrailContext)).setEpsilonTransition f (h.created + 1) := ⟨_, rfl⟩
  have hlinks : ∀ p, p ≠ h.created → p ≠ h.created + 1 → p ≠ f → h'.links p = h.links p := by
    intro p hp hp' hpf
    rw [hh', links_setEpsilonTransition_of_ne hpf, links_create_of_ne, links_setTransition_of_ne hp,
      links_create_of_ne, links_setTransition_of_ne hpf]
    · exact hp
    · exact hp'
  have hfinal : h'.links f = (some (.epsilon, s), some (h.created + 1)) := by
    rw [hh', links_setEpsilonTransition_self, links_create_of_ne, links_setTransition_of_ne hf,
      links_create_of_ne, links_setTransition_self]
    · exact hf
    · exact hf'
  have hfirst : h'.links h.created = (some (.epsilon, s), none) := by
    rw [hh', links_setEpsilonTransition_of_ne hf.symm, links_create_of_ne,
      links_setTransition_self]
    · exact congrArg (Prod.mk _) (congrArg Prod.snd (links_create_self _))
    · exact hc
  have hlast : h'.links (h.created + 1) = (none, none) := by
    rw [hh', links_setEpsilonTransition_of_ne hf'.symm]
    exact links_create_self _
  have hcreated : h'.created = h.created + 2 := by rw [hh']; rfl
  have hperm : (h.created :: ((m ++ [f] ++ [s]) ++ [h.created + 1])).Perm
      (h.created :: (h.created + 1) :: n.states) := by
    rw [hn.states]
    refine List.Perm.cons _ ((perm_append_singleton _ _).trans (List.Perm.cons _ ?_))
    exact perm_append_singleton s (m ++ [f])
  have hmem : ∀ p, p ∈ h.created :: ((m ++ [f] ++ [s]) ++ [h.created + 1]) ↔
      p = h.created ∨ p = h.created + 1 ∨ p ∈ n.states := fun p => by
    rw [hperm.mem_iff, mem_cons, mem_cons]
  have hleads : ∀ p ∈ h.created :: ((m ++ [f] ++ [s]) ++ [h.created + 1]), ∀ q,
      h'.Leads p q → q = h.created + 1 ∨ q = s ∨ p ∈ n.states ∧ h.Leads p q := by
    intro p hp q hq
    rcases eq_or_ne p f with rfl | hpf
    · rw [Leads, hfinal] at hq
      rcases hq with ⟨label, hq⟩ | hq
      · exact Or.inr (Or.inl (Prod.mk.inj (Option.some.inj hq)).2.symm)
      · exact Or.inl (Option.some.inj hq).symm
    · rcases (hmem p).mp hp with rfl | rfl | hp
      · rw [Leads, hfirst] at hq
        rcases hq with ⟨label, hq⟩ | hq
        · exact Or.inr (Or.inl (Prod.mk.inj (Option.some.inj hq)).2.symm)
        · cases hq
      · rw [Leads, hlast] at hq
        rcases hq with ⟨label, hq⟩ | hq <;> cases hq
      · exact Or.inr (Or.inr ⟨hp, hq.congr (hlinks p (hold p hp).1 (hold p hp).2 hpf)⟩)
  have hpart : between has h' f (h.created + 1) = L∗ := by
    rw [← hn.language]
    exact hn.isPart.pathLanguage_loop hn.start_mem (fun hp => (hold _ hp).2 rfl) hn.final_mem
      (fun p hp hpf => step_congr (hlinks p (hold p hp).1 (hold p hp).2 hpf)) (step_fork hfinal)
      (step_eq_empty hlast)
  have hshape : Shaped has h'
      { n with states := h.created :: ((m ++ [f] ++ [s]) ++ [h.created + 1]) } (L * L∗)
      h.created (m ++ [f] ++ [s]) (h.created + 1) := by
    constructor
    case states => rfl
    case nodup =>
      refine hperm.nodup_iff.mpr (nodup_cons.mpr ⟨fun hp => ?_, nodup_cons.mpr
        ⟨fun hp => (hold _ hp).2 rfl, hn.nodup⟩⟩)
      exact (mem_cons.mp hp).elim hc fun hp => (hold _ hp).1 rfl
    case created =>
      intro p hp
      rw [hcreated]
      rcases (hmem p).mp hp with rfl | rfl | hp
      · exact Nat.lt_add_of_pos_right Nat.two_pos
      · exact Nat.lt_succ_self _
      · exact (hn.created p hp).trans (Nat.lt_add_of_pos_right Nat.two_pos)
    case closed =>
      intro p hp q hq
      refine (hmem q).mpr (Or.inr ?_)
      rcases hleads p hp q hq with rfl | rfl | ⟨hp, hq⟩
      · exact Or.inl rfl
      · exact Or.inr hn.start_mem
      · exact Or.inr (hn.closed p hp q hq)
    case start =>
      intro p hp hq
      rcases hleads p hp _ hq with hq | hq | ⟨hp, hq⟩
      · exact hc hq
      · exact (hold s hn.start_mem).1 hq.symm
      · exact (hold _ (hn.closed p hp _ hq)).1 rfl
    case final => exact hlast
    case language =>
      rw [between_jump hc hfirst, hn.leave (fun p hp => hlinks p (hold p hp).1 (hold p hp).2)
        fun hp => absurd rfl (hold _ hp).2, hpart]
  refine ⟨h', _, ?_, hshape.built, ?_, fun p hlt hp => ?_, fun p hp => ?_⟩
  · rw [buildPositiveClosure, startState_of_shape hn.states, finalState_of_shape hn.states,
      some_bind, some_bind]
    simp only [replace_first hn.states]
    rw [hh']
    simp [forceLast, NfaStates.setTransition, NfaStates.create, NfaStates.change]
  · rw [hcreated]
    exact Nat.le_add_right _ _
  · refine hlinks p (Nat.ne_of_lt hlt) (Nat.ne_of_lt (Nat.lt_succ_of_lt hlt)) ?_
    exact fun hpf => hp (hpf ▸ hn.final_mem)
  · rcases (hmem p).mp hp with rfl | rfl | hp
    · exact Or.inr (Nat.le_refl _)
    · exact Or.inr (Nat.le_succ _)
    · exact Or.inl hp

/-- `build_closure`. -/
theorem buildClosure_eq (hn : Built has h n L) :
    ∃ h' n', buildClosure h n = some (h', n') ∧ Spliced has h n.states h' n' L∗ := by
  obtain ⟨h₁, n₁, hrun₁, hs₁⟩ := buildPositiveClosure_eq hn
  obtain ⟨h₂, n₂, hrun₂, hs₂⟩ := buildOptional_eq hs₁.built
  refine ⟨h₂, n₂, ?_, ?_⟩
  · rw [buildClosure, hrun₁]
    exact hrun₂
  · rw [add_comm, Language.one_add_self_mul_kstar_eq_kstar] at hs₂
    exact hs₂.trans hs₁.created_le hs₁.frame hs₁.states

/-- Two automata that start together, and whose final states are still to be linked. -/
structure Joined (has : C → Int → Bool) (h : NfaStates C) (n other : Nfa) (L L' : Language Int)
    (s : Nat) (mid : List Nat) (f s' : Nat) (mid' : List Nat) (f' : Nat) : Prop where
  first : n.states = s :: (mid ++ [f])
  second : other.states = s' :: (mid' ++ [f'])
  nodup : (n.states ++ other.states).Nodup
  created : ∀ p ∈ n.states ++ other.states, p < h.created
  closed : ∀ p ∈ n.states ++ other.states, ∀ q, h.Leads p q → q ∈ n.states ++ other.states
  start : ∀ p ∈ n.states ++ other.states, ¬h.Leads p s
  final : h.links f = (none, none)
  final' : h.links f' = (none, none)
  language : ∀ h' : NfaStates C, ∀ x,
    (∀ p ∈ n.states ++ other.states, p ≠ f → p ≠ f' → h'.links p = h.links p) →
      (x ∈ n.states ++ other.states → x = f ∨ x = f') →
        between has h' s x = L * between has h' f x + L' * between has h' f' x

namespace Joined

variable {n₁ other₁ : Nfa} {s' f' s₁' : Nat} {mid' mid₁ mid₁' : List Nat}

section

variable (hj : Joined has h n other L L' s mid f s' mid' f')

include hj

theorem start_mem : s ∈ n.states := by
  rw [hj.first]
  exact mem_cons_self

theorem final_mem : f ∈ n.states := by
  rw [hj.first]
  exact mem_cons_of_mem s (mem_append_right _ mem_cons_self)

theorem final_mem' : f' ∈ other.states := by
  rw [hj.second]
  exact mem_cons_of_mem s' (mem_append_right _ mem_cons_self)

theorem apart : n.states.Disjoint other.states := (nodup_append'.mp hj.nodup).2.2

theorem final_ne : f ≠ f' := fun heq =>
  hj.apart hj.final_mem (heq ▸ hj.final_mem')

/-- The lists, with the final states exchanged. -/
theorem exchange
    (hfirst : n₁.states = s :: (mid₁ ++ [f'])) (hsecond : other₁.states = s₁' :: (mid₁' ++ [f]))
    (hperm : (n₁.states ++ other₁.states).Perm (n.states ++ other.states)) :
    Joined has h n₁ other₁ L' L s mid₁ f' s₁' mid₁' f := by
  refine ⟨hfirst, hsecond, hperm.nodup_iff.mpr hj.nodup,
    fun p hp => hj.created p (hperm.mem_iff.mp hp),
    fun p hp q hq => hperm.mem_iff.mpr (hj.closed p (hperm.mem_iff.mp hp) q hq),
    fun p hp => hj.start p (hperm.mem_iff.mp hp), hj.final', hj.final, fun h' x hh' hx => ?_⟩
  rw [add_comm]
  exact hj.language h' x (fun p hp hpf hpf' => hh' p (hperm.mem_iff.mpr hp) hpf' hpf)
    fun hmem => (hx (hperm.mem_iff.mpr hmem)).symm

/-- The final state of the first automaton leads to that of the second one. -/
theorem jump :
    Spliced has h (n.states ++ other.states) (h.setTransition f .epsilon f')
      (n.appendLast other) (L + L') := by
  have hlinks : ∀ p, p ≠ f → (h.setTransition f .epsilon f').links p = h.links p :=
    fun p hp => links_setTransition_of_ne hp
  have hlast := (hlinks f' hj.final_ne.symm).trans hj.final'
  have hfinal : (h.setTransition f .epsilon f').links f = (some (.epsilon, f'), none) := by
    rw [links_setTransition_self, hj.final]
  have hshape : Shaped has (h.setTransition f .epsilon f') (n.appendLast other) (L + L') s
      (mid ++ f :: s' :: mid') f' := by
    refine ⟨by simp [appendLast, hj.first, hj.second], hj.nodup, hj.created,
      fun p hp q hq => ?_, fun p hp hs => ?_, hlast, ?_⟩
    · rcases leads_setTransition hq with hq | ⟨-, rfl⟩
      · exact hj.closed p hp q hq
      · exact mem_append_right _ hj.final_mem'
    · rcases leads_setTransition hs with hs | ⟨-, rfl⟩
      · exact hj.start p hp hs
      · exact hj.apart hj.start_mem hj.final_mem'
    · rw [hj.language _ f' (fun p _ hp _ => hlinks p hp) fun _ => Or.inr rfl,
        between_jump hj.final_ne hfinal, between_self hlast, mul_one, mul_one]
  exact ⟨hshape.built, Nat.le_refl _, fun p _ hp => hlinks p fun hpf =>
    hp (hpf ▸ mem_append_left _ hj.final_mem), fun p hp => Or.inl hp⟩

end

/-- A new state to which both final states lead. -/
def withNewFinal (h : NfaStates C) (b : Bool) (f f' : Nat) : NfaStates C :=
  ((h.create (.make b)).setTransition f .epsilon h.created).setTransition f' .epsilon h.created

theorem leads_withNewFinal {b : Bool} (hq : (withNewFinal h b f f').Leads p q) :
    q = h.created ∨ p ≠ h.created ∧ h.Leads p q := by
  rcases leads_setTransition hq with hq | ⟨-, rfl⟩
  · rcases leads_setTransition hq with hq | ⟨-, rfl⟩
    · exact Or.inr (leads_create hq)
    · exact Or.inl rfl
  · exact Or.inl rfl

/-- Both final states lead to a new one. -/
theorem jumpBoth (hj : Joined has h n other L L' s mid f s' mid' f') (b : Bool) :
    Spliced has h (n.states ++ other.states) (withNewFinal h b f f')
      { n with states := (n.states ++ other.states) ++ [h.created] } (L + L') := by
  have hold : ∀ p ∈ n.states ++ other.states, p ≠ h.created := fun p hp =>
    Nat.ne_of_lt (hj.created p hp)
  have hfc := hold f (mem_append_left _ hj.final_mem)
  have hfc' := hold f' (mem_append_right _ hj.final_mem')
  have hlinks : ∀ p, p ≠ h.created → p ≠ f → p ≠ f' →
      (withNewFinal h b f f').links p = h.links p := by
    intro p hp hpf hpf'
    rw [withNewFinal, links_setTransition_of_ne hpf', links_setTransition_of_ne hpf,
      links_create_of_ne _ hp]
  have hfirst : (withNewFinal h b f f').links f = (some (.epsilon, h.created), none) := by
    rw [withNewFinal, links_setTransition_of_ne hj.final_ne, links_setTransition_self,
      links_create_of_ne _ hfc, hj.final]
  have hsecond : (withNewFinal h b f f').links f' = (some (.epsilon, h.created), none) := by
    rw [withNewFinal, links_setTransition_self, links_setTransition_of_ne hj.final_ne.symm,
      links_create_of_ne _ hfc', hj.final']
  have hlast : (withNewFinal h b f f').links h.created = (none, none) := by
    rw [withNewFinal, links_setTransition_of_ne hfc'.symm, links_setTransition_of_ne hfc.symm,
      links_create_self]
    rfl
  have hmem : ∀ p, p ∈ (n.states ++ other.states) ++ [h.created] ↔
      p ∈ n.states ++ other.states ∨ p = h.created := fun p => by
    rw [mem_append, mem_singleton]
  have hshape : Shaped has (withNewFinal h b f f')
      { n with states := (n.states ++ other.states) ++ [h.created] } (L + L') s
      (mid ++ f :: s' :: (mid' ++ [f'])) h.created := by
    constructor
    case states => simp [hj.first, hj.second]
    case nodup =>
      refine nodup_append'.mpr ⟨hj.nodup, nodup_singleton _, fun p hp hp' => ?_⟩
      exact hold p hp (mem_singleton.mp hp')
    case created =>
      intro p hp
      rcases (hmem p).mp hp with hp | rfl
      · exact Nat.lt_succ_of_lt (hj.created p hp)
      · exact Nat.lt_succ_self _
    case closed =>
      intro p hp q hq
      rcases leads_withNewFinal hq with rfl | ⟨hpc, hq⟩
      · exact (hmem _).mpr (Or.inr rfl)
      · exact (hmem q).mpr (Or.inl (hj.closed p (((hmem p).mp hp).resolve_right hpc) q hq))
    case start =>
      intro p hp hs
      rcases leads_withNewFinal hs with hs | ⟨hpc, hs⟩
      · exact hold s (mem_append_left _ hj.start_mem) hs
      · exact hj.start p (((hmem p).mp hp).resolve_right hpc) hs
    case final => exact hlast
    case language =>
      rw [hj.language _ h.created (fun p hp hpf hpf' => hlinks p (hold p hp) hpf hpf')
        fun hp => absurd rfl (hold _ hp), between_jump hfc hfirst, between_jump hfc' hsecond,
        between_self hlast, mul_one, mul_one]
  refine ⟨hshape.built, Nat.le_succ _, fun p hlt hp => ?_, fun p hp => ?_⟩
  · refine hlinks p (Nat.ne_of_lt hlt) (fun hpf => ?_) fun hpf => ?_
    · exact hp (hpf ▸ mem_append_left _ hj.final_mem)
    · exact hp (hpf ▸ mem_append_right _ hj.final_mem')
  · exact ((hmem p).mp hp).imp_right fun hp => hp.ge

/-- The final states of a union. -/
theorem uniteFinals_eq (hj : Joined has h n other L L' s mid f s' mid' f') :
    ∃ h' n' other', uniteFinals h n other = some (h', n', other') ∧
      Spliced has h (n.states ++ other.states) h' n' (L + L') := by
  rw [uniteFinals, finalState_of_shape hj.first, finalState_of_shape hj.second,
    some_bind, some_bind]
  split_ifs
  · exact ⟨_, _, _, rfl, hj.jump⟩
  · have hperm : ((s :: (mid ++ [f'])) ++ (s' :: (mid' ++ [f]))).Perm
        (n.states ++ other.states) := by
      rw [hj.first, hj.second]
      refine perm_iff_count.mpr fun a => ?_
      simp only [count_append, count_cons, count_nil]
      omega
    have hexchange : Joined has h { n with states := s :: (mid ++ [f']) }
        { other with states := s' :: (mid' ++ [f]) } L' L s mid f' s' mid' f :=
      hj.exchange rfl rfl hperm
    have hjump := hexchange.jump
    rw [replace_last hj.first, replace_last hj.second]
    refine ⟨_, _, _, rfl, add_comm L L' ▸ hjump.trans (Nat.le_refl _) (fun p _ _ => rfl)
      fun p hp => Or.inl (hperm.mem_iff.mp hp)⟩
  · exact ⟨_, _, other, rfl, hj.jumpBoth _⟩

end Joined

namespace Shaped

variable {s₁ f₁ s₂ f₂ : Nat} {m₁ m₂ : List Nat}

section

variable (hn : Shaped has h n L s₁ m₁ f₁) (ho : Shaped has h other L' s₂ m₂ f₂)

include hn ho

theorem exits (hapart : n.states.Disjoint other.states)
    (hx : x ∈ n.states ++ other.states → x = f₁ ∨ x = f₂) :
    (x ∈ n.states → x = f₁) ∧ (x ∈ other.states → x = f₂) := by
  refine ⟨fun hmem => (hx (mem_append_left _ hmem)).resolve_right ?_,
    fun hmem => (hx (mem_append_right _ hmem)).resolve_left ?_⟩
  · rintro rfl
    exact hapart hmem ho.final_mem
  · rintro rfl
    exact hapart hn.final_mem hmem

theorem created_append :
    ∀ p ∈ n.states ++ other.states, p < h.created := fun p hp =>
  (mem_append.mp hp).elim (hn.created p) (ho.created p)

theorem closed_append :
    ∀ p ∈ n.states ++ other.states, ∀ q, h.Leads p q → q ∈ n.states ++ other.states :=
  fun p hp q hq =>
    (mem_append.mp hp).elim (fun hp => mem_append_left _ (hn.closed p hp q hq))
      fun hp => mem_append_right _ (ho.closed p hp q hq)

/-- The start state of the first automaton leads to that of the second one. -/
theorem joined (hapart : n.states.Disjoint other.states) (hnone : (h.links s₁).2 = none) :
    Joined has (h.setEpsilonTransition s₁ s₂) n other L L' s₁ m₁ f₁ s₂ m₂ f₂ := by
  have hapart' : ∀ {p q}, p ∈ n.states → q ∈ other.states → p ≠ q := fun hp hq heq =>
    hapart hp (heq ▸ hq)
  have hsf := hapart' hn.start_mem ho.final_mem
  have hlinks : ∀ p, p ≠ s₁ → (h.setEpsilonTransition s₁ s₂).links p = h.links p :=
    fun p hp => links_setEpsilonTransition_of_ne hp
  refine ⟨hn.states, ho.states, nodup_append'.mpr ⟨hn.nodup, ho.nodup, hapart⟩,
    hn.created_append ho, fun p hp q hq => ?_, fun p hp hs => ?_, ?_, ?_, fun h' x hh' hx => ?_⟩
  · rcases leads_setEpsilonTransition hq with hq | ⟨-, rfl⟩
    · exact hn.closed_append ho p hp q hq
    · exact mem_append_right _ ho.start_mem
  · rcases leads_setEpsilonTransition hs with hs | ⟨-, hs⟩
    · rcases mem_append.mp hp with hp | hp
      · exact hn.start p hp hs
      · exact hapart hn.start_mem (ho.closed p hp _ hs)
    · exact hapart' hn.start_mem ho.start_mem hs
  · exact (hlinks f₁ hn.start_ne_final.symm).trans hn.final
  · exact (hlinks f₂ hsf.symm).trans ho.final
  · obtain ⟨hx₁, hx₂⟩ := hn.exits ho hapart hx
    have hkeep : ∀ p ∈ n.states ++ other.states, p ≠ s₁ → p ≠ f₁ → p ≠ f₂ →
        h'.links p = h.links p := fun p hp hps hpf hpf' => (hh' p hp hpf hpf').trans (hlinks p hps)
    have hmore : h'.links s₁ = ((h.links s₁).1, some s₂) :=
      (hh' s₁ (mem_append_left _ hn.start_mem) hn.start_ne_final hsf).trans
        links_setEpsilonTransition_self
    rw [hn.leave_add (fun p hp hps hpf => hkeep p (mem_append_left _ hp) hps hpf
        (hapart' hp ho.final_mem)) hnone hmore hx₁,
      ho.leave (fun p hp hpf => hkeep p (mem_append_right _ hp)
        (hapart' hn.start_mem hp).symm (hapart' hn.final_mem hp).symm hpf) hx₂]

/-- A new state leads to both start states. -/
theorem joined_fork (hapart : n.states.Disjoint other.states) (b : Bool) :
    Joined has (h.fork b s₁ s₂) { n with states := h.created :: ((m₁ ++ [s₁]) ++ [f₁]) } other L L'
      h.created (m₁ ++ [s₁]) f₁ s₂ m₂ f₂ := by
  have hapart' : ∀ {p q}, p ∈ n.states → q ∈ other.states → p ≠ q := fun hp hq heq =>
    hapart hp (heq ▸ hq)
  have hold : ∀ p ∈ n.states ++ other.states, p ≠ h.created := fun p hp =>
    Nat.ne_of_lt (hn.created_append ho p hp)
  have hlinks : ∀ p ∈ n.states ++ other.states, (h.fork b s₁ s₂).links p = h.links p :=
    fun p hp => links_fork_of_ne (hold p hp)
  have hperm := (perm_newStart hn.states h.created).append_right other.states
  have hmem : ∀ p, p ∈ (h.created :: ((m₁ ++ [s₁]) ++ [f₁])) ++ other.states ↔
      p = h.created ∨ p ∈ n.states ++ other.states := fun p => by
    rw [hperm.mem_iff, cons_append, mem_cons]
  have hmemStart := mem_append_left other.states hn.start_mem
  have hmemStart' := mem_append_right n.states ho.start_mem
  have hmemFinal := mem_append_left other.states hn.final_mem
  have hmemFinal' := mem_append_right n.states ho.final_mem
  refine ⟨rfl, ho.states, ?_, fun p hp => ?_, fun p hp q hq => ?_, fun p hp hs => ?_,
    (hlinks f₁ hmemFinal).trans hn.final, (hlinks f₂ hmemFinal').trans ho.final,
    fun h' x hh' hx => ?_⟩
  · exact hperm.nodup_iff.mpr (nodup_cons.mpr ⟨fun hp => hold _ hp rfl,
      nodup_append'.mpr ⟨hn.nodup, ho.nodup, hapart⟩⟩)
  · rcases (hmem p).mp hp with rfl | hp
    · exact Nat.lt_succ_self _
    · exact (hn.created_append ho p hp).trans (Nat.lt_succ_self _)
  · refine (hmem q).mpr (Or.inr ?_)
    rcases leads_fork hq with ⟨hne, hq⟩ | ⟨-, rfl | rfl⟩
    · exact hn.closed_append ho p (((hmem p).mp hp).resolve_left hne) q hq
    · exact hmemStart
    · exact hmemStart'
  · rcases leads_fork hs with ⟨hne, hq⟩ | ⟨-, hs | hs⟩
    · exact hold _ (hn.closed_append ho p (((hmem p).mp hp).resolve_left hne) _ hq) rfl
    · exact hold s₁ hmemStart hs.symm
    · exact hold s₂ hmemStart' hs.symm
  · obtain ⟨hx₁, hx₂⟩ := hn.exits ho hapart fun hmem' => hx ((hmem x).mpr (Or.inr hmem'))
    have hkeep : ∀ p ∈ n.states ++ other.states, p ≠ f₁ → p ≠ f₂ → h'.links p = h.links p :=
      fun p hp hpf hpf' => (hh' p ((hmem p).mpr (Or.inr hp)) hpf hpf').trans (hlinks p hp)
    have hnew : h'.links h.created = (some (.epsilon, s₁), some s₂) :=
      (hh' _ ((hmem _).mpr (Or.inl rfl)) (hold _ hmemFinal).symm (hold _ hmemFinal').symm).trans
        links_fork_self
    have hxc : h.created ≠ x := fun heq =>
      (hx ((hmem x).mpr (Or.inl heq.symm))).elim
        (fun hxf => hold _ hmemFinal (hxf.symm.trans heq.symm))
        fun hxf => hold _ hmemFinal' (hxf.symm.trans heq.symm)
    have hfork : between has h' h.created x = between has h' s₁ x + between has h' s₂ x :=
      pathLanguage_fork hxc (step_fork hnew)
    rw [hfork, hn.leave (fun p hp hpf => hkeep p (mem_append_left _ hp) hpf
        (hapart' hp ho.final_mem)) hx₁,
      ho.leave (fun p hp hpf => hkeep p (mem_append_right _ hp)
        (hapart' hn.final_mem hp).symm hpf) hx₂]

end

end Shaped

/-- The start states of a union. -/
theorem uniteStarts_eq (hn : Built has h n L) (ho : Built has h other L')
    (hapart : n.states.Disjoint other.states) :
    ∃ h₁ n₁ other₁ s mid f s' mid' f', uniteStarts h n other = some (h₁, n₁, other₁) ∧
      Joined has h₁ n₁ other₁ L L' s mid f s' mid' f' ∧ h.created ≤ h₁.created ∧
        (∀ p < h.created, p ∉ n.states ++ other.states → h₁.links p = h.links p) ∧
          ∀ p ∈ n₁.states ++ other₁.states, p ∈ n.states ++ other.states ∨ h.created ≤ p := by
  obtain ⟨s₁, m₁, f₁, hn⟩ := hn.shape
  obtain ⟨s₂, m₂, f₂, ho⟩ := ho.shape
  rw [uniteStarts, startState_of_shape hn.states, startState_of_shape ho.states,
    some_bind, some_bind]
  split_ifs with hnone hnone'
  · exact ⟨_, n, other, s₁, m₁, f₁, s₂, m₂, f₂, rfl, hn.joined ho hapart hnone, Nat.le_refl _,
      fun p _ hp => links_setEpsilonTransition_of_ne fun hps =>
        hp (hps ▸ mem_append_left _ hn.start_mem), fun p hp => Or.inl hp⟩
  · -- The other way round, and then the lists are exchanged.
    have hperm : ((s₂ :: (m₁ ++ [f₁])) ++ (s₁ :: (m₂ ++ [f₂]))).Perm
        (other.states ++ n.states) := by
      rw [hn.states, ho.states]
      refine perm_iff_count.mpr fun a => ?_
      simp only [count_append, count_cons, count_nil]
      omega
    refine ⟨h.setEpsilonTransition s₂ s₁, { n with states := s₂ :: (m₁ ++ [f₁]) },
      { other with states := s₁ :: (m₂ ++ [f₂]) }, s₂, m₁, f₁, s₁, m₂, f₂, ?_,
      (ho.joined hn hapart.symm hnone').exchange rfl rfl hperm, Nat.le_refl _,
      fun p _ hp => links_setEpsilonTransition_of_ne fun hps =>
        hp (hps ▸ mem_append_right _ ho.start_mem),
      fun p hp => Or.inl ((hperm.trans perm_append_comm).mem_iff.mp hp)⟩
    rw [replace_first hn.states, replace_first ho.states]
    rfl
  · have hperm := (perm_newStart hn.states h.created).append_right other.states
    refine ⟨_, _, other, _, _, f₁, s₂, m₂, f₂, ?_, hn.joined_fork ho hapart n.inTrailContext,
      Nat.le_succ _, fun p hp _ => links_fork_of_ne (Nat.ne_of_lt hp), fun p hp => ?_⟩
    · have hsecond := replace_last (n := { n with states := h.created :: (m₁ ++ [f₁]) })
        (v := s₁) rfl
      have hfinal := finalState_of_shape (n := { n with states := h.created :: (m₁ ++ [f₁]) }) rfl
      simp only [replace_first hn.states, some_bind]
      rw [hfinal, some_bind, hsecond]
      simp [forceLast, fork]
    · exact (mem_cons.mp (hperm.mem_iff.mp hp)).elim (fun hp => Or.inr hp.ge) Or.inl

/-- `build_union`. -/
theorem buildUnion_eq (hn : Built has h n L) (ho : Built has h other L')
    (hapart : n.states.Disjoint other.states) :
    ∃ h' n' other', buildUnion h n other = some (h', n', other') ∧
      Spliced has h (n.states ++ other.states) h' n' (L + L') := by
  obtain ⟨h₁, n₁, other₁, s, mid, f, s', mid', f', hrun, hj, hle, hframe, hused⟩ :=
    uniteStarts_eq hn ho hapart
  obtain ⟨h₂, n₂, other₂, hrun₂, hs⟩ := hj.uniteFinals_eq
  refine ⟨h₂, n₂, other₂, ?_, hs.trans hle hframe hused⟩
  rw [buildUnion, hrun]
  exact hrun₂

end Nfa

end Gobo
