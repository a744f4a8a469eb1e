/-
The copy of an automaton: its states are new ones, with the same words between them.
-/
import Gobo.NfaOperations

namespace Gobo

open Option List

namespace Nfa

open NfaStates

variable {C : Type} {has : C → Int → Bool} {h h₁ h' : NfaStates C} {n : Nfa} {L : Language Int}
  {p q : Nat} {states : List Nat}

/-- The links of the copy of a state, when `g` are the copies. -/
def mapLinks (g : Nat → Nat) (x : Option (NfaLabel C × Nat) × Option Nat) :
    Option (NfaLabel C × Nat) × Option Nat :=
  (x.1.map fun t => (t.1, g t.2), x.2.map g)

theorem item_succ (i : Nat) : item states (i + 1) = states[i]? := if_neg (Nat.succ_ne_zero i)

/-- The first `i` states have been copied, without their targets. -/
structure Copied (h : NfaStates C) (states : List Nat) (i : Nat) (h₁ : NfaStates C)
    (copies : List Nat) : Prop where
  copies : copies = range' h.created i
  created : h₁.created = h.created + i
  frame : ∀ p < h.created, h₁.links p = h.links p
  id : ∀ k < i, ∀ p, states[k]? = some p → (h₁.state p).id = k + 1
  links : ∀ k < i, ∀ p, states[k]? = some p → h₁.links (h.created + k) = h.links p

theorem Copied.turn {i : Nat} {copies : List Nat} (hnodup : states.Nodup)
    (hcreated : ∀ p ∈ states, p < h.created) (hc : Copied h states i h₁ copies)
    (hi : i < states.length) :
    ∃ h₂ copies₂, copyTurn states (i + 1) (h₁, copies) = some (h₂, copies₂) ∧
      Copied h states (i + 1) h₂ copies₂ := by
  have hget : states[i]? = some states[i] := getElem?_eq_getElem hi
  have hlt : states[i] < h.created := hcreated _ (getElem_mem hi)
  obtain ⟨rfl, hc₁, hframe, hid, hlinks⟩ := hc
  have hold : ∀ k < h₁.created, k ≠ (h₁.setId states[i] (i + 1)).created := fun k hk =>
    Nat.ne_of_lt hk
  have hother : ∀ k < i, ∀ p, states[k]? = some p → p ≠ states[i] := by
    intro k hk p hp heq
    subst heq
    exact Nat.ne_of_lt hk (hnodup.getElem_inj_iff.mp
      ((getElem_eq_iff (Nat.lt_trans hk hi)).mpr hp))
  refine ⟨_, _, by rw [copyTurn, item_succ, hget]; rfl, ?_, ?_, fun p hp => ?_, fun k hk p hp => ?_,
    fun k hk p hp => ?_⟩
  · rw [range'_concat, Nat.one_mul, ← hc₁]
    rfl
  · exact congrArg (· + 1) hc₁
  · rw [links_create_of_ne _ (hold p (by omega)), links_setId, hframe p hp]
  · have hp' : p < h.created := hcreated p (mem_of_getElem? hp)
    rw [state_create_of_ne _ (hold p (by omega))]
    rcases Nat.lt_succ_iff_lt_or_eq.mp hk with hki | rfl
    · rw [setId, state_change_of_ne _ (hother k hki p hp)]
      exact hid k hki p hp
    · obtain rfl := some.inj (hget.symm.trans hp)
      rw [setId, state_change_self]
  · rcases Nat.lt_succ_iff_lt_or_eq.mp hk with hki | rfl
    · rw [links_create_of_ne _ (hold _ (by omega)), links_setId]
      exact hlinks k hki p hp
    · obtain rfl := some.inj (hget.symm.trans hp)
      rw [← hc₁]
      refine (links_create_self _).trans ?_
      exact (links_setId (k + 1)).trans (hframe _ hlt)

/-- The targets of the first `i` copies are copies. -/
structure Retargeted (h : NfaStates C) (states : List Nat) (g : Nat → Nat) (h₁ : NfaStates C)
    (i : Nat) (h₂ : NfaStates C) : Prop where
  created : h₂.created = h₁.created
  frame : ∀ p < h.created, h₂.state p = h₁.state p
  done : ∀ k < i, ∀ p, states[k]? = some p → h₂.links (h.created + k) = mapLinks g (h.links p)
  todo : ∀ k, i ≤ k → ∀ p, states[k]? = some p → h₂.links (h.created + k) = h.links p

theorem id_setTransition (label : NfaLabel C) (target : Nat) :
    ((h.setTransition p label target).state q).id = (h.state q).id := by
  rcases eq_or_ne q p with rfl | hqp
  · rw [setTransition, state_change_self]
  · rw [setTransition, state_change_of_ne _ hqp]

/-- Only the links of one copy are changed. -/
theorem retargetTurn_eq {copies : List Nat} {g : Nat → Nat} {i v : Nat} {h₂ : NfaStates C}
    (hv : item copies i = some v)
    (htargets : ∀ q, h₂.Leads v q → item copies (h₂.state q).id = some (g q)) :
    ∃ h₃, retargetTurn copies i h₂ = some h₃ ∧ h₃.created = h₂.created ∧
      (∀ r, r ≠ v → h₃.state r = h₂.state r) ∧ h₃.links v = mapLinks g (h₂.links v) := by
  rw [retargetTurn, hv, some_bind]
  cases hfirst : (h₂.state v).transition with
  | none =>
      cases hsecond : (h₂.state v).epsilonTransition with
      | none =>
          refine ⟨h₂, by simp [hsecond], rfl, fun r _ => rfl, ?_⟩
          rw [mapLinks, links, hfirst, hsecond]
          rfl
      | some q =>
          have hq := htargets q (Or.inr hsecond)
          refine ⟨h₂.setEpsilonTransition v (g q), by simp [hsecond, hq], rfl,
            fun r hr => state_change_of_ne _ hr, ?_⟩
          rw [links_setEpsilonTransition_self, mapLinks, links, hfirst, hsecond]
          rfl
  | some t =>
      obtain ⟨label, q⟩ := t
      have hq := htargets q (Or.inl ⟨label, hfirst⟩)
      have hsame : ((h₂.setTransition v label (g q)).state v).epsilonTransition =
          (h₂.state v).epsilonTransition := congrArg Prod.snd links_setTransition_self
      cases hsecond : (h₂.state v).epsilonTransition with
      | none =>
          refine ⟨h₂.setTransition v label (g q), by simp [hq, hsame, hsecond], rfl,
            fun r hr => state_change_of_ne _ hr, ?_⟩
          rw [links_setTransition_self, mapLinks, links, hfirst, hsecond]
          rfl
      | some q' =>
          have hq' := htargets q' (Or.inr hsecond)
          refine ⟨(h₂.setTransition v label (g q)).setEpsilonTransition v (g q'), ?_, rfl,
            fun r hr => ?_, ?_⟩
          · simp [hq, hsame, hsecond, id_setTransition, hq']
          · exact (state_change_of_ne _ hr).trans (state_change_of_ne _ hr)
          · rw [links_setEpsilonTransition_self, links_setTransition_self, mapLinks, links, hfirst,
              hsecond]
            rfl

/-- The copy of a state. -/
def copyOf (h : NfaStates C) (states : List Nat) (p : Nat) : Nat := h.created + states.idxOf p

theorem map_copyOf (hnodup : states.Nodup) :
    states.map (copyOf h states) = range' h.created states.length := by
  refine ext_getElem (by rw [length_map, length_range']) fun k hk hk' => ?_
  rw [getElem_map, getElem_range', Nat.one_mul, copyOf, hnodup.idxOf_getElem]

theorem copyOf_injOn : Set.InjOn (copyOf h states) {p | p ∈ states} := fun _ hp _ _ heq =>
  (idxOf_inj hp).mp (Nat.add_left_cancel heq)

theorem Retargeted.turn {i : Nat} {h₂ : NfaStates C}
    (hcreated : ∀ p ∈ states, p < h.created)
    (hclosed : ∀ p ∈ states, ∀ q, h.Leads p q → q ∈ states)
    (hc : Copied h states states.length h₁ (range' h.created states.length))
    (hr : Retargeted h states (copyOf h states) h₁ i h₂) (hi : i < states.length) :
    ∃ h₃, retargetTurn (range' h.created states.length) (i + 1) h₂ = some h₃ ∧
      Retargeted h states (copyOf h states) h₁ (i + 1) h₃ := by
  have hcopy : ∀ k < states.length,
      item (range' h.created states.length) (k + 1) = some (h.created + k) := by
    intro k hk
    rw [item_succ, getElem?_range' hk, Nat.one_mul]
  have hget : states[i]? = some states[i] := getElem?_eq_getElem hi
  have hlinks := hr.todo i (Nat.le_refl i) _ hget
  obtain ⟨h₃, hrun, hcreated₃, hother, hself⟩ := retargetTurn_eq (g := copyOf h states)
    (hcopy i hi) fun q hq => by
      have hmem : q ∈ states := by
        rw [Leads, hlinks] at hq
        exact hclosed _ (getElem_mem hi) q hq
      have hidx : states[states.idxOf q]? = some q := by
        rw [getElem?_eq_getElem (idxOf_lt_length_of_mem hmem), getElem_idxOf]
      rw [hr.frame q (hcreated q hmem), hc.id _ (idxOf_lt_length_of_mem hmem) q hidx]
      exact hcopy _ (idxOf_lt_length_of_mem hmem)
  refine ⟨h₃, hrun, hcreated₃.trans hr.created, fun p hp => ?_, fun k hk p hp => ?_,
    fun k hk p hp => ?_⟩
  · exact (hother p (by omega)).trans (hr.frame p hp)
  · rcases Nat.lt_succ_iff_lt_or_eq.mp hk with hki | rfl
    · rw [links, hother _ (by omega)]
      exact hr.done k hki p hp
    · obtain rfl := some.inj (hget.symm.trans hp)
      rw [hself, hlinks]
  · rw [links, hother _ (by omega)]
    exact hr.todo k (Nat.le_of_succ_le hk) p hp

/-- `copy`. -/
theorem copy_eq (hn : Built has h n L) :
    ∃ h' n', copy h n = some (h', n') ∧ Spliced has h [] h' n' L := by
  obtain ⟨s, m, f, hn⟩ := hn.shape
  obtain ⟨⟨h₁, copies⟩, hrun₁, hc⟩ : ∃ m : NfaStates C × List Nat,
      forUp (copyTurn n.states) n.states.length 1 (h, []) = some m ∧
        Copied h n.states (1 + n.states.length - 1) m.1 m.2 := by
    refine forUp_spec (fun i (m : NfaStates C × List Nat) => Copied h n.states (i - 1) m.1 m.2)
      (fun i m hi hlt hm => ?_) ⟨rfl, rfl, fun _ _ => rfl, nofun, nofun⟩
    obtain ⟨i, rfl⟩ := Nat.exists_eq_succ_of_ne_zero (Nat.ne_of_gt hi)
    obtain ⟨h₂, copies₂, hturn, hm₂⟩ := hm.turn hn.nodup hn.created (by omega)
    exact ⟨(h₂, copies₂), hturn, hm₂⟩
  rw [Nat.add_sub_cancel_left] at hc
  obtain rfl : copies = _ := hc.copies
  obtain ⟨h₂, hrun₂, hr⟩ : ∃ h₂, forUp (retargetTurn (List.range' h.created n.states.length))
      n.states.length 1 h₁ = some h₂ ∧
        Retargeted h n.states (copyOf h n.states) h₁ (1 + n.states.length - 1) h₂ := by
    refine forUp_spec (fun i h₂ => Retargeted h n.states (copyOf h n.states) h₁ (i - 1) h₂)
      (fun i h₂ hi hlt hm => ?_) ⟨rfl, fun _ _ => rfl, nofun, fun k _ p hp => ?_⟩
    · obtain ⟨i, rfl⟩ := Nat.exists_eq_succ_of_ne_zero (Nat.ne_of_gt hi)
      exact hm.turn hn.created hn.closed hc (by omega)
    · exact hc.links k (List.getElem?_eq_some_iff.mp hp).1 p hp
  rw [Nat.add_sub_cancel_left] at hr
  have hlinks : ∀ p ∈ n.states, h₂.links (copyOf h n.states p) =
      mapLinks (copyOf h n.states) (h.links p) := by
    intro p hp
    refine hr.done _ (List.idxOf_lt_length_of_mem hp) p ?_
    rw [List.getElem?_eq_getElem (List.idxOf_lt_length_of_mem hp), List.getElem_idxOf]
  have hinj : Set.InjOn (copyOf h n.states) {p | p ∈ n.states} := copyOf_injOn
  have hcreated : h₂.created = h.created + n.states.length := hr.created.trans hc.created
  have hstates := map_copyOf (h := h) hn.nodup
  have hleads : ∀ p ∈ n.states, ∀ q, h₂.Leads (copyOf h n.states p) q →
      ∃ r ∈ n.states, h.Leads p r ∧ q = copyOf h n.states r := by
    intro p hp q hq
    rw [Leads, hlinks p hp] at hq
    rcases hq with ⟨label, hq⟩ | hq
    · obtain ⟨⟨label', r⟩, hr, heq⟩ := Option.map_eq_some_iff.mp hq
      have hlead : h.Leads p r := Or.inl ⟨label', hr⟩
      exact ⟨r, hn.closed p hp r hlead, hlead, (Prod.mk.inj heq).2.symm⟩
    · obtain ⟨r, hr, rfl⟩ := Option.map_eq_some_iff.mp hq
      exact ⟨r, hn.closed p hp r (Or.inr hr), Or.inr hr, rfl⟩
  have hstep : ∀ p ∈ n.states, ∀ o, (graph has h₂).step (copyOf h n.states p) o =
      copyOf h n.states '' (graph has h).step p o := by
    intro p hp o
    ext q
    change q ∈ step has h₂ _ o ↔ q ∈ _ '' step has h p o
    rw [mem_step, hlinks p hp, Set.mem_image]
    constructor
    · rintro (⟨label, hq, ho⟩ | ⟨hq, ho⟩)
      · obtain ⟨⟨label', r⟩, hr, heq⟩ := Option.map_eq_some_iff.mp hq
        obtain ⟨rfl, rfl⟩ := Prod.mk.inj heq
        exact ⟨r, Or.inl ⟨label', hr, ho⟩, rfl⟩
      · obtain ⟨r, hr, rfl⟩ := Option.map_eq_some_iff.mp hq
        exact ⟨r, Or.inr ⟨hr, ho⟩, rfl⟩
    · rintro ⟨r, ⟨label, hr, ho⟩ | ⟨hr, ho⟩, rfl⟩
      · exact Or.inl ⟨label, congrArg (Option.map _) hr, ho⟩
      · exact Or.inr ⟨congrArg (Option.map _) hr, ho⟩
  have hshape : Shaped has h₂ { n with states := n.states.map (copyOf h n.states) } L
      (copyOf h n.states s) (m.map (copyOf h n.states)) (copyOf h n.states f) := by
    constructor
    case states => simp [hn.states]
    case nodup => exact hn.nodup.map_on fun p hp q hq heq => hinj hp hq heq
    case created =>
      intro p hp
      obtain ⟨q, hq, rfl⟩ := List.mem_map.mp hp
      rw [hcreated]
      exact Nat.add_lt_add_left (List.idxOf_lt_length_of_mem hq) _
    case closed =>
      intro p hp q hq
      obtain ⟨r, hr, rfl⟩ := List.mem_map.mp hp
      obtain ⟨t, ht, -, rfl⟩ := hleads r hr q hq
      exact List.mem_map_of_mem ht
    case start =>
      intro p hp hs
      obtain ⟨r, hr, rfl⟩ := List.mem_map.mp hp
      obtain ⟨t, ht, hlead, heq⟩ := hleads r hr _ hs
      exact hn.start r hr (hinj hn.start_mem ht heq ▸ hlead)
    case final =>
      rw [hlinks f hn.final_mem, hn.final]
      rfl
    case language =>
      exact (pathLanguage_image hinj (fun p hp o => hn.isPart.closed p hp o) hstep hn.start_mem
        hn.final_mem).trans hn.language
  refine ⟨h₂, { n with states := n.states.map (copyOf h n.states) }, ?_, hshape.built, ?_,
    fun p hp _ => ?_, fun p hp => ?_⟩
  · rw [copy, hrun₁, some_bind]
    simp only [hrun₂, hstates]
    rfl
  · rw [hcreated]
    exact Nat.le_add_right _ _
  · exact (by rw [links, hr.frame p hp, ← links] : h₂.links p = h₁.links p).trans (hc.frame p hp)
  · obtain ⟨q, -, rfl⟩ := List.mem_map.mp hp
    exact Or.inr (Nat.le_add_right _ _)

end Nfa

end Gobo
