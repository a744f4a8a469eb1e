/-
Which symbols of a context-free grammar derive a word over given letters, and which
rules take part in the derivation of some word from the initial symbol.
-/
import Mathlib.Computability.ContextFreeGrammar

namespace Gobo

open List

namespace ContextFree

universe u

variable {T : Type u} {g : ContextFreeGrammar T} {L : T → Prop}

/-- The nonterminals from which the rules lead to letters of `L` only. -/
inductive Generating (g : ContextFreeGrammar T) (L : T → Prop) : g.NT → Prop
  | rule (r : ContextFreeRule T g.NT) (hr : r ∈ g.rules)
      (hletters : ∀ t, Symbol.terminal t ∈ r.output → L t)
      (hvariables : ∀ v, Symbol.nonterminal v ∈ r.output → Generating g L v) :
      Generating g L r.input

/-- The same for a symbol. -/
def GeneratingSymbol (g : ContextFreeGrammar T) (L : T → Prop) : Symbol T g.NT → Prop
  | .terminal t => L t
  | .nonterminal v => Generating g L v

/-- Every symbol of `u` leads to letters of `L`. -/
def GeneratingAll (g : ContextFreeGrammar T) (L : T → Prop) (u : List (Symbol T g.NT)) : Prop :=
  ∀ s ∈ u, GeneratingSymbol g L s

theorem GeneratingAll.rule {r : ContextFreeRule T g.NT} (hr : r ∈ g.rules)
    (h : GeneratingAll g L r.output) : Generating g L r.input :=
  Generating.rule r hr (fun _ ht => h _ ht) (fun _ hv => h _ hv)

/-- They are the least set that is closed under the rules. -/
theorem Generating.least {S : g.NT → Prop}
    (hclosed : ∀ r ∈ g.rules, (∀ t, Symbol.terminal t ∈ r.output → L t) →
      (∀ v, Symbol.nonterminal v ∈ r.output → S v) → S r.input)
    {v : g.NT} (h : Generating g L v) : S v := by
  induction h with
  | rule r hr hletters _ ih => exact hclosed r hr hletters ih

theorem Generating.exists_rule {v : g.NT} (h : Generating g L v) :
    ∃ r ∈ g.rules, r.input = v ∧ GeneratingAll g L r.output := by
  cases h with
  | rule r hr hletters hvariables =>
      refine ⟨r, hr, rfl, fun s hs => ?_⟩
      cases s with
      | terminal t => exact hletters t hs
      | nonterminal v => exact hvariables v hs

/-- A list of symbols derives a word when each of them does. -/
theorem derives_of_forall {u : List (Symbol T g.NT)}
    (h : ∀ s ∈ u, ∃ w : List T, (∀ t ∈ w, L t) ∧ g.Derives [s] (w.map .terminal)) :
    ∃ w : List T, (∀ t ∈ w, L t) ∧ g.Derives u (w.map .terminal) := by
  induction u with
  | nil => exact ⟨[], fun _ ht => absurd ht not_mem_nil, .refl _⟩
  | cons s u ih =>
      obtain ⟨w, hw, hs⟩ := h s mem_cons_self
      obtain ⟨w', hw', hu⟩ := ih fun s' hs' => h s' (mem_cons_of_mem s hs')
      refine ⟨w ++ w', fun t ht => (mem_append.mp ht).elim (hw t) (hw' t), ?_⟩
      have hhead : g.Derives ([s] ++ u) (w.map .terminal ++ u) := hs.append_right u
      rw [map_append]
      exact hhead.trans (hu.append_left _)

theorem Generating.derives {v : g.NT} (h : Generating g L v) :
    ∃ w : List T, (∀ t ∈ w, L t) ∧ g.Derives [.nonterminal v] (w.map .terminal) := by
  induction h with
  | rule r hr hletters _ ih =>
      obtain ⟨w, hw, hderives⟩ : ∃ w : List T, (∀ t ∈ w, L t) ∧
          g.Derives r.output (w.map .terminal) := by
        refine derives_of_forall fun s hs => ?_
        cases s with
        | terminal t =>
            exact ⟨[t], fun t' ht' => mem_singleton.mp ht' ▸ hletters t hs, .refl _⟩
        | nonterminal v => exact ih v hs
      exact ⟨w, hw, ContextFreeGrammar.Produces.trans_derives
        ⟨r, hr, ContextFreeRule.Rewrites.input_output⟩ hderives⟩

theorem GeneratingAll.derives {u : List (Symbol T g.NT)} (h : GeneratingAll g L u) :
    ∃ w : List T, (∀ t ∈ w, L t) ∧ g.Derives u (w.map .terminal) := by
  refine derives_of_forall fun s hs => ?_
  cases s with
  | terminal t => exact ⟨[t], fun t' ht' => mem_singleton.mp ht' ▸ h _ hs, .refl _⟩
  | nonterminal v => exact Generating.derives (h _ hs)

/-- One step of a derivation replaces a nonterminal by what it may lead to. -/
theorem GeneratingAll.of_produces {u u' : List (Symbol T g.NT)} (hstep : g.Produces u u')
    (h : GeneratingAll g L u') : GeneratingAll g L u := by
  obtain ⟨r, hr, hrewrites⟩ := hstep
  obtain ⟨p, q, rfl, rfl⟩ := hrewrites.exists_parts
  intro s hs
  rcases mem_append.mp hs with hs | hs
  · rcases mem_append.mp hs with hs | hs
    · exact h s (by simp [hs])
    · rw [mem_singleton.mp hs]
      exact GeneratingAll.rule hr fun s' hs' => h s' (by simp [hs'])
  · exact h s (by simp [hs])

theorem GeneratingAll.of_derives {u u' : List (Symbol T g.NT)} (hsteps : g.Derives u u')
    (h : GeneratingAll g L u') : GeneratingAll g L u := by
  induction hsteps using Relation.ReflTransGen.head_induction_on with
  | refl => exact h
  | head hstep _ ih => exact ih.of_produces hstep

theorem generatingAll_map_terminal {w : List T} (hw : ∀ t ∈ w, L t) :
    GeneratingAll g L (w.map .terminal) := by
  intro s hs
  obtain ⟨t, ht, rfl⟩ := mem_map.mp hs
  exact hw t ht

/-- The symbols that lead to letters of `L` are those that derive a word over `L`. -/
theorem generatingAll_iff {u : List (Symbol T g.NT)} :
    GeneratingAll g L u ↔ ∃ w : List T, (∀ t ∈ w, L t) ∧ g.Derives u (w.map .terminal) :=
  ⟨GeneratingAll.derives, fun ⟨_, hw, h⟩ => (generatingAll_map_terminal hw).of_derives h⟩

theorem generating_iff {v : g.NT} : Generating g L v ↔
    ∃ w : List T, (∀ t ∈ w, L t) ∧ g.Derives [.nonterminal v] (w.map .terminal) := by
  rw [← generatingAll_iff]
  exact ⟨fun h s hs => mem_singleton.mp hs ▸ h, fun h => h _ mem_cons_self⟩

/-- No letter is allowed: the nonterminal derives the empty word. -/
theorem generating_false_iff {v : g.NT} :
    Generating g (fun _ => False) v ↔ g.Derives [.nonterminal v] [] := by
  rw [generating_iff]
  refine ⟨fun ⟨w, hw, h⟩ => ?_, fun h => ⟨[], fun _ ht => absurd ht not_mem_nil, h⟩⟩
  cases w with
  | nil => exact h
  | cons t w => exact absurd mem_cons_self (hw t)

section Occurrence

/-- The nonterminal derives some word. -/
abbrev Productive (g : ContextFreeGrammar T) : g.NT → Prop := Generating g fun _ => True

/-- Every symbol derives some word. -/
abbrev ProductiveAll (g : ContextFreeGrammar T) : List (Symbol T g.NT) → Prop :=
  GeneratingAll g fun _ => True

theorem productiveAll_iff {u : List (Symbol T g.NT)} :
    ProductiveAll g u ↔ ∃ w : List T, g.Derives u (w.map .terminal) :=
  generatingAll_iff.trans ⟨fun ⟨w, _, h⟩ => ⟨w, h⟩, fun ⟨w, h⟩ => ⟨w, fun _ _ => trivial, h⟩⟩

/-- The nonterminals that the initial one leads to through rules that derive some word. -/
inductive Reaches (g : ContextFreeGrammar T) : g.NT → Prop
  | initial : Reaches g g.initial
  | rule {r : ContextFreeRule T g.NT} {v : g.NT} (hinput : Reaches g r.input)
      (hr : r ∈ g.rules) (hproductive : ProductiveAll g r.output)
      (hv : Symbol.nonterminal v ∈ r.output) : Reaches g v

/-- They are the least set with the initial one that these rules do not lead out of. -/
theorem Reaches.least {S : g.NT → Prop} (hinitial : S g.initial)
    (hclosed : ∀ r ∈ g.rules, S r.input → ProductiveAll g r.output →
      ∀ v, Symbol.nonterminal v ∈ r.output → S v)
    {v : g.NT} (h : Reaches g v) : S v := by
  induction h with
  | initial => exact hinitial
  | rule _ hr hproductive hv ih => exact hclosed _ hr ih hproductive _ hv

/-- A rule with this input and output takes part in the derivation of a word. -/
def RuleOccurs (g : ContextFreeGrammar T) (input : g.NT) (output : List (Symbol T g.NT)) : Prop :=
  ∃ (p q : List (Symbol T g.NT)) (w : List T),
    g.Derives [.nonterminal g.initial] (p ++ [.nonterminal input] ++ q) ∧
      g.Derives (p ++ output ++ q) (w.map .terminal)

/-- A nonterminal takes part in the derivation of a word. -/
def VariableOccurs (g : ContextFreeGrammar T) (v : g.NT) : Prop :=
  ∃ (p q : List (Symbol T g.NT)) (w : List T),
    g.Derives [.nonterminal g.initial] (p ++ [.nonterminal v] ++ q) ∧
      g.Derives (p ++ [.nonterminal v] ++ q) (w.map .terminal)

theorem productiveAll_append {u u' : List (Symbol T g.NT)} :
    ProductiveAll g (u ++ u') ↔ ProductiveAll g u ∧ ProductiveAll g u' :=
  forall_mem_append

/-- What a derivation of a word goes through is reached. -/
theorem Reaches.of_derives {u : List (Symbol T g.NT)}
    (hsteps : g.Derives [.nonterminal g.initial] u) (hu : ProductiveAll g u) :
    ∀ v, Symbol.nonterminal v ∈ u → Reaches g v := by
  induction hsteps with
  | refl =>
      intro v hv
      cases mem_singleton.mp hv
      exact .initial
  | tail _ hstep ih =>
      have hbefore := ih (hu.of_produces hstep)
      obtain ⟨r, hr, hrewrites⟩ := hstep
      obtain ⟨p, q, rfl, rfl⟩ := hrewrites.exists_parts
      have houtput := (productiveAll_append.mp (productiveAll_append.mp hu).1).2
      intro v hv
      rcases mem_append.mp hv with hv | hv
      · rcases mem_append.mp hv with hv | hv
        · exact hbefore v (by simp [hv])
        · exact .rule (hbefore r.input (by simp)) hr houtput hv
      · exact hbefore v (by simp [hv])

/-- What is reached stands in a sentential form that derives a word. -/
theorem Reaches.derives {v : g.NT} (h : Reaches g v) : ∃ p q : List (Symbol T g.NT),
    g.Derives [.nonterminal g.initial] (p ++ [.nonterminal v] ++ q) ∧
      ProductiveAll g p ∧ ProductiveAll g q := by
  induction h with
  | initial => exact ⟨[], [], .refl _, fun _ h => absurd h not_mem_nil,
      fun _ h => absurd h not_mem_nil⟩
  | @rule r v _ hr hproductive hv ih =>
      obtain ⟨p, q, hderives, hp, hq⟩ := ih
      obtain ⟨a, b, hab⟩ := append_of_mem hv
      rw [hab, ← singleton_append, productiveAll_append, productiveAll_append] at hproductive
      obtain ⟨ha, -, hb⟩ := hproductive
      refine ⟨p ++ a, b ++ q, hderives.trans_produces ⟨r, hr, ?_⟩,
        productiveAll_append.mpr ⟨hp, ha⟩, productiveAll_append.mpr ⟨hb, hq⟩⟩
      have hrewrites := r.rewrites_of_exists_parts p q
      rw [hab] at hrewrites
      simpa using hrewrites

/-- The rules of a derivation of a word: productive outputs, reached inputs. -/
theorem ruleOccurs_iff {input : g.NT} {output : List (Symbol T g.NT)}
    (hrule : ⟨input, output⟩ ∈ g.rules) :
    RuleOccurs g input output ↔ ProductiveAll g output ∧ Reaches g input := by
  constructor
  · rintro ⟨p, q, w, hbefore, hafter⟩
    have hall : ProductiveAll g (p ++ output ++ q) := productiveAll_iff.mpr ⟨w, hafter⟩
    have hstep : g.Produces (p ++ [.nonterminal input] ++ q) (p ++ output ++ q) :=
      ⟨_, hrule, ContextFreeRule.rewrites_of_exists_parts ⟨input, output⟩ p q⟩
    exact ⟨(productiveAll_append.mp (productiveAll_append.mp hall).1).2,
      Reaches.of_derives hbefore (hall.of_produces hstep) input (by simp)⟩
  · rintro ⟨houtput, hinput⟩
    obtain ⟨p, q, hderives, hp, hq⟩ := hinput.derives
    obtain ⟨w, hw⟩ := productiveAll_iff.mp
      (productiveAll_append.mpr ⟨productiveAll_append.mpr ⟨hp, houtput⟩, hq⟩)
    exact ⟨p, q, w, hderives, hw⟩

theorem variableOccurs_iff {v : g.NT} :
    VariableOccurs g v ↔ Productive g v ∧ Reaches g v := by
  constructor
  · rintro ⟨p, q, w, hbefore, hafter⟩
    have hall : ProductiveAll g (p ++ [.nonterminal v] ++ q) := productiveAll_iff.mpr ⟨w, hafter⟩
    exact ⟨hall (.nonterminal v) (by simp), Reaches.of_derives hbefore hall v (by simp)⟩
  · rintro ⟨hv, hreaches⟩
    obtain ⟨p, q, hderives, hp, hq⟩ := hreaches.derives
    have hone : ProductiveAll g [.nonterminal v] := fun s hs => mem_singleton.mp hs ▸ hv
    obtain ⟨w, hw⟩ := productiveAll_iff.mp
      (productiveAll_append.mpr ⟨productiveAll_append.mpr ⟨hp, hone⟩, hq⟩)
    exact ⟨p, q, w, hderives, hw⟩

theorem Reaches.productive {v : g.NT} (h : Reaches g v) (hinitial : Productive g g.initial) :
    Productive g v := by
  cases h with
  | initial => exact hinitial
  | rule _ _ hproductive hv => exact hproductive _ hv

/-- Nothing occurs unless the initial nonterminal derives a word. -/
theorem variableOccurs_iff_initial {v : g.NT} :
    VariableOccurs g v ↔ Productive g g.initial ∧ Reaches g v := by
  refine ⟨fun h => ⟨?_, (variableOccurs_iff.mp h).2⟩,
    fun ⟨hinitial, hv⟩ => variableOccurs_iff.mpr ⟨hv.productive hinitial, hv⟩⟩
  obtain ⟨p, q, w, hbefore, hafter⟩ := h
  exact productiveAll_iff.mpr ⟨w, hbefore.trans hafter⟩ _ mem_cons_self

theorem ruleOccurs_iff_variable {input : g.NT} {output : List (Symbol T g.NT)}
    (hrule : ⟨input, output⟩ ∈ g.rules) :
    RuleOccurs g input output ↔ ProductiveAll g output ∧ VariableOccurs g input := by
  rw [ruleOccurs_iff hrule, variableOccurs_iff]
  exact ⟨fun ⟨houtput, hinput⟩ => ⟨houtput, GeneratingAll.rule hrule houtput, hinput⟩,
    fun ⟨houtput, _, hinput⟩ => ⟨houtput, hinput⟩⟩

/-- The rules that occur are enough for the whole language. -/
theorem language_eq_of_occurs {V : Type} {initial : V} {rules rules' : Finset (ContextFreeRule T V)}
    (hrules : ∀ r, r ∈ rules' ↔
      r ∈ rules ∧ RuleOccurs ⟨V, initial, rules⟩ r.input r.output) :
    ContextFreeGrammar.language ⟨V, initial, rules'⟩ =
      ContextFreeGrammar.language ⟨V, initial, rules⟩ := by
  ext w
  rw [ContextFreeGrammar.mem_language_iff, ContextFreeGrammar.mem_language_iff]
  constructor
  · intro h
    have hstep : ∀ u u', ContextFreeGrammar.Produces ⟨V, initial, rules'⟩ u u' →
        ContextFreeGrammar.Produces ⟨V, initial, rules⟩ u u' :=
      fun _ _ ⟨r, hr, hrewrites⟩ => ⟨r, ((hrules r).mp hr).1, hrewrites⟩
    exact Relation.ReflTransGen.mono hstep _ _ h
  · intro h
    have hkept : ∀ u, ContextFreeGrammar.Derives ⟨V, initial, rules⟩ u (w.map .terminal) →
        ContextFreeGrammar.Derives ⟨V, initial, rules⟩ [.nonterminal initial] u →
          ContextFreeGrammar.Derives ⟨V, initial, rules'⟩ u (w.map .terminal) := by
      intro u hu
      induction hu using Relation.ReflTransGen.head_induction_on with
      | refl => exact fun _ => .refl _
      | head hstep hrest ih =>
          intro hbefore
          have hafter := ih (hbefore.trans_produces hstep)
          obtain ⟨r, hr, hrewrites⟩ := hstep
          obtain ⟨p, q, rfl, rfl⟩ := hrewrites.exists_parts
          have hr' : r ∈ rules' := (hrules r).mpr ⟨hr, p, q, w, hbefore, hrest⟩
          exact ContextFreeGrammar.Produces.trans_derives ⟨r, hr', hrewrites⟩ hafter
    exact hkept _ h (.refl _)

end Occurrence

end ContextFree

end Gobo
