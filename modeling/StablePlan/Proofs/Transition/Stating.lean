import StablePlan.Proofs.Transition.Collecting

/-!
A draft read as a program of its own. Stored rules stand for themselves, a queued fact is a rule
without a body, an atom that must be false or true is a constraint of one literal, and an external
is a free choice. A draft made from a replay says, read like this, what the replay says.
-/

namespace StablePlan

namespace Observation

variable {D X : Set Nat}

@[simp] theorem obeyed_rule (r : Rule) : (rule r).Obeyed D X ↔ r.clause.Obeys D X := by
  simp [Obeyed, rule?]

@[simp] theorem obeyed_weightRule (r : WeightRule) :
    (weightRule r).Obeyed D X ↔ r.clause.Obeys D X := by
  simp [Obeyed, rule?]

@[simp] theorem obeyed_free (a : Nat) : (external a .free).Obeyed D X ↔ (a ∈ X → a ∈ D) := by
  constructor
  · exact fun h => h.2 a .free rfl (by decide)
  · refine fun h => ⟨fun _ hc => absurd hc (Option.not_mem_none _), fun b value heq _ => ?_⟩
    obtain ⟨rfl, -⟩ := Observation.external.inj heq
    exact h

end Observation

namespace Draft

variable {d : Draft} {D X : Set Nat} {log : List Observation}

/-- What a draft stores and queues, as the events of a program. -/
def program (d : Draft) : List Observation :=
  d.liveRules.map .rule ++ d.liveWeightRules.map .weightRule ++
    d.facts.map (fun a => .rule ⟨false, [a], []⟩) ++
    d.falsified.map (fun a => .rule ⟨false, [], [.positive a]⟩) ++
    d.cautious.map (fun a => .rule ⟨false, [], [.negative a]⟩) ++
    (if d.bottom then [.rule ⟨false, [], []⟩] else []) ++
    d.externals.map (.external · .free)

theorem models_program_iff (hfalsified : ∀ a ∈ d.falsified, a ≠ 0) :
    (theoryOf d.program).Models D X ↔ d.theory.Models D X := by
  have hfact : ∀ a, (⟨false, [a], []⟩ : Rule).clause.Obeys D X ↔ a ∈ D :=
    fun a => Clause.obeys_fact_iff
  have hban : ∀ a ∈ d.falsified, ((⟨false, [], [.positive a]⟩ : Rule).clause.Obeys D X ↔
      a ∉ D) := fun a ha => by
    rw [← Literal.holdsIn_positive (hfalsified a ha) D X]
    exact Clause.obeys_literal_iff
  have hrequire : ∀ a, (⟨false, [], [.negative a]⟩ : Rule).clause.Obeys D X ↔ a ∈ X :=
    fun a => Clause.obeys_literal_iff.trans (by simp)
  have hbottom : (∀ o ∈ (if d.bottom then [.rule ⟨false, [], []⟩] else [] : List Observation),
      o.Obeyed D X) ↔ d.bottom = false := by
    have hempty : ¬(⟨false, [], []⟩ : Rule).clause.Obeys D X := Clause.not_obeys_empty
    cases d.bottom <;> simp [hempty]
  rw [models_theoryOf_iff, models_theory_iff, obeyed_iff_live]
  simp only [program, List.forall_mem_append, List.forall_mem_map, hbottom,
    Observation.obeyed_rule, Observation.obeyed_weightRule, Observation.obeyed_free, hfact,
    hrequire, forall₂_congr hban]
  tauto

/-! ### Atom 0 is not queued as false -/

theorem falsified_pushRule (d : Draft) (rule : Rule) :
    (d.pushRule rule).falsified = d.falsified := by
  obtain ⟨entries, h⟩ := (marked_markAll d.rules.size rule.parts d).rest
  rw [pushRule_eq, h]

theorem falsified_pushWeightRule (d : Draft) (rule : WeightRule) :
    (d.pushWeightRule rule).falsified = d.falsified := by
  obtain ⟨entries, h⟩ := (marked_markAll d.weightRules.size rule.parts d).rest
  rw [pushWeightRule_eq, h]

theorem falsified_foldl_mention (atoms : List Nat) (d : Draft) :
    (atoms.foldl mention d).falsified = d.falsified := by
  induction atoms generalizing d with
  | nil => rfl
  | cons a atoms ih =>
      rw [List.foldl_cons, ih]
      rfl

theorem zero_notMem_falsified_constrain (h : 0 ∉ d.falsified) (l : Literal) :
    0 ∉ (d.constrain l).falsified := by
  unfold constrain
  dsimp only
  split
  · rename_i hpositive
    have hatom : 0 < l.atom := by
      unfold Literal.isPositive at hpositive
      unfold Literal.atom
      simp at hpositive
      omega
    simp only [List.mem_append, List.mem_singleton, not_or]
    exact ⟨h, hatom.ne⟩
  · exact h

theorem zero_notMem_falsified_addRule (h : 0 ∉ d.falsified) (rule : Rule) :
    0 ∉ (d.addRule rule).falsified := by
  unfold addRule
  split
  · exact h
  · exact h
  · exact h
  · exact zero_notMem_falsified_constrain h _
  · rwa [falsified_pushRule]

theorem zero_notMem_falsified_addWeightRule (h : 0 ∉ d.falsified) (rule : WeightRule) :
    0 ∉ (d.addWeightRule rule).falsified := by
  unfold addWeightRule
  split
  · exact zero_notMem_falsified_addRule h _
  · split
    · dsimp only
      rwa [← List.foldl_map (f := fun e : Literal × Int => e.1.atom), falsified_foldl_mention,
        falsified_foldl_mention]
    · split
      · split
        · exact zero_notMem_falsified_constrain h _
        · exact h
      · rwa [falsified_pushWeightRule]

theorem zero_notMem_falsified_observe (h : 0 ∉ d.falsified) (o : Observation) :
    0 ∉ (d.observe o).falsified := by
  cases o with
  | rule rule => exact zero_notMem_falsified_addRule h _
  | weightRule rule => exact zero_notMem_falsified_addWeightRule h _
  | external atom value =>
      unfold observe
      dsimp only
      split <;> exact h
  | label symbol atom =>
      unfold observe
      dsimp only
      split <;> exact h

theorem zero_notMem_falsified_ofReplay (log : List Observation) :
    0 ∉ (ofReplay log).falsified := by
  suffices h : ∀ d : Draft, 0 ∉ d.falsified → 0 ∉ (log.foldl observe d).falsified from
    h {} List.not_mem_nil
  induction log with
  | nil => exact fun d hd => hd
  | cons o log ih => exact fun d hd => ih _ (zero_notMem_falsified_observe hd o)

/-! ### The program of a replay -/

/-- Repeated atoms, bounds that are met at once or never, constraints of one literal, and externals
of which one is only ever released. -/
def degenerateLog : List Observation :=
  [.rule ⟨true, [2, 1, 2], []⟩, .rule ⟨false, [3, 3], [.positive 1, .negative 2, .positive 1]⟩,
    .weightRule ⟨false, [4, 4], 0, [(.positive 1, 2)]⟩,
    .weightRule ⟨true, [5], -1, [(.positive 6, 1)]⟩,
    .weightRule ⟨false, [6], 5, [(.positive 2, 2), (.positive 2, 2)]⟩,
    .weightRule ⟨false, [], 1, []⟩, .weightRule ⟨false, [], 2, [(.negative 1, 3)]⟩,
    .rule ⟨false, [], [.positive 2, .positive 2]⟩,
    .external 7 .release, .external 8 .on, .external 8 .release]

example : (ofReplay degenerateLog).program =
    [.rule ⟨true, [1, 2], []⟩, .rule ⟨false, [3], [.negative 2, .positive 1]⟩,
      .rule ⟨true, [5], []⟩, .rule ⟨false, [4], []⟩, .rule ⟨false, [], [.positive 2]⟩,
      .rule ⟨false, [], [.negative 1]⟩, .external 8 .free] := by decide

end Draft

end StablePlan
