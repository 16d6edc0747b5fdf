import StablePlan.Proofs.Transition.Coherence

/-!
Collecting keeps the meaning of a program. What a draft stores and what it queues say together what
the events said that it was made from: a fact is a fact whether it is stored or queued, a constraint
of one literal bans or requires an atom, and bodies that always or never hold are decided at once.
-/

namespace StablePlan

namespace Draft

variable {d : Draft} {D X : Set Nat} {S : Scope}

/-- All live rules are obeyed. -/
def Obeyed (d : Draft) (D X : Set Nat) : Prop :=
  (∀ i r, d.rule? i = some r → r.clause.Obeys D X) ∧
    ∀ i r, d.weightRule? i = some r → r.clause.Obeys D X

/-- The clauses of the rules that a draft still has. -/
def clauses (d : Draft) : Set Clause :=
  {c | (∃ r ∈ d.liveRules, c ∈ r.clause.shifted) ∨ ∃ r ∈ d.liveWeightRules, c ∈ r.clause.shifted}

/-- The program that a draft stands for: queued atoms are facts, banned, or required. -/
def theory (d : Draft) : Theory where
  clauses := d.clauses ∪ {c | d.bottom ∧ c = ⟨false, [], [], none⟩}
  given := {a | a ∈ d.externals}
  facts := {a | a ∈ d.facts}
  banned := {a | a ∈ d.falsified}
  required := {a | a ∈ d.cautious}

theorem mem_liveRules {r : Rule} : r ∈ d.liveRules ↔ ∃ i, d.rule? i = some r := by
  simp only [liveRules, List.mem_filterMap, id, exists_eq_right, rule?, Array.mem_toList_iff,
    Array.getD_eq_getD_getElem?]
  constructor
  · intro h
    obtain ⟨i, hi, heq⟩ := Array.mem_iff_getElem.mp h
    exact ⟨i, by simp [hi, heq]⟩
  · rintro ⟨i, hi⟩
    by_cases hlt : i < d.rules.size
    · rw [Array.getElem?_eq_getElem hlt] at hi
      exact Array.mem_iff_getElem.mpr ⟨i, hlt, hi⟩
    · rw [Array.getElem?_eq_none (by omega)] at hi
      exact absurd hi (by simp)

theorem mem_liveWeightRules {r : WeightRule} :
    r ∈ d.liveWeightRules ↔ ∃ i, d.weightRule? i = some r := by
  simp only [liveWeightRules, List.mem_filterMap, id, exists_eq_right, weightRule?,
    Array.mem_toList_iff, Array.getD_eq_getD_getElem?]
  constructor
  · intro h
    obtain ⟨i, hi, heq⟩ := Array.mem_iff_getElem.mp h
    exact ⟨i, by simp [hi, heq]⟩
  · rintro ⟨i, hi⟩
    by_cases hlt : i < d.weightRules.size
    · rw [Array.getElem?_eq_getElem hlt] at hi
      exact Array.mem_iff_getElem.mpr ⟨i, hlt, hi⟩
    · rw [Array.getElem?_eq_none (by omega)] at hi
      exact absurd hi (by simp)

theorem obeyed_iff_live : d.Obeyed D X ↔ (∀ r ∈ d.liveRules, r.clause.Obeys D X) ∧
    ∀ r ∈ d.liveWeightRules, r.clause.Obeys D X := by
  unfold Obeyed
  simp only [mem_liveRules, mem_liveWeightRules]
  refine and_congr ?_ ?_
  · exact ⟨fun h r ⟨i, hi⟩ => h i r hi, fun h i r hi => h r ⟨i, hi⟩⟩
  · exact ⟨fun h r ⟨i, hi⟩ => h i r hi, fun h i r hi => h r ⟨i, hi⟩⟩

theorem respects_clauses_iff : (∀ c ∈ d.clauses, c.Respects D X) ↔ d.Obeyed D X := by
  rw [obeyed_iff_live]
  simp only [← Clause.respects_shifted_iff]
  constructor
  · exact fun h => ⟨fun r hr c hc => h c (Or.inl ⟨r, hr, hc⟩),
      fun r hr c hc => h c (Or.inr ⟨r, hr, hc⟩)⟩
  · rintro ⟨h, h'⟩ c (⟨r, hr, hc⟩ | ⟨r, hr, hc⟩)
    · exact h r hr c hc
    · exact h' r hr c hc

theorem respects_theory_iff : (∀ c ∈ d.theory.clauses, c.Respects D X) ↔
    d.Obeyed D X ∧ d.bottom = false := by
  rw [← respects_clauses_iff]
  constructor
  · refine fun h => ⟨fun c hc => h c (Or.inl hc), ?_⟩
    by_contra hbottom
    have hempty := h ⟨false, [], [], none⟩ (Or.inr ⟨by simpa using hbottom, rfl⟩)
    simp [Clause.Respects, BodyHolds] at hempty
  · rintro ⟨h, hbottom⟩ c (hc | ⟨hc, -⟩)
    · exact h c hc
    · rw [hbottom] at hc
      exact absurd hc (by simp)

theorem models_theory_iff : d.theory.Models D X ↔ d.Obeyed D X ∧ d.bottom = false ∧
    (∀ a ∈ d.externals, a ∈ X → a ∈ D) ∧ (∀ a ∈ d.facts, a ∈ D) ∧
    (∀ a ∈ d.falsified, a ∉ D) ∧ ∀ a ∈ d.cautious, a ∈ X := by
  constructor
  · intro h
    obtain ⟨hobeyed, hfalse⟩ := respects_theory_iff.mp h.clauses
    exact ⟨hobeyed, hfalse, h.given, h.facts, h.banned, h.required⟩
  · rintro ⟨hobeyed, hfalse, hgiven, hfacts, hbanned, hrequired⟩
    exact ⟨respects_theory_iff.mpr ⟨hobeyed, hfalse⟩, hgiven, hfacts, hbanned, hrequired⟩

theorem admits_theory_iff : d.theory.Admits D X ↔ d.Obeyed D X ∧ d.bottom = false ∧
    (∀ a ∈ d.externals, a ∈ X → a ∈ D) ∧ (∀ a ∈ d.facts, a ∈ D) ∧
    (∀ a ∈ d.falsified, a ∉ X) ∧ ∀ a ∈ d.cautious, a ∈ X := by
  constructor
  · intro h
    obtain ⟨hobeyed, hfalse⟩ := respects_theory_iff.mp h.clauses
    exact ⟨hobeyed, hfalse, h.given, h.facts, h.banned, h.required⟩
  · rintro ⟨hobeyed, hfalse, hgiven, hfacts, hbanned, hrequired⟩
    exact ⟨respects_theory_iff.mpr ⟨hobeyed, hfalse⟩, hgiven, hfacts, hbanned, hrequired⟩

/-! ### What is stored -/

theorem rule?_pushRule (d : Draft) (rule : Rule) (i : Nat) :
    (d.pushRule rule).rule? i = if i = d.rules.size then some rule else d.rule? i := by
  obtain ⟨entries, h⟩ := (marked_markAll d.rules.size rule.parts d).rest
  rw [pushRule_eq, h]
  simp only [rule?, Array.getD_eq_getD_getElem?, Array.getElem?_push]
  split <;> rfl

theorem rule?_pushWeightRule (d : Draft) (rule : WeightRule) (i : Nat) :
    (d.pushWeightRule rule).rule? i = d.rule? i := by
  obtain ⟨entries, h⟩ := (marked_markAll d.weightRules.size rule.parts d).rest
  rw [pushWeightRule_eq, h]
  rfl

theorem obeyed_pushRule (rule : Rule) :
    (d.pushRule rule).Obeyed D X ↔ d.Obeyed D X ∧ rule.clause.Obeys D X := by
  unfold Obeyed
  simp only [rule?_pushRule, weightRule?_pushRule]
  constructor
  · rintro ⟨h, h'⟩
    refine ⟨⟨fun i r hi => h i r ?_, h'⟩, h d.rules.size rule (if_pos rfl)⟩
    rw [if_neg (lt_of_rule? hi).ne]
    exact hi
  · rintro ⟨⟨h, h'⟩, hrule⟩
    refine ⟨fun i r hi => ?_, h'⟩
    split at hi
    · exact Option.some.inj hi ▸ hrule
    · exact h i r hi

theorem obeyed_pushWeightRule (rule : WeightRule) :
    (d.pushWeightRule rule).Obeyed D X ↔ d.Obeyed D X ∧ rule.clause.Obeys D X := by
  unfold Obeyed
  simp only [rule?_pushWeightRule, weightRule?_pushWeightRule]
  constructor
  · rintro ⟨h, h'⟩
    refine ⟨⟨h, fun i r hi => h' i r ?_⟩, h' d.weightRules.size rule (if_pos rfl)⟩
    rw [if_neg (lt_of_weightRule? hi).ne]
    exact hi
  · rintro ⟨⟨h, h'⟩, hrule⟩
    refine ⟨h, fun i r hi => ?_⟩
    split at hi
    · exact Option.some.inj hi ▸ hrule
    · exact h' i r hi

theorem models_pushRule (rule : Rule) : (d.pushRule rule).theory.Models D X ↔
    d.theory.Models D X ∧ rule.clause.Obeys D X := by
  obtain ⟨entries, h⟩ := (marked_markAll d.rules.size rule.parts d).rest
  rw [models_theory_iff, models_theory_iff, obeyed_pushRule, pushRule_eq, h]
  exact and_right_comm

theorem models_pushWeightRule (rule : WeightRule) : (d.pushWeightRule rule).theory.Models D X ↔
    d.theory.Models D X ∧ rule.clause.Obeys D X := by
  obtain ⟨entries, h⟩ := (marked_markAll d.weightRules.size rule.parts d).rest
  rw [models_theory_iff, models_theory_iff, obeyed_pushWeightRule, pushWeightRule_eq, h]
  exact and_right_comm

theorem theory_mention (d : Draft) (a : Nat) : (d.mention a).theory = d.theory := rfl

theorem theory_foldl_mention (atoms : List Nat) (d : Draft) :
    (atoms.foldl mention d).theory = d.theory := by
  induction atoms generalizing d with
  | nil => rfl
  | cons a atoms ih =>
      rw [List.foldl_cons, ih]
      rfl

/-- A constraint of one literal is queued. -/
theorem models_constrain (l : Literal) : (d.constrain l).theory.Models D X ↔
    d.theory.Models D X ∧ ¬l.HoldsIn D X := by
  rw [models_theory_iff, models_theory_iff]
  unfold constrain Literal.HoldsIn
  split
  · change d.Obeyed D X ∧ _ ∧ _ ∧ _ ∧ (∀ a ∈ d.falsified ++ [l.atom], a ∉ D) ∧ _ ↔ _
    simp only [List.forall_mem_append, List.forall_mem_singleton]
    tauto
  · change d.Obeyed D X ∧ _ ∧ _ ∧ _ ∧ _ ∧ (∀ a ∈ d.cautious ++ [l.atom], a ∈ X) ↔ _
    simp only [List.forall_mem_append, List.forall_mem_singleton, not_not]
    tauto

theorem models_addRule (rule : Rule) : (d.addRule rule).theory.Models D X ↔
    d.theory.Models D X ∧ rule.clause.Obeys D X := by
  obtain ⟨choice, head, body⟩ := rule
  unfold addRule Rule.clause
  dsimp only
  split
  · exact (and_iff_left Clause.obeys_choice_nil).symm
  · rw [models_theory_iff, models_theory_iff]
    have hfalse : ¬(⟨false, [], [], none⟩ : Clause).Obeys D X := Clause.not_obeys_empty
    simp [hfalse]
  · rename_i h
    rw [models_theory_iff, models_theory_iff, Clause.obeys_fact_iff]
    change d.Obeyed D X ∧ _ ∧ _ ∧ (∀ a ∈ d.facts ++ [h], a ∈ D) ∧ _ ∧ _ ↔ _
    simp only [List.forall_mem_append, List.forall_mem_singleton]
    tauto
  · rw [models_constrain, Clause.obeys_literal_iff]
  · exact models_pushRule _

theorem models_addWeightRule {rule : WeightRule} (hw : rule.HasFittingWeights) :
    (d.addWeightRule rule).theory.Models D X ↔
      d.theory.Models D X ∧ rule.clause.Obeys D X := by
  obtain ⟨choice, head, lower, body⟩ := rule
  unfold addWeightRule WeightRule.clause
  split
  · rename_i hlower
    rw [models_addRule, Clause.obeys_reached_iff hw.nonneg hlower]
    rfl
  · rename_i hlower
    split
    · rename_i htotal
      have hobeys : (⟨choice, head, [], some ⟨lower, body⟩⟩ : Clause).Obeys D X :=
        Clause.obeys_of_exactWeight_lt hw.nonneg (hw.totalWeight_eq ▸ htotal)
      have hfold : ∀ d : Draft, (body.foldl (fun d e => d.mention e.1.atom) d).theory =
          d.theory := by
        intro d
        rw [← theory_foldl_mention (body.map fun e => e.1.atom) d, List.foldl_map]
      dsimp only
      rw [hfold, theory_foldl_mention]
      exact (and_iff_left hobeys).symm
    · dsimp only at hlower ⊢
      split
      · rename_i l w _
        split
        · rename_i hreach
          rw [models_constrain, Clause.obeys_single_weight_iff (by omega) hreach]
        · rename_i hreach
          have hshort : exactWeight [(l, w)] < lower := by simpa using hreach
          exact (and_iff_left (Clause.obeys_of_exactWeight_lt hw.nonneg hshort)).symm
      · exact models_pushWeightRule _

end Draft

/-! ### Whole replays -/

/-- What one event asks of a model of the reduct. -/
def Observation.Obeyed (o : Observation) (D X : Set Nat) : Prop :=
  (∀ c ∈ o.rule?, c.Obeys D X) ∧
    ∀ a value, o = .external a value → value ≠ .release → a ∈ X → a ∈ D

theorem models_theoryOf_iff {log : List Observation} {D X : Set Nat} :
    (theoryOf log).Models D X ↔ ∀ o ∈ log, o.Obeyed D X := by
  have hclauses : ∀ o : Observation, (∀ c ∈ o.clauses, c.Respects D X) ↔
      ∀ c ∈ o.rule?, c.Obeys D X := by
    intro o
    simp only [Observation.clauses, List.forall_mem_flatMap, Option.mem_toList,
      Clause.respects_shifted_iff]
    rfl
  constructor
  · intro h o ho
    refine ⟨(hclauses o).mp fun c hc => h.clauses c ⟨o, ho, hc⟩, ?_⟩
    rintro a value rfl hvalue
    exact h.given a ⟨value, ho, hvalue⟩
  · intro h
    refine ⟨?_, ?_, fun _ h => h.elim, fun _ h => h.elim, fun _ h => h.elim⟩
    · rintro c ⟨o, ho, hc⟩
      exact (hclauses o).mpr (h o ho).1 c hc
    · rintro a ⟨value, ho, hvalue⟩
      exact (h _ ho).2 a value rfl hvalue

namespace Draft

variable {d : Draft} {D X : Set Nat} {S : Scope} {log : List Observation}

theorem models_observe {o : Observation} (hw : o.HasFittingWeights) :
    (d.observe o).theory.Models D X ↔ d.theory.Models D X ∧ o.Obeyed D X := by
  cases o with
  | rule rule =>
      simp only [observe, models_addRule, Observation.Obeyed, Observation.rule?, Option.mem_def,
        Option.some.injEq, forall_eq', reduceCtorEq, false_implies, implies_true, and_true,
        Rule.clause]
      rw [Clause.obeys_congr (fun _ => Ascending.mem_ofList) (fun _ => Ascending.mem_ofList)]
  | weightRule rule =>
      have hw' : WeightRule.HasFittingWeights { rule with head := Ascending.ofList rule.head } := hw
      simp only [observe, models_addWeightRule hw', Observation.Obeyed, Observation.rule?,
        Option.mem_def, Option.some.injEq, forall_eq', reduceCtorEq, false_implies, implies_true,
        and_true, WeightRule.clause]
      rw [Clause.obeys_congr (fun _ => Ascending.mem_ofList) (fun _ => Iff.rfl)]
  | external atom value =>
      simp only [observe, Observation.Obeyed, Observation.rule?]
      split
      · rename_i hrelease
        subst hrelease
        simp [theory_mention]
      · rename_i hvalue
        rw [models_theory_iff, models_theory_iff]
        change d.Obeyed D X ∧ _ ∧ (∀ a ∈ Ascending.insert atom d.externals, a ∈ X → a ∈ D) ∧ _ ↔ _
        simp [Ascending.mem_insert, hvalue]
        tauto
  | label symbol atom =>
      have hsame : (d.observe (.label symbol atom)).theory = d.theory := by
        unfold observe
        dsimp only
        split <;> rfl
      rw [hsame]
      simp [Observation.Obeyed, Observation.rule?]

/-- A draft has the models of the reduct of the program that it was made from. -/
theorem models_ofReplay (hw : ∀ o ∈ log, o.HasFittingWeights) :
    (ofReplay log).theory.Models D X ↔ (theoryOf log).Models D X := by
  suffices h : ∀ d : Draft, (log.foldl observe d).theory.Models D X ↔
      d.theory.Models D X ∧ ∀ o ∈ log, o.Obeyed D X by
    have hempty : (({} : Draft).theory).Models D X := by
      rw [models_theory_iff]
      simp [Obeyed, rule?, weightRule?]
    rw [models_theoryOf_iff, ofReplay, h]
    exact and_iff_right hempty
  induction log with
  | nil => simp
  | cons o log ih =>
      intro d
      rw [List.foldl_cons, ih (fun o ho => hw o (by simp [ho])), models_observe (hw o (by simp)),
        List.forall_mem_cons, and_assoc]

/-! ### Records of a replay -/

/-- Records fit, what is queued is mentioned, and nothing is resolved. -/
structure Collected (S : Scope) (d : Draft) : Prop where
  coherent : d.Coherent S
  queued : ∀ a, a ∈ d.facts ∨ a ∈ d.falsified ∨ a ∈ d.cautious → d.isMentioned a
  unresolved : ∀ a, d.resolution a = none

theorem isMentioned_mention (d : Draft) (a b : Nat) :
    (d.mention a).isMentioned b = true ↔ b = a ∨ d.isMentioned b = true := by
  unfold isMentioned
  rw [entry_mention]
  split <;> simp [*]

theorem resolution_mention (d : Draft) (a b : Nat) :
    (d.mention a).resolution b = d.resolution b := by
  unfold resolution
  rw [entry_mention]
  split
  · rename_i hb
    rw [hb]
  · rfl

theorem collected_empty : ({} : Draft).Collected S := by
  have hparts : ∀ weighted i, ({} : Draft).parts? weighted i = none := fun weighted i => by
    cases weighted <;> simp [parts?, rule?, weightRule?]
  have hrecord : ∀ a role, ({} : Draft).record a role = [] := fun a role => by
    simp [record, occurrences, entry]
  refine ⟨⟨?_, ?_, ?_, ?_, ?_, ?_, ?_, ?_, ?_⟩, by simp, by simp [resolution, entry]⟩ <;>
    simp [hparts, hrecord, weightRule?, resolution, entry]

/-- A weight rule that is stored has a bound that its weights can reach. -/
theorem hasFittingBound {rule : WeightRule} (hw : rule.HasFittingWeights) (hlower : 0 < rule.lower)
    (htotal : rule.lower ≤ rule.total) : rule.HasFittingBound := by
  have hrange : minWeight + maxWeight < 0 := by decide
  have heq : rule.total = exactWeight rule.body := hw.totalWeight_eq
  have hle := hw.le
  exact ⟨hw, by omega, by omega⟩

namespace Collected

theorem mention (h : d.Collected S) (a : Nat) : (d.mention a).Collected S := by
  refine ⟨h.coherent.mention a, fun b hb => ?_, fun b => ?_⟩
  · exact (isMentioned_mention d a b).mpr (Or.inr (h.queued b hb))
  · rw [resolution_mention]
    exact h.unresolved b

theorem foldl_mention (h : d.Collected S) (atoms : List Nat) :
    (atoms.foldl Draft.mention d).Collected S := by
  induction atoms generalizing d with
  | nil => exact h
  | cons a atoms ih => exact ih (h.mention a)

theorem pushRule (h : d.Collected S) {rule : Rule} (hheads : ∀ x ∈ rule.head, x ∈ S.heads) :
    (d.pushRule rule).Collected S := by
  have hp := pushes_pushRule d rule
  refine ⟨h.coherent.pushRule hheads fun l _ => by simp [h.unresolved], fun a ha => ?_,
    fun a => (hp.resolution a).trans (h.unresolved a)⟩
  obtain ⟨entries, hrest⟩ := (marked_markAll d.rules.size rule.parts d).rest
  rw [pushRule_eq, hrest] at ha
  exact (hp.mentioned a).mpr (Or.inl (h.queued a ha))

theorem pushWeightRule (h : d.Collected S) {rule : WeightRule}
    (hheads : ∀ x ∈ rule.head, x ∈ S.heads) (hw : rule.IsWithin S) :
    (d.pushWeightRule rule).Collected S := by
  have hp := pushes_pushWeightRule d rule
  refine ⟨h.coherent.pushWeightRule hheads hw fun e _ => by simp [h.unresolved], fun a ha => ?_,
    fun a => (hp.resolution a).trans (h.unresolved a)⟩
  obtain ⟨entries, hrest⟩ := (marked_markAll d.weightRules.size rule.parts d).rest
  rw [pushWeightRule_eq, hrest] at ha
  exact (hp.mentioned a).mpr (Or.inl (h.queued a ha))

/-- A queue may take what is mentioned. -/
theorem rest (h : d.Collected S) {externals : List Nat} {outputs : Array (Symbol × Nat)}
    {facts falsified cautious : List Nat} {bottom : Bool}
    (hq : ∀ a, a ∈ facts ∨ a ∈ falsified ∨ a ∈ cautious → d.isMentioned a) :
    Draft.Collected S { d with externals, outputs, facts, falsified, cautious, bottom } :=
  ⟨h.coherent.rest, hq, h.unresolved⟩

theorem constrain (h : d.Collected S) (l : Literal) : (d.constrain l).Collected S := by
  have hm := h.mention l.atom
  have hself : (d.mention l.atom).isMentioned l.atom := (isMentioned_mention _ _ _).mpr (Or.inl rfl)
  unfold Draft.constrain
  dsimp only
  split
  · refine hm.rest fun a ha => ?_
    rcases ha with ha | ha | ha
    · exact hm.queued a (Or.inl ha)
    · rcases List.mem_append.mp ha with ha | ha
      · exact hm.queued a (Or.inr (Or.inl ha))
      · rwa [List.mem_singleton.mp ha]
    · exact hm.queued a (Or.inr (Or.inr ha))
  · refine hm.rest fun a ha => ?_
    rcases ha with ha | ha | ha
    · exact hm.queued a (Or.inl ha)
    · exact hm.queued a (Or.inr (Or.inl ha))
    · rcases List.mem_append.mp ha with ha | ha
      · exact hm.queued a (Or.inr (Or.inr ha))
      · rwa [List.mem_singleton.mp ha]

theorem addRule (h : d.Collected S) {rule : Rule} (hheads : ∀ x ∈ rule.head, x ∈ S.heads) :
    (d.addRule rule).Collected S := by
  unfold Draft.addRule
  split
  · exact h
  · exact h.rest h.queued
  · rename_i x _ _ _
    have hm := h.mention x
    refine hm.rest fun a ha => ?_
    rcases ha with ha | ha
    · rcases List.mem_append.mp ha with ha | ha
      · exact hm.queued a (Or.inl ha)
      · rw [List.mem_singleton.mp ha]
        exact (isMentioned_mention _ _ _).mpr (Or.inl rfl)
    · exact hm.queued a (Or.inr ha)
  · exact h.constrain _
  · exact h.pushRule hheads

theorem addWeightRule (h : d.Collected S) {rule : WeightRule}
    (hheads : ∀ x ∈ rule.head, x ∈ S.heads) (hw : rule.HasNonnegWeights)
    (hexact : S.exact → rule.HasFittingWeights) : (d.addWeightRule rule).Collected S := by
  unfold Draft.addWeightRule
  split
  · exact h.addRule hheads
  · rename_i hlower
    split
    · have hfold := (h.foldl_mention rule.head).foldl_mention (rule.body.map fun e => e.1.atom)
      rwa [List.foldl_map] at hfold
    · rename_i htotal
      split
      · split
        · exact h.constrain _
        · exact h
      · refine h.pushWeightRule hheads ⟨hw, fun he => hasFittingBound (hexact he) ?_ ?_⟩
        · exact not_le.mp hlower
        · exact not_lt.mp htotal

theorem observe (h : d.Collected S) {o : Observation} (hw : o.HasNonnegWeights)
    (hexact : S.exact → o.HasFittingWeights)
    (hheads : ∀ c ∈ o.rule?, ∀ x ∈ c.head, x ∈ S.heads) : (d.observe o).Collected S := by
  cases o with
  | rule rule =>
      exact h.addRule fun x hx => hheads _ rfl x (Ascending.mem_ofList.mp hx)
  | weightRule rule =>
      exact h.addWeightRule (fun x hx => hheads _ rfl x (Ascending.mem_ofList.mp hx)) hw hexact
  | external atom value =>
      have hm := h.mention atom
      unfold Draft.observe
      dsimp only
      split
      · exact hm
      · exact hm.rest hm.queued
  | label symbol atom =>
      unfold Draft.observe
      dsimp only
      split
      · exact h.rest h.queued
      · exact (h.mention atom).rest (h.mention atom).queued

end Collected

theorem collected_ofReplay (hw : ∀ o ∈ log, o.HasNonnegWeights)
    (hexact : S.exact → ∀ o ∈ log, o.HasFittingWeights)
    (hheads : ∀ o ∈ log, ∀ c ∈ o.rule?, ∀ x ∈ c.head, x ∈ S.heads) :
    (ofReplay log).Collected S := by
  suffices h : ∀ d : Draft, d.Collected S → (log.foldl observe d).Collected S from
    h {} collected_empty
  induction log with
  | nil => exact fun d hd => hd
  | cons o log ih =>
      intro d hd
      exact ih (fun o ho => hw o (by simp [ho])) (fun he o ho => hexact he o (by simp [ho]))
        (fun o ho => hheads o (by simp [ho])) _
        (hd.observe (hw o (by simp)) (fun he => hexact he o (by simp)) (hheads o (by simp)))

end Draft

end StablePlan
