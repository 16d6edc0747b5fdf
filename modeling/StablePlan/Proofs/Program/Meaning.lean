import StablePlan.Program.Statement
import StablePlan.Proofs.Stable.Theory

/-!
What the events of a replay mean. Every rule event stands for the clauses that its rule is shifted
to. An external may be chosen either way if it was ever declared other than released; what it was
declared last is a different question, asked when a program is solved under assumptions.
-/

namespace StablePlan

/-- The clauses of a rule whose head is not shifted yet. -/
def Clause.shifted (c : Clause) : List Clause := ofRule c.choice c.head c.body c.sum

def WeightRule.HasNonnegWeights (r : WeightRule) : Prop := ∀ e ∈ r.body, 0 ≤ e.2

instance (r : WeightRule) : Decidable r.HasNonnegWeights :=
  inferInstanceAs (Decidable (∀ e ∈ r.body, 0 ≤ e.2))

/-- The weights are not negative, and together they are in the range. -/
def WeightRule.HasFittingWeights (r : WeightRule) : Prop := WeightsFit r.body

instance (r : WeightRule) : Decidable r.HasFittingWeights :=
  inferInstanceAs (Decidable (WeightsFit r.body))

def Rule.clause (r : Rule) : Clause := ⟨r.choice, r.head, r.body, none⟩

def WeightRule.clause (r : WeightRule) : Clause := ⟨r.choice, r.head, [], some ⟨r.lower, r.body⟩⟩

theorem WeightRule.hasFittingWeights_iff {r : WeightRule} :
    r.HasFittingWeights ↔ r.clause.HasFittingWeights := by
  simp [HasFittingWeights, Clause.HasFittingWeights, clause]

namespace Observation

/-- The rule that an event adds, with its head as it stands. -/
def rule? : Observation → Option Clause
  | .rule r => some r.clause
  | .weightRule r => some r.clause
  | _ => none

def clauses (o : Observation) : List Clause := o.rule?.toList.flatMap Clause.shifted

/-- The atoms that an event mentions in a rule or declares external. -/
def atoms : Observation → List Nat
  | .rule r => r.head ++ r.body.map Literal.atom
  | .weightRule r => r.head ++ r.body.map fun e => e.1.atom
  | .external atom _ => [atom]
  | .label _ _ => []

def HasNonnegWeights : Observation → Prop
  | .weightRule r => r.HasNonnegWeights
  | _ => True

instance : DecidablePred Observation.HasNonnegWeights
  | .weightRule r => inferInstanceAs (Decidable r.HasNonnegWeights)
  | .rule _ | .external _ _ | .label _ _ => .isTrue trivial

def HasFittingWeights : Observation → Prop
  | .weightRule r => r.HasFittingWeights
  | _ => True

instance : DecidablePred Observation.HasFittingWeights
  | .weightRule r => inferInstanceAs (Decidable r.HasFittingWeights)
  | .rule _ | .external _ _ | .label _ _ => .isTrue trivial

theorem HasFittingWeights.nonneg {o : Observation} (h : o.HasFittingWeights) :
    o.HasNonnegWeights := by
  cases o with
  | weightRule r => exact WeightsFit.nonneg h
  | rule _ | external _ _ | label _ _ => trivial

/-- What an event declares an atom to be. -/
def declares? (atom : Nat) : Observation → Option ExternalValue
  | .external a value => if a = atom then some value else none
  | _ => none

end Observation

/-- The last value that an atom was declared with. -/
def declared? (log : List Observation) (atom : Nat) : Option ExternalValue :=
  log.reverse.findSome? (Observation.declares? atom)

/-- The clauses of a log, and as given what it ever declares external and does not release. -/
def theoryOf (log : List Observation) : Theory where
  clauses := {c | ∃ o ∈ log, c ∈ o.clauses}
  given := {atom | ∃ value, .external atom value ∈ log ∧ value ≠ .release}

/-- What the clauses of a rule say together in the reduct by `X`, read in `D`. Each atom of a
disjunctive head has to follow where the body holds and the others are not in `X`. -/
def Clause.Obeys (c : Clause) (D X : Set Nat) : Prop :=
  BodyHolds c.body c.sum D X →
    if c.choice then ∀ h ∈ c.head, h ∈ X → h ∈ D
    else c.head ≠ [] ∧ ∀ h ∈ c.head, (∀ k ∈ c.head, k ≠ h → k ∉ X) → h ∈ D

section Shifting

variable {c : Clause} {D X : Set Nat}

theorem Clause.shifted_of_choice (h : c.choice = true) : c.shifted = [c] := by
  cases c
  simp_all [shifted, ofRule]

theorem Clause.shifted_of_length_le (h : c.head.length ≤ 1) : c.shifted = [c] := by
  cases c
  simp_all [shifted, ofRule]

theorem Clause.respects_shifted_iff : (∀ d ∈ c.shifted, d.Respects D X) ↔ c.Obeys D X := by
  by_cases hchoice : c.choice = true
  · simp [shifted_of_choice hchoice, Respects, Obeys, hchoice]
  · by_cases hlength : c.head.length ≤ 1
    · rw [shifted_of_length_le hlength]
      simp only [List.mem_singleton, forall_eq, Respects, Obeys, if_neg hchoice]
      refine imp_congr_right fun _ => ?_
      rcases hh : c.head with _ | ⟨x, _ | ⟨y, ys⟩⟩
      · simp
      · simp
      · simp [hh] at hlength
    · have hne : c.head ≠ [] := by
        rintro h
        simp [h] at hlength
      have hshifted : c.shifted = c.head.map fun h =>
          ⟨false, [h], c.body ++ (c.head.filter (· != h)).map Literal.negative, c.sum⟩ := by
        simp [shifted, ofRule, hchoice, hlength]
      rw [hshifted, List.forall_mem_map]
      simp only [Respects, Obeys, if_neg hchoice, BodyHolds, List.mem_append, List.mem_map,
        List.mem_filter]
      constructor
      · rintro hall ⟨hbody, hsum⟩
        refine ⟨hne, fun h hh hothers => ?_⟩
        have hshift := hall h hh ⟨fun l hl => ?_, hsum⟩
        · simpa using hshift
        · rcases hl with hl | ⟨k, ⟨hk, hkh⟩, rfl⟩
          · exact hbody l hl
          · simpa using hothers k hk (by simpa using hkh)
      · rintro himp h hh ⟨hbody, hsum⟩
        have hD := (himp ⟨fun l hl => hbody l (Or.inl hl), hsum⟩).2 h hh fun k hk hkh => ?_
        · simpa using hD
        · simpa using hbody (.negative k) (Or.inr ⟨k, ⟨hk, by simpa using hkh⟩, rfl⟩)

/-- In `X` itself a shifted rule says what the rule says. -/
theorem Clause.obeys_self_iff : c.Obeys X X ↔
    (c.choice = false → BodyHolds c.body c.sum X X → ∃ h ∈ c.head, h ∈ X) := by
  unfold Obeys
  by_cases hchoice : c.choice = true
  · simp [hchoice]
  · rw [if_neg hchoice]
    simp only [hchoice, forall_const]
    refine imp_congr_right fun _ => ⟨fun ⟨hne, hall⟩ => ?_, fun ⟨h, hh, hX⟩ => ?_⟩
    · by_contra hno
      push Not at hno
      obtain ⟨h, hh⟩ := List.exists_mem_of_ne_nil _ hne
      exact hno h hh (hall h hh fun k hk _ => hno k hk)
    · refine ⟨List.ne_nil_of_mem hh, fun k hk hothers => ?_⟩
      by_cases heq : h = k
      · exact heq ▸ hX
      · exact absurd hX (hothers h hh heq)

/-- A rule that holds in `X` is satisfied in every part of it that has what its head may derive. -/
theorem Clause.Obeys.of_subset {c : Clause} (hX : c.Obeys X X) (hDX : D ⊆ X)
    (hw : c.HasNonnegWeights) (hheads : ∀ a ∈ c.head, a ∈ X → a ∈ D) : c.Obeys D X := by
  intro hbody
  have hobeys := hX (hbody.mono hw hDX)
  by_cases hc : c.choice = true
  · rw [if_pos hc]
    exact hheads
  · rw [if_neg hc] at hobeys ⊢
    exact ⟨hobeys.1, fun a ha hothers => hheads a ha (hobeys.2 a ha hothers)⟩

theorem Clause.mem_head_of_mem_shifted {d : Clause} (hd : d ∈ c.shifted) {h : Nat}
    (hh : h ∈ d.head) : h ∈ c.head := by
  unfold shifted ofRule at hd
  split at hd
  · obtain rfl := List.mem_singleton.mp hd
    exact hh
  · obtain ⟨k, hk, rfl⟩ := List.mem_map.mp hd
    obtain rfl := List.mem_singleton.mp hh
    exact hk

theorem Clause.mem_of_mem_body_shifted {d : Clause} (hd : d ∈ c.shifted) {l : Literal}
    (hl : l ∈ d.body) : l ∈ c.body ∨ ∃ k ∈ c.head, l = .negative k := by
  unfold shifted ofRule at hd
  split at hd
  · obtain rfl := List.mem_singleton.mp hd
    exact Or.inl hl
  · obtain ⟨h, hh, rfl⟩ := List.mem_map.mp hd
    rcases List.mem_append.mp hl with hl | hl
    · exact Or.inl hl
    · obtain ⟨k, hk, rfl⟩ := List.mem_map.mp hl
      exact Or.inr ⟨k, (List.mem_filter.mp hk).1, rfl⟩

theorem Clause.sum_of_mem_shifted {d : Clause} (hd : d ∈ c.shifted) : d.sum = c.sum := by
  unfold shifted ofRule at hd
  split at hd
  · rw [List.mem_singleton.mp hd]
  · obtain ⟨h, hh, rfl⟩ := List.mem_map.mp hd
    rfl

theorem Clause.normal_of_mem_shifted {d : Clause} (hd : d ∈ c.shifted) :
    d.choice ∨ d.head.length ≤ 1 := by
  unfold shifted ofRule at hd
  split at hd
  · rename_i h
    rw [List.mem_singleton.mp hd]
    simpa using h
  · obtain ⟨h, hh, rfl⟩ := List.mem_map.mp hd
    exact Or.inr le_rfl

theorem hasNonnegWeights_theoryOf {log : List Observation} (hw : ∀ o ∈ log, o.HasNonnegWeights) :
    (theoryOf log).HasNonnegWeights := by
  rintro c ⟨o, ho, hc⟩ s hs
  cases o with
  | rule r =>
      have hc : c ∈ r.clause.shifted := by simpa [Observation.clauses, Observation.rule?] using hc
      rw [Clause.sum_of_mem_shifted hc] at hs
      exact absurd hs (Option.not_mem_none s)
  | weightRule r =>
      have hc : c ∈ r.clause.shifted := by simpa [Observation.clauses, Observation.rule?] using hc
      rw [Clause.sum_of_mem_shifted hc] at hs
      obtain rfl := Option.some.inj hs
      exact hw _ ho
  | external atom value => exact absurd hc List.not_mem_nil
  | label symbol atom => exact absurd hc List.not_mem_nil

end Shifting

/-! ### A sum out of range -/

/-- Each weight reaches the bound, while their sum wraps around to `-2`. -/
def wrappingRule : WeightRule :=
  ⟨false, [3], 1, [(.negative 1, maxWeight), (.negative 2, maxWeight)]⟩

def wrappingLog : List Observation := [.weightRule wrappingRule, .label (.constant "lit") 3]

end StablePlan
