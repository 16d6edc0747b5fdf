import StablePlan.Proofs.Program.Meaning

/-!
Labels in a replay, and what makes a program one step of a transition system: its externals are told
apart by their labels, and those with a primed label, which stand for the step before, are derived
by no rule.
-/

namespace StablePlan

def Observation.label? : Observation → Option (Symbol × Nat)
  | .label symbol atom => some (symbol, atom)
  | _ => none

/-- The labels of a log in order, each with the atom it is given to, 0 for a fact. -/
def labelsOf (log : List Observation) : List (Symbol × Nat) := log.filterMap Observation.label?

/-- The atom that a label is given to last. -/
def labelled? (log : List Observation) (symbol : Symbol) : Option Nat :=
  ((labelsOf log).reverse.find? (·.1 = symbol)).map Prod.snd

/-- The atoms in the heads of the rules of a log. -/
def headsOf (log : List Observation) : Set Nat := {a | ∃ o ∈ log, ∃ c ∈ o.rule?, a ∈ c.head}

/-- What is asked of a program that describes one step. -/
structure DescribesStep (log : List Observation) : Prop where
  labelled : ∀ a ∈ (theoryOf log).given, ∃! symbol, Observation.label symbol a ∈ log
  apart : ∀ a ∈ (theoryOf log).given, ∀ b ∈ (theoryOf log).given, ∀ symbol,
    Observation.label symbol a ∈ log → Observation.label symbol b ∈ log → a = b
  primed : ∀ a ∈ (theoryOf log).given, ∀ symbol, Observation.label symbol a ∈ log →
    symbol.isPrimed → a ∉ headsOf log

theorem mem_labelsOf {log : List Observation} {symbol : Symbol} {a : Nat} :
    (symbol, a) ∈ labelsOf log ↔ Observation.label symbol a ∈ log := by
  unfold labelsOf
  rw [List.mem_filterMap]
  constructor
  · rintro ⟨o, ho, hlabel⟩
    cases o with
    | label s b =>
        obtain ⟨rfl, rfl⟩ := Prod.mk.inj (Option.some.inj hlabel)
        exact ho
    | rule _ => exact absurd hlabel (by simp [Observation.label?])
    | weightRule _ => exact absurd hlabel (by simp [Observation.label?])
    | external _ _ => exact absurd hlabel (by simp [Observation.label?])
  · intro h
    exact ⟨_, h, rfl⟩

theorem label_mem_of_labelled? {log : List Observation} {symbol : Symbol} {a : Nat}
    (h : labelled? log symbol = some a) : Observation.label symbol a ∈ log := by
  unfold labelled? at h
  obtain ⟨⟨s, b⟩, hfind, rfl⟩ := Option.map_eq_some_iff.mp h
  have hs : s = symbol := by simpa using List.find?_some hfind
  rw [← hs]
  exact mem_labelsOf.mp (List.mem_reverse.mp (List.mem_of_find?_eq_some hfind))

end StablePlan
