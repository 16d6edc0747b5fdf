import StablePlan.Proofs.Program.Extension
import StablePlan.Stable.Reasoner

/-!
How a list of statements is replayed: as it stands, except that a label with a compound condition
is moved to an atom of its own, which a rule in front of the label derives from the condition. So
the rules of a replay are those of the statements and the definitions of the atoms that labels were
moved to.
-/

namespace StablePlan

/-- Neither empty nor one positive literal. -/
def IsCompound (condition : List Literal) : Prop :=
  condition ≠ [] ∧ ∀ l, condition = [l] → ¬l.isPositive

theorem Reasoner.plainAtom?_cases (condition : List Literal) :
    (plainAtom? condition = some 0 ∧ condition = []) ∨
      (∃ l : Literal, plainAtom? condition = some l.atom ∧ condition = [l] ∧ l.isPositive) ∨
      (plainAtom? condition = none ∧ IsCompound condition) := by
  rcases condition with _ | ⟨l, _ | ⟨k, ls⟩⟩
  · exact Or.inl ⟨rfl, rfl⟩
  · by_cases hl : l.isPositive
    · exact Or.inr (Or.inl ⟨l, if_pos hl, rfl, hl⟩)
    · refine Or.inr (Or.inr ⟨if_neg hl, by simp, fun k hk => ?_⟩)
      rwa [← (List.cons.inj hk).1]
  · exact Or.inr (Or.inr ⟨rfl, by simp, fun k hk => by simp at hk⟩)

/-- The events that statements are replayed as, and the definitions of the atoms that labels are
moved to. -/
inductive Unfolds : List Statement → List Observation → List Definition → Prop
  | nil : Unfolds [] [] []
  | rule (rule : Rule) {statements log ds} : Unfolds statements log ds →
      Unfolds (.rule rule :: statements) (.rule rule :: log) ds
  | weightRule (rule : WeightRule) {statements log ds} : Unfolds statements log ds →
      Unfolds (.weightRule rule :: statements) (.weightRule rule :: log) ds
  | external (atom : Nat) (value : ExternalValue) {statements log ds} :
      Unfolds statements log ds →
      Unfolds (.external atom value :: statements) (.external atom value :: log) ds
  | fact (symbol : Symbol) {statements log ds} : Unfolds statements log ds →
      Unfolds (.output symbol [] :: statements) (.label symbol 0 :: log) ds
  | plain (symbol : Symbol) {l : Literal} {statements log ds} : l.isPositive →
      Unfolds statements log ds →
      Unfolds (.output symbol [l] :: statements) (.label symbol l.atom :: log) ds
  | compound (symbol : Symbol) {condition : List Literal} (atom : Nat) {statements log ds} :
      IsCompound condition → Unfolds statements log ds →
      Unfolds (.output symbol condition :: statements)
        (.rule ⟨false, [atom], condition⟩ :: .label symbol atom :: log) (⟨atom, condition⟩ :: ds)

/-- The rule of a statement, with its head as it stands. -/
def Statement.rule? : Statement → Option Clause
  | .rule r => some r.clause
  | .weightRule r => some r.clause
  | _ => none

namespace Unfolds

variable {statements statements' : List Statement} {log log' : List Observation}
  {ds ds' : List Definition}

theorem append (h : Unfolds statements log ds) (h' : Unfolds statements' log' ds') :
    Unfolds (statements ++ statements') (log ++ log') (ds ++ ds') := by
  induction h with
  | nil => exact h'
  | rule r _ ih => exact ih.rule r
  | weightRule r _ ih => exact ih.weightRule r
  | external atom value _ ih => exact ih.external atom value
  | fact symbol _ ih => exact ih.fact symbol
  | plain symbol hl _ ih => exact ih.plain symbol hl
  | compound symbol atom hc _ ih => exact ih.compound symbol atom hc

theorem exists_rule_iff (h : Unfolds statements log ds) {c : Clause} :
    (∃ o ∈ log, c ∈ o.rule?) ↔ (∃ s ∈ statements, c ∈ s.rule?) ∨ ∃ d ∈ ds, c = d.clause := by
  induction h with
  | nil => simp
  | @compound symbol condition atom _ _ _ _ _ ih =>
      have hrule : c ∈ Observation.rule? (.rule ⟨false, [atom], condition⟩) ↔
          c = Definition.clause ⟨atom, condition⟩ := Option.mem_some_iff.trans eq_comm
      have hlabel : c ∉ Observation.rule? (.label symbol atom) := Option.not_mem_none c
      have houtput : c ∉ Statement.rule? (.output symbol condition) := Option.not_mem_none c
      simp only [List.exists_mem_cons_iff, hrule, hlabel, houtput, ih, false_or, or_left_comm]
  | rule r _ ih | weightRule r _ ih | external atom value _ ih | fact symbol _ ih
  | plain symbol hl _ ih =>
      rw [List.exists_mem_cons_iff, List.exists_mem_cons_iff, ih]
      exact or_assoc.symm

/-- A label is moved with its condition. -/
theorem exists_output (h : Unfolds statements log ds) :
    ∀ d ∈ ds, ∃ symbol, Statement.output symbol d.condition ∈ statements := by
  induction h with
  | nil => simp
  | compound symbol atom hc _ ih =>
      refine List.forall_mem_cons.mpr ⟨⟨symbol, List.mem_cons_self⟩, fun d hd => ?_⟩
      exact (ih d hd).imp fun _ => List.mem_cons_of_mem _
  | rule r _ ih | weightRule r _ ih | external atom value _ ih | fact symbol _ ih
  | plain symbol hl _ ih => exact fun d hd => (ih d hd).imp fun _ => List.mem_cons_of_mem _

end Unfolds

end StablePlan
