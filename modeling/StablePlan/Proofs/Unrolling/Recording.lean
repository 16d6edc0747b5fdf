import StablePlan.Proofs.Unrolling.Grounding

/-!
Recording what a backend is told. A transcript in front of a backend that takes rules keeps account
of them, whatever the backend answers, and of the assumptions of every solve call.
-/

namespace StablePlan

/-- A backend that takes every rule without the reserved atom. How it answers is left open. -/
structure TakesRules (β : Type) [Backend β] : Prop where
  rule : ∀ (b : β) (rule : Rule), 0 ∉ rule.clause.atoms → ∃ b', Backend.addRule b rule = .ok b'
  weightRule : ∀ (b : β) (rule : WeightRule), 0 ∉ rule.clause.atoms →
    ∃ b', Backend.addWeightRule b rule = .ok b'

theorem Reasoner.takesRules : TakesRules Reasoner where
  rule r rule hzero := by
    have hatoms : 0 ∉ (Observation.rule rule).atoms := by
      simpa [Observation.atoms, Clause.atoms, Rule.clause] using hzero
    obtain ⟨noted, hnote⟩ := noteAtoms_ok hatoms r
    exact ⟨_, (addRule_eq r rule).trans (congrArg (Except.map _) hnote)⟩
  weightRule r rule hzero := by
    have hatoms : 0 ∉ (Observation.weightRule rule).atoms := by
      simpa [Observation.atoms, Clause.atoms, WeightRule.clause] using hzero
    obtain ⟨noted, hnote⟩ := noteAtoms_ok hatoms r
    exact ⟨_, (addWeightRule_eq r rule).trans (congrArg (Except.map _) hnote)⟩

/-- The rule in a message, if there is one. -/
def Message.told? : Message → Option Observation
  | .rule r => some (.rule r)
  | .weightRule r => some (.weightRule r)
  | .solve _ => none

namespace Transcript

variable {β : Type} {b : β} {old new : Array Message} {asks : List Literal → Prop}
  {log : List Observation} {tr : Transcript β}

/-- Since the old messages the backend was asked under such assumptions only, and altogether it was
told the log. -/
structure Logs (old : Array Message) (asks : List Literal → Prop) (tr : Transcript β)
    (log : List Observation) : Prop where
  grown : ∃ new, tr.messages = old ++ new ∧ ∀ assumptions, .solve assumptions ∈ new →
    asks assumptions
  told : tr.messages.toList.filterMap Message.told? = log

/-- One more message. -/
theorem Logs.add (h : tr.Logs old asks log) (message : Message)
    (hasks : ∀ assumptions, message = .solve assumptions → asks assumptions) (b : β) :
    (tr.add message b).Logs old asks (log ++ message.told?.toList) := by
  obtain ⟨⟨new, hnew, hall⟩, rfl⟩ := h
  refine ⟨⟨new.push message, ?_, fun assumptions hmem => ?_⟩, ?_⟩
  · show tr.messages.push message = _
    rw [hnew, Array.append_push]
  · rcases Array.mem_push.mp hmem with hmem | heq
    · exact hall assumptions hmem
    · exact hasks assumptions heq.symm
  · show (tr.messages.push message).toList.filterMap Message.told? = _
    rw [Array.toList_push, List.filterMap_append]
    cases message <;> rfl

theorem Logs.start {backend : β} : Logs old asks ⟨backend, old⟩
    (old.toList.filterMap Message.told?) :=
  ⟨⟨#[], by simp, by simp⟩, rfl⟩

/-- The account that a transcript keeps. -/
def ledger [Backend β] (htakes : TakesRules β) (old : Array Message)
    (asks : List Literal → Prop) : Ledger (Transcript β) where
  Logs := Logs old asks
  Asks := asks
  addRule {tr log rule} h hzero := by
    obtain ⟨b, hadd⟩ := htakes.rule tr.backend rule hzero
    refine ⟨tr.add (.rule rule) b, ?_, h.add (.rule rule) nofun b⟩
    show tr.after (.rule rule) (Backend.addRule tr.backend rule) = _
    rw [hadd]
    rfl
  addWeightRule {tr log rule} h hzero := by
    obtain ⟨b, hadd⟩ := htakes.weightRule tr.backend rule hzero
    refine ⟨tr.add (.weightRule rule) b, ?_, h.add (.weightRule rule) nofun b⟩
    show tr.after (.weightRule rule) (Backend.addWeightRule tr.backend rule) = _
    rw [hadd]
    rfl
  solve {tr log assumptions} h hasks := by
    have hlogs := h.add (.solve assumptions) (fun _ heq => Message.solve.inj heq ▸ hasks)
      (Backend.solve tr.backend assumptions).2
    rw [Message.told?, Option.toList_none, List.append_nil] at hlogs
    exact hlogs

end Transcript

end StablePlan
