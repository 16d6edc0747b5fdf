import StablePlan.Proofs.Stable.Record
import StablePlan.Proofs.Unrolling.Ledger
import StablePlan.Proofs.Unrolling.Stepping

/-!
Grounding into a reasoner. The rules of a template that stays within its bands can be moved to every
step that fits, and a reasoner takes them; so grounding succeeds and asserts the unrolled program.
-/

namespace StablePlan

/-- A reasoner that has what a log says and searches under a limit. -/
structure Reasoner.Logs (r : Reasoner) (limit : Limit) (log : List Observation) : Prop where
  represents : r.Represents log
  limit : r.limit = limit

/-- Adding the rule of an event adds the event to the log. -/
theorem Reasoner.Logs.add {r : Reasoner} {limit : Limit} {log : List Observation}
    (h : r.Logs limit log) {o : Observation} {c : Clause} (hrule : o.rule? = some c)
    (hatoms : 0 ∉ o.atoms) :
    ∃ r', (r.noteAtoms o.atoms).map (·.addClauses c.shifted) = .ok r' ∧
      r'.Logs limit (log ++ [o]) := by
  obtain ⟨noted, hnote⟩ := noteAtoms_ok hatoms r
  have hadd : (r.noteAtoms o.atoms).map (·.addClauses c.shifted) =
      .ok (noted.addClauses c.shifted) := by
    rw [hnote]
    rfl
  refine ⟨_, hadd, (h.represents.addNoted hrule hadd).1, ?_⟩
  exact (congrArg Reasoner.limit (grown_noteAtoms hnote).1.eq).trans h.limit

/-- The log of a reasoner. To solve does not change it. -/
def Reasoner.ledger (limit : Limit) : Ledger Reasoner where
  Logs r log := r.Logs limit log
  Asks _ := True
  addRule {r log rule} h hzero := by
    have hatoms : 0 ∉ (Observation.rule rule).atoms := by
      simpa [Observation.atoms, Clause.atoms, Rule.clause] using hzero
    obtain ⟨r', hadd, hr'⟩ := h.add (o := .rule rule) rfl hatoms
    exact ⟨r', (addRule_eq r rule).trans hadd, hr'⟩
  addWeightRule {r log rule} h hzero := by
    have hatoms : 0 ∉ (Observation.weightRule rule).atoms := by
      simpa [Observation.atoms, Clause.atoms, WeightRule.clause] using hzero
    obtain ⟨r', hadd, hr'⟩ := h.add (o := .weightRule rule) rfl hatoms
    exact ⟨r', (addWeightRule_eq r rule).trans hadd, hr'⟩
  solve h _ := h

namespace Unrolling

variable {r : Reasoner} {u : Unrolling} {limit : Limit} {log : List Observation}

/-- The initial state is told once. -/
theorem start_eq_ok (h : r.Logs limit log) (hbands : u.template.Banded)
    (hstarted : u.started = false) :
    ∃ r', u.start r = .ok ({ u with started := true }, r') ∧
      r'.Logs limit (log ++ u.template.startEvents) :=
  Ledger.start_eq_ok (K := Reasoner.ledger limit) h hbands hstarted

/-- Grounding goes on where the last grounding ended, if the last step fits. -/
theorem ground_eq_ok (h : r.Logs limit log) (hbands : u.template.Banded) {last : Nat}
    (hfits : u.template.fits last) :
    ∃ r', u.ground r (u.steps + 1) last = .ok (u.groundedTo last, r') ∧
      r'.Logs limit (log ++ u.nextEvents last) :=
  Ledger.ground_eq_ok (K := Reasoner.ledger limit) h hbands hfits

end Unrolling

/-- The layout of a program that compiles. -/
theorem Reasoner.exists_lays {limit : Limit} {program : List Statement} {r : Reasoner}
    {t : Template} (hload : (Reasoner.empty limit).load program = .ok r)
    (hw : ∀ s ∈ program, s.HasNonnegWeights) (hcompile : r.compile = .ok t) :
    ∃ d b, d.Remains r.replay.toList ∧ Bands.Lays d b ∧ b.template = .ok t := by
  obtain ⟨hr, hfrom⟩ := represents_of_load hload
  have hweights : ∀ o ∈ r.replay.toList, o.HasNonnegWeights := by
    intro o ho
    cases o with
    | weightRule rule => exact hw _ (hfrom rule ho)
    | rule _ | external _ _ | label _ _ => trivial
  obtain ⟨d, hd, hlayOut⟩ := hr.remains_of_compile hweights rfl hcompile
  obtain ⟨b, hlays, ht⟩ := Draft.exists_lays_of_layOut hlayOut
  exact ⟨d, b, hd, hlays, ht⟩

/-- Sums are exact in what a program is replayed as if they are in the program. -/
theorem Reasoner.exact_of_load {limit : Limit} {program : List Statement} {r : Reasoner}
    (hload : (Reasoner.empty limit).load program = .ok r)
    (hw : ∀ s ∈ program, s.HasFittingWeights) : (Draft.scopeOf r.replay.toList).exact := by
  intro o ho
  cases o with
  | weightRule rule => exact hw _ ((represents_of_load hload).2 rule ho)
  | rule _ | external _ _ | label _ _ => trivial

/-- A program that describes a step and compiles. -/
theorem Reasoner.exists_compiled {limit : Limit} {program : List Statement} {r : Reasoner}
    {t : Template} (hload : (Reasoner.empty limit).load program = .ok r)
    (hw : ∀ s ∈ program, s.HasNonnegWeights) (hstep : DescribesStep r.replay.toList)
    (hcompile : r.compile = .ok t) : ∃ d b, Compiled r.replay.toList d b t := by
  obtain ⟨d, b, hd, hlays, ht⟩ := exists_lays hload hw hcompile
  exact ⟨d, b, hstep, hd, hlays, ht⟩

namespace Unrolling

variable {t : Template} {r : Reasoner} {n : Nat} {M : Set Nat}

/-- What has been told up to a step is the unrolled program. -/
theorem exists_clause_iff {c : Clause} :
    (∃ o ∈ t.startEvents ++ (List.range' 1 n).flatMap t.eventsAt, c ∈ o.clauses) ↔
      c ∈ (t.unrolled n).clauses := by
  unfold Template.unrolled
  simp only [List.mem_append, or_and_right, exists_or, Template.exists_clause_startEvents,
    Set.mem_ofPred_eq]
  refine or_congr_right ?_
  simp only [List.mem_flatMap, List.mem_range'_1, ← Template.exists_clause_eventsAt]
  constructor
  · rintro ⟨o, ⟨s, hs, ho⟩, hc⟩
    exact ⟨s, hs.1, by omega, o, ho, hc⟩
  · rintro ⟨s, hs, hn, o, ho, hc⟩
    exact ⟨o, ⟨s, by omega, ho⟩, hc⟩

end Unrolling

/-! ### A lamp -/

/-- A lamp that is lit once the power, which is a fact, was there, and then stays lit. A step that
is skipped does not light it. -/
def lampProgram : List Statement := [
  .external 1 .free, .output (.constant "lit\x27") [.positive 1],
  .external 2 .free, .output (.constant "on\x27") [.positive 2],
  .external 3 .free, .output (.constant "query") [.positive 3],
  .external 4 .free, .output (.constant "skip") [.positive 4],
  .output (.constant "on") [], .output (.function "init" [.constant "on"]) [],
  .rule ⟨true, [5], [.positive 2, .negative 4]⟩, .rule ⟨false, [5], [.positive 1]⟩,
  .output (.constant "lit") [.positive 5], .rule ⟨false, [], [.positive 3, .negative 5]⟩]

def lampReasoner : Reasoner := match (Reasoner.empty .unlimited).load lampProgram with
  | .ok r => r
  | .error (_, r) => r

/-- What the replay of the lamp shows. -/
def lampLog : List Observation := [
  .external 1 .free, .label (.constant "lit\x27") 1,
  .external 2 .free, .label (.constant "on\x27") 2,
  .external 3 .free, .label (.constant "query") 3,
  .external 4 .free, .label (.constant "skip") 4,
  .label (.constant "on") 0, .label (.function "init" [.constant "on"]) 0,
  .rule ⟨true, [5], [.positive 2, .negative 4]⟩, .rule ⟨false, [5], [.positive 1]⟩,
  .label (.constant "lit") 5, .rule ⟨false, [], [.positive 3, .negative 5]⟩]

theorem load_lampProgram : (Reasoner.empty .unlimited).load lampProgram = .ok lampReasoner := rfl

theorem replay_lampReasoner : lampReasoner.replay.toList = lampLog := rfl

theorem describesStep_lampLog : DescribesStep lampLog := by
  have hgiven : ∀ a ∈ (theoryOf lampLog).given, a = 1 ∨ a = 2 ∨ a = 3 ∨ a = 4 := by
    rintro a ⟨value, hmem, -⟩
    simp [lampLog] at hmem
    tauto
  have hheads : ∀ a ∈ headsOf lampLog, a = 5 := by
    rintro a ⟨o, ho, c, hc, ha⟩
    have hall : ∀ o ∈ lampLog, ∀ c ∈ o.rule?, ∀ a ∈ c.head, a = 5 := by decide
    exact hall o ho c hc a ha
  refine ⟨fun a ha => ?_, fun a ha b hb symbol hla hlb => ?_, fun a ha symbol _ _ hhead => ?_⟩
  · rcases hgiven a ha with rfl | rfl | rfl | rfl
    · exact ⟨.constant "lit\x27", by simp [lampLog], fun y hy => by simpa [lampLog] using hy⟩
    · exact ⟨.constant "on\x27", by simp [lampLog], fun y hy => by simpa [lampLog] using hy⟩
    · exact ⟨.constant "query", by simp [lampLog], fun y hy => by simpa [lampLog] using hy⟩
    · exact ⟨.constant "skip", by simp [lampLog], fun y hy => by simpa [lampLog] using hy⟩
  · have hall : ∀ x ∈ labelsOf lampLog, ∀ y ∈ labelsOf lampLog,
        x.2 ≠ 0 → x.1 = y.1 → x.2 = y.2 := by
      decide +kernel
    have hne : a ≠ 0 := by
      rcases hgiven a ha with rfl | rfl | rfl | rfl <;> simp
    exact hall _ (mem_labelsOf.mpr hla) _ (mem_labelsOf.mpr hlb) hne rfl
  · have := hheads a hhead
    have := hgiven a ha
    omega

namespace Unrolling

end Unrolling

end StablePlan
