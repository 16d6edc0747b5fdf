import StablePlan.Proofs.Plan.Search
import StablePlan.Proofs.Transition.Confluence

/-!
Records as an index of the rules. Support is judged from the records of an atom, and the rules to
look at are found in them, so they have to be what a count of all rules would give. They are so
whenever an atom is taken from a queue, whatever was run before, as long as no run failed. Between
two atoms they need not be: the records of a decided atom go first, and its rules one by one.
-/

namespace StablePlan

open Ascending

/-! ### Counting -/

namespace Draft

variable {d : Draft} {log : List Observation} {a i : Nat} {role : Role}

/-- The numbers of the live rules that satisfy a condition. -/
def rulesWhere (d : Draft) (p : Rule → Bool) : List Nat :=
  (List.range d.rules.size).filter fun i => (d.rule? i).any p

def weightRulesWhere (d : Draft) (p : WeightRule → Bool) : List Nat :=
  (List.range d.weightRules.size).filter fun i => (d.weightRule? i).any p

/-- The live rules in which an atom is found, when all are searched for it. -/
def census (d : Draft) (a : Nat) : Occurrences where
  heads := d.rulesWhere fun r => r.head.contains a
  positive := d.rulesWhere fun r => r.body.any fun l => l.atom == a && l.isPositive
  negative := d.rulesWhere fun r => r.body.any fun l => l.atom == a && !l.isPositive
  weightHeads := d.weightRulesWhere fun r => r.head.contains a
  weightedPositive := d.weightRulesWhere fun r =>
    r.body.any fun e => e.1.atom == a && e.1.isPositive
  weightedNegative := d.weightRulesWhere fun r =>
    r.body.any fun e => e.1.atom == a && !e.1.isPositive

/-- The records are those of a census, and a decided atom has none: no rule mentions it, or needs an
atom false that is cautious. -/
structure HasTrueRecords (d : Draft) : Prop where
  records : ∀ a, d.occurrences a = d.census a
  decided : ∀ a, Fitting.isDecided d a = true → d.occurrences a = {}
  rules : ∀ r ∈ d.liveRules, Fitting.isStale d r.head r.body = false
  weightRules : ∀ r ∈ d.liveWeightRules,
    Fitting.isStale d r.head (r.body.map Prod.fst) = false

theorem isAscending_rulesWhere (d : Draft) (p : Rule → Bool) : IsAscending (d.rulesWhere p) := by
  simp only [IsAscending, Nat.compare_eq_lt]
  exact List.Pairwise.filter _ List.pairwise_lt_range

theorem isAscending_weightRulesWhere (d : Draft) (p : WeightRule → Bool) :
    IsAscending (d.weightRulesWhere p) := by
  simp only [IsAscending, Nat.compare_eq_lt]
  exact List.Pairwise.filter _ List.pairwise_lt_range

theorem mem_rulesWhere {p : Rule → Bool} :
    i ∈ d.rulesWhere p ↔ ∃ r, d.rule? i = some r ∧ p r = true := by
  simp only [rulesWhere, List.mem_filter, List.mem_range, Option.any_eq_true]
  exact and_iff_right_of_imp fun ⟨r, hr, _⟩ => lt_of_rule? hr

theorem mem_weightRulesWhere {p : WeightRule → Bool} :
    i ∈ d.weightRulesWhere p ↔ ∃ r, d.weightRule? i = some r ∧ p r = true := by
  simp only [weightRulesWhere, List.mem_filter, List.mem_range, Option.any_eq_true]
  exact and_iff_right_of_imp fun ⟨r, hr, _⟩ => lt_of_weightRule? hr

theorem isAscending_census (d : Draft) (a : Nat) (role : Role) :
    IsAscending ((d.census a).of role) := by
  cases role with
  | head | positive | negative => exact isAscending_rulesWhere d _
  | weightHead | weightedPositive | weightedNegative => exact isAscending_weightRulesWhere d _

/-- A census finds an atom where it plays a role. -/
theorem mem_census : i ∈ (d.census a).of role ↔ d.Plays a role i := by
  have hrule : ∀ {r : Rule}, (a, role) ∈ r.parts ↔
      (role = .head ∧ a ∈ r.head) ∨ ∃ l ∈ r.body, l.atom = a ∧ l.role = role := by
    intro r
    simp [Rule.parts, eq_comm, and_comm]
  have hweightRule : ∀ {r : WeightRule}, (a, role) ∈ r.parts ↔
      (role = .weightHead ∧ a ∈ r.head) ∨ ∃ e ∈ r.body, e.1.atom = a ∧ e.1.weightRole = role := by
    intro r
    simp [WeightRule.parts, eq_comm, and_comm]
  have hrole : ∀ l : Literal, (l.role = .positive ↔ l.isPositive = true) ∧
      (l.role = .negative ↔ l.isPositive = false) ∧ l.role ≠ .head := by
    intro l
    cases h : l.isPositive <;> simp [Literal.role, h]
  have hweightRole : ∀ l : Literal, (l.weightRole = .weightedPositive ↔ l.isPositive = true) ∧
      (l.weightRole = .weightedNegative ↔ l.isPositive = false) ∧ l.weightRole ≠ .weightHead := by
    intro l
    cases h : l.isPositive <;> simp [Literal.weightRole, h]
  cases role <;>
    simp [Plays, Role.isWeighted, parts?, census, Occurrences.of, mem_rulesWhere,
      mem_weightRulesWhere, hrule, hweightRule, hrole, hweightRole]

end Draft

/-! ### Counting along a run -/

theorem Occurrences.ext_of {o o' : Occurrences} (h : ∀ role, o.of role = o'.of role) : o = o' := by
  obtain ⟨heads, positive, negative, weightHeads, weightedPositive, weightedNegative⟩ := o
  obtain rfl : heads = _ := h .head
  obtain rfl : positive = _ := h .positive
  obtain rfl : negative = _ := h .negative
  obtain rfl : weightHeads = _ := h .weightHead
  obtain rfl : weightedPositive = _ := h .weightedPositive
  obtain rfl : weightedNegative = _ := h .weightedNegative
  rfl

namespace Fitting

variable {f g : Fitting} {log : List Observation} {a : Nat}

/-- The records that mirror the rules are those of a census, since what is decided is in no rule. -/
theorem Tidy.occurrences_eq_census (h : f.Tidy log) (a : Nat) :
    f.draft.occurrences a = f.draft.census a := by
  refine Occurrences.ext_of fun role => ?_
  have hmem : ∀ i, i ∈ f.draft.record a role ↔ i ∈ (f.draft.census a).of role := fun i => by
    rw [h.mirrors.record, Draft.mem_census]
    exact and_iff_right_of_imp h.isTracked
  have hrecord := h.mirrors.ascending a role
  have hcensus := Draft.isAscending_census f.draft a role
  simp only [IsAscending, Nat.compare_eq_lt] at hrecord hcensus
  exact hrecord.eq_of_mem_iff hcensus fun {i} => hmem i

theorem Tidy.occurrences_of_isDecided (h : f.Tidy log) (ha : isDecided f.draft a = true) :
    f.draft.occurrences a = {} := by
  refine Occurrences.ext_of fun role => ?_
  rw [Occurrences.of_empty]
  refine List.eq_nil_iff_forall_not_mem.mpr fun i hi => ?_
  have htracked := ((h.mirrors.record a role i).mp hi).1
  unfold Draft.IsTracked at htracked
  rcases htracked with hnone | ⟨hcautious, -⟩
  · simp [isDecided, hnone] at ha
  · simp [isDecided, hcautious] at ha

theorem Tidy.hasTrueRecords (h : f.Tidy log) : f.draft.HasTrueRecords :=
  ⟨h.occurrences_eq_census, fun _ ha => h.occurrences_of_isDecided ha,
    fun _ hr => (h.rule_checked hr).1, fun _ hr => (h.weightRule_checked hr).1⟩

theorem Tidy.run (h : f.Tidy log) (hok : f.run = .ok g) : g.Tidy log := by
  unfold Fitting.run at hok
  split at hok
  · exact absurd hok (by simp)
  · exact h.runFor hok

theorem Tidy.ofDraft (h : f.Tidy log) : (ofDraft f.draft).Tidy log := by
  have hstart : Draft.Mirrors log 0 (fun _ _ => False)
      { f.draft with facts := [], falsified := [], cautious := [] } :=
    ⟨h.mirrors.record, h.mirrors.ascending, h.mirrors.tracked, h.mirrors.mentioned,
      h.mirrors.stems⟩
  have hqueues := queues_assumingAll ⟨∅, False⟩ log f.draft []
  exact hqueues.tidy ⟨hstart, ⟨h.trim.rules, h.trim.weightRules⟩⟩

/-- The fittings of what was observed, between calls: atoms are queued and runs succeed in any
order, and what a run leaves may be taken up as a draft of its own. -/
inductive Session (log : List Observation) : Fitting → Prop where
  | start : Session log (ofDraft (Draft.ofReplay log))
  | assume {f : Fitting} (c : Assumption) : Session log f → Session log (f.assume c)
  | run {f g : Fitting} : Session log f → f.run = .ok g → Session log g
  | restart {f : Fitting} : Session log f → Session log (ofDraft f.draft)

theorem Session.tidy (h : Session log f) : f.Tidy log := by
  induction h with
  | start => exact tidy_assumingAll (Draft.gathered_ofReplay log) []
  | assume c _ ih => exact (queues_assume (S := ⟨∅, False⟩) _ c).tidy ih
  | run _ hok ih => exact ih.run hok
  | restart _ ih => exact ih.ofDraft

/-- The records are true of what was observed, after every run that succeeds and whenever a run has
settled some atoms and takes the next one. -/
theorem hasTrueRecords_run (log : List Observation) : (Draft.ofReplay log).HasTrueRecords ∧
    ∀ f, Session log f → (∀ g, f.run = .ok g → g.draft.HasTrueRecords) ∧
      ∀ n g, f.runFor n = .ok g → g.draft.HasTrueRecords := by
  refine ⟨?_, fun f hf => ⟨fun g hok => (hf.tidy.run hok).hasTrueRecords, fun n g hok =>
    (hf.tidy.runFor hok).hasTrueRecords⟩⟩
  have hgathered := Draft.gathered_ofReplay log
  have htidy : Tidy log { draft := Draft.ofReplay log } := ⟨hgathered.mirrors, hgathered.trim⟩
  exact htidy.hasTrueRecords

/-- Atoms that are in head and body of one rule, or in a body with both signs, and a sum that
becomes a rule. -/
def tangledLog : List Observation :=
  [.rule ⟨false, [1, 2], [.positive 1, .negative 2, .positive 3]⟩,
    .rule ⟨true, [3, 5], [.positive 4, .negative 4, .negative 1]⟩, .rule ⟨false, [6], []⟩,
    .weightRule ⟨true, [1, 5], 2, [(.positive 6, 2), (.negative 6, 1), (.negative 1, 1)]⟩,
    .external 4 .free]

/-- The sum is stored as rule 2 once atom 6 is settled; it alone is left when more is assumed. -/
theorem hasTrueRecords_run_tangledLog : ∃ f g h,
    (ofDraft (Draft.ofReplay tangledLog)).runFor 1 = .ok f ∧ f.draft.HasTrueRecords ∧
      f.draft.occurrences 1 = { heads := [0, 2], positive := [0], negative := [1] } ∧
      (ofDraft (Draft.ofReplay tangledLog)).run = .ok g ∧
      ((g.assume (.never [2])).assume (.always [1])).run = .ok h ∧ h.draft.HasTrueRecords ∧
      h.draft.occurrences 1 = { heads := [2] } := by
  obtain ⟨f, hf, hfirst⟩ := exists_ok_of_any
    (x := (ofDraft (Draft.ofReplay tangledLog)).runFor 1)
    (f := fun f => f.draft.occurrences 1 = { heads := [0, 2], positive := [0], negative := [1] })
    (by decide +kernel)
  obtain ⟨g, hg, h⟩ := exists_ok_of_any (x := (ofDraft (Draft.ofReplay tangledLog)).run)
    (f := fun g => ((g.assume (.never [2])).assume (.always [1])).run.toOption.any fun h =>
      h.draft.occurrences 1 = { heads := [2] })
    (by decide +kernel)
  obtain ⟨h, hh, hlast⟩ := exists_ok_of_any h
  have hexact := (hasTrueRecords_run tangledLog).2
  exact ⟨f, g, h, hf, (hexact _ .start).2 1 f hf, of_decide_eq_true hfirst, hg, hh,
    (hexact _ (((Session.start.run hg).assume _).assume _)).1 h hh, of_decide_eq_true hlast⟩

end Fitting

end StablePlan
