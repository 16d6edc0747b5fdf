import StablePlan.Proofs.Lengths.Strategy
import StablePlan.Proofs.Plan.Search

/-!
Shortest plans. A search without limits and without a check refutes the candidates in ascending
order until one has a plan, each of them over no more steps than it takes. So it finds the first
candidate that has a plan and gives up only if there is none; apart from that it can only fail, at
a candidate whose steps do not fit.
-/

namespace StablePlan

/-! ### Refuting one candidate after the other -/

namespace Strategy

variable {s : Strategy} {plans : Nat → Prop} {d : Dialogue} {length i : Nat}

/-- A talk in which there was no plan for anything that was tried. -/
structure Refutes (s : Strategy) (plans : Nat → Prop) (d : Dialogue) : Prop where
  tracks : s.Tracks d
  unsatisfiable : ∀ t ∈ d.trials, t.outcome = .unsatisfiable
  refuted : ∀ l, Refuted d.trials l → ¬plans l

theorem Fresh.refutes (h : s.Fresh) (plans : Nat → Prop) : s.Refutes plans (.start s) :=
  ⟨h.tracks, by simp [Dialogue.start], fun _ hl => absurd hl not_refuted_nil⟩

theorem Refutes.tell (h : s.Refutes plans d) (hlength : d.proposal = some length)
    (hno : ¬plans length) : s.Refutes plans (d.tell .unsatisfiable) := by
  obtain ⟨key, htrials⟩ := h.tracks.exists_trial hlength .unsatisfiable
  refine ⟨h.tracks.tell (by simp [hlength]) (by simp), fun t ht => ?_, fun l hl => ?_⟩
  · rw [htrials, List.mem_append, List.mem_singleton] at ht
    rcases ht with ht | rfl
    · exact h.unsatisfiable t ht
    · rfl
  · rw [htrials, refuted_concat] at hl
    rcases hl with hl | ⟨rfl, -⟩
    · exact h.refuted l hl
    · exact hno

/-- There is no plan for the candidates before the one that is proposed. -/
theorem Refutes.exists_candidate (h : s.Refutes plans d) (hfresh : s.Fresh)
    (hlength : d.proposal = some length) :
    ∃ i, s.candidate i = length ∧ length ≤ s.limit ∧ ∀ j < i, ¬plans (s.candidate j) := by
  classical
  obtain ⟨hlimit, hcandidate⟩ := h.tracks.proposal hlength
  refine ⟨Nat.find hcandidate, Nat.find_spec hcandidate, hlimit, fun j hj => ?_⟩
  have hle : s.candidate j ≤ length :=
    Nat.find_spec hcandidate ▸ hfresh.candidate_mono hj.le
  -- Of the equal candidates it is the first one, so those before it are really shorter.
  have hlt := hle.lt_of_ne (Nat.find_min hcandidate hj)
  exact h.refuted _ (h.tracks.refuted_of_shorter h.unsatisfiable hlength hlt)

theorem Refutes.not_plans_of_none (h : s.Refutes plans d) (hnone : d.proposal = none)
    (hlimit : s.candidate i ≤ s.limit) : ¬plans (s.candidate i) :=
  h.refuted _ (h.tracks.refuted_of_none h.unsatisfiable hnone hlimit)

end Strategy

theorem Settings.fresh_strategy {settings : Settings} (h : settings.start ≤ maxLength) :
    settings.strategy.Fresh := by
  unfold strategy
  cases settings.algorithm with
  | linear size => exact .queue h
  | effort gamma => exact .pool
  | geometric ratio => exact .queue h

theorem Settings.limit_strategy (settings : Settings) :
    settings.strategy.limit = settings.limit := by
  unfold strategy
  cases settings.algorithm with
  | linear size => rfl
  | effort gamma => rfl
  | geometric ratio => rfl

/-! ### Plans over the fewest steps -/

/-- There is a plan of the length over no more steps than it takes. -/
def HasPlan (log : List Observation) (t : Template) (query skip : Symbol) (length : Nat) : Prop :=
  ∃ S, IsPlan log t query skip (max length 1) length S

theorem Compiled.hasPlan_iff {log : List Observation} {d : Draft} {b : Bands} {t : Template}
    {query skip : Symbol} {q length : Nat} (h : Compiled log d b t)
    (hexact : (Draft.scopeOf log).exact) (hq : t.external? query = some q)
    (hone : t.external? skip = none → 1 ≤ length) :
    HasPlan log t query skip length ↔
      ∃ X, t.Steered log q (t.external? skip) (max length 1) length X := by
  constructor
  · rintro ⟨S, hS⟩
    exact ⟨_, h.steered_of_isPlan hexact hq hS⟩
  · rintro ⟨X, hX⟩
    refine ⟨_, h.isPlan_of_steered hexact hq hX (le_max_left _ _) ?_⟩
    unfold Template.goal
    split
    · exact le_max_right _ _
    · rename_i hnone
      exact hone (by simpa using hnone)

namespace Planner

variable {κ : Type} {p p' p₀ : Planner Reasoner κ} {t : Template} {log : List Observation}
  {d : Draft} {b : Bands} {query skip : Symbol} {length : Nat} {outcome : Option Outcome}

theorem usable_mono (p : Planner Reasoner κ) : Monotone p.usable := by
  intro l l' hle
  unfold usable
  cases p.skip.isNone with
  | false => simpa using hle
  | true =>
      simp only [Bool.and_true, decide_eq_true_eq]
      split_ifs <;> omega

/-- A search in which there was no plan for anything that was tried, and that grounded no more than
it had to for that. -/
structure Seeks (p₀ : Planner Reasoner κ) (t : Template) (log : List Observation)
    (query skip : Symbol) (outcome : Option Outcome) (p : Planner Reasoner κ) : Prop where
  unlimited : p.Unlimited t query skip
  usable : p.usable = p₀.usable
  refutes : ∃ trials, p₀.strategy.Refutes (fun l => HasPlan log t query skip (p₀.usable l))
      ⟨(p.strategy.next outcome).1, (p.strategy.next outcome).2, trials⟩ ∧
    (p.steps = 0 ∨ ∃ l, Refuted trials l ∧ p.steps = max (p₀.usable l) 1)

/-- There is no plan for the candidates before the one that is proposed. -/
theorem Seeks.exists_candidate (h : p₀.Seeks t log query skip outcome p)
    (hfresh : p₀.strategy.Fresh) (hlength : (p.propose outcome).1 = some length) :
    ∃ i, p₀.strategy.candidate i = length ∧ length ≤ p₀.strategy.limit ∧
      ∀ j < i, ¬HasPlan log t query skip (p₀.usable (p₀.strategy.candidate j)) := by
  obtain ⟨trials, hrefutes, -⟩ := h.refutes
  obtain ⟨journal, hpropose⟩ := p.propose_eq outcome
  rw [hpropose] at hlength
  exact hrefutes.exists_candidate hfresh hlength

theorem Seeks.not_hasPlan_of_none (h : p₀.Seeks t log query skip outcome p)
    (hnone : (p.propose outcome).1 = none) {i : Nat}
    (hi : p₀.strategy.candidate i ≤ p₀.strategy.limit) :
    ¬HasPlan log t query skip (p₀.usable (p₀.strategy.candidate i)) := by
  obtain ⟨trials, hrefutes, -⟩ := h.refutes
  obtain ⟨journal, hpropose⟩ := p.propose_eq outcome
  rw [hpropose] at hnone
  exact hrefutes.not_plans_of_none hnone hi

variable [ModelCheck κ]

/-- Over no more steps than the length takes, an attempt decides whether there is a plan. -/
theorem Unlimited.ends_attempt (h : p.Unlimited t query skip) (hc : Compiled log d b t)
    (hexact : (Draft.scopeOf log).exact) (hsteps : p.steps ≤ max (p.usable length) 1) :
    Ends (p.attempt length)
      (fun attempt p' => attempt.length = p.usable length ∧
        p'.steps = max (p.usable length) 1 ∧
        Keeps (Reasoner.ledger .unlimited) t p'.steps ∅ p p' ∅ ∧
        ((∃ answer, attempt.outcome = .satisfiable ∧ attempt.answer = some answer ∧
            HasPlan log t query skip (p.usable length)) ∨
          attempt.outcome = .unsatisfiable ∧ ¬HasPlan log t query skip (p.usable length)))
      fun e _ => e = .unroll (.atomOverflow (max (p.usable length) 1)) ∧
        ¬t.fits (max (p.usable length) 1) := by
  have hfit := hc.hasFittingWeights hexact
  refine (h.decides hc.laid hfit length).mono ?_ fun e p' hfails => hfails.2
  rintro attempt p' ⟨hlength, hgrounded, hkeeps, hdecided⟩
  have hneeded : p.needed length = max (p.usable length) 1 := Nat.max_eq_right hsteps
  have hsteps' : p'.steps = max (p.usable length) 1 := hgrounded.trans hneeded
  have hone : t.external? skip = none → 1 ≤ p.usable length :=
    fun hnone => one_le_usable length (h.skip.trans hnone)
  have hfits : t.fits (max (p.usable length) 1) := hsteps' ▸ hkeeps.steers.fits (by omega)
  have hplan := hc.hasPlan_iff hexact h.query hone
  simp only [← h.skip, hc.steered_iff hexact hfits] at hplan
  rw [hneeded] at hdecided
  refine ⟨hlength, hsteps', hkeeps, hdecided.imp ?_ ?_⟩
  · rintro ⟨answer, hsatisfiable, hanswer, hX⟩
    exact ⟨answer, hsatisfiable, hanswer, hplan.mpr hX⟩
  · exact fun ⟨hunsatisfiable, hno⟩ => ⟨hunsatisfiable, mt hplan.mp hno⟩

theorem Seeks.ends_visit (h : p₀.Seeks t log query skip outcome p) (hc : Compiled log d b t)
    (hexact : (Draft.scopeOf log).exact) (hlength : (p.propose outcome).1 = some length) :
    Ends ((p.propose outcome).2.visit length)
      (fun attempt p' => attempt.length = p₀.usable length ∧
        p'.tally.iterations = p.tally.iterations + 1 ∧
        ((∃ answer, attempt.outcome = .satisfiable ∧ attempt.answer = some answer ∧
            HasPlan log t query skip (p₀.usable length)) ∨
          attempt.outcome = .unsatisfiable ∧ p₀.Seeks t log query skip (some .unsatisfiable) p'))
      fun e _ => e = .unroll (.atomOverflow (max (p₀.usable length) 1)) ∧
        ¬t.fits (max (p₀.usable length) 1) := by
  obtain ⟨trials, hrefutes, hgrounded⟩ := h.refutes
  obtain ⟨journal, hpropose⟩ := p.propose_eq outcome
  rw [hpropose] at hlength ⊢
  -- What was refuted is not longer than the length, so no step beyond it is grounded and the
  -- attempt is not about plans that go on after it.
  have hsteps : p.steps ≤ max (p₀.usable length) 1 := by
    rcases hgrounded with hzero | ⟨l, hl, heq⟩
    · omega
    · have hle := hrefutes.tracks.le_of_refuted hrefutes.unsatisfiable hlength hl
      exact heq.trans_le (max_le_max_right 1 (p₀.usable_mono hle))
  unfold visit
  set q := announce { p with journal, strategy := (p.strategy.next outcome).2 } length
  have hq : q.Unlimited t query skip := h.unlimited.congr rfl rfl rfl rfl rfl rfl rfl
  have husable : q.usable = p₀.usable := h.usable
  have hattempt := hq.ends_attempt hc hexact (husable ▸ hsteps)
  rw [husable] at hattempt
  generalize q.attempt length = x at hattempt ⊢
  cases x with
  | error result => exact hattempt
  | ok result =>
      obtain ⟨attempt, p₁⟩ := result
      obtain ⟨hlength', hsteps', hkeeps, houtcome⟩ := hattempt
      refine ⟨hlength', hkeeps.continues.iterations, ?_⟩
      refine houtcome.imp_right fun ⟨hunsatisfiable, hno⟩ => ⟨hunsatisfiable, ?_, ?_, ?_⟩
      · exact (hq.keeps hkeeps).congr rfl rfl rfl rfl rfl rfl rfl
      · exact (usable_congr hkeeps.continues.skip).trans husable
      · refine ⟨_, ?_, Or.inr ⟨length, hrefutes.tracks.refuted_tell hlength, hsteps'⟩⟩
        change Strategy.Refutes _ _ ⟨(p₁.strategy.next _).1, (p₁.strategy.next _).2, _⟩
        rw [hkeeps.continues.strategy]
        exact hrefutes.tell hlength hno

end Planner

/-! ### A goal out of reach -/

/-- A program in which the query never holds. -/
def stuckProgram : List Statement := [
  .external 1 .free, .output (.constant "query") [.positive 1],
  .rule ⟨false, [], [.positive 1]⟩]

def stuckReasoner : Reasoner := (Call.load stuckProgram).after (.empty .unlimited)

/-- The longest length there is, and no other. -/
def longestSettings : Settings := { algorithm := .linear 1, start := maxLength, limit := maxLength }

/-- The call fails with the error. -/
def Planner.failsWith {α κ : Type} (e : PlanError) :
    Except (Failure Reasoner κ) (α × Planner Reasoner κ) → Bool
  | .error (e', _) => e' = e
  | .ok _ => false

/-- What a search without limits and without a check starts from, whatever the weights come to. -/
structure Searches (program : List Statement) (settings : Settings) (r : Reasoner) (t : Template)
    (p : Planner Reasoner Script) : Prop where
  load : (Reasoner.empty .unlimited).load program = .ok r
  nonneg : ∀ s ∈ program, s.HasNonnegWeights
  step : DescribesStep r.replay.toList
  compile : r.compile = .ok t
  differ : settings.query ≠ settings.skip
  start : settings.start ≤ maxLength
  memory : settings.memoryLimit = none
  make : Planner.make t (Reasoner.empty .unlimited) [] settings none = .ok p

end StablePlan
