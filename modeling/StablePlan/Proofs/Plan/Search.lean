import StablePlan.Proofs.Plan.Plans

/-!
Searches. Whatever calls a planner has seen, and however they ended, its switches are set as they
have to be between attempts; so what a search finds is a plan.
-/

namespace StablePlan

namespace Planner

variable {κ : Type} {p p' : Planner Reasoner κ} {t : Template} {limit : Limit}
  {log : List Observation} {d : Draft} {b : Bands} {query n length : Nat} {skip : Option Nat}

/-- A planner between attempts. -/
structure Rests (p : Planner Reasoner κ) (t : Template) (limit : Limit) (query : Nat)
    (skip : Option Nat) : Prop where
  steers : p.Steers t p.steps
  told : ∃ blocked, p.Told (Reasoner.ledger limit) blocked
  query : p.query = query
  skip : p.skip = skip

/-- An answer that shows a steered run over the grounded steps. -/
structure Shows (p : Planner Reasoner κ) (t : Template) (log : List Observation) (query : Nat)
    (skip : Option Nat) (length : Nat) (answer : Answer) : Prop where
  run : ∃ m : Model, answer = p.unrolling.answer m length ∧
    t.Steered log query skip p.steps length m.trueSet
  within : length ≤ p.steps
  started : 1 ≤ if skip.isSome then p.steps else length

theorem Rests.keeps {blocked blocked' : Set (List Literal)} (h : p.Rests t limit query skip)
    (hkeeps : Keeps (Reasoner.ledger limit) t p'.steps blocked p p' blocked') :
    p'.Rests t limit query skip :=
  ⟨hkeeps.steers, ⟨blocked', hkeeps.told⟩, hkeeps.continues.query.trans h.query,
    hkeeps.continues.skip.trans h.skip⟩

/-- What was counted and noted, and the strategy, do not matter. -/
theorem Rests.congr (h : p.Rests t limit query skip) (hunrolling : p'.unrolling = p.unrolling)
    (hbackend : p'.backend = p.backend) (hquery : p'.query = p.query) (hskip : p'.skip = p.skip)
    (hmarker : p'.marker = p.marker) : p'.Rests t limit query skip := by
  have hsteps : p'.steps = p.steps := congrArg Unrolling.steps hunrolling
  obtain ⟨blocked, htold⟩ := h.told
  exact ⟨hsteps ▸ h.steers.congr hunrolling hquery hskip hmarker,
    ⟨blocked, htold.congr hunrolling hbackend hquery⟩, hquery.trans h.query, hskip.trans h.skip⟩

/-- A new planner rests, and nothing is blocked. -/
theorem steers_of_make {readings : List Nat} {settings : Settings} {check : Option κ}
    (h : make t (Reasoner.empty limit) readings settings check = .ok p)
    (hc : Compiled log d b t) (hne : settings.query ≠ settings.skip) :
    p.Steers t p.steps ∧ p.Told (Reasoner.ledger limit) ∅ :=
  ⟨.of_make h hc.laid hne, .of_make h ⟨Reasoner.represents_empty limit, rfl⟩⟩

/-- A proposal changes the strategy. -/
theorem propose_eq (p : Planner Reasoner κ) (outcome : Option Outcome) : ∃ journal,
    p.propose outcome = ((p.strategy.next outcome).1,
      { p with journal, strategy := (p.strategy.next outcome).2 }) := by
  unfold propose
  cases p.strategy.remark? outcome with
  | none => exact ⟨_, rfl⟩
  | some text => exact ⟨_, rfl⟩

/-- The planner that a call leaves, also if it fails. -/
def left {α : Type} : Except (Failure Reasoner κ) (α × Planner Reasoner κ) → Planner Reasoner κ
  | .ok (_, p) => p
  | .error (_, p) => p

theorem Ends.left {α : Type} {x : Except (Failure Reasoner κ) (α × Planner Reasoner κ)}
    {P : α → Planner Reasoner κ → Prop} {I : Planner Reasoner κ → Prop}
    (h : Ends x (fun a p => I p ∧ P a p) fun _ p => I p) : I (left x) := by
  unfold Ends at h
  cases x with
  | ok result => exact h.1
  | error result => exact h

variable [ModelCheck κ]

/-- A search, from what holds as long as it goes on: the invariant knows how many iterations are
left, how the last attempt ended, and the planner. -/
theorem ends_runFor (Inv : Nat → Option Outcome → Planner Reasoner κ → Prop)
    {P : PlanResult → Planner Reasoner κ → Prop} {Q : PlanError → Planner Reasoner κ → Prop}
    (hnone : ∀ n outcome p, Inv n outcome p → (p.propose outcome).1 = none →
      P .notFound (p.propose outcome).2)
    (hstopped : ∀ outcome p, Inv 0 outcome p → P .stopped (p.propose outcome).2)
    (hvisit : ∀ n outcome p length, Inv (n + 1) outcome p →
      (p.propose outcome).1 = some length → Ends ((p.propose outcome).2.visit length)
        (fun attempt p' => (∃ answer, attempt.outcome = .satisfiable ∧
            attempt.answer = some answer ∧ P (.found attempt.length answer) p') ∨
          attempt.outcome ≠ .satisfiable ∧ Inv n (some attempt.outcome) p') Q)
    {n : Nat} {outcome : Option Outcome} {p : Planner Reasoner κ} (h : Inv n outcome p) :
    Ends (runFor n outcome p) P Q := by
  induction n generalizing outcome p with
  | zero =>
      unfold runFor
      have hnone' := hnone 0 outcome p h
      have hstopped' := hstopped outcome p h
      generalize p.propose outcome = proposal at hnone' hstopped' ⊢
      obtain ⟨_ | length, p₁⟩ := proposal
      · exact hnone' rfl
      · exact hstopped'
  | succ n ih =>
      unfold runFor
      have hnone' := hnone (n + 1) outcome p h
      have hvisit' := hvisit n outcome p
      generalize p.propose outcome = proposal at hnone' hvisit' ⊢
      obtain ⟨_ | length, p₁⟩ := proposal
      · exact hnone' rfl
      · have hends := hvisit' length h rfl
        dsimp only [bind, Except.bind] at hends ⊢
        generalize p₁.visit length = x at hends ⊢
        cases x with
        | error result => exact hends
        | ok result =>
            obtain ⟨⟨length', outcome', answer'⟩, p₂⟩ := result
            dsimp only
            rcases hends with ⟨answer, rfl, rfl, hP⟩ | ⟨hne, hInv⟩
            · exact hP
            · cases outcome' with
              | satisfiable => exact absurd rfl hne
              | unsatisfiable => exact ih hInv
              | unknown => exact ih hInv
              | outOfMemory => exact ih hInv

theorem Rests.ends_attempt (h : p.Rests t limit query skip) (hc : Compiled log d b t)
    (hexact : (Draft.scopeOf log).exact) (length : Nat) :
    Ends (p.attempt length)
      (fun attempt p' => p'.Rests t limit query skip ∧
        (attempt.outcome = .satisfiable → ∃ answer, attempt.answer = some answer ∧
          p'.Shows t log query skip attempt.length answer))
      fun _ p' => p'.Rests t limit query skip := by
  obtain ⟨blocked, htold⟩ := h.told
  refine (h.steers.ends_attempt htold hc.laid (hc.hasFittingWeights hexact) length).mono ?_ ?_
  · rintro attempt p' ⟨hlength, hsteps, blocked', hkeeps, hjustifies⟩
    have hrests := h.keeps hkeeps
    refine ⟨hrests, fun hsatisfiable => ?_⟩
    obtain ⟨m, hanswer, hguided⟩ := hjustifies.found hsatisfiable
    rw [hrests.query, hrests.skip] at hguided
    have hsteps : p'.steps = max p.steps (max (p.usable length) 1) :=
      hsteps.resolve_left (by simp [hsatisfiable])
    have hsteered := (hc.steered_iff hexact (hrests.steers.fits (by omega))).mpr hguided
    refine ⟨_, hanswer, ⟨m, rfl, hsteered⟩, by omega, ?_⟩
    split
    · omega
    · rename_i hnone
      rw [hlength]
      exact one_le_usable length (h.skip.trans (by simpa using hnone))
  · rintro e p' ⟨⟨blocked', hkeeps⟩, -⟩
    exact h.keeps hkeeps

/-- What a search finds is shown by a steered run over the grounded steps. -/
theorem Rests.ends_run (h : p.Rests t limit query skip) (hc : Compiled log d b t)
    (hexact : (Draft.scopeOf log).exact) (n : Nat) :
    Ends (p.run n)
      (fun result p' => p'.Rests t limit query skip ∧
        ∀ length answer, result = .found length answer →
          p'.Shows t log query skip length answer)
      fun _ p' => p'.Rests t limit query skip := by
  have hpropose : ∀ {p : Planner Reasoner κ} (outcome : Option Outcome),
      p.Rests t limit query skip → (p.propose outcome).2.Rests t limit query skip := by
    intro p outcome h
    obtain ⟨journal, heq⟩ := p.propose_eq outcome
    rw [heq]
    exact h.congr rfl rfl rfl rfl rfl
  refine ends_runFor (fun _ _ p => p.Rests t limit query skip)
    (fun _ outcome p h _ => ⟨hpropose outcome h, fun _ _ => nofun⟩)
    (fun outcome p h => ⟨hpropose outcome h, fun _ _ => nofun⟩) ?_ h
  intro _ outcome p length h _
  have hannounced : ((p.propose outcome).2.announce length).Rests t limit query skip :=
    (hpropose outcome h).congr rfl rfl rfl rfl rfl
  have hattempt := hannounced.ends_attempt hc hexact length
  unfold visit
  generalize ((p.propose outcome).2.announce length).attempt length = x at hattempt ⊢
  cases x with
  | error result => exact hattempt
  | ok result =>
      obtain ⟨attempt, p₁⟩ := result
      obtain ⟨hrests, hfound⟩ := hattempt
      have hrests' : (p₁.noteOutcome attempt).Rests t limit query skip :=
        hrests.congr rfl rfl rfl rfl rfl
      by_cases hsatisfiable : attempt.outcome = .satisfiable
      · obtain ⟨answer, hanswer, hshows⟩ := hfound hsatisfiable
        refine Or.inl ⟨answer, hsatisfiable, hanswer, hrests', fun _ _ heq => ?_⟩
        obtain ⟨rfl, rfl⟩ := PlanResult.found.inj heq
        exact ⟨hshows.run, hshows.within, hshows.started⟩
      · exact Or.inr ⟨hsatisfiable, hrests'⟩

/-! ### Calls -/

/-- The planners that calls lead to. -/
inductive Reached (p₀ : Planner Reasoner κ) : Planner Reasoner κ → Prop
  | start : Reached p₀ p₀
  | attempt {p : Planner Reasoner κ} (length : Nat) :
      Reached p₀ p → Reached p₀ (left (p.attempt length))
  | run {p : Planner Reasoner κ} (maxIterations : Nat) :
      Reached p₀ p → Reached p₀ (left (p.run maxIterations))

theorem Rests.reached {p₀ : Planner Reasoner κ} (h : p₀.Rests t limit query skip)
    (hc : Compiled log d b t) (hexact : (Draft.scopeOf log).exact) (hreached : Reached p₀ p) :
    p.Rests t limit query skip := by
  induction hreached with
  | start => exact h
  | attempt length _ ih => exact (ih.ends_attempt hc hexact length).left
  | run maxIterations _ ih => exact (ih.ends_run hc hexact maxIterations).left

end Planner

/-! ### Lighting the lamp -/

def PlanResult.hasLength (length : Nat) : PlanResult → Bool
  | .found length' _ => length' = length
  | _ => false

/-- Lengths from zero on, one by one. -/
def lampSettings : Settings := { algorithm := .linear 1, step := 1, limit := 5 }

/-- A check that will not have the lamp lit at the first step. -/
def lampScript : Script := ⟨[.reject [(1, .constant "lit")]]⟩

namespace Planner

end Planner

/-! ### A query that never holds -/

/-- The query, and what forbids it. -/
def queryLog (o : Observation) : List Observation :=
  [.external 1 .free, .label (.constant "query") 1, o]

section Forbidden

variable {o : Observation} {c : Clause} {symbol : Symbol} {a : Nat}

end Forbidden

/-- Each weight reaches the bound, while their sum wraps around to `-2`. -/
def wrappingConstraint : WeightRule :=
  ⟨false, [], 1, [(.positive 1, maxWeight), (.positive 1, maxWeight)]⟩

def forbiddingProgram : List Statement := [
  .external 1 .free, .output (.constant "query") [.positive 1], .weightRule wrappingConstraint]

def forbiddingReasoner : Reasoner := (Call.load forbiddingProgram).after (.empty .unlimited)

namespace Planner

end Planner

end StablePlan
