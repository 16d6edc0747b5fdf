import StablePlan.Proofs.Plan.Search

/-!
How a planner got where it is does not matter. One history leaves a false assumption where another
has released the query, and their steps were grounded in different chunks; but whatever attempts led
to a number of steps, the same stable sets are left for the next one.
-/

namespace StablePlan

/-- Fewer steps fit as well. -/
theorem Template.fits_of_le {t : Template} {n m : Nat} (hfits : t.fits n) (hle : m ≤ n) :
    t.fits m := by
  by_cases hp : t.period = 0
  · simp [fits, hp]
  · have hmax := le_maxAtom_of_fits hfits hp
    have hmul : m * t.period ≤ n * t.period := Nat.mul_le_mul_right _ hle
    have hrange : 0 < m * t.period + t.period ∧ m * t.period + t.period ≤ maxAtom := by omega
    unfold fits literal? Literal.checked
    simp [hrange]

namespace Planner

/-- How an attempt came out, or the error with which it failed. -/
def outcome {β κ : Type} : Except (Failure β κ) (Attempt × Planner β κ) → Except PlanError Outcome
  | .ok (attempt, _) => .ok attempt.outcome
  | .error (e, _) => .error e

variable {κ : Type} [ModelCheck κ] {p p' p₀ p₀' : Planner Reasoner κ} {t : Template}
  {query skip : Symbol} {length : Nat}

theorem Unlimited.attempted (h : p₀.Unlimited t query skip) (hlaid : t.Laid)
    (hfit : t.HasFittingWeights) (hreached : Attempted p₀ p) :
    p.Unlimited t query skip := by
  induction hreached with
  | start => exact h
  | attempt length _ ih =>
      have hdecides := ih.decides hlaid hfit length
      apply after_of_finishes (I := fun p => p.Unlimited t query skip)
      refine (ends_iff_finishes.mp hdecides).mono ?_ ?_
      · exact fun r hr => ih.keeps hr.2.2.1
      · exact fun e p' he => ih.keeps he.1

/-- Over the same number of steps two planners decide the same. -/
theorem Unlimited.outcome_eq (h : p.Unlimited t query skip) (h' : p'.Unlimited t query skip)
    (hlaid : t.Laid) (hfit : t.HasFittingWeights)
    (hsteps : p.steps = p'.steps) : outcome (p.attempt length) = outcome (p'.attempt length) := by
  have hquery : p'.query = p.query := Option.some.inj (h'.query.symm.trans h.query)
  have hskip : p'.skip = p.skip := h'.skip.trans h.skip.symm
  have husable : p'.usable = p.usable := usable_congr hskip
  have hneeded : p'.needed length = p.needed length := by
    unfold needed
    rw [husable, hsteps]
  have hends := h.decides hlaid hfit length
  have hends' := h'.decides hlaid hfit length
  rw [hquery, hskip, husable, hneeded] at hends'
  -- An attempt that comes back had room for the steps without which the other one fails.
  have hfits : ∀ {q : Planner Reasoner κ}, q.steps = p.needed length → q.Steers t q.steps →
      t.fits (max (p.usable length) 1) := by
    intro q hq hsteers
    have hle : max (p.usable length) 1 ≤ p.needed length := le_max_right _ _
    have hpos : 0 < q.steps := by omega
    exact Template.fits_of_le (hq ▸ hsteers.fits hpos) hle
  cases hx : p.attempt length with
  | ok r =>
      rw [hx] at hends
      obtain ⟨-, hgrounded, hkeeps, hdecided⟩ := hends
      cases hx' : p'.attempt length with
      | ok r' =>
          rw [hx'] at hends'
          obtain ⟨-, -, -, hdecided'⟩ := hends'
          apply congrArg Except.ok
          rcases hdecided with ⟨-, hsat, -, hX⟩ | ⟨hunsat, hno⟩
          · rcases hdecided' with ⟨-, hsat', -⟩ | ⟨-, hno'⟩
            · exact hsat.trans hsat'.symm
            · exact absurd hX hno'
          · rcases hdecided' with ⟨-, -, -, hX'⟩ | ⟨hunsat', -⟩
            · exact absurd hX' hno
            · exact hunsat.trans hunsat'.symm
      | error r' =>
          rw [hx'] at hends'
          exact absurd (hfits hgrounded hkeeps.steers) hends'.2.2
  | error r =>
      rw [hx] at hends
      cases hx' : p'.attempt length with
      | ok r' =>
          rw [hx'] at hends'
          exact absurd (hfits hends'.2.1 hends'.2.2.1.steers) hends.2.2
      | error r' =>
          rw [hx'] at hends'
          exact congrArg Except.error (hends.2.1.trans hends'.2.1.symm)

/-- The sum of the first and the last weight wraps around to `-2`. -/
def divergingProgram : List Statement := [
  .external 1 .free, .output (.constant "query") [.positive 1],
  .external 2 .free, .output (.constant "skip") [.positive 2],
  .rule ⟨true, [3], []⟩,
  .weightRule ⟨false, [4], 1, [(.positive 1, maxWeight), (.positive 3, 3),
    (.positive 2, maxWeight)]⟩]

def divergingReasoner : Reasoner := (Call.load divergingProgram).after (.empty .unlimited)

end Planner

end StablePlan
