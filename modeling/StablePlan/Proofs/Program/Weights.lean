import Mathlib.Algebra.Order.BigOperators.Group.List
import Mathlib.Algebra.Order.Group.Int
import Mathlib.Algebra.Ring.Int.Defs
import StablePlan.Program.Rule

/-!
Sums of weights that stay in the range. What is added up with wrapping around is the sum itself up
to a multiple of `2 ^ 64`, so it is the sum if that is in the range. Where no weight is negative and
all of them together are in the range, every part of them is.
-/

namespace StablePlan

variable {elements : List (Literal × Int)} {m n : Int}

theorem wrapWeight_of_mem (hmin : minWeight ≤ n) (hmax : n ≤ maxWeight) : wrapWeight n = n := by
  have hpow : minWeight = -9223372036854775808 ∧ maxWeight = 9223372036854775807 := ⟨rfl, rfl⟩
  have hmod : Nat.pow 2 64 = 18446744073709551616 := rfl
  unfold wrapWeight
  rw [hmod]
  exact Int.bmod_eq_of_le (by omega) (by omega)

theorem wrapWeight_of_nonneg (hn : 0 ≤ n) (hmax : n ≤ maxWeight) : wrapWeight n = n :=
  wrapWeight_of_mem (le_trans (by decide) hn) hmax

theorem wrapWeight_add_wrapWeight (m n : Int) :
    wrapWeight (m + wrapWeight n) = wrapWeight (m + n) :=
  Int.add_bmod_bmod

theorem wrapWeight_wrapWeight_add (m n : Int) :
    wrapWeight (wrapWeight m + n) = wrapWeight (m + n) :=
  Int.bmod_add_bmod

/-- The weight of all elements together, in whatever range. -/
def exactWeight (elements : List (Literal × Int)) : Int := (elements.map Prod.snd).sum

@[simp] theorem exactWeight_nil : exactWeight [] = 0 := rfl

@[simp] theorem exactWeight_cons (e : Literal × Int) (elements : List (Literal × Int)) :
    exactWeight (e :: elements) = e.2 + exactWeight elements := rfl

theorem totalWeight_eq (elements : List (Literal × Int)) :
    totalWeight elements = wrapWeight (exactWeight elements) := by
  induction elements with
  | nil => rfl
  | cons e es ih =>
      have hstep : totalWeight (e :: es) = wrapWeight (e.2 + totalWeight es) := rfl
      rw [hstep, ih, wrapWeight_add_wrapWeight, exactWeight_cons]

/-- No weight is negative, and all of them together are in the range. -/
structure WeightsFit (elements : List (Literal × Int)) : Prop where
  nonneg : ∀ e ∈ elements, 0 ≤ e.2
  le : exactWeight elements ≤ maxWeight

instance : DecidablePred WeightsFit := fun elements =>
  decidable_of_iff ((∀ e ∈ elements, 0 ≤ e.2) ∧ exactWeight elements ≤ maxWeight)
    ⟨fun h => ⟨h.1, h.2⟩, fun h => ⟨h.nonneg, h.le⟩⟩

theorem exactWeight_nonneg (h : ∀ e ∈ elements, 0 ≤ e.2) : 0 ≤ exactWeight elements := by
  refine List.sum_nonneg fun w hw => ?_
  obtain ⟨e, he, rfl⟩ := List.mem_map.mp hw
  exact h e he

theorem exactWeight_le_of_sublist {part : List (Literal × Int)} (hpart : part.Sublist elements)
    (h : ∀ e ∈ elements, 0 ≤ e.2) : exactWeight part ≤ exactWeight elements := by
  refine (hpart.map Prod.snd).sum_le_sum fun w hw => ?_
  obtain ⟨e, he, rfl⟩ := List.mem_map.mp hw
  exact h e he

namespace WeightsFit

theorem sublist {part : List (Literal × Int)} (h : WeightsFit elements)
    (hpart : part.Sublist elements) : WeightsFit part :=
  ⟨fun e he => h.nonneg e (hpart.subset he),
    (exactWeight_le_of_sublist hpart h.nonneg).trans h.le⟩

/-- The weights are all that matters. -/
theorem of_map_eq {others : List (Literal × Int)} (h : WeightsFit elements)
    (heq : others.map Prod.snd = elements.map Prod.snd) : WeightsFit others := by
  refine ⟨fun e he => ?_, (congrArg List.sum heq).trans_le h.le⟩
  have hmem : e.2 ∈ elements.map Prod.snd := heq ▸ List.mem_map_of_mem he
  obtain ⟨e', he', hsame⟩ := List.mem_map.mp hmem
  exact hsame ▸ h.nonneg e' he'

theorem totalWeight_eq (h : WeightsFit elements) : totalWeight elements = exactWeight elements := by
  rw [StablePlan.totalWeight_eq]
  exact wrapWeight_of_nonneg (exactWeight_nonneg h.nonneg) h.le

end WeightsFit

theorem exactWeight_filter_add (elements : List (Literal × Int)) (p : Literal × Int → Bool) :
    exactWeight (elements.filter p) + exactWeight (elements.filter fun e => !p e) =
      exactWeight elements := by
  induction elements with
  | nil => rfl
  | cons e es ih =>
      rw [List.filter_cons, List.filter_cons, exactWeight_cons]
      cases p e <;> simp <;> omega

/-- The weights fit, and so does what is left of the bound when some or all of them are taken off
it. -/
structure WeightRule.HasFittingBound (r : WeightRule) : Prop where
  weights : WeightsFit r.body
  lower : minWeight + exactWeight r.body ≤ r.lower
  upper : r.lower ≤ maxWeight

namespace WeightRule.HasFittingBound

variable {r : WeightRule}

theorem nonneg (h : r.HasFittingBound) : ∀ e ∈ r.body, 0 ≤ e.2 := h.weights.nonneg

theorem filter (h : r.HasFittingBound) (p : Literal × Int → Bool) :
    HasFittingBound { r with body := r.body.filter p } := by
  have hle := exactWeight_le_of_sublist (List.filter_sublist (p := p)) h.weights.nonneg
  exact ⟨h.weights.sublist List.filter_sublist, (Int.add_le_add_left hle _).trans h.lower, h.upper⟩

/-- Taking weights off the bound does not wrap around. -/
theorem wrapWeight_lower (h : r.HasFittingBound) (p : Literal × Int → Bool) :
    wrapWeight (r.lower - totalWeight (r.body.filter p)) =
      r.lower - exactWeight (r.body.filter p) := by
  have hpart := h.weights.sublist (List.filter_sublist (p := p))
  have hnonneg := exactWeight_nonneg hpart.nonneg
  have hle := exactWeight_le_of_sublist (List.filter_sublist (p := p)) h.weights.nonneg
  have hlower := h.lower
  have hupper := h.upper
  rw [hpart.totalWeight_eq]
  exact wrapWeight_of_mem (by omega) (by omega)

theorem takeOff (h : r.HasFittingBound) (p : Literal × Int → Bool) :
    HasFittingBound { r with
      lower := wrapWeight (r.lower - totalWeight (r.body.filter p))
      body := r.body.filter fun e => !p e } := by
  have hpart := h.weights.sublist (List.filter_sublist (p := p))
  have hnonneg := exactWeight_nonneg hpart.nonneg
  have hsplit := exactWeight_filter_add r.body p
  have hlower := h.lower
  have hupper := h.upper
  rw [h.wrapWeight_lower]
  refine ⟨h.weights.sublist List.filter_sublist, ?_, ?_⟩ <;> dsimp only <;> omega

end WeightRule.HasFittingBound

end StablePlan
