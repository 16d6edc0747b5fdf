import StablePlan.Proofs.Transition.Naming
import StablePlan.Proofs.Unrolling.Relocation
import StablePlan.Unrolling.Basic

/-!
Reading an unrolled template. At step `s` index `k` is atom `k + (s - 1) * p`, so that the two bands
of a step overlap with those of its neighbours. Seen through the window of a step, what is asserted
there is what the template says of its indices.
-/

namespace StablePlan

namespace Template

variable {t : Template} {D X M : Set Nat} {s n offset : Nat}

/-- The indices that a set of atoms makes true at a step. -/
def window (t : Template) (M : Set Nat) (s : Nat) : Set Nat := {k | k + (s - 1) * t.period ∈ M}

/-- The atoms of the program that a set of atoms makes true at a step. -/
def reads (t : Template) (M : Set Nat) (s : Nat) : Set Nat :=
  {a | match t.id? a with
    | some k => k + (s - 1) * t.period ∈ M
    | none => t.classOf a = .forcedTrue}

/-- The clauses of the rules that are asserted at a step. -/
def clausesAt (t : Template) (s : Nat) : Set Clause :=
  {c | (∃ r ∈ t.rules, ∃ r' ∈ t.relocate r s, c ∈ r'.clause.shifted) ∨
    ∃ r ∈ t.weightRules, ∃ r' ∈ t.relocateWeight r s, c ∈ r'.clause.shifted}

/-- The program of the initial state and the steps up to `n`. -/
def unrolled (t : Template) (n : Nat) : Theory where
  clauses := {c | (∃ k ∈ t.init, c ∈ (Rule.fact k).clause.shifted) ∨
    ∃ s, 1 ≤ s ∧ s ≤ n ∧ c ∈ t.clausesAt s}

/-- The rules stay within the two bands, and the initial state within the first. -/
structure Banded (t : Template) : Prop where
  rules : ∀ r ∈ t.rules, ∀ k ∈ r.clause.atoms, 1 ≤ k ∧ k ≤ 2 * t.period
  weightRules : ∀ r ∈ t.weightRules, ∀ k ∈ r.clause.atoms, 1 ≤ k ∧ k ≤ 2 * t.period
  init : ∀ k ∈ t.init, 1 ≤ k ∧ k ≤ t.period

/-- The weights of every rule fit. -/
def HasFittingWeights (t : Template) : Prop := ∀ r ∈ t.weightRules, r.HasFittingWeights

/-! ### Moving rules -/

/-- An offset that keeps both bands in range. -/
def CanMove (t : Template) (s : Nat) : Prop :=
  (s - 1) * t.period < Nat.pow 2 32 ∧
    ∀ k, 1 ≤ k → k ≤ 2 * t.period → k + (s - 1) * t.period ≤ maxAtom

theorem canMove_of_fits (hfits : t.fits n) (hs : 1 ≤ s) (hn : s ≤ n) : t.CanMove s := by
  by_cases hp : t.period = 0
  · refine ⟨by simp [hp], fun k hk hle => ?_⟩
    omega
  · have hle := le_maxAtom_of_fits hfits hp
    obtain ⟨j, rfl⟩ : ∃ j, s = j + 1 := ⟨s - 1, by omega⟩
    have hmul : (j + 1) * t.period ≤ n * t.period := Nat.mul_le_mul_right _ hn
    rw [Nat.add_mul, Nat.one_mul] at hmul
    have hmax : maxAtom < Nat.pow 2 32 := by decide
    refine ⟨?_, fun k _ hk => ?_⟩
    · rw [Nat.add_sub_cancel]
      omega
    · rw [Nat.add_sub_cancel]
      omega

theorem offset?_eq (h : t.CanMove s) : t.offset? s = some ((s - 1) * t.period) := if_pos h.1

/-- A rule that stays within the two bands can be moved. -/
theorem relocate_eq (h : t.CanMove s) {r : Rule}
    (hr : ∀ k ∈ r.clause.atoms, 1 ≤ k ∧ k ≤ 2 * t.period) : ∃ r', t.relocate r s = some r' ∧
      r'.clause = r.clause.mapAtoms (· + (s - 1) * t.period) := by
  refine ⟨r.movedUp ((s - 1) * t.period), ?_, rfl⟩
  rw [relocate_of_offset? (offset?_eq h), if_pos fun k hk => h.2 k (hr k hk).1 (hr k hk).2]

theorem relocateWeight_eq (h : t.CanMove s) {r : WeightRule}
    (hr : ∀ k ∈ r.clause.atoms, 1 ≤ k ∧ k ≤ 2 * t.period) : ∃ r', t.relocateWeight r s = some r' ∧
      r'.clause = r.clause.mapAtoms (· + (s - 1) * t.period) := by
  refine ⟨r.movedUp ((s - 1) * t.period), ?_, rfl⟩
  rw [relocateWeight_of_offset? (offset?_eq h), if_pos fun k hk => h.2 k (hr k hk).1 (hr k hk).2]

/-- A moved rule keeps its weights. -/
theorem hasFittingWeights_of_relocateWeight {r r' : WeightRule}
    (h : t.relocateWeight r s = some r') (hw : r.HasFittingWeights) : r'.HasFittingWeights := by
  cases hoffset : t.offset? s with
  | none =>
      unfold relocateWeight at h
      rw [hoffset] at h
      cases h
  | some offset =>
      rw [relocateWeight_of_offset? hoffset] at h
      obtain ⟨-, heq⟩ := Option.ite_none_right_eq_some.mp h
      obtain rfl := Option.some.inj heq
      exact WeightsFit.of_map_eq hw (by simp [WeightRule.movedUp, Function.comp_def])

/-- A moved rule says of atoms what the rule says of indices. -/
theorem obeys_moved_iff {c : Clause} (hc : ∀ k ∈ c.atoms, 1 ≤ k) :
    (c.mapAtoms (· + (s - 1) * t.period)).Obeys D X ↔ c.Obeys (t.window D s) (t.window X s) := by
  apply Clause.obeys_mapAtoms
  · intro a _ b _ hab
    omega
  · intro a ha
    have := hc a ha
    omega
  · exact fun a _ => Iff.rfl
  · exact fun a _ => Iff.rfl

theorem respects_clausesAt_iff (ht : t.Banded) (h : t.CanMove s) :
    (∀ c ∈ t.clausesAt s, c.Respects D X) ↔ t.Obeyed (t.window D s) (t.window X s) := by
  have hrule : ∀ r ∈ t.rules, ∀ r', t.relocate r s = some r' →
      (r'.clause.Obeys D X ↔ r.clause.Obeys (t.window D s) (t.window X s)) := by
    intro r hr r' hr'
    obtain ⟨r'', heq, hclause⟩ := relocate_eq h (ht.rules r hr)
    obtain rfl := Option.some.inj (heq.symm.trans hr')
    rw [hclause, obeys_moved_iff fun k hk => (ht.rules r hr k hk).1]
  have hweight : ∀ r ∈ t.weightRules, ∀ r', t.relocateWeight r s = some r' →
      (r'.clause.Obeys D X ↔ r.clause.Obeys (t.window D s) (t.window X s)) := by
    intro r hr r' hr'
    obtain ⟨r'', heq, hclause⟩ := relocateWeight_eq h (ht.weightRules r hr)
    obtain rfl := Option.some.inj (heq.symm.trans hr')
    rw [hclause, obeys_moved_iff fun k hk => (ht.weightRules r hr k hk).1]
  constructor
  · refine fun hall => ⟨fun r hr => ?_, fun r hr => ?_⟩
    · obtain ⟨r', hr', -⟩ := relocate_eq h (ht.rules r hr)
      rw [← hrule r hr r' hr', ← Clause.respects_shifted_iff]
      exact fun c hc => hall c (Or.inl ⟨r, hr, r', hr', hc⟩)
    · obtain ⟨r', hr', -⟩ := relocateWeight_eq h (ht.weightRules r hr)
      rw [← hweight r hr r' hr', ← Clause.respects_shifted_iff]
      exact fun c hc => hall c (Or.inr ⟨r, hr, r', hr', hc⟩)
  · rintro ⟨hrules, hweights⟩ c (⟨r, hr, r', hr', hc⟩ | ⟨r, hr, r', hr', hc⟩)
    · exact Clause.respects_shifted_iff.mpr ((hrule r hr r' hr').mpr (hrules r hr)) c hc
    · exact Clause.respects_shifted_iff.mpr ((hweight r hr r' hr').mpr (hweights r hr)) c hc

/-- The reduct of the unrolled program, step by step. -/
theorem models_unrolled_iff (ht : t.Banded) (hfits : t.fits n) :
    (t.unrolled n).Models D X ↔ (∀ k ∈ t.init, k ∈ D) ∧
      ∀ s, 1 ≤ s → s ≤ n → t.Obeyed (t.window D s) (t.window X s) := by
  have hfact : ∀ k, (∀ c ∈ (Rule.fact k).clause.shifted, c.Respects D X) ↔ k ∈ D := by
    intro k
    rw [Clause.respects_shifted_iff]
    exact Clause.obeys_fact_iff
  constructor
  · refine fun h => ⟨fun k hk => (hfact k).mp fun c hc => ?_, fun s hs hn => ?_⟩
    · exact h.clauses c (Or.inl ⟨k, hk, hc⟩)
    · rw [← respects_clausesAt_iff ht (canMove_of_fits hfits hs hn)]
      exact fun c hc => h.clauses c (Or.inr ⟨s, hs, hn, hc⟩)
  · rintro ⟨hinit, hsteps⟩
    refine ⟨?_, fun _ h => h.elim, fun _ h => h.elim, fun _ h => h.elim, fun _ h => h.elim⟩
    rintro c (⟨k, hk, hc⟩ | ⟨s, hs, hn, hc⟩)
    · exact (hfact k).mpr (hinit k hk) c hc
    · exact (respects_clausesAt_iff ht (canMove_of_fits hfits hs hn)).mpr (hsteps s hs hn) c hc

end Template

end StablePlan
