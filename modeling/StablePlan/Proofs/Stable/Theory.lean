import Mathlib.Order.BooleanAlgebra.Set
import StablePlan.Proofs.Program.Weights
import StablePlan.Stable.Clause

/-!
What clauses mean. A set of atoms is stable if it is a model of its own reduct and no smaller set
is one. The reduct never has to be written down: a literal is read in two sets, positive ones in
the set that is to be a model of the reduct and negative ones in the set that the reduct is taken
by, and the heads of choices count only as far as they are in the latter.
-/

namespace StablePlan

/-- A literal in the reduct by `X`, read in `D`. -/
def Literal.HoldsIn (l : Literal) (D X : Set Nat) : Prop :=
  if l.isPositive then l.atom ∈ D else l.atom ∉ X

open Classical in
/-- The weight of the elements that hold, in whatever range. -/
noncomputable def WeightSum.weightIn (s : WeightSum) (D X : Set Nat) : Int :=
  (s.elements.map fun e => if e.1.HoldsIn D X then e.2 else 0).sum

def BodyHolds (body : List Literal) (sum : Option WeightSum) (D X : Set Nat) : Prop :=
  (∀ l ∈ body, l.HoldsIn D X) ∧ ∀ s ∈ sum, s.lower ≤ s.weightIn D X

namespace Clause

/-- The clause in the reduct by `X` is satisfied in `D`. -/
def Respects (c : Clause) (D X : Set Nat) : Prop :=
  BodyHolds c.body c.sum D X →
    if c.choice then ∀ h ∈ c.head, h ∈ X → h ∈ D else ∃ h ∈ c.head, h ∈ D

def HasNonnegWeights (c : Clause) : Prop := ∀ s ∈ c.sum, ∀ e ∈ s.elements, 0 ≤ e.2

/-- The weights of a sum are not negative, and together they are in the range. -/
def HasFittingWeights (c : Clause) : Prop := ∀ s ∈ c.sum, WeightsFit s.elements

theorem HasFittingWeights.nonneg {c : Clause} (h : c.HasFittingWeights) : c.HasNonnegWeights :=
  fun s hs => (h s hs).nonneg

end Clause

/-- Clauses, atoms that may be chosen either way, and what is known of single atoms: facts, atoms
that must be false, and atoms that must be true but need to be derived. -/
@[ext]
structure Theory where
  clauses : Set Clause
  given : Set Nat := ∅
  facts : Set Nat := ∅
  banned : Set Nat := ∅
  required : Set Nat := ∅

namespace Theory

/-- `D` is a model of the reduct by `X`. -/
structure Models (t : Theory) (D X : Set Nat) : Prop where
  clauses : ∀ c ∈ t.clauses, c.Respects D X
  given : ∀ a ∈ t.given, a ∈ X → a ∈ D
  facts : ∀ a ∈ t.facts, a ∈ D
  banned : ∀ a ∈ t.banned, a ∉ D
  required : ∀ a ∈ t.required, a ∈ X

structure IsStable (t : Theory) (X : Set Nat) : Prop where
  model : t.Models X X
  least : ∀ D ⊆ X, t.Models D X → X ⊆ D

def HasNonnegWeights (t : Theory) : Prop := ∀ c ∈ t.clauses, c.HasNonnegWeights

end Theory

theorem Literal.HoldsIn.mono {l : Literal} {D E X : Set Nat} (h : l.HoldsIn D X) (hDE : D ⊆ E) :
    l.HoldsIn E X := by
  unfold HoldsIn at h ⊢
  split at h
  · rw [if_pos ‹_›]
    exact hDE h
  · rwa [if_neg ‹_›]

@[simp] theorem Literal.holdsIn_positive {a : Nat} (ha : a ≠ 0) (D X : Set Nat) :
    (Literal.positive a).HoldsIn D X ↔ a ∈ D := by
  simp [HoldsIn, Literal.positive, isPositive, atom, Nat.pos_of_ne_zero ha]

@[simp] theorem Literal.holdsIn_negative (a : Nat) (D X : Set Nat) :
    (Literal.negative a).HoldsIn D X ↔ a ∉ X := by
  simp [HoldsIn, Literal.negative, isPositive, atom]

/-- The head of a clause that is not a choice has at most one atom. -/
theorem eq_of_mem_of_length_le {α : Type} {xs : List α} {x y : α} (h : xs.length ≤ 1)
    (hx : x ∈ xs) (hy : y ∈ xs) : x = y := by
  rcases xs with _ | ⟨z, _ | ⟨w, zs⟩⟩
  · simp at hx
  · rw [List.mem_singleton.mp hx, List.mem_singleton.mp hy]
  · simp at h

theorem sum_map_mono {α : Type} {xs : List α} {f g : α → Int} (h : ∀ x ∈ xs, f x ≤ g x) :
    (xs.map f).sum ≤ (xs.map g).sum := by
  induction xs with
  | nil => simp
  | cons x xs ih =>
      have hx := h x (by simp)
      have hxs := ih fun y hy => h y (by simp [hy])
      simp only [List.map_cons, List.sum_cons]
      omega

theorem WeightSum.weightIn_mono {s : WeightSum} {D E X : Set Nat}
    (hs : ∀ e ∈ s.elements, 0 ≤ e.2) (hDE : D ⊆ E) : s.weightIn D X ≤ s.weightIn E X := by
  apply sum_map_mono
  intro e he
  have hw := hs e he
  by_cases hD : e.1.HoldsIn D X
  · simp [hD, hD.mono hDE]
  · by_cases hE : e.1.HoldsIn E X <;> simp [hD, hE, hw]

theorem BodyHolds.mono {body : List Literal} {sum : Option WeightSum} {D E X : Set Nat}
    (h : BodyHolds body sum D X) (hs : ∀ s ∈ sum, ∀ e ∈ s.elements, 0 ≤ e.2) (hDE : D ⊆ E) :
    BodyHolds body sum E X :=
  ⟨fun l hl => (h.1 l hl).mono hDE,
    fun s hmem => (h.2 s hmem).trans (WeightSum.weightIn_mono (hs s hmem) hDE)⟩

namespace Theory

variable {t u : Theory} {X : Set Nat}

/-- Two theories with the same models of the reduct by `X` agree on whether `X` is stable. -/
theorem isStable_congr (h : ∀ D ⊆ X, t.Models D X ↔ u.Models D X) :
    t.IsStable X ↔ u.IsStable X := by
  constructor
  · intro ht
    exact ⟨(h X subset_rfl).mp ht.model, fun D hD hu => ht.least D hD ((h D hD).mpr hu)⟩
  · intro hu
    exact ⟨(h X subset_rfl).mpr hu.model, fun D hD ht => hu.least D hD ((h D hD).mp ht)⟩

/-- Like a model of the reduct, but what is banned is looked up in `X`. For a part of a set that
has nothing banned there is no difference. -/
structure Admits (t : Theory) (D X : Set Nat) : Prop where
  clauses : ∀ c ∈ t.clauses, c.Respects D X
  given : ∀ a ∈ t.given, a ∈ X → a ∈ D
  facts : ∀ a ∈ t.facts, a ∈ D
  banned : ∀ a ∈ t.banned, a ∉ X
  required : ∀ a ∈ t.required, a ∈ X

theorem Admits.models {D : Set Nat} (h : t.Admits D X) (hDX : D ⊆ X) : t.Models D X :=
  ⟨h.clauses, h.given, h.facts, fun a ha hD => h.banned a ha (hDX hD), h.required⟩

theorem Models.admits {D : Set Nat} (h : t.Models D X) (hX : ∀ a ∈ t.banned, a ∉ X) :
    t.Admits D X :=
  ⟨h.clauses, h.given, h.facts, hX, h.required⟩

theorem isStable_iff_admits :
    t.IsStable X ↔ t.Admits X X ∧ ∀ D ⊆ X, t.Admits D X → X ⊆ D := by
  constructor
  · intro h
    exact ⟨h.model.admits h.model.banned, fun D hD hadmits => h.least D hD (hadmits.models hD)⟩
  · rintro ⟨hX, hleast⟩
    exact ⟨hX.models subset_rfl, fun D hD hm => hleast D hD (hm.admits hX.banned)⟩

/-- If `X` is admitted by both theories or by none, only its parts within an admitted `X` have to
be compared. -/
theorem isStable_congr_admits (hX : t.Admits X X ↔ u.Admits X X)
    (h : t.Admits X X → ∀ D ⊆ X, t.Admits D X ↔ u.Admits D X) : t.IsStable X ↔ u.IsStable X := by
  rw [isStable_iff_admits, isStable_iff_admits, ← hX]
  exact and_congr_right fun ht => forall₂_congr fun D hD => imp_congr_left (h ht D hD)

/-- A condition on `X` alone only selects among the stable sets. -/
theorem isStable_and_iff {P : Prop} (h : ∀ D, u.Admits D X ↔ t.Admits D X ∧ P) :
    u.IsStable X ↔ t.IsStable X ∧ P := by
  simp only [isStable_iff_admits, h]
  constructor
  · rintro ⟨⟨ht, hP⟩, hleast⟩
    exact ⟨⟨ht, fun D hD hm => hleast D hD ⟨hm, hP⟩⟩, hP⟩
  · rintro ⟨⟨ht, hleast⟩, hP⟩
    exact ⟨⟨ht, hP⟩, fun D hD hm => hleast D hD hm.1⟩

/-- Constraints that a stable set satisfies can be left out. -/
theorem IsStable.of_models (hu : u.IsStable X) (ht : t.Models X X)
    (h : ∀ D ⊆ X, t.Models D X → u.Models D X) : t.IsStable X :=
  ⟨ht, fun D hD hm => hu.least D hD (h D hD hm)⟩

/-- Constraints only select among the stable sets. -/
theorem isStable_constraints_iff {C : Set Clause} (hu : u = { t with clauses := t.clauses ∪ C })
    (hC : ∀ c ∈ C, c.choice = false ∧ c.head = []) (hw : ∀ c ∈ C, c.HasNonnegWeights) :
    u.IsStable X ↔ t.IsStable X ∧ ∀ c ∈ C, ¬BodyHolds c.body c.sum X X := by
  subst hu
  have hrespects : ∀ c ∈ C, ∀ D, c.Respects D X ↔ ¬BodyHolds c.body c.sum D X := by
    intro c hc D
    unfold Clause.Respects
    simp [hC c hc]
  have hmodels : (∀ c ∈ C, ¬BodyHolds c.body c.sum X X) → ∀ D ⊆ X,
      ({ t with clauses := t.clauses ∪ C } : Theory).Models D X ↔ t.Models D X := by
    intro hno D hD
    constructor
    · exact fun h => ⟨fun c hc => h.clauses c (Or.inl hc), h.given, h.facts, h.banned, h.required⟩
    · refine fun h => ⟨fun c hc => ?_, h.given, h.facts, h.banned, h.required⟩
      rcases hc with hc | hc
      · exact h.clauses c hc
      · exact (hrespects c hc D).mpr fun hbody => hno c hc (hbody.mono (hw c hc) hD)
  constructor
  · intro h
    have hno : ∀ c ∈ C, ¬BodyHolds c.body c.sum X X :=
      fun c hc => (hrespects c hc X).mp (h.model.clauses c (Or.inr hc))
    exact ⟨(isStable_congr (hmodels hno)).mp h, hno⟩
  · rintro ⟨h, hno⟩
    exact (isStable_congr (hmodels hno)).mpr h

/-- Whatever is in a stable set is given, a fact, or in the head of a clause with a true body. -/
theorem IsStable.supported (hs : t.IsStable X) (ht : t.HasNonnegWeights) {a : Nat} (ha : a ∈ X) :
    a ∈ t.given ∨ a ∈ t.facts ∨
      ∃ c ∈ t.clauses, a ∈ c.head ∧ BodyHolds c.body c.sum X X := by
  by_contra hno
  push Not at hno
  obtain ⟨hgiven, hfacts, hclauses⟩ := hno
  -- Without support the set would still be a model of its reduct after losing the atom.
  have hsub : X \ {a} ⊆ X := Set.sdiff_subset
  have hmodel : t.Models (X \ {a}) X := by
    refine ⟨fun c hc hbody => ?_, ?_, ?_, ?_, hs.model.required⟩
    · have hX := hbody.mono (ht c hc) hsub
      have hne : ∀ h ∈ c.head, h ≠ a := fun h hh heq => hclauses c hc (heq ▸ hh) hX
      have hrespects := hs.model.clauses c hc hX
      split
      · exact fun h hh hhX => ⟨hhX, hne h hh⟩
      · rw [if_neg ‹_›] at hrespects
        obtain ⟨h, hh, hhX⟩ := hrespects
        exact ⟨h, hh, hhX, hne h hh⟩
    · exact fun b hb hbX => ⟨hbX, fun heq => hgiven (heq ▸ hb)⟩
    · exact fun b hb => ⟨hs.model.facts b hb, fun heq => hfacts (heq ▸ hb)⟩
    · exact fun b hb hbX => hs.model.banned b hb hbX.1
  exact (hs.least _ hsub hmodel ha).2 rfl

end Theory

end StablePlan
