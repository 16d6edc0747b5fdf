import StablePlan.Proofs.Program.Meaning
import StablePlan.Proofs.Results

/-!
Renaming the atoms of a rule. If different atoms of a head keep different names, the renamed rule
says of the sets over the new names what the rule says of those over the old ones.
-/

namespace StablePlan

section Literals

variable {l : Literal} {a : Nat} {D X E F : Set Nat}

theorem Literal.isPositive_withAtom (ha : 0 < a) : (l.withAtom a).isPositive = l.isPositive := by
  unfold withAtom
  by_cases hl : l.isPositive = true
  · rw [if_pos hl, hl]
    simpa [isPositive, positive] using ha
  · rw [if_neg hl]
    rw [Bool.eq_false_of_not_eq_true hl]
    simp [isPositive, negative]

@[simp] theorem Literal.atom_withAtom (l : Literal) (a : Nat) : (l.withAtom a).atom = a := by
  unfold withAtom
  split
  · simp [atom, positive]
  · simp [atom, negative]

theorem Literal.holdsIn_withAtom (ha : 0 < a) (hD : a ∈ D ↔ l.atom ∈ E)
    (hX : a ∈ X ↔ l.atom ∈ F) : (l.withAtom a).HoldsIn D X ↔ l.HoldsIn E F := by
  unfold HoldsIn
  rw [isPositive_withAtom ha, atom_withAtom]
  split
  · exact hD
  · exact not_congr hX

end Literals

namespace Clause

variable {c : Clause} {ρ : Nat → Nat} {D X E F : Set Nat}

/-- The atoms of a rule, from left to right. -/
def atoms (c : Clause) : List Nat :=
  c.head ++ c.body.map Literal.atom ++
    c.sum.toList.flatMap fun s => s.elements.map fun e => e.1.atom

/-- The rule under new names. -/
def mapAtoms (ρ : Nat → Nat) (c : Clause) : Clause where
  choice := c.choice
  head := c.head.map ρ
  body := c.body.map fun l => l.withAtom (ρ l.atom)
  sum := c.sum.map fun s => ⟨s.lower, s.elements.map fun e => (e.1.withAtom (ρ e.1.atom), e.2)⟩

/-- A rule keeps its weights under new names. -/
theorem HasFittingWeights.mapAtoms (h : c.HasFittingWeights) (ρ : Nat → Nat) :
    (c.mapAtoms ρ).HasFittingWeights := by
  intro s' hs'
  obtain ⟨s, hs, rfl⟩ := Option.map_eq_some_iff.mp hs'
  exact (h s hs).of_map_eq (by simp [Function.comp_def])

theorem mem_atoms_of_head {a : Nat} (h : a ∈ c.head) : a ∈ c.atoms := by
  simp [atoms, h]

theorem mem_atoms_of_body {l : Literal} (h : l ∈ c.body) : l.atom ∈ c.atoms := by
  unfold atoms
  rw [List.mem_append, List.mem_append, List.mem_map]
  exact Or.inl (Or.inr ⟨l, h, rfl⟩)

theorem mem_atoms_of_sum {s : WeightSum} (hs : s ∈ c.sum) {e : Literal × Int}
    (he : e ∈ s.elements) : e.1.atom ∈ c.atoms := by
  unfold atoms
  rw [List.mem_append, List.mem_flatMap]
  exact Or.inr ⟨s, Option.mem_toList.mpr hs, List.mem_map.mpr ⟨e, he, rfl⟩⟩

theorem atoms_mapAtoms (ρ : Nat → Nat) (c : Clause) : (c.mapAtoms ρ).atoms = c.atoms.map ρ := by
  unfold atoms mapAtoms
  cases c.sum with
  | none => simp [Function.comp_def]
  | some s => simp [Function.comp_def]

theorem weightIn_mapAtoms {s : WeightSum} (h : ∀ e ∈ s.elements,
      ((e.1.withAtom (ρ e.1.atom)).HoldsIn D X ↔ e.1.HoldsIn E F)) :
    (⟨s.lower, s.elements.map fun e => (e.1.withAtom (ρ e.1.atom), e.2)⟩ : WeightSum).weightIn D X =
      s.weightIn E F := by
  unfold WeightSum.weightIn
  rw [List.map_map]
  congr 1
  refine List.map_congr_left fun e he => ?_
  have hiff := h e he
  by_cases hholds : e.1.HoldsIn E F
  · simp [hholds, hiff.mpr hholds]
  · simp [hholds, mt hiff.mp hholds]

theorem bodyHolds_mapAtoms
    (h : ∀ l : Literal, l.atom ∈ c.atoms →
      ((l.withAtom (ρ l.atom)).HoldsIn D X ↔ l.HoldsIn E F)) :
    BodyHolds (c.mapAtoms ρ).body (c.mapAtoms ρ).sum D X ↔ BodyHolds c.body c.sum E F := by
  unfold BodyHolds mapAtoms
  dsimp only
  rw [List.forall_mem_map]
  refine and_congr (forall₂_congr fun l hl => h l (mem_atoms_of_body hl)) ?_
  cases hsum : c.sum with
  | none => simp
  | some s =>
      have hweight := weightIn_mapAtoms (ρ := ρ) (D := D) (X := X) (E := E) (F := F) (s := s)
        fun e he => h e.1 (mem_atoms_of_sum hsum he)
      simp [hweight]

theorem obeys_mapAtoms (hinj : ∀ a ∈ c.head, ∀ b ∈ c.head, ρ a = ρ b → a = b)
    (hpos : ∀ a ∈ c.atoms, 0 < ρ a) (hD : ∀ a ∈ c.atoms, ρ a ∈ D ↔ a ∈ E)
    (hX : ∀ a ∈ c.atoms, ρ a ∈ X ↔ a ∈ F) : (c.mapAtoms ρ).Obeys D X ↔ c.Obeys E F := by
  unfold Obeys
  rw [bodyHolds_mapAtoms fun l hl => Literal.holdsIn_withAtom (hpos _ hl) (hD _ hl) (hX _ hl)]
  refine imp_congr_right fun _ => ?_
  have hchoice : (c.mapAtoms ρ).choice = c.choice := rfl
  have hhead : (c.mapAtoms ρ).head = c.head.map ρ := rfl
  rw [hchoice, hhead]
  by_cases hc : c.choice = true
  · rw [if_pos hc, if_pos hc, List.forall_mem_map]
    refine forall₂_congr fun a ha => ?_
    rw [hD a (mem_atoms_of_head ha), hX a (mem_atoms_of_head ha)]
  · rw [if_neg hc, if_neg hc, List.forall_mem_map]
    refine and_congr (by simp) (forall₂_congr fun a ha => ?_)
    rw [List.forall_mem_map, hD a (mem_atoms_of_head ha)]
    refine imp_congr_left (forall₂_congr fun b hb => ?_)
    rw [hX b (mem_atoms_of_head hb)]
    refine imp_congr_left (not_congr ⟨hinj b hb a ha, ?_⟩)
    rintro rfl
    rfl

end Clause

end StablePlan
