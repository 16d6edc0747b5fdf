import StablePlan.Proofs.Program.Meaning

/-!
How a rule may be changed where the value of an atom is known. A rule that has a true head atom or
a false literal says nothing; what is true in its body and what is false in its head can go, and
the weight of what is true comes off the bound. `D` is a part of `X` throughout.
-/

namespace StablePlan

namespace Clause

variable {choice : Bool} {head : List Nat} {body : List Literal} {sum : Option WeightSum}
  {D X : Set Nat} {a : Nat} {l : Literal}

/-- Heads and bodies are sets. -/
theorem obeys_congr {head' : List Nat} {body' : List Literal} (hhead : ∀ h, h ∈ head' ↔ h ∈ head)
    (hbody : ∀ l, l ∈ body' ↔ l ∈ body) :
    (⟨choice, head', body', sum⟩ : Clause).Obeys D X ↔
      (⟨choice, head, body, sum⟩ : Clause).Obeys D X := by
  have hne : head' ≠ [] ↔ head ≠ [] := by
    simp only [ne_eq, List.eq_nil_iff_forall_not_mem, hhead]
  unfold Obeys BodyHolds
  simp only [hhead, hbody, hne]

/-! ### Heads -/

theorem obeys_of_mem_head (hDX : D ⊆ X) (hmem : a ∈ head) (ha : a ∈ D) :
    (⟨false, head, body, sum⟩ : Clause).Obeys D X := by
  refine fun _ => ⟨List.ne_nil_of_mem hmem, fun h hh hothers => ?_⟩
  by_cases heq : a = h
  · exact heq ▸ ha
  · exact absurd (hDX ha) (hothers a hmem heq)

theorem mem_or_eq_of_erase {α : Type} [BEq α] [LawfulBEq α] {xs : List α} (x : α) {y : α}
    (h : y ∈ xs) :
    y ∈ xs.erase x ∨ y = x := by
  by_cases heq : y = x
  · exact Or.inr heq
  · exact Or.inl ((List.mem_erase_of_ne heq).mpr h)

theorem obeys_erase_head_of_mem (ha : a ∈ D) :
    (⟨true, head.erase a, body, sum⟩ : Clause).Obeys D X ↔
      (⟨true, head, body, sum⟩ : Clause).Obeys D X := by
  refine imp_congr_right fun _ => ?_
  simp only [if_true]
  constructor
  · intro hall h hh hX
    rcases mem_or_eq_of_erase a hh with hmem | rfl
    · exact hall h hmem hX
    · exact ha
  · exact fun hall h hh => hall h (List.mem_of_mem_erase hh)

theorem obeys_erase_head_of_not_mem (hDX : D ⊆ X) (ha : a ∉ X) :
    (⟨choice, head.erase a, body, sum⟩ : Clause).Obeys D X ↔
      (⟨choice, head, body, sum⟩ : Clause).Obeys D X := by
  refine imp_congr_right fun _ => ?_
  have hothers : ∀ h, (∀ k ∈ head.erase a, k ≠ h → k ∉ X) ↔ ∀ k ∈ head, k ≠ h → k ∉ X := by
    refine fun h => ⟨fun hall k hk => ?_, fun hall k hk => hall k (List.mem_of_mem_erase hk)⟩
    rcases mem_or_eq_of_erase a hk with hmem | rfl
    · exact hall k hmem
    · exact fun _ => ha
  cases choice with
  | true =>
      simp only [if_true]
      constructor
      · intro hall h hh hX
        rcases mem_or_eq_of_erase a hh with hmem | rfl
        · exact hall h hmem hX
        · exact absurd hX ha
      · exact fun hall h hh => hall h (List.mem_of_mem_erase hh)
  | false =>
      simp only [hothers, Bool.false_eq_true, if_false]
      constructor
      · rintro ⟨hne, hall⟩
        obtain ⟨x, hx⟩ := List.exists_mem_of_ne_nil _ hne
        refine ⟨List.ne_nil_of_mem (List.mem_of_mem_erase hx), fun h hh hno => ?_⟩
        rcases mem_or_eq_of_erase a hh with hmem | rfl
        · exact hall h hmem hno
        · -- The other atoms are not in `X`, and yet one of them follows.
          by_cases heq : x = h
          · exact hall h (heq ▸ hx) hno
          · have hxX := hno x (List.mem_of_mem_erase hx) heq
            refine absurd (hDX (hall x hx fun k hk hkx => ?_)) hxX
            by_cases hkh : k = h
            · exact hkh ▸ ha
            · exact hno k hk hkh
      · rintro ⟨hne, hall⟩
        refine ⟨fun hnil => ?_, fun h hh => hall h (List.mem_of_mem_erase hh)⟩
        obtain ⟨x, hx⟩ := List.exists_mem_of_ne_nil _ hne
        have honly : ∀ k ∈ head, k = a := fun k hk =>
          (mem_or_eq_of_erase a hk).resolve_left (by simp [hnil])
        obtain rfl := honly x hx
        exact ha (hDX (hall x hx fun k hk hkx => absurd (honly k hk) hkx))

/-! ### Bodies -/

theorem obeys_of_not_holdsIn (hmem : l ∈ body) (hl : ¬l.HoldsIn D X) :
    (⟨choice, head, body, sum⟩ : Clause).Obeys D X := fun hbody =>
  absurd (hbody.1 l hmem) hl

theorem obeys_erase_body (hl : l.HoldsIn D X) :
    (⟨choice, head, body.erase l, sum⟩ : Clause).Obeys D X ↔
      (⟨choice, head, body, sum⟩ : Clause).Obeys D X := by
  have hbody : BodyHolds (body.erase l) sum D X ↔ BodyHolds body sum D X := by
    refine and_congr_left fun _ => ⟨fun hall m hm => ?_, fun hall m hm =>
      hall m (List.mem_of_mem_erase hm)⟩
    rcases mem_or_eq_of_erase l hm with hmem | rfl
    · exact hall m hmem
    · exact hl
  unfold Obeys
  simp only [hbody]

/-! ### Rules of special shape -/

theorem obeys_choice_nil : (⟨true, [], body, sum⟩ : Clause).Obeys D X := by
  simp [Obeys]

theorem obeys_fact_iff : (⟨false, [a], [], none⟩ : Clause).Obeys D X ↔ a ∈ D := by
  simp [Obeys, BodyHolds]

theorem not_obeys_empty : ¬(⟨false, [], [], none⟩ : Clause).Obeys D X := by
  simp [Obeys, BodyHolds]

theorem obeys_constraint_iff :
    (⟨false, [], body, sum⟩ : Clause).Obeys D X ↔ ¬BodyHolds body sum D X := by
  simp [Obeys]

theorem obeys_literal_iff : (⟨false, [], [l], none⟩ : Clause).Obeys D X ↔ ¬l.HoldsIn D X := by
  simp [obeys_constraint_iff, BodyHolds]

end Clause

/-! ### Weights -/

namespace WeightSum

variable {elements : List (Literal × Int)} {D X : Set Nat} {l : Literal}

/-- The weight of a sum splits into that of one literal and that of the others. -/
theorem weightIn_split (hl : l.HoldsIn D X) (lower lower' : Int) :
    (⟨lower, elements⟩ : WeightSum).weightIn D X =
      exactWeight (elements.filter fun e => e.1 == l) +
        (⟨lower', elements.filter fun e => e.1 != l⟩ : WeightSum).weightIn D X := by
  unfold weightIn
  dsimp only
  induction elements with
  | nil => simp
  | cons e es ih =>
      rw [List.map_cons, List.sum_cons, ih, List.filter_cons, List.filter_cons]
      by_cases heq : e.1 = l
      · simp [heq, hl]
        omega
      · simp [heq]
        omega

theorem weightIn_without (hl : ¬l.HoldsIn D X) (lower lower' : Int) :
    (⟨lower', elements.filter fun e => e.1 != l⟩ : WeightSum).weightIn D X =
      (⟨lower, elements⟩ : WeightSum).weightIn D X := by
  unfold weightIn
  dsimp only
  induction elements with
  | nil => simp
  | cons e es ih =>
      rw [List.map_cons, List.sum_cons, ← ih, List.filter_cons]
      by_cases heq : e.1 = l
      · simp [heq, hl]
      · simp [heq]

theorem weightIn_nonneg (hw : ∀ e ∈ elements, 0 ≤ e.2) (lower : Int) (D X : Set Nat) :
    0 ≤ (⟨lower, elements⟩ : WeightSum).weightIn D X := by
  unfold weightIn
  dsimp only
  induction elements with
  | nil => simp
  | cons e es ih =>
      have hhead := hw e (by simp)
      have htail := ih fun e he => hw e (by simp [he])
      rw [List.map_cons, List.sum_cons]
      split <;> omega

theorem weightIn_le_exactWeight (hw : ∀ e ∈ elements, 0 ≤ e.2) (lower : Int) (D X : Set Nat) :
    (⟨lower, elements⟩ : WeightSum).weightIn D X ≤ exactWeight elements := by
  refine sum_map_mono fun e he => ?_
  have := hw e he
  split <;> omega

end WeightSum

namespace Clause

variable {choice : Bool} {head : List Nat} {body : List Literal} {lower : Int}
  {elements : List (Literal × Int)} {D X : Set Nat} {l : Literal}

theorem bodyHolds_sum_iff : BodyHolds [] (some ⟨lower, elements⟩) D X ↔
    lower ≤ (⟨lower, elements⟩ : WeightSum).weightIn D X := by
  simp [BodyHolds]

theorem obeys_satisfied_weight (hl : l.HoldsIn D X) :
    (⟨choice, head, [], some ⟨lower - exactWeight (elements.filter fun e => e.1 == l),
        elements.filter fun e => e.1 != l⟩⟩ : Clause).Obeys D X ↔
      (⟨choice, head, [], some ⟨lower, elements⟩⟩ : Clause).Obeys D X := by
  have hbound : ∀ w rest : Int, lower - w ≤ rest ↔ lower ≤ w + rest := fun w rest => by omega
  unfold Obeys
  dsimp only
  rw [bodyHolds_sum_iff, bodyHolds_sum_iff, WeightSum.weightIn_split hl lower, hbound]

theorem obeys_falsified_weight (hl : ¬l.HoldsIn D X) :
    (⟨choice, head, [], some ⟨lower, elements.filter fun e => e.1 != l⟩⟩ : Clause).Obeys D X ↔
      (⟨choice, head, [], some ⟨lower, elements⟩⟩ : Clause).Obeys D X := by
  unfold Obeys
  dsimp only
  rw [bodyHolds_sum_iff, bodyHolds_sum_iff, WeightSum.weightIn_without hl lower]

/-- A bound that is reached at once can be left out. -/
theorem obeys_reached_iff (hw : ∀ e ∈ elements, 0 ≤ e.2) (hlower : lower ≤ 0) :
    (⟨choice, head, [], some ⟨lower, elements⟩⟩ : Clause).Obeys D X ↔
      (⟨choice, head, [], none⟩ : Clause).Obeys D X := by
  have hreached := hlower.trans (WeightSum.weightIn_nonneg hw lower D X)
  unfold Obeys
  dsimp only
  rw [bodyHolds_sum_iff]
  simp [hreached, BodyHolds]

theorem obeys_of_exactWeight_lt (hw : ∀ e ∈ elements, 0 ≤ e.2)
    (htotal : exactWeight elements < lower) :
    (⟨choice, head, [], some ⟨lower, elements⟩⟩ : Clause).Obeys D X := by
  intro hbody
  have hle := WeightSum.weightIn_le_exactWeight hw lower D X
  rw [bodyHolds_sum_iff] at hbody
  omega

theorem obeys_single_weight_iff {w : Int} (hlower : 0 < lower) (hw : lower ≤ w) :
    (⟨false, [], [], some ⟨lower, [(l, w)]⟩⟩ : Clause).Obeys D X ↔ ¬l.HoldsIn D X := by
  rw [obeys_constraint_iff, bodyHolds_sum_iff]
  by_cases hl : l.HoldsIn D X
  · simp [WeightSum.weightIn, hl, hw]
  · simp [WeightSum.weightIn, hl, hlower]

end Clause

end StablePlan
