import StablePlan.Proofs.Program.Renaming
import StablePlan.Transition.Template

/-!
Two ways to the atom of an index at a step. Relocation moves a whole rule up by the steps before,
checks the offset once and then every atom; a literal of the template is computed from step and
index. Both agree on every atom of the two bands, and both fail only where the atom itself is out
of range, whichever check it is that notices.
-/

namespace StablePlan

/-- A function that is a map on some elements and fails on the others. -/
theorem mapM_eq_ite {α β : Type} {P : α → Prop} [DecidablePred P] {f : α → Option β} {g : α → β}
    (hf : ∀ x, f x = if P x then some (g x) else none) (xs : List α) :
    xs.mapM f = if ∀ x ∈ xs, P x then some (xs.map g) else none := by
  induction xs with
  | nil => rfl
  | cons x xs ih =>
      rw [List.mapM_cons, ih, hf]
      by_cases hx : P x
      · by_cases hxs : ∀ y ∈ xs, P y
        · rw [if_pos hx, if_pos hxs, if_pos (List.forall_mem_cons.mpr ⟨hx, hxs⟩)]
          rfl
        · rw [if_pos hx, if_neg hxs, if_neg fun h => hxs (List.forall_mem_cons.mp h).2]
          rfl
      · rw [if_neg hx, if_neg fun h => hx (List.forall_mem_cons.mp h).1]
        rfl

theorem bind_ite_bind_ite {α β γ : Type} {P Q : Prop} [Decidable P] [Decidable Q] (x : α) (y : β)
    (f : α → β → γ) : ((if P then some x else none).bind fun a =>
      (if Q then some y else none).bind fun b => some (f a b)) =
        if P ∧ Q then some (f x y) else none := by
  by_cases hP : P <;> by_cases hQ : Q <;> simp [hP, hQ]

/-- The rule with every atom moved up, without regard to the range. -/
def Rule.movedUp (r : Rule) (offset : Nat) : Rule :=
  ⟨r.choice, r.head.map (· + offset), r.body.map fun l => l.withAtom (l.atom + offset)⟩

def WeightRule.movedUp (r : WeightRule) (offset : Nat) : WeightRule :=
  ⟨r.choice, r.head.map (· + offset), r.lower,
    r.body.map fun e => (e.1.withAtom (e.1.atom + offset), e.2)⟩

theorem Rule.forall_mem_atoms {r : Rule} {P : Nat → Prop} :
    (∀ a ∈ r.clause.atoms, P a) ↔ (∀ a ∈ r.head, P a) ∧ ∀ l ∈ r.body, P l.atom := by
  simp [Clause.atoms, Rule.clause, or_imp, forall_and]

theorem WeightRule.forall_mem_atoms {r : WeightRule} {P : Nat → Prop} :
    (∀ a ∈ r.clause.atoms, P a) ↔ (∀ a ∈ r.head, P a) ∧ ∀ e ∈ r.body, P e.1.atom := by
  refine ⟨fun h => ⟨fun a ha => h a (Clause.mem_atoms_of_head ha),
    fun e he => h _ (Clause.mem_atoms_of_sum rfl he)⟩, fun ⟨hhead, hbody⟩ a ha => ?_⟩
  simp only [Clause.atoms, WeightRule.clause, List.map_nil, List.append_nil, Option.toList_some,
    List.flatMap_singleton, List.mem_append, List.mem_map] at ha
  rcases ha with ha | ⟨e, he, rfl⟩
  · exact hhead a ha
  · exact hbody e he

namespace Template

variable {t : Template} {s s' k k' n a : Nat} {atoms : List Nat} {r : Rule} {w : WeightRule}
  {l : Literal}

/-! ### Literals of indices -/

/-- The index of a step and the step itself can be read off an atom. -/
theorem eq_of_mul_add_eq {p s s' k k' : Nat} (hk : 1 ≤ k ∧ k ≤ p) (hk' : 1 ≤ k' ∧ k' ≤ p)
    (heq : s * p + k = s' * p + k') : s = s' ∧ k = k' := by
  rcases Nat.lt_trichotomy s s' with hlt | rfl | hlt
  · have hmul : (s + 1) * p ≤ s' * p := Nat.mul_le_mul_right p hlt
    rw [Nat.add_mul] at hmul
    omega
  · omega
  · have hmul : (s' + 1) * p ≤ s * p := Nat.mul_le_mul_right p hlt
    rw [Nat.add_mul] at hmul
    omega

theorem literal?_eq_some_iff : t.literal? s k = some l ↔
    0 < s * t.period + k ∧ s * t.period + k ≤ maxAtom ∧ l = .positive (s * t.period + k) := by
  unfold literal? Literal.checked
  split
  · rename_i hrange
    rw [Option.some.injEq]
    exact ⟨fun heq => ⟨hrange.1, hrange.2, heq.symm⟩, fun h => h.2.2.symm⟩
  · rename_i hrange
    exact ⟨fun h => absurd h (by simp), fun h => absurd ⟨h.1, h.2.1⟩ hrange⟩

theorem literal?_injective (hk : 1 ≤ k ∧ k ≤ t.period) (hk' : 1 ≤ k' ∧ k' ≤ t.period)
    (h : t.literal? s k = some l) (h' : t.literal? s' k' = some l) : s = s' ∧ k = k' := by
  obtain ⟨-, -, rfl⟩ := literal?_eq_some_iff.mp h
  obtain ⟨-, -, heq⟩ := literal?_eq_some_iff.mp h'
  have hraw := congrArg Literal.atom heq
  simp only [Literal.positive, Literal.atom, Int.natAbs_natCast] at hraw
  exact eq_of_mul_add_eq hk hk' hraw

theorem le_maxAtom_of_fits (hfits : t.fits n) (hp : t.period ≠ 0) :
    n * t.period + t.period ≤ maxAtom := by
  unfold fits literal? Literal.checked at hfits
  by_contra hlt
  rw [if_neg fun h => hlt h.2] at hfits
  simp [hp] at hfits

theorem fits_iff : t.fits n ↔
    ∀ s ≤ n, ∀ k, 1 ≤ k → k ≤ t.period → (t.literal? s k).isSome := by
  constructor
  · intro hfits s hs k hone hk
    have hmax := le_maxAtom_of_fits hfits (by omega)
    have hmul : s * t.period ≤ n * t.period := Nat.mul_le_mul_right _ hs
    rw [Option.isSome_iff_exists]
    exact ⟨_, literal?_eq_some_iff.mpr ⟨by omega, by omega, rfl⟩⟩
  · intro hall
    unfold fits
    rw [Bool.or_eq_true, beq_iff_eq]
    refine (Nat.eq_zero_or_pos t.period).imp_right fun hpos => ?_
    exact hall n le_rfl t.period hpos le_rfl

/-! ### Moving rules -/

/-- Some atom would leave the range at the step. -/
def Overflows (t : Template) (s : Nat) (atoms : List Nat) : Prop :=
  ∃ a ∈ atoms, maxAtom < a + (s - 1) * t.period

theorem offset?_cases (t : Template) (s : Nat) :
    t.offset? s = some ((s - 1) * t.period) ∨ t.offset? s = none := by
  unfold offset?
  dsimp only
  split
  · exact Or.inl rfl
  · exact Or.inr rfl

theorem mapM_moveAtom (offset : Nat) (head : List Nat) : head.mapM (moveAtom offset) =
    if ∀ a ∈ head, a + offset ≤ maxAtom then some (head.map (· + offset)) else none :=
  mapM_eq_ite (fun _ => rfl) head

theorem shift_eq_ite (l : Literal) (offset : Nat) : l.shift offset =
    if l.atom + offset ≤ maxAtom then some (l.withAtom (l.atom + offset)) else none := by
  unfold Literal.shift
  exact if_congr ⟨And.right, fun hle => ⟨by omega, hle⟩⟩ rfl rfl

theorem moveElement_eq_ite (offset : Nat) (e : Literal × Int) : moveElement offset e =
    if e.1.atom + offset ≤ maxAtom then some (e.1.withAtom (e.1.atom + offset), e.2)
    else none := by
  unfold moveElement
  rw [shift_eq_ite]
  split <;> rfl

/-- With an offset of 32 bits the atoms alone decide. -/
theorem relocate_of_offset? {offset : Nat} (h : t.offset? s = some offset) : t.relocate r s =
    if ∀ a ∈ r.clause.atoms, a + offset ≤ maxAtom then some (r.movedUp offset) else none := by
  unfold relocate
  rw [h, if_congr Rule.forall_mem_atoms rfl rfl]
  simp only [Option.bind_eq_bind, Option.bind_some, mapM_moveAtom,
    mapM_eq_ite (shift_eq_ite · offset)]
  exact bind_ite_bind_ite _ _ _

theorem relocateWeight_of_offset? {offset : Nat} (h : t.offset? s = some offset) :
    t.relocateWeight w s =
      if ∀ a ∈ w.clause.atoms, a + offset ≤ maxAtom then some (w.movedUp offset) else none := by
  unfold relocateWeight
  rw [h, if_congr WeightRule.forall_mem_atoms rfl rfl]
  simp only [Option.bind_eq_bind, Option.bind_some, mapM_moveAtom,
    mapM_eq_ite (moveElement_eq_ite offset)]
  exact bind_ite_bind_ite _ _ _

/-- If there is an atom at all, an offset beyond 32 bits takes it out of the range. -/
theorem overflows_of_offset? (h : t.offset? s = none) (hne : atoms ≠ []) :
    t.Overflows s atoms := by
  obtain ⟨a, ha⟩ := List.exists_mem_of_ne_nil _ hne
  refine ⟨a, ha, ?_⟩
  have hmax : maxAtom < Nat.pow 2 32 := by decide
  unfold offset? at h
  dsimp only at h
  split at h
  · exact absurd h (by simp)
  · omega

theorem relocate_of_overflows (h : t.Overflows s r.clause.atoms) : t.relocate r s = none := by
  rcases t.offset?_cases s with hoffset | hoffset
  · rw [relocate_of_offset? hoffset, if_neg]
    obtain ⟨a, ha, hlt⟩ := h
    exact fun hall => absurd (hall a ha) (Nat.not_le.mpr hlt)
  · unfold relocate
    rw [hoffset]
    rfl

theorem relocate_of_not_overflows (h : ¬t.Overflows s r.clause.atoms) (hne : r.clause.atoms ≠ []) :
    t.relocate r s = some (r.movedUp ((s - 1) * t.period)) := by
  rcases t.offset?_cases s with hoffset | hoffset
  · rw [relocate_of_offset? hoffset, if_pos]
    exact fun a ha => Nat.not_lt.mp fun hlt => h ⟨a, ha, hlt⟩
  · exact absurd (overflows_of_offset? hoffset hne) h

theorem relocateWeight_of_overflows (h : t.Overflows s w.clause.atoms) :
    t.relocateWeight w s = none := by
  rcases t.offset?_cases s with hoffset | hoffset
  · rw [relocateWeight_of_offset? hoffset, if_neg]
    obtain ⟨a, ha, hlt⟩ := h
    exact fun hall => absurd (hall a ha) (Nat.not_le.mpr hlt)
  · unfold relocateWeight
    rw [hoffset]
    rfl

theorem relocateWeight_of_not_overflows (h : ¬t.Overflows s w.clause.atoms)
    (hne : w.clause.atoms ≠ []) :
    t.relocateWeight w s = some (w.movedUp ((s - 1) * t.period)) := by
  rcases t.offset?_cases s with hoffset | hoffset
  · rw [relocateWeight_of_offset? hoffset, if_pos]
    exact fun a ha => Nat.not_lt.mp fun hlt => h ⟨a, ha, hlt⟩
  · exact absurd (overflows_of_offset? hoffset hne) h

/-! ### Both ways -/

/-- The literal of an index of the two bands at a step: one of the second band belongs to the step
itself, and one of the first to the step before. -/
def Names (t : Template) (s a : Nat) (l : Literal) : Prop :=
  ∃ k, 1 ≤ k ∧ k ≤ t.period ∧
    (a = t.period + k ∧ t.literal? s k = some l ∨ a = k ∧ t.literal? (s - 1) k = some l)

theorem names_movedUp (hs : 1 ≤ s) (ha : 1 ≤ a ∧ a ≤ 2 * t.period)
    (hle : a + (s - 1) * t.period ≤ maxAtom) :
    t.Names s a (.positive (a + (s - 1) * t.period)) := by
  obtain ⟨j, rfl⟩ : ∃ j, s = j + 1 := ⟨s - 1, by omega⟩
  have hsucc : (j + 1) * t.period = j * t.period + t.period := Nat.succ_mul j t.period
  rw [Nat.add_sub_cancel] at hle ⊢
  unfold Names
  simp only [literal?_eq_some_iff, Nat.add_sub_cancel, hsucc]
  rcases Nat.lt_or_ge t.period a with hband | hband
  · refine ⟨a - t.period, by omega, by omega, Or.inl ⟨by omega, by omega, by omega, ?_⟩⟩
    congr 1
    omega
  · refine ⟨a, ha.1, hband, Or.inr ⟨rfl, by omega, by omega, ?_⟩⟩
    congr 1
    omega

/-- The literal has the sign of the other and the atom of its index. -/
def Moves (t : Template) (s : Nat) (l l' : Literal) : Prop :=
  l'.isPositive = l.isPositive ∧ t.Names s l.atom (.positive l'.atom)

theorem moves_withAtom (hs : 1 ≤ s) (hl : 1 ≤ l.atom ∧ l.atom ≤ 2 * t.period)
    (hle : l.atom + (s - 1) * t.period ≤ maxAtom) :
    t.Moves s l (l.withAtom (l.atom + (s - 1) * t.period)) := by
  refine ⟨Literal.isPositive_withAtom (by omega), ?_⟩
  rw [Literal.atom_withAtom]
  exact names_movedUp hs hl hle

/-- The rule with its atoms under the names that they have at a step. -/
structure Relocates (t : Template) (s : Nat) (r r' : Rule) : Prop where
  choice : r'.choice = r.choice
  head : List.Forall₂ (fun a a' => t.Names s a (.positive a')) r.head r'.head
  body : List.Forall₂ (t.Moves s) r.body r'.body

structure RelocatesWeight (t : Template) (s : Nat) (w w' : WeightRule) : Prop where
  choice : w'.choice = w.choice
  lower : w'.lower = w.lower
  head : List.Forall₂ (fun a a' => t.Names s a (.positive a')) w.head w'.head
  body : List.Forall₂ (fun e e' => t.Moves s e.1 e'.1 ∧ e'.2 = e.2) w.body w'.body

theorem relocates_movedUp (hs : 1 ≤ s) (hr : ∀ a ∈ r.clause.atoms, 1 ≤ a ∧ a ≤ 2 * t.period)
    (h : ¬t.Overflows s r.clause.atoms) : t.Relocates s r (r.movedUp ((s - 1) * t.period)) := by
  have hle : ∀ a ∈ r.clause.atoms, a + (s - 1) * t.period ≤ maxAtom :=
    fun a ha => Nat.not_lt.mp fun hlt => h ⟨a, ha, hlt⟩
  obtain ⟨hhead, hbody⟩ := Rule.forall_mem_atoms.mp hr
  obtain ⟨hhead', hbody'⟩ := Rule.forall_mem_atoms.mp hle
  refine ⟨rfl, ?_, ?_⟩
  · exact List.forall₂_map_right_iff.mpr (List.forall₂_same.mpr fun a ha =>
      names_movedUp hs (hhead a ha) (hhead' a ha))
  · exact List.forall₂_map_right_iff.mpr (List.forall₂_same.mpr fun l hl =>
      moves_withAtom hs (hbody l hl) (hbody' l hl))

theorem relocatesWeight_movedUp (hs : 1 ≤ s)
    (hw : ∀ a ∈ w.clause.atoms, 1 ≤ a ∧ a ≤ 2 * t.period) (h : ¬t.Overflows s w.clause.atoms) :
    t.RelocatesWeight s w (w.movedUp ((s - 1) * t.period)) := by
  have hle : ∀ a ∈ w.clause.atoms, a + (s - 1) * t.period ≤ maxAtom :=
    fun a ha => Nat.not_lt.mp fun hlt => h ⟨a, ha, hlt⟩
  obtain ⟨hhead, hbody⟩ := WeightRule.forall_mem_atoms.mp hw
  obtain ⟨hhead', hbody'⟩ := WeightRule.forall_mem_atoms.mp hle
  refine ⟨rfl, rfl, ?_, ?_⟩
  · exact List.forall₂_map_right_iff.mpr (List.forall₂_same.mpr fun a ha =>
      names_movedUp hs (hhead a ha) (hhead' a ha))
  · exact List.forall₂_map_right_iff.mpr (List.forall₂_same.mpr fun e he =>
      ⟨moves_withAtom hs (hbody e he) (hbody' e he), rfl⟩)

/-- Relocation and the literals of a template agree. A rule with an atom, all in the two bands, is
moved to a step unless one of its atoms would leave the range; each head and each literal of either
sign becomes what the template calls its index there, and all else is kept. Literals of indices are
apart, and those of all steps exist exactly if the last one fits. -/
theorem relocation_exact (t : Template) :
    (∀ s, 1 ≤ s → ∀ r : Rule, r.clause.atoms ≠ [] →
      (∀ a ∈ r.clause.atoms, 1 ≤ a ∧ a ≤ 2 * t.period) →
        (t.relocate r s = none ↔ t.Overflows s r.clause.atoms) ∧
          ∀ r', t.relocate r s = some r' → t.Relocates s r r') ∧
      (∀ s, 1 ≤ s → ∀ w : WeightRule, w.clause.atoms ≠ [] →
        (∀ a ∈ w.clause.atoms, 1 ≤ a ∧ a ≤ 2 * t.period) →
          (t.relocateWeight w s = none ↔ t.Overflows s w.clause.atoms) ∧
            ∀ w', t.relocateWeight w s = some w' → t.RelocatesWeight s w w') ∧
        (∀ s s' k k' l, (1 ≤ k ∧ k ≤ t.period) → (1 ≤ k' ∧ k' ≤ t.period) →
          t.literal? s k = some l → t.literal? s' k' = some l → s = s' ∧ k = k') ∧
          ∀ n, t.fits n ↔ ∀ s ≤ n, ∀ k, 1 ≤ k → k ≤ t.period → (t.literal? s k).isSome := by
  refine ⟨fun s hs r hne hr => ?_, fun s hs w hne hw => ?_,
    fun s s' k k' l hk hk' => literal?_injective hk hk', fun n => fits_iff⟩
  · by_cases h : t.Overflows s r.clause.atoms
    · rw [relocate_of_overflows h]
      exact ⟨iff_of_true rfl h, fun r' hr' => absurd hr' (by simp)⟩
    · rw [relocate_of_not_overflows h hne]
      refine ⟨iff_of_false (by simp) h, fun r' hr' => ?_⟩
      exact Option.some.inj hr' ▸ relocates_movedUp hs hr h
  · by_cases h : t.Overflows s w.clause.atoms
    · rw [relocateWeight_of_overflows h]
      exact ⟨iff_of_true rfl h, fun w' hw' => absurd hw' (by simp)⟩
    · rw [relocateWeight_of_not_overflows h hne]
      refine ⟨iff_of_false (by simp) h, fun w' hw' => ?_⟩
      exact Option.some.inj hw' ▸ relocatesWeight_movedUp hs hw h

/-- A template of three indices. -/
def threeIndices : Template := { (default : Template) with period := 3 }

/-- A choice over index 1 of a step and of the step before. -/
def edgeRule : Rule := ⟨true, [4, 1], [.negative 2, .positive 4]⟩

/-- At step 715827882 atom 4 becomes the largest there is. A step later it is out of range while
atom 1 is not, and in the end it is the offset itself that overflows. -/
theorem relocation_exact_edgeRule :
    (∃ r', threeIndices.relocate edgeRule 715827882 = some r' ∧
        threeIndices.Relocates 715827882 edgeRule r') ∧
      threeIndices.relocate edgeRule 715827883 = none ∧
        threeIndices.relocate edgeRule 1431655767 = none := by
  have hexact := fun s hs => (relocation_exact threeIndices).1 s hs edgeRule (by decide) (by decide)
  have hmoves : ∀ a ∈ edgeRule.clause.atoms, ¬maxAtom < a + (715827882 - 1) * 3 := by decide
  refine ⟨?_, (hexact _ (by decide)).1.mpr ⟨4, by decide, by decide⟩,
    (hexact _ (by decide)).1.mpr ⟨4, by decide, by decide⟩⟩
  obtain ⟨hnone, hsome⟩ := hexact 715827882 (by decide)
  obtain ⟨r', hr'⟩ := Option.ne_none_iff_exists'.mp fun h =>
    let ⟨a, ha, hlt⟩ := hnone.mp h
    hmoves a ha hlt
  exact ⟨r', hr', hsome r' hr'⟩

end Template

end StablePlan
