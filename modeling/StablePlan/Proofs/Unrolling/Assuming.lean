import StablePlan.Proofs.Ascending
import StablePlan.Proofs.Stable.Trail
import StablePlan.Unrolling.Basic

/-!
What an unrolling assumes. Entering a step assumes its externals false, and an assignment changes
one switch; the assumptions of a solve call hold in a set of atoms if the set has the assumed
values.
-/

namespace StablePlan

/-! ### Switches -/

namespace Switch

instance : Std.TransOrd Switch :=
  inferInstanceAs (Std.TransCmp (compareLex (compareOn step) (compareOn index)))

instance : Std.LawfulEqOrd Switch where
  compare_self := Std.ReflOrd.compare_self
  eq_of_compare := fun {a b} h => by
    obtain ⟨hstep, hindex⟩ := Ordering.then_eq_eq.mp h
    obtain ⟨step, index⟩ := a
    obtain ⟨step', index'⟩ := b
    obtain rfl : step = step' := Std.LawfulEqOrd.eq_of_compare hstep
    obtain rfl : index = index' := Std.LawfulEqOrd.eq_of_compare hindex
    rfl

end Switch

theorem Literal.signed_injective {a a' : Nat} {v v' : Bool} (ha : 0 < a)
    (h : (if v then positive a else (positive a).negate) =
      if v' then positive a' else negative a') : v = v' ∧ a = a' := by
  have hraw := congrArg Literal.raw h
  cases v <;> cases v' <;> simp [positive, negative, negate] at hraw ⊢ <;> omega

/-- The index is the handle of an external. -/
def Template.IsHandle (t : Template) (k : Nat) : Prop := ∃ symbol, (symbol, k) ∈ t.externals

/-- The value to assume, if one is to be assumed for good or for bad. -/
def ExternalValue.ofBool (value : Bool) : ExternalValue := if value then .on else .off

namespace Unrolling

variable {u : Unrolling} {s k step index first count : Nat} {v value : Bool} {X : Set Nat}
  {table : List (Switch × Bool)}

/-- The value that is assumed for a switch. -/
def value? (u : Unrolling) (step index : Nat) : Option Bool :=
  Ascending.get? ⟨step, index⟩ u.assigned

/-- The unrolling with other assumptions. -/
def assuming (u : Unrolling) (table : List (Switch × Bool)) : Unrolling :=
  { u with assigned := table }

/-! ### Assignments -/

theorem assign_eq_ok (h : u.isGrounded step) (index : Nat) (value : Bool) :
    u.assign ⟨step, index⟩ (.ofBool value) =
      .ok (u.assuming (Ascending.put ⟨step, index⟩ value u.assigned)) := by
  unfold assign
  rw [if_neg (by simp [h])]
  cases value <;> rfl

theorem value?_put : (u.assuming (Ascending.put ⟨step, index⟩ value u.assigned)).value? s k =
    if s = step ∧ k = index then some value else u.value? s k := by
  unfold value? assuming
  rw [Ascending.get?_put]
  simp

theorem value?_remove : (u.assuming (Ascending.remove ⟨step, index⟩ u.assigned)).value? s k =
    if s = step ∧ k = index then none else u.value? s k := by
  unfold value? assuming
  rw [Ascending.get?_remove]
  simp

/-! ### New steps -/

open Classical in
theorem get?_foldl_put (entries : List (Symbol × Nat)) (step : Nat)
    (table : List (Switch × Bool)) :
    Ascending.get? ⟨s, k⟩ (entries.foldl
        (fun table entry => Ascending.put ⟨step, entry.2⟩ false table) table) =
      if s = step ∧ ∃ symbol, (symbol, k) ∈ entries then some false
      else Ascending.get? ⟨s, k⟩ table := by
  induction entries generalizing table with
  | nil => simp
  | cons entry entries ih =>
      obtain ⟨symbol, j⟩ := entry
      rw [List.foldl_cons, ih, Ascending.get?_put]
      simp only [Switch.mk.injEq, List.mem_cons, Prod.mk.injEq, exists_or, exists_and_right]
      by_cases hs : s = step <;> by_cases hk : k = j <;> simp [hs, hk]

open Classical in
theorem value?_enter : (u.enter step).value? s k =
    if s = step ∧ u.template.IsHandle k then some false else u.value? s k := get?_foldl_put _ _ _

theorem isSorted_enter (h : Ascending.IsSorted u.assigned) :
    Ascending.IsSorted (u.enter step).assigned := by
  unfold enter
  dsimp only
  generalize u.template.externals = entries
  generalize u.assigned = table at h ⊢
  induction entries generalizing table with
  | nil => exact h
  | cons entry entries ih => exact ih _ (Ascending.isSorted_put h _ _)

/-- What entering steps in turn leaves as it is. -/
theorem foldl_enter (h : Ascending.IsSorted u.assigned) (first count : Nat) :
    ((List.range' first count).foldl enter u).template = u.template ∧
      ((List.range' first count).foldl enter u).started = u.started ∧
        Ascending.IsSorted ((List.range' first count).foldl enter u).assigned := by
  induction count generalizing first u with
  | zero => exact ⟨rfl, rfl, h⟩
  | succ count ih =>
      rw [List.range'_succ, List.foldl_cons]
      exact ih (isSorted_enter h) (first + 1)

theorem steps_foldl_enter (u : Unrolling) (first count : Nat) :
    ((List.range' first count).foldl enter u).steps =
      if count = 0 then u.steps else first + count - 1 := by
  induction count generalizing first u with
  | zero => rfl
  | succ count ih =>
      rw [List.range'_succ, List.foldl_cons, ih]
      by_cases hcount : count = 0
      · simp [hcount, enter]
      · rw [if_neg hcount, if_neg (by omega)]
        omega

open Classical in
theorem value?_foldl_enter : ((List.range' first count).foldl enter u).value? s k =
    if (first ≤ s ∧ s < first + count) ∧ u.template.IsHandle k then some false
    else u.value? s k := by
  induction count generalizing first u with
  | zero =>
      rw [if_neg (by omega)]
      rfl
  | succ count ih =>
      rw [List.range'_succ, List.foldl_cons, ih, value?_enter]
      have htemplate : (u.enter first).template = u.template := rfl
      rw [htemplate]
      -- Later steps do not touch the switches of the first one.
      by_cases hk : u.template.IsHandle k
      · simp only [hk, and_true]
        by_cases hs : s = first
        · rw [if_neg (by omega), if_pos hs, if_pos (by omega)]
        · simp only [hs, if_false]
          refine if_congr ?_ rfl rfl
          omega
      · simp [hk]

/-! ### Assumptions -/

/-- Every switch is about an atom in range. -/
def Assumable (u : Unrolling) : Prop := ∀ s k v, u.value? s k = some v →
  InRange maxAtom (s * u.template.period + k)

theorem literal?_eq (h : InRange maxAtom (s * u.template.period + k)) :
    u.literal? ⟨s, k⟩ = some (.positive (s * u.template.period + k)) := if_pos h

/-- What is assumed are the switches with their values. -/
theorem mem_assumptions_iff (hsorted : Ascending.IsSorted u.assigned) (hrange : u.Assumable)
    {l : Literal} : l ∈ u.assumptions ↔ ∃ s k v, u.value? s k = some v ∧
      l = if v then .positive (s * u.template.period + k)
        else .negative (s * u.template.period + k) := by
  have hassumption : ∀ s k v, u.value? s k = some v → u.assumption? (⟨s, k⟩, v) =
      some (if v then .positive (s * u.template.period + k)
        else .negative (s * u.template.period + k)) := by
    intro s k v hv
    unfold assumption?
    rw [literal?_eq (hrange s k v hv)]
    cases v <;> rfl
  unfold assumptions
  rw [List.mem_filterMap]
  constructor
  · rintro ⟨⟨⟨s, k⟩, v⟩, hmem, hl⟩
    have hv : u.value? s k = some v := (Ascending.get?_eq_some_iff hsorted).mpr hmem
    rw [hassumption s k v hv] at hl
    exact ⟨s, k, v, hv, (Option.some.inj hl).symm⟩
  · rintro ⟨s, k, v, hv, rfl⟩
    exact ⟨(⟨s, k⟩, v), (Ascending.get?_eq_some_iff hsorted).mp hv, hassumption s k v hv⟩

theorem atom_of_mem_assumptions (hsorted : Ascending.IsSorted u.assigned) (hrange : u.Assumable)
    {l : Literal} (hl : l ∈ u.assumptions) :
    ∃ s k v, u.value? s k = some v ∧ l.atom = s * u.template.period + k := by
  obtain ⟨s, k, v, hv, rfl⟩ := (mem_assumptions_iff hsorted hrange).mp hl
  refine ⟨s, k, v, hv, ?_⟩
  cases v with
  | true => exact Int.natAbs_natCast _
  | false => exact (Int.natAbs_neg _).trans (Int.natAbs_natCast _)

/-- The assumptions hold where the switches have their values. -/
theorem assumptions_hold_iff (hsorted : Ascending.IsSorted u.assigned) (hrange : u.Assumable) :
    (∀ l ∈ u.assumptions, l.HoldsIn X X) ↔
      ∀ s k v, u.value? s k = some v → (s * u.template.period + k ∈ X ↔ v = true) := by
  have hliteral : ∀ s k v, u.value? s k = some v →
      ((if v then Literal.positive (s * u.template.period + k)
        else .negative (s * u.template.period + k)).HoldsIn X X ↔
          (s * u.template.period + k ∈ X ↔ v = true)) := by
    intro s k v hv
    have hne := (hrange s k v hv).1.ne'
    cases v with
    | true => simp [Literal.holdsIn_positive hne]
    | false => simp
  constructor
  · intro hall s k v hv
    have hmem := (mem_assumptions_iff hsorted hrange).mpr ⟨s, k, v, hv, rfl⟩
    exact (hliteral s k v hv).mp (hall _ hmem)
  · intro hall l hl
    obtain ⟨s, k, v, hv, rfl⟩ := (mem_assumptions_iff hsorted hrange).mp hl
    exact (hliteral s k v hv).mpr (hall s k v hv)

end Unrolling

end StablePlan
