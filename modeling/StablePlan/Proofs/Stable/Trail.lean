import StablePlan.Proofs.Stable.Theory
import StablePlan.Proofs.Stable.Unassigned
import StablePlan.Stable.Assignment

/-!
What happens to an assignment while a search goes down and comes back. Everything that a search
does on its way down is a chain of single assignments to open atoms; what lies below an assignment
leaves the places and values behind its mark alone, and taking it back to the mark gives the values
of the assignment again.
-/

namespace StablePlan

def InRange (max atom : Nat) : Prop := 0 < atom ∧ atom ≤ max

instance (max atom : Nat) : Decidable (InRange max atom) :=
  inferInstanceAs (Decidable (_ ∧ _))

theorem InRange.mono {m n atom : Nat} (h : InRange m atom) (hle : m ≤ n) : InRange n atom :=
  ⟨h.1, h.2.trans hle⟩

namespace Assignment

structure Valid (a : Assignment) (max : Nat) : Prop where
  size_values : a.values.size = max + 1
  unassigned : a.unassigned.Valid max
  value_zero : a.atomValue 0 = none
  contains_iff : ∀ atom, InRange max atom →
    (a.unassigned.contains atom ↔ a.atomValue atom = none)

/-- A set of atoms that gives every assigned atom its value. -/
def Agrees (a : Assignment) (X : Set Nat) : Prop :=
  ∀ atom v, a.atomValue atom = some v → (atom ∈ X ↔ v = true)

/-- A chain of assignments to open atoms. -/
inductive Reaches (max : Nat) : Assignment → Assignment → Prop
  | refl (a : Assignment) : Reaches max a a
  | assign {a b : Assignment} {l : Literal} : a.isOpen l → InRange max l.atom →
      Reaches max (a.assign l).1 b → Reaches max a b

/-- The second assignment differs from the first only in what was open there. -/
structure Below (a b : Assignment) : Prop where
  size_le : b.unassigned.size ≤ a.unassigned.size
  le_placeOf : ∀ mark atom, a.unassigned.size ≤ mark →
    (mark ≤ b.unassigned.placeOf atom ↔ mark ≤ a.unassigned.placeOf atom)
  value : ∀ atom, a.unassigned.size ≤ a.unassigned.placeOf atom →
    b.atomValue atom = a.atomValue atom

variable {a b c : Assignment} {max : Nat} {l : Literal} {X : Set Nat}

theorem atomValue_eq_none_of_lt (h : a.Valid max) {atom : Nat} (hlt : max < atom) :
    a.atomValue atom = none := by
  have hsize := h.size_values
  simp only [atomValue, Array.getD_eq_getD_getElem?]
  grind

theorem valid_empty (max : Nat) : (empty max).Valid max := by
  have hvalue : ∀ atom, (empty max).atomValue atom = none := fun atom => by
    simp only [atomValue, empty, Array.getD_eq_getD_getElem?]
    grind
  refine ⟨by simp [empty], Unassigned.valid_upTo max, hvalue 0, fun atom hrange => ?_⟩
  rw [hvalue]
  have hvalid := Unassigned.valid_upTo max
  have hplace := hvalid.placeOf_lt atom hrange.1 hrange.2
  simp only [iff_true]
  exact hvalid.contains_iff.mpr ⟨hrange.1, hrange.2, hplace⟩

theorem agrees_empty (max : Nat) (X : Set Nat) : (empty max).Agrees X := by
  intro atom v h
  simp only [atomValue, empty, Array.getD_eq_getD_getElem?] at h
  grind

theorem isOpen_iff : a.isOpen l ↔ a.atomValue l.atom = none := by
  cases h : a.atomValue l.atom <;> simp [isOpen, value, h]

theorem assign_snd_of_isOpen (h : a.isOpen l) : (a.assign l).2 = true := by
  rw [isOpen_iff] at h
  simp [assign, value, h]

theorem assign_fst_of_isOpen (h : a.isOpen l) :
    (a.assign l).1 = ⟨a.values.setIfInBounds l.atom (some l.isPositive),
      a.unassigned.remove l.atom⟩ := by
  rw [isOpen_iff] at h
  simp [assign, value, h]

theorem atomValue_assign (hv : a.Valid max) (h : a.isOpen l) (hr : InRange max l.atom)
    (atom : Nat) : (a.assign l).1.atomValue atom =
      if atom = l.atom then some l.isPositive else a.atomValue atom := by
  have hsize := hv.size_values
  obtain ⟨hpos, hle⟩ := hr
  rw [assign_fst_of_isOpen h]
  simp only [atomValue, Array.getD_eq_getD_getElem?]
  grind

theorem Valid.contains_of_isOpen (hv : a.Valid max) (h : a.isOpen l) (hr : InRange max l.atom) :
    a.unassigned.contains l.atom :=
  (hv.contains_iff _ hr).mpr (isOpen_iff.mp h)

theorem Valid.assign (hv : a.Valid max) (h : a.isOpen l) (hr : InRange max l.atom) :
    (a.assign l).1.Valid max := by
  have hc := hv.contains_of_isOpen h hr
  refine ⟨?_, ?_, ?_, fun atom hatom => ?_⟩
  · rw [assign_fst_of_isOpen h]
    simpa using hv.size_values
  · rw [assign_fst_of_isOpen h]
    exact hv.unassigned.remove hc
  · rw [atomValue_assign hv h hr, if_neg (by have := hr.1; omega)]
    exact hv.value_zero
  · rw [atomValue_assign hv h hr]
    rw [assign_fst_of_isOpen h, hv.unassigned.contains_remove hc, hv.contains_iff atom hatom]
    split <;> simp [*]

theorem Valid.size_assign (hv : a.Valid max) (h : a.isOpen l) (hr : InRange max l.atom) :
    (a.assign l).1.unassigned.size + 1 = a.unassigned.size := by
  rw [assign_fst_of_isOpen h]
  exact hv.unassigned.size_remove (hv.contains_of_isOpen h hr)

theorem Agrees.assign (hX : a.Agrees X) (hv : a.Valid max) (h : a.isOpen l)
    (hr : InRange max l.atom) (hl : l.HoldsIn X X) : (a.assign l).1.Agrees X := by
  intro atom v hvalue
  rw [atomValue_assign hv h hr] at hvalue
  split at hvalue
  · subst atom
    unfold Literal.HoldsIn at hl
    grind
  · exact hX atom v hvalue

theorem Below.refl (a : Assignment) : Below a a :=
  ⟨le_rfl, fun _ _ _ => Iff.rfl, fun _ _ => rfl⟩

theorem Below.trans (h : Below a b) (h' : Below b c) : Below a c := by
  refine ⟨h'.size_le.trans h.size_le, fun mark atom hm => ?_, fun atom hplace => ?_⟩
  · rw [h'.le_placeOf mark atom (h.size_le.trans hm), h.le_placeOf mark atom hm]
  · rw [h'.value atom, h.value atom hplace]
    exact h.size_le.trans ((h.le_placeOf _ atom le_rfl).mpr hplace)

theorem Valid.below_assign (hv : a.Valid max) (h : a.isOpen l) (hr : InRange max l.atom) :
    Below a (a.assign l).1 := by
  have hc := hv.contains_of_isOpen h hr
  have hplace := (hv.unassigned.contains_iff.mp hc).2.2
  refine ⟨?_, fun mark atom hm => ?_, fun atom hle => ?_⟩
  · have := hv.size_assign h hr
    omega
  · rw [assign_fst_of_isOpen h]
    exact hv.unassigned.le_placeOf_remove hc hm atom
  · rw [atomValue_assign hv h hr, if_neg]
    rintro rfl
    omega

namespace Reaches

theorem trans (h : Reaches max a b) (h' : Reaches max b c) : Reaches max a c := by
  induction h with
  | refl => exact h'
  | assign hopen hr _ ih => exact .assign hopen hr (ih h')

theorem single (h : a.isOpen l) (hr : InRange max l.atom) : Reaches max a (a.assign l).1 :=
  .assign h hr (.refl _)

theorem valid (h : Reaches max a b) (hv : a.Valid max) : b.Valid max := by
  induction h with
  | refl => exact hv
  | assign hopen hr _ ih => exact ih (hv.assign hopen hr)

theorem isBelow (h : Reaches max a b) (hv : a.Valid max) : Below a b := by
  induction h with
  | refl => exact Below.refl _
  | assign hopen hr _ ih =>
      exact (hv.below_assign hopen hr).trans (ih (hv.assign hopen hr))

/-- As long as no fewer atoms are open, nothing was assigned. -/
theorem eq_of_size_le (h : Reaches max a b) (hv : a.Valid max)
    (hsize : a.unassigned.size ≤ b.unassigned.size) : b = a := by
  cases h with
  | refl => rfl
  | assign hopen hr hrest =>
      have hdrop := hv.size_assign hopen hr
      have hle := (hrest.isBelow (hv.assign hopen hr)).size_le
      omega

/-- A set that agrees with the end of a chain agrees with its start. -/
theorem agrees_of (h : Reaches max a b) (hv : a.Valid max) (hX : b.Agrees X) : a.Agrees X := by
  induction h with
  | refl => exact hX
  | @assign a b l hopen hr _ ih =>
      intro atom v hvalue
      apply ih (hv.assign hopen hr) hX atom v
      rw [atomValue_assign hv hopen hr, if_neg]
      · exact hvalue
      · rintro rfl
        rw [isOpen_iff, hvalue] at hopen
        exact absurd hopen (by simp)

/-- What is open at the end of a chain was open at its start. -/
theorem isOpen_of (h : Reaches max a b) (hv : a.Valid max) (hl : b.isOpen l) : a.isOpen l := by
  induction h with
  | refl => exact hl
  | @assign a b m hopen hr _ ih =>
      have hmid := isOpen_iff.mp (ih (hv.assign hopen hr) hl)
      rw [atomValue_assign hv hopen hr] at hmid
      split at hmid
      · simp at hmid
      · exact isOpen_iff.mpr hmid

end Reaches

theorem foldl_clear (atoms : List Nat) (values : Array (Option Bool)) (atom : Nat) :
    (atoms.foldl (fun values atom => values.setIfInBounds atom none) values).getD atom none =
      if atom ∈ atoms then none else values.getD atom none := by
  induction atoms generalizing values with
  | nil => simp
  | cons x xs ih =>
      rw [List.foldl_cons, ih]
      simp only [Array.getD_eq_getD_getElem?]
      grind

theorem size_foldl_clear (atoms : List Nat) (values : Array (Option Bool)) :
    (atoms.foldl (fun values atom => values.setIfInBounds atom none) values).size =
      values.size := by
  induction atoms generalizing values with
  | nil => rfl
  | cons x xs ih => rw [List.foldl_cons, ih, Array.size_setIfInBounds]

section Undo

variable {mark : Nat}

theorem atomValue_undo (hv : a.Valid max) (hm : mark ≤ max) (atom : Nat) :
    (a.undo mark).atomValue atom =
      if InRange max atom ∧ a.unassigned.placeOf atom < mark then none
      else a.atomValue atom := by
  rw [atomValue, undo, foldl_clear, ← atomValue]
  have hmem : atom ∈ a.unassigned.removedSince mark ↔ _ := hv.unassigned.mem_removedSince hm
  have hcontains := hv.contains_iff atom
  rw [hv.unassigned.contains_iff] at hcontains
  unfold InRange at *
  grind

theorem undo_unassigned (hv : a.Valid max) (hm : mark ≤ max) :
    (a.undo mark).unassigned = { a.unassigned with size := mark } := by
  have horder := hv.unassigned.size_order
  simp [undo, Unassigned.restore, horder, hm]

theorem Valid.undo (hv : a.Valid max) (hm : mark ≤ max) (hsize : a.unassigned.size ≤ mark) :
    (a.undo mark).Valid max := by
  have hrestored : (a.undo mark).unassigned.Valid max := hv.unassigned.restore hm
  refine ⟨?_, hrestored, ?_, fun atom hr => ?_⟩
  · rw [Assignment.undo, size_foldl_clear]
    exact hv.size_values
  · rw [atomValue_undo hv hm, hv.value_zero]
    simp
  · have hcontains := hv.contains_iff atom hr
    have hnew : (a.undo mark).unassigned = { a.unassigned with size := mark } :=
      undo_unassigned hv hm
    rw [atomValue_undo hv hm]
    rw [hv.unassigned.contains_iff] at hcontains
    rw [hrestored.contains_iff, hnew]
    change 0 < atom ∧ atom ≤ max ∧ a.unassigned.placeOf atom < mark ↔ _
    unfold InRange at *
    grind

/-- Taken back to its mark, what lies below an assignment has its values again. -/
theorem Below.atomValue_undo (h : Below a b) (ha : a.Valid max) (hb : b.Valid max) (atom : Nat) :
    (b.undo a.unassigned.size).atomValue atom = a.atomValue atom := by
  have hsize := ha.unassigned.size_le
  rw [Assignment.atomValue_undo hb hsize]
  have hplace := h.le_placeOf a.unassigned.size atom le_rfl
  split
  · rename_i hopen
    refine ((ha.contains_iff atom hopen.1).mp ?_).symm
    refine ha.unassigned.contains_iff.mpr ⟨hopen.1.1, hopen.1.2, ?_⟩
    omega
  · rename_i hclosed
    by_cases hr : InRange max atom
    · exact h.value atom (by grind)
    · rcases Nat.eq_zero_or_pos atom with rfl | hpos
      · rw [ha.value_zero, hb.value_zero]
      · have hlt : max < atom := by
          unfold InRange at hr
          omega
        rw [atomValue_eq_none_of_lt ha hlt, atomValue_eq_none_of_lt hb hlt]

theorem Below.undo (h : Below a b) (ha : a.Valid max) (hb : b.Valid max) :
    Below a (b.undo a.unassigned.size) := by
  have hsize := ha.unassigned.size_le
  have hunassigned := undo_unassigned hb hsize
  refine ⟨?_, fun mark atom hm => ?_, fun atom _ => h.atomValue_undo ha hb atom⟩
  · rw [hunassigned]
  · rw [hunassigned]
    exact h.le_placeOf mark atom hm

end Undo

end Assignment

end StablePlan
