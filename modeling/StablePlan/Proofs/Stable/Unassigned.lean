import Mathlib.Data.Set.Basic
import StablePlan.Stable.Unassigned

/-!
The sparse set of atoms without a value. Its array is a permutation of the atoms and the positions
are its inverse; a removal touches no place from the current size on, so the places behind a mark
stay as they were until the set is taken back to the mark.
-/

namespace StablePlan

theorem getD_setIfInBounds {α : Type} (xs : Array α) (i j : Nat) (v d : α) :
    (xs.setIfInBounds i v).getD j d = if i = j ∧ j < xs.size then v else xs.getD j d := by
  rw [Array.getD_eq_getD_getElem?, Array.getElem?_setIfInBounds, Array.getD_eq_getD_getElem?]
  by_cases hij : i = j
  · subst hij
    by_cases hlt : i < xs.size
    · simp [hlt]
    · simp [hlt]
  · simp [hij]

theorem getD_swapIfInBounds {α : Type} {xs : Array α} {i j : Nat} (hi : i < xs.size)
    (hj : j < xs.size) (k : Nat) (d : α) :
    (xs.swapIfInBounds i j).getD k d =
      if k = j then xs.getD i d else if k = i then xs.getD j d else xs.getD k d := by
  rw [Array.swapIfInBounds_def, dif_pos hi, dif_pos hj, Array.getD_eq_getD_getElem?,
    Array.getElem?_swap]
  simp only [Array.getD_eq_getD_getElem?, eq_comm (a := k)]
  split
  · simp [hi]
  · split
    · simp [hj]
    · rfl

namespace Unassigned

/-- The atom that stands at a place. -/
def atomAt (u : Unassigned) (i : Nat) : Nat := u.order.getD i 0

/-- The place of an atom. -/
def placeOf (u : Unassigned) (atom : Nat) : Nat := u.position.getD atom 0

/-- The atoms from 1 to `max` and the places below `max` name each other. -/
structure Valid (u : Unassigned) (max : Nat) : Prop where
  size_order : u.order.size = max
  size_position : u.position.size = max + 1
  size_le : u.size ≤ max
  placeOf_zero : u.placeOf 0 = max
  placeOf_lt : ∀ atom, 0 < atom → atom ≤ max → u.placeOf atom < max
  atomAt_placeOf : ∀ atom, 0 < atom → atom ≤ max → u.atomAt (u.placeOf atom) = atom
  atomAt_pos : ∀ i < max, 0 < u.atomAt i
  atomAt_le : ∀ i < max, u.atomAt i ≤ max
  placeOf_atomAt : ∀ i < max, u.placeOf (u.atomAt i) = i

theorem valid_upTo (max : Nat) : (upTo max).Valid max := by
  have hatom : ∀ i < max, (upTo max).atomAt i = i + 1 := by
    intro i hi
    simp [upTo, atomAt, hi, Nat.add_comm]
  have hplace : ∀ i < max, (upTo max).placeOf (i + 1) = i := by
    intro i hi
    simp [upTo, placeOf, Array.getElem?_append, hi]
  have hzero : (upTo max).placeOf 0 = max := by
    show (#[max] ++ Array.range max).getD 0 0 = max
    rw [Array.getD_eq_getD_getElem?, Array.getElem?_append_left (Nat.zero_lt_one)]
    rfl
  refine ⟨by simp [upTo], by simp [upTo, Nat.add_comm], le_rfl, hzero, ?_, ?_, ?_, ?_, ?_⟩
  · intro atom hpos hle
    obtain ⟨i, rfl⟩ := Nat.exists_eq_add_of_lt hpos
    rw [Nat.zero_add, hplace i (by omega)]
    omega
  · intro atom hpos hle
    obtain ⟨i, rfl⟩ := Nat.exists_eq_add_of_lt hpos
    rw [Nat.zero_add, hplace i (by omega), hatom i (by omega)]
  · intro i hi
    rw [hatom i hi]
    omega
  · intro i hi
    rw [hatom i hi]
    omega
  · intro i hi
    rw [hatom i hi, hplace i hi]

namespace Valid

variable {u : Unassigned} {max atom : Nat}

theorem getElem?_position (h : u.Valid max) (atom : Nat) :
    u.position[atom]? = if atom ≤ max then some (u.placeOf atom) else none := by
  have hsize := h.size_position
  unfold placeOf
  rw [Array.getD_eq_getD_getElem?]
  by_cases hle : atom ≤ max
  · have hlt : atom < u.position.size := by omega
    simp [hle, hlt]
  · have hge : u.position.size ≤ atom := by omega
    simp [hle, hge]

theorem contains_iff (h : u.Valid max) :
    u.contains atom ↔ 0 < atom ∧ atom ≤ max ∧ u.placeOf atom < u.size := by
  have hzero := h.placeOf_zero
  have hsize := h.size_le
  unfold contains
  rw [h.getElem?_position]
  by_cases hle : atom ≤ max
  · rw [if_pos hle]
    simp only [decide_eq_true_eq, hle, true_and, iff_and_self]
    intro hlt
    rcases Nat.eq_zero_or_pos atom with rfl | hpos
    · omega
    · exact hpos
  · simp [hle]

/-- What a removal does to an atom that is present. -/
theorem remove_eq (h : u.Valid max) (hc : u.contains atom) : u.remove atom =
    ⟨u.order.swapIfInBounds (u.placeOf atom) (u.size - 1),
      (u.position.setIfInBounds atom (u.size - 1)).setIfInBounds (u.atomAt (u.size - 1))
        (u.placeOf atom), u.size - 1⟩ := by
  obtain ⟨-, hle, hplace⟩ := h.contains_iff.mp hc
  have hposition : u.position[atom]? = some (u.placeOf atom) := by
    rw [h.getElem?_position, if_pos hle]
  unfold Unassigned.remove
  simp only [hposition, if_pos hplace]
  rfl

theorem placeOf_remove (h : u.Valid max) (hc : u.contains atom) (other : Nat) :
    (u.remove atom).placeOf other =
      if other = u.atomAt (u.size - 1) then u.placeOf atom
      else if other = atom then u.size - 1 else u.placeOf other := by
  obtain ⟨hpos, hle, hplace⟩ := h.contains_iff.mp hc
  have hsize := h.size_position
  have hbound := h.size_le
  have hlast := h.atomAt_le (u.size - 1) (by omega)
  rw [h.remove_eq hc]
  unfold placeOf
  rw [getD_setIfInBounds, getD_setIfInBounds, Array.size_setIfInBounds]
  by_cases hother : other = u.atomAt (u.size - 1)
  · rw [if_pos ⟨hother.symm, by omega⟩, if_pos hother]
  · rw [if_neg (fun h => hother h.1.symm), if_neg hother]
    by_cases hatom : other = atom
    · rw [if_pos ⟨hatom.symm, by omega⟩, if_pos hatom]
    · rw [if_neg (fun h => hatom h.1.symm), if_neg hatom]

theorem atomAt_remove (h : u.Valid max) (hc : u.contains atom) (i : Nat) :
    (u.remove atom).atomAt i =
      if i = u.size - 1 then atom
      else if i = u.placeOf atom then u.atomAt (u.size - 1) else u.atomAt i := by
  obtain ⟨hpos, hle, hplace⟩ := h.contains_iff.mp hc
  have hatom := h.atomAt_placeOf atom hpos hle
  have horder := h.size_order
  have hbound := h.size_le
  rw [h.remove_eq hc]
  unfold atomAt at hatom ⊢
  rw [getD_swapIfInBounds (by omega) (by omega), hatom]

theorem size_remove (h : u.Valid max) (hc : u.contains atom) :
    (u.remove atom).size + 1 = u.size := by
  obtain ⟨-, -, hplace⟩ := h.contains_iff.mp hc
  rw [h.remove_eq hc]
  change u.size - 1 + 1 = u.size
  omega

/-- The last atom that is present and the removed one change places. -/
theorem remove (h : u.Valid max) (hc : u.contains atom) : (u.remove atom).Valid max := by
  obtain ⟨hpos, hle, hplace⟩ := h.contains_iff.mp hc
  have hsize := h.size_remove hc
  have hbound := h.size_le
  have hatom := h.atomAt_placeOf atom hpos hle
  have hlastpos := h.atomAt_pos (u.size - 1) (by omega)
  have hlastle := h.atomAt_le (u.size - 1) (by omega)
  have hlast := h.placeOf_atomAt (u.size - 1) (by omega)
  have hplaces := h.placeOf_remove hc
  have hatoms := h.atomAt_remove hc
  refine ⟨?_, ?_, by omega, ?_, ?_, ?_, ?_, ?_, ?_⟩
  · rw [h.remove_eq hc]
    simp [h.size_order]
  · rw [h.remove_eq hc]
    simp [h.size_position]
  · rw [hplaces, if_neg (by omega), if_neg (by omega), h.placeOf_zero]
  · intro other hother hmax
    have hlt := h.placeOf_lt other hother hmax
    rw [hplaces]
    split_ifs <;> omega
  · intro other hother hmax
    have hback := h.atomAt_placeOf other hother hmax
    rw [hplaces]
    by_cases hl : other = u.atomAt (u.size - 1)
    · rw [if_pos hl, hatoms]
      by_cases hsame : u.placeOf atom = u.size - 1
      · rw [if_pos hsame, hl, ← hsame, hatom]
      · rw [if_neg hsame, if_pos rfl, hl]
    · rw [if_neg hl]
      by_cases ha : other = atom
      · rw [if_pos ha, hatoms, if_pos rfl, ha]
      · have hne : u.placeOf other ≠ u.size - 1 := fun heq => hl (by rw [← heq, hback])
        have hne' : u.placeOf other ≠ u.placeOf atom := fun heq => ha (by rw [← hback, heq, hatom])
        rw [if_neg ha, hatoms, if_neg hne, if_neg hne', hback]
  · intro i hi
    have hipos := h.atomAt_pos i hi
    rw [hatoms]
    split_ifs <;> omega
  · intro i hi
    have hile := h.atomAt_le i hi
    rw [hatoms]
    split_ifs <;> omega
  · intro i hi
    have hback := h.placeOf_atomAt i hi
    rw [hatoms]
    by_cases hl : i = u.size - 1
    · rw [if_pos hl, hplaces]
      by_cases hsame : atom = u.atomAt (u.size - 1)
      · rw [if_pos hsame, hl, ← hlast, ← hsame]
      · rw [if_neg hsame, if_pos rfl, hl]
    · rw [if_neg hl]
      by_cases hp : i = u.placeOf atom
      · rw [if_pos hp, hplaces, if_pos rfl, hp]
      · have hne : u.atomAt i ≠ u.atomAt (u.size - 1) := fun heq => hl (by rw [← hback, heq, hlast])
        have hne' : u.atomAt i ≠ atom := fun heq => hp (by rw [← hback, heq])
        rw [if_neg hp, hplaces, if_neg hne, if_neg hne', hback]

theorem contains_remove (h : u.Valid max) (hc : u.contains atom) (other : Nat) :
    (u.remove atom).contains other ↔ u.contains other ∧ other ≠ atom := by
  obtain ⟨hpos, hle, hplace⟩ := h.contains_iff.mp hc
  have hsize := h.size_remove hc
  have hplaces := h.placeOf_remove hc other
  have hinv := h.placeOf_atomAt (u.size - 1) (by have := h.size_le; omega)
  have hat := h.atomAt_placeOf
  rw [(h.remove hc).contains_iff, h.contains_iff, hplaces]
  grind

/-- The places from the size on stay as they are. -/
theorem le_placeOf_remove (h : u.Valid max) (hc : u.contains atom) {mark : Nat}
    (hm : u.size ≤ mark) (other : Nat) :
    mark ≤ (u.remove atom).placeOf other ↔ mark ≤ u.placeOf other := by
  obtain ⟨hpos, hle, hplace⟩ := h.contains_iff.mp hc
  have hplaces := h.placeOf_remove hc other
  have hinv := h.placeOf_atomAt (u.size - 1) (by have := h.size_le; omega)
  grind

theorem restore (h : u.Valid max) {mark : Nat} (hm : mark ≤ max) : (u.restore mark).Valid max := by
  have horder := h.size_order
  simp only [Unassigned.restore, horder, hm, if_true]
  exact ⟨h.size_order, h.size_position, hm, h.placeOf_zero, h.placeOf_lt, h.atomAt_placeOf,
    h.atomAt_pos, h.atomAt_le, h.placeOf_atomAt⟩

theorem mem_removedSince (h : u.Valid max) {mark : Nat} (hm : mark ≤ max) :
    atom ∈ u.removedSince mark ↔
      0 < atom ∧ atom ≤ max ∧ u.size ≤ u.placeOf atom ∧ u.placeOf atom < mark := by
  have horder := h.size_order
  have hat : ∀ i, (hi : i < u.order.size) → u.atomAt i = u.order[i] := fun i hi => by
    simp [atomAt, hi]
  simp only [removedSince, Array.mem_toList_iff, Array.mem_extract_iff_getElem]
  constructor
  · rintro ⟨i, hi, rfl⟩
    rw [← hat _ (by omega), h.placeOf_atomAt _ (by omega)]
    exact ⟨h.atomAt_pos _ (by omega), h.atomAt_le _ (by omega), by omega, by omega⟩
  · rintro ⟨hpos, hle, hlow, hhigh⟩
    refine ⟨u.placeOf atom - u.size, by omega, ?_⟩
    have hplace : u.size + (u.placeOf atom - u.size) = u.placeOf atom := by omega
    simp only [hplace]
    rw [← hat _ (by omega), h.atomAt_placeOf atom hpos hle]

theorem first?_eq_none_iff (h : u.Valid max) : u.first? = none ↔ u.size = 0 := by
  have horder := h.size_order
  have hsize := h.size_le
  simp only [first?]
  grind

theorem contains_of_first? (h : u.Valid max) (hf : u.first? = some atom) : u.contains atom := by
  have horder := h.size_order
  have hsize := h.size_le
  have hpos := h.atomAt_pos 0
  have hle := h.atomAt_le 0
  have hplace := h.placeOf_atomAt 0
  rw [h.contains_iff]
  simp only [first?, atomAt, Array.getD_eq_getD_getElem?] at *
  grind

end Valid

end Unassigned

end StablePlan
