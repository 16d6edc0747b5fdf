import Mathlib.Order.Basic
import Mathlib.Tactic.Tauto
import StablePlan.Ascending

/-!
Sets and tables in the order of their keys. Looking a key up after a change gives the new value for
the key that was changed and the old one for the others; in a sorted table what is found is what is
there.
-/

namespace StablePlan.Ascending

variable {α β : Type} [Ord α]

/-! ### Sets -/

section Sets

variable [Std.LawfulEqOrd α] {x y : α} {xs : List α}

theorem mem_insert : y ∈ insert x xs ↔ y = x ∨ y ∈ xs := by
  induction xs with
  | nil => simp [insert]
  | cons z zs ih =>
      unfold insert
      split
      · simp
      · rename_i heq
        obtain rfl := Std.LawfulEqOrd.eq_of_compare heq
        simp
      · rw [List.mem_cons, ih, List.mem_cons]
        tauto

theorem mem_ofList : y ∈ ofList xs ↔ y ∈ xs := by
  suffices h : ∀ s : List α, y ∈ xs.foldl (fun s x => insert x s) s ↔ y ∈ xs ∨ y ∈ s by
    simpa [ofList] using h []
  induction xs with
  | nil => simp
  | cons x xs ih =>
      intro s
      rw [List.foldl_cons, ih, mem_insert, List.mem_cons]
      tauto

end Sets

/-- A set as a list. -/
def IsAscending (xs : List α) : Prop := xs.Pairwise fun x y => compare x y = .lt

theorem IsAscending.nodup [Std.ReflOrd α] {xs : List α} (h : IsAscending xs) : xs.Nodup := by
  refine h.imp fun {x y} hlt => ?_
  rintro rfl
  rw [Std.compare_self] at hlt
  exact absurd hlt (by simp)

section AscendingSets

variable [Std.TransOrd α] [Std.LawfulEqOrd α] {xs : List α}

theorem isAscending_insert (h : IsAscending xs) (x : α) : IsAscending (insert x xs) := by
  induction xs with
  | nil => exact List.pairwise_singleton _ _
  | cons y ys ih =>
      obtain ⟨hfirst, hrest⟩ := List.pairwise_cons.mp h
      unfold insert
      split
      · rename_i hlt
        refine List.pairwise_cons.mpr ⟨fun z hz => ?_, h⟩
        rcases List.mem_cons.mp hz with rfl | hz
        · exact hlt
        · exact Std.TransCmp.lt_trans hlt (hfirst z hz)
      · rename_i heq
        rwa [Std.LawfulEqOrd.eq_of_compare heq]
      · rename_i hgt
        refine List.pairwise_cons.mpr ⟨fun z hz => ?_, ih hrest⟩
        rcases mem_insert.mp hz with rfl | hz
        · exact Std.OrientedCmp.gt_iff_lt.mp hgt
        · exact hfirst z hz

theorem isAscending_ofList (xs : List α) : IsAscending (ofList xs) := by
  suffices h : ∀ s : List α, IsAscending s → IsAscending (xs.foldl (fun s x => insert x s) s) from
    h [] List.Pairwise.nil
  induction xs with
  | nil => exact fun _ hs => hs
  | cons x xs ih => exact fun s hs => ih _ (isAscending_insert hs x)

end AscendingSets

/-! ### Tables -/

variable {key k : α} {value v : β} {table : List (α × β)}

def IsSorted (table : List (α × β)) : Prop := table.Pairwise fun x y => compare x.1 y.1 = .lt

theorem get?_nil (k : α) : get? k ([] : List (α × β)) = none := rfl

theorem get?_cons (k : α) (entry : α × β) (rest : List (α × β)) :
    get? k (entry :: rest) = if compare k entry.1 = .eq then some entry.2 else get? k rest := by
  unfold get?
  rw [List.find?_cons]
  by_cases h : compare k entry.1 = .eq
  · simp [h]
  · have hne : (compare k entry.1 == .eq) = false := by simpa using h
    rw [if_neg h, hne]

theorem mem_put_self : (key, value) ∈ put key value table := by
  induction table with
  | nil => exact List.mem_singleton_self _
  | cons entry rest ih =>
      unfold put
      split
      · exact List.mem_cons_self
      · exact List.mem_cons_self
      · exact List.mem_cons_of_mem _ ih

theorem eq_or_mem_of_mem_put {entry : α × β} (h : entry ∈ put key value table) :
    entry = (key, value) ∨ entry ∈ table := by
  induction table with
  | nil => exact Or.inl (List.mem_singleton.mp h)
  | cons first rest ih =>
      unfold put at h
      split at h
      · exact List.mem_cons.mp h
      · exact (List.mem_cons.mp h).imp_right (List.mem_cons_of_mem _)
      · rcases List.mem_cons.mp h with rfl | h
        · exact Or.inr List.mem_cons_self
        · exact (ih h).imp_right (List.mem_cons_of_mem _)

section Lawful

variable [Std.LawfulEqOrd α]

theorem mem_put_of_ne (hk : k ≠ key) (h : (k, v) ∈ table) : (k, v) ∈ put key value table := by
  induction table with
  | nil => exact absurd h List.not_mem_nil
  | cons entry rest ih =>
      unfold put
      split
      · exact List.mem_cons_of_mem _ h
      · rename_i heq
        rcases List.mem_cons.mp h with rfl | h
        · exact absurd (Std.LawfulEqOrd.eq_of_compare heq).symm hk
        · exact List.mem_cons_of_mem _ h
      · rcases List.mem_cons.mp h with rfl | h
        · exact List.mem_cons_self
        · exact List.mem_cons_of_mem _ (ih h)

theorem get?_put [DecidableEq α] (k key : α) (value : β) (table : List (α × β)) :
    get? k (put key value table) = if k = key then some value else get? k table := by
  have hself : compare k key = .eq ↔ k = key := Std.compare_eq_iff_eq
  induction table with
  | nil => simp [put, get?_cons, get?_nil, hself]
  | cons entry rest ih =>
      unfold put
      split
      · simp only [get?_cons, hself]
      · rename_i heq
        rw [get?_cons, get?_cons, ← Std.LawfulEqOrd.eq_of_compare heq]
        simp only [hself]
        split <;> simp_all
      · rename_i hgt
        rw [get?_cons, get?_cons, ih]
        by_cases hk : k = key
        · subst hk
          simp [hgt]
        · simp [hk]

theorem get?_remove [DecidableEq α] (k key : α) (table : List (α × β)) :
    get? k (remove key table) = if k = key then none else get? k table := by
  have hself : ∀ x, compare k x = .eq ↔ k = x := fun x => Std.compare_eq_iff_eq
  unfold remove
  induction table with
  | nil => simp [get?_nil]
  | cons entry rest ih =>
      by_cases hentry : compare key entry.1 = .eq
      · rw [List.filter_cons_of_neg (by simp [hentry]), ih, get?_cons]
        obtain rfl := Std.LawfulEqOrd.eq_of_compare hentry
        split
        · rfl
        · rename_i hk
          rw [if_neg fun h => hk ((hself _).mp h)]
      · rw [List.filter_cons_of_pos (by simp [hentry]), get?_cons, ih, get?_cons]
        by_cases hk : k = key
        · subst hk
          simp [hentry]
        · simp [hk]

end Lawful

section Sorted

variable [Std.TransOrd α]

theorem isSorted_put (h : IsSorted table) (key : α) (value : β) :
    IsSorted (put key value table) := by
  induction table with
  | nil => exact List.pairwise_singleton _ _
  | cons entry rest ih =>
      obtain ⟨x, y⟩ := entry
      obtain ⟨hfirst, hrest⟩ := List.pairwise_cons.mp h
      unfold put
      split
      · rename_i hlt
        refine List.pairwise_cons.mpr ⟨fun e he => ?_, h⟩
        rcases List.mem_cons.mp he with rfl | he
        · exact hlt
        · exact Std.TransCmp.lt_trans hlt (hfirst e he)
      · rename_i heq
        refine List.pairwise_cons.mpr ⟨fun e he => ?_, hrest⟩
        exact Std.TransCmp.lt_of_eq_of_lt heq (hfirst e he)
      · rename_i hgt
        refine List.pairwise_cons.mpr ⟨fun e he => ?_, ih hrest⟩
        rcases eq_or_mem_of_mem_put he with rfl | he
        · exact Std.OrientedCmp.gt_iff_lt.mp hgt
        · exact hfirst e he

omit [Std.TransOrd α] in
theorem isSorted_remove (h : IsSorted table) (key : α) : IsSorted (remove key table) :=
  h.sublist List.filter_sublist

omit [Std.TransOrd α] in
/-- In a sorted table there is one value for a key. -/
theorem get?_eq_some_iff [Std.LawfulEqOrd α] (h : IsSorted table) :
    get? k table = some v ↔ (k, v) ∈ table := by
  induction table with
  | nil => simp [get?_nil]
  | cons entry rest ih =>
      obtain ⟨x, y⟩ := entry
      obtain ⟨hfirst, hrest⟩ := List.pairwise_cons.mp h
      rw [get?_cons, List.mem_cons, ← ih hrest]
      by_cases hk : k = x
      · subst hk
        have hno : get? k rest ≠ some v := by
          rw [Ne, ih hrest]
          intro hmem
          have hlt := hfirst _ hmem
          rw [Std.compare_self] at hlt
          exact absurd hlt (by simp)
        simp [hno, Std.compare_self, eq_comm]
      · have hne : compare k x ≠ .eq := fun h => hk (Std.LawfulEqOrd.eq_of_compare h)
        simp [hne, hk]

end Sorted

/-! ### Numbers as keys -/

section Nat

variable {number n : Nat} {numbered : List (Nat × β)}

theorem isSorted_iff : IsSorted numbered ↔ numbered.Pairwise (·.1 < ·.1) := by
  unfold IsSorted
  simp only [Nat.compare_eq_lt]

theorem sorted_put (hsorted : numbered.Pairwise (·.1 < ·.1)) :
    (put number value numbered).Pairwise (·.1 < ·.1) :=
  isSorted_iff.mp (isSorted_put (isSorted_iff.mpr hsorted) number value)

theorem mem_put (hsorted : numbered.Pairwise (·.1 < ·.1)) :
    (n, v) ∈ put number value numbered ↔ if n = number then v = value else (n, v) ∈ numbered := by
  have hs := isSorted_iff.mpr hsorted
  rw [← get?_eq_some_iff (isSorted_put hs number value), get?_put, ← get?_eq_some_iff hs]
  split
  · simp [eq_comm]
  · rfl

end Nat

end StablePlan.Ascending
