import StablePlan.Proofs.Serial.Ordering
import StablePlan.Serial.Verdict
import Mathlib.Data.Finset.Card
import Mathlib.Data.List.Range
import Mathlib.Data.List.Sort
import Mathlib.Data.Nat.Bitwise

/-!
Smallest sets that cannot be executed. The search visits every non-empty set of positions once and
leaves out what is no smaller than the set it keeps. Nothing is lost by that: what it keeps in the
end is as small as any set of positions whose actions cannot be executed one after another.
-/

namespace StablePlan

/-! ### Entries by position -/

section Picking

variable {α : Type} {xs : List α} {positions : List Nat}

theorem filterMap_getElem?_range (xs : List α) :
    (List.range xs.length).filterMap (xs[·]?) = xs := by
  have hmap : (List.range xs.length).map (xs[·]?) = xs.map some := by
    refine List.ext_getElem (by simp) fun i hi hi' => ?_
    rw [List.length_map] at hi'
    simp [List.getElem?_eq_getElem hi']
  calc (List.range xs.length).filterMap (xs[·]?)
      = ((List.range xs.length).map (xs[·]?)).filterMap id := by rw [List.filterMap_map]; rfl
    _ = xs := by rw [hmap, List.filterMap_map]; exact List.filterMap_some

/-- Entries at positions in ascending order are part of all entries, in their order. -/
theorem sublist_filterMap_getElem? (hascending : positions.Pairwise (· < ·))
    (hrange : ∀ i ∈ positions, i < xs.length) : (positions.filterMap (xs[·]?)).Sublist xs := by
  have hnodup : positions.Nodup := hascending.imp Nat.ne_of_lt
  have hpart : positions.Sublist (List.range xs.length) :=
    List.sublist_of_subperm_of_pairwise (r := (· < ·))
      (hnodup.subperm fun i hi => List.mem_range.mpr (hrange i hi)) hascending
      List.pairwise_lt_range
  have hall := hpart.filterMap (xs[·]?)
  rwa [filterMap_getElem?_range] at hall

theorem forall₂_filterMap_getElem? (hrange : ∀ i ∈ positions, i < xs.length) :
    List.Forall₂ (fun i x => xs[i]? = some x) positions (positions.filterMap (xs[·]?)) := by
  induction positions with
  | nil => exact .nil
  | cons i positions ih =>
      have hi := List.getElem?_eq_getElem (hrange i List.mem_cons_self)
      rw [List.filterMap_cons_some hi]
      exact .cons hi (ih fun j hj => hrange j (List.mem_cons_of_mem i hj))

end Picking

/-- Actions at some positions are serializable exactly if the positions are. -/
theorem ActionTable.serializable_filterMap {table : ActionTable} {actions : List Symbol}
    {positions : List Nat} (hnodup : positions.Nodup)
    (hrange : ∀ i ∈ positions, i < actions.length) :
    table.serializable (positions.filterMap (actions[·]?)) ↔
      (table.constraints actions).serializable positions := by
  rw [serializable_iff, ← serializable_positions hnodup (forall₂_filterMap_getElem? hrange)]

namespace SequentialCheck

variable {c : Constraints} {n i j : Nat} {S : List Nat} {seen sets : List (List Nat)}
  {best : Option (List Nat)}

/-! ### The order of the sets -/

/-- The number whose binary digits are the positions of the `i`-th set. -/
def gray (i : Nat) : Nat := i ^^^ (i >>> 1)

theorem testBit_gray (i b : Nat) : (gray i).testBit b = (i.testBit b ^^ i.testBit (b + 1)) := by
  rw [gray, Nat.testBit_xor, Nat.testBit_shiftRight, Nat.add_comm]

theorem gray_injective : Function.Injective gray := by
  intro i j h
  -- What the two differ in is shifted to itself.
  have hshift : (i ^^^ j) >>> 1 = i ^^^ j := by
    refine Nat.eq_of_testBit_eq fun b => ?_
    have hbit := congrArg (Nat.testBit · b) h
    simp only [testBit_gray] at hbit
    rw [Nat.testBit_shiftRight, Nat.add_comm, Nat.testBit_xor, Nat.testBit_xor]
    revert hbit
    cases i.testBit b <;> cases j.testBit b <;> cases i.testBit (b + 1) <;>
      cases j.testBit (b + 1) <;> simp
  rw [Nat.shiftRight_eq_div_pow] at hshift
  have hzero : i ^^^ j = 0 := by omega
  exact Nat.xor_eq_zero_iff.mp hzero

theorem gray_lt (h : i < 2 ^ n) : gray i < 2 ^ n :=
  Nat.xor_lt_two_pow h ((Nat.shiftRight_le i 1).trans_lt h)

theorem exists_gray {k : Nat} (hk : k < 2 ^ n) : ∃ i < 2 ^ n, gray i = k := by
  have hsurj : Set.SurjOn gray (Finset.range (2 ^ n)) (Finset.range (2 ^ n)) :=
    Finset.surjOn_of_injOn_of_card_le gray
      (fun i hi => by simpa using gray_lt (Finset.mem_range.mp hi)) gray_injective.injOn le_rfl
  obtain ⟨i, hi, hgray⟩ := hsurj (Finset.mem_coe.mpr (Finset.mem_range.mpr hk))
  exact ⟨i, Finset.mem_range.mp (Finset.mem_coe.mp hi), hgray⟩

/-- From one number to the next one digit is turned. -/
theorem exists_turned (i : Nat) :
    ∃ k, ∀ b, (gray i).testBit b = (gray (i + 1)).testBit b ↔ b ≠ k := by
  have hlast : ∀ x, (gray x).testBit 0 = (decide (x % 2 = 1) ^^ decide (x / 2 % 2 = 1)) := by
    intro x
    rw [testBit_gray, Nat.testBit_add_one, Nat.testBit_zero, Nat.testBit_zero]
  have hrest : ∀ x b, (gray x).testBit (b + 1) = (gray (x / 2)).testBit b := by
    intro x b
    rw [testBit_gray, testBit_gray, Nat.testBit_add_one, Nat.testBit_add_one]
  induction i using Nat.strong_induction_on with
  | h i ih =>
      rcases Nat.mod_two_eq_zero_or_one i with heven | hodd
      · have hhalf : (i + 1) / 2 = i / 2 := by omega
        refine ⟨0, fun b => ?_⟩
        cases b with
        | zero => simp [hlast, hhalf, heven, Nat.add_mod]
        | succ b => simp [hrest, hhalf]
      · -- The last digit stays, and the others are those of the next half.
        have hhalf : (i + 1) / 2 = i / 2 + 1 := by omega
        obtain ⟨k, hk⟩ := ih (i / 2) (by omega)
        refine ⟨k + 1, fun b => ?_⟩
        cases b with
        | zero =>
            rw [hlast, hlast, hhalf]
            rcases Nat.mod_two_eq_zero_or_one (i / 2) with h | h <;>
              simp [h, hodd, Nat.add_mod]
        | succ b => simp [hrest, hhalf, hk]

theorem mem_graySet : j ∈ graySet n i ↔ j < n ∧ (gray i).testBit j := by
  unfold graySet
  rw [List.mem_filter, List.mem_range]
  rfl

theorem pairwise_graySet (n i : Nat) : (graySet n i).Pairwise (· < ·) :=
  List.pairwise_lt_range.filter _

theorem graySet_inj (hi : i < 2 ^ n) (hj : j < 2 ^ n) (h : graySet n i = graySet n j) :
    i = j := by
  refine gray_injective (Nat.eq_of_testBit_eq fun b => ?_)
  by_cases hb : b < n
  · have hmem : b ∈ graySet n i ↔ b ∈ graySet n j := by rw [h]
    simp only [mem_graySet, hb, true_and] at hmem
    exact Bool.eq_iff_iff.mpr hmem
  · have hpow : 2 ^ n ≤ 2 ^ b := Nat.pow_le_pow_right (by omega) (by omega)
    rw [Nat.testBit_lt_two_pow ((gray_lt hi).trans_le hpow),
      Nat.testBit_lt_two_pow ((gray_lt hj).trans_le hpow)]

/-- Every set of positions has its turn. -/
theorem exists_graySet (hS : S.Pairwise (· < ·)) (hrange : ∀ j ∈ S, j < n) :
    ∃ i < 2 ^ n, graySet n i = S := by
  obtain ⟨i, hi, hgray⟩ := exists_gray (Nat.ofBits_lt_two_pow fun j : Fin n => decide (j.val ∈ S))
  refine ⟨i, hi, (pairwise_graySet n i).eq_of_mem_iff hS fun j => ?_⟩
  rw [mem_graySet, hgray]
  constructor
  · rintro ⟨hj, hbit⟩
    rw [Nat.testBit_ofBits_lt _ j hj] at hbit
    simpa using hbit
  · intro hj
    refine ⟨hrange j hj, ?_⟩
    rw [Nat.testBit_ofBits_lt _ j (hrange j hj)]
    simpa using hj

/-- One position is put in or taken out. -/
def TurnsOne (S T : List Nat) : Prop := ∃ k, ∀ j, (j ∈ S ↔ j ∈ T) ↔ j ≠ k

/-- Every non-empty set of positions, written in ascending order, is visited exactly once, each by
one change to the one before. -/
structure VisitsOnce (n : Nat) (sets : List (List Nat)) : Prop where
  nodup : sets.Nodup
  mem_iff : ∀ S, S ∈ sets ↔ S ≠ [] ∧ S.Pairwise (· < ·) ∧ ∀ j ∈ S, j < n
  single : List.IsChain TurnsOne ([] :: sets)

theorem turnsOne_graySet (h : i + 1 < 2 ^ n) : TurnsOne (graySet n i) (graySet n (i + 1)) := by
  obtain ⟨k, hk⟩ := exists_turned i
  have hsame : ∀ j, (j ∈ graySet n i ↔ j ∈ graySet n (i + 1)) ↔ (j < n → j ≠ k) := by
    intro j
    rw [mem_graySet, mem_graySet, and_congr_right_iff, ← Bool.eq_iff_iff, hk j]
  -- If the digit that is turned were no position, then the sets would be the same.
  have hrange : k < n := by
    by_contra hout
    have heq := (pairwise_graySet n i).eq_of_mem_iff (pairwise_graySet n (i + 1)) fun {j} =>
      (hsame j).mpr (by omega)
    have := graySet_inj (by omega) h heq
    omega
  refine ⟨k, fun j => (hsame j).trans ⟨fun hj heq => ?_, fun hj _ => hj⟩⟩
  exact hj (heq ▸ hrange) heq

/-- The order of the search. -/
def graySets (n : Nat) : List (List Nat) := (List.range' 1 (2 ^ n - 1)).map (graySet n)

theorem visitsOnce_graySets (n : Nat) : VisitsOnce n (graySets n) := by
  have hcodes : ∀ {i}, i ∈ List.range' 1 (2 ^ n - 1) ↔ i ≠ 0 ∧ i < 2 ^ n := by
    intro i
    have hpos : 0 < 2 ^ n := Nat.two_pow_pos n
    rw [List.mem_range'_1]
    omega
  have hempty : graySet n 0 = [] := by
    refine List.eq_nil_iff_forall_not_mem.mpr fun j hj => ?_
    simp [mem_graySet, gray] at hj
  refine ⟨?_, fun S => ?_, ?_⟩
  · refine List.Nodup.map_on ?_ List.nodup_range'
    intro i hi j hj heq
    exact graySet_inj (hcodes.mp hi).2 (hcodes.mp hj).2 heq
  · unfold graySets
    rw [List.mem_map]
    constructor
    · rintro ⟨i, hi, rfl⟩
      obtain ⟨hne, hlt⟩ := hcodes.mp hi
      refine ⟨fun hnil => hne ?_, pairwise_graySet n i, fun j hj => (mem_graySet.mp hj).1⟩
      exact graySet_inj hlt (Nat.two_pow_pos n) (hnil.trans hempty.symm)
    · rintro ⟨hne, hS, hrange⟩
      obtain ⟨i, hi, rfl⟩ := exists_graySet hS hrange
      refine ⟨i, hcodes.mpr ⟨?_, hi⟩, rfl⟩
      rintro rfl
      exact hne hempty
  · have hall : [] :: graySets n = (List.range (2 ^ n - 1 + 1)).map (graySet n) := by
      rw [List.range_eq_range', List.range'_succ, List.map_cons, hempty]
      rfl
    rw [hall, List.isChain_map, List.isChain_range_succ]
    exact fun i hi => turnsOne_graySet (by omega)

/-! ### Keeping the smallest -/

/-- What the search keeps after the sets that it has seen: one that is bad, and no larger than any
other bad one. -/
def IsSmallest (c : Constraints) (seen : List (List Nat)) : Option (List Nat) → Prop
  | none => ∀ S ∈ seen, c.serializable S
  | some b => (b ∈ seen ∧ ¬c.serializable b) ∧ ∀ S ∈ seen, ¬c.serializable S → b.length ≤ S.length

/-- A set that is left out is no smaller than the one that is kept. -/
theorem IsSmallest.keepSmaller (h : IsSmallest c seen best) (S : List Nat) :
    IsSmallest c (seen ++ [S]) (keepSmaller c best S) := by
  have hseen : ∀ {P : List Nat → Prop}, (∀ T ∈ seen, P T) → P S → ∀ T ∈ seen ++ [S], P T := by
    intro P hP hS T hT
    rcases List.mem_append.mp hT with hT | hT
    · exact hP T hT
    · exact List.mem_singleton.mp hT ▸ hS
  have hlast : S ∈ seen ++ [S] := List.mem_append_right _ List.mem_cons_self
  unfold SequentialCheck.keepSmaller
  cases best with
  | none =>
      dsimp only
      split
      · rename_i hserializable
        exact hseen h hserializable
      · rename_i hbad
        exact ⟨⟨hlast, hbad⟩, hseen (fun T hT hno => absurd (h T hT) hno) fun _ => le_rfl⟩
  | some b =>
      obtain ⟨⟨hmem, hbad⟩, hleast⟩ := h
      dsimp only
      split
      · rename_i hskip
        refine ⟨⟨List.mem_append_left _ hmem, hbad⟩, hseen hleast fun hno => ?_⟩
        simpa [hno] using hskip
      · rename_i hkeep
        obtain ⟨hsmaller, hS⟩ : S.length < b.length ∧ c.serializable S = false := by
          simpa using hkeep
        refine ⟨⟨hlast, by simp [hS]⟩, hseen (fun T hT hno => ?_) fun _ => le_rfl⟩
        exact hsmaller.le.trans (hleast T hT hno)

theorem isSmallest_foldl (c : Constraints) (sets : List (List Nat)) :
    IsSmallest c sets (sets.foldl (keepSmaller c) none) := by
  induction sets using List.reverseRecOn with
  | nil => exact nofun
  | append_singleton sets S ih =>
      rw [List.foldl_concat]
      exact ih.keepSmaller S

/-- What is chosen when the sets are visited in some order. -/
def minimalOver (c : SequentialCheck) (sets : List (List Nat)) (actions : List Symbol) :
    Option (List Nat) :=
  if actions.isEmpty then none
  else if maxMinimal < actions.length then some (List.range actions.length)
  else some ((sets.foldl (keepSmaller (c.actions.constraints actions)) none).getD
    (List.range actions.length))

theorem minimal_eq (c : SequentialCheck) (actions : List Symbol) :
    c.minimal actions = c.minimalOver (graySets actions.length) actions := by
  have hsmallest : ∀ (c : Constraints) n,
      smallest? c n = (graySets n).foldl (keepSmaller c) none := by
    intro c n
    unfold graySets
    rw [List.foldl_map]
    rfl
  unfold minimal minimalOver
  rw [hsmallest]

/-! ### Sets of actions -/

variable {table : ActionTable} {actions : List Symbol} {positions : List Nat}

/-- Positions of actions that cannot be executed one after another, and no other positions of such
actions are fewer. -/
structure IsMinimum (table : ActionTable) (actions : List Symbol) (positions : List Nat) :
    Prop where
  ascending : positions.Pairwise (· < ·)
  inRange : ∀ i ∈ positions, i < actions.length
  bad : ¬table.serializable (positions.filterMap (actions[·]?))
  least : ∀ other : List Nat, other.Nodup → (∀ i ∈ other, i < actions.length) →
    ¬table.serializable (other.filterMap (actions[·]?)) → positions.length ≤ other.length

theorem VisitsOnce.mem_of_bad (h : VisitsOnce n sets) (hS : S.Pairwise (· < ·))
    (hrange : ∀ i ∈ S, i < n) (hbad : ¬c.serializable S) : S ∈ sets := by
  refine (h.mem_iff S).mpr ⟨?_, hS, hrange⟩
  rintro rfl
  exact hbad rfl

/-- In whatever order every set is visited once, the search finds a smallest one. -/
theorem VisitsOnce.exists_minimum (h : VisitsOnce actions.length sets)
    (hbad : ¬table.serializable actions) :
    ∃ positions, sets.foldl (keepSmaller (table.constraints actions)) none = some positions ∧
      IsMinimum table actions positions := by
  have hsmallest := isSmallest_foldl (table.constraints actions) sets
  cases hbest : sets.foldl (keepSmaller (table.constraints actions)) none with
  | none =>
      rw [hbest] at hsmallest
      have hall := h.mem_of_bad List.pairwise_lt_range (fun i hi => List.mem_range.mp hi) hbad
      exact absurd (hsmallest _ hall) hbad
  | some positions =>
      rw [hbest] at hsmallest
      obtain ⟨⟨hmem, hworse⟩, hleast⟩ := hsmallest
      obtain ⟨-, hpairwise, hrange⟩ := (h.mem_iff positions).mp hmem
      have hnodup : positions.Nodup := hpairwise.imp Nat.ne_of_lt
      refine ⟨positions, rfl, hpairwise, hrange, ?_, fun other hother hrange' hbad' => ?_⟩
      · rwa [ActionTable.serializable_filterMap hnodup hrange]
      · -- The positions in ascending order are a set that was visited.
        have hperm := List.perm_insertionSort (· ≤ ·) other
        have hnodup' := hperm.nodup_iff.mpr hother
        have hsorted : (other.insertionSort (· ≤ ·)).Pairwise (· < ·) :=
          ((List.pairwise_insertionSort (· ≤ ·) other).and hnodup').imp
            fun h => Nat.lt_of_le_of_ne h.1 h.2
        have hinRange : ∀ i ∈ other.insertionSort (· ≤ ·), i < actions.length :=
          fun i hi => hrange' i (hperm.mem_iff.mp hi)
        have hbadSorted :
            ¬(table.constraints actions).serializable (other.insertionSort (· ≤ ·)) := by
          rw [← ActionTable.serializable_filterMap hnodup' hinRange]
          exact fun hok => hbad' (ActionTable.serializable_of_subperm hok
            (hperm.symm.filterMap _).subperm)
        have hvisited := h.mem_of_bad hsorted hinRange hbadSorted
        exact (hleast _ hvisited hbadSorted).trans_eq hperm.length_eq

/-- The search finds no set among actions that can be executed. -/
theorem VisitsOnce.foldl_eq_none (h : VisitsOnce actions.length sets)
    (hserializable : table.serializable actions) :
    sets.foldl (keepSmaller (table.constraints actions)) none = none := by
  have hsmallest := isSmallest_foldl (table.constraints actions) sets
  cases hbest : sets.foldl (keepSmaller (table.constraints actions)) none with
  | none => rfl
  | some positions =>
      rw [hbest] at hsmallest
      obtain ⟨⟨hmem, hbad⟩, -⟩ := hsmallest
      obtain ⟨-, hpairwise, hrange⟩ := (h.mem_iff positions).mp hmem
      have hnodup : positions.Nodup := hpairwise.imp Nat.ne_of_lt
      rw [← ActionTable.serializable_filterMap hnodup hrange] at hbad
      have hpart := (sublist_filterMap_getElem? hpairwise hrange).subperm
      exact absurd (ActionTable.serializable_of_subperm hserializable hpart) hbad

theorem minimalOver_of_few {c : SequentialCheck} (hne : actions ≠ [])
    (hfew : actions.length ≤ 16) : c.minimalOver sets actions = some ((sets.foldl
      (keepSmaller (c.actions.constraints actions)) none).getD (List.range actions.length)) := by
  have hsome : ¬actions.isEmpty := fun hempty => hne (List.isEmpty_iff.mp hempty)
  unfold minimalOver maxMinimal
  rw [if_neg hsome, if_neg (Nat.not_lt.mpr hfew)]

theorem minimalOver_of_many {c : SequentialCheck} (hmany : 16 < actions.length) :
    c.minimalOver sets actions = some (List.range actions.length) := by
  have hsome : ¬actions.isEmpty := fun hempty => by
    rw [List.isEmpty_iff.mp hempty] at hmany
    exact absurd hmany (by decide)
  unfold minimalOver maxMinimal
  rw [if_neg hsome, if_pos hmany]

/-- Among actions that are not serializable some are chosen that are not either. -/
theorem exists_minimal_bad {c : SequentialCheck} (hbad : ¬c.actions.serializable actions) :
    ∃ positions, c.minimal actions = some positions ∧ positions.Pairwise (· < ·) ∧
      (∀ i ∈ positions, i < actions.length) ∧
      ¬c.actions.serializable (positions.filterMap (actions[·]?)) := by
  rw [minimal_eq]
  rcases Nat.lt_or_ge 16 actions.length with hmany | hfew
  · refine ⟨_, minimalOver_of_many hmany, List.pairwise_lt_range, fun i => List.mem_range.mp, ?_⟩
    rwa [filterMap_getElem?_range]
  · have hne : actions ≠ [] := fun hnil => hbad (hnil ▸ rfl)
    obtain ⟨positions, hfound, hminimum⟩ :=
      (visitsOnce_graySets actions.length).exists_minimum hbad
    refine ⟨positions, ?_, hminimum.ascending, hminimum.inRange, hminimum.bad⟩
    rw [minimalOver_of_few hne hfew, hfound, Option.getD_some]

/-- Smallest sets are smallest. The search visits every non-empty set of positions once, and changes
one position at a time. In whatever order it does, of at most sixteen actions that are not
serializable it chooses positions in ascending order whose actions are not serializable either, and
no choice of fewer positions has such actions. If the actions are serializable, or if there are more
of them, all positions are chosen. -/
theorem minimal_exact (c : SequentialCheck) (hne : actions ≠ []) :
    (c.minimal actions = c.minimalOver (graySets actions.length) actions ∧
      VisitsOnce actions.length (graySets actions.length)) ∧
    ∀ sets, VisitsOnce actions.length sets →
      ∃ positions, c.minimalOver sets actions = some positions ∧
        (actions.length ≤ 16 → ¬c.actions.serializable actions →
          IsMinimum c.actions actions positions) ∧
        (c.actions.serializable actions ∨ 16 < actions.length →
          positions = List.range actions.length) := by
  refine ⟨⟨minimal_eq c actions, visitsOnce_graySets _⟩, fun sets hvisits => ?_⟩
  rcases Nat.lt_or_ge 16 actions.length with hmany | hfew
  · exact ⟨_, minimalOver_of_many hmany, fun hfew => absurd hmany (by omega), fun _ => rfl⟩
  · refine ⟨_, minimalOver_of_few hne hfew, fun _ hbad => ?_, fun hcase => ?_⟩
    · obtain ⟨positions, hfound, hminimum⟩ := hvisits.exists_minimum hbad
      rwa [hfound]
    · rw [hvisits.foldl_eq_none (hcase.resolve_right (Nat.not_lt.mpr hfew))]
      rfl

/-- Each of three actions destroys what another one needs, in a circle. -/
def circleCheck : SequentialCheck := .ofFacts
  [.function "pre" [.constant "a", .constant "p"], .function "del" [.constant "c", .constant "p"],
    .function "pre" [.constant "b", .constant "q"], .function "del" [.constant "a", .constant "q"],
    .function "pre" [.constant "c", .constant "r"], .function "del" [.constant "b", .constant "r"]]
  .minimal

def circleActions : List Symbol :=
  [.constant "a", .constant "x", .constant "b", .constant "x", .constant "c"]

/-- Any two of the three can be executed, and the circle is found among actions that do no harm. -/
theorem minimal_exact_circle : circleActions ≠ [] ∧ circleActions.length ≤ 16 ∧
    ¬circleCheck.actions.serializable circleActions ∧
    circleCheck.minimal circleActions = some [0, 2, 4] ∧
    IsMinimum circleCheck.actions circleActions [0, 2, 4] := by
  have hne : circleActions ≠ [] := by decide
  have hbad : ¬circleCheck.actions.serializable circleActions := by decide +kernel
  have hminimal : circleCheck.minimal circleActions = some [0, 2, 4] := by decide +kernel
  obtain ⟨⟨hsearch, hvisits⟩, hfinds⟩ := minimal_exact circleCheck hne
  obtain ⟨positions, hpositions, hminimum, -⟩ := hfinds _ hvisits
  rw [← hsearch, hminimal] at hpositions
  obtain rfl := Option.some.inj hpositions
  exact ⟨hne, by decide, hbad, hminimal, hminimum (by decide) hbad⟩

end SequentialCheck

end StablePlan
