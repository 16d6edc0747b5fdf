import StablePlan.Serial.Effects
import Mathlib.Data.List.Forall2
import Mathlib.Data.List.Nodup
import Mathlib.Data.List.Pairwise
import Mathlib.Data.List.Perm.Basic
import Mathlib.Data.List.Perm.Subperm

/-!
Orders of execution. A stack of the positions that wait for nothing, and counters for the others,
put all positions in order exactly if there is an order in which each action is allowed before all
that come after it. So what can be executed one after another is inherited by any part of it.
-/

namespace StablePlan

/-! ### Orders in which everything is allowed -/

section Orders

variable {α γ : Type} {R : α → α → Prop} {R' : γ → γ → Prop} {r : α → γ → Prop}
  {xs ys : List α} {zs : List γ}

/-- An order of the entries of a list in which each one stands in a relation to all that follow. -/
def Orderable (R : α → α → Prop) (xs : List α) : Prop :=
  ∃ order : List α, order.Perm xs ∧ order.Pairwise R

theorem Orderable.of_subperm (h : Orderable R ys) (hsub : xs.Subperm ys) : Orderable R xs := by
  obtain ⟨order, hperm, hpairwise⟩ := h
  obtain ⟨part, hpart, hsublist⟩ := hsub.trans hperm.symm.subperm
  exact ⟨part, hpart, hpairwise.sublist hsublist⟩

theorem exists_rel_of_mem {z : γ} (h : List.Forall₂ r xs zs) (hz : z ∈ zs) : ∃ x ∈ xs, r x z := by
  obtain ⟨i, hi, rfl⟩ := List.mem_iff_getElem.mp hz
  have hlength := h.length_eq
  exact ⟨_, List.getElem_mem (hlength ▸ hi), h.get (hlength ▸ hi) hi⟩

theorem pairwise_of_forall₂ (hR : ∀ a c a' c', r a c → r a' c' → R a a' → R' c c')
    (h : List.Forall₂ r xs zs) (hpairwise : xs.Pairwise R) : zs.Pairwise R' := by
  induction h with
  | nil => exact .nil
  | cons hhead htail ih =>
      obtain ⟨hfirst, hrest⟩ := List.pairwise_cons.mp hpairwise
      refine List.pairwise_cons.mpr ⟨fun z hz => ?_, ih hrest⟩
      obtain ⟨x, hx, hxz⟩ := exists_rel_of_mem htail hz
      exact hR _ _ _ _ hhead hxz (hfirst x hx)

/-- An order carries over along a relation between the entries of two lists. -/
theorem Orderable.of_forall₂ (hR : ∀ a c a' c', r a c → r a' c' → R a a' → R' c c')
    (h : List.Forall₂ r xs zs) (horder : Orderable R xs) : Orderable R' zs := by
  obtain ⟨order, hperm, hpairwise⟩ := horder
  obtain ⟨order', hsame, hperm'⟩ := List.perm_comp_forall₂ hperm h
  exact ⟨order', hperm', pairwise_of_forall₂ hR hsame hpairwise⟩

end Orders

/-- An action with these effects can be executed some time before one with those. -/
def Effects.Allows (e f : Effects) : Prop := (¬e.clashes f ∧ ¬f.clashes e) ∧ ¬f.precedes e

namespace Constraints

variable {c : Constraints} {positions rest ready order : List Nat} {s : Sorting}
  {effects : List Effects} {e f : Effects} {i j n : Nat}

/-- The action at one position can be executed some time before the one at another. -/
def Allows (c : Constraints) (i j : Nat) : Prop :=
  (¬look c.clash i j ∧ ¬look c.clash j i) ∧ ¬look c.before j i

theorem look_tabulate (g : Effects → Effects → Bool) (hi : effects[i]? = some e)
    (hj : effects[j]? = some f) : look (tabulate effects g) i j = g e f := by
  unfold look tabulate
  simp only [Array.getD_eq_getD_getElem?, List.getElem?_toArray, List.getElem?_map, hi, hj,
    Option.map_some, Option.getD_some]

theorem allows_ofEffects (hi : effects[i]? = some e) (hj : effects[j]? = some f) :
    (ofEffects effects).Allows i j ↔ e.Allows f := by
  unfold Allows ofEffects Effects.Allows
  dsimp only
  rw [look_tabulate _ hi hj, look_tabulate _ hj hi, look_tabulate _ hj hi]

theorem incoming_eq_zero_iff : c.incoming positions j = 0 ↔
    ∀ i ∈ positions, i ≠ j → ¬look c.before i j := by
  simp [incoming, leads]

theorem incoming_of_mem (hi : i ∈ rest) :
    c.incoming rest j = c.incoming (rest.erase i) j + if c.leads i j then 1 else 0 := by
  unfold incoming
  rw [(List.perm_cons_erase hi).countP_eq, List.countP_cons]

/-! ### Taking positions off the stack -/

theorem getElem?_release (s : Sorting) (k j : Nat) :
    (s.release k).waiting[j]? = if j = k then s.waiting[j]?.map (· - 1) else s.waiting[j]? := by
  unfold Sorting.release
  dsimp only
  split
  · rename_i heq
    subst heq
    rw [Array.getElem?_setIfInBounds_self, Array.getD_eq_getD_getElem?]
    by_cases hj : j < s.waiting.size <;> simp [hj]
  · rename_i hne
    exact Array.getElem?_setIfInBounds_ne (Ne.symm hne)

/-- Releasing positions, each one once, lowers what they wait for, and puts those on top that are
left with nothing to wait for. -/
theorem foldl_release {js : List Nat} (hnodup : js.Nodup) (s : Sorting) :
    (js.foldl .release s).ready =
        (js.filter fun j => s.waiting.getD j 0 - 1 = 0).reverse ++ s.ready ∧
      ∀ j, (js.foldl .release s).waiting[j]? =
        if j ∈ js then s.waiting[j]?.map (· - 1) else s.waiting[j]? := by
  induction js generalizing s with
  | nil => simp
  | cons k js ih =>
      obtain ⟨hk, hjs⟩ := List.nodup_cons.mp hnodup
      obtain ⟨hready, hwaiting⟩ := ih hjs (s.release k)
      rw [List.foldl_cons]
      refine ⟨?_, fun j => ?_⟩
      · -- What waits for the others was not changed by the first one.
        have hsame : (js.filter fun j => (s.release k).waiting.getD j 0 - 1 = 0) =
            js.filter fun j => s.waiting.getD j 0 - 1 = 0 := by
          refine List.filter_congr fun j hj => ?_
          have hne : j ≠ k := fun heq => hk (heq ▸ hj)
          rw [Array.getD_eq_getD_getElem?, Array.getD_eq_getD_getElem?, getElem?_release,
            if_neg hne]
        rw [hready, hsame, List.filter_cons]
        unfold Sorting.release
        dsimp only
        split <;> simp_all
      · rw [hwaiting, getElem?_release]
        by_cases hj : j = k
        · subst hj
          simp [hk]
        · simp [hj]

/-- What a sorting knows of the positions that are left: what each waits for among them, and which
wait for nothing. The others have come before all of them. -/
structure Tracks (c : Constraints) (positions rest : List Nat) (s : Sorting) : Prop where
  subset : rest ⊆ positions
  nodup : rest.Nodup
  waiting : ∀ j ∈ positions, s.waiting[j]? = some (c.incoming rest j)
  nodup_ready : s.ready.Nodup
  mem_ready : ∀ j, j ∈ s.ready ↔ j ∈ rest ∧ c.incoming rest j = 0
  gone : ∀ j ∈ positions, j ∉ rest → c.incoming rest j = 0

theorem tracks_sorting (hnodup : positions.Nodup) (hrange : ∀ j ∈ positions, j < c.before.size) :
    c.Tracks positions positions (c.sorting positions) where
  subset := List.Subset.refl _
  nodup := hnodup
  waiting j hj := by simp [sorting, hrange j hj]
  nodup_ready := List.nodup_reverse.mpr (hnodup.filter _)
  mem_ready j := by simp [sorting]
  gone j hj hno := absurd hj hno

theorem Tracks.getD_waiting (h : c.Tracks positions rest s) (hj : j ∈ positions) :
    s.waiting.getD j 0 = c.incoming rest j := by
  rw [Array.getD_eq_getD_getElem?, h.waiting j hj, Option.getD_some]

/-- What is put on top when a position is taken away: what waited for it alone. -/
theorem Tracks.mem_released (h : c.Tracks positions rest s) (hi : i ∈ rest) :
    j ∈ (positions.filter (c.leads i)).filter (fun j => s.waiting.getD j 0 - 1 = 0) ↔
      c.leads i j ∧ j ∈ rest.erase i ∧ c.incoming (rest.erase i) j = 0 := by
  rw [List.mem_filter, List.mem_filter, decide_eq_true_iff, h.nodup.mem_erase_iff]
  have hcount := incoming_of_mem (c := c) (j := j) hi
  constructor
  · rintro ⟨⟨hj, hleads⟩, hlast⟩
    rw [if_pos hleads] at hcount
    rw [h.getD_waiting hj] at hlast
    have hne : j ≠ i := by
      rintro rfl
      simp [leads] at hleads
    refine ⟨hleads, ⟨hne, by_contra fun hno => ?_⟩, by omega⟩
    have hgone := h.gone j hj hno
    omega
  · rintro ⟨hleads, ⟨-, hj⟩, hnone⟩
    rw [if_pos hleads] at hcount
    refine ⟨⟨h.subset hj, hleads⟩, ?_⟩
    rw [h.getD_waiting (h.subset hj)]
    omega

/-- What stays on the stack: what was ready already. -/
theorem Tracks.mem_tail (h : c.Tracks positions rest s) (hi : i ∈ rest)
    (hready : s.ready = i :: ready) :
    j ∈ ready ↔ ¬c.leads i j ∧ j ∈ rest.erase i ∧ c.incoming (rest.erase i) j = 0 := by
  have hnew := (List.nodup_cons.mp (hready ▸ h.nodup_ready)).1
  have hmem : j ∈ ready ↔ j ≠ i ∧ j ∈ s.ready := by
    rw [hready, List.mem_cons]
    grind
  have hcount := incoming_of_mem (c := c) (j := j) hi
  rw [hmem, h.mem_ready, h.nodup.mem_erase_iff]
  by_cases hleads : c.leads i j
  · rw [if_pos hleads] at hcount
    simp [hleads, hcount]
  · rw [if_neg hleads] at hcount
    simp [hleads, hcount, and_assoc]

/-- The position on top is taken away, and what had to come after it waits for one fewer. -/
theorem Tracks.take (h : c.Tracks positions rest s) (hpositions : positions.Nodup)
    (hready : s.ready = i :: ready) :
    c.Tracks positions (rest.erase i)
      ((positions.filter (c.leads i)).foldl .release { s with ready }) := by
  obtain ⟨hi, hzero⟩ := (h.mem_ready i).mp (hready ▸ List.mem_cons_self)
  obtain ⟨hpushed, hlowered⟩ := foldl_release (hpositions.filter (c.leads i)) { s with ready }
  constructor
  case subset => exact fun j hj => h.subset (List.mem_of_mem_erase hj)
  case nodup => exact h.nodup.erase i
  case waiting =>
    intro j hj
    rw [hlowered, h.waiting j hj, incoming_of_mem hi]
    by_cases hleads : c.leads i j <;> simp [hj, hleads]
  case nodup_ready =>
    rw [hpushed]
    have hnodup := (List.nodup_cons.mp (hready ▸ h.nodup_ready)).2
    refine List.nodup_append.mpr ⟨?_, hnodup, ?_⟩
    · exact List.nodup_reverse.mpr ((hpositions.filter _).filter _)
    · rintro j hj _ hj' rfl
      have hleads := ((h.mem_released hi).mp (List.mem_reverse.mp hj)).1
      exact ((h.mem_tail hi hready).mp hj').1 hleads
  case mem_ready =>
    intro j
    rw [hpushed, List.mem_append, List.mem_reverse, h.mem_released hi, h.mem_tail hi hready,
      ← or_and_right, and_iff_right (em _)]
  case gone =>
    intro j hj hno
    have hle : c.incoming (rest.erase i) j ≤ c.incoming rest j := List.erase_sublist.countP_le
    by_cases hrest : j ∈ rest
    · obtain rfl : j = i := by_contra fun hne => hno (h.nodup.mem_erase_iff.mpr ⟨hne, hrest⟩)
      omega
    · have hgone := h.gone j hj hrest
      omega

/-- The first of an order waits for nothing. -/
theorem incoming_eq_zero_of_cons (h : (i :: order).Pairwise fun i j => ¬look c.before j i)
    (hperm : (i :: order).Perm rest) : c.incoming rest i = 0 := by
  refine incoming_eq_zero_iff.mpr fun j hj hne => ?_
  rcases List.mem_cons.mp (hperm.mem_iff.mpr hj) with rfl | hmem
  · exact absurd rfl hne
  · exact (List.pairwise_cons.mp h).1 j hmem

/-- What waits for nothing may come first. -/
theorem orderable_erase_iff (hnodup : rest.Nodup) (hi : i ∈ rest) (hzero : c.incoming rest i = 0) :
    Orderable (fun i j => ¬look c.before j i) (rest.erase i) ↔
      Orderable (fun i j => ¬look c.before j i) rest := by
  constructor
  · rintro ⟨order, hperm, hpairwise⟩
    refine ⟨i :: order, (hperm.cons i).trans (List.perm_cons_erase hi).symm, ?_⟩
    refine List.pairwise_cons.mpr ⟨fun j hj => ?_, hpairwise⟩
    obtain ⟨hne, hrest⟩ := hnodup.mem_erase_iff.mp (hperm.mem_iff.mp hj)
    exact incoming_eq_zero_iff.mp hzero j hrest hne
  · exact fun h => h.of_subperm List.erase_sublist.subperm

/-- In any number of rounds that is enough, all positions that are left are taken off the stack just
if they can be ordered. -/
theorem drain_eq_length_iff (hpositions : positions.Nodup) (h : c.Tracks positions rest s)
    (hn : rest.length ≤ n) : c.drain positions n s = rest.length ↔
      Orderable (fun i j => ¬look c.before j i) rest := by
  induction n generalizing rest s with
  | zero =>
      obtain rfl := List.length_eq_zero_iff.mp (Nat.le_zero.mp hn)
      exact iff_of_true rfl ⟨[], .refl _, .nil⟩
  | succ n ih =>
      unfold drain
      split
      · rename_i hempty
        -- The first of an order waits for nothing, so it would be ready.
        constructor
        · intro hlength
          obtain rfl := List.length_eq_zero_iff.mp hlength.symm
          exact ⟨[], .refl _, .nil⟩
        · rintro ⟨order, hperm, hpairwise⟩
          cases order with
          | nil => exact hperm.length_eq
          | cons i order =>
              have hi := hperm.mem_iff.mp List.mem_cons_self
              have hready := (h.mem_ready i).mpr ⟨hi, incoming_eq_zero_of_cons hpairwise hperm⟩
              exact absurd hready (by simp [hempty])
      · rename_i i ready hready
        obtain ⟨hi, hzero⟩ := (h.mem_ready i).mp (hready ▸ List.mem_cons_self)
        have htake := h.take hpositions hready
        have hlength := List.length_erase_of_mem hi
        have hpos := List.length_pos_of_mem hi
        have hrest := ih htake (by omega)
        rw [← orderable_erase_iff h.nodup hi hzero, ← hrest]
        omega

theorem sortable_iff (hnodup : positions.Nodup) (hrange : ∀ j ∈ positions, j < c.before.size) :
    c.sortable positions ↔ Orderable (fun i j => ¬look c.before j i) positions := by
  unfold sortable
  rw [decide_eq_true_iff]
  exact drain_eq_length_iff hnodup (tracks_sorting hnodup hrange) (Nat.le_refl _)

theorem clashFree_iff : c.clashFree positions ↔
    ∀ i ∈ positions, ∀ j ∈ positions, i ≠ j → ¬look c.clash i j := by
  simp [clashFree, or_iff_not_imp_left]

/-- Positions are serializable exactly if they have an order in which each is allowed before all
that follow. -/
theorem serializable_iff (hnodup : positions.Nodup) (hrange : ∀ j ∈ positions, j < c.before.size) :
    c.serializable positions ↔ Orderable c.Allows positions := by
  unfold serializable
  rw [Bool.and_eq_true, clashFree_iff, sortable_iff hnodup hrange]
  constructor
  · rintro ⟨hclash, order, hperm, hpairwise⟩
    have hdistinct : order.Pairwise (· ≠ ·) := hperm.nodup_iff.mpr hnodup
    refine ⟨order, hperm, (hpairwise.and hdistinct).imp_of_mem ?_⟩
    rintro i j hi hj ⟨hbefore, hne⟩
    rw [hperm.mem_iff] at hi hj
    exact ⟨⟨hclash i hi j hj hne, hclash j hj i hi hne.symm⟩, hbefore⟩
  · rintro ⟨order, hperm, hpairwise⟩
    refine ⟨fun i hi j hj hne => ?_, order, hperm, hpairwise.imp And.right⟩
    have hclash : order.Pairwise fun i j => ¬look c.clash i j ∧ ¬look c.clash j i :=
      hpairwise.imp And.left
    have hsymm : Std.Symm fun i j => ¬look c.clash i j ∧ ¬look c.clash j i := ⟨fun _ _ => And.symm⟩
    exact (hclash.forall (hperm.mem_iff.mpr hi) (hperm.mem_iff.mpr hj) hne).1

end Constraints

namespace ActionTable

variable {table : ActionTable} {actions chosen : List Symbol} {positions : List Nat}

/-- One action can be executed some time before another. -/
def Allows (table : ActionTable) (a b : Symbol) : Prop :=
  (table.effects a).Allows (table.effects b)

/-- What is asked of positions is asked of the actions that stand there. -/
theorem serializable_positions (hnodup : positions.Nodup)
    (h : List.Forall₂ (fun i a => actions[i]? = some a) positions chosen) :
    (table.constraints actions).serializable positions ↔ Orderable table.Allows chosen := by
  have hallows : ∀ {i a j b}, actions[i]? = some a → actions[j]? = some b →
      ((table.constraints actions).Allows i j ↔ table.Allows a b) := by
    intro i a j b hi hj
    refine Constraints.allows_ofEffects ?_ ?_
    · rw [List.getElem?_map, hi, Option.map_some]
    · rw [List.getElem?_map, hj, Option.map_some]
  have hrange : ∀ i ∈ positions, i < (table.constraints actions).before.size := by
    intro i hi
    obtain ⟨a, -, ha⟩ := exists_rel_of_mem h.flip hi
    obtain ⟨hlt, -⟩ := List.getElem?_eq_some_iff.mp ha
    simpa [constraints, Constraints.ofEffects, Constraints.tabulate] using hlt
  rw [Constraints.serializable_iff hnodup hrange]
  constructor
  · exact .of_forall₂ (fun i a j b hi hj => (hallows hi hj).mp) h
  · exact .of_forall₂ (fun a i b j hi hj => (hallows hi hj).mpr) h.flip

/-- Actions, with repetitions, are serializable exactly if they have an order in which each is
allowed before all that follow. -/
theorem serializable_iff (table : ActionTable) (actions : List Symbol) :
    table.serializable actions ↔ Orderable table.Allows actions := by
  refine serializable_positions List.nodup_range ?_
  refine List.forall₂_iff_get.mpr ⟨List.length_range, fun i hi hi' => ?_⟩
  simp [List.getElem?_eq_getElem hi']

/-- Part of what can be executed can be executed by itself. -/
theorem serializable_of_subperm (h : table.serializable actions) (hsub : chosen.Subperm actions) :
    table.serializable chosen :=
  (table.serializable_iff chosen).mpr (((table.serializable_iff actions).mp h).of_subperm hsub)

end ActionTable

end StablePlan
