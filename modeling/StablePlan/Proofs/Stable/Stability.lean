import Mathlib.Order.Interval.Finset.Nat
import StablePlan.Proofs.Stable.Propagation

/-!
The test of a total assignment. What the closure derives is the least set closed under the clauses
whose heads are cut to the true atoms; where propagation has nothing left to do, no clause is
violated, so the test says exactly whether the true atoms are a stable set.
-/

namespace StablePlan

open Assignment

/-- The atoms that an assignment makes true. -/
def Assignment.trueSet (a : Assignment) : Set Nat := {atom | a.atomValue atom = some true}

/-- The atoms marked in a table. -/
def marked (d : Array Bool) : Set Nat := {atom | d.getD atom false = true}

variable {a b : Assignment} {max : Nat} {X : Set Nat}

namespace Assignment

theorem agrees_trueSet (a : Assignment) : a.Agrees a.trueSet := by
  intro atom v h
  simp [trueSet, h]

theorem Valid.inRange_of_mem_trueSet (hv : a.Valid max) {atom : Nat} (h : atom ∈ a.trueSet) :
    InRange max atom := by
  by_contra hr
  have hnone : a.atomValue atom = none := by
    rcases Nat.eq_zero_or_pos atom with rfl | hpos
    · exact hv.value_zero
    · unfold InRange at hr
      exact atomValue_eq_none_of_lt hv (by omega)
  simp [trueSet, hnone] at h

theorem Valid.atomValue_ne_none (hv : a.Valid max) (htotal : a.unassigned.size = 0) {atom : Nat}
    (hr : InRange max atom) : a.atomValue atom ≠ none := by
  intro h
  have hc := (hv.contains_iff atom hr).mpr h
  rw [hv.unassigned.contains_iff, htotal] at hc
  omega

/-- A set of atoms in range that agrees with a total assignment is its set of true atoms. -/
theorem Agrees.eq_trueSet (hX : a.Agrees X) (hv : a.Valid max) (htotal : a.unassigned.size = 0)
    (hr : ∀ atom ∈ X, InRange max atom) : X = a.trueSet := by
  ext atom
  constructor
  · intro h
    obtain ⟨v, hvalue⟩ := Option.ne_none_iff_exists'.mp (hv.atomValue_ne_none htotal (hr atom h))
    have htrue := (hX atom v hvalue).mp h
    simp [trueSet, hvalue, htrue]
  · intro h
    exact (hX atom true h).mpr rfl

end Assignment

/-! ### What a clause derives -/

namespace Clause

variable {c : Clause} {d : Array Bool} {l : Literal}

theorem holdsInReduct_iff (hv : a.Valid max) (htotal : a.unassigned.size = 0)
    (hr : InRange max l.atom) : holdsInReduct a d l ↔ l.HoldsIn (marked d) a.trueSet := by
  obtain ⟨v, hvalue⟩ := Option.ne_none_iff_exists'.mp (hv.atomValue_ne_none htotal hr)
  unfold holdsInReduct Literal.HoldsIn Assignment.holds Assignment.value
  cases hpos : l.isPositive
  · cases v <;> simp [hvalue, trueSet]
  · simp [marked]

theorem weight_eq (hv : a.Valid max) (htotal : a.unassigned.size = 0)
    {elements : List (Literal × Int)} (hr : ∀ e ∈ elements, InRange max e.1.atom)
    (hfit : WeightsFit elements) (lower : Int) :
    totalWeight (elements.filter fun e => holdsInReduct a d e.1) =
      WeightSum.weightIn ⟨lower, elements⟩ (marked d) a.trueSet := by
  rw [(hfit.sublist List.filter_sublist).totalWeight_eq]
  clear hfit
  unfold WeightSum.weightIn
  dsimp only
  induction elements with
  | nil => rfl
  | cons e es ih =>
      have hiff := holdsInReduct_iff (d := d) hv htotal (hr e (by simp))
      have htail := ih fun e' he' => hr e' (by simp [he'])
      rw [List.map_cons, List.sum_cons, ← htail, List.filter_cons]
      by_cases h : holdsInReduct a d e.1
      · simp [h, hiff.mp h]
      · simp [h, mt hiff.mpr h]

theorem fires_iff (hc : c.WellFormed max) (hv : a.Valid max) (htotal : a.unassigned.size = 0) :
    c.fires a d ↔ BodyHolds c.body c.sum (marked d) a.trueSet := by
  have hbody : (∀ l ∈ c.body, holdsInReduct a d l) ↔
      ∀ l ∈ c.body, l.HoldsIn (marked d) a.trueSet :=
    forall₂_congr fun l hl => holdsInReduct_iff hv htotal (hc.body l hl)
  unfold fires BodyHolds
  rw [Bool.and_eq_true, List.all_eq_true, hbody]
  cases hsum : c.sum with
  | none => simp
  | some s =>
      have hweight :=
        weight_eq (d := d) hv htotal (hc.elements s hsum) (hc.weights s hsum) s.lower
      simp [hweight]

/-- A total assignment decides every body. -/
theorem bodyValue_of_bodyHolds (hc : c.WellFormed max) (hv : a.Valid max)
    (htotal : a.unassigned.size = 0) (h : BodyHolds c.body c.sum a.trueSet a.trueSet) :
    c.bodyValue a = some true := by
  have hholds : ∀ l, InRange max l.atom → (a.holds l ↔ l.HoldsIn a.trueSet a.trueSet) := by
    intro l hr
    obtain ⟨v, hvalue⟩ := Option.ne_none_iff_exists'.mp (hv.atomValue_ne_none htotal hr)
    have hl : a.value l = some (v == l.isPositive) := by simp [Assignment.value, hvalue]
    rw [(agrees_trueSet a).holdsIn_iff hl]
    simp [Assignment.holds, hl]
  have hfails : ∀ l, InRange max l.atom → (a.fails l ↔ ¬l.HoldsIn a.trueSet a.trueSet) := by
    intro l hr
    obtain ⟨v, hvalue⟩ := Option.ne_none_iff_exists'.mp (hv.atomValue_ne_none htotal hr)
    have hl : a.value l = some (v == l.isPositive) := by simp [Assignment.value, hvalue]
    rw [(agrees_trueSet a).holdsIn_iff hl]
    simp [Assignment.fails, hl]
  have hany : ¬c.body.any a.fails := by
    simp only [List.any_eq_true, not_exists, not_and]
    exact fun l hl hf => (hfails l (hc.body l hl)).mp hf (h.1 l hl)
  have hall : c.body.all a.holds :=
    List.all_eq_true.mpr fun l hl => (hholds l (hc.body l hl)).mpr (h.1 l hl)
  unfold bodyValue
  rw [if_neg hany, hall]
  cases hsum : c.sum with
  | none => rfl
  | some s =>
      have hlow : (s.bounds a).1 = s.weightIn a.trueSet a.trueSet := by
        rw [WeightSum.bounds_eq (hc.weights s hsum)]
        refine congrArg List.sum (List.map_congr_left fun e he => ?_)
        have hiff := hholds e.1 (hc.elements s hsum e he)
        by_cases h : e.1.HoldsIn a.trueSet a.trueSet
        · simp [h, hiff.mpr h]
        · simp [h, mt hiff.mp h]
      have hhigh := WeightSum.weightIn_le_high (agrees_trueSet a) (hc.weights s hsum)
      have hreach := h.2 s hsum
      dsimp only
      rw [if_neg (by omega), if_pos (by simp; omega)]

/-- Whether a clause fires depends on what is marked only. -/
theorem fires_congr {e : Array Bool} (h : marked d = marked e) : c.fires a d = c.fires a e := by
  have hget : ∀ atom, d.getD atom false = e.getD atom false := fun atom => by
    have := Set.ext_iff.mp h atom
    exact Bool.eq_iff_iff.mpr this
  unfold fires holdsInReduct
  simp only [hget]

end Clause

namespace Problem

variable {p : Problem} {d : Array Bool}

/-- The table after one clause. -/
def deriveClause (a : Assignment) (d : Array Bool) (c : Clause) : Array Bool :=
  if c.fires a d then
    c.head.foldl (fun d h => if a.atomValue h == some true then d.setIfInBounds h true else d) d
  else d

theorem derive_eq (p : Problem) (a : Assignment) (d : Array Bool) :
    p.derive a d = p.clauses.foldl (deriveClause a) d := rfl

theorem size_foldl_head (heads : List Nat) (d : Array Bool) :
    (heads.foldl (fun d h => if a.atomValue h == some true then d.setIfInBounds h true else d)
      d).size = d.size := by
  induction heads generalizing d with
  | nil => rfl
  | cons h hs ih =>
      rw [List.foldl_cons, ih]
      split <;> simp

@[simp] theorem size_deriveClause (c : Clause) : (deriveClause a d c).size = d.size := by
  unfold deriveClause
  split
  · exact size_foldl_head _ _
  · rfl

theorem mem_marked_set {h : Nat} (d : Array Bool) (atom : Nat) :
    atom ∈ marked (d.setIfInBounds h true) ↔ atom ∈ marked d ∨ atom = h ∧ atom < d.size := by
  simp only [marked, Set.mem_ofPred_eq, Array.getD_eq_getD_getElem?]
  grind

theorem mem_marked_foldl_head (heads : List Nat) (d : Array Bool) (atom : Nat) :
    atom ∈ marked (heads.foldl
        (fun d h => if a.atomValue h == some true then d.setIfInBounds h true else d) d) ↔
      atom ∈ marked d ∨ atom ∈ heads ∧ atom ∈ a.trueSet ∧ atom < d.size := by
  induction heads generalizing d with
  | nil => simp
  | cons h hs ih =>
      rw [List.foldl_cons, ih, List.mem_cons]
      by_cases htrue : h ∈ a.trueSet
      · have hvalue : a.atomValue h = some true := htrue
        rw [hvalue, if_pos (by simp), mem_marked_set, Array.size_setIfInBounds]
        by_cases heq : atom = h
        · subst heq
          tauto
        · tauto
      · have hvalue : ¬(a.atomValue h == some true) = true := by simpa [trueSet] using htrue
        rw [if_neg hvalue]
        by_cases heq : atom = h
        · subst heq
          tauto
        · tauto

theorem mem_marked_deriveClause (c : Clause) (atom : Nat) :
    atom ∈ marked (deriveClause a d c) ↔
      atom ∈ marked d ∨ c.fires a d ∧ atom ∈ c.head ∧ atom ∈ a.trueSet ∧ atom < d.size := by
  unfold deriveClause
  split
  · rename_i h
    rw [mem_marked_foldl_head]
    simp [h]
  · rename_i h
    simp [h]

theorem size_foldl_deriveClause (cs : List Clause) (d : Array Bool) :
    (cs.foldl (deriveClause a) d).size = d.size := by
  induction cs generalizing d with
  | nil => rfl
  | cons c cs ih => rw [List.foldl_cons, ih, size_deriveClause]

theorem marked_subset_foldl (cs : List Clause) (d : Array Bool) :
    marked d ⊆ marked (cs.foldl (deriveClause a) d) := by
  induction cs generalizing d with
  | nil => exact subset_rfl
  | cons c cs ih =>
      refine Set.Subset.trans (fun atom h => ?_) (ih _)
      exact (mem_marked_deriveClause c atom).mpr (Or.inl h)

theorem mem_marked_foldl (cs : List Clause) (d : Array Bool) {atom : Nat}
    (h : atom ∈ marked (cs.foldl (deriveClause a) d)) : atom ∈ marked d ∨ atom ∈ a.trueSet := by
  induction cs generalizing d with
  | nil => exact Or.inl h
  | cons c cs ih =>
      rcases ih _ h with hd | htrue
      · exact ((mem_marked_deriveClause c atom).mp hd).imp_right fun hfires => hfires.2.2.1
      · exact Or.inr htrue

/-! ### The closure -/

/-- The given atoms of `X` are in `E`, and so are the atoms of `X` in the head of a clause whose
body holds in the reduct. -/
structure Closed (p : Problem) (X E : Set Nat) : Prop where
  given : ∀ atom ∈ p.theory.given, atom ∈ X → atom ∈ E
  clauses : ∀ c ∈ p.clauses, BodyHolds c.body c.sum E X → ∀ h ∈ c.head, h ∈ X → h ∈ E

/-- A round that marks nothing new has found every firing clause satisfied. -/
theorem mem_marked_of_fires {cs : List Clause} {d : Array Bool}
    (hsame : marked (cs.foldl (deriveClause a) d) ⊆ marked d) {c : Clause} (hc : c ∈ cs)
    (hfires : c.fires a d) {h : Nat} (hh : h ∈ c.head) (htrue : h ∈ a.trueSet)
    (hsize : h < d.size) : h ∈ marked d := by
  induction cs generalizing d with
  | nil => simp at hc
  | cons c' cs ih =>
      rw [List.foldl_cons] at hsame
      have hle : marked d ⊆ marked (deriveClause a d c') := fun atom hatom =>
        (mem_marked_deriveClause c' atom).mpr (Or.inl hatom)
      have heq : marked (deriveClause a d c') = marked d :=
        ((marked_subset_foldl cs _).trans hsame).antisymm hle
      rcases List.mem_cons.mp hc with rfl | hmem
      · rw [← heq]
        exact (mem_marked_deriveClause c h).mpr (Or.inr ⟨hfires, hh, htrue, hsize⟩)
      · have hrest := ih (d := deriveClause a d c') (hsame.trans hle) hmem
          (by rwa [Clause.fires_congr heq]) (by rwa [size_deriveClause])
        rwa [heq] at hrest

variable (hp : p.WellFormed) (hv : a.Valid p.maxAtom) (htotal : a.unassigned.size = 0)
include hp hv htotal

theorem marked_foldl_subset {E : Set Nat} (hE : p.Closed a.trueSet E) {cs : List Clause}
    (hcs : ∀ c ∈ cs, c ∈ p.clauses) (hd : marked d ⊆ E) :
    marked (cs.foldl (deriveClause a) d) ⊆ E := by
  induction cs generalizing d with
  | nil => exact hd
  | cons c cs ih =>
      refine ih (fun c hc => hcs c (by simp [hc])) fun atom hatom => ?_
      have hc := hcs c (by simp)
      have hwell := hp.clauses c hc
      rcases (mem_marked_deriveClause c atom).mp hatom with h | ⟨hfires, hhead, htrue, -⟩
      · exact hd h
      · have hbody := (Clause.fires_iff hwell hv htotal).mp hfires
        exact hE.clauses c hc (hbody.mono hwell.weights.nonneg hd) atom hhead htrue

theorem marked_closure_subset {E : Set Nat} (hE : p.Closed a.trueSet E) (n : Nat)
    (hd : marked d ⊆ E) : marked (p.closure a n d) ⊆ E := by
  induction n generalizing d with
  | zero => exact hd
  | succ n ih =>
      unfold closure
      dsimp only
      split
      · exact hd
      · exact ih (marked_foldl_subset hp hv htotal hE (fun c hc => hc) hd)

theorem closed_of_same (hsize : d.size = p.maxAtom + 1) (hsame : p.derive a d = d)
    (hgiven : ∀ atom ∈ p.theory.given, atom ∈ a.trueSet → atom ∈ marked d) :
    p.Closed a.trueSet (marked d) := by
  refine ⟨hgiven, fun c hc hbody h hh htrue => ?_⟩
  have hwell := hp.clauses c hc
  have hfires := (Clause.fires_iff hwell hv htotal).mpr hbody
  have hle : marked (p.clauses.foldl (deriveClause a) d) ⊆ marked d := by rw [← derive_eq, hsame]
  refine mem_marked_of_fires hle hc hfires hh htrue ?_
  have := (hwell.head h hh).2
  omega

omit hp hv htotal in
/-- The atoms that are not marked yet. -/
def missing (p : Problem) (d : Array Bool) : Finset Nat :=
  (Finset.Icc 1 p.maxAtom).filter fun atom => d.getD atom false = false

omit hp htotal in
theorem card_missing_derive (hne : p.derive a d ≠ d) :
    (p.missing (p.derive a d)).card < (p.missing d).card := by
  have hsize : (p.derive a d).size = d.size := size_foldl_deriveClause _ _
  have hsub : marked d ⊆ marked (p.derive a d) := marked_subset_foldl _ _
  -- Some atom is marked afterwards only, and it is a true one.
  obtain ⟨atom, hnew, hold⟩ : ∃ atom, atom ∈ marked (p.derive a d) ∧ atom ∉ marked d := by
    by_contra hno
    push Not at hno
    refine hne (Array.ext hsize fun i hi hi' => ?_)
    have hforward := hno i
    have hback := @hsub i
    simp only [marked, Set.mem_ofPred_eq, Array.getD_eq_getD_getElem?] at hforward hback
    rw [Array.getElem?_eq_getElem hi, Array.getElem?_eq_getElem hi'] at hforward hback
    exact Bool.eq_iff_iff.mpr ⟨hforward, hback⟩
  have hr : InRange p.maxAtom atom := by
    rcases mem_marked_foldl _ _ hnew with h | h
    · exact absurd h hold
    · exact hv.inRange_of_mem_trueSet h
  refine Finset.card_lt_card (Finset.ssubset_iff_of_subset ?_ |>.mpr ⟨atom, ?_, ?_⟩)
  · intro x hx
    simp only [missing, Finset.mem_filter] at hx ⊢
    refine ⟨hx.1, Bool.eq_false_iff.mpr fun hmarked => ?_⟩
    have := hsub (show x ∈ marked d from hmarked)
    simp only [marked, Set.mem_ofPred_eq] at this
    simp [this] at hx
  · simp only [missing, Finset.mem_filter, Finset.mem_Icc]
    exact ⟨⟨hr.1, hr.2⟩, by simpa [marked] using hold⟩
  · simp only [missing, Finset.mem_filter, not_and]
    exact fun _ => by simpa [marked] using hnew

/-- With more rounds than atoms are missing, the closure is closed. -/
theorem closed_closure (n : Nat) (hn : (p.missing d).card < n) (hsize : d.size = p.maxAtom + 1)
    (hgiven : ∀ atom ∈ p.theory.given, atom ∈ a.trueSet → atom ∈ marked d) :
    p.Closed a.trueSet (marked (p.closure a n d)) := by
  induction n generalizing d with
  | zero => omega
  | succ n ih =>
      unfold closure
      dsimp only
      split
      · rename_i hsame
        exact closed_of_same hp hv htotal hsize (by simpa using hsame) hgiven
      · rename_i hne
        have hdrop := card_missing_derive hv (by simpa using hne)
        refine ih (by omega) ?_ fun atom hg htrue => ?_
        · rw [derive_eq, size_foldl_deriveClause, hsize]
        · exact marked_subset_foldl _ _ (hgiven atom hg htrue)

omit hp htotal in
theorem mem_marked_givenTrue (atom : Nat) :
    atom ∈ marked (p.givenTrue a) ↔ atom ∈ p.theory.given ∧ atom ∈ a.trueSet := by
  have hr : atom ∈ a.trueSet → InRange p.maxAtom atom := hv.inRange_of_mem_trueSet
  simp only [marked, givenTrue, theory, trueSet, InRange, Set.mem_ofPred_eq,
    Array.getD_eq_getD_getElem?] at *
  by_cases hlt : atom < p.maxAtom + 1
  · simp [hlt]
    grind
  · simp [hlt]
    grind

/-- What the closure marks is the least closed set. -/
theorem isLeast_closure : IsLeast {E | p.Closed a.trueSet E}
    (marked (p.closure a (p.maxAtom + 1) (p.givenTrue a))) := by
  have hgiven := mem_marked_givenTrue (p := p) hv
  constructor
  · refine closed_closure hp hv htotal _ ?_ (by simp [givenTrue]) fun atom hg htrue =>
      (hgiven atom).mpr ⟨hg, htrue⟩
    have hcard := Finset.card_filter_le (Finset.Icc 1 p.maxAtom)
      fun atom => (p.givenTrue a).getD atom false = false
    rw [Nat.card_Icc] at hcard
    exact Nat.lt_succ_of_le hcard
  · intro E hE
    refine marked_closure_subset hp hv htotal hE _ fun atom hatom => ?_
    obtain ⟨hg, htrue⟩ := (hgiven atom).mp hatom
    exact hE.given atom hg htrue

omit hp hv htotal in
theorem closed_self (p : Problem) (X : Set Nat) : p.Closed X X :=
  ⟨fun _ _ h => h, fun _ _ _ _ _ h => h⟩

theorem isStable_iff_isLeast :
    p.isStable a ↔ IsLeast {E | p.Closed a.trueSet E} a.trueSet := by
  have hleast := isLeast_closure hp hv htotal
  have hsub := hleast.2 (closed_self p a.trueSet)
  have hiff : p.isStable a ↔
      a.trueSet ⊆ marked (p.closure a (p.maxAtom + 1) (p.givenTrue a)) := by
    simp only [isStable, List.all_eq_true, Problem.atoms, List.mem_range'_1, beq_iff_eq]
    constructor
    · intro h atom htrue
      have hr := hv.inRange_of_mem_trueSet htrue
      have hsame := h atom ⟨hr.1, by have := hr.2; omega⟩
      have hvalue : a.atomValue atom = some true := htrue
      simpa [marked, hvalue] using hsame
    · intro h atom _
      have hforward := @h atom
      have hback := @hsub atom
      simp only [marked, trueSet, Set.mem_ofPred_eq] at hforward hback
      refine Bool.eq_iff_iff.mpr ⟨fun hm => ?_, fun ht => ?_⟩
      · simpa using hback hm
      · exact hforward (by simpa using ht)
  rw [hiff]
  constructor
  · intro h
    exact ⟨closed_self p _, fun E hE => h.trans (hleast.2 hE)⟩
  · intro h
    exact h.2 hleast.1

omit hv htotal in
/-- Stable are the models of the clauses that are the least closed set of their own reduct. -/
theorem theory_isStable_iff : p.theory.IsStable X ↔
    (∀ c ∈ p.clauses, c.Respects X X) ∧ IsLeast {E | p.Closed X E} X := by
  have hclosed : ∀ D, p.theory.Models D X → p.Closed X D := by
    refine fun D hD => ⟨hD.given, fun c hc hbody h hh hX => ?_⟩
    have hrespects := hD.clauses c hc hbody
    rcases (hp.clauses c hc).normal with hchoice | hlength
    · rw [if_pos hchoice] at hrespects
      exact hrespects h hh hX
    · split at hrespects
      · exact hrespects h hh hX
      · obtain ⟨h', hh', hD'⟩ := hrespects
        rwa [eq_of_mem_of_length_le hlength hh hh']
  constructor
  · intro hX
    refine ⟨hX.model.clauses, closed_self p X, fun E hE => ?_⟩
    -- Of a closed set only the part inside the stable set matters.
    have hinter : p.theory.Models (E ∩ X) X := by
      refine ⟨fun c hc hbody => ?_, fun atom hg hatom => ⟨hE.given atom hg hatom, hatom⟩,
        fun _ h => h.elim, fun _ h => h.elim, fun _ h => h.elim⟩
      have hweights := (hp.clauses c hc).weights.nonneg
      have hE' := hE.clauses c hc (hbody.mono hweights Set.inter_subset_left)
      have hX' := hX.model.clauses c hc (hbody.mono hweights Set.inter_subset_right)
      split
      · exact fun h hh hmem => ⟨hE' h hh hmem, hmem⟩
      · rw [if_neg ‹_›] at hX'
        obtain ⟨h, hh, hmem⟩ := hX'
        exact ⟨h, hh, hE' h hh hmem, hmem⟩
    exact fun atom hatom => (hX.least _ Set.inter_subset_right hinter hatom).1
  · rintro ⟨hmodel, -, hleast⟩
    refine ⟨⟨hmodel, fun _ _ h => h, fun _ h => h.elim, fun _ h => h.elim,
      fun _ h => h.elim⟩, fun D hD hm => ?_⟩
    exact hleast (hclosed D hm)

end Problem

/-! ### Where propagation is done -/

namespace Clause

variable {c : Clause}

/-- A total assignment with a true body that is not violated makes the head true. -/
theorem respects_of_propagate (hc : c.WellFormed max) (hv : a.Valid max)
    (htotal : a.unassigned.size = 0) (h : c.propagate a = (a, true)) :
    c.Respects a.trueSet a.trueSet := by
  intro hbody
  split
  · exact fun _ _ htrue => htrue
  · rename_i hchoice
    have hvalue : c.bodyValue a = some true := bodyValue_of_bodyHolds hc hv htotal hbody
    unfold propagate at h
    rw [if_neg hchoice, hvalue] at h
    unfold headValue at h
    rcases hhead : c.head with _ | ⟨x, xs⟩
    · simp [hhead] at h
    · have hr := hc.head x (by simp [hhead])
      obtain ⟨v, hx⟩ := Option.ne_none_iff_exists'.mp (hv.atomValue_ne_none htotal hr)
      refine ⟨x, by simp, ?_⟩
      cases v
      · simp [hhead, hx] at h
      · exact hx

end Clause

namespace Problem

variable {p : Problem}

theorem propagate_of_propagateClauses {cs : List Clause} (hcs : ∀ c ∈ cs, c.Ranged max)
    (hv : a.Valid max) (h : propagateClauses cs a = (a, true)) {c : Clause} (hc : c ∈ cs) :
    c.propagate a = (a, true) := by
  induction cs with
  | nil => simp at hc
  | cons c' cs ih =>
      unfold propagateClauses at h
      rcases hprop : c'.propagate a with ⟨b, _ | _⟩
      · simp [hprop] at h
      · simp only [hprop] at h
        have hfirst := Clause.sound_propagate (K := fun _ => False) (hcs c' (by simp))
          (fun _ h => h.elim) hv fun _ h => h.elim
        rw [hprop] at hfirst
        have hvb := hfirst.1.valid hv
        have hrest := sound_propagateClauses (K := fun _ => False)
          (fun c hc => hcs c (List.mem_cons_of_mem c' hc)) (fun _ h => h.elim) hvb
          fun _ h => h.elim
        rw [h] at hrest
        obtain rfl := hfirst.1.eq_of_size_le hv (hrest.1.isBelow hvb).size_le
        rcases List.mem_cons.mp hc with rfl | hmem
        · exact hprop
        · exact ih (fun c hc => hcs c (List.mem_cons_of_mem c' hc)) h hmem

/-- The clauses have nothing left to say about an assignment. -/
def Settled (p : Problem) (a : Assignment) : Prop := ∀ c ∈ p.clauses, c.propagate a = (a, true)

/-- A round that opens nothing new has gone through all clauses without assigning anything. -/
theorem settled_of_round (hp : p.Ranged) (hv : a.Valid p.maxAtom) (h : p.round a = (a, true)) :
    p.Settled a := by
  intro c hc
  refine propagate_of_propagateClauses hp.clauses hv ?_ hc
  unfold round at h
  rcases hprop : propagateClauses p.clauses a with ⟨b, _ | _⟩
  · simp [hprop] at h
  · have hclauses := sound_propagateClauses (K := fun _ => False) hp.clauses (fun _ h => h.elim)
      hv fun _ h => h.elim
    rw [hprop] at hclauses h
    dsimp only at h
    have hvb : b.Valid p.maxAtom := hclauses.1.valid hv
    have hrest := sound_unsupported (K := fun _ => False) (p := p) hvb fun _ h => h.elim
    rw [h] at hrest
    obtain rfl := hclauses.1.eq_of_size_le hv (hrest.1.isBelow hvb).size_le
    rfl

theorem settled_of_saturateFrom (hp : p.Ranged) (size : Nat) (hv : a.Valid p.maxAtom)
    (hsize : a.unassigned.size ≤ size) (h : p.saturateFrom size a = (b, true)) : p.Settled b := by
  induction size using Nat.strong_induction_on generalizing a with
  | _ size ih =>
      have hround := sound_round hp hv
      unfold saturateFrom at h
      rcases hr : p.round a with ⟨c, _ | _⟩
      · simp [hr] at h
      · rw [hr] at hround h
        dsimp only at h
        split at h
        · rename_i hlt
          exact ih _ hlt (hround.1.valid hv) le_rfl h
        · obtain rfl : c = b := by simpa using h
          obtain rfl := hround.1.eq_of_size_le hv (by simp only at *; omega)
          exact settled_of_round hp hv hr

theorem settled_of_saturate (hp : p.Ranged) (hv : a.Valid p.maxAtom)
    (h : p.saturate a = (b, true)) : p.Settled b :=
  settled_of_saturateFrom hp _ hv le_rfl h

/-- A settled total assignment passes the test exactly if its true atoms are a stable set. -/
theorem isStable_iff (hp : p.WellFormed) (hv : a.Valid p.maxAtom)
    (htotal : a.unassigned.size = 0) (hsettled : p.Settled a) :
    p.isStable a ↔ p.theory.IsStable a.trueSet := by
  rw [isStable_iff_isLeast hp hv htotal, theory_isStable_iff hp]
  refine (and_iff_right fun c hc => ?_).symm
  exact Clause.respects_of_propagate (hp.clauses c hc) hv htotal (hsettled c hc)

end Problem

end StablePlan
