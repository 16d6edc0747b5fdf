import StablePlan.Proofs.Stable.Trail
import StablePlan.Stable.Propagation

/-!
Propagation loses no stable set. A step is sound for a kind of sets if every set of that kind that
agrees with the assignment before still agrees with the one after, and if the step fails only where
there is no such set. Each way of drawing something from a clause is sound for the sets that
respect the clause, and what no clause supports is in no stable set.
-/

namespace StablePlan

open Assignment

/-- All atoms are in range, and there is one head at most unless it is a choice. -/
structure Clause.Ranged (max : Nat) (c : Clause) : Prop where
  head : ∀ h ∈ c.head, InRange max h
  body : ∀ l ∈ c.body, InRange max l.atom
  elements : ∀ s ∈ c.sum, ∀ e ∈ s.elements, InRange max e.1.atom
  normal : c.choice ∨ c.head.length ≤ 1

structure Clause.WellFormed (max : Nat) (c : Clause) : Prop extends c.Ranged max where
  weights : c.HasFittingWeights

structure Problem.Ranged (p : Problem) : Prop where
  clauses : ∀ c ∈ p.clauses, c.Ranged p.maxAtom
  given : p.given.size = p.maxAtom + 1

structure Problem.WellFormed (p : Problem) : Prop where
  clauses : ∀ c ∈ p.clauses, c.WellFormed p.maxAtom
  given : p.given.size = p.maxAtom + 1

theorem Problem.WellFormed.ranged {p : Problem} (h : p.WellFormed) : p.Ranged :=
  ⟨fun c hc => (h.clauses c hc).toRanged, h.given⟩

/-- The clauses of a problem with the atoms that may be true without a clause. -/
def Problem.theory (p : Problem) : Theory where
  clauses := {c | c ∈ p.clauses}
  given := {atom | InRange p.maxAtom atom ∧ p.isGiven atom}

/-- A stable set that must not be lost. Where weights are negative or leave the range propagation
may go wrong, so then there is none. -/
structure Problem.Admits (p : Problem) (X : Set Nat) : Prop where
  wellFormed : p.WellFormed
  stable : p.theory.IsStable X

theorem Problem.Admits.weights {p : Problem} {X : Set Nat} (h : p.Admits X) {c : Clause}
    (hc : c ∈ p.clauses) : c.HasFittingWeights :=
  (h.wellFormed.clauses c hc).weights

/-- A step assigns only what every set of the kind has, and fails only if there is none. -/
def Sound (max : Nat) (K : Set Nat → Prop) (a : Assignment) (r : Assignment × Bool) : Prop :=
  Reaches max a r.1 ∧ ∀ X, K X → a.Agrees X → r.2 = true ∧ r.1.Agrees X

variable {max : Nat} {K : Set Nat → Prop} {a b : Assignment} {X : Set Nat} {l : Literal}

/-! ### Reading an assignment -/

namespace Assignment

theorem Agrees.holdsIn_iff (hX : a.Agrees X) {v : Bool} (h : a.value l = some v) :
    l.HoldsIn X X ↔ v = true := by
  simp only [value, Option.map_eq_some_iff] at h
  obtain ⟨w, hw, rfl⟩ := h
  have hmem := hX l.atom w hw
  unfold Literal.HoldsIn
  cases w <;> cases l.isPositive <;> simp_all

theorem Agrees.holdsIn_of_holds (hX : a.Agrees X) (h : a.holds l) : l.HoldsIn X X :=
  (hX.holdsIn_iff (v := true) (by simpa [holds] using h)).mpr rfl

theorem Agrees.not_holdsIn_of_fails (hX : a.Agrees X) (h : a.fails l) : ¬l.HoldsIn X X := fun hl =>
  absurd ((hX.holdsIn_iff (v := false) (by simpa [fails] using h)).mp hl) (by simp)

theorem holds_or_fails_of_not_isOpen (h : ¬a.isOpen l) : a.holds l ∨ a.fails l := by
  unfold isOpen holds fails at *
  cases hv : a.value l with
  | none => simp [hv] at h
  | some v => cases v <;> simp

theorem not_holds_of_isOpen (h : a.isOpen l) : ¬a.holds l := by
  unfold isOpen holds at *
  simp_all

end Assignment

@[simp] theorem Literal.atom_negate (l : Literal) : l.negate.atom = l.atom := by
  simp [negate, atom]

theorem Literal.holdsIn_negate (h : l.atom ≠ 0) : l.negate.HoldsIn X X ↔ ¬l.HoldsIn X X := by
  unfold HoldsIn negate isPositive atom at *
  by_cases hpos : 0 < l.raw
  · simp [hpos, Int.le_of_lt hpos]
  · have hneg : l.raw < 0 := by omega
    simp [hpos, hneg]

/-! ### Bounds of weights -/

theorem sum_map_add_le {α : Type} {xs : List α} {f g : α → Int} {x : α} {w : Int}
    (h : ∀ y ∈ xs, f y ≤ g y) (hx : x ∈ xs) (hw : f x + w ≤ g x) :
    (xs.map f).sum + w ≤ (xs.map g).sum := by
  induction xs with
  | nil => simp at hx
  | cons y ys ih =>
      have htail : ∀ z ∈ ys, f z ≤ g z := fun z hz => h z (by simp [hz])
      simp only [List.map_cons, List.sum_cons]
      rcases List.mem_cons.mp hx with rfl | hmem
      · have := sum_map_mono htail
        omega
      · have hhead := h y (by simp)
        have := ih htail hmem
        omega

namespace WeightSum

variable {s : WeightSum}

/-- The weight of the elements that an assignment makes true. -/
def lowIn (s : WeightSum) (a : Assignment) : Int :=
  (s.elements.map fun e => if a.holds e.1 then e.2 else 0).sum

/-- The weight of those that it does not make false. -/
def highIn (s : WeightSum) (a : Assignment) : Int :=
  (s.elements.map fun e => if a.fails e.1 then 0 else e.2).sum

theorem bounds_eq_wrap (s : WeightSum) (a : Assignment) :
    s.bounds a = (wrapWeight (s.lowIn a), wrapWeight (s.highIn a)) := by
  suffices h : ∀ step : Int × Int → Literal × Int → Int × Int,
      (∀ low high e, step (wrapWeight low, wrapWeight high) e =
        (wrapWeight (low + if a.holds e.1 then e.2 else 0),
          wrapWeight (high + if a.fails e.1 then 0 else e.2))) →
      ∀ (elements : List (Literal × Int)) (low high : Int),
        elements.foldl step (wrapWeight low, wrapWeight high) =
          (wrapWeight (low + (elements.map fun e => if a.holds e.1 then e.2 else 0).sum),
            wrapWeight (high + (elements.map fun e => if a.fails e.1 then 0 else e.2).sum)) by
    change s.elements.foldl _ (wrapWeight 0, wrapWeight 0) = _
    rw [h _ ?_ s.elements 0 0, Int.zero_add, Int.zero_add]
    · rfl
    · intro low high e
      obtain ⟨l, w⟩ := e
      rcases hv : a.value l with _ | _ | _ <;>
        simp [hv, holds, fails, wrapWeight_wrapWeight_add]
  intro step hstep elements
  induction elements with
  | nil => simp
  | cons e es ih =>
      intro low high
      rw [List.foldl_cons, hstep, ih]
      simp [Int.add_assoc]

theorem lowIn_nonneg (hs : WeightsFit s.elements) : 0 ≤ s.lowIn a := by
  refine List.sum_nonneg (List.forall_mem_map.mpr fun e he => ?_)
  have hw := hs.nonneg e he
  split <;> omega

theorem highIn_le (hs : WeightsFit s.elements) : s.highIn a ≤ maxWeight := by
  refine le_trans (sum_map_mono fun e he => ?_) hs.le
  have hw := hs.nonneg e he
  split <;> omega

theorem lowIn_le_weightIn (hX : a.Agrees X) (hs : WeightsFit s.elements) :
    s.lowIn a ≤ s.weightIn X X := by
  apply sum_map_mono
  intro e he
  have hw := hs.nonneg e he
  by_cases h : a.holds e.1
  · simp [h, hX.holdsIn_of_holds h]
  · simp only [h, Bool.false_eq_true, if_false]
    split <;> omega

theorem weightIn_le_highIn (hX : a.Agrees X) (hs : WeightsFit s.elements) :
    s.weightIn X X ≤ s.highIn a := by
  apply sum_map_mono
  intro e he
  have hw := hs.nonneg e he
  by_cases h : a.fails e.1
  · simp [h, hX.not_holdsIn_of_fails h]
  · simp only [h, Bool.false_eq_true, if_false]
    split <;> omega

theorem lowIn_le_highIn (hs : WeightsFit s.elements) : s.lowIn a ≤ s.highIn a := by
  refine sum_map_mono fun e he => ?_
  have hw := hs.nonneg e he
  unfold holds fails
  rcases a.value e.1 with _ | _ | _ <;> simp [hw]

/-- The bounds are exact where the weights are in the range. -/
theorem bounds_eq (hs : WeightsFit s.elements) (a : Assignment) :
    s.bounds a = (s.lowIn a, s.highIn a) := by
  have hlow := lowIn_nonneg (a := a) hs
  have hle := lowIn_le_highIn (a := a) hs
  have hhigh := highIn_le (a := a) hs
  rw [bounds_eq_wrap, wrapWeight_of_nonneg hlow (hle.trans hhigh),
    wrapWeight_of_nonneg (hlow.trans hle) hhigh]

theorem low_le_weightIn (hX : a.Agrees X) (hs : WeightsFit s.elements) :
    (s.bounds a).1 ≤ s.weightIn X X := by
  rw [bounds_eq hs]
  exact lowIn_le_weightIn hX hs

theorem weightIn_le_high (hX : a.Agrees X) (hs : WeightsFit s.elements) :
    s.weightIn X X ≤ (s.bounds a).2 := by
  rw [bounds_eq hs]
  exact weightIn_le_highIn hX hs

/-- An open element that holds comes on top of those known to be true. -/
theorem low_add_le_weightIn (hX : a.Agrees X) (hs : WeightsFit s.elements)
    {e : Literal × Int} (he : e ∈ s.elements) (hopen : a.isOpen e.1) (hl : e.1.HoldsIn X X) :
    wrapWeight ((s.bounds a).1 + e.2) ≤ s.weightIn X X := by
  have hle : s.lowIn a + e.2 ≤ s.weightIn X X := by
    refine sum_map_add_le (fun y hy => ?_) he ?_
    · have hw := hs.nonneg y hy
      by_cases h : a.holds y.1
      · simp [h, hX.holdsIn_of_holds h]
      · simp only [h, Bool.false_eq_true, if_false]
        split <;> omega
    · simp [hl, not_holds_of_isOpen hopen]
  have hmax := (hle.trans (weightIn_le_highIn hX hs)).trans (highIn_le hs)
  rw [bounds_eq hs, wrapWeight_of_nonneg (add_nonneg (lowIn_nonneg hs) (hs.nonneg e he)) hmax]
  exact hle

end WeightSum

/-! ### Sound steps -/

namespace Sound

theorem refl (a : Assignment) : Sound max K a (a, true) :=
  ⟨.refl a, fun _ _ hX => ⟨rfl, hX⟩⟩

/-- Where no set of the kind agrees with the assignment, any failure is sound. -/
theorem fail (h : ∀ X, K X → ¬a.Agrees X) : Sound max K a (a, false) :=
  ⟨.refl a, fun X hk hX => absurd hX (h X hk)⟩

theorem trans {r : Assignment × Bool} (h : Sound max K a (b, true))
    (h' : Sound max K b r) : Sound max K a r :=
  ⟨h.1.trans h'.1, fun X hk hX => h'.2 X hk (h.2 X hk hX).2⟩

theorem assign (hv : a.Valid max) (hr : InRange max l.atom)
    (hl : ∀ X, K X → a.Agrees X → l.HoldsIn X X) : Sound max K a (a.assign l) := by
  cases hvalue : a.value l with
  | some v =>
      rw [show a.assign l = (a, v) by simp [Assignment.assign, hvalue]]
      exact ⟨.refl a, fun X hk hX => ⟨(hX.holdsIn_iff hvalue).mp (hl X hk hX), hX⟩⟩
  | none =>
      have hopen : a.isOpen l := by simp [isOpen, hvalue]
      exact ⟨.single hopen hr, fun X hk hX =>
        ⟨assign_snd_of_isOpen hopen, hX.assign hv hopen hr (hl X hk hX)⟩⟩

theorem assign_fst (hv : a.Valid max) (hr : InRange max l.atom)
    (hl : ∀ X, K X → a.Agrees X → l.HoldsIn X X) :
    Sound max K a ((a.assign l).1, true) :=
  have h := Sound.assign hv hr hl
  ⟨h.1, fun X hk hX => ⟨rfl, (h.2 X hk hX).2⟩⟩

theorem assignAll {ls : List Literal} (hv : a.Valid max) (hr : ∀ l ∈ ls, InRange max l.atom)
    (hl : ∀ X, K X → a.Agrees X → ∀ l ∈ ls, l.HoldsIn X X) :
    Sound max K a (assignAll ls a) := by
  induction ls generalizing a with
  | nil => exact Sound.refl a
  | cons l ls ih =>
      have hfirst := Sound.assign hv (hr l (by simp)) fun X hk hX => hl X hk hX l (by simp)
      unfold Assignment.assignAll
      rcases hassign : a.assign l with ⟨b, _ | _⟩
      · rw [hassign] at hfirst
        exact hfirst
      · rw [hassign] at hfirst
        refine hfirst.trans (ih (hfirst.1.valid hv) (fun m hm => hr m (by simp [hm])) ?_)
        intro X hk hX m hm
        exact hl X hk (hfirst.1.agrees_of hv hX) m (by simp [hm])

end Sound

/-! ### What one clause draws -/

namespace Clause

variable {c : Clause}

theorem not_bodyHolds_of_bodyValue (hw : c.HasFittingWeights) (hX : a.Agrees X)
    (h : c.bodyValue a = some false) : ¬BodyHolds c.body c.sum X X := by
  intro hbody
  have hnone : ¬c.body.any a.fails := by
    simp only [List.any_eq_true, not_exists, not_and]
    exact fun l hl hfails => hX.not_holdsIn_of_fails hfails (hbody.1 l hl)
  simp only [bodyValue, hnone] at h
  cases hsum : c.sum with
  | none => simp [hsum] at h
  | some s =>
      have hhigh := WeightSum.weightIn_le_high hX (hw s hsum)
      have hreach := hbody.2 s hsum
      simp only [hsum] at h
      grind

theorem bodyHolds_of_bodyValue (hw : c.HasFittingWeights) (hX : a.Agrees X)
    (h : c.bodyValue a = some true) : BodyHolds c.body c.sum X X := by
  have hall : c.body.all a.holds ∧ ∀ s ∈ c.sum, s.lower ≤ (s.bounds a).1 := by
    unfold bodyValue at h
    cases hsum : c.sum <;> grind
  refine ⟨fun l hl => hX.holdsIn_of_holds (List.all_eq_true.mp hall.1 l hl), fun s hs => ?_⟩
  exact (hall.2 s hs).trans (WeightSum.low_le_weightIn hX (hw s hs))

/-- If the literals of a body that are open hold, and none fails, then all hold. -/
theorem literals_hold (hX : a.Agrees X) (hfails : ¬c.body.any a.fails)
    (hopen : ∀ l ∈ c.body.filter a.isOpen, l.HoldsIn X X) : ∀ l ∈ c.body, l.HoldsIn X X := by
  intro l hl
  by_cases h : a.isOpen l
  · exact hopen l (List.mem_filter.mpr ⟨hl, h⟩)
  · rcases holds_or_fails_of_not_isOpen h with hh | hf
    · exact hX.holdsIn_of_holds hh
    · exact absurd (List.any_eq_true.mpr ⟨l, hl, hf⟩) hfails

theorem sound_refuteElements {lower low : Int} {elements : List (Literal × Int)}
    (hv : a.Valid max) (hr : ∀ e ∈ elements, InRange max e.1.atom)
    (hl : ∀ X, K X → a.Agrees X → ∀ e ∈ elements, a.isOpen e.1 →
      lower ≤ wrapWeight (low + e.2) → ¬e.1.HoldsIn X X) :
    Sound max K a (refuteElements lower low elements a, true) := by
  induction elements generalizing a with
  | nil => exact Sound.refl a
  | cons e es ih =>
      obtain ⟨l, w⟩ := e
      have hrange := hr (l, w) (by simp)
      unfold refuteElements
      split
      · rename_i hcond
        rw [Bool.and_eq_true, decide_eq_true_eq] at hcond
        have hfirst : Sound max K a ((a.assign l.negate).1, true) := by
          refine Sound.assign_fst hv (by simpa using hrange) fun X hk hX => ?_
          exact (Literal.holdsIn_negate hrange.1.ne').mpr
            (hl X hk hX (l, w) (by simp) hcond.1 hcond.2)
        refine hfirst.trans (ih (hfirst.1.valid hv) (fun e he => hr e (by simp [he])) ?_)
        intro X hk hX e he hopen hreach
        refine hl X hk (hfirst.1.agrees_of hv hX) e (by simp [he]) ?_ hreach
        exact hfirst.1.isOpen_of hv hopen
      · exact ih hv (fun e he => hr e (by simp [he])) fun X hk hX e he =>
          hl X hk hX e (by simp [he])

/-- Refuting a body is sound for the sets in which it does not hold. -/
theorem sound_refute (hc : c.Ranged max) (hw : ∀ X, K X → c.HasFittingWeights)
    (hv : a.Valid max) (hbody : ∀ X, K X → a.Agrees X → ¬BodyHolds c.body c.sum X X) :
    Sound max K a (c.refute a, true) := by
  have hnegate : ∀ l ∈ c.body, (∀ X, K X → a.Agrees X → ¬l.HoldsIn X X) →
      Sound max K a ((a.assign l.negate).1, true) := by
    intro l hl hnot
    have hrange := hc.body l hl
    refine Sound.assign_fst hv (by simpa using hrange) fun X hk hX => ?_
    exact (Literal.holdsIn_negate hrange.1.ne').mpr (hnot X hk hX)
  unfold refute
  split
  · exact Sound.refl a
  · rename_i hfails
    split
    · rename_i l hsum hpending
      have hl : l ∈ c.body.filter a.isOpen := by simp [hpending]
      refine hnegate l (List.mem_filter.mp hl).1 fun X hk hX hholds => ?_
      refine hbody X hk hX ⟨literals_hold hX hfails ?_, by simp [hsum]⟩
      simp [hpending, hholds]
    · exact Sound.refl a
    · rename_i s hsum
      dsimp only
      split
      · exact Sound.refl a
      · split
        · rename_i hpending
          refine sound_refuteElements hv (hc.elements s hsum) ?_
          intro X hk hX e he hopen hreach hholds
          refine hbody X hk hX ⟨literals_hold hX hfails (by simp [hpending]), ?_⟩
          intro s' hs'
          obtain rfl : s = s' := by simpa [hsum] using hs'
          exact hreach.trans (WeightSum.low_add_le_weightIn hX (hw X hk s hsum) he hopen hholds)
        · rename_i l hpending
          split
          · rename_i hreach
            have hl : l ∈ c.body.filter a.isOpen := by simp [hpending]
            refine hnegate l (List.mem_filter.mp hl).1 fun X hk hX hholds => ?_
            refine hbody X hk hX ⟨literals_hold hX hfails (by simp [hpending, hholds]), ?_⟩
            intro s' hs'
            obtain rfl : s = s' := by simpa [hsum] using hs'
            exact hreach.trans (WeightSum.low_le_weightIn hX (hw X hk s hsum))
          · exact Sound.refl a
        · exact Sound.refl a

theorem not_mem_of_headValue (hX : a.Agrees X) (hlength : c.head.length ≤ 1)
    (h : c.headValue a = some false) : ¬∃ h ∈ c.head, h ∈ X := by
  rcases hhead : c.head with _ | ⟨x, xs⟩
  · simp
  · have hnil : xs = [] := by simpa [hhead] using hlength
    have hfalse := hX x false (by simpa [headValue, hhead] using h)
    simp [hnil, hfalse]

theorem sound_propagate (hc : c.Ranged max) (hw : ∀ X, K X → c.HasFittingWeights)
    (hv : a.Valid max) (hk : ∀ X, K X → c.Respects X X) : Sound max K a (c.propagate a) := by
  unfold propagate
  split
  · exact Sound.refl a
  · rename_i hchoice
    have hlength : c.head.length ≤ 1 := by simpa [hchoice] using hc.normal
    have hhead : ∀ X, K X → BodyHolds c.body c.sum X X → ∃ h ∈ c.head, h ∈ X := by
      intro X hX hbody
      simpa [hchoice] using hk X hX hbody
    split
    · rename_i hbody hfalse
      refine Sound.fail fun X hX hagree => ?_
      exact not_mem_of_headValue hagree hlength hfalse
        (hhead X hX (bodyHolds_of_bodyValue (hw X hX) hagree hbody))
    · rename_i hbody hopen
      refine Sound.assignAll hv ?_ fun X hX hagree l hl => ?_
      · intro l hl
        obtain ⟨h, hh, rfl⟩ := List.mem_map.mp hl
        simpa [Literal.positive, Literal.atom] using hc.head h (List.mem_of_mem_take hh)
      · obtain ⟨h, hh, rfl⟩ := List.mem_map.mp hl
        have hmem := List.mem_of_mem_take hh
        rw [Literal.holdsIn_positive (hc.head h hmem).1.ne']
        obtain ⟨x, hx, hxX⟩ := hhead X hX (bodyHolds_of_bodyValue (hw X hX) hagree hbody)
        rwa [eq_of_mem_of_length_le hlength hmem hx]
    · rename_i hbody hfalse
      refine sound_refute hc hw hv fun X hX hagree hholds => ?_
      exact not_mem_of_headValue hagree hlength hfalse (hhead X hX hholds)
    · exact Sound.refl a

end Clause

/-! ### Rounds -/

namespace Problem

variable {p : Problem}

theorem sound_propagateClauses {cs : List Clause} (hcs : ∀ c ∈ cs, c.Ranged max)
    (hw : ∀ X, K X → ∀ c ∈ cs, c.HasFittingWeights) (hv : a.Valid max)
    (hk : ∀ X, K X → ∀ c ∈ cs, c.Respects X X) :
    Sound max K a (propagateClauses cs a) := by
  induction cs generalizing a with
  | nil => exact Sound.refl a
  | cons c cs ih =>
      have hfirst := Clause.sound_propagate (hcs c (by simp)) (fun X hX => hw X hX c (by simp)) hv
        fun X hX => hk X hX c (by simp)
      unfold propagateClauses
      rcases hprop : c.propagate a with ⟨b, _ | _⟩
      · rw [hprop] at hfirst
        exact hfirst
      · rw [hprop] at hfirst
        exact hfirst.trans (ih (fun c hc => hcs c (by simp [hc]))
          (fun X hX c hc => hw X hX c (by simp [hc])) (hfirst.1.valid hv)
          fun X hX c hc => hk X hX c (by simp [hc]))

theorem getD_foldl_set (heads : List Nat) (s : Array Bool) (atom : Nat) :
    (heads.foldl (fun s h => s.setIfInBounds h true) s).getD atom false =
      (s.getD atom false || (heads.contains atom && decide (atom < s.size))) := by
  induction heads generalizing s with
  | nil => simp
  | cons h hs ih =>
      rw [List.foldl_cons, ih]
      simp only [Array.getD_eq_getD_getElem?]
      grind

theorem size_foldl_set (heads : List Nat) (s : Array Bool) :
    (heads.foldl (fun s h => s.setIfInBounds h true) s).size = s.size := by
  induction heads generalizing s with
  | nil => rfl
  | cons h hs ih => rw [List.foldl_cons, ih, Array.size_setIfInBounds]

theorem getD_supported (hp : p.Ranged) {atom : Nat} (hr : InRange p.maxAtom atom) :
    (p.supported a).getD atom false ↔
      p.isGiven atom ∨ ∃ c ∈ p.clauses, c.bodyValue a ≠ some false ∧ atom ∈ c.head := by
  have hsize : atom < p.given.size := by
    have := hp.given
    have := hr.2
    omega
  suffices h : ∀ (cs : List Clause) (s : Array Bool), atom < s.size →
      ((cs.foldl (fun s c =>
        if c.bodyValue a == some false then s
        else c.head.foldl (fun s h => s.setIfInBounds h true) s) s).getD atom false ↔
      s.getD atom false ∨ ∃ c ∈ cs, c.bodyValue a ≠ some false ∧ atom ∈ c.head) from
    h p.clauses p.given hsize
  intro cs
  induction cs with
  | nil => simp
  | cons c cs ih =>
      intro s hs
      rw [List.foldl_cons]
      split
      · rename_i hfalse
        rw [ih s hs]
        simp_all
      · rename_i hfalse
        rw [ih _ (by rwa [size_foldl_set]), getD_foldl_set]
        simp_all [or_assoc]

/-- What no clause can derive any more is in no stable set. -/
theorem not_mem_of_unsupported (hX : p.Admits X)
    (hagree : a.Agrees X) {atom : Nat} (h : atom ∈ p.unsupported a) : atom ∉ X := by
  intro hmem
  simp only [unsupported, List.mem_filter, Problem.atoms, List.mem_range'_1] at h
  have hr : InRange p.maxAtom atom := ⟨by omega, by omega⟩
  have hnot : ¬(p.supported a).getD atom false := by simpa using h.2
  rw [getD_supported hX.wellFormed.ranged hr] at hnot
  have hnonneg : p.theory.HasNonnegWeights := fun c hc => (hX.weights hc).nonneg
  rcases hX.stable.supported hnonneg hmem with hg | hf | ⟨c, hc, hh, hb⟩
  · exact hnot (Or.inl hg.2)
  · exact hf
  · refine hnot (Or.inr ⟨c, hc, fun hfalse => ?_, hh⟩)
    exact Clause.not_bodyHolds_of_bodyValue (hX.weights hc) hagree hfalse hb

theorem sound_unsupported (hv : a.Valid p.maxAtom)
    (hk : ∀ X, K X → a.Agrees X → ∀ atom ∈ p.unsupported a, atom ∉ X) :
    Sound p.maxAtom K a (Assignment.assignAll ((p.unsupported a).map .negative) a) := by
  refine Sound.assignAll hv ?_ ?_
  · intro l hl
    obtain ⟨atom, hatom, rfl⟩ := List.mem_map.mp hl
    simp only [unsupported, List.mem_filter, Problem.atoms, List.mem_range'_1] at hatom
    simp only [Literal.negative, Literal.atom, InRange]
    omega
  · intro X hX hagree l hl
    obtain ⟨atom, hatom, rfl⟩ := List.mem_map.mp hl
    rw [Literal.holdsIn_negative]
    exact hk X hX hagree atom hatom

theorem sound_round (hp : p.Ranged) (hv : a.Valid p.maxAtom) :
    Sound p.maxAtom p.Admits a (p.round a) := by
  have hclauses := sound_propagateClauses hp.clauses (fun X (hX : p.Admits X) c => hX.weights) hv
    fun X hX c hc => hX.stable.model.clauses c hc
  unfold round
  rcases hprop : propagateClauses p.clauses a with ⟨b, _ | _⟩
  · rw [hprop] at hclauses
    exact hclauses
  · rw [hprop] at hclauses
    refine hclauses.trans (sound_unsupported (hclauses.1.valid hv) ?_)
    exact fun X hX hagree atom => not_mem_of_unsupported hX hagree

theorem sound_saturateFrom (hp : p.Ranged) (size : Nat) (hv : a.Valid p.maxAtom) :
    Sound p.maxAtom p.Admits a (p.saturateFrom size a) := by
  induction size using Nat.strong_induction_on generalizing a with
  | _ size ih =>
      have hround := sound_round hp hv
      unfold saturateFrom
      rcases hr : p.round a with ⟨b, _ | _⟩
      · rw [hr] at hround
        exact hround
      · rw [hr] at hround
        dsimp only
        split
        · rename_i hlt
          exact hround.trans (ih _ hlt (hround.1.valid hv))
        · exact hround

theorem sound_saturate (hp : p.Ranged) (hv : a.Valid p.maxAtom) :
    Sound p.maxAtom p.Admits a (p.saturate a) :=
  sound_saturateFrom hp _ hv

end Problem

end StablePlan
