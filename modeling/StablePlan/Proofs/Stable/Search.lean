import StablePlan.Proofs.Stable.Stability
import StablePlan.Stable.Search

/-!
What a search sees. The models that it hands to its visitor are stable sets, and where it comes
back with every branch closed it has handed over all of them. Both branches of a decision start
from the same values, since what lies below an assignment can be taken back to its mark.
-/

namespace StablePlan

open Assignment

/-- The atoms that a model makes true. -/
def Model.trueSet (m : Model) : Set Nat := {atom | m.isTrue atom = true}

/-- Hands models over in turn, up to the one after which the visitor has enough. -/
def visitAll {α : Type} (visit : α → Model → α × Bool) : α → List Model → α × Bool
  | found, [] => (found, true)
  | found, m :: ms =>
    match visit found m with
    | (found, true) => visitAll visit found ms
    | (found, false) => (found, false)

/-- A model that was handed over: the clauses have nothing left to say about it, and it is stable
as far as no weights are negative. -/
structure Problem.Offers (p : Problem) (m : Model) : Prop where
  settled : ∃ b : Assignment, (b.Valid p.maxAtom ∧ b.unassigned.size = 0) ∧ p.Settled b ∧
    m = b.toModel
  stable : p.WellFormed → p.theory.IsStable m.trueSet

/-- The models were handed over below an assignment, and unless the search broke off, no stable
set that agrees with the assignment is left out. -/
structure Explored {α : Type} (p : Problem) (visit : α → Model → α × Bool) (a : Assignment)
    (found : α) (r : Progress α) (ms : List Model) : Prop where
  below : Below a r.assignment
  valid : r.assignment.Valid p.maxAtom
  offers : ∀ m ∈ ms, p.Offers m ∧ a.Agrees m.trueSet
  size : ∀ m ∈ ms, m.values.size = p.maxAtom + 1
  visits : visitAll visit found ms = (r.found, r.flow != .stopped)
  complete : r.flow = .exhausted → ∀ X, p.Admits X → a.Agrees X → ∃ m ∈ ms, m.trueSet = X

variable {α : Type} {visit : α → Model → α × Bool} {found : α} {p : Problem} {a b : Assignment}
  {X : Set Nat} {max : Nat} {l : Literal} {r : Progress α} {ms : List Model}

theorem visitAll_append (h : visitAll visit found ms = (r.found, true)) (ns : List Model) :
    visitAll visit found (ms ++ ns) = visitAll visit r.found ns := by
  induction ms generalizing found with
  | nil =>
      have heq : found = r.found := by simpa [visitAll] using h
      rw [heq, List.nil_append]
  | cons m ms ih =>
      simp only [List.cons_append, visitAll] at h ⊢
      rcases hv : visit found m with ⟨f, _ | _⟩
      · simp [hv] at h
      · simp only [hv] at h ⊢
        exact ih h

theorem Assignment.isTrue_toModel (a : Assignment) (atom : Nat) :
    a.toModel.isTrue atom = (a.atomValue atom == some true) := by
  simp only [Model.isTrue, toModel, atomValue, Array.getD_eq_getD_getElem?, Array.getElem?_map]
  cases a.values[atom]? <;> simp

theorem Assignment.trueSet_toModel (a : Assignment) : a.toModel.trueSet = a.trueSet := by
  ext atom
  simp only [Model.trueSet, trueSet, isTrue_toModel, Set.mem_ofPred_eq, beq_iff_eq]

/-- A model that was handed over leaves the reserved atom false. -/
theorem Problem.Offers.zero_notMem {m : Model} (h : p.Offers m) : 0 ∉ m.trueSet := by
  obtain ⟨b, ⟨hvalid, -⟩, -, rfl⟩ := h.settled
  rw [trueSet_toModel]
  intro hmem
  exact absurd (hvalid.value_zero.symm.trans hmem) (by simp)

/-- A stable set has only atoms of the problem. -/
theorem Problem.inRange_of_mem (hp : p.WellFormed) (hX : p.theory.IsStable X) {atom : Nat}
    (h : atom ∈ X) : InRange p.maxAtom atom := by
  rcases hX.supported (fun c hc => (hp.clauses c hc).weights.nonneg) h with hg | hf | ⟨c, hc, hh, -⟩
  · exact hg.1
  · exact absurd hf (Set.notMem_empty atom)
  · exact (hp.clauses c hc).head atom hh

theorem Progress.eq_of_flow {flow : Flow} (h : r.flow = flow) :
    r = ⟨r.assignment, r.decisions, r.found, flow⟩ := by
  rw [← h]

namespace Explored

theorem of_eq (h : Explored p visit a found r ms) {r' : Progress α} (heq : r = r') :
    Explored p visit a found r' ms :=
  heq ▸ h

/-- Where no stable set agrees there is nothing to hand over. -/
theorem closed (hbelow : Below a b) (hb : b.Valid p.maxAtom)
    (hno : ∀ X, p.Admits X → ¬a.Agrees X) (decisions : Nat) :
    Explored p visit a found ⟨b, decisions, found, .exhausted⟩ [] :=
  ⟨hbelow, hb, by simp, by simp, rfl, fun _ X hX hagree => absurd hagree (hno X hX)⟩

/-- What was explored below a sound step was explored below its start. -/
theorem of_sound (hv : a.Valid p.maxAtom) (hs : Sound p.maxAtom p.Admits a (b, true))
    (h : Explored p visit b found r ms) : Explored p visit a found r ms := by
  refine ⟨(hs.1.isBelow hv).trans h.below, h.valid, fun m hm => ?_, h.size, h.visits, ?_⟩
  · obtain ⟨hoffers, hagree⟩ := h.offers m hm
    exact ⟨hoffers, hs.1.agrees_of hv hagree⟩
  · intro hflow X hX hagree
    exact h.complete hflow X hX (hs.2 X hX hagree).2

/-- A branch that ended the search. -/
theorem of_branch (hv : a.Valid p.maxAtom) (hopen : a.isOpen l) (hr : InRange p.maxAtom l.atom)
    (h : Explored p visit (a.assign l).1 found r ms) (hflow : r.flow ≠ .exhausted) :
    Explored p visit a found r ms := by
  refine ⟨(hv.below_assign hopen hr).trans h.below, h.valid, fun m hm => ?_, h.size, h.visits,
    fun hexhausted => absurd hexhausted hflow⟩
  obtain ⟨hoffers, hagree⟩ := h.offers m hm
  exact ⟨hoffers, (Reaches.single hopen hr).agrees_of hv hagree⟩

end Explored

/-- Saturating below a decision and going on covers the decision. -/
theorem Problem.explored_saturate (hp : p.Ranged) (hv : a.Valid p.maxAtom)
    (visit : α → Model → α × Bool) (found : α) (next : Assignment → Progress α) (decisions : Nat)
    (hnext : ∀ b, p.Settled b → b.Valid p.maxAtom → b.unassigned.size ≤ a.unassigned.size →
      ∃ ms, Explored p visit b found (next b) ms) :
    ∃ ms, Explored p visit a found
      (match p.saturate a with
        | (b, true) => next b
        | (b, false) => ⟨b, decisions, found, .exhausted⟩) ms := by
  have hs := sound_saturate hp hv
  rcases hsat : p.saturate a with ⟨b, _ | _⟩
  · rw [hsat] at hs
    refine ⟨[], Explored.closed (hs.1.isBelow hv) (hs.1.valid hv) ?_ decisions⟩
    intro X hX hagree
    exact absurd (hs.2 X hX hagree).1 (by simp)
  · rw [hsat] at hs
    have hvb : b.Valid p.maxAtom := hs.1.valid hv
    obtain ⟨ms, hms⟩ := hnext b (settled_of_saturate hp hv hsat) hvb (hs.1.isBelow hv).size_le
    exact ⟨ms, hms.of_sound hv hs⟩

theorem Problem.explored_total (hv : a.Valid p.maxAtom) (htotal : a.unassigned.size = 0)
    (hsettled : p.Settled a) (decisions : Nat) :
    ∃ ms, Explored p visit a found
      (if p.isStable a then
        let (found, more) := visit found a.toModel
        ⟨a, decisions, found, if more then .exhausted else .stopped⟩
      else ⟨a, decisions, found, .exhausted⟩) ms := by
  have honly : ∀ X, p.Admits X → a.Agrees X → X = a.trueSet := fun X hX hagree =>
    hagree.eq_trueSet hv htotal fun atom h => inRange_of_mem hX.wellFormed hX.stable h
  have hiff : p.WellFormed → (p.isStable a ↔ p.theory.IsStable a.trueSet) := fun hwell =>
    isStable_iff hwell hv htotal hsettled
  split
  · rename_i hstable
    refine ⟨[a.toModel], Below.refl a, hv, ?_, ?_, ?_, ?_⟩
    · rintro m hm
      obtain rfl := List.mem_singleton.mp hm
      refine ⟨⟨⟨a, ⟨hv, htotal⟩, hsettled, rfl⟩, fun hwell => ?_⟩, ?_⟩
      · rw [trueSet_toModel]
        exact (hiff hwell).mp hstable
      · rw [trueSet_toModel]
        exact agrees_trueSet a
    · rintro m hm
      obtain rfl := List.mem_singleton.mp hm
      simp [toModel, hv.size_values]
    · rcases hvisit : visit found a.toModel with ⟨f, _ | _⟩ <;> simp [visitAll, hvisit]
    · intro _ X hX hagree
      exact ⟨a.toModel, by simp, by rw [trueSet_toModel, honly X hX hagree]⟩
  · rename_i hstable
    refine ⟨[], Explored.closed (Below.refl a) hv (fun X hX hagree => ?_) decisions⟩
    have hset := hX.stable
    rw [honly X hX hagree] at hset
    exact hstable ((hiff hX.wellFormed).mpr hset)

/-- The second branch starts from the values of the first, and a stable set that agrees with the
assignment is found below one of them. -/
theorem Explored.join {a₂ : Assignment} {atom : Nat} {r₁ r₂ : Progress α} {ms₁ ms₂ : List Model}
    (hv : a.Valid p.maxAtom) (hv₂ : a₂.Valid p.maxAtom) (hbelow : Below a a₂)
    (hsame : ∀ x, a₂.atomValue x = a.atomValue x) (hr : InRange p.maxAtom atom)
    (hopen : a.atomValue atom = none)
    (h₁ : Explored p visit (a.assign (.negative atom)).1 found r₁ ms₁)
    (hflow : r₁.flow = .exhausted)
    (h₂ : Explored p visit (a₂.assign (.positive atom)).1 r₁.found r₂ ms₂) :
    Explored p visit a found r₂ (ms₁ ++ ms₂) := by
  have hneg : a.isOpen (.negative atom) := by simpa [isOpen_iff, Literal.negative, Literal.atom]
  have hpos : a₂.isOpen (.positive atom) := by
    simpa [isOpen_iff, Literal.positive, Literal.atom, hsame]
  have hrneg : InRange p.maxAtom (Literal.negative atom).atom := by
    simpa [Literal.negative, Literal.atom]
  have hrpos : InRange p.maxAtom (Literal.positive atom).atom := by
    simpa [Literal.positive, Literal.atom]
  have hagree : ∀ Y, a₂.Agrees Y ↔ a.Agrees Y := fun Y => by simp only [Agrees, hsame]
  refine ⟨(hbelow.trans (hv₂.below_assign hpos hrpos)).trans h₂.below, h₂.valid, ?_, ?_, ?_, ?_⟩
  · intro m hm
    rcases List.mem_append.mp hm with hm | hm
    · obtain ⟨hoffers, hm⟩ := h₁.offers m hm
      exact ⟨hoffers, (Reaches.single hneg hrneg).agrees_of hv hm⟩
    · obtain ⟨hoffers, hm⟩ := h₂.offers m hm
      exact ⟨hoffers, (hagree _).mp ((Reaches.single hpos hrpos).agrees_of hv₂ hm)⟩
  · intro m hm
    exact (List.mem_append.mp hm).elim (h₁.size m) (h₂.size m)
  · have hvisits := h₁.visits
    rw [hflow] at hvisits
    rw [visitAll_append hvisits]
    exact h₂.visits
  · intro hexhausted X hX hagreeX
    by_cases hmem : atom ∈ X
    · have hlit : (Literal.positive atom).HoldsIn X X := by simpa [hr.1.ne'] using hmem
      obtain ⟨m, hm, rfl⟩ := h₂.complete hexhausted X hX
        (((hagree X).mpr hagreeX).assign hv₂ hpos hrpos hlit)
      exact ⟨m, List.mem_append_right _ hm, rfl⟩
    · have hlit : (Literal.negative atom).HoldsIn X X := by simpa using hmem
      obtain ⟨m, hm, rfl⟩ := h₁.complete hflow X hX (hagreeX.assign hv hneg hrneg hlit)
      exact ⟨m, List.mem_append_left _ hm, rfl⟩

/-- Below a settled assignment with no more open atoms than the depth allows, a search hands over
stable sets only, and all of them if it comes back with every branch closed. -/
theorem Problem.explored_explore (hp : p.Ranged) (limit : Limit) (depth : Nat)
    (decisions : Nat) (found : α) (hv : a.Valid p.maxAtom) (hsettled : p.Settled a)
    (hdepth : a.unassigned.size ≤ depth) :
    ∃ ms, Explored p visit a found (p.explore limit visit depth a decisions found) ms := by
  induction depth generalizing a decisions found with
  | zero =>
      have htotal : a.unassigned.size = 0 := by omega
      have hfirst := hv.unassigned.first?_eq_none_iff.mpr htotal
      unfold explore
      rw [hfirst]
      exact explored_total hv htotal hsettled decisions
  | succ depth ih =>
      unfold explore
      split
      · rename_i hfirst
        have htotal := hv.unassigned.first?_eq_none_iff.mp hfirst
        exact explored_total hv htotal hsettled decisions
      · rename_i atom hfirst
        have hcontains := hv.unassigned.contains_of_first? hfirst
        have hplace := hv.unassigned.contains_iff.mp hcontains
        have hr : InRange p.maxAtom atom := ⟨hplace.1, hplace.2.1⟩
        have hopen : a.atomValue atom = none := (hv.contains_iff atom hr).mp hcontains
        split
        · exact ⟨[], Below.refl a, hv, by simp, by simp, rfl, by simp⟩
        · have hneg : a.isOpen (.negative atom) := by
            simpa [isOpen_iff, Literal.negative, Literal.atom]
          have hrneg : InRange p.maxAtom (Literal.negative atom).atom := by
            simpa [Literal.negative, Literal.atom]
          have hvneg := hv.assign hneg hrneg
          have hsneg := hv.size_assign hneg hrneg
          obtain ⟨ms₁, h₁⟩ := explored_saturate hp hvneg visit found
            (fun b => p.explore limit visit depth b (decisions + 1) found) (decisions + 1)
            fun b hset hvb hle => ih (decisions + 1) found hvb hset (by omega)
          dsimp only
          split
          · rename_i c decisions' found' hbranch
            have h₁ := h₁.of_eq hbranch
            have hbelow : Below a c := (hv.below_assign hneg hrneg).trans h₁.below
            have hvc : c.Valid p.maxAtom := h₁.valid
            have hvu := hvc.undo hv.unassigned.size_le hbelow.size_le
            have hsame := hbelow.atomValue_undo hv hvc
            have hbelowu := hbelow.undo hv hvc
            have hpos : (c.undo a.unassigned.size).isOpen (.positive atom) := by
              simpa [isOpen_iff, Literal.positive, Literal.atom, hsame]
            have hrpos : InRange p.maxAtom (Literal.positive atom).atom := by
              simpa [Literal.positive, Literal.atom]
            have hvpos := hvu.assign hpos hrpos
            have hspos := hvu.size_assign hpos hrpos
            have hsu := hbelowu.size_le
            obtain ⟨ms₂, h₂⟩ := explored_saturate hp hvpos visit found'
              (fun b => p.explore limit visit depth b decisions' found') decisions'
              fun b hset hvb hle => ih decisions' found' hvb hset (by omega)
            exact ⟨ms₁ ++ ms₂, h₁.join hv hvu hbelowu hsame hr hopen rfl h₂⟩
          · rename_i hflow
            refine ⟨ms₁, h₁.of_branch hv hneg hrneg fun hexhausted => ?_⟩
            exact hflow _ _ _ (Progress.eq_of_flow hexhausted)

/-- Without a limit no search is interrupted. -/
theorem Problem.explore_flow_ne (p : Problem) {limit : Limit}
    (hlimit : ∀ decisions, ¬limit.reached decisions) (depth : Nat) (a : Assignment)
    (decisions : Nat) (found : α) :
    (p.explore limit visit depth a decisions found).flow ≠ .interrupted := by
  induction depth generalizing a decisions found with
  | zero =>
      unfold explore
      split
      · split
        · dsimp only
          split <;> simp
        · simp
      · rw [if_neg (hlimit decisions)]
        simp
  | succ depth ih =>
      unfold explore
      split
      · split
        · dsimp only
          split <;> simp
        · simp
      · rw [if_neg (hlimit decisions)]
        dsimp only
        split
        · split
          · exact ih _ _ _
          · simp
        · split
          · exact ih _ _ _
          · simp

/-! ### From the root -/

theorem Assignment.holdsIn_of_assign (hv : a.Valid max) (hr : InRange max l.atom)
    (h : a.assign l = (b, true)) (hX : b.Agrees X) : l.HoldsIn X X := by
  rcases hvalue : a.value l with _ | v
  · have hopen : a.isOpen l := by simp [isOpen, hvalue]
    have hnew := atomValue_assign hv hopen hr l.atom
    rw [h, if_pos rfl] at hnew
    refine (hX.holdsIn_iff (v := true) ?_).mpr rfl
    simp [value, hnew]
  · have hsame : (a, v) = (b, true) := by simpa [Assignment.assign, hvalue] using h
    obtain ⟨rfl, rfl⟩ := Prod.mk.inj hsame
    exact (hX.holdsIn_iff hvalue).mpr rfl

theorem Assignment.holdsIn_of_assignAll {ls : List Literal} (hv : a.Valid max)
    (hr : ∀ l ∈ ls, InRange max l.atom) (h : assignAll ls a = (b, true)) (hX : b.Agrees X) :
    ∀ l ∈ ls, l.HoldsIn X X := by
  induction ls generalizing a with
  | nil => simp
  | cons l ls ih =>
      have hrest : ∀ m ∈ ls, InRange max m.atom := fun m hm => hr m (List.mem_cons_of_mem l hm)
      have hfirst := Sound.assign (K := fun _ => False) hv (hr l (by simp))
        fun _ h => h.elim
      unfold assignAll at h
      rcases hassign : a.assign l with ⟨c, _ | _⟩
      · simp [hassign] at h
      · rw [hassign] at hfirst
        simp only [hassign] at h
        have hvc : c.Valid max := hfirst.1.valid hv
        have hreach := (Sound.assignAll (K := fun _ => False) hvc hrest
          fun _ h => h.elim).1
        rw [h] at hreach
        intro m hm
        rcases List.mem_cons.mp hm with rfl | hm
        · exact holdsIn_of_assign hv (hr m (by simp)) hassign (hreach.agrees_of hvc hX)
        · exact ih hvc hrest h m hm

/-- What a search from literals that hold at the root comes back with. -/
structure Problem.Searched (p : Problem) (root : List Literal) (visit : α → Model → α × Bool)
    (found : α) (r : Progress α) (ms : List Model) : Prop where
  offers : ∀ m ∈ ms, p.Offers m ∧ ∀ l ∈ root, l.HoldsIn m.trueSet m.trueSet
  size : ∀ m ∈ ms, m.values.size = p.maxAtom + 1
  visits : visitAll visit found ms = (r.found, r.flow != .stopped)
  complete : r.flow = .exhausted → ∀ X, p.Admits X → (∀ l ∈ root, l.HoldsIn X X) →
    ∃ m ∈ ms, m.trueSet = X

theorem Problem.searched_search (hp : p.Ranged) (limit : Limit) {root : List Literal}
    (hroot : ∀ l ∈ root, InRange p.maxAtom l.atom) (visit : α → Model → α × Bool) (found : α) :
    ∃ ms, p.Searched root visit found (p.search limit root visit found) ms := by
  have hv := valid_empty p.maxAtom
  have hsound : Sound p.maxAtom (fun X => ∀ l ∈ root, l.HoldsIn X X) (.empty p.maxAtom)
      (assignAll root (.empty p.maxAtom)) := Sound.assignAll hv hroot fun X hX _ => hX
  unfold search
  rcases hassign : assignAll root (.empty p.maxAtom) with ⟨a, _ | _⟩
  · rw [hassign] at hsound
    refine ⟨[], by simp, by simp, rfl, fun _ X _ hX => ?_⟩
    exact absurd (hsound.2 X hX (agrees_empty _ X)).1 (by simp)
  · rw [hassign] at hsound
    have hva : a.Valid p.maxAtom := hsound.1.valid hv
    obtain ⟨ms, hms⟩ := explored_saturate hp hva visit found
      (fun b => p.explore limit visit b.unassigned.size b 0 found) 0
      fun b hset hvb _ => explored_explore hp limit _ 0 found hvb hset le_rfl
    refine ⟨ms, fun m hm => ?_, hms.size, hms.visits, fun hflow X hX hl => ?_⟩
    · obtain ⟨hoffers, hagree⟩ := hms.offers m hm
      exact ⟨hoffers, holdsIn_of_assignAll hv hroot hassign hagree⟩
    · exact hms.complete hflow X hX (hsound.2 X hl (agrees_empty _ X)).2

theorem Problem.search_flow_ne (p : Problem) {limit : Limit}
    (hlimit : ∀ decisions, ¬limit.reached decisions) (root : List Literal)
    (visit : α → Model → α × Bool) (found : α) :
    (p.search limit root visit found).flow ≠ .interrupted := by
  unfold search
  split
  · split
    · exact p.explore_flow_ne hlimit _ _ _ _
    · simp
  · simp

end StablePlan
