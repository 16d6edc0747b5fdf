import StablePlan.Proofs.Stable.Record
import StablePlan.Proofs.Stable.Search

/-!
Solving is exact. What a solve call asks for is written down without shifting the search into it:
the rules as they were taken over, the externals as they were declared last, and the least set that
the reduct derives. A model that comes back has all of it, and if none comes back for good there is
no set that has.
-/

namespace StablePlan

/-- Some assumption is about the atom. -/
def IsNamed (assumptions : List Literal) (atom : Nat) : Prop := ∃ l ∈ assumptions, l.atom = atom

/-- What an atom was declared last leaves it open under the assumptions. -/
def IsLeftOpen (log : List Observation) (assumptions : List Literal) (atom : Nat) : Prop :=
  ∃ value, declared? log atom = some value ∧
    (IsNamed assumptions atom ∨ value = .free ∨ value = .on)

/-- `E` has the open externals of `X` and whatever the reduct by `X` derives from it. -/
structure ClosedUnder (log : List Observation) (assumptions : List Literal) (X E : Set Nat) :
    Prop where
  given : ∀ atom, IsLeftOpen log assumptions atom → atom ∈ X → atom ∈ E
  rules : ∀ o ∈ log, ∀ c ∈ o.clauses, BodyHolds c.body c.sum E X →
    ∀ h ∈ c.head, (c.choice = true → h ∈ X) → h ∈ E

/-- What a solve call asks of a set of atoms. -/
structure Solution (log : List Observation) (maxAtom : Nat) (assumptions : List Literal)
    (X : Set Nat) : Prop where
  inRange : ∀ atom ∈ X, InRange maxAtom atom
  assumed : ∀ l ∈ assumptions, l.HoldsIn X X
  on : ∀ atom, ¬IsNamed assumptions atom → declared? log atom = some .on → atom ∈ X
  off : ∀ atom, ¬IsNamed assumptions atom →
    declared? log atom = some .off ∨ declared? log atom = some .release → atom ∉ X
  rules : ∀ o ∈ log, ∀ c ∈ o.rule?, c.choice = false → BodyHolds c.body c.sum X X →
    ∃ h ∈ c.head, h ∈ X
  derived : IsLeast {E | ClosedUnder log assumptions X E} X

/-- The clauses of what was told are about its atoms. -/
theorem Observation.ranged_of_mem_clauses (o : Observation) {max : Nat}
    (hr : ∀ atom ∈ o.atoms, InRange max atom) {c : Clause} (hc : c ∈ o.clauses) :
    c.Ranged max := by
  obtain ⟨d, hd, hc⟩ := List.mem_flatMap.mp hc
  have hrule : o.rule? = some d := Option.mem_toList.mp hd
  have hhead : ∀ x ∈ d.head, x ∈ o.atoms := by
    cases o <;> simp only [Observation.rule?, Option.some.injEq, reduceCtorEq] at hrule <;>
      subst hrule <;> intro x hx <;> exact List.mem_append_left _ hx
  have hbody : ∀ l ∈ d.body, l.atom ∈ o.atoms := by
    cases o <;> simp only [Observation.rule?, Option.some.injEq, reduceCtorEq] at hrule <;>
      subst hrule <;> intro l hl
    · exact List.mem_append_right _ (List.mem_map.mpr ⟨l, hl, rfl⟩)
    · exact absurd hl List.not_mem_nil
  have hsum : ∀ s ∈ d.sum, ∀ e ∈ s.elements, e.1.atom ∈ o.atoms := by
    cases o <;> simp only [Observation.rule?, Option.some.injEq, reduceCtorEq] at hrule <;>
      subst hrule <;> intro s hs e he
    · exact absurd hs (Option.not_mem_none s)
    · obtain rfl := Option.some.inj hs
      exact List.mem_append_right _ (List.mem_map.mpr ⟨e, he, rfl⟩)
  refine ⟨fun x hx => ?_, fun l hl => ?_, fun s hs e he => ?_, Clause.normal_of_mem_shifted hc⟩
  · exact hr x (hhead x (Clause.mem_head_of_mem_shifted hc hx))
  · rcases Clause.mem_of_mem_body_shifted hc hl with hl | ⟨k, hk, rfl⟩
    · exact hr _ (hbody l hl)
    · simpa [Literal.negative, Literal.atom] using hr k (hhead k hk)
  · rw [Clause.sum_of_mem_shifted hc] at hs
    exact hr _ (hsum s hs e he)

namespace Reasoner

variable {r : Reasoner} {log : List Observation} {assumptions : List Literal} {free : Bool}
  {X : Set Nat}

/-! ### The problem that is searched -/

theorem external_mem_of_declared? {atom : Nat} {value : ExternalValue}
    (h : declared? log atom = some value) : .external atom value ∈ log := by
  obtain ⟨o, ho, hdeclares⟩ := List.exists_of_findSome?_eq_some h
  unfold Observation.declares? at hdeclares
  split at hdeclares
  · split at hdeclares
    · subst atom
      obtain rfl := Option.some.inj hdeclares
      exact List.mem_reverse.mp ho
    · exact absurd hdeclares (by simp)
  · exact absurd hdeclares (by simp)

theorem Represents.inRange_external (h : r.Represents log) {e : Nat × ExternalValue}
    (he : e ∈ r.externals) : InRange r.maxAtom e.1 := by
  obtain ⟨atom, value⟩ := e
  have hmem := external_mem_of_declared? ((h.externals atom value).mp he)
  exact h.atoms _ hmem atom (by simp [Observation.atoms])

theorem Represents.mem_clauses (h : r.Represents log) {c : Clause} :
    c ∈ r.clauses.toList ↔ ∃ o ∈ log, c ∈ o.clauses := by
  rw [h.clauses, List.mem_flatMap]

theorem IsExactFor.wellFormed_clause (h : r.IsExactFor log) {o : Observation} (ho : o ∈ log)
    {c : Clause} (hc : c ∈ o.clauses) : c.WellFormed r.maxAtom := by
  refine ⟨o.ranged_of_mem_clauses (h.atoms o ho) hc, fun s hs => ?_⟩
  obtain ⟨d, hd, hc⟩ := List.mem_flatMap.mp hc
  have hrule : o.rule? = some d := Option.mem_toList.mp hd
  rw [Clause.sum_of_mem_shifted hc] at hs
  have hw := h.weights o ho
  cases o <;> simp only [Observation.rule?, Option.some.injEq, reduceCtorEq] at hrule <;>
    subst hrule
  · exact absurd hs (Option.not_mem_none s)
  · obtain rfl := Option.some.inj hs
    exact hw

theorem foldl_given (externals : List (Nat × ExternalValue)) (given : Array Bool) (atom : Nat) :
    (externals.foldl (fun given e => given.setIfInBounds e.1 true) given).getD atom false =
        (given.getD atom false || (externals.any (·.1 == atom) && decide (atom < given.size))) ∧
      (externals.foldl (fun given e => given.setIfInBounds e.1 true) given).size = given.size := by
  induction externals generalizing given with
  | nil => simp
  | cons e es ih =>
      obtain ⟨hget, hsize⟩ := ih (given.setIfInBounds e.1 true)
      rw [List.foldl_cons, hget, hsize, List.any_cons, Array.size_setIfInBounds]
      refine ⟨?_, rfl⟩
      simp only [Array.getD_eq_getD_getElem?]
      grind

theorem Represents.ranged (h : r.Represents log) (free : Bool) (assumptions : List Literal) :
    (r.problem free assumptions).Ranged := by
  refine ⟨fun c hc => ?_, ?_⟩
  · obtain ⟨o, ho, hc⟩ := h.mem_clauses.mp hc
    exact o.ranged_of_mem_clauses (h.atoms o ho) hc
  · have hsize := (foldl_given (r.externals.filter (isGiven free assumptions))
      (Array.replicate (r.maxAtom + 1) false) 0).2
    simpa [problem] using hsize

theorem IsExactFor.wellFormed (h : r.IsExactFor log) (free : Bool) (assumptions : List Literal) :
    (r.problem free assumptions).WellFormed := by
  refine ⟨fun c hc => ?_, (h.ranged free assumptions).given⟩
  obtain ⟨o, ho, hc⟩ := h.mem_clauses.mp hc
  exact h.wellFormed_clause ho hc

theorem Represents.mem_given (h : r.Represents log) {atom : Nat} :
    atom ∈ (r.problem free assumptions).theory.given ↔
      ∃ value, (atom, value) ∈ r.externals ∧ isGiven free assumptions (atom, value) := by
  have hget := (foldl_given (r.externals.filter (isGiven free assumptions))
    (Array.replicate (r.maxAtom + 1) false) atom).1
  have hzero : (Array.replicate (r.maxAtom + 1) false).getD atom false = false := by
    simp only [Array.getD_eq_getD_getElem?]
    grind
  rw [hzero, Bool.false_or, Array.size_replicate] at hget
  simp only [Problem.theory, Set.mem_ofPred_eq, Problem.isGiven, problem]
  rw [hget]
  simp only [Bool.and_eq_true, List.any_eq_true, List.mem_filter, beq_iff_eq, decide_eq_true_eq]
  constructor
  · rintro ⟨-, ⟨⟨a, value⟩, ⟨he, hgiven⟩, rfl⟩, -⟩
    exact ⟨value, he, hgiven⟩
  · rintro ⟨value, he, hgiven⟩
    have hr := h.inRange_external he
    exact ⟨hr, ⟨(atom, value), ⟨he, hgiven⟩, rfl⟩, Nat.lt_succ_of_le hr.2⟩

theorem inRange_root (hexternals : ∀ e ∈ r.externals, InRange r.maxAtom e.1)
    (ha : ∀ l ∈ assumptions, InRange r.maxAtom l.atom) :
    ∀ l ∈ r.root free assumptions, InRange r.maxAtom l.atom := by
  intro l hl
  rcases List.mem_append.mp hl with hl | hl
  · exact ha l hl
  · obtain ⟨e, he, hdemand⟩ := List.mem_filterMap.mp hl
    have hr := hexternals e he
    have hatom : l.atom = e.1 := by
      unfold demand? at hdemand
      split at hdemand
      · exact absurd hdemand (by simp)
      · split at hdemand
        · exact absurd hdemand (by simp)
        · obtain rfl := Option.some.inj hdemand
          simp [Literal.positive, Literal.atom]
        · obtain rfl := Option.some.inj hdemand
          simp [Literal.negative, Literal.atom]
        · obtain rfl := Option.some.inj hdemand
          simp [Literal.negative, Literal.atom]
    rwa [hatom]

theorem Represents.inRange_root (h : r.Represents log)
    (ha : ∀ l ∈ assumptions, InRange r.maxAtom l.atom) :
    ∀ l ∈ r.root free assumptions, InRange r.maxAtom l.atom :=
  Reasoner.inRange_root (fun _ => h.inRange_external) ha

theorem isNamed_iff {atom : Nat} :
    assumptions.any (·.atom == atom) = true ↔ IsNamed assumptions atom := by
  simp [IsNamed]

theorem Represents.isLeftOpen_iff (h : r.Represents log) {atom : Nat} :
    IsLeftOpen log assumptions atom ↔ atom ∈ (r.problem false assumptions).theory.given := by
  rw [h.mem_given]
  unfold IsLeftOpen
  refine exists_congr fun value => and_congr (h.externals atom value).symm ?_
  rw [← isNamed_iff]
  simp [isGiven, or_assoc]

/-- The literals at the root are the assumptions and what the declared values demand. -/
theorem Represents.root_holds_iff (h : r.Represents log) :
    (∀ l ∈ r.root false assumptions, l.HoldsIn X X) ↔
      (∀ l ∈ assumptions, l.HoldsIn X X) ∧
      (∀ atom, ¬IsNamed assumptions atom → declared? log atom = some .on → atom ∈ X) ∧
      (∀ atom, ¬IsNamed assumptions atom →
        declared? log atom = some .off ∨ declared? log atom = some .release → atom ∉ X) := by
  have hpositive : ∀ atom value, (atom, value) ∈ r.externals →
      ((Literal.positive atom).HoldsIn X X ↔ atom ∈ X) := fun atom value he =>
    Literal.holdsIn_positive (h.inRange_external he).1.ne' X X
  have hdemand : ∀ atom, ¬IsNamed assumptions atom →
      demand? false assumptions (atom, .free) = none ∧
      demand? false assumptions (atom, .on) = some (.positive atom) ∧
      demand? false assumptions (atom, .off) = some (.negative atom) ∧
      demand? false assumptions (atom, .release) = some (.negative atom) := by
    intro atom hnamed
    have hany : ¬(assumptions.any (·.atom == atom)) = true := mt isNamed_iff.mp hnamed
    unfold demand?
    rw [Bool.false_or]
    exact ⟨if_neg hany, if_neg hany, if_neg hany, if_neg hany⟩
  unfold root
  simp only [List.mem_append, List.mem_filterMap, or_imp, forall_and]
  refine and_congr_right fun _ => ⟨fun hall => ⟨?_, ?_, ?_⟩, ?_⟩
  · intro atom hnamed hdeclared
    have he := (h.externals atom .on).mpr hdeclared
    exact (hpositive atom .on he).mp (hall _ ⟨(atom, .on), he, (hdemand atom hnamed).2.1⟩)
  · intro atom hnamed hdeclared
    have he := (h.externals atom .off).mpr hdeclared
    simpa using hall _ ⟨(atom, .off), he, (hdemand atom hnamed).2.2.1⟩
  · intro atom hnamed hdeclared
    have he := (h.externals atom .release).mpr hdeclared
    simpa using hall _ ⟨(atom, .release), he, (hdemand atom hnamed).2.2.2⟩
  · rintro ⟨hon, hoff⟩ l ⟨⟨atom, value⟩, he, hl⟩
    have hdeclared := (h.externals atom value).mp he
    by_cases hnamed : IsNamed assumptions atom
    · simp [demand?, isNamed_iff.mpr hnamed] at hl
    · obtain ⟨hfree, htrue, hfalse, hrelease⟩ := hdemand atom hnamed
      cases value with
      | free => exact absurd (hfree.symm.trans hl) (by simp)
      | on =>
          rw [htrue] at hl
          obtain rfl := Option.some.inj hl
          exact (hpositive atom .on he).mpr (hon atom hnamed hdeclared)
      | off =>
          rw [hfalse] at hl
          obtain rfl := Option.some.inj hl
          simpa using hoff.1 atom hnamed hdeclared
      | release =>
          rw [hrelease] at hl
          obtain rfl := Option.some.inj hl
          simpa using hoff.2 atom hnamed hdeclared

/-- Choice heads are cut to `X` and the other rules hold in it, so it makes no difference that the
test of a model cuts all heads. -/
theorem IsExactFor.isLeast_iff (h : r.IsExactFor log)
    (hmodel : ∀ c ∈ (r.problem false assumptions).clauses, c.Respects X X) :
    IsLeast {E | (r.problem false assumptions).Closed X E} X ↔
      IsLeast {E | ClosedUnder log assumptions X E} X := by
  have hweaken : ∀ E, ClosedUnder log assumptions X E →
      (r.problem false assumptions).Closed X E := by
    refine fun E hE => ⟨fun atom hg => hE.given atom (h.isLeftOpen_iff.mpr hg), ?_⟩
    intro c hc hbody x hx hX
    obtain ⟨o, ho, hc⟩ := h.mem_clauses.mp hc
    exact hE.rules o ho c hc hbody x hx fun _ => hX
  have hstrengthen : ∀ E, (r.problem false assumptions).Closed X E →
      ClosedUnder log assumptions X (E ∩ X) := by
    refine fun E hE => ⟨fun atom hopen hX => ⟨hE.given atom (h.isLeftOpen_iff.mp hopen) hX, hX⟩, ?_⟩
    intro o ho c hc hbody x hx hchoice
    have hwell := h.wellFormed_clause ho hc
    have hmem : c ∈ (r.problem false assumptions).clauses := h.mem_clauses.mpr ⟨o, ho, hc⟩
    have hX : x ∈ X := by
      by_cases hc : c.choice = true
      · exact hchoice hc
      · have hrespects := hmodel c hmem (hbody.mono hwell.weights.nonneg Set.inter_subset_right)
        rw [if_neg hc] at hrespects
        obtain ⟨y, hy, hyX⟩ := hrespects
        have hlength : c.head.length ≤ 1 := hwell.normal.resolve_left hc
        rwa [eq_of_mem_of_length_le hlength hx hy]
    exact ⟨hE.clauses c hmem (hbody.mono hwell.weights.nonneg Set.inter_subset_left) x hx hX, hX⟩
  constructor
  · intro hleast
    refine ⟨?_, fun E hE => hleast.2 (hweaken E hE)⟩
    have hself := hstrengthen X hleast.1
    rwa [Set.inter_self] at hself
  · intro hleast
    exact ⟨hweaken X hleast.1, fun E hE => (hleast.2 (hstrengthen E hE)).trans
      Set.inter_subset_left⟩

/-- What is asked for are the stable sets of the problem in which the root holds. -/
theorem IsExactFor.solution_iff (h : r.IsExactFor log) :
    Solution log r.maxAtom assumptions X ↔
      (r.problem false assumptions).theory.IsStable X ∧
        ∀ l ∈ r.root false assumptions, l.HoldsIn X X := by
  have hwell := h.wellFormed false assumptions
  have hclauses : (∀ c ∈ (r.problem false assumptions).clauses, c.Respects X X) ↔
      ∀ o ∈ log, ∀ c ∈ o.rule?, c.choice = false → BodyHolds c.body c.sum X X →
        ∃ h ∈ c.head, h ∈ X := by
    simp only [problem, h.clauses, List.forall_mem_flatMap, Observation.clauses,
      Option.mem_toList, Clause.respects_shifted_iff, Clause.obeys_self_iff]
    rfl
  rw [Problem.theory_isStable_iff hwell, h.root_holds_iff]
  constructor
  · intro hs
    have hmodel := hclauses.mpr hs.rules
    exact ⟨⟨hmodel, (h.isLeast_iff hmodel).mpr hs.derived⟩, hs.assumed, hs.on, hs.off⟩
  · rintro ⟨hstable, hassumed, hon, hoff⟩
    refine ⟨?_, hassumed, hon, hoff, hclauses.mp hstable.1,
      (h.isLeast_iff hstable.1).mp hstable.2⟩
    exact fun atom => Problem.inRange_of_mem hwell ((Problem.theory_isStable_iff hwell).mpr hstable)

/-! ### The answer -/

theorem visitAll_takeFirst (ms : List Model) : visitAll takeFirst none ms =
    match ms with
    | [] => (none, true)
    | m :: _ => (some m, false) := by
  cases ms <;> rfl

theorem checkAssumptions_ok (ha : ∀ l ∈ assumptions, InRange r.maxAtom l.atom) :
    assumptions.forM r.checkAssumption = .ok () := by
  induction assumptions with
  | nil => rfl
  | cons l ls ih =>
      have hr := ha l (by simp)
      have hcheck : r.checkAssumption l = .ok () := by
        unfold checkAssumption
        rw [if_neg hr.1.ne', if_neg (by have := hr.2; omega)]
      rw [List.forM_eq_forM, List.forM_cons, hcheck]
      exact ih fun m hm => ha m (by simp [hm])

/-- A stable set of the problem in which the root holds. -/
def Meets (r : Reasoner) (assumptions : List Literal) (X : Set Nat) : Prop :=
  (r.problem false assumptions).theory.IsStable X ∧ ∀ l ∈ r.root false assumptions, l.HoldsIn X X

/-- What the answer of a solve call says about the problem. -/
def Answers (r : Reasoner) (assumptions : List Literal) : SolveResult → Prop
  | .satisfiable m => r.Meets assumptions m.trueSet
  | .unsatisfiable => ∀ X, ¬r.Meets assumptions X
  | .unknown => r.limit ≠ .unlimited

theorem IsExactFor.exists_report (h : r.IsExactFor log)
    (ha : ∀ l ∈ assumptions, InRange r.maxAtom l.atom) :
    ∃ report, r.solve assumptions = .ok report ∧ r.Answers assumptions report.result := by
  have hroot : ∀ l ∈ r.root false assumptions, InRange r.maxAtom l.atom := h.inRange_root ha
  have hwell := h.wellFormed false assumptions
  obtain ⟨ms, hms⟩ := Problem.searched_search hwell.ranged r.limit hroot takeFirst none
  have hvisits := hms.visits
  rw [visitAll_takeFirst] at hvisits
  have hne : (∀ decisions, ¬r.limit.reached decisions) → _ := fun hlimit =>
    (r.problem false assumptions).search_flow_ne hlimit (r.root false assumptions) takeFirst none
  unfold solve
  rw [checkAssumptions_ok ha]
  refine ⟨_, rfl, ?_⟩
  dsimp only
  generalize (r.problem false assumptions).search r.limit (r.root false assumptions) takeFirst
    none = search at hms hne hvisits ⊢
  obtain ⟨a, decisions, found, flow⟩ := search
  rcases ms with _ | ⟨m, ms⟩
  · obtain ⟨rfl, hflow⟩ := Prod.mk.inj hvisits
    cases flow with
    | exhausted =>
        rintro X ⟨hstable, hroot⟩
        obtain ⟨m, hm, -⟩ := hms.complete rfl X ⟨hwell, hstable⟩ hroot
        exact absurd hm (by simp)
    | interrupted =>
        intro hlimit
        exact hne (by simp [hlimit, Limit.unlimited, Limit.reached]) rfl
    | stopped => exact absurd hflow (by simp)
  · obtain ⟨rfl, -⟩ := Prod.mk.inj hvisits
    obtain ⟨hoffers, hroot⟩ := hms.offers m (by simp)
    exact ⟨hoffers.stable hwell, hroot⟩

end Reasoner

end StablePlan
