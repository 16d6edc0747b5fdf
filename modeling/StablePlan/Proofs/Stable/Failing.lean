import Mathlib.Data.List.Sort
import StablePlan.Proofs.Stable.Consequences
import StablePlan.Proofs.Stable.Constraints

/-!
Calls that fail. All that such a call can leave behind is a larger largest atom. The searches that
follow go through more atoms than before, but nothing derives them, so they are false in every
model, and no answer tells that the call was made.
-/

namespace StablePlan

/-- Whether there is a model, if that is known. -/
def SolveResult.isSatisfiable? : SolveResult → Option Bool
  | .satisfiable _ => some true
  | .unsatisfiable => some false
  | .unknown => none

namespace Reasoner

/-- Never stops. -/
def collect (ms : List Model) (m : Model) : List Model × Bool := (ms ++ [m], true)

/-- The models that a search under assumptions goes through if it is never stopped. -/
def models (r : Reasoner) (assumptions : List Literal) : Except SolveError (List Model) := do
  assumptions.forM r.checkAssumption
  .ok ((r.problem false assumptions).search r.limit (r.root false assumptions) collect []).found

/-- The sets of true atoms of these models. -/
def modelSets (r : Reasoner) (assumptions : List Literal) : Except SolveError (Set (Set Nat)) :=
  (r.models assumptions).map fun ms => {X | ∃ m ∈ ms, m.trueSet = X}

/-- No answer tells the two states apart, as long as assumptions are about atoms of the first. -/
structure AnswersAlike (r s : Reasoner) : Prop where
  brave : s.brave = r.brave
  cautious : s.cautious = r.cautious
  satisfiable : ∀ assumptions : List Literal, (∀ l ∈ assumptions, l.atom ≤ r.maxAtom) →
    (s.solve assumptions).map (·.result.isSatisfiable?) =
      (r.solve assumptions).map (·.result.isSatisfiable?)
  models : ∀ assumptions : List Literal, (∀ l ∈ assumptions, l.atom ≤ r.maxAtom) →
    s.modelSets assumptions = r.modelSets assumptions

variable {r s : Reasoner} {log : List Observation} {assumptions : List Literal} {X : Set Nat}
  {e : SolveError}

/-! ### Answers in terms of the log -/

theorem visitAll_collect (found ms : List Model) :
    visitAll collect found ms = (found ++ ms, true) := by
  induction ms generalizing found with
  | nil => simp [visitAll]
  | cons m ms ih => simp [visitAll, collect, ih]

/-- Without a limit the search goes through all solutions. -/
theorem IsExactFor.modelSets_eq (h : r.IsExactFor log) (hlimit : r.limit = .unlimited)
    (hcheck : assumptions.forM r.checkAssumption = .ok ()) :
    r.modelSets assumptions = .ok {X | Solution log r.maxAtom assumptions X} := by
  have hwell := h.wellFormed false assumptions
  have hroot : ∀ l ∈ r.root false assumptions, InRange r.maxAtom l.atom :=
    h.inRange_root (inRange_of_checkAssumptions hcheck)
  obtain ⟨ms, hms⟩ := Problem.searched_search hwell.ranged r.limit hroot collect []
  have hunlimited : ∀ decisions, ¬r.limit.reached decisions := by
    simp [hlimit, Limit.unlimited, Limit.reached]
  have hne := (r.problem false assumptions).search_flow_ne hunlimited (r.root false assumptions)
    collect []
  unfold modelSets models
  rw [hcheck]
  change Except.ok _ = Except.ok _
  generalize (r.problem false assumptions).search r.limit (r.root false assumptions) collect [] =
    search at hms hne ⊢
  have hvisits := hms.visits
  rw [visitAll_collect, List.nil_append] at hvisits
  obtain ⟨hfound, hflow⟩ := Prod.mk.inj hvisits
  have hexhausted : search.flow = .exhausted := by
    cases hcase : search.flow with
    | exhausted => rfl
    | interrupted => exact absurd hcase hne
    | stopped => simp [hcase] at hflow
  congr 1
  ext X
  change (∃ m ∈ search.found, m.trueSet = X) ↔ Solution log r.maxAtom assumptions X
  rw [h.solution_iff, ← hfound]
  constructor
  · rintro ⟨m, hm, rfl⟩
    obtain ⟨hoffers, hholds⟩ := hms.offers m hm
    exact ⟨hoffers.stable hwell, hholds⟩
  · rintro ⟨hstable, hholds⟩
    exact hms.complete hexhausted X ⟨hwell, hstable⟩ hholds

/-- Without a limit a solve call knows whether there is a solution. -/
theorem IsExactFor.exists_isSatisfiable?_eq (h : r.IsExactFor log) (hlimit : r.limit = .unlimited)
    (hcheck : assumptions.forM r.checkAssumption = .ok ()) :
    ∃ b, (r.solve assumptions).map (·.result.isSatisfiable?) = .ok (some b) ∧
      (b = true ↔ ∃ X, Solution log r.maxAtom assumptions X) := by
  obtain ⟨report, hsolve, hanswers⟩ := h.exists_report (inRange_of_checkAssumptions hcheck)
  rw [hsolve]
  have hsolution : ∀ {X}, Solution log r.maxAtom assumptions X ↔ r.Meets assumptions X :=
    h.solution_iff
  obtain ⟨result, decisions⟩ := report
  cases result with
  | satisfiable m => exact ⟨true, rfl, iff_of_true rfl ⟨_, hsolution.mpr hanswers⟩⟩
  | unsatisfiable =>
      refine ⟨false, rfl, iff_of_false (by simp) ?_⟩
      rintro ⟨X, hX⟩
      exact hanswers X (hsolution.mp hX)
  | unknown => exact absurd hlimit hanswers

/-- The result of a consequence query: none if there is nothing to gather from, and otherwise the
atoms with a property, in order. -/
structure Gathers (isEmpty : Prop) (belongs : Nat → Prop) (result : Option (List Nat)) : Prop where
  none_iff : result = none ↔ isEmpty
  sorted : ∀ atoms ∈ result, atoms.Pairwise (· < ·)
  mem_iff : ∀ atoms ∈ result, ∀ atom, atom ∈ atoms ↔ belongs atom

theorem Gathers.unique {isEmpty : Prop} {belongs : Nat → Prop} {result result' : Option (List Nat)}
    (h : Gathers isEmpty belongs result) (h' : Gathers isEmpty belongs result') :
    result = result' := by
  have hnone : result = none ↔ result' = none := h.none_iff.trans h'.none_iff.symm
  cases result with
  | none => exact (hnone.mp rfl).symm
  | some atoms =>
      cases result' with
      | none => exact hnone.mpr rfl
      | some atoms' =>
          congr 1
          exact (h.sorted _ rfl).eq_of_mem_iff (h'.sorted _ rfl) fun {atom} =>
            (h.mem_iff _ rfl atom).trans (h'.mem_iff _ rfl atom).symm

theorem IsExactFor.none_iff (h : r.IsExactFor log) {combine : Bool → Bool → Bool}
    {result : Option (List Nat)} (hok : r.consequences combine = .ok result) :
    result = none ↔ ∀ X, ¬(openTheory log).IsStable X := by
  obtain ⟨ms, hstable, hms⟩ := h.consequences_eq hok
  rw [h.theory_open] at hstable
  rcases ms with _ | ⟨m, ms⟩
  · exact iff_of_true hms fun X hX => by simpa using (hstable X).mp hX
  · obtain ⟨atoms, rfl, -⟩ := hms
    exact iff_of_false (by simp) fun hno => hno m.trueSet ((hstable _).mpr ⟨m, by simp, rfl⟩)

theorem IsExactFor.gathers_brave (h : r.IsExactFor log) {result : Option (List Nat)}
    (hok : r.brave = .ok result) : Gathers (∀ X, ¬(openTheory log).IsStable X)
      (fun atom => ∃ X, (openTheory log).IsStable X ∧ atom ∈ X) result := by
  have hspec := h.brave_spec hok
  rw [h.theory_open] at hspec
  refine ⟨h.none_iff hok, ?_, ?_⟩
  · rintro atoms rfl
    exact pairwise_of_consequences hok
  · rintro atoms rfl
    exact hspec

theorem IsExactFor.gathers_cautious (h : r.IsExactFor log) {result : Option (List Nat)}
    (hok : r.cautious = .ok result) : Gathers (∀ X, ¬(openTheory log).IsStable X)
      (fun atom => ∀ X, (openTheory log).IsStable X → atom ∈ X) result := by
  have hspec := h.cautious_spec hok
  rw [h.theory_open] at hspec
  refine ⟨h.none_iff hok, ?_, ?_⟩
  · rintro atoms rfl
    exact pairwise_of_consequences hok
  · rintro atoms rfl
    exact hspec.2

/-! ### More atoms -/

/-- The atoms of a solution are those of the log, however many there are otherwise. -/
theorem IsExactFor.solution_iff_of_le (h : r.IsExactFor log) (hle : r.maxAtom ≤ s.maxAtom) :
    Solution log s.maxAtom assumptions X ↔ Solution log r.maxAtom assumptions X := by
  refine ⟨fun hX => ⟨?_, hX.assumed, hX.on, hX.off, hX.rules, hX.derived⟩,
    fun hX => ⟨fun a ha => (hX.inRange a ha).mono hle, hX.assumed, hX.on, hX.off, hX.rules,
      hX.derived⟩⟩
  -- What is in range is closed, and `X` is the least closed set.
  have hclosed : ClosedUnder log assumptions X (X ∩ {a | InRange r.maxAtom a}) := by
    refine ⟨?_, fun o ho c hc hbody a ha hchoice => ?_⟩
    · rintro a ⟨value, hdeclared, -⟩ haX
      exact ⟨haX, h.inRange_external ((h.externals a value).mpr hdeclared)⟩
    · have hwell := h.wellFormed_clause ho hc
      have hbodyX := hbody.mono hwell.weights.nonneg Set.inter_subset_left
      exact ⟨hX.derived.1.rules o ho c hc hbodyX a ha hchoice, hwell.head a ha⟩
  exact fun a ha => (hX.derived.2 hclosed ha).2

theorem checkAssumptions_congr (hle : r.maxAtom ≤ s.maxAtom)
    (ha : ∀ l ∈ assumptions, l.atom ≤ r.maxAtom) :
    assumptions.forM s.checkAssumption = assumptions.forM r.checkAssumption := by
  induction assumptions with
  | nil => rfl
  | cons l ls ih =>
      obtain ⟨hl, hls⟩ := List.forall_mem_cons.mp ha
      have hfirst : s.checkAssumption l = r.checkAssumption l := by
        unfold checkAssumption
        rw [if_neg (not_lt.mpr hl), if_neg (not_lt.mpr (hl.trans hle))]
      change (s.checkAssumption l >>= fun _ => ls.forM s.checkAssumption) =
        (r.checkAssumption l >>= fun _ => ls.forM r.checkAssumption)
      rw [hfirst, ih hls]

theorem IsExactFor.answersAlike (h : r.IsExactFor log) (hgrown : Grown r s)
    (hlimit : r.limit = .unlimited) : AnswersAlike r s := by
  have h' : s.IsExactFor log := ⟨h.grown hgrown, h.weights⟩
  have hlimit' : s.limit = .unlimited := by
    rw [hgrown.eq]
    exact hlimit
  have hsolution : ∀ {assumptions X},
      Solution log s.maxAtom assumptions X ↔ Solution log r.maxAtom assumptions X :=
    h.solution_iff_of_le hgrown.le
  refine ⟨?_, ?_, fun assumptions ha => ?_, fun assumptions ha => ?_⟩
  · obtain ⟨result, hr⟩ := exists_consequences_eq_ok hlimit (· || ·)
    obtain ⟨result', hs⟩ := exists_consequences_eq_ok hlimit' (· || ·)
    exact hs.trans ((congrArg _ ((h'.gathers_brave hs).unique (h.gathers_brave hr))).trans hr.symm)
  · obtain ⟨result, hr⟩ := exists_consequences_eq_ok hlimit (· && ·)
    obtain ⟨result', hs⟩ := exists_consequences_eq_ok hlimit' (· && ·)
    exact hs.trans
      ((congrArg _ ((h'.gathers_cautious hs).unique (h.gathers_cautious hr))).trans hr.symm)
  · have hchecks := checkAssumptions_congr hgrown.le ha
    cases hcheck : assumptions.forM r.checkAssumption with
    | error e =>
        unfold solve
        rw [hchecks, hcheck]
        rfl
    | ok _ =>
        obtain ⟨b, hb, hiff⟩ := h.exists_isSatisfiable?_eq hlimit hcheck
        obtain ⟨b', hb', hiff'⟩ := h'.exists_isSatisfiable?_eq hlimit' (hchecks.trans hcheck)
        have hsame : (∃ X, Solution log s.maxAtom assumptions X) ↔
            ∃ X, Solution log r.maxAtom assumptions X := exists_congr fun _ => hsolution
        rw [hb, hb', Bool.eq_iff_iff.mpr (hiff'.trans (hsame.trans hiff.symm))]
  · have hchecks := checkAssumptions_congr hgrown.le ha
    cases hcheck : assumptions.forM r.checkAssumption with
    | error e =>
        unfold modelSets models
        rw [hchecks, hcheck]
        rfl
    | ok _ =>
        rw [h.modelSets_eq hlimit hcheck, h'.modelSets_eq hlimit' (hchecks.trans hcheck)]
        simp only [hsolution]

/-- Where atom 4 is true, the sum wraps around and comes to `-2` or `-1`. -/
def shiftingProgram : List Statement :=
  [.rule ⟨true, [4], []⟩, .weightRule ⟨false, [3], 2,
    [(.positive 3, 1), (.positive 4, maxWeight), (.negative 4, 4), (.positive 4, maxWeight)]⟩]

end Reasoner

end StablePlan
