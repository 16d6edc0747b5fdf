import StablePlan.Proofs.Plan.Attempt

/-!
Attempts with a reasoner. A reasoner answers for good, so an attempt decides whether there is a
stable set of the unrolled program that is steered to the length and does not repeat a rejected
answer. For a program that describes a step these stable sets are its runs.
-/

namespace StablePlan

/-- A stable set of `n` unrolled steps in which the handles are as they are wanted for a plan of
some length. -/
structure Template.Guided (t : Template) (query : Nat) (skip : Option Nat) (n length : Nat)
    (X : Set Nat) : Prop where
  stable : (t.unrolled n).IsStable X
  handles : ∀ s k, 1 ≤ s → s ≤ n → t.IsHandle k →
    (s * t.period + k ∈ X ↔ Wants query skip n length s k)

/-- A run over `n` steps in which the handles are as they are wanted for a plan of some length. -/
structure Template.Steered (t : Template) (log : List Observation) (query : Nat)
    (skip : Option Nat) (n length : Nat) (X : Set Nat) : Prop where
  run : t.IsRun log n X
  handles : ∀ s k, 1 ≤ s → s ≤ n → t.IsHandle k →
    (s * t.period + k ∈ X ↔ Wants query skip n length s k)

theorem Compiled.steered_iff {log : List Observation} {d : Draft} {b : Bands} {t : Template}
    {query n length : Nat} {skip : Option Nat} {X : Set Nat} (h : Compiled log d b t)
    (hexact : (Draft.scopeOf log).exact) (hfits : t.fits n) :
    t.Steered log query skip n length X ↔ t.Guided query skip n length X := by
  have hrun := h.isStable_iff_isRun hexact hfits (M := X)
  exact ⟨fun hX => ⟨hrun.mpr hX.run, hX.handles⟩, fun hX => ⟨hrun.mp hX.stable, hX.handles⟩⟩

namespace Planner

section Steers

variable {β κ : Type} {p : Planner β κ} {t : Template} {length : Nat}
  {blocked : Set (List Literal)} {X : Set Nat}

/-- The stable sets that the assumptions and what was told leave are those that are steered. -/
theorem Steers.admits_iff (h : p.Steers t length) (hlaid : t.Laid) :
    p.unrolling.Admits (p.releases ∪ blocked) X ↔
      t.Guided p.query p.skip p.steps length X ∧
        ∀ body ∈ blocked, ¬∀ l ∈ body, l.HoldsIn X X := by
  have hperiod : p.unrolling.template.period = t.period := congrArg Template.period h.template
  have hliteral : ∀ s, (¬∀ l ∈ [Literal.positive (s * t.period + p.query)], l.HoldsIn X X) ↔
      s * t.period + p.query ∉ X := by
    intro s
    have hpos := (hlaid.handle_range _ h.query).1
    simp [Literal.holdsIn_positive (show s * t.period + p.query ≠ 0 by omega)]
  constructor
  · rintro ⟨hstable, hvalues, hallowed⟩
    rw [h.template] at hstable hvalues
    refine ⟨⟨hstable, fun s k hs hle hk => ?_⟩, fun body hbody => hallowed body (Or.inr hbody)⟩
    cases hv : p.unrolling.value? s k with
    | some v => exact (hvalues s k v hv).trans (h.values s k v hv).2
    | none =>
        obtain ⟨rfl, -⟩ := h.complete s k hs hle hk hv
        have hbody := hallowed [.positive (s * t.period + p.query)]
          (Or.inl ⟨s, ⟨⟨hs, hle⟩, hv⟩, by rw [hperiod]⟩)
        exact iff_of_false ((hliteral s).mp hbody) (h.not_wants_of_released ⟨⟨hs, hle⟩, hv⟩)
  · rintro ⟨⟨hstable, hhandles⟩, hblocked⟩
    refine ⟨h.template ▸ hstable, fun s k v hv => ?_, ?_⟩
    · obtain ⟨⟨⟨hs, hle⟩, hk⟩, hwants⟩ := h.values s k v hv
      rw [hperiod]
      exact (hhandles s k hs hle hk).trans hwants.symm
    · rintro body (⟨s, hs, rfl⟩ | hbody)
      · rw [hperiod, hliteral, hhandles s _ hs.1.1 hs.1.2 h.query]
        exact h.not_wants_of_released hs
      · exact hblocked body hbody

end Steers

variable {κ : Type} {p p' q : Planner Reasoner κ} {t : Template} {limit : Limit} {length : Nat}
  {blocked : Set (List Literal)} {attempt : Attempt} {query skip : Symbol}

/-- A reasoner decides what it is asked for. -/
theorem Steers.exists_reply (h : p.Steers t length) (htold : p.Told (Reasoner.ledger limit) blocked)
    (hlaid : t.Laid) (hfit : t.HasFittingWeights) (hsteps : 0 < p.steps) :
    ∃ report, p.reply = .ok report ∧
      match report.result with
      | .satisfiable m => t.Guided p.query p.skip p.steps length m.trueSet
      | .unsatisfiable => ∀ X, t.Guided p.query p.skip p.steps length X →
          ∃ body ∈ blocked, ∀ l ∈ body, l.HoldsIn X X
      | .unknown => limit ≠ .unlimited := by
  have hstarted : p.unrolling.started = true := by simpa [hsteps] using h.started
  have hfits : p.unrolling.template.fits p.unrolling.steps := h.template ▸ h.fits hsteps
  obtain ⟨report, hsolve, hreport⟩ := Unrolling.Told.exists_report htold (h.template ▸ hlaid)
    (h.template ▸ hfit) hstarted hfits h.sorted h.switched
  refine ⟨report, hsolve, ?_⟩
  revert hreport
  cases report.result with
  | satisfiable m => exact fun hm => ((h.admits_iff hlaid).mp hm).1
  | unsatisfiable =>
      intro hno X hX
      by_contra hallowed
      exact hno X ((h.admits_iff hlaid).mpr
        ⟨hX, fun body hbody hall => hallowed ⟨body, hbody, hall⟩⟩)
  | unknown => exact id

/-! ### What an attempt decides -/

/-- What is true of the result and the planner after a call, or of the error and what it leaves. -/
def Ends {α : Type} (x : Except (Failure Reasoner κ) (α × Planner Reasoner κ))
    (P : α → Planner Reasoner κ → Prop) (Q : PlanError → Planner Reasoner κ → Prop) : Prop :=
  match x with
  | .ok (a, p) => P a p
  | .error (e, p) => Q e p

theorem ends_iff_finishes {α : Type} {x : Except (Failure Reasoner κ) (α × Planner Reasoner κ)}
    {P : α → Planner Reasoner κ → Prop} {Q : PlanError → Planner Reasoner κ → Prop} :
    Ends x P Q ↔ Finishes x (fun r => P r.1 r.2) Q := by
  cases x with
  | ok r => exact Iff.rfl
  | error r => exact Iff.rfl

theorem Ends.mono {α : Type} {x : Except (Failure Reasoner κ) (α × Planner Reasoner κ)}
    {P P' : α → Planner Reasoner κ → Prop} {Q Q' : PlanError → Planner Reasoner κ → Prop}
    (h : Ends x P Q) (hP : ∀ a p, P a p → P' a p) (hQ : ∀ e p, Q e p → Q' e p) : Ends x P' Q' := by
  unfold Ends at h ⊢
  split
  · exact hP _ _ h
  · exact hQ _ _ h

/-- What the outcome of an attempt says about the stable sets of the grounded steps. -/
structure Justifies (p : Planner Reasoner κ) (t : Template) (limit : Limit)
    (blocked : Set (List Literal)) (attempt : Attempt) : Prop where
  found : attempt.outcome = .satisfiable → ∃ m : Model,
    attempt.answer = some (p.unrolling.answer m attempt.length) ∧
      t.Guided p.query p.skip p.steps attempt.length m.trueSet
  refuted : attempt.outcome = .unsatisfiable → ∀ X,
    t.Guided p.query p.skip p.steps attempt.length X →
      ∃ body ∈ blocked, ∀ l ∈ body, l.HoldsIn X X
  unknown : attempt.outcome = .unknown → limit ≠ .unlimited ∨ p.check ≠ none
  outOfMemory : attempt.outcome = .outOfMemory → p.memoryLimit ≠ none

theorem Concludes.justifies (h : p.Concludes (Reasoner.ledger limit) t blocked attempt)
    (hlaid : t.Laid) (hfit : t.HasFittingWeights) (hsteps : 0 < p.steps) :
    p.Justifies t limit blocked attempt := by
  obtain ⟨q, report, hasked, hreply, houtcome⟩ := h
  obtain ⟨earlier, hle, htold⟩ := hasked.told
  obtain ⟨report', hreply', hreport⟩ :=
    hasked.steers.exists_reply htold hlaid hfit (hasked.steps ▸ hsteps)
  obtain rfl := Except.ok.inj (hreply'.symm.trans hreply)
  rw [hasked.query, hasked.skip, hasked.steps] at hreport
  constructor
  all_goals
    intro heq
    rw [heq] at houtcome
  · obtain ⟨m, hresult, hanswer⟩ := houtcome
    rw [hresult] at hreport
    exact ⟨m, hanswer, hreport⟩
  · rw [show report'.result = .unsatisfiable from houtcome] at hreport
    intro X hX
    obtain ⟨body, hbody, hall⟩ := hreport X hX
    exact ⟨body, hle hbody, hall⟩
  · refine houtcome.imp_left fun hresult => ?_
    rw [hresult] at hreport
    exact hreport
  · exact houtcome.elim

/-- With a reasoner solving fails only for a check. -/
theorem Fails.checked {e : PlanError} (h : p.Fails (Reasoner.ledger limit) t length blocked e)
    (hlaid : t.Laid) (hfit : t.HasFittingWeights) (hsteps : 0 < p.steps) : p.check ≠ none := by
  rcases h with ⟨hcheck, -⟩ | ⟨q, error, hasked, hreply, -⟩
  · exact hcheck
  · obtain ⟨earlier, -, htold⟩ := hasked.told
    obtain ⟨report, hreply', -⟩ :=
      hasked.steers.exists_reply htold hlaid hfit (hasked.steps ▸ hsteps)
    exact absurd (hreply.symm.trans hreply') (by simp)

/-- A planner between attempts that has no limits and no check. -/
structure Unlimited (p : Planner Reasoner κ) (t : Template) (query skip : Symbol) : Prop where
  steers : p.Steers t p.steps
  told : p.Told (Reasoner.ledger .unlimited) ∅
  query : t.external? query = some p.query
  skip : p.skip = t.external? skip
  memoryLimit : p.memoryLimit = none
  check : p.check = none

theorem Unlimited.keeps (h : p.Unlimited t query skip)
    (hkeeps : Keeps (Reasoner.ledger .unlimited) t p'.steps ∅ p p' ∅) : p'.Unlimited t query skip :=
  ⟨hkeeps.steers, hkeeps.told, hkeeps.continues.query ▸ h.query,
    hkeeps.continues.skip.trans h.skip, hkeeps.continues.memoryLimit.trans h.memoryLimit,
    hkeeps.continues.check.mpr h.check⟩

theorem Unlimited.congr (h : p.Unlimited t query skip) (hunrolling : p'.unrolling = p.unrolling)
    (hbackend : p'.backend = p.backend) (hquery : p'.query = p.query) (hskip : p'.skip = p.skip)
    (hmarker : p'.marker = p.marker) (hmemory : p'.memoryLimit = p.memoryLimit)
    (hcheck : p'.check = p.check) : p'.Unlimited t query skip := by
  have hsteps : p'.steps = p.steps := congrArg Unrolling.steps hunrolling
  exact ⟨hsteps ▸ h.steers.congr hunrolling hquery hskip hmarker,
    h.told.congr hunrolling hbackend hquery, hquery ▸ h.query, hskip.trans h.skip,
    hmemory.trans h.memoryLimit, hcheck.trans h.check⟩

variable [ModelCheck κ]

/-- However an attempt ends, the switches are set again as they have to be between attempts. It
fails only for a check or if the steps do not fit. -/
theorem Steers.ends_attempt (h : p.Steers t p.steps)
    (htold : p.Told (Reasoner.ledger limit) blocked) (hlaid : t.Laid)
    (hfit : t.HasFittingWeights) (length : Nat) :
    Ends (p.attempt length)
      (fun attempt p' => attempt.length = p.usable length ∧
        (attempt.outcome = .outOfMemory ∨ p'.steps = p.needed length) ∧
          ∃ blocked', Keeps (Reasoner.ledger limit) t p'.steps blocked p p' blocked' ∧
            p'.Justifies t limit blocked' attempt)
      (fun e p' => (∃ blocked', Keeps (Reasoner.ledger limit) t p'.steps blocked p p' blocked') ∧
        (p.check ≠ none ∨ e = .unroll (.atomOverflow (max (p.usable length) 1)) ∧
          ¬t.fits (max (p.usable length) 1))) := by
  have hpos : 0 < p.needed length := by
    unfold needed
    omega
  have hfinishes := h.finishes_attempt htold hlaid length fun _ _ _ _ _ => trivial
  refine ends_iff_finishes.mpr (hfinishes.mono ?_ ?_)
  · rintro ⟨attempt, p'⟩ ⟨hlength, ⟨houtcome, hsame, hmemory⟩ | ⟨hsteps, blocked', hkeeps, hends⟩⟩
    · replace houtcome : attempt.outcome = .outOfMemory := houtcome
      refine ⟨hlength, Or.inl houtcome, blocked, hsame.steps.symm ▸ .of_resembles h htold hsame,
        ?_, ?_, ?_, fun _ => hsame.memoryLimit ▸ hmemory⟩
      all_goals simp [houtcome]
    · exact ⟨hlength, Or.inr hsteps, blocked', hkeeps, hends.justifies hlaid hfit (hsteps ▸ hpos)⟩
  · rintro e p' (⟨he, hfits, hsame⟩ | ⟨hsteps, blocked', hkeeps, hfails⟩)
    · exact ⟨⟨blocked, hsame.steps.symm ▸ .of_resembles h htold hsame⟩, Or.inr ⟨he, hfits⟩⟩
    · have hchecked := hfails.checked hlaid hfit (hsteps ▸ hpos)
      exact ⟨⟨blocked', hkeeps⟩, Or.inl (mt hkeeps.continues.check.mpr hchecked)⟩

/-- Without limits and without a check an attempt decides whether there is a steered stable set. -/
theorem Unlimited.decides (h : p.Unlimited t query skip) (hlaid : t.Laid)
    (hfit : t.HasFittingWeights) (length : Nat) :
    Ends (p.attempt length)
      (fun attempt p' => attempt.length = p.usable length ∧ p'.steps = p.needed length ∧
        Keeps (Reasoner.ledger .unlimited) t p'.steps ∅ p p' ∅ ∧
        ((∃ answer, attempt.outcome = .satisfiable ∧ attempt.answer = some answer ∧
            ∃ X, t.Guided p.query p.skip (p.needed length) (p.usable length) X) ∨
          attempt.outcome = .unsatisfiable ∧
            ¬∃ X, t.Guided p.query p.skip (p.needed length) (p.usable length) X))
      fun e p' => Keeps (Reasoner.ledger .unlimited) t p'.steps ∅ p p' ∅ ∧
        e = .unroll (.atomOverflow (max (p.usable length) 1)) ∧
          ¬t.fits (max (p.usable length) 1) := by
  refine (h.steers.ends_attempt h.told hlaid hfit length).mono ?_ ?_
  · rintro ⟨length', outcome, answer⟩ p' ⟨rfl, hgrounded, blocked', hkeeps, hjustifies⟩
    obtain rfl := hkeeps.unchecked h.check
    have h' := h.keeps hkeeps
    have hmemory : outcome ≠ .outOfMemory :=
      fun heq => hjustifies.outOfMemory heq h'.memoryLimit
    have hsteps : p'.steps = p.needed length := hgrounded.resolve_left hmemory
    obtain ⟨hfound, hrefuted, hunknown, -⟩ := hjustifies
    rw [hsteps, hkeeps.continues.query, hkeeps.continues.skip] at hfound hrefuted
    refine ⟨rfl, hsteps, hkeeps, ?_⟩
    cases outcome with
    | satisfiable =>
        obtain ⟨m, hanswer, hguided⟩ := hfound rfl
        exact Or.inl ⟨_, rfl, hanswer, _, hguided⟩
    | unsatisfiable =>
        refine Or.inr ⟨rfl, ?_⟩
        rintro ⟨X, hX⟩
        obtain ⟨body, hbody, -⟩ := hrefuted rfl X hX
        exact hbody
    | unknown =>
        rcases hunknown rfl with hlimit | hcheck
        · exact absurd rfl hlimit
        · exact absurd h'.check hcheck
    | outOfMemory => exact absurd rfl hmemory
  · rintro e p' ⟨⟨blocked', hkeeps⟩, hfails⟩
    obtain rfl := hkeeps.unchecked h.check
    exact ⟨hkeeps, hfails.resolve_left fun hchecked => hchecked h.check⟩

end Planner

end StablePlan
