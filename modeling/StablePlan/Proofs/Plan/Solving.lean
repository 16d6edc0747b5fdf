import StablePlan.Proofs.Plan.Calls
import StablePlan.Proofs.Plan.Steering
import StablePlan.Proofs.Unrolling.Showing
import StablePlan.Proofs.Unrolling.Telling

/-!
Solving at a length. The backend is told the program of the grounded steps, that a released query is
false, and what the check has rejected, and it is asked only while the switches are set for the
length. However solving ends, the switches are set again as they were. All this holds with every
backend; what it answers is up to the backend.
-/

namespace StablePlan

namespace Planner

variable {β κ : Type} [Backend β] {K : Ledger β} {p p' p'' q : Planner β κ} {t : Template}
  {length set : Nat} {blocked blocked' blocked'' : Set (List Literal)} {attempt : Attempt}
  {e : PlanError}

/-! ### What the backend was told -/

/-- The backend was told the program of the grounded steps, that released queries are false, and
what is blocked. -/
def Told (K : Ledger β) (p : Planner β κ) (blocked : Set (List Literal)) : Prop :=
  p.unrolling.Told K p.backend (p.releases ∪ blocked)

/-- Only the unrolling, the backend and the query matter for what was told. -/
theorem Told.congr (h : p.Told K blocked) (hunrolling : p'.unrolling = p.unrolling)
    (hbackend : p'.backend = p.backend) (hquery : p'.query = p.query) : p'.Told K blocked := by
  have hsteps : p'.steps = p.steps := congrArg Unrolling.steps hunrolling
  unfold Told releases Released at h ⊢
  rw [hunrolling, hbackend, hquery, hsteps]
  exact h

theorem Told.assuming (h : p.Told K blocked) {table : List (Switch × Bool)}
    (hreleased : ∀ s, (p.assuming table).Released s ↔ p.Released s) :
    (p.assuming table).Told K blocked := by
  have hsame : (p.assuming table).releases = p.releases := by
    unfold releases
    simp only [hreleased]
    rfl
  unfold Told
  rw [hsame]
  exact h

/-- A planner that goes on after a call, set for a plan of some length. What is blocked may have
grown, but not without a check. -/
structure Keeps (K : Ledger β) (t : Template) (length : Nat) (blocked : Set (List Literal))
    (p p' : Planner β κ) (blocked' : Set (List Literal)) : Prop where
  steers : p'.Steers t length
  told : p'.Told K blocked'
  continues : Continues p p'
  grown : blocked ⊆ blocked'
  unchecked : p.check = none → blocked' = blocked

theorem Keeps.of_resembles (h : p.Steers t length) (htold : p.Told K blocked)
    (hsame : Resembles p p') : Keeps K t length blocked p p' blocked :=
  ⟨h.congr hsame.unrolling hsame.query hsame.skip hsame.marker,
    htold.congr hsame.unrolling hsame.backend hsame.query, hsame.toContinues, subset_rfl,
    fun _ => rfl⟩

theorem Keeps.trans (h : Keeps K t set blocked p p' blocked')
    (h' : Keeps K t length blocked' p' p'' blocked'') :
    Keeps K t length blocked p p'' blocked'' :=
  ⟨h'.steers, h'.told, h.continues.trans h'.continues, h.grown.trans h'.grown, fun hcheck =>
    (h'.unchecked (h.continues.check.mpr hcheck)).trans (h.unchecked hcheck)⟩

/-- Nothing that matters to the backend has changed since. -/
theorem Keeps.resembles (h : Keeps K t length blocked p p' blocked') (hsame : Resembles p' p'') :
    Keeps K t length blocked p p'' blocked' :=
  h.trans (.of_resembles h.steers h.told hsame)

/-- Hiding steps and showing them again keeps what was told. -/
theorem Keeps.mask (hide : Bool)
    (h : Keeps K t (if hide then p'.steps else length) blocked p p' blocked')
    (hlength : length < p'.steps) (hone : p'.skip = none → 1 ≤ length) :
    ∃ table, p'.mask length hide = .ok (p'.assuming table) ∧
      Keeps K t (if hide then length else p'.steps) blocked p (p'.assuming table) blocked' := by
  obtain ⟨table, hmask, hsteers, hreleased⟩ := h.steers.mask hide hlength hone
  exact ⟨table, hmask, hsteers, h.told.assuming hreleased,
    h.continues.trans (continues_assuming p' table), h.grown, h.unchecked⟩

/-! ### What it is asked for -/

/-- What the backend answers under the current assumptions. -/
def reply (p : Planner β κ) : Except SolveError SolveReport :=
  (Backend.solve p.backend p.unrolling.assumptions).1

/-- The ledger lets the backend be asked while the switches are set for a plan of the length. -/
def MayAsk (K : Ledger β) (t : Template) (length : Nat) (p : Planner β κ) : Prop :=
  ∀ q : Planner β κ, q.Steers t length → q.query = p.query → q.skip = p.skip →
    q.steps = p.steps → K.Asks q.unrolling.assumptions

theorem MayAsk.congr (h : MayAsk K t length p) (hcontinues : Continues p p')
    (hsteps : p'.steps = p.steps) : MayAsk K t length p' := fun q hq hquery hskip heq =>
  h q hq (hquery.trans hcontinues.query) (hskip.trans hcontinues.skip) (heq.trans hsteps)

/-- A planner at a solve call, over the same steps, when no more was blocked than now. -/
structure Asked (K : Ledger β) (t : Template) (length : Nat) (blocked : Set (List Literal))
    (p q : Planner β κ) : Prop where
  steers : q.Steers t length
  told : ∃ earlier, earlier ⊆ blocked ∧ q.Told K earlier
  query : q.query = p.query
  skip : q.skip = p.skip
  steps : q.steps = p.steps

theorem Asked.congr (h : Asked K t length blocked p q) (hcontinues : Continues p p')
    (hsteps : p'.steps = p.steps) : Asked K t length blocked p' q :=
  ⟨h.steers, h.told, h.query.trans hcontinues.query.symm, h.skip.trans hcontinues.skip.symm,
    h.steps.trans hsteps.symm⟩

/-- An attempt ends as the backend answered, unless the check has rejected the answer. -/
def Concludes (K : Ledger β) (t : Template) (blocked : Set (List Literal)) (p : Planner β κ)
    (attempt : Attempt) : Prop :=
  ∃ q report, Asked K t attempt.length blocked p q ∧ q.reply = .ok report ∧
    match attempt.outcome with
    | .satisfiable => ∃ m, report.result = .satisfiable m ∧
        attempt.answer = some (p.unrolling.answer m attempt.length)
    | .unsatisfiable => report.result = .unsatisfiable
    | .unknown => report.result = .unknown ∨ p.check ≠ none
    | .outOfMemory => False

/-- Solving fails with an error of the backend, or when the check rejects what is not shown. -/
def Fails (K : Ledger β) (t : Template) (length : Nat) (blocked : Set (List Literal))
    (p : Planner β κ) (e : PlanError) : Prop :=
  (p.check ≠ none ∧ ∃ step label, e = .unshown step label) ∨
    ∃ q error, Asked K t length blocked p q ∧ q.reply = .error error ∧ e = .solve error

/-- A verdict on the answer changes nothing about what the backend said. -/
theorem Concludes.congr (h : p.Concludes K t blocked attempt) (hcontinues : Continues p p')
    (hsteps : p'.steps = p.steps) (htemplate : p'.unrolling.template = p.unrolling.template) :
    p'.Concludes K t blocked attempt := by
  obtain ⟨q, report, hasked, hreply, houtcome⟩ := h
  refine ⟨q, report, hasked.congr hcontinues hsteps, hreply, ?_⟩
  rw [Unrolling.answer_congr htemplate]
  revert houtcome
  cases attempt.outcome with
  | satisfiable => exact id
  | unsatisfiable => exact id
  | unknown => exact Or.imp_right (mt hcontinues.check.mp)
  | outOfMemory => exact id

theorem Fails.congr (h : p.Fails K t length blocked e) (hcontinues : Continues p p')
    (hsteps : p'.steps = p.steps) : p'.Fails K t length blocked e := by
  rcases h with ⟨hcheck, hunshown⟩ | ⟨q, error, hasked, hreply, rfl⟩
  · exact Or.inl ⟨mt hcontinues.check.mp hcheck, hunshown⟩
  · exact Or.inr ⟨q, error, hasked.congr hcontinues hsteps, hreply, rfl⟩

/-- One solve call. -/
theorem Steers.finishes_solveOnce (h : p.Steers t length) (htold : p.Told K blocked)
    (hask : MayAsk K t length p) :
    Finishes p.solveOnce
      (fun r => Keeps K t length blocked p r.2 blocked ∧ r.2.unrolling = p.unrolling ∧
        ∃ report, p.reply = .ok report ∧ r.1 = report.result)
      fun e p' => Keeps K t length blocked p p' blocked ∧ p'.unrolling = p.unrolling ∧
        ∃ error, p.reply = .error error ∧ e = .solve error := by
  have hkeeps : ∀ p' : Planner β κ, Continues p p' → p'.unrolling = p.unrolling →
      p'.marker = p.marker → p'.backend = (Backend.solve p.backend p.unrolling.assumptions).2 →
        Keeps K t length blocked p p' blocked := by
    intro p' hcontinues hunrolling hmarker hbackend
    refine ⟨h.congr hunrolling hcontinues.query hcontinues.skip hmarker, ?_, hcontinues,
      subset_rfl, fun _ => rfl⟩
    obtain ⟨log, hlog, hmem⟩ := htold
    have hlog' := K.solve hlog (hask p h rfl rfl rfl)
    have htold' : Told K { p with backend := p'.backend } blocked :=
      ⟨log, hbackend ▸ hlog', hmem⟩
    exact htold'.congr hunrolling rfl hcontinues.query
  unfold solveOnce reply
  dsimp only [note]
  generalize Backend.solve p.backend p.unrolling.assumptions = answered at hkeeps ⊢
  obtain ⟨answer, b⟩ := answered
  cases answer with
  | error error =>
      exact ⟨hkeeps _ ⟨rfl, rfl, rfl, rfl, rfl, .rfl⟩ rfl rfl rfl, rfl, error, rfl, rfl⟩
  | ok report =>
      exact ⟨hkeeps _ ⟨rfl, rfl, rfl, rfl, rfl, .rfl⟩ rfl rfl rfl, rfl, report, rfl, rfl⟩

/-- Blocking tells the backend one constraint, unless it fails. -/
theorem Keeps.finishes_block (h : Keeps K t length blocked p p' blocked') (hcheck : p.check ≠ none)
    (atoms : List (Nat × Symbol)) :
    Finishes (p'.block atoms)
      (fun p'' => p''.steps = p'.steps ∧
        ∃ body, Keeps K t length blocked p p'' (insert body blocked'))
      fun e p'' => p'' = p' ∧ ∃ step label, e = .unshown step label := by
  rcases p'.block_cases atoms with ⟨a, -, -, herror⟩ | ⟨body, hbody, heq⟩
  · rw [herror]
    exact ⟨rfl, a.1, a.2, rfl⟩
  · obtain ⟨b, hadd, htold⟩ :=
      Unrolling.Told.constrain h.told fun l hl => ne_zero_of_mem_block hbody hl
    rw [heq, hadd]
    refine ⟨rfl, body, h.steers.congr rfl rfl rfl rfl, ?_, ?_, ?_, ?_⟩
    · unfold Told
      rw [Set.union_insert]
      exact htold
    · exact h.continues.trans ⟨rfl, rfl, rfl, rfl, rfl, .rfl⟩
    · exact h.grown.trans (Set.subset_insert _ _)
    · exact fun hnone => absurd hnone hcheck

/-- Solving at a length came to an end, and the switches are set for a plan of some other one. -/
def Solved (K : Ledger β) (t : Template) (length set : Nat) (blocked : Set (List Literal))
    (p : Planner β κ) (r : Attempt × Planner β κ) : Prop :=
  r.2.steps = p.steps ∧ r.1.length = length ∧
    ∃ blocked', Keeps K t set blocked p r.2 blocked' ∧ r.2.Concludes K t blocked' r.1

def Failed (K : Ledger β) (t : Template) (length set : Nat) (blocked : Set (List Literal))
    (p : Planner β κ) (e : PlanError) (p' : Planner β κ) : Prop :=
  p'.steps = p.steps ∧
    ∃ blocked', Keeps K t set blocked p p' blocked' ∧ p'.Fails K t length blocked' e

theorem Solved.trans {r : Attempt × Planner β κ} (hsteps : p'.steps = p.steps)
    (h : Keeps K t set blocked p p' blocked') (h' : p'.Solved K t length set blocked' r) :
    p.Solved K t length set blocked r := by
  obtain ⟨hsteps', hlength, blocked'', hkeeps, hconcludes⟩ := h'
  exact ⟨hsteps'.trans hsteps, hlength, blocked'', h.trans hkeeps, hconcludes⟩

theorem Failed.trans (hsteps : p'.steps = p.steps) (h : Keeps K t set blocked p p' blocked')
    (h' : p'.Failed K t length set blocked' e p'') : p.Failed K t length set blocked e p'' := by
  obtain ⟨hsteps', blocked'', hkeeps, hfails⟩ := h'
  exact ⟨hsteps'.trans hsteps, blocked'', h.trans hkeeps, hfails⟩

variable [ModelCheck κ]

/-- One round, if the rest keeps what a round keeps. The answer that a check rejected is what an
unknown outcome of the rest is put down to. -/
theorem Steers.finishes_round (h : p.Steers t length) (htold : p.Told K blocked)
    (hask : MayAsk K t length p)
    {rest : Planner β κ → Except (Failure β κ) (Attempt × Planner β κ)}
    (hrest : ∀ p' blocked', p'.steps = p.steps → p.check ≠ none →
      Keeps K t length blocked p p' blocked' →
        (∃ q report, Asked K t length blocked' p' q ∧ q.reply = .ok report) →
          Finishes (rest p') (p.Solved K t length length blocked)
            (p.Failed K t length length blocked)) :
    Finishes (p.round length rest) (p.Solved K t length length blocked)
      (p.Failed K t length length blocked) := by
  have hasked : ∀ {p'}, Continues p p' → p'.steps = p.steps → Asked K t length blocked p' p :=
    fun hcontinues hsteps => Asked.congr ⟨h, ⟨blocked, subset_rfl, htold⟩, rfl, rfl, rfl⟩
      hcontinues hsteps
  refine ((h.finishes_solveOnce htold hask).mono (fun _ => id) ?_).bind ?_
  · rintro e p₁ ⟨hkeeps₁, hunrolling, error, hreply, rfl⟩
    have hsteps : p₁.steps = p.steps := congrArg Unrolling.steps hunrolling
    exact ⟨hsteps, blocked, hkeeps₁,
      Or.inr ⟨p, error, hasked hkeeps₁.continues hsteps, hreply, rfl⟩⟩
  rintro ⟨result, p₁⟩ ⟨hkeeps₁, hunrolling, report, hreply, rfl⟩
  have hsteps₁ : p₁.steps = p.steps := congrArg Unrolling.steps hunrolling
  have hanswered := hasked hkeeps₁.continues hsteps₁
  dsimp only at hkeeps₁ hunrolling ⊢
  cases hresult : report.result with
  | unsatisfiable =>
      exact ⟨hsteps₁, rfl, blocked, hkeeps₁, p, report, hanswered, hreply, hresult⟩
  | unknown =>
      exact ⟨hsteps₁, rfl, blocked, hkeeps₁, p, report, hanswered, hreply, Or.inl hresult⟩
  | satisfiable m =>
      obtain ⟨hjudged, haccept⟩ := resembles_judge p₁ (p₁.unrolling.answer m length) length
      dsimp only
      generalize p₁.judge (p₁.unrolling.answer m length) length = judged at hjudged haccept ⊢
      obtain ⟨verdict, p₂⟩ := judged
      have hkeeps₂ := hkeeps₁.resembles hjudged
      cases verdict with
      | accept =>
          have hsame := hjudged.trans
            (resembles_note p₂ (.model length (p₁.unrolling.answer m length)))
          refine ⟨hsame.steps.trans hsteps₁, rfl, blocked, hkeeps₁.resembles hsame, p, report,
            hanswered.congr hsame.toContinues hsame.steps, hreply, m, hresult, ?_⟩
          rw [hsame.unrolling]
      | reject atoms =>
          -- Only a check rejects, so whatever is blocked from here on is the check's doing.
          have hchecked : p.check ≠ none :=
            fun hnone => absurd (haccept (hkeeps₁.continues.check.mpr hnone)) (by simp)
          have hsame := hjudged.trans
            ((resembles_note p₂ (.rejected length atoms)).trans (resembles_countRejected _))
          dsimp only
          generalize (p₂.note (.rejected length atoms)).countRejected = p₃ at hsame ⊢
          have hkeeps₃ := hkeeps₁.resembles hsame
          have hsteps₃ := hsame.steps.trans hsteps₁
          have hchecked₃ := mt hkeeps₃.continues.check.mp hchecked
          have hanswered₃ := hanswered.congr hsame.toContinues hsame.steps
          split
          · exact ⟨hsteps₃, rfl, blocked, hkeeps₃, p, report, hanswered₃, hreply,
              Or.inr hchecked₃⟩
          · refine ((hkeeps₃.finishes_block hchecked atoms).mono (fun _ => id) ?_).bind ?_
            · rintro e p₄ ⟨rfl, hunshown⟩
              exact ⟨hsteps₃, blocked, hkeeps₃, Or.inl ⟨hchecked₃, hunshown⟩⟩
            · rintro p₄ ⟨hsteps₄, body, hkeeps₄⟩
              refine hrest p₄ _ (hsteps₄.trans hsteps₃) hchecked hkeeps₄ ⟨p, report, ?_, hreply⟩
              obtain ⟨hsteers, ⟨earlier, hle, htold'⟩, -⟩ := hanswered₃
              exact ⟨hsteers, ⟨earlier, hle.trans (Set.subset_insert _ _), htold'⟩,
                hkeeps₄.continues.query.symm, hkeeps₄.continues.skip.symm,
                (hsteps₄.trans hsteps₃).symm⟩

/-- Solving at a length, with any retries left. -/
theorem Steers.finishes_solve (h : p.Steers t length) (htold : p.Told K blocked)
    (hask : MayAsk K t length p) (retries : Nat) :
    Finishes (solve length retries p) (p.Solved K t length length blocked)
      (p.Failed K t length length blocked) := by
  induction retries generalizing p blocked with
  | zero =>
      rw [solve_eq]
      refine h.finishes_round htold hask
        fun p' blocked' hsteps hchecked hkeeps ⟨q, report, hasked, hreply⟩ => ?_
      have hsame := resembles_note p' (.gaveUp length p'.retry.attempts)
      refine ⟨hsame.steps.trans hsteps, rfl, blocked', hkeeps.resembles hsame, q, report,
        hasked.congr hsame.toContinues hsame.steps, hreply, Or.inr ?_⟩
      exact mt (hkeeps.continues.trans hsame.toContinues).check.mp hchecked
  | succ retries ih =>
      rw [solve_eq]
      refine h.finishes_round htold hask fun p' blocked' hsteps _ hkeeps _ => ?_
      refine (ih hkeeps.steers hkeeps.told (hask.congr hkeeps.continues hsteps)).mono ?_ ?_
      · exact fun r => Solved.trans hsteps hkeeps
      · exact fun e p'' => Failed.trans hsteps hkeeps

/-- Solving at a length within the grounded steps. -/
theorem Steers.finishes_solveMasked (h : p.Steers t p.steps) (htold : p.Told K blocked)
    (hask : MayAsk K t length p) (hlength : length ≤ p.steps)
    (hone : p.skip = none → 1 ≤ length) :
    Finishes (p.solveMasked length) (p.Solved K t length p.steps blocked)
      (p.Failed K t length p.steps blocked) := by
  unfold solveMasked
  split
  · rename_i hlt
    obtain ⟨table, hmask, hkeeps⟩ : ∃ table, p.mask length true = .ok (p.assuming table) ∧
        Keeps K t length blocked p (p.assuming table) blocked :=
      Keeps.mask true (.of_resembles h htold (.refl p)) hlt hone
    rw [hmask]
    have hsolve := hkeeps.steers.finishes_solve hkeeps.told (hask.congr hkeeps.continues rfl)
      (p.assuming table).retry.attempts
    -- The steps are shown again in the same way however solving ends.
    have hunmask : ∀ {p₁ : Planner β κ} {blocked'}, p₁.steps = p.steps →
        Keeps K t length blocked (p.assuming table) p₁ blocked' →
          ∃ table', p₁.mask length false = .ok (p₁.assuming table') ∧
            Keeps K t p.steps blocked p (p₁.assuming table') blocked' := by
      intro p₁ blocked' hsteps₁ hkeeps₁
      have hhidden : Keeps K t (if false then p₁.steps else length) blocked p p₁ blocked' :=
        hkeeps.trans hkeeps₁
      have hagain := hhidden.mask false (hsteps₁ ▸ hlt)
        fun hskip => hone (hkeeps₁.continues.skip.symm.trans hskip)
      exact hsteps₁ ▸ hagain
    dsimp only [bind, Except.bind]
    generalize solve length (p.assuming table).retry.attempts (p.assuming table) = x at hsolve ⊢
    cases x with
    | ok result =>
        obtain ⟨attempt, p₁⟩ := result
        obtain ⟨hsteps₁, hlength₁, blocked', hkeeps₁, hconcludes⟩ := hsolve
        obtain ⟨table', hmask', hkeeps'⟩ := hunmask hsteps₁ hkeeps₁
        dsimp only
        rw [hmask']
        exact ⟨hsteps₁, hlength₁, blocked', hkeeps',
          hconcludes.congr (continues_assuming p₁ table') rfl rfl⟩
    | error result =>
        obtain ⟨e, p₁⟩ := result
        obtain ⟨hsteps₁, blocked', hkeeps₁, hfails⟩ := hsolve
        obtain ⟨table', hmask', hkeeps'⟩ := hunmask hsteps₁ hkeeps₁
        dsimp only
        rw [hmask']
        exact ⟨hsteps₁, blocked', hkeeps', hfails.congr (continues_assuming p₁ table') rfl⟩
  · obtain rfl : length = p.steps := by omega
    exact h.finishes_solve htold hask p.retry.attempts

end Planner

end StablePlan
