import StablePlan.Proofs.Plan.Course
import StablePlan.Proofs.Plan.Search

/-!
Admission by memory. What a step costs is learned from the two readings around every grounding that
comes to its end; nothing else changes it. So an attempt is refused just if the reading in front of
it and the largest cost so far, for all steps that are missing, exceed the limit. The sum of 64 bits
that is compared with the limit may stop at the largest number, which no limit below that can tell.
-/

namespace StablePlan

/-! ### How far a grounding comes -/

namespace Unrolling

variable {β : Type} [Backend β]

theorem finishes_foldlM_groundStep_steps (n : Nat) (u : Unrolling) (b : β) :
    Finishes ((List.range' (u.steps + 1) n).foldlM groundStep (u, b))
      (fun r => r.1.steps = u.steps + n) fun _ r => r.1.steps < u.steps + n := by
  induction n generalizing u b with
  | zero => exact rfl
  | succ n ih =>
      rw [List.range'_succ, List.foldlM_cons]
      have hfirst : Finishes (groundStep (u, b) (u.steps + 1))
          (fun r => r.1 = u.enter (u.steps + 1) ∧ Attends u.template 0 b r.2)
          fun _ => u.Tells 0 b := finishes_groundStep .refl (u.steps + 1)
      refine (hfirst.mono (fun _ => id) ?_).bind ?_
      · rintro e ⟨u', b'⟩ ⟨rfl, -⟩
        show u'.steps < u'.steps + (n + 1)
        omega
      · rintro ⟨_, b'⟩ ⟨rfl, -⟩
        have hsteps : (u.enter (u.steps + 1)).steps = u.steps + 1 := rfl
        refine (ih (u.enter (u.steps + 1)) b').mono (fun r h => ?_) fun e r h => ?_
        · omega
        · omega

/-- Grounding comes to its last step, or fails before it. -/
theorem finishes_ground_steps {u : Unrolling} {last : Nat} (h : u.steps < last) (b : β) :
    Finishes (u.ground b (u.steps + 1) last) (fun r => r.1.steps = last)
      fun _ r => r.1.steps < last := by
  unfold ground
  rw [if_neg (by simp)]
  split
  · exact h
  · refine ((finishes_start u b 0).mono (fun _ => id) ?_).bind ?_
    · rintro e ⟨_, b'⟩ ⟨rfl, -⟩
      exact h
    · rintro ⟨u', b'⟩ ⟨⟨-, hsteps⟩, -⟩
      replace hsteps : u'.steps = u.steps := hsteps
      rw [← hsteps]
      refine (finishes_foldlM_groundStep_steps (last + 1 - (u'.steps + 1)) u' b').mono
        (fun r hr => ?_) fun e r hr => ?_
      · omega
      · omega

end Unrolling

/-! ### What is learned -/

/-- A grounding that came to its end: the memory before and after it, and the steps it added. -/
structure Grounding where
  before : Nat
  after : Nat
  added : Nat
  deriving DecidableEq, Repr

/-- What a step was seen to cost, rounded down; memory that was freed counts as nothing. -/
def Grounding.cost (g : Grounding) : Nat := (g.after - g.before) / g.added

/-- The largest cost of a step, as it is configured or was seen. -/
def learned (configured : Nat) (groundings : List Grounding) : Nat :=
  (groundings.map Grounding.cost).foldl max configured

theorem learned_append (configured : Nat) (gs gs' : List Grounding) :
    learned configured (gs ++ gs') = learned (learned configured gs) gs' := by
  simp [learned]

namespace Planner

variable {β κ : Type} {p p' p'' : Planner β κ} {length target limit : Nat}

theorem lt_estimate_iff {usage added : Nat} (hmax : limit < Settings.maxCount) :
    limit < p.estimate usage added ↔ limit < usage + p.stepMemory * added := by
  unfold estimate
  generalize p.stepMemory * added = cost
  omega

/-- The grounding that was seen to lead to a planner. -/
def seen (p : Planner β κ) (target : Nat) (p' : Planner β κ) : List Grounding :=
  if p.steps < target ∧ p'.steps = target then
    [⟨p.gauge.1, p.gauge.2.gauge.1, target - p.steps⟩]
  else []

/-- Steps and what is known of their cost are as they were. -/
structure Stays (p p' : Planner β κ) : Prop where
  steps : p'.steps = p.steps
  memoryLimit : p'.memoryLimit = p.memoryLimit
  stepMemory : p'.stepMemory = p.stepMemory

theorem Stays.refl (p : Planner β κ) : Stays p p := ⟨rfl, rfl, rfl⟩

theorem Stays.trans (h : Stays p p') (h' : Stays p' p'') : Stays p p'' :=
  ⟨h'.steps.trans h.steps, h'.memoryLimit.trans h.memoryLimit, h'.stepMemory.trans h.stepMemory⟩

/-- What is known of the cost of a step is what was seen. -/
structure Learns (p : Planner β κ) (target : Nat) (p' : Planner β κ) : Prop where
  memoryLimit : p'.memoryLimit = p.memoryLimit
  stepMemory : p'.stepMemory = learned p.stepMemory (p.seen target p')

theorem Learns.refl (p : Planner β κ) (target : Nat) : p.Learns target p := by
  refine ⟨rfl, ?_⟩
  unfold seen
  rw [if_neg (by omega)]
  rfl

theorem Learns.stays (h : p.Learns target p') (h' : Stays p' p'') : p.Learns target p'' := by
  refine ⟨h'.memoryLimit.trans h.memoryLimit, h'.stepMemory.trans ?_⟩
  unfold seen
  rw [h'.steps]
  exact h.stepMemory

theorem gauge_congr (h : p'.readings = p.readings) : p'.gauge.1 = p.gauge.1 := by
  unfold gauge
  rw [h]
  split <;> rfl

theorem readMemory_eq (p : Planner β κ) :
    ∃ readings tally, p.readMemory = (p.gauge.1, { p with readings, tally }) ∧
      readings = p.gauge.2.readings ∧ tally.solves = p.tally.solves := by
  have hgauge : ∃ readings, p.gauge = (p.gauge.1, { p with readings }) := by
    unfold gauge
    split <;> exact ⟨_, rfl⟩
  obtain ⟨readings, hgauge⟩ := hgauge
  unfold readMemory
  rw [hgauge]
  exact ⟨readings, _, rfl, rfl, rfl⟩

theorem stays_readMemory (p : Planner β κ) : Stays p p.readMemory.2 := by
  obtain ⟨readings, tally, hread, -⟩ := p.readMemory_eq
  rw [hread]
  exact ⟨rfl, rfl, rfl⟩

theorem noteStart_eq (p : Planner β κ) (before : Unrolling) :
    ∃ journal, p.noteStart before = { p with journal } := by
  unfold noteStart
  split
  · exact ⟨_, rfl⟩
  · exact ⟨_, rfl⟩

/-! ### Calls that leave the steps alone -/

theorem finishes_assign_stays (p : Planner β κ) (step index : Nat) (value : ExternalValue) :
    Finishes (p.assign step index value) (Stays p) fun _ => Stays p := by
  unfold assign
  split
  · rename_i u hassign
    have hsteps : u.steps = p.unrolling.steps := by
      unfold Unrolling.assign at hassign
      split at hassign
      · cases hassign
      · cases value <;> cases hassign <;> rfl
    exact ⟨hsteps, rfl, rfl⟩
  · exact .refl p

theorem finishes_mask_stays (p : Planner β κ) (length : Nat) (hide : Bool) :
    Finishes (p.mask length hide) (Stays p) fun _ => Stays p := by
  have hassign : ∀ {q : Planner β κ} {step index value}, Stays p q →
      Finishes (q.assign step index value) (Stays p) fun _ => Stays p := fun h =>
    (finishes_assign_stays _ _ _ _).mono (fun _ => h.trans) fun _ _ => h.trans
  unfold mask
  dsimp only
  cases p.skip with
  | some skip => exact Finishes.foldlM (fun q step _ hq => hassign hq) (.refl p)
  | none => exact (hassign (.refl p)).bind fun q hq => hassign hq

theorem stays_judge [ModelCheck κ] (p : Planner β κ) (answer : Answer) (length : Nat) :
    Stays p (p.judge answer length).2 := by
  have hremarks : ∀ (texts : List String) (q : Planner β κ), Stays p q →
      Stays p (texts.foldl (fun q text => q.note (.remark text)) q) := by
    intro texts
    induction texts with
    | nil => exact fun _ => id
    | cons text texts ih => exact fun q hq => ih _ (hq.trans ⟨rfl, rfl, rfl⟩)
  unfold judge
  split
  · exact .refl p
  · exact (hremarks _ p (.refl p)).trans ⟨rfl, rfl, rfl⟩

variable [Backend β]

theorem finishes_release_stays (p : Planner β κ) (step index : Nat) :
    Finishes (p.release step index) (Stays p) fun _ => Stays p := by
  have hsteps : Finishes (p.unrolling.release p.backend ⟨step, index⟩)
      (fun r => r.1.steps = p.unrolling.steps) fun _ r => r.1.steps = p.unrolling.steps := by
    unfold Unrolling.release
    split
    · exact rfl
    · split
      · exact rfl
      · unfold Unrolling.tell
        split <;> exact rfl
  unfold release
  split
  · rename_i u b heq
    rw [heq] at hsteps
    exact ⟨hsteps, rfl, rfl⟩
  · rename_i e u b heq
    rw [heq] at hsteps
    exact ⟨hsteps, rfl, rfl⟩

theorem finishes_moveQuery_stays (p : Planner β κ) (target : Nat) :
    Finishes (p.moveQuery target) (Stays p) fun _ => Stays p := by
  have hleave : Finishes p.leaveMarker (Stays p) fun _ => Stays p := by
    unfold leaveMarker
    split
    · exact Stays.refl p
    · split
      · exact finishes_release_stays p _ _
      · exact finishes_assign_stays p _ _ _
  refine hleave.bind fun p₁ h₁ => ?_
  refine ((finishes_assign_stays p₁ target p₁.query .on).mono (fun _ => h₁.trans)
    fun _ _ => h₁.trans).bind fun p₂ h₂ => ?_
  exact h₂.trans ⟨rfl, rfl, rfl⟩

/-! ### Reaching a length -/

/-- The missing steps are all grounded, or not all, with no other reading in between. -/
theorem finishes_groundTo_steps (h : p.steps < target) :
    Finishes (p.groundTo target)
      (fun p' => p'.steps = target ∧ p'.readings = p.readings ∧
        p'.memoryLimit = p.memoryLimit ∧ p'.stepMemory = p.stepMemory)
      fun _ p' => p'.steps < target ∧
        p'.memoryLimit = p.memoryLimit ∧ p'.stepMemory = p.stepMemory := by
  have hground := Unrolling.finishes_ground_steps h p.backend
  unfold groundTo
  dsimp only
  split
  · rename_i u b heq
    rw [heq] at hground
    obtain ⟨journal, hnote⟩ :=
      noteStart_eq { p with unrolling := u, backend := b } p.unrolling
    rw [hnote]
    exact ⟨hground, rfl, rfl, rfl⟩
  · rename_i e u b heq
    rw [heq] at hground
    obtain ⟨journal, hnote⟩ :=
      noteStart_eq { p with unrolling := u, backend := b } p.unrolling
    rw [hnote]
    exact ⟨hground, rfl, rfl⟩

theorem reach_of_le (h : target ≤ p.steps) : p.reach length target = .ok (true, p) := if_pos h

/-- Where memory does not admit the steps, nothing is done but that this is noted. -/
theorem reach_of_exceeded (length : Nat) (h : p.steps < target)
    (hlimit : p.exceeded? p.gauge.1 (target - p.steps) = some limit) :
    ∃ readings tally journal,
      p.reach length target = .ok (false, { p with readings, tally, journal }) ∧
        tally.solves = p.tally.solves := by
  obtain ⟨readings, tally, hread, -, hsolves⟩ := p.readMemory_eq
  have hlimit' : exceeded? { p with readings, tally } p.gauge.1 (target - p.steps) = some limit :=
    hlimit
  unfold reach
  rw [if_neg (by omega), hread]
  dsimp only
  rw [hlimit']
  exact ⟨_, _, _, rfl, hsolves⟩

/-- What is learned on the way to a length is what was seen. -/
theorem finishes_reach_of_admitted (h : p.steps < target)
    (hadmitted : p.exceeded? p.gauge.1 (target - p.steps) = none) :
    Finishes (p.reach length target) (fun r => r.1 = true ∧ p.Learns target r.2)
      fun _ => p.Learns target := by
  obtain ⟨readings, tally, hread, hreadings, -⟩ := p.readMemory_eq
  have hadmitted' : exceeded? { p with readings, tally } p.gauge.1 (target - p.steps) = none :=
    hadmitted
  unfold reach
  rw [if_neg (by omega), hread]
  dsimp only
  rw [hadmitted']
  set p₁ : Planner β κ := { p with readings, tally } with hp₁
  have hground : Finishes (p₁.groundTo target) _ _ := finishes_groundTo_steps h
  refine (hground.mono (fun _ => id) ?_).bind ?_
  · rintro e p₂ ⟨hsteps, hmemoryLimit, hstepMemory⟩
    refine ⟨hmemoryLimit, hstepMemory.trans ?_⟩
    unfold seen
    rw [if_neg (by omega)]
    rfl
  · rintro p₂ ⟨hsteps, hreadings₂, hmemoryLimit, hstepMemory⟩
    have hafter : p₂.readMemory.1 = p.gauge.2.gauge.1 := gauge_congr (hreadings₂.trans hreadings)
    have hlearns : p.Learns target
        (p₂.readMemory.2.learn p.gauge.1 p₂.readMemory.1 (target - p.steps)) := by
      have hstays := p₂.stays_readMemory
      refine ⟨hstays.memoryLimit.trans hmemoryLimit, ?_⟩
      unfold seen
      rw [if_pos ⟨h, hstays.steps.trans hsteps⟩, ← hafter]
      show max p₂.readMemory.2.stepMemory _ = max p.stepMemory _
      rw [hstays.stepMemory, hstepMemory]
      rfl
    refine ((finishes_moveQuery_stays _ target).mono (fun _ => hlearns.stays)
      fun _ _ => hlearns.stays).bind fun p₃ h₃ => ?_
    exact ⟨rfl, h₃.stays ⟨rfl, rfl, rfl⟩⟩

/-! ### Solving -/

theorem finishes_solveOnce_stays (p : Planner β κ) :
    Finishes p.solveOnce (fun r => Stays p r.2) fun _ => Stays p := by
  unfold solveOnce
  dsimp only
  split <;> exact ⟨rfl, rfl, rfl⟩

theorem finishes_block_stays (p : Planner β κ) (atoms : List (Nat × Symbol)) :
    Finishes (p.block atoms) (Stays p) fun _ => Stays p := by
  rcases p.block_cases atoms with ⟨a, -, -, herror⟩ | ⟨body, -, heq⟩
  · rw [herror]
    exact Stays.refl p
  · rw [heq]
    cases Backend.addRule p.backend (.constraint body) with
    | ok b => exact ⟨rfl, rfl, rfl⟩
    | error result => exact ⟨rfl, rfl, rfl⟩

variable [ModelCheck κ]

/-- Solving learns nothing about memory and does not run out of it. -/
def Solves (p : Planner β κ) (r : Attempt × Planner β κ) : Prop :=
  r.1.outcome ≠ .outOfMemory ∧ Stays p r.2

theorem finishes_round_stays {p : Planner β κ}
    {rest : Planner β κ → Except (Failure β κ) (Attempt × Planner β κ)}
    (hrest : ∀ p', Finishes (rest p') p'.Solves fun _ => Stays p') :
    Finishes (p.round length rest) p.Solves fun _ => Stays p := by
  refine p.finishes_solveOnce_stays.bind ?_
  rintro ⟨result, p₁⟩ h₁
  replace h₁ : Stays p p₁ := h₁
  dsimp only
  cases result with
  | unsatisfiable => exact ⟨by simp, h₁⟩
  | unknown => exact ⟨by simp, h₁⟩
  | satisfiable m =>
      have hjudge := h₁.trans (p₁.stays_judge (p₁.unrolling.answer m length) length)
      dsimp only
      generalize p₁.judge (p₁.unrolling.answer m length) length = judged at hjudge ⊢
      obtain ⟨verdict, p₂⟩ := judged
      cases verdict with
      | accept => exact ⟨by simp, hjudge.trans ⟨rfl, rfl, rfl⟩⟩
      | reject atoms =>
          have hnoted : Stays p (p₂.note (.rejected length atoms)).countRejected :=
            hjudge.trans ⟨rfl, rfl, rfl⟩
          dsimp only
          split
          · exact ⟨by simp, hnoted⟩
          · refine ((finishes_block_stays _ atoms).mono (fun _ => hnoted.trans)
              fun _ _ => hnoted.trans).bind fun p₃ h₃ => ?_
            exact (hrest p₃).mono (fun r h => ⟨h.1, h₃.trans h.2⟩) fun _ _ => h₃.trans

theorem finishes_solve_stays (retries : Nat) (p : Planner β κ) :
    Finishes (solve length retries p) p.Solves fun _ => Stays p := by
  induction retries generalizing p with
  | zero =>
      rw [solve_eq]
      exact finishes_round_stays fun p' => ⟨by simp, rfl, rfl, rfl⟩
  | succ retries ih =>
      rw [solve_eq]
      exact finishes_round_stays ih

theorem finishes_solveMasked_stays (p : Planner β κ) (length : Nat) :
    Finishes (p.solveMasked length) p.Solves fun _ => Stays p := by
  unfold solveMasked
  split
  · refine (finishes_mask_stays p length true).bind fun p₁ h₁ => ?_
    have hsolve : Finishes (solve length p₁.retry.attempts p₁) p₁.Solves fun _ => Stays p₁ :=
      finishes_solve_stays p₁.retry.attempts p₁
    have hunmask : ∀ {p₂ : Planner β κ}, Stays p₁ p₂ →
        Finishes (p₂.mask length false) (Stays p) fun _ => Stays p := fun h₂ =>
      (finishes_mask_stays _ length false).mono (fun _ => (h₁.trans h₂).trans)
        fun _ _ => (h₁.trans h₂).trans
    split
    · rename_i attempt p₂ heq
      rw [heq] at hsolve
      exact (hunmask hsolve.2).bind fun p₃ h₃ => ⟨hsolve.1, h₃⟩
    · rename_i e p₂ heq
      rw [heq] at hsolve
      exact (hunmask hsolve).bind fun p₃ h₃ => h₃
  · exact finishes_solve_stays p.retry.attempts p

/-! ### Attempts -/

/-- Where memory admits the missing steps, or none is missing, an attempt is not refused. -/
theorem finishes_attempt_of_admitted
    (h : p.steps < max length 1 → p.exceeded? p.gauge.1 (max length 1 - p.steps) = none) :
    Finishes (p.attempt length)
      (fun r => r.1.outcome ≠ .outOfMemory ∧ p.Learns (max length 1) r.2)
      fun _ => p.Learns (max length 1) := by
  have hreach : Finishes (p.prepare length)
      (fun r => r.1 = true ∧ p.Learns (max length 1) r.2) fun _ => p.Learns (max length 1) := by
    unfold prepare
    rw [max_usable_one]
    by_cases hle : max length 1 ≤ p.steps
    · rw [reach_of_le hle]
      exact ⟨rfl, .refl p _⟩
    · exact finishes_reach_of_admitted (by omega) (h (by omega))
  refine hreach.bind ?_
  rintro ⟨_, p₁⟩ ⟨rfl, h₁⟩
  set p₂ : Planner β κ :=
    { p₁ with tally := { p₁.tally with rules := Backend.ruleCount p₁.backend } } with hp₂
  have h₂ : p.Learns (max length 1) p₂ := h₁.stays ⟨rfl, rfl, rfl⟩
  exact (finishes_solveMasked_stays p₂ (p₁.usable length)).mono
    (fun r hr => ⟨hr.1, h₂.stays hr.2⟩) fun _ _ => h₂.stays

/-- Where memory does not admit them, that is all that is said. -/
theorem attempt_of_exceeded (h : p.steps < max length 1)
    (hlimit : p.exceeded? p.gauge.1 (max length 1 - p.steps) = some limit) :
    ∃ readings tally journal, p.attempt length =
      .ok (⟨p.usable length, .outOfMemory, none⟩, { p with readings, tally, journal }) ∧
        tally.solves = p.tally.solves := by
  obtain ⟨readings, tally, journal, hreach, hsolves⟩ :=
    reach_of_exceeded (p.usable length) h hlimit
  refine ⟨readings, tally, journal, ?_, hsolves⟩
  unfold attempt prepare
  rw [max_usable_one, hreach]
  rfl

/-- An attempt that comes back with nothing but that memory does not admit the steps. -/
def Refuses (p : Planner β κ) (length : Nat) : Prop :=
  ∃ attempt p', p.attempt length = .ok (attempt, p') ∧ attempt.outcome = .outOfMemory

theorem refuses_iff : p.Refuses length ↔
    p.steps < max length 1 ∧ (p.exceeded? p.gauge.1 (max length 1 - p.steps)).isSome := by
  constructor
  · rintro ⟨attempt, p', hattempt, houtcome⟩
    by_contra hno
    have hends : Finishes (p.attempt length) _ _ := finishes_attempt_of_admitted fun h => by
      simpa [h] using hno
    rw [hattempt] at hends
    exact hends.1 houtcome
  · rintro ⟨h, hsome⟩
    obtain ⟨limit, hlimit⟩ := Option.isSome_iff_exists.mp hsome
    obtain ⟨readings, tally, journal, hattempt, -⟩ := attempt_of_exceeded h hlimit
    exact ⟨_, _, hattempt, rfl⟩

/-- Whatever an attempt comes to, it learns from what was seen. -/
theorem learns_attempt (p : Planner β κ) (length : Nat) :
    p.Learns (max length 1) (after (p.attempt length)) := by
  by_cases hrefuses : p.Refuses length
  · obtain ⟨h, hsome⟩ := refuses_iff.mp hrefuses
    obtain ⟨limit, hlimit⟩ := Option.isSome_iff_exists.mp hsome
    obtain ⟨readings, tally, journal, hattempt, -⟩ := attempt_of_exceeded h hlimit
    rw [hattempt]
    exact (Learns.refl p _).stays ⟨rfl, rfl, rfl⟩
  · refine after_of_finishes ((finishes_attempt_of_admitted fun h => ?_).mono
      (fun r hr => hr.2) fun _ _ => id)
    simpa [refuses_iff, h] using hrefuses

/-- The planner after attempts at some lengths, however they end. -/
def pursue (p : Planner β κ) (lengths : List Nat) : Planner β κ :=
  lengths.foldl (fun p length => after (p.attempt length)) p

/-- The groundings of these attempts. -/
def groundings (p : Planner β κ) : List Nat → List Grounding
  | [] => []
  | length :: lengths =>
    let p' := after (p.attempt length)
    p.seen (max length 1) p' ++ p'.groundings lengths

theorem memoryLimit_pursue (p : Planner β κ) (lengths : List Nat) :
    (p.pursue lengths).memoryLimit = p.memoryLimit := by
  induction lengths generalizing p with
  | nil => rfl
  | cons length lengths ih => exact (ih _).trans (p.learns_attempt length).memoryLimit

theorem stepMemory_pursue (p : Planner β κ) (lengths : List Nat) :
    (p.pursue lengths).stepMemory = learned p.stepMemory (p.groundings lengths) := by
  induction lengths generalizing p with
  | nil => rfl
  | cons length lengths ih =>
      rw [groundings, learned_append, ← (p.learns_attempt length).stepMemory]
      exact ih _

/-- Admission is exact. After any attempts, an attempt with steps missing is refused just if the
reading in front of it and all missing steps, each at the largest cost that was configured or
learned, exceed the limit. One with no step missing is never refused, and one that is refused tells
the backend nothing, asks it nothing and grounds nothing. -/
theorem admission_exact {t : Template} {b : β} {readings : List Nat} {settings : Settings}
    {check : Option κ} {p₀ : Planner β κ} (hmake : make t b readings settings check = .ok p₀)
    (hlimit : settings.memoryLimit = some limit) (hmax : limit < Settings.maxCount)
    (lengths : List Nat) (length : Nat) :
    let p := p₀.pursue lengths
    let cost := learned settings.stepMemory (p₀.groundings lengths)
    (p.steps < max length 1 →
        (p.Refuses length ↔ limit < p.gauge.1 + (max length 1 - p.steps) * cost)) ∧
      (max length 1 ≤ p.steps → ¬p.Refuses length) ∧
      (p.Refuses length → (after (p.attempt length)).backend = p.backend ∧
        (after (p.attempt length)).unrolling = p.unrolling ∧
        (after (p.attempt length)).tally.solves = p.tally.solves) := by
  intro p cost
  have hstart : p₀.memoryLimit = settings.memoryLimit ∧ p₀.stepMemory = settings.stepMemory := by
    unfold make at hmake
    split at hmake
    · cases hmake
    · obtain rfl := Except.ok.inj hmake
      exact ⟨rfl, rfl⟩
  have hmemoryLimit : p.memoryLimit = some limit :=
    (memoryLimit_pursue p₀ lengths).trans (hstart.1.trans hlimit)
  have hcost : p.stepMemory = cost :=
    (stepMemory_pursue p₀ lengths).trans (congrArg (learned · _) hstart.2)
  refine ⟨fun h => ?_, fun h hrefuses => ?_, fun hrefuses => ?_⟩
  · rw [refuses_iff, and_iff_right h]
    unfold exceeded?
    rw [hmemoryLimit]
    simp [lt_estimate_iff hmax, hcost, Nat.mul_comm]
  · exact absurd (refuses_iff.mp hrefuses).1 (by omega)
  · obtain ⟨h, hsome⟩ := refuses_iff.mp hrefuses
    obtain ⟨limit', hlimit'⟩ := Option.isSome_iff_exists.mp hsome
    obtain ⟨_, _, _, hattempt, hsolves⟩ := attempt_of_exceeded h hlimit'
    rw [hattempt]
    exact ⟨rfl, rfl, hsolves⟩

/-- A limit that one step fits in, at the cost that is seen then, but not another one. -/
def tightSettings : Settings := { lampSettings with memoryLimit := some 60, stepMemory := 5 }

theorem admission_exact_lampProgram : ∃ t p₀, lampReasoner.compile = .ok t ∧
    make t (Reasoner.empty .unlimited) [10, 40] tightSettings (none : Option Script) = .ok p₀ ∧
    p₀.groundings [1] = [⟨10, 40, 1⟩] ∧
    (p₀.pursue [1]).Refuses 2 ∧ ¬(p₀.pursue [1]).Refuses 1 ∧
    (after ((p₀.pursue [1]).attempt 2)).unrolling = (p₀.pursue [1]).unrolling := by
  obtain ⟨t, hcompile, h⟩ := exists_ok_of_any (x := lampReasoner.compile)
    (f := fun t => (make t (Reasoner.empty .unlimited) [10, 40] tightSettings
      (none : Option Script)).toOption.any fun p => p.groundings [1] = [⟨10, 40, 1⟩] ∧
        (p.pursue [1]).steps = 1 ∧ (p.pursue [1]).gauge.1 = 40)
    (by decide +kernel)
  obtain ⟨p₀, hmake, h⟩ := exists_ok_of_any h
  obtain ⟨hgroundings, hsteps, hreading⟩ := of_decide_eq_true h
  have hexact := admission_exact hmake rfl (by decide) [1]
  have hrefuses : (p₀.pursue [1]).Refuses 2 := by
    refine ((hexact 2).1 (by rw [hsteps]; decide)).mpr ?_
    rw [hgroundings, hsteps, hreading]
    decide
  exact ⟨t, p₀, hcompile, hmake, hgroundings, hrefuses, (hexact 1).2.1 (by rw [hsteps]; decide),
    ((hexact 2).2.2 hrefuses).2.1⟩

end Planner

end StablePlan
