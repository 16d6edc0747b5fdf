import StablePlan.Proofs.Plan.Rejection

/-!
What an accepted plan is worth. An attempt comes back with a plan only after the check has accepted
what the model shows, so the actions that are shown with a step can be executed one after another.
The check does not look at labels that hold at every step. An action with such a label does no harm
if it can come before all others; otherwise a plan can be accepted that nobody can execute.
-/

namespace StablePlan

/-! ### Actions that hold at a step -/

/-- Two orders make one, if everything in the first is allowed before everything in the second. -/
theorem Orderable.append {α : Type} {R : α → α → Prop} {xs ys : List α} (hxs : Orderable R xs)
    (hys : Orderable R ys) (h : ∀ x ∈ xs, ∀ y ∈ ys, R x y) : Orderable R (xs ++ ys) := by
  obtain ⟨first, hperm, hpairwise⟩ := hxs
  obtain ⟨second, hperm', hpairwise'⟩ := hys
  refine ⟨first ++ second, hperm.append hperm', ?_⟩
  exact List.pairwise_append.mpr ⟨hpairwise, hpairwise', fun x hx y hy =>
    h x (hperm.mem_iff.mp hx) y (hperm'.mem_iff.mp hy)⟩

namespace Answer

variable {answer : Answer} {table : ActionTable} {a : Symbol} {s : Nat}

/-- The actions whose labels hold at every step. -/
def constantActions (answer : Answer) : List Symbol :=
  answer.facts.filterMap SequentialCheck.action?

/-- The actions whose labels hold at a step, be it as at every step or shown with this one. -/
def heldActions (answer : Answer) (s : Nat) : List Symbol :=
  answer.constantActions ++ answer.shownActions s

theorem mem_heldActions :
    a ∈ answer.heldActions s ↔ occurrence a ∈ answer.facts ∨ (s, occurrence a) ∈ answer.atoms := by
  unfold heldActions constantActions
  rw [List.mem_append, List.mem_filterMap, SequentialCheck.mem_shownActions]
  refine or_congr_left ⟨?_, fun hmem => ⟨_, hmem, SequentialCheck.action?_occurrence a⟩⟩
  rintro ⟨label, hmem, haction⟩
  rwa [← SequentialCheck.eq_occurrence_of_action? haction]

/-- Constant actions that can come first can be executed before the others. -/
theorem serializable_heldActions (hconstant : table.serializable answer.constantActions)
    (hshown : table.serializable (answer.shownActions s))
    (h : ∀ a ∈ answer.constantActions, ∀ b ∈ answer.shownActions s, table.Allows a b) :
    table.serializable (answer.heldActions s) := by
  rw [table.serializable_iff] at hconstant hshown ⊢
  exact hconstant.append hshown h

end Answer

namespace Planner

variable {β : Type} {p p' : Planner β SequentialCheck} {c : SequentialCheck} {length : Nat}

/-- The model was found by a search. -/
def HasFound (p : Planner β SequentialCheck) (m : Model) : Prop :=
  ∃ n ∈ p.journal, n.found? = some m

/-- The attempt has this length, and a plan that it comes back with is what a found model shows and
was accepted by the check. -/
structure Approves (c : SequentialCheck) (n : Nat) (r : Attempt × Planner β SequentialCheck) :
    Prop where
  length : r.1.length = n
  plan : r.1.outcome = .satisfiable → ∃ m, r.2.HasFound m ∧
    r.1.answer = some (r.2.unrolling.answer m n) ∧ c.check (r.2.unrolling.answer m n) n = .accept

theorem HasFound.drifts {m : Model} (h : p.HasFound m) (hdrifts : Drifts p p') : p'.HasFound m := by
  obtain ⟨n, hmem, hfound⟩ := h
  exact ⟨n, hdrifts.mem_journal hmem, hfound⟩

theorem Approves.drifts {attempt : Attempt} (h : Approves c length (attempt, p))
    (hdrifts : Drifts p p') : Approves c length (attempt, p') := by
  refine ⟨h.length, fun hsat => ?_⟩
  obtain ⟨m, hfound, hanswer⟩ := h.plan hsat
  refine ⟨m, hfound.drifts hdrifts, ?_⟩
  rw [Unrolling.answer_congr hdrifts.template]
  exact hanswer

/-- Without a plan there is nothing to approve. -/
theorem approves_of_ne {outcome : Outcome} {answer : Option Answer}
    (h : outcome ≠ .satisfiable) : Approves c length (⟨length, outcome, answer⟩, p) :=
  ⟨rfl, fun hsat => absurd hsat h⟩

/-- The check passes judgement on the answer, and stays what it is. -/
theorem judge_eq (hcheck : p.check = some c) (answer : Answer) (length : Nat) :
    (p.judge answer length).1 = c.check answer length ∧ Drifts p (p.judge answer length).2 := by
  have hremarks := p.drifts_foldl_remark (ModelCheck.remarks c answer length)
  unfold judge
  rw [hcheck]
  exact ⟨rfl, hremarks.trans (.of_same rfl rfl le_rfl rfl (hremarks.check.trans hcheck).symm rfl)⟩

variable [Backend β]

/-- The sequential check stays what it is. -/
theorem Happens.check_eq (h : Happens p p') (hcheck : p.check = some c) : p'.check = some c := by
  cases h with
  | drifts h => exact h.check.trans hcheck
  | hears | asks | asksInVain => exact hcheck
  | accepts hcheck' hverdict =>
      obtain rfl := Option.some.inj (hcheck.symm.trans hcheck')
      obtain ⟨-, rfl⟩ := Prod.mk.inj hverdict
      rfl
  | rejects hrejects | blocks hrejects =>
      obtain ⟨c', m, hcheck', hverdict⟩ := hrejects.verdict
      obtain rfl := Option.some.inj (hcheck.symm.trans hcheck')
      obtain ⟨-, rfl⟩ := Prod.mk.inj hverdict
      rfl

theorem Course.check_eq (h : Course p p') (hcheck : p.check = some c) : p'.check = some c := by
  induction h with
  | refl => exact hcheck
  | tail _ h ih => exact h.check_eq ih

theorem finishes_solveOnce_found (p : Planner β SequentialCheck) :
    Finishes p.solveOnce
      (fun r => r.2.check = p.check ∧ ∀ m, r.1 = .satisfiable m → r.2.HasFound m)
      fun _ _ => True := by
  unfold solveOnce
  dsimp only
  split
  · trivial
  · rename_i report b _
    refine ⟨rfl, fun m hresult => ⟨.searched report, Array.mem_push_self, ?_⟩⟩
    replace hresult : report.result = .satisfiable m := hresult
    unfold Notice.found?
    dsimp only
    rw [hresult]

theorem finishes_block_check (p : Planner β SequentialCheck) (atoms : List (Nat × Symbol)) :
    Finishes (p.block atoms) (fun p' => p'.check = p.check) fun _ _ => True := by
  rcases p.block_cases atoms with ⟨a, -, -, herror⟩ | ⟨body, -, heq⟩
  · rw [herror]
    trivial
  · rw [heq]
    split <;> trivial

/-- A round comes back with a plan only after it was accepted, if what follows a blocked answer
does. -/
theorem finishes_round_approves (hcheck : p.check = some c)
    {rest : Planner β SequentialCheck →
      Except (Failure β SequentialCheck) (Attempt × Planner β SequentialCheck)}
    (hrest : ∀ p', p'.check = some c →
      Finishes (rest p') (Approves c length) fun _ _ => True) :
    Finishes (p.round length rest) (Approves c length) fun _ _ => True := by
  refine p.finishes_solveOnce_found.bind ?_
  rintro ⟨result, p₁⟩ ⟨hcheck₁, hfound⟩
  replace hcheck₁ : p₁.check = some c := hcheck₁.trans hcheck
  dsimp only at hfound ⊢
  cases result with
  | unsatisfiable => exact approves_of_ne nofun
  | unknown => exact approves_of_ne nofun
  | satisfiable m =>
      obtain ⟨hverdict, hdrifts⟩ := judge_eq hcheck₁ (p₁.unrolling.answer m length) length
      dsimp only
      generalize p₁.judge (p₁.unrolling.answer m length) length = judged at hverdict hdrifts ⊢
      obtain ⟨verdict, p₂⟩ := judged
      dsimp only at hverdict hdrifts
      cases verdict with
      | accept =>
          have hplan : Approves c length
              (⟨length, .satisfiable, some (p₁.unrolling.answer m length)⟩, p₁) :=
            ⟨rfl, fun _ => ⟨m, hfound m rfl, rfl, hverdict.symm⟩⟩
          exact hplan.drifts (hdrifts.trans (drifts_note p₂ trivial))
      | reject atoms =>
          dsimp only
          split
          · exact approves_of_ne nofun
          · refine (finishes_block_check _ atoms).bind fun p₃ hcheck₃ => hrest p₃ ?_
            exact hcheck₃.trans (hdrifts.check.trans hcheck₁)

theorem finishes_solve_approves (hcheck : p.check = some c) (length retries : Nat) :
    Finishes (solve length retries p) (Approves c length) fun _ _ => True := by
  induction retries generalizing p with
  | zero =>
      rw [solve_eq]
      exact finishes_round_approves hcheck fun p' _ => approves_of_ne nofun
  | succ retries ih =>
      rw [solve_eq]
      exact finishes_round_approves hcheck fun p' hcheck' => ih hcheck'

theorem finishes_solveMasked_approves (hcheck : p.check = some c) (length : Nat) :
    Finishes (p.solveMasked length) (Approves c length) fun _ _ => True := by
  have hmask : ∀ (p' : Planner β SequentialCheck) hide,
      Finishes (p'.mask length hide) (Drifts p') fun _ _ => True := fun p' hide =>
    (finishes_mask p' length hide).mono (fun _ => id) fun _ _ _ => trivial
  unfold solveMasked
  split
  · refine (hmask p true).bind fun p₁ h₁ => ?_
    have hsolve := finishes_solve_approves (h₁.check.trans hcheck) length p₁.retry.attempts
    split
    · rename_i attempt p₂ heq
      rw [heq] at hsolve
      -- Showing the hidden steps again changes nothing about the plan.
      exact (hmask p₂ false).bind fun p₃ h₃ => Approves.drifts hsolve h₃
    · rename_i e p₂ heq
      exact (hmask p₂ false).bind fun _ _ => trivial
  · exact finishes_solve_approves hcheck length p.retry.attempts

theorem finishes_attempt_approves (hcheck : p.check = some c) (length : Nat) :
    Finishes (p.attempt length) (fun r => ∃ tried, length ≤ tried ∧ Approves c tried r)
      fun _ _ => True := by
  refine ((p.finishes_reach (p.usable length) (max (p.usable length) 1)).mono (fun _ => id)
    fun _ _ _ => trivial).bind ?_
  rintro ⟨admitted, p₁⟩ ⟨hcourse, -⟩
  change Finishes (p₁.conclude length admitted) _ _
  unfold conclude
  cases admitted with
  | false => exact ⟨_, p₁.le_usable length, approves_of_ne nofun⟩
  | true =>
      have hcheck₁ : { p₁ with tally := { p₁.tally with
          rules := Backend.ruleCount p₁.backend } }.check = some c := hcourse.check_eq hcheck
      have hsolve := finishes_solveMasked_approves hcheck₁ (p₁.usable length)
      exact hsolve.mono (fun r hr => ⟨_, p₁.le_usable length, hr⟩) fun _ _ => id

variable {t : Template} {b : β} {readings : List Nat} {settings : Settings}
  {p₀ : Planner β SequentialCheck} {attempt : Attempt}

/-- An accepted plan can be executed, as far as it is looked at. A planner with the sequential check
may have made any attempts over any template. If an attempt ends with a plan, this is what a found
model shows, and at every step of it the actions that are shown with the step are serializable. So
are all actions whose labels hold at the step, if those of the labels that hold at every step are
serializable and can come before the shown ones. -/
theorem accepted_serializable (hmake : make t b readings settings (some c) = .ok p₀)
    (hreached : Attempted p₀ p) (hattempt : p.attempt length = .ok (attempt, p'))
    (hsat : attempt.outcome = .satisfiable) :
    length ≤ attempt.length ∧ ∃ m answer, p'.HasFound m ∧
      answer = p'.unrolling.answer m attempt.length ∧ attempt.answer = some answer ∧
      (∀ s a, a ∈ answer.heldActions s ↔
        occurrence a ∈ t.facts ∨ (s, occurrence a) ∈ answer.atoms) ∧
      ∀ s, 1 ≤ s → s ≤ attempt.length → c.actions.serializable (answer.shownActions s) ∧
        (c.actions.serializable answer.constantActions →
          (∀ a ∈ answer.constantActions, ∀ b ∈ answer.shownActions s, c.actions.Allows a b) →
            c.actions.serializable (answer.heldActions s)) := by
  have hcheck := hreached.course.check_eq (make_eq_ok hmake).2.2.2.2.1
  have hcourse := finishes_attempt_course p length
  have happroves := finishes_attempt_approves hcheck length
  rw [hattempt] at hcourse happroves
  obtain ⟨tried, hle, happroves⟩ := happroves
  obtain rfl : attempt.length = tried := happroves.length
  obtain ⟨m, hfound, hanswer, haccept⟩ := happroves.plan hsat
  have htemplate : p'.unrolling.template = t := by
    have hunrolling := (make_eq_ok hmake).2.2.2.2.2.1
    rw [(hreached.course.trans hcourse).template, hunrolling]
  refine ⟨hle, m, _, hfound, rfl, hanswer, fun s a => ?_, fun s hs hlast => ?_⟩
  · rw [← htemplate]
    exact Answer.mem_heldActions
  · have hshown := SequentialCheck.check_eq_accept_iff.mp haccept s hs hlast
    exact ⟨hshown, fun hconstant => Answer.serializable_heldActions hconstant hshown⟩

end Planner

/-! ### A watch that never ends -/

/-- Somebody watches at every step, whatever happens. The goal is to open the door. -/
def watchProgram : List Statement := [
  .external 1 .free, .output (.constant "query") [.positive 1],
  .rule ⟨false, [2], []⟩, .output (occurrence (.constant "watch")) [.positive 2],
  .rule ⟨true, [3], []⟩, .output (occurrence (.constant "open")) [.positive 3],
  .rule ⟨false, [], [.positive 1, .negative 3]⟩]

/-- The watch needs the door shut. -/
def watchCheck : SequentialCheck := .ofFacts
  [.function "pre" [.constant "watch", .constant "shut"],
    .function "del" [.constant "open", .constant "shut"]] .minimal

/-- The watch needs the door shut, and it takes away the key. -/
def keyCheck : SequentialCheck := .ofFacts
  [.function "pre" [.constant "watch", .constant "shut"],
    .function "del" [.constant "open", .constant "shut"],
    .function "pre" [.constant "open", .constant "key"],
    .function "del" [.constant "watch", .constant "key"]] .minimal

namespace Planner

/-- The watch comes first, and then the door is opened. -/
theorem accepted_serializable_watchProgram : ∃ r t p₀ attempt p' answer,
    (Reasoner.empty .unlimited).load watchProgram = .ok r ∧ r.compile = .ok t ∧
    make t (Reasoner.empty .unlimited) [] lampSettings (some watchCheck) = .ok p₀ ∧
    p₀.attempt 1 = .ok (attempt, p') ∧ attempt.outcome = .satisfiable ∧
    attempt.answer = some answer ∧ answer.heldActions 1 = [.constant "watch", .constant "open"] ∧
    watchCheck.actions.serializable (answer.heldActions 1) := by
  obtain ⟨r, hload, h⟩ := exists_ok_of_any (x := (Reasoner.empty .unlimited).load watchProgram)
    (f := fun r => r.compile.toOption.any fun t => (make t (Reasoner.empty .unlimited) []
      lampSettings (some watchCheck)).toOption.any fun p₀ => (p₀.attempt 1).toOption.any fun r =>
        r.1.outcome = .satisfiable ∧ r.1.length = 1 ∧ ∃ answer ∈ r.1.answer,
          answer.constantActions = [.constant "watch"] ∧
            answer.shownActions 1 = [.constant "open"])
    (by decide +kernel)
  obtain ⟨t, hcompile, h⟩ := exists_ok_of_any h
  obtain ⟨p₀, hmake, h⟩ := exists_ok_of_any h
  obtain ⟨⟨attempt, p'⟩, hattempt, h⟩ := exists_ok_of_any h
  obtain ⟨hsat, hlength, answer, hanswer, hconstant, hshown⟩ := of_decide_eq_true h
  obtain ⟨-, m, answer', -, -, hanswer', -, hsteps⟩ :=
    accepted_serializable hmake .start hattempt hsat
  obtain rfl : answer = answer' := Option.some.inj (hanswer.symm.trans hanswer')
  have hfirst : watchCheck.actions.Allows (.constant "watch") (.constant "open") := by
    unfold ActionTable.Allows Effects.Allows
    decide +kernel
  refine ⟨r, t, p₀, attempt, p', answer, hload, hcompile, hmake, hattempt, hsat, hanswer, ?_, ?_⟩
  · unfold Answer.heldActions
    rw [hconstant, hshown]
    rfl
  · refine (hsteps 1 le_rfl hlength.ge).2 ?_ ?_
    · rw [hconstant]
      decide +kernel
    · rw [hconstant, hshown]
      simpa using hfirst

/-- The watch has taken away the key before the door is opened, or the door is open before the
watch comes. Nobody can execute this plan, and it is accepted. -/
theorem accepted_not_serializable_watchProgram : ∃ r t p₀ attempt p' answer,
    (Reasoner.empty .unlimited).load watchProgram = .ok r ∧ r.compile = .ok t ∧
    make t (Reasoner.empty .unlimited) [] lampSettings (some keyCheck) = .ok p₀ ∧
    p₀.attempt 1 = .ok (attempt, p') ∧ attempt.length = 1 ∧ attempt.outcome = .satisfiable ∧
    attempt.answer = some answer ∧ occurrence (.constant "watch") ∈ answer.facts ∧
    (1, occurrence (.constant "open")) ∈ answer.atoms ∧
    ¬keyCheck.actions.serializable (answer.heldActions 1) := by
  obtain ⟨r, hload, h⟩ := exists_ok_of_any (x := (Reasoner.empty .unlimited).load watchProgram)
    (f := fun r => r.compile.toOption.any fun t => (make t (Reasoner.empty .unlimited) []
      lampSettings (some keyCheck)).toOption.any fun p₀ => (p₀.attempt 1).toOption.any fun r =>
        r.1.length = 1 ∧ r.1.outcome = .satisfiable ∧ ∃ answer ∈ r.1.answer,
          occurrence (.constant "watch") ∈ answer.facts ∧
            (1, occurrence (.constant "open")) ∈ answer.atoms ∧
              ¬keyCheck.actions.serializable (answer.heldActions 1))
    (by decide +kernel)
  obtain ⟨t, hcompile, h⟩ := exists_ok_of_any h
  obtain ⟨p₀, hmake, h⟩ := exists_ok_of_any h
  obtain ⟨⟨attempt, p'⟩, hattempt, h⟩ := exists_ok_of_any h
  obtain ⟨hlength, hsat, answer, hanswer, hfact, hshown, hbad⟩ := of_decide_eq_true h
  exact ⟨r, t, p₀, attempt, p', answer, hload, hcompile, hmake, hattempt, hlength, hsat, hanswer,
    hfact, hshown, hbad⟩

end Planner

end StablePlan
