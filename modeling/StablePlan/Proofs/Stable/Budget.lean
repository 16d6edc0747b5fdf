import StablePlan.Transition.Compile

/-!
More to spend never changes a settled answer. Under two limits a search goes the same way up to
where the tighter one breaks it off, since the budget is looked at before a decision and nowhere
else. So whatever comes back unless it is broken off is what comes back under every looser limit.
This is about decisions; the clock of a search stands still.
-/

namespace StablePlan

/-- The first bound leaves no more than the second one; a bound that is missing is infinite. -/
def IsWithin (bound bound' : Option Nat) : Prop := ∀ n' ∈ bound', ∃ n ∈ bound, n ≤ n'

/-- The first limit leaves no more to spend than the second one. -/
structure Limit.Within (l l' : Limit) : Prop where
  decisions : IsWithin l.decisions l'.decisions
  time : IsWithin l.time l'.time

/-- Goes on to the second part of a search unless the first one ended it. -/
def Progress.andThen {α : Type} (r : Progress α) (next : Progress α → Progress α) : Progress α :=
  match r.flow with
  | .exhausted => next r
  | _ => r

/-- Saturates and goes on from there, unless that is a conflict. -/
def Problem.descend {α : Type} (p : Problem) (next : Assignment → Progress α) (a : Assignment)
    (decisions : Nat) (found : α) : Progress α :=
  match p.saturate a with
  | (b, true) => next b
  | (b, false) => ⟨b, decisions, found, .exhausted⟩

namespace Limit

variable {l l' : Limit} {decisions : Nat}

theorem within_unlimited (l : Limit) : l.Within .unlimited :=
  ⟨fun _ h => absurd h (Option.not_mem_none _), fun _ h => absurd h (Option.not_mem_none _)⟩

theorem reached_iff : l.reached decisions ↔
    (∃ n ∈ l.decisions, n ≤ decisions) ∨ ∃ t ∈ l.time, t < leadTime := by
  obtain ⟨bound, time⟩ := l
  cases bound <;> cases time <;> simp [reached]

/-- What uses up the looser limit uses up the tighter one. -/
theorem Within.reached (h : l.Within l') (hreached : l'.reached decisions) :
    l.reached decisions := by
  rw [reached_iff] at hreached ⊢
  refine hreached.imp ?_ ?_
  · rintro ⟨n', hn', hle'⟩
    obtain ⟨n, hn, hle⟩ := h.decisions n' hn'
    exact ⟨n, hn, Nat.le_trans hle hle'⟩
  · rintro ⟨t', ht', hlt⟩
    obtain ⟨t, ht, hle⟩ := h.time t' ht'
    exact ⟨t, ht, Nat.lt_of_le_of_lt hle hlt⟩

end Limit

namespace Problem

variable {α : Type} {visit : α → Model → α × Bool} {l l' : Limit} {p : Problem} {a : Assignment}
  {atom decisions depth : Nat} {found : α}

/-! ### One step of a search -/

/-- With nothing open there is no decision to take, whatever the limit. -/
theorem explore_total (hfirst : a.unassigned.first? = none) :
    p.explore l visit depth a decisions found =
      if p.isStable a then
        ⟨a, decisions, (visit found a.toModel).1,
          if (visit found a.toModel).2 then .exhausted else .stopped⟩
      else ⟨a, decisions, found, .exhausted⟩ := by
  unfold explore
  rw [hfirst]

theorem explore_reached (hfirst : a.unassigned.first? = some atom)
    (hreached : l.reached decisions) :
    p.explore l visit depth a decisions found = ⟨a, decisions, found, .interrupted⟩ := by
  unfold explore
  rw [hfirst]
  exact if_pos hreached

theorem explore_zero (hfirst : a.unassigned.first? = some atom)
    (hreached : ¬l.reached decisions) :
    p.explore l visit 0 a decisions found = ⟨a, decisions, found, .exhausted⟩ := by
  unfold explore
  rw [hfirst]
  exact if_neg hreached

/-- A decision within the budget is one branch and then the other. -/
theorem explore_succ (hfirst : a.unassigned.first? = some atom)
    (hreached : ¬l.reached decisions) : p.explore l visit (depth + 1) a decisions found =
      (p.descend (p.explore l visit depth · (decisions + 1) found) (a.assign (.negative atom)).1
        (decisions + 1) found).andThen fun r =>
          p.descend (p.explore l visit depth · r.decisions r.found)
            ((r.assignment.undo a.unassigned.size).assign (.positive atom)).1 r.decisions
            r.found := by
  rw [explore, hfirst]
  dsimp only
  rw [if_neg hreached]
  unfold descend Progress.andThen
  rcases p.saturate (a.assign (.negative atom)).1 with ⟨b, _ | _⟩
  · rfl
  · dsimp only
    rcases p.explore l visit depth b (decisions + 1) found with
      ⟨c, decisions', found', _ | _ | _⟩ <;> rfl

/-! ### Two limits -/

theorem andThen_eq {r r' : Progress α} {next next' : Progress α → Progress α}
    (hfirst : r.flow ≠ .interrupted → r' = r)
    (hnext : ∀ r, (next r).flow ≠ .interrupted → next' r = next r)
    (hflow : (r.andThen next).flow ≠ .interrupted) : r'.andThen next' = r.andThen next := by
  unfold Progress.andThen at hflow ⊢
  cases hr : r.flow with
  | exhausted =>
      rw [hr] at hflow
      rw [hfirst (by simp [hr]), hr]
      exact hnext r hflow
  | interrupted =>
      rw [hr] at hflow
      exact absurd hr hflow
  | stopped => rw [hfirst (by simp [hr]), hr]

theorem descend_eq {next next' : Assignment → Progress α}
    (hnext : ∀ b, (next b).flow ≠ .interrupted → next' b = next b)
    (hflow : (p.descend next a decisions found).flow ≠ .interrupted) :
    p.descend next' a decisions found = p.descend next a decisions found := by
  unfold descend at hflow ⊢
  split
  · rename_i b hsat
    rw [hsat] at hflow
    exact hnext b hflow
  · rfl

/-- Below an assignment a search that is not broken off goes the same way under a looser limit:
where it takes a decision the looser limit is not used up either. -/
theorem explore_of_within (h : l.Within l') (depth : Nat) (a : Assignment) (decisions : Nat)
    (found : α) (hflow : (p.explore l visit depth a decisions found).flow ≠ .interrupted) :
    p.explore l' visit depth a decisions found = p.explore l visit depth a decisions found := by
  induction depth generalizing a decisions found with
  | zero =>
      cases hfirst : a.unassigned.first? with
      | none => rw [explore_total hfirst, explore_total hfirst]
      | some atom =>
          by_cases hreached : l.reached decisions
          · exact absurd (congrArg Progress.flow (explore_reached hfirst hreached)) hflow
          · rw [explore_zero hfirst hreached, explore_zero hfirst (mt h.reached hreached)]
  | succ depth ih =>
      cases hfirst : a.unassigned.first? with
      | none => rw [explore_total hfirst, explore_total hfirst]
      | some atom =>
          by_cases hreached : l.reached decisions
          · exact absurd (congrArg Progress.flow (explore_reached hfirst hreached)) hflow
          · rw [explore_succ hfirst hreached] at hflow ⊢
            rw [explore_succ hfirst (mt h.reached hreached)]
            exact andThen_eq (descend_eq fun b => ih b (decisions + 1) found)
              (fun r => descend_eq fun b => ih b r.decisions r.found) hflow

theorem search_of_within (h : l.Within l') (root : List Literal)
    (hflow : (p.search l root visit found).flow ≠ .interrupted) :
    p.search l' root visit found = p.search l root visit found := by
  unfold search at hflow ⊢
  split
  · rename_i a hassign
    rw [hassign] at hflow
    exact descend_eq (fun b => explore_of_within h b.unassigned.size b 0 found) hflow
  · rfl

/-! ### What the visitor keeps -/

/-- Unless the visitor had enough. -/
def Keeps (I : α → Prop) (r : Progress α) : Prop := r.flow ≠ .stopped → I r.found

variable {I : α → Prop}

theorem keeps_descend {next : Assignment → Progress α} (hnext : ∀ b, Keeps I (next b))
    (hfound : I found) : Keeps I (p.descend next a decisions found) := by
  unfold descend
  split
  · exact hnext _
  · exact fun _ => hfound

theorem keeps_andThen {r : Progress α} {next : Progress α → Progress α} (hfirst : Keeps I r)
    (hnext : ∀ r, I r.found → Keeps I (next r)) : Keeps I (r.andThen next) := by
  unfold Progress.andThen
  split
  · rename_i hflow
    exact hnext r (hfirst (by simp [hflow]))
  · exact hfirst

/-- What the visitor keeps whenever it asks for more is kept by a search. -/
theorem keeps_explore (hvisit : ∀ found m, I found → (visit found m).2 = true → I (visit found m).1)
    (depth : Nat) (a : Assignment) (decisions : Nat) (found : α) (hfound : I found) :
    Keeps I (p.explore l visit depth a decisions found) := by
  have htotal : ∀ depth a decisions found, I found → a.unassigned.first? = none →
      Keeps I (p.explore l visit depth a decisions found) := by
    intro depth a decisions found hfound hfirst
    rw [explore_total hfirst]
    split
    · intro hflow
      refine hvisit found a.toModel hfound ?_
      cases hmore : (visit found a.toModel).2 with
      | true => rfl
      | false => simp [hmore] at hflow
    · exact fun _ => hfound
  induction depth generalizing a decisions found with
  | zero =>
      cases hfirst : a.unassigned.first? with
      | none => exact htotal 0 a decisions found hfound hfirst
      | some atom =>
          by_cases hreached : l.reached decisions
          · rw [explore_reached hfirst hreached]
            exact fun _ => hfound
          · rw [explore_zero hfirst hreached]
            exact fun _ => hfound
  | succ depth ih =>
      cases hfirst : a.unassigned.first? with
      | none => exact htotal (depth + 1) a decisions found hfound hfirst
      | some atom =>
          by_cases hreached : l.reached decisions
          · rw [explore_reached hfirst hreached]
            exact fun _ => hfound
          · rw [explore_succ hfirst hreached]
            exact keeps_andThen (keeps_descend (fun b => ih b (decisions + 1) found hfound) hfound)
              fun r hr => keeps_descend (fun b => ih b r.decisions r.found hr) hr

theorem keeps_search (hvisit : ∀ found m, I found → (visit found m).2 = true → I (visit found m).1)
    (root : List Literal) (hfound : I found) : Keeps I (p.search l root visit found) := by
  unfold search
  split
  · exact keeps_descend (fun b => keeps_explore hvisit b.unassigned.size b 0 found hfound) hfound
  · exact fun _ => hfound

end Problem

namespace Reasoner

variable {l l' : Limit}

/-- The report on a search for the first model. -/
def reportOf (search : Progress (Option Model)) : SolveReport where
  result := match search.found, search.flow with
    | some m, _ => .satisfiable m
    | none, .exhausted => .unsatisfiable
    | none, _ => .unknown
  decisions := search.decisions

theorem solve_withLimit (r : Reasoner) (l : Limit) (assumptions : List Literal) :
    (r.withLimit l).solve assumptions = (assumptions.forM r.checkAssumption).map fun _ => reportOf
      ((r.problem false assumptions).search l (r.root false assumptions) takeFirst none) := by
  have hcheck : (r.withLimit l).checkAssumption = r.checkAssumption := rfl
  unfold solve
  rw [hcheck]
  cases assumptions.forM r.checkAssumption <;> rfl

theorem solve_of_within (r : Reasoner) (h : l.Within l') (assumptions : List Literal)
    (hsettled : ∀ decisions, (r.withLimit l).solve assumptions ≠ .ok ⟨.unknown, decisions⟩) :
    (r.withLimit l').solve assumptions = (r.withLimit l).solve assumptions := by
  rw [solve_withLimit] at hsettled
  rw [solve_withLimit, solve_withLimit]
  cases hcheck : assumptions.forM r.checkAssumption with
  | error e => rfl
  | ok _ =>
      rw [hcheck] at hsettled
      rw [Problem.search_of_within h]
      intro hflow
      -- A search for the first model that is broken off has found none.
      have hkeeps : Problem.Keeps (· = none) ((r.problem false assumptions).search l
          (r.root false assumptions) takeFirst none) :=
        Problem.keeps_search (fun _ _ _ hmore => absurd hmore Bool.false_ne_true) _ rfl
      have hnone := hkeeps (by simp [hflow])
      apply hsettled
      simp only [Except.map, reportOf, hnone, hflow]
      rfl

theorem consequences_of_within (r : Reasoner) (h : l.Within l') (combine : Bool → Bool → Bool)
    (hsettled : (r.withLimit l).consequences combine ≠ .error .interrupted) :
    (r.withLimit l').consequences combine = (r.withLimit l).consequences combine := by
  have hflow : ((r.withLimit l).enumerate combine).flow ≠ .interrupted := fun hflow =>
    hsettled (by rw [consequences, gathered, hflow])
  have hsame := Problem.search_of_within (p := r.problem true []) h (r.root true []) hflow
  exact congrArg gathered hsame

theorem requireModel_eq_or {result result' : Except SolveError (Option (List Nat))}
    (h : result ≠ .error .interrupted → result' = result) :
    requireModel result = .error (.solve .interrupted) ∨ result' = result := by
  by_cases hresult : result = .error .interrupted
  · exact Or.inl (congrArg requireModel hresult)
  · exact Or.inr (h hresult)

theorem compile_eq_or (replay : List Observation)
    {brave brave' cautious cautious' : Except SolveError (Option (List Nat))}
    (hbrave : requireModel brave = .error (.solve .interrupted) ∨ brave' = brave)
    (hcautious : requireModel cautious = .error (.solve .interrupted) ∨ cautious' = cautious) :
    StablePlan.compile replay ⟨brave, cautious⟩ = .error (.solve .interrupted) ∨
      StablePlan.compile replay ⟨brave', cautious'⟩ =
        StablePlan.compile replay ⟨brave, cautious⟩ := by
  unfold StablePlan.compile
  dsimp only
  rcases hbrave with hbrave | rfl
  · rw [hbrave]
    exact Or.inl rfl
  · cases requireModel brave' with
    | error e => exact Or.inr rfl
    | ok atoms =>
        rcases hcautious with hcautious | rfl
        · rw [hcautious]
          exact Or.inl rfl
        · exact Or.inr rfl

theorem compile_of_within (r : Reasoner) (h : l.Within l') :
    (r.withLimit l).compile = .error (.solve .interrupted) ∨
      (r.withLimit l').compile = (r.withLimit l).compile :=
  compile_eq_or r.replay.toList (requireModel_eq_or (r.consequences_of_within h _))
    (requireModel_eq_or (r.consequences_of_within h _))

/-- More to spend never changes a settled answer: neither a solve call that does not give up nor
consequences that are not interrupted, and a program that compiles within a limit, or fails to for
another reason, does the same without one. -/
theorem settled_of_within (r : Reasoner) (h : l.Within l') :
    (∀ assumptions,
      (∀ decisions, (r.withLimit l).solve assumptions ≠ .ok ⟨.unknown, decisions⟩) →
        (r.withLimit l').solve assumptions = (r.withLimit l).solve assumptions) ∧
      ((r.withLimit l).brave ≠ .error .interrupted →
        (r.withLimit l').brave = (r.withLimit l).brave) ∧
      ((r.withLimit l).cautious ≠ .error .interrupted →
        (r.withLimit l').cautious = (r.withLimit l).cautious) ∧
      ((r.withLimit l).compile = .error (.solve .interrupted) ∨
        (r.withLimit l).compile = (r.withLimit .unlimited).compile) :=
  ⟨r.solve_of_within h, r.consequences_of_within h _, r.consequences_of_within h _,
    (r.compile_of_within l.within_unlimited).imp_right Eq.symm⟩

/-- Two choices, of which the second depends on the first. -/
def choicesReasoner : Reasoner :=
  match (empty .unlimited).load [.rule ⟨true, [1], []⟩, .rule ⟨true, [2], [.positive 1]⟩] with
  | .ok r => r
  | .error (_, r) => r

/-- One decision is enough for a first model, and two for all of them. -/
theorem settled_of_within_choicesReasoner :
    let l : Limit := ⟨some 2, some 500⟩
    let l' : Limit := ⟨some 5, none⟩
    l.Within l' ∧
      (∀ decisions, (choicesReasoner.withLimit l).solve [] ≠ .ok ⟨.unknown, decisions⟩) ∧
      (choicesReasoner.withLimit l').solve [] = (choicesReasoner.withLimit l).solve [] ∧
      (choicesReasoner.withLimit l).brave ≠ .error .interrupted ∧
      (choicesReasoner.withLimit l').brave = (choicesReasoner.withLimit l).brave ∧
      (choicesReasoner.withLimit l).cautious ≠ .error .interrupted ∧
      (choicesReasoner.withLimit l').cautious = (choicesReasoner.withLimit l).cautious ∧
      (choicesReasoner.withLimit l).compile ≠ .error (.solve .interrupted) ∧
      (choicesReasoner.withLimit l).compile = (choicesReasoner.withLimit .unlimited).compile := by
  intro l l'
  have hwithin : l.Within l' :=
    ⟨fun n hn => ⟨2, rfl, by have := Option.some.inj hn; omega⟩, fun n hn => nomatch hn⟩
  have hsolve : ((choicesReasoner.withLimit l).solve []).toOption =
      some ⟨.satisfiable ⟨#[false, false, false]⟩, 1⟩ := by decide +kernel
  have hbrave : (choicesReasoner.withLimit l).brave.toOption = some (some [1, 2]) := by
    decide +kernel
  have hcautious : (choicesReasoner.withLimit l).cautious.toOption = some (some []) := by
    decide +kernel
  have hcompile : (choicesReasoner.withLimit l).compile.toOption.isSome := by decide +kernel
  have hknown : ∀ decisions,
      (choicesReasoner.withLimit l).solve [] ≠ .ok ⟨.unknown, decisions⟩ := by
    intro decisions h
    simp [h, Except.toOption] at hsolve
  have hbraveOk : (choicesReasoner.withLimit l).brave ≠ .error .interrupted := by
    intro h
    simp [h, Except.toOption] at hbrave
  have hcautiousOk : (choicesReasoner.withLimit l).cautious ≠ .error .interrupted := by
    intro h
    simp [h, Except.toOption] at hcautious
  have hcompileOk : (choicesReasoner.withLimit l).compile ≠ .error (.solve .interrupted) := by
    intro h
    simp [h, Except.toOption] at hcompile
  obtain ⟨hsame, hsameBrave, hsameCautious, hsameCompile⟩ :=
    settled_of_within choicesReasoner hwithin
  exact ⟨hwithin, hknown, hsame [] hknown, hbraveOk, hsameBrave hbraveOk, hcautiousOk,
    hsameCautious hcautiousOk, hcompileOk, hsameCompile.resolve_left hcompileOk⟩

end Reasoner

end StablePlan
