import StablePlan.Proofs.Transition.Tidying

/-!
A run that succeeds ends in a fixpoint, but for what was never looked at. Between two atoms nothing
is pending: an atom that gets a value is taken out of all rules, and one that is cautious out of the
bodies that need it false. A weight rule that is a choice between no atoms is stored as it comes,
and stays if none of its atoms is resolved; it is all that keeps the end from being a fixpoint.
-/

namespace StablePlan

namespace Fitting

variable {f g g' : Fitting} {log : List Observation} {a b n : Nat} {value : Bool}
  {goal : Resolution} {never always : List Nat}

/-- Records mirror the rules, and nothing is pending. -/
structure Tidy (log : List Observation) (f : Fitting) : Prop where
  mirrors : f.draft.Mirrors log 0 fun _ _ => False
  trim : f.draft.Trim log

theorem Tidies.tidy (h : Tidies log a (fun _ _ => False) f g) : g.Tidy log :=
  ⟨h.mirrors.settled 0 _, h.trim⟩

theorem Tidy.of_draft (h : f.Tidy log) (hdraft : g.draft = f.draft) : g.Tidy log :=
  ⟨hdraft ▸ h.mirrors, hdraft ▸ h.trim⟩

theorem Tidy.mention (h : f.Tidy log) (a : Nat) : (f.mention a).Tidy log :=
  ⟨h.mirrors.mention a, ⟨h.trim.rules, h.trim.weightRules⟩⟩

/-! ### Resolving -/

/-- Of one draft, an atom is resolved and its records are changed in the other. -/
structure Alters (d : Draft) (a : Nat) (goal : Resolution) (o : Occurrences) (e : Draft) :
    Prop where
  plays : ∀ c role i, e.Plays c role i ↔ d.Plays c role i
  mentioned : ∀ c, d.isMentioned c → e.isMentioned c
  tracked : ∀ role, e.IsTracked a role ↔ goal = .cautious ∧ role.isNegative = false
  record : ∀ role, e.record a role = o.of role
  tracked_of_ne : ∀ c, c ≠ a → ∀ role, e.IsTracked c role ↔ d.IsTracked c role
  record_of_ne : ∀ c, c ≠ a → ∀ role, e.record c role = d.record c role

theorem alters_setEntry {d : Draft} (hm : d.isMentioned a) (goal : Resolution)
    (o : Occurrences) : Alters d a goal o
      (d.setEntry a { d.entry a with resolution := some goal, occurrences := o }) := by
  have hlt := Draft.lt_of_isMentioned hm
  have hentry := Draft.entry_setEntry d a (e := { d.entry a with
    resolution := some goal, occurrences := o })
  refine ⟨fun _ _ _ => Iff.rfl, fun c hc => ?_, fun role => ?_, fun role => ?_,
    fun c hne role => ?_, fun c hne role => ?_⟩
  · unfold Draft.isMentioned at hc ⊢
    rw [hentry]
    split
    · exact hm
    · exact hc
  · unfold Draft.IsTracked Draft.resolution
    rw [hentry, if_pos ⟨rfl, hlt⟩]
    simp
  · unfold Draft.record Draft.occurrences
    rw [hentry, if_pos ⟨rfl, hlt⟩]
  · unfold Draft.IsTracked Draft.resolution
    rw [hentry, if_neg fun h => hne h.1]
  · unfold Draft.record Draft.occurrences
    rw [hentry, if_neg fun h => hne h.1]

/-- Where an atom is resolved, the records that are not kept any more are pending. -/
theorem Alters.mirrors {d e : Draft} {o : Occurrences} (h : Alters d a goal o e)
    (hd : d.Mirrors log b fun _ _ => False)
    (ho : ∀ role, o.of role =
      if goal = .cautious ∧ role.isNegative = false then d.record a role else [])
    (hopen : goal = .cautious → d.resolution a = none) :
    e.Mirrors log a fun role i =>
      (goal = .cautious → role.isNegative = true) ∧ i ∈ d.record a role := by
  refine ⟨fun c role i => ?_, fun c role => ?_, fun c role i hp => ?_,
    fun c role i hp => h.mentioned c (hd.mentioned c role i ((h.plays c role i).mp hp)),
    fun c role i hp => hd.stems c role i ((h.plays c role i).mp hp)⟩
  · by_cases hc : c = a
    · subst hc
      rw [h.record, ho, h.tracked, h.plays]
      by_cases hkept : goal = .cautious ∧ role.isNegative = false
      · rw [if_pos hkept, hd.record, and_iff_right hkept]
        exact and_iff_right (Or.inl (hopen hkept.1))
      · rw [if_neg hkept]
        simp [hkept]
    · rw [h.record_of_ne c hc, h.tracked_of_ne c hc, h.plays]
      exact hd.record c role i
  · by_cases hc : c = a
    · subst hc
      rw [h.record, ho]
      split
      · exact hd.ascending c role
      · exact List.Pairwise.nil
    · rw [h.record_of_ne c hc]
      exact hd.ascending c role
  · have hp := (h.plays c role i).mp hp
    have htracked := (hd.tracked c role i hp).resolve_right fun hno => hno.2
    by_cases hc : c = a
    · subst hc
      rw [h.tracked]
      by_cases hkept : goal = .cautious ∧ role.isNegative = false
      · exact Or.inl hkept
      · refine Or.inr ⟨rfl, fun hgoal => ?_, (hd.record c role i).mpr ⟨htracked, hp⟩⟩
        by_contra hno
        exact hkept ⟨hgoal, by simpa using hno⟩
    · rw [h.tracked_of_ne c hc]
      exact Or.inl htracked

theorem draft_mapOccurrences_record (hm : f.draft.isMentioned a) (G : Occurrences → Occurrences) :
    ((f.record a goal).mapOccurrences a G).draft = f.draft.setEntry a
      { f.draft.entry a with
        resolution := some goal
        occurrences := G (f.draft.occurrences a) } := by
  unfold mapOccurrences record Draft.mapOccurrences Draft.occurrences
  dsimp only
  rw [Draft.entry_setEntry, if_pos ⟨rfl, Draft.lt_of_isMentioned hm⟩]
  simp [Draft.setEntry]

theorem resolution_record (hm : f.draft.isMentioned a) :
    (f.record a goal).draft.resolution a = some goal := by
  unfold record Draft.resolution
  rw [Draft.entry_setEntry, if_pos ⟨rfl, Draft.lt_of_isMentioned hm⟩]

theorem mem_roleOrder (role : Role) (value : Bool) : role ∈ roleOrder value := by
  cases value <;> cases role <;> decide

/-- Once an atom is decided, all that it was on record for is pending. -/
theorem Tidy.mirrors_record (h : f.Tidy log) (hm : f.draft.isMentioned a)
    (hgoal : goal = if value then .on else .off) :
    ((f.record a goal).mapOccurrences a fun _ => {}).draft.Mirrors log a
      (Pending ((f.record a goal).draft.occurrences a) (roleOrder value)) := by
  have hcautious : goal ≠ .cautious := by
    rw [hgoal]
    cases value <;> simp
  rw [draft_mapOccurrences_record hm]
  refine ((alters_setEntry hm goal _).mirrors h.mirrors (fun role => ?_) fun hno =>
    absurd hno hcautious).mono fun role i _ hi => ⟨mem_roleOrder role value, ?_⟩
  · simp [hcautious]
  · rw [occurrences_record]
    exact hi.2

theorem Tidy.propagate (h : f.Tidy log) (hm : f.draft.isMentioned a)
    (hgoal : goal = if value then .on else .off)
    (hok : (f.record a goal).propagate a value = .ok g) : g.Tidy log :=
  (tidies_propagate ((resolution_record hm).trans (congrArg some hgoal))
    (h.mirrors_record hm hgoal) ⟨h.trim.rules, h.trim.weightRules⟩ hok).tidy

theorem Tidy.resolve (h : f.Tidy log) (hok : f.resolve a value = .ok g) : g.Tidy log := by
  have hm : (f.mention a).draft.isMentioned a :=
    (Draft.isMentioned_mention f.draft a a).mpr (Or.inl rfl)
  unfold Fitting.resolve at hok
  dsimp only at hok
  generalize hgoal : (if value then Resolution.on else .off) = goal at hok
  replace hgoal := hgoal.symm
  split at hok
  · exact (h.mention a).propagate hm hgoal hok
  · split at hok
    · obtain rfl := Except.ok.inj hok
      exact h.mention a
    · split at hok
      · exact (h.mention a).propagate hm hgoal hok
      · exact absurd hok (by simp)

/-- Once an atom is cautious, what needs it false is pending. -/
theorem Tidy.tidies_markCautious (h : f.Tidy log) (hm : f.draft.isMentioned a)
    (hnone : f.draft.resolution a = none) :
    Tidies log a (Pending (f.draft.occurrences a) [.negative, .weightedNegative])
      (f.markCautious a) (f.markCautious a) := by
  have hlists : ∀ role : Role,
      Occurrences.of { f.draft.occurrences a with negative := [], weightedNegative := [] } role =
        if Resolution.cautious = .cautious ∧ role.isNegative = false then f.draft.record a role
        else [] := by
    intro role
    cases role <;> simp [Role.isNegative, Occurrences.of, Draft.record]
  have hmirrors := (alters_setEntry hm _ _).mirrors h.mirrors hlists fun _ => hnone
  rw [← draft_mapOccurrences_record hm fun o => { o with negative := [], weightedNegative := [] }]
    at hmirrors
  refine ⟨hmirrors.mono fun role i _ hi => ⟨?_, hi.2⟩, ⟨h.trim.rules, h.trim.weightRules⟩,
    fun _ => rfl⟩
  have hrole := hi.1 rfl
  cases role <;> simp_all [Role.isNegative]

theorem resolution_markCautious (hm : f.draft.isMentioned a) :
    (f.markCautious a).draft.resolution a = some .cautious :=
  (Draft.resolution_mapOccurrences _ _ _ _).trans (resolution_record hm)

theorem not_isTracked_markCautious (hm : f.draft.isMentioned a) :
    ¬(f.markCautious a).draft.IsTracked (literalOf a false).atom
      (literalOf a false).weightRole := by
  unfold Draft.IsTracked Literal.weightRole
  rw [atom_literalOf, resolution_markCautious hm, isPositive_literalOf (by simp)]
  simp [Role.isNegative]

/-- What needs a cautious atom false is looked at. -/
theorem Tidy.caution (h : f.Tidy log) (hok : f.caution a = .ok g) : g.Tidy log := by
  have hmention := h.mention a
  have hm : (f.mention a).draft.isMentioned a :=
    (Draft.isMentioned_mention f.draft a a).mpr (Or.inl rfl)
  unfold Fitting.caution at hok
  dsimp only at hok
  generalize f.mention a = f' at hmention hm hok
  split at hok
  · exact absurd hok (by simp)
  · obtain rfl := Except.ok.inj hok
    exact hmention
  · rename_i hnone
    rw [occurrences_record] at hok
    have hfirst := (hmention.tidies_markCautious hm hnone).foldlM (clears_retire rfl)
      (foldlM_retire (f'.draft.occurrences a).negative (f'.markCautious a))
    exact ((hfirst.foldlM (clears_falsifyWeight (not_isTracked_markCautious hm)
      (by simp [signWeightRole])) hok).mono fun role i _ hp =>
        absurd hp.1 List.not_mem_nil).tidy

/-! ### The run -/

theorem Tidy.settle (h : f.Tidy log) (hok : f.settle goal a = .ok g) : g.Tidy log := by
  cases goal with
  | on => exact h.resolve hok
  | off => exact h.resolve hok
  | cautious => exact h.caution hok

theorem Tidy.next (h : f.Tidy log) (hnext : f.next? = some (goal, a, g))
    (hok : g.settle goal a = .ok g') : g'.Tidy log := by
  have hdraft := (skims_of_next?_eq_some hnext).1.draft
  rw [draft_requeue] at hdraft
  exact (h.of_draft hdraft).settle hok

theorem Tidy.runFor (h : f.Tidy log) (hok : f.runFor n = .ok g) : g.Tidy log := by
  induction n generalizing f with
  | zero =>
      obtain rfl := Except.ok.inj hok
      exact h
  | succ n ih =>
      unfold Fitting.runFor at hok
      split at hok
      · obtain rfl := Except.ok.inj hok
        exact h.of_draft rfl
      · rename_i goal a f' hnext
        obtain ⟨g', hsettle, hok⟩ := exists_of_bind_eq_ok hok
        exact ih (h.next hnext hsettle) hok

theorem tidy_assuming {d : Draft} (hd : d.Gathered log) (never always : List Nat) :
    (assuming d never always).Tidy log := by
  have hstart : Draft.Gathered log { d with facts := [], falsified := [], cautious := [] } :=
    hd.rest
  have hdraft : (assuming d never always).draft = always.foldl Draft.mention
      (never.foldl Draft.mention (d.cautious.foldl Draft.mention (d.falsified.foldl Draft.mention
        (d.facts.foldl Draft.mention
          { d with facts := [], falsified := [], cautious := [] })))) := by
    unfold assuming ofDraft assumeFalse assumeCautious
    rw [draft_foldl fun _ _ => rfl, draft_foldl fun _ _ => rfl, draft_foldl fun _ _ => rfl,
      draft_foldl fun _ _ => rfl, draft_foldl fun _ _ => rfl]
  have hend := ((((hstart.foldl_mention d.facts).foldl_mention d.falsified).foldl_mention
    d.cautious).foldl_mention never).foldl_mention always
  rw [← hdraft] at hend
  exact ⟨hend.mirrors, hend.trim⟩

/-- A run that succeeds leaves records that mirror the rules, and trim rules. -/
theorem tidy_of_run_eq_ok (h : (assuming (Draft.ofReplay log) never always).run = .ok g) :
    g.Tidy log := by
  have hstart := tidy_assuming (Draft.gathered_ofReplay log) never always
  unfold run at h
  split at h
  · exact absurd h (by simp)
  · exact hstart.runFor h

/-! ### The fixpoint -/

section Checking

variable {d : Draft}

/-- Where nothing is pending, no rule mentions a decided atom. -/
theorem isStale_eq_false {head : List Nat} {body : List Literal}
    (hhead : ∀ x ∈ head, d.IsTracked x .head)
    (hbody : ∀ l ∈ body, d.IsTracked l.atom l.role) : isStale d head body = false := by
  have hdecided : ∀ {x role}, d.IsTracked x role → isDecided d x = false := by
    intro x role ht
    unfold isDecided
    rcases ht with hnone | ⟨hcautious, -⟩
    · simp [hnone]
    · simp [hcautious]
  unfold isStale
  rw [Bool.or_eq_false_iff, List.any_eq_false, List.any_eq_false]
  refine ⟨fun x hx => by simp [hdecided (hhead x hx)], fun l hl => ?_⟩
  have ht := hbody l hl
  rw [hdecided ht]
  rcases ht with hnone | ⟨-, hrole⟩
  · simp [hnone]
  · have hpositive : l.isPositive = true := by
      unfold Literal.role at hrole
      cases hsign : l.isPositive <;> simp_all [Role.isNegative]
    simp [hpositive]

theorem entry_of_mem_entries {e : Entry} (h : e ∈ d.entries) : ∃ b, d.entry b = e := by
  obtain ⟨b, hb, rfl⟩ := Array.mem_iff_getElem.mp h
  exact ⟨b, by simp [Draft.entry, Array.getD_eq_getD_getElem?, hb]⟩

/-- No record names a rule that is gone. -/
theorem Tidy.recorded (h : f.Tidy log) (b : Nat) :
    (∀ i ∈ (f.draft.occurrences b).rules, (f.draft.rule? i).isSome) ∧
      ∀ i ∈ (f.draft.occurrences b).weightRules, (f.draft.weightRule? i).isSome := by
  have hlive : ∀ role i, i ∈ f.draft.record b role →
      (f.draft.parts? role.isWeighted i).isSome := by
    intro role i hi
    obtain ⟨parts, hparts, -⟩ := ((h.mirrors.record b role i).mp hi).2
    rw [hparts]
    rfl
  constructor
  · intro i hi
    have hsome : (f.draft.parts? false i).isSome := by
      rcases List.mem_append.mp hi with hi | hi
      · rcases List.mem_append.mp hi with hi | hi
        · exact hlive .head i hi
        · exact hlive .positive i hi
      · exact hlive .negative i hi
    simpa [Draft.parts?_false] using hsome
  · intro i hi
    have hsome : (f.draft.parts? true i).isSome := by
      rcases List.mem_append.mp hi with hi | hi
      · rcases List.mem_append.mp hi with hi | hi
        · exact hlive .weightHead i hi
        · exact hlive .weightedPositive i hi
      · exact hlive .weightedNegative i hi
    simpa [Draft.parts?_true] using hsome

theorem Tidy.isTracked (h : f.Tidy log) {role : Role} {i : Nat} (hp : f.draft.Plays b role i) :
    f.draft.IsTracked b role :=
  (h.mirrors.tracked b role i hp).resolve_right fun hno => hno.2

theorem Tidy.rule_checked (h : f.Tidy log) {r : Rule} (hr : r ∈ f.draft.liveRules) :
    isStale f.draft r.head r.body = false ∧ isTrivial r = false := by
  obtain ⟨i, hi⟩ := Draft.mem_liveRules.mp hr
  refine ⟨isStale_eq_false (fun x hx => ?_) fun l hl => ?_, (h.trim.rules i r hi).2.2⟩
  · refine h.isTracked (Draft.plays_of_rule? hi ?_)
    exact List.mem_append_left _ (List.mem_map.mpr ⟨x, hx, rfl⟩)
  · refine h.isTracked (Draft.plays_of_rule? hi ?_)
    exact List.mem_append_right _ (List.mem_map.mpr ⟨l, hl, rfl⟩)

/-- Only a bare choice is trivial. -/
theorem Tidy.weightRule_checked (h : f.Tidy log) {r : WeightRule}
    (hr : r ∈ f.draft.liveWeightRules) :
    isStale f.draft r.head (r.body.map Prod.fst) = false ∧
      (isTrivialWeight r = true ↔ r.choice = true ∧ r.head = []) := by
  obtain ⟨i, hi⟩ := Draft.mem_liveWeightRules.mp hr
  have htrim := h.trim.weightRules i r hi
  refine ⟨isStale_eq_false (fun x hx => ?_) fun l hl => ?_, ?_⟩
  · have hp := h.isTracked (Draft.plays_of_weightRule? hi
      (List.mem_append_left _ (List.mem_map.mpr ⟨x, hx, rfl⟩)))
    exact hp.imp_right fun hc => ⟨hc.1, rfl⟩
  · obtain ⟨e, he, rfl⟩ := List.mem_map.mp hl
    have hp := h.isTracked (Draft.plays_of_weightRule? hi
      (List.mem_append_right _ (List.mem_map.mpr ⟨e, he, rfl⟩)))
    refine hp.imp_right fun hc => ⟨hc.1, ?_⟩
    have hsame : e.1.role.isNegative = e.1.weightRole.isNegative := by
      unfold Literal.role Literal.weightRole
      split <;> rfl
    rw [hsame]
    exact hc.2
  · have hlower : ¬r.lower ≤ 0 := not_le.mpr htrim.unreached
    have htotal : ¬r.total < r.lower := not_lt.mpr htrim.reachable
    have hsingle := htrim.single
    unfold isTrivialWeight
    simp only [hlower, htotal, decide_false, Bool.false_or, Bool.or_eq_true, Bool.and_eq_true,
      List.isEmpty_iff, Bool.not_eq_true', beq_iff_eq]
    tauto

end Checking

/-- What a run that succeeds ends in is a fixpoint just if no weight rule is left that is a choice
between no atoms; and such a rule was observed as it is. -/
theorem isFixpoint_run_iff (hw : ∀ o ∈ log, o.HasNonnegWeights)
    (h : (((ofDraft (Draft.ofReplay log)).assumeFalse never).assumeCautious always).run = .ok g) :
    (g.isFixpoint = true ↔
      ∀ r ∈ g.draft.liveWeightRules, ¬(r.choice = true ∧ r.head = [])) ∧
      ∀ r ∈ g.draft.liveWeightRules, r.choice = true → r.head = [] →
        Observation.weightRule r ∈ log := by
  have hcollected : (Draft.ofReplay log).Collected ⟨Set.univ, False⟩ :=
    Draft.collected_ofReplay hw False.elim fun _ _ _ _ _ _ => Set.mem_univ _
  obtain ⟨htrue, hfalse, hcautious⟩ := (completes_of_run_eq_ok hcollected h).2.queues
  have htidy := tidy_of_run_eq_ok h
  constructor
  · have hentries : (g.draft.entries.all fun e =>
        e.occurrences.rules.all (fun i => (g.draft.rule? i).isSome) &&
          e.occurrences.weightRules.all fun i => (g.draft.weightRule? i).isSome) = true := by
      rw [Array.all_eq_true_iff_forall_mem]
      intro e he
      obtain ⟨b, rfl⟩ := entry_of_mem_entries he
      rw [Bool.and_eq_true, List.all_eq_true, List.all_eq_true]
      exact htidy.recorded b
    have hrules : (g.draft.liveRules.all fun r =>
        !isStale g.draft r.head r.body && !isTrivial r) = true := by
      rw [List.all_eq_true]
      intro r hr
      obtain ⟨hstale, htrivial⟩ := htidy.rule_checked hr
      rw [hstale, htrivial]
      rfl
    unfold isFixpoint
    rw [hentries, hrules, htrue, hfalse, hcautious]
    simp only [List.isEmpty_nil, Bool.and_self, Bool.true_and, List.all_eq_true]
    refine forall₂_congr fun r hr => ?_
    obtain ⟨hstale, htrivial⟩ := htidy.weightRule_checked hr
    rw [hstale, ← htrivial]
    simp
  · intro r hr hchoice hnil
    obtain ⟨i, hi⟩ := Draft.mem_liveWeightRules.mp hr
    exact (htidy.trim.weightRules i r hi).bare hchoice hnil

theorem isFixpoint_run_iff_sampleLog : ∃ g,
    (((ofDraft (Draft.ofReplay sampleLog)).assumeFalse [2]).assumeCautious [1]).run = .ok g ∧
      g.isFixpoint = true := by
  have hok : (((ofDraft (Draft.ofReplay sampleLog)).assumeFalse [2]).assumeCautious [1]).run.isOk
      = true := by decide +kernel
  have hend := fun g => @isFixpoint_run_iff g sampleLog [2] [1] (by decide)
  generalize (((ofDraft (Draft.ofReplay sampleLog)).assumeFalse [2]).assumeCautious [1]).run = x
    at hok hend ⊢
  cases x with
  | error e => exact absurd hok (by simp [Except.isOk, Except.toBool])
  | ok g =>
      obtain ⟨hiff, hobserved⟩ := hend g rfl
      refine ⟨g, rfl, hiff.mpr fun r hr hbare => ?_⟩
      have hmem := hobserved r hr hbare.1 hbare.2
      simp only [sampleLog, List.mem_cons, reduceCtorEq, Observation.weightRule.injEq,
        List.not_mem_nil, or_false, false_or] at hmem
      exact absurd hbare.2 (by simp [hmem])

/-- A sum that may be reached, with nothing to choose if it is. -/
def bareLog : List Observation := [.weightRule ⟨true, [], 1, [(.positive 1, 1)]⟩]

/-- The choice between no atoms stays, although it says nothing. -/
theorem not_isFixpoint_run_bareLog : (∀ o ∈ bareLog, o.HasNonnegWeights) ∧ ∃ g,
    (((ofDraft (Draft.ofReplay bareLog)).assumeFalse []).assumeCautious []).run = .ok g ∧
      g.isFixpoint = false := by
  obtain ⟨g, hrun, hrest⟩ := exists_ok_of_any
    (x := (((ofDraft (Draft.ofReplay bareLog)).assumeFalse []).assumeCautious []).run)
    (f := (!·.isFixpoint)) (by decide +kernel)
  exact ⟨by decide, g, hrun, by simpa using hrest⟩

end Fitting

end StablePlan
