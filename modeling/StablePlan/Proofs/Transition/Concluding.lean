import StablePlan.Proofs.Transition.Deriving

/-!
A run infers all that follows, and nothing else. To settle an atom adds no knowledge of its own, so
whatever closed knowledge a run starts in contains all that it ends with, and what it ends with is
closed. A run fails where what it starts with is part of no closed knowledge.
-/

namespace StablePlan.Fitting

variable {d : Draft} {f g g' : Fitting} {freed freed' : List Nat} {K L T : Knowledge} {S : Scope}
  {log : List Observation} {a b i : Nat} {value : Bool} {goal : Resolution} {x : Step}

/-! ### Settling -/

theorem resolution_record_eq (hm : f.draft.isMentioned a) (b : Nat) :
    (f.record a goal).draft.resolution b = if b = a then some goal else f.draft.resolution b := by
  unfold record Draft.resolution
  rw [Draft.entry_setEntry]
  by_cases hb : b = a
  · rw [if_pos ⟨hb, Draft.lt_of_isMentioned hm⟩, if_pos hb]
  · rw [if_neg fun h => hb h.1, if_neg hb]

/-- To resolve an atom that waits for it changes nothing of what is known. -/
theorem known_record (hm : f.draft.isMentioned a) (hopen : f.IsOpenFor goal a)
    (hfact : goal = .on → a ∈ f.facts) :
    (f.record a goal).known = (f.requeue goal a).known := by
  have hfacts : (f.record a goal).facts = f.facts := rfl
  have hfalse : (f.record a goal).falseQueue = f.falseQueue := rfl
  have hcautious : (f.record a goal).cautiousQueue = f.cautiousQueue := rfl
  funext known b
  rw [Bool.eq_iff_iff]
  cases known with
  | on => rw [known_on_iff, known_on_iff, hfacts, facts_requeue]
  | off =>
      rw [known_off_iff, known_off_iff, draft_requeue, mem_falseQueue_requeue,
        resolution_record_eq hm, hfalse]
      by_cases hb : b = a
      · subst hb
        rcases hopen with hnone | ⟨hc, rfl⟩
        · simp [hnone]
        · simp [hc]
      · simp [hb]
  | cautious =>
      rw [known_cautious_iff, known_cautious_iff, draft_requeue, mem_cautiousQueue_requeue,
        facts_requeue, resolution_record_eq hm, hcautious, hfacts]
      by_cases hb : b = a
      · subst hb
        rcases hopen with hnone | ⟨hc, rfl⟩
        · cases goal with
          | on => simp [hfact rfl]
          | off => simp [hnone]
          | cautious => simp
        · simp [hfact rfl]
      · simp [hb]

theorem isSettled_le_record (hm : f.draft.isMentioned a) (hopen : f.IsOpenFor goal a) :
    f.isSettled ≤ (f.record a goal).isSettled := by
  refine Knowledge.le_iff.mpr fun known b => ?_
  by_cases hb : b = a
  · subst hb
    rcases hopen with hnone | ⟨hc, rfl⟩
    · simp [isSettled, hnone]
    · simp [isSettled, hc, resolution_record_eq hm]
      rintro rfl
      simp
  · simp [isSettled, resolution_record_eq hm, hb]

/-- An atom that still needs a rule is not the one that is decided. -/
theorem supported_record (hs : Supported d (f.requeue goal a)) (hm : f.draft.isMentioned a)
    (hopen : f.IsOpenFor goal a) : Supported d (f.record a goal) := by
  intro b hhead hneeds
  obtain ⟨hexternal, hfact, hdecided⟩ := hneeds
  unfold isDecided at hdecided
  rw [resolution_record_eq hm] at hdecided
  have hdiffers : ¬(goal = .off ∧ b = a) := by
    rintro ⟨rfl, rfl⟩
    simp at hdecided
  have hneeds : (f.requeue goal a).NeedsRule b := by
    refine ⟨by rwa [draft_requeue], by rwa [facts_requeue], ?_⟩
    rw [draft_requeue]
    unfold isDecided
    split at hdecided
    · rename_i hba
      subst hba
      rcases hopen with hnone | ⟨hc, -⟩
      · simp [hnone]
      · simp [hc]
    · exact hdecided
  refine (hs b hhead hneeds).imp (fun hq => ?_) fun hrule => ?_
  · exact (mem_falseQueue_requeue.mp hq).resolve_left hdiffers
  · rwa [draft_requeue] at hrule

theorem founded_record (hw : d.Weighs) (h : Founded d (f.requeue goal a))
    (hm : f.draft.isMentioned a) (hopen : f.IsOpenFor goal a) (hfact : goal = .on → a ∈ f.facts) :
    Founded d (f.record a goal) := by
  obtain ⟨hexternals, hgiven, hderived, hon, hwaits⟩ := h
  have hsame : (f.requeue goal a).isSettled = f.isSettled :=
    isSettled_congr fun b => by rw [draft_requeue]
  rw [draft_requeue] at hexternals hon hwaits
  rw [facts_requeue] at hgiven hon hwaits
  rw [hsame, facts_requeue] at hderived
  refine ⟨hexternals, hgiven, fun b hb =>
    (hderived b hb).imp_right (.mono hw (isSettled_le_record hm hopen)), fun b hb => ?_,
    fun b hb => ?_⟩
  · rw [resolution_record_eq hm] at hb
    split at hb
    · rename_i hba
      exact hba ▸ hfact (Option.some.inj hb)
    · exact hon b hb
  · rw [resolution_record_eq hm]
    rcases hwaits b hb with hq | hon
    · rcases mem_trueQueue_requeue.mp hq with ⟨rfl, rfl⟩ | hq
      · exact Or.inr (if_pos rfl)
      · exact Or.inl hq
    · refine Or.inr ?_
      split
      · rename_i hba
        subst hba
        rcases hopen with hnone | ⟨hc, rfl⟩
        · exact absurd (hnone.symm.trans hon) (by simp)
        · rfl
      · exact hon

theorem accounted_record (hw : d.Weighs) (h : Accounted d freed (f.requeue goal a))
    (hm : f.draft.isMentioned a) (hopen : f.IsOpenFor goal a) (hfact : goal = .on → a ∈ f.facts) :
    Accounted d freed (f.record a goal) := by
  obtain ⟨hlive, haccounts, hsupported, hfounded⟩ := h
  have hsame : (f.requeue goal a).isSettled = f.isSettled :=
    isSettled_congr fun b => by rw [draft_requeue]
  have hle := isSettled_le_record hm hopen
  rw [hsame, draft_requeue] at hlive haccounts
  exact ⟨(hlive.mono hw hle (consistent_isSettled _)).entries,
    (haccounts.mono hw hle (known_record hm hopen hfact).ge).entries,
    supported_record hsupported hm hopen, founded_record hw hfounded hm hopen hfact⟩

/-- No closed knowledge has what contradicts a resolution. -/
theorem not_within_of_conflict {r : Resolution} (h : Founded d (f.requeue goal a))
    (hfact : goal = .on → a ∈ f.facts) (hr : f.draft.resolution a = some r)
    (hconflict : r = .off ∧ goal ≠ .off ∨ r ≠ .off ∧ goal = .off) (hT : d.Closed T) :
    ¬(f.requeue goal a).known ≤ T := by
  intro hf
  have hmem : r = .off ∨ goal = .off → T .off a := by
    intro hoff
    refine hf .off a (known_off_iff.mpr ?_)
    rw [draft_requeue, mem_falseQueue_requeue]
    rcases hoff with rfl | rfl
    · exact Or.inl hr
    · exact Or.inr (Or.inl ⟨rfl, rfl⟩)
  have hnot : r ≠ .off ∨ goal ≠ .off → T .cautious a := by
    intro hon
    refine hf .cautious a (known_cautious_iff.mpr ?_)
    rw [draft_requeue, mem_cautiousQueue_requeue, facts_requeue]
    rcases hon with hne | hne
    · cases r <;> simp_all
    · cases goal <;> simp_all
  rcases hconflict with ⟨hoff, hne⟩ | ⟨hne, hoff⟩
  · exact hT.consistent.apart a (hmem (Or.inl hoff)) (hnot (Or.inr hne))
  · exact hT.consistent.apart a (hmem (Or.inr hoff)) (hnot (Or.inl hne))

theorem playsIn_of_record (htidy : f.Tidy log) (h : Accounted d freed (f.requeue goal a))
    {role : Role} (hi : i ∈ f.draft.record b role) : PlaysIn d freed b role i := by
  have hlive := h.descends
  rw [draft_requeue] at hlive
  exact playsIn_of_plays hlive ((htidy.mirrors.record b role i).mp hi).2

theorem infersOrFails_resolve (hw : d.Weighs) (hm : f.draft.isMentioned a) (htidy : f.Tidy log)
    (hgoal : goal = if value then .on else .off) (hsettled : f.draft.resolution a ≠ some goal)
    (hfact : goal = .on → a ∈ f.facts) (h : Accounted d freed (f.requeue goal a)) :
    InfersOrFails d freed (f.requeue goal a) (f.resolve a value) := by
  have hopened : f.IsOpenFor goal a → InfersOrFails d freed (f.requeue goal a)
      ((f.record a goal).propagate a value) := by
    intro hopen
    have hacc := accounted_record hw h hm hopen hfact
    have hknown := known_record hm hopen hfact
    refine (infersOrFails_propagate hw
      ((resolution_record hm).trans (congrArg some hgoal)) (htidy.mirrors_record hm hgoal)
      ⟨htidy.trim.rules, htidy.trim.weightRules⟩ hacc fun role i hi => ?_).of_known hknown.ge
        fun T _ hf => hknown.le.trans hf
    unfold Draft.record at hi
    rw [occurrences_record] at hi
    exact playsIn_of_record htidy h hi
  unfold resolve
  rw [mention_eq hm]
  dsimp only
  rw [← hgoal]
  cases hr : f.draft.resolution a with
  | none => exact hopened (Or.inl hr)
  | some r =>
      have hne : r ≠ goal := fun h => hsettled (hr.trans (congrArg some h))
      dsimp only
      rw [if_neg hne]
      split
      · rename_i hcautious
        obtain ⟨rfl, rfl⟩ : r = .cautious ∧ value = true := by simpa using hcautious
        exact hopened (Or.inr ⟨hr, hgoal⟩)
      · rename_i hcautious
        refine fun T hT => not_within_of_conflict h.stands.founded hfact hr ?_ hT
        subst hgoal
        cases r <;> cases value <;> simp_all

theorem infersOrFails_caution (hw : d.Weighs) (hm : f.draft.isMentioned a) (htidy : f.Tidy log)
    (hsettled : f.isSettled .cautious a = false)
    (h : Accounted d freed (f.requeue .cautious a)) :
    InfersOrFails d freed (f.requeue .cautious a) (f.caution a) := by
  have hfact : Resolution.cautious = .on → a ∈ f.facts := fun hno => absurd hno (by simp)
  unfold caution
  rw [mention_eq hm]
  dsimp only
  split
  · rename_i hoff
    exact fun T hT => not_within_of_conflict h.stands.founded hfact hoff
      (Or.inl ⟨rfl, by simp⟩) hT
  · rename_i r hoff hr
    unfold isSettled at hsettled
    rw [hr] at hsettled
    cases r <;> simp_all
  · rename_i hnone
    rw [occurrences_record]
    have hopen : f.IsOpenFor .cautious a := Or.inl hnone
    have hacc : Accounted d freed (f.markCautious a) :=
      (accounted_record hw h hm hopen hfact).mapOccurrences hw a _
    have hresolution : ∀ b, (f.markCautious a).draft.resolution b =
        (f.record a .cautious).draft.resolution b := fun b =>
      Draft.resolution_mapOccurrences _ a b _
    have hmarked : (f.markCautious a).known = (f.requeue .cautious a).known := by
      rw [← known_record hm hopen hfact]
      exact le_antisymm
        (known_mono (fun b => (hresolution b).symm) (fun _ => id) (fun _ => id) fun _ => id)
        (known_mono hresolution (fun _ => id) (fun _ => id) fun _ => id)
    have hfails : (literalOf a false).isPositive = false →
        (literalOf a false).FailsBy (f.markCautious a).isSettled := by
      intro hsign
      unfold Literal.FailsBy
      rw [hsign, atom_literalOf]
      exact isSettled_cautious_iff.mpr (Or.inl (resolution_markCautious hm))
    have hstart := htidy.tidies_markCautious hm hnone
    refine InfersOrFails.of_known (g := f.markCautious a) ?_ hmarked.ge
      fun T _ hf => hmarked.le.trans hf
    have hretire := infersOrFails_foldlM hstart hacc (clears_retire rfl)
      (stepInfers_retire hw hfails) fun i hi => playsIn_of_record htidy h hi
    rw [foldlM_retire] at hretire
    have hrest := hstart.foldlM (clears_retire rfl) (foldlM_retire _ _)
    refine InfersOrFails.bind (k := fun g => (f.draft.occurrences a).weightedNegative.foldlM
      (falsifyWeight (.negative a)) g) hretire fun g freed' hfreed hok hg => ?_
    obtain rfl := Except.ok.inj hok
    exact infersOrFails_foldlM hrest hg
      (clears_falsifyWeight (not_isTracked_markCautious hm) (by simp [signWeightRole]))
      (stepInfers_falsifyWeight hw hfails (not_isTracked_markCautious hm)
        (by simp [signWeightRole]))
      fun i hi => (playsIn_of_record htidy h hi).mono hfreed

theorem infersOrFails_settle (hw : d.Weighs) (hm : f.draft.isMentioned a) (htidy : f.Tidy log)
    (hsettled : f.isSettled goal a = false) (hfact : goal = .on → a ∈ f.facts)
    (h : Accounted d freed (f.requeue goal a)) :
    InfersOrFails d freed (f.requeue goal a) (f.settle goal a) := by
  cases goal with
  | on =>
      refine infersOrFails_resolve hw hm htidy rfl (fun hr => ?_) hfact h
      simp [isSettled, hr] at hsettled
  | off =>
      refine infersOrFails_resolve hw hm htidy rfl (fun hr => ?_) hfact h
      simp [isSettled, hr] at hsettled
  | cautious => exact infersOrFails_caution hw hm htidy hsettled h

/-! ### Runs -/

/-- What has left the queues was known by its resolution. -/
theorem Skims.known_eq (h : f.Skims g) : g.known = f.known := by
  have hresolution : ∀ b, g.draft.resolution b = f.draft.resolution b := fun b => by rw [h.draft]
  refine le_antisymm ?_ (Knowledge.le_iff.mpr fun goal b => ?_)
  · exact known_mono (fun b => (hresolution b).symm) (fun b hb => h.facts ▸ hb)
      (fun b => (h.fewer b).2.1) fun b => (h.fewer b).2.2
  · cases goal with
    | on =>
        rw [known_on_iff, known_on_iff, h.facts]
        exact id
    | off =>
        rw [known_off_iff, known_off_iff, h.draft]
        rintro (hb | hb)
        · exact Or.inl hb
        · exact (h.falseQueue b hb).imp_left isSettled_off_iff.mp
    | cautious =>
        rw [known_cautious_iff, known_cautious_iff, h.draft, h.facts]
        rintro (hb | hb | hb)
        · exact Or.inl hb
        · exact (h.cautiousQueue b hb).imp isSettled_cautious_iff.mp Or.inl
        · exact Or.inr (Or.inr hb)

theorem Skims.accounted (hskims : f.Skims g) (h : Accounted d freed f) : Accounted d freed g := by
  have hresolution : ∀ b, g.draft.resolution b = f.draft.resolution b := fun b => by
    rw [hskims.draft]
  have hexternals : g.draft.externals = f.draft.externals := by rw [hskims.draft]
  have hsame : g.isSettled = f.isSettled := isSettled_congr hresolution
  refine ⟨?_, ?_, fun b hhead hneeds => ?_, h.stands.founded.congr hexternals hskims.facts
    hresolution fun b hb => (hskims.trueQueue b hb).symm.imp_right isSettled_on_iff.mp⟩
  · rw [hsame, hskims.draft]
    exact h.descends
  · rw [hsame, hskims.draft, hskims.known_eq]
    exact h.stands.accounts
  · have hneeds := (needsRule_congr hexternals hskims.facts (hresolution b)).mp hneeds
    rw [hskims.draft]
    refine (h.stands.supported b hhead hneeds).imp_left fun hq => ?_
    refine (hskims.falseQueue b hq).resolve_left fun hoff => ?_
    have hdecided := decides_isSettled_iff.mp (Knowledge.decides_iff.mpr (Or.inr hoff))
    simp [hneeds.2.2] at hdecided

/-- The next atom is settled, which infers what follows from it, and leaves nothing pending. -/
theorem infersOrFails_of_next? (hw : d.Weighs) (hf : f.Coherent S) (htidy : f.Tidy log)
    (hacc : Accounted d freed f) (hnext : f.next? = some (goal, a, g)) :
    InfersOrFails d freed f (g.settle goal a) := by
  obtain ⟨hskims, hsettled⟩ := skims_of_next?_eq_some hnext
  have hcoherent := hskims.coherent hf
  have hdraft : g.draft = f.draft := by simpa using hskims.draft
  have hfact : goal = .on → a ∈ g.facts := by
    intro hgoal
    have hmem := hcoherent.facts a (mem_trueQueue_requeue.mpr (Or.inl ⟨hgoal, rfl⟩))
    rwa [facts_requeue] at hmem
  exact (infersOrFails_settle hw hcoherent.of_requeue.2 (htidy.of_draft hdraft) hsettled hfact
    (hskims.accounted hacc)).of_known hskims.known_eq.ge fun _ _ hf => hskims.known_eq.le.trans hf

/-- A run infers all that follows, or fails where what it starts from is part of no closed
knowledge. -/
theorem Runs.infersOrFails (h : Runs f x) (hw : d.Weighs) (hf : f.Coherent S) (htidy : f.Tidy log)
    (hacc : Accounted d freed f) : InfersOrFails d freed f x := by
  induction h generalizing freed with
  | @done f hnext =>
      have hskims := skims_of_next?_eq_none hnext
      have hend : InfersOrFails d freed _ (.ok _) := (hskims.accounted hacc).infers
      exact hend.of_known hskims.known_eq.ge fun _ _ hf => hskims.known_eq.le.trans hf
  | @fail f g goal a e hnext hsettle =>
      exact hsettle ▸ infersOrFails_of_next? hw hf htidy hacc hnext
  | @step f g g' goal a x hnext hsettle _ ih =>
      obtain ⟨hskims, hsettled⟩ := skims_of_next?_eq_some hnext
      obtain ⟨hg, hm⟩ := (hskims.coherent hf).of_requeue
      have hsettles := settles_settle hg hm hsettled
      have hstep := infersOrFails_of_next? hw hf htidy hacc hnext
      rw [hsettle] at hsettles hstep
      have hinfers : Infers d freed f g' := hstep
      exact hinfers.infersOrFails fun freed' _ hacc' =>
        ih (Settles.coherent hsettles) (htidy.next hnext hsettle) hacc'

end StablePlan.Fitting
