import StablePlan.Proofs.Transition.Inferring

/-!
The steps of a fitting infer. Where a rule is left with no more than one atom or literal, it says
what that has to be. The rule of the draft that it comes from is left with no more than that by any
closed knowledge that contains what is known, so that this knowledge has it already. It does not
matter which atoms were known first, or that the rule was a weight rule when they were.
-/

namespace StablePlan.Fitting

variable {d : Draft} {f g g' : Fitting} {freed freed' : List Nat} {K L T : Knowledge}
  {log : List Observation} {a b i : Nat} {value : Bool} {l : Literal} {W V : Role → Nat → Prop}
  {role : Role} {roles : List Role}

/-! ### One rule -/

theorem Retires.queueTrue (h : Retires d freed (f.queueTrue b).known (f.queueTrue b) g)
    (hw : d.Weighs) (hb : ∀ T, d.Closed T → f.known ≤ T → T .on b) : Infers d freed f g := by
  have hg := h.infers hw
  refine ⟨hg.accounted, (known_le_queueTrue f b).trans hg.grows, fun T hT hf => ?_⟩
  exact hg.within T hT (known_queueTrue_le hT.consistent hf (hb T hT hf))

/-- A rule is dropped that says that a literal fails. -/
theorem Retires.constrain (h : Retires d freed (f.constrain l).known f g) (hw : d.Weighs)
    (hl : ∀ T, d.Closed T → f.known ≤ T → l.FailsBy T) : Infers d freed f (g.constrain l) := by
  have hgrows := h.grows.trans (known_le_constrain g l)
  refine ⟨⟨freed, List.prefix_rfl, ?_, ?_⟩, hgrows, fun T hT hf => ?_⟩
  · rw [isSettled_constrain, draft_constrain]
    exact h.descends
  · exact (h.stands.constrain l).mono hw (known_constrain_le hgrows (failsBy_constrain g l))
  · have hfails := hl T hT hf
    exact known_constrain_le (h.within T hT (known_constrain_le hf hfails) hf) hfails

/-- All rules that a rule may come from are quiet. -/
theorem quiet_of_source? (hT : d.Closed T) (hw : d.Weighs) {e : Draft}
    (hlive : d.Descends freed K e) (hKT : K ≤ T) {r : Rule} (hr : d.source? freed i = some r) :
    r.Quiet T := by
  rcases Draft.source?_cases hr with hr | ⟨j, hj, s, hs, rfl⟩
  · exact hT.rules i r hr
  · have hreached := (hlive.reached_of_mem hj hs).mono (hw j s hs).nonneg hKT
    exact (hT.weightRules j s hs).freed (hw j s hs).nonneg hT.consistent hreached

theorem singles_of_sheds {choice : Bool} {head : List Nat}
    (h : Sheds (Knowledge.OmitsHead K choice) head [b]) (hchoice : choice = false) :
    Draft.Singles K b choice head := by
  refine ⟨hchoice, h.mem_of_mem (List.mem_singleton_self b), fun x hx hne => ?_⟩
  have hlost := (h.mem_or_lost hx).resolve_left fun hmem => hne (List.mem_singleton.mp hmem)
  rw [hchoice] at hlost
  exact hlost

theorem derives_of_leaves {e : Draft} (hlive : d.Descends freed K e) {r s : Rule}
    (hr : d.source? freed i = some r) (hleaves : r.Leaves K s) (hchoice : s.choice = false)
    (hhead : s.head = [b]) (hbody : s.body = []) : d.Derives K b := by
  have hsingle : Draft.Singles K b r.choice r.head :=
    singles_of_sheds (hhead ▸ hleaves.head) (hleaves.choice.symm.trans hchoice)
  rcases Draft.source?_cases hr with hr | ⟨j, hj, q, hq, rfl⟩
  · refine Or.inl ⟨i, r, hr, hsingle, fun l hl => ?_⟩
    exact (hleaves.body.mem_or_lost hl).resolve_left (by simp [hbody])
  · exact Or.inr ⟨j, q, hq, hsingle, hlive.reached_of_mem hj hq⟩

theorem infersOrFails_review (hw : d.Weighs) (h : Accounted d freed f)
    (hm : f.draft.Mirrors log a W) (i : Nat) : InfersOrFails d freed f (f.review i) := by
  unfold review
  split
  · exact h.infers
  · rename_i s hi
    obtain ⟨r, hr, hleaves⟩ := h.descends.rules i s hi
    have hsettled := h.stands.founded.isSettled_le
    have hspent : ∀ {L : Knowledge}, f.known ≤ L → s.spent L →
        ∀ r', d.source? freed i = some r' → r'.spent L := by
      intro L hL hs r' hr'
      obtain rfl := Option.some.inj (hr.symm.trans hr')
      exact hleaves.spent (hsettled.trans hL) hs
    have hquiet : ∀ T, d.Closed T → f.known ≤ T → isTrivial s → s.spent T := fun T hT hf =>
      hleaves.spent_of_quiet (hsettled.trans hf) hT.consistent
        (quiet_of_source? hT hw h.descends (hsettled.trans hf) hr)
    obtain ⟨choice, head, body⟩ := s
    dsimp only
    split
    · refine (retires_retire hw h.descends h.stands hm hi (hspent le_rfl ?_) ?_).infers hw
      · simp [Rule.spent, Knowledge.closesHead]
      · exact fun b => known_on_iff.mp
    · intro T hT hf
      have := hquiet T hT hf rfl
      simp [Rule.spent, Knowledge.closesHead] at this
    · rename_i b
      have hb : d.Derives f.isSettled b := derives_of_leaves h.descends hr hleaves rfl rfl rfl
      have hresolution : ∀ c, (f.queueTrue b).draft.resolution c = f.draft.resolution c :=
        Draft.resolution_mention f.draft b
      have hlive : d.Descends freed (f.queueTrue b).isSettled (f.queueTrue b).draft := by
        rw [isSettled_congr hresolution]
        exact h.descends.entries
      have hmentioned : (f.queueTrue b).draft.Mirrors log a W := hm.mention b
      have hgrows := known_le_queueTrue f b
      have hstands := (h.stands.queueTrue hb).mono hw hgrows
      refine (retires_retire hw hlive hstands hmentioned hi (hspent hgrows ?_) ?_).queueTrue hw ?_
      · simp [Rule.spent, Knowledge.closesHead, queueTrue]
      · exact fun c => known_on_iff.mp
      · intro T hT hf
        have := hquiet T hT hf rfl
        simpa [Rule.spent, Knowledge.closesHead] using this
    · rename_i l
      refine (retires_retire (L := (f.constrain l).known) hw h.descends
        (h.stands.mono hw (known_le_constrain f l)) hm hi
        (hspent (known_le_constrain f l) ?_) ?_).constrain hw ?_
      · simp [Rule.spent, failsBy_constrain]
      · exact fun c hc => facts_constrain f l ▸ known_on_iff.mp hc
      · intro T hT hf
        have := hquiet T hT hf rfl
        simpa [Rule.spent, Knowledge.closesHead] using this
    · exact h.infers

/-! ### One weight rule -/

theorem isHead_pushRule {e : Draft} (r : Rule) (h : e.IsHead b) : (e.pushRule r).IsHead b := by
  rcases h with ⟨i, s, hi, hb⟩ | ⟨j, s, hj, hb⟩
  · refine Or.inl ⟨i, s, ?_, hb⟩
    rw [Draft.rule?_pushRule, if_neg (Draft.lt_of_rule? hi).ne, hi]
  · exact Or.inr ⟨j, s, by rwa [Draft.weightRule?_pushRule], hb⟩

/-- The head of a weight rule is stored as a rule. -/
theorem Stands.free (hs : Stands d freed L f)
    (hsize : f.draft.rules.size = d.rules.size + freed.length) (r : Rule) (i : Nat) :
    Stands d (freed ++ [i]) L { f with draft := f.draft.pushRule r } := by
  have hresolution := (Draft.pushes_pushRule f.draft r).resolution
  have hexternals : (f.draft.pushRule r).externals = f.draft.externals := by
    obtain ⟨entries, hrest⟩ := (Draft.marked_markAll f.draft.rules.size r.parts f.draft).rest
    rw [Draft.pushRule_eq, hrest]
  have hsettled : ({ f with draft := f.draft.pushRule r } : Fitting).isSettled = f.isSettled :=
    isSettled_congr hresolution
  refine ⟨?_, fun b hhead hneeds => ?_, hs.founded.congr hexternals rfl hresolution
    fun _ => Or.inl⟩
  · rw [hsettled]
    exact hs.accounts.free hsize r i
  · have hsame := needsRule_congr (f := f) (g := { f with draft := f.draft.pushRule r })
      hexternals rfl (hresolution b)
    exact (hs.supported b hhead (hsame.mp hneeds)).imp_right (isHead_pushRule r)

theorem known_free (f : Fitting) (r : Rule) :
    ({ f with draft := f.draft.pushRule r } : Fitting).known = f.known := by
  have hresolution := (Draft.pushes_pushRule f.draft r).resolution
  refine le_antisymm ?_ ?_
  · exact known_mono (fun b => (hresolution b).symm) (fun _ => id) (fun _ => id) fun _ => id
  · exact known_mono hresolution (fun _ => id) (fun _ => id) fun _ => id

/-- A weight rule is looked at that comes from one of the draft; where that is a choice between no
atoms, it has lost something. -/
structure Reviews (d : Draft) (freed : List Nat) (f : Fitting) (i : Nat) (r s : WeightRule) :
    Prop where
  here : f.draft.weightRule? i = some s
  others : d.Descends freed f.isSettled (f.draft.withWeightRule i none)
  stands : Stands d freed f.known f
  fresh : i ∉ freed
  source : d.weightRule? i = some r
  leaves : r.Leaves f.isSettled s
  touched : r.choice = true → r.head = [] → Draft.IsTouched f.isSettled r

namespace Reviews

variable {r s : WeightRule}

theorem retires (h : Reviews d freed f i r s) (hw : d.Weighs) (hm : f.draft.Mirrors log a W)
    (hL : f.known ≤ L) (hspent : s.spent L) (hon : ∀ b, L .on b → b ∈ f.facts) :
    Retires d freed L f (f.retireWeight i) :=
  retires_retireWeight hw h.others (h.stands.mono hw hL) hm h.here h.source h.leaves
    (Or.inr (h.leaves.spent (hw i r h.source).nonneg (h.stands.founded.isSettled_le.trans hL)
      hspent)) h.touched hon

/-- If the bound is reached, what is left is quiet, and spent as soon as it is trivial. -/
theorem closesHead (h : Reviews d freed f i r s) (hw : d.Weighs) (hlower : s.lower ≤ 0)
    (hT : d.Closed T) (hf : f.known ≤ T) (hs : isTrivial s.freed) :
    T.closesHead s.choice s.head := by
  have hsettled := h.stands.founded.isSettled_le.trans hf
  have hnonneg := (hw i r h.source).nonneg
  have hreached := h.leaves.reached hnonneg hsettled hlower
  rw [← WeightRule.spent_freed]
  exact h.leaves.freed.spent_of_quiet hsettled hT.consistent
    ((hT.weightRules i r h.source).freed hnonneg hT.consistent hreached) hs

/-- The head of a rule whose bound is reached is derived if it is one atom. -/
theorem infers_fact (h : Reviews d freed f i r s) (hw : d.Weighs)
    (hm : (f.queueTrue b).draft.Mirrors log a W) (hlower : s.lower ≤ 0) (hchoice : s.choice = false)
    (hhead : s.head = [b]) : Infers d freed f ((f.queueTrue b).retireWeight i) := by
  have hnonneg := (hw i r h.source).nonneg
  have hb : d.Derives f.isSettled b := by
    refine Or.inr ⟨i, r, h.source, singles_of_sheds (hhead ▸ h.leaves.head)
      (h.leaves.choice.symm.trans hchoice), ?_⟩
    exact h.leaves.reached hnonneg le_rfl hlower
  have hsame : (f.queueTrue b).isSettled = f.isSettled :=
    isSettled_congr (Draft.resolution_mention f.draft b)
  have hgrows := known_le_queueTrue f b
  have hreviews : Reviews d freed (f.queueTrue b) i r s := by
    refine ⟨h.here, ?_, (h.stands.queueTrue hb).mono hw hgrows, h.fresh, h.source, ?_, ?_⟩ <;>
      rw [hsame]
    · exact h.others.entries
    · exact h.leaves
    · exact h.touched
  refine (hreviews.retires hw hm le_rfl (WeightRule.spent_iff.mpr (Or.inr ?_))
    fun c => known_on_iff.mp).queueTrue hw fun T hT hf => ?_
  · simp [Knowledge.closesHead, hchoice, hhead, queueTrue]
  · have hclosed := h.closesHead hw hlower hT hf (Rule.isTrivial_iff.mpr (by
      simp [WeightRule.freed, hchoice, hhead]))
    simpa [Knowledge.closesHead, hchoice, hhead] using hclosed

theorem infers_free (h : Reviews d freed f i r s) (hw : d.Weighs)
    (hm : (f.draft.pushRule s.freed).Mirrors log a W) (hlower : s.lower ≤ 0) :
    Infers d freed f
      (Fitting.retireWeight { f with draft := f.draft.pushRule s.freed } i) := by
  have hsame := isSettled_congr (f := f) (g := { f with draft := f.draft.pushRule s.freed })
    (Draft.pushes_pushRule f.draft s.freed).resolution
  have hreached := h.leaves.reached (hw i r h.source).nonneg le_rfl hlower
  have hothers : d.Descends (freed ++ [i])
      (Fitting.isSettled { f with draft := f.draft.pushRule s.freed })
      ((f.draft.pushRule s.freed).withWeightRule i none) := by
    rw [hsame]
    exact h.others.free h.source h.fresh hreached h.leaves
  have hg := retires_retireWeight hw hothers (h.stands.free h.others.size s.freed i) hm
    (by rw [Draft.weightRule?_pushRule]; exact h.here) h.source (hsame ▸ h.leaves)
    (Or.inl (List.mem_append_right _ (List.mem_singleton_self i))) (hsame ▸ h.touched)
    fun c => known_on_iff.mp
  have hknown := known_free f s.freed
  obtain ⟨⟨freed', hlonger, hacc⟩, hgrows, hwithin⟩ := (hknown ▸ hg).infers hw
  exact ⟨⟨freed', (List.prefix_append _ _).trans hlonger, hacc⟩, hknown ▸ hgrows,
    fun T hT hf => hwithin T hT (hknown ▸ hf)⟩

theorem infersOrFails_release (h : Reviews d freed f i r s) (hw : d.Weighs)
    (hm : f.draft.Mirrors log a W) (ht : (f.draft.withWeightRule i none).Trim log)
    (hset : s.head.Nodup) (hbare : ¬(s.choice = true ∧ s.head = [])) (hfree : ¬W .weightHead i)
    (hlower : s.lower ≤ 0) : InfersOrFails d freed f
      (f.release s.choice s.head >>= fun g => .ok (g.retireWeight i)) := by
  cases hrelease : f.release s.choice s.head with
  | error e =>
      intro T hT hf
      have hempty : s.choice = false ∧ s.head = [] := by
        unfold release at hrelease
        split at hrelease
        · rename_i hchoice hhead
          exact ⟨hchoice, hhead⟩
        · exact absurd hrelease (by simp)
        · exact absurd hrelease (by simp)
      have hclosed := h.closesHead hw hlower hT hf (Rule.isTrivial_iff.mpr (by
        simp [WeightRule.freed, hempty]))
      simp [Knowledge.closesHead, hempty] at hclosed
  | ok g =>
      obtain ⟨hm', -, -⟩ := tidies_release h.here hm ht hset hbare hfree hrelease
      unfold release at hrelease
      split at hrelease
      · exact absurd hrelease (by simp)
      · rename_i b hchoice hhead
        obtain rfl := Except.ok.inj hrelease
        exact h.infers_fact hw hm' hlower hchoice hhead
      · obtain rfl := Except.ok.inj hrelease
        exact h.infers_free hw hm' hlower

theorem infersOrFails (h : Reviews d freed f i r s) (hw : d.Weighs)
    (hm : f.draft.Mirrors log a W) (ht : (f.draft.withWeightRule i none).Trim log)
    (hset : s.head.Nodup) (hfree : s.lower ≤ 0 → ¬W .weightHead i) :
    InfersOrFails d freed f (f.reviewWeight i) := by
  have hnonneg := (hw i r h.source).nonneg
  unfold reviewWeight
  rw [h.here]
  dsimp only
  split
  · rename_i hbare
    have hbare : s.choice = true ∧ s.head = [] := by simpa using hbare
    refine (h.retires hw hm le_rfl (WeightRule.spent_iff.mpr (Or.inr ?_))
      fun b => known_on_iff.mp).infers hw
    simp [Knowledge.closesHead, hbare]
  · rename_i hbare
    have hbare : ¬(s.choice = true ∧ s.head = []) := by simpa using hbare
    split
    · rename_i hlower
      exact h.infersOrFails_release hw hm ht hset hbare (hfree hlower) hlower
    · split
      · rename_i hlower htotal
        refine (h.retires hw hm le_rfl ?_ fun b => known_on_iff.mp).infers hw
        exact WeightRule.spent_of_total_lt (h.leaves.hasFittingBound (hw i r h.source)) htotal
      · rename_i hlower htotal
        split
        · rename_i l w hchoice hhead hbody
          have hfit := (h.leaves.hasFittingBound (hw i r h.source)).weights
          have hreach : s.lower ≤ w := by
            rw [WeightRule.total, hfit.totalWeight_eq] at htotal
            simpa [hbody] using htotal
          rw [if_pos hreach]
          refine (h.retires hw hm (known_le_constrain f l) (WeightRule.spent_iff.mpr (Or.inl ?_))
            fun c hc => facts_constrain f l ▸ known_on_iff.mp hc).constrain hw fun T hT hf => ?_
          · simp [WeightRule.possible, hbody, failsBy_constrain]
            omega
          · exact h.leaves.failsBy hnonneg (h.stands.founded.isSettled_le.trans hf) hT.consistent
              (hT.weightRules i r h.source) hchoice hhead hbody hreach
        · exact Accounted.infers
            ⟨h.others.keepWeight h.here h.source h.fresh h.leaves hbare, h.stands⟩

end Reviews

/-! ### One role -/

/-- An atom plays a role in a rule of the draft, or in what a weight rule of it left. -/
def PlaysIn (d : Draft) (freed : List Nat) (a : Nat) (role : Role) (i : Nat) : Prop :=
  if role.isWeighted then ∃ r, d.weightRule? i = some r ∧ (a, role) ∈ r.parts
  else ∃ r, d.source? freed i = some r ∧ (a, role) ∈ r.parts

theorem PlaysIn.mono (h : PlaysIn d freed a role i) (hlonger : freed <+: freed') :
    PlaysIn d freed' a role i := by
  unfold PlaysIn at h ⊢
  split
  · rename_i hrole
    rwa [if_pos hrole] at h
  · rename_i hrole
    rw [if_neg hrole] at h
    obtain ⟨r, hr, hmem⟩ := h
    exact ⟨r, Draft.source?_mono hlonger hr, hmem⟩

theorem playsIn_of_plays {e : Draft} (hlive : d.Descends freed K e) (hp : e.Plays a role i) :
    PlaysIn d freed a role i := by
  obtain ⟨parts, hparts, hmem⟩ := hp
  unfold PlaysIn
  cases hrole : role.isWeighted with
  | true =>
      rw [hrole, Draft.parts?_true] at hparts
      obtain ⟨s, hs, rfl⟩ := Option.map_eq_some_iff.mp hparts
      obtain ⟨-, r, hr, hleaves, -⟩ := hlive.weightRules i s hs
      refine ⟨r, hr, ?_⟩
      simp only [WeightRule.parts, List.mem_append, List.mem_map] at hmem ⊢
      rcases hmem with ⟨x, hx, h⟩ | ⟨e, he, h⟩
      · exact Or.inl ⟨x, hleaves.head.mem_of_mem hx, h⟩
      · exact Or.inr ⟨e, hleaves.sheds.mem_of_mem he, h⟩
  | false =>
      rw [hrole, Draft.parts?_false] at hparts
      obtain ⟨s, hs, rfl⟩ := Option.map_eq_some_iff.mp hparts
      obtain ⟨r, hr, hleaves⟩ := hlive.rules i s hs
      refine ⟨r, hr, ?_⟩
      simp only [Rule.parts, List.mem_append, List.mem_map] at hmem ⊢
      rcases hmem with ⟨x, hx, h⟩ | ⟨l, hl, h⟩
      · exact Or.inl ⟨x, hleaves.head.mem_of_mem hx, h⟩
      · exact Or.inr ⟨l, hleaves.body.mem_of_mem hl, h⟩

/-- A step infers what follows, whatever is still pending in its role and later ones. -/
def StepInfers (d : Draft) (log : List Observation) (a : Nat) (role : Role) (roles : List Role)
    (f : Fitting) (step : Fitting → Nat → Step) : Prop :=
  ∀ V : Role → Nat → Prop, (∀ role' j, V role' j → role' ∈ role :: roles) → ∀ g freed i,
    Tidies log a V f g → Accounted d freed g → PlaysIn d freed a role i →
      InfersOrFails d freed g (step g i)

theorem infersOrFails_foldlM {o : Occurrences} {step : Fitting → Nat → Step}
    (ht : Tidies log a (Pending o (role :: roles)) f g) (h : Accounted d freed g)
    (hclears : Clears log a role roles f step) (hstep : StepInfers d log a role roles f step)
    (hplays : ∀ i ∈ o.of role, PlaysIn d freed a role i) :
    InfersOrFails d freed g ((o.of role).foldlM step g) := by
  suffices hfold : ∀ is, (∀ i ∈ is, PlaysIn d freed a role i) → ∀ g,
      Tidies log a (Left o role roles is) f g → ∀ freed', freed <+: freed' →
        Accounted d freed' g → InfersOrFails d freed' g (is.foldlM step g) from
    hfold _ hplays g ht.left freed List.prefix_rfl h
  -- Weight rules that are freed on the way add rules at the end, so the ones to come stay in place.
  intro is
  induction is with
  | nil => exact fun _ g _ freed' _ hg => hg.infers
  | cons i is ih =>
      intro hplays g ht freed' hlonger hg
      rw [List.foldlM_cons]
      have hi := (hplays i (by simp)).mono hlonger
      refine (hstep _ (fun _ _ => Left.mem_roles) g freed' i ht hg hi).bind
        fun g' freed'' hlonger' hok hg' => ?_
      exact ih (fun j hj => hplays j (by simp [hj])) g' (ht.advance hclears hok) freed''
        (hlonger.trans hlonger') hg'

/-! ### The steps -/

section Steps

variable (hw : d.Weighs)

/-- A rule loses something that is known, and no atom from the head that is open. -/
theorem Accounted.set {s s' : Rule} (h : Accounted d freed f) (hi : f.draft.rule? i = some s)
    (hs : ∀ r, d.source? freed i = some r → r.Leaves f.isSettled s → r.Leaves f.isSettled s')
    (hheads : ∀ x ∈ s.head, x ∈ s'.head ∨ isDecided f.draft x) :
    Accounted d freed (f.setRule i (some s')) := by
  refine ⟨h.descends.set hi hs, h.stands.accounts.set s', fun b hhead hneeds => ?_,
    h.stands.founded.externals, h.stands.founded.given, h.stands.founded.derived,
    h.stands.founded.on, h.stands.founded.waits⟩
  refine (h.stands.supported b hhead hneeds).imp_right fun hrule => ?_
  refine (hrule.withRule hi (some s')).resolve_right fun ⟨hb, hlost⟩ => hlost s' rfl ?_
  have hopen : isDecided f.draft b = false := hneeds.2.2
  exact (hheads b hb).resolve_right (by simp [hopen])

theorem Accounted.reviews {r s s' : WeightRule} (h : Accounted d freed f)
    (hi : f.draft.weightRule? i = some s) (hr : d.weightRule? i = some r)
    (hs : r.Leaves f.isSettled s → r.Leaves f.isSettled s')
    (htouched : r.choice = true → r.head = [] → Draft.IsTouched f.isSettled r)
    (hheads : ∀ x ∈ s.head, x ∈ s'.head ∨ isDecided f.draft x) :
    Reviews d freed (f.setWeightRule i (some s')) i r s' := by
  have hleaves := h.descends.weightLeaves hi hr
  have hfreed := (h.descends.weightRules i s hi).1
  refine ⟨?_, h.descends.setWeight _, ⟨h.stands.accounts.setWeight s', fun b hhead hneeds => ?_,
    h.stands.founded.externals, h.stands.founded.given, h.stands.founded.derived,
    h.stands.founded.on, h.stands.founded.waits⟩, hfreed, hr, hs hleaves, htouched⟩
  · change (f.draft.withWeightRule i (some s')).weightRule? i = some s'
    rw [Draft.weightRule?_withWeightRule, if_pos ⟨rfl, Draft.lt_of_weightRule? hi⟩]
  · refine (h.stands.supported b hhead hneeds).imp_right fun hrule => ?_
    refine (hrule.withWeightRule hi (some s')).resolve_right fun ⟨hb, hlost⟩ => hlost s' rfl ?_
    have hopen : isDecided f.draft b = false := hneeds.2.2
    exact (hheads b hb).resolve_right (by simp [hopen])

theorem omitsHead_of_resolution (h : f.draft.resolution a = some (if value then .on else .off))
    {choice : Bool} (hvalue : ¬(value && !choice) = true) :
    Knowledge.OmitsHead f.isSettled choice a := by
  unfold Knowledge.OmitsHead
  cases choice with
  | true =>
      refine Knowledge.decides_iff.mpr ?_
      rw [isSettled_on_iff, isSettled_off_iff, h]
      cases value <;> simp
  | false =>
      obtain rfl : value = false := by simpa using hvalue
      exact isSettled_off_iff.mpr h

theorem isDecided_of_resolution
    (h : f.draft.resolution a = some (if value then .on else .off)) :
    isDecided f.draft a := by
  unfold isDecided
  rw [h]
  cases value <;> simp

theorem mem_erase_or_isDecided (h : f.draft.resolution a = some (if value then .on else .off))
    {head : List Nat} : ∀ x ∈ head, x ∈ head.erase a ∨ isDecided f.draft x := by
  intro x hx
  rcases Clause.mem_or_eq_of_erase a hx with hmem | rfl
  · exact Or.inl hmem
  · exact Or.inr (isDecided_of_resolution h)

include hw

theorem stepInfers_resolveHead
    (hres : f.draft.resolution a = some (if value then .on else .off)) :
    StepInfers d log a .head roles f (resolveHead a value) := by
  intro V _ g freed i hg h hplays
  have hres := (hg.resolution a).trans hres
  unfold resolveHead
  split
  · exact h.infers
  · rename_i s hi
    have htrim := hg.trim.rules i s hi
    obtain ⟨r, hr, hmem⟩ := hplays
    have hleaves := h.descends.leaves hi hr
    split
    · rename_i hvalue
      obtain ⟨rfl, hchoice⟩ : value = true ∧ s.choice = false := by simpa using hvalue
      refine (retires_retire hw h.descends h.stands hg.mirrors hi (fun q hq => ?_)
        fun b => known_on_iff.mp).infers hw
      obtain rfl := Option.some.inj (hr.symm.trans hq)
      refine Rule.spent_iff.mpr (Or.inr ?_)
      have hon := h.stands.founded.on a hres
      simp only [Knowledge.closesHead, hleaves.choice.symm.trans hchoice, Bool.false_eq_true,
        if_false, List.any_eq_true, known_on_iff]
      exact ⟨a, mem_head_of_mem_parts hmem, hon⟩
    · rename_i hvalue
      have hset : Accounted d freed (g.setRule i (some { s with head := s.head.erase a })) := by
        refine h.set hi (fun q _ hq => ?_) (mem_erase_or_isDecided hres)
        exact hq.eraseHead htrim.1 (hq.choice ▸ omitsHead_of_resolution hres hvalue)
      exact (infersOrFails_review hw hset (hg.mirrors.narrow hi
        (replaces_erase_head (not_isTracked hres .head))) i).of_known le_rfl fun _ _ => id

theorem stepInfers_resolveWeightHead
    (hres : f.draft.resolution a = some (if value then .on else .off)) :
    StepInfers d log a .weightHead roles f (resolveWeightHead a value) := by
  intro V _ g freed i hg h hplays
  have hres := (hg.resolution a).trans hres
  unfold resolveWeightHead
  split
  · exact h.infers
  · rename_i s hi
    have htrim := hg.trim.weightRules i s hi
    obtain ⟨r, hr, hmem⟩ := hplays
    have hleaves := h.descends.weightLeaves hi hr
    have hhead := mem_weightHead_of_mem_parts hmem
    have htouched : r.choice = true → r.head = [] → Draft.IsTouched g.isSettled r := by
      intro _ hnil
      rw [hnil] at hhead
      exact absurd hhead List.not_mem_nil
    split
    · rename_i hvalue
      obtain ⟨rfl, hchoice⟩ : value = true ∧ s.choice = false := by simpa using hvalue
      refine (retires_retireWeight hw (h.descends.dropWeight i) h.stands hg.mirrors hi hr hleaves
        (Or.inr (WeightRule.spent_iff.mpr (Or.inr ?_))) htouched fun b => known_on_iff.mp).infers hw
      have hon := h.stands.founded.on a hres
      simp only [Knowledge.closesHead, hleaves.choice.symm.trans hchoice, Bool.false_eq_true,
        if_false, List.any_eq_true, known_on_iff]
      exact ⟨a, hhead, hon⟩
    · rename_i hvalue
      have hreviews : Reviews d freed _ i r { s with head := s.head.erase a } :=
        h.reviews hi hr (fun hq => hq.eraseHead htrim.head
          (hq.choice ▸ omitsHead_of_resolution hres hvalue)) htouched (mem_erase_or_isDecided hres)
      refine (hreviews.infersOrFails hw (hg.mirrors.narrowWeight hi
        (replaces_erase_weightHead (not_isTracked hres .weightHead))) (hg.trim.setWeight _)
        (htrim.head.erase a) fun hlower => ?_).of_known le_rfl fun _ _ => id
      exact absurd htrim.unreached (not_lt.mpr hlower)

omit hw in
/-- The literal of a decided atom that stands in a rule holds, and the other one fails. -/
theorem holdsBy_of_resolution (h : f.draft.resolution a = some (if value then .on else .off))
    (hatom : l.atom = a) (hsign : l.isPositive = value) : l.HoldsBy f.isSettled := by
  unfold Literal.HoldsBy
  rw [hatom, hsign]
  cases value with
  | true => exact isSettled_on_iff.mpr h
  | false => exact isSettled_off_iff.mpr h

omit hw in
theorem failsBy_of_resolution (h : f.draft.resolution a = some (if value then .on else .off))
    (hatom : l.atom = a) (hsign : l.isPositive = !value) : l.FailsBy f.isSettled := by
  unfold Literal.FailsBy
  rw [hatom, hsign]
  cases value with
  | true => exact isSettled_cautious_iff.mpr (Or.inr h)
  | false => exact isSettled_off_iff.mpr h

omit hw in
theorem exists_literal_of_playsIn {s : Bool} (h : PlaysIn d freed a (signRole s) i) :
    ∃ r, d.source? freed i = some r ∧ literalOf a s ∈ r.body ∧ (literalOf a s).isPositive = s := by
  unfold PlaysIn at h
  rw [isWeighted_signRole] at h
  obtain ⟨r, hr, hmem⟩ := h
  obtain ⟨l, hl, hatom, hsign⟩ := exists_literal_of_mem_parts hmem
  obtain rfl := eq_literalOf hatom hsign
  exact ⟨r, hr, hl, hsign⟩

omit hw in
theorem exists_element_of_playsIn {s : Bool} (h : PlaysIn d freed a (signWeightRole s) i) :
    ∃ r, d.weightRule? i = some r ∧
      (∃ e ∈ r.body, e.1 = literalOf a s) ∧ (literalOf a s).isPositive = s := by
  unfold PlaysIn at h
  rw [isWeighted_signWeightRole] at h
  obtain ⟨r, hr, hmem⟩ := h
  refine ⟨r, hr, literalOf_mem_of_mem_weightParts hmem, ?_⟩
  simp only [WeightRule.parts, List.mem_append, List.mem_map, Prod.mk.injEq] at hmem
  rcases hmem with ⟨x, -, -, hrole⟩ | ⟨e, -, hatom, hrole⟩
  · cases s <;> exact absurd hrole (by simp [signWeightRole])
  · have hsign : e.1.isPositive = s := by
      unfold Literal.weightRole signWeightRole at hrole
      cases s <;> cases hsign : e.1.isPositive <;> simp [hsign] at hrole ⊢
    rwa [← eq_literalOf hatom hsign]

theorem stepInfers_satisfy (hres : f.draft.resolution a = some (if value then .on else .off)) :
    StepInfers d log a (signRole value) roles f (satisfy (literalOf a value)) := by
  intro V _ g freed i hg h hplays
  have hres := (hg.resolution a).trans hres
  obtain ⟨-, -, -, hsign⟩ := exists_literal_of_playsIn hplays
  have hholds := holdsBy_of_resolution hres atom_literalOf hsign
  unfold satisfy
  split
  · exact h.infers
  · rename_i s hi
    have hset : Accounted d freed
        (g.setRule i (some { s with body := s.body.erase (literalOf a value) })) := by
      refine h.set hi (fun q _ hq => ?_) fun x hx => Or.inl hx
      exact hq.eraseBody (hg.trim.rules i s hi).2.1 hholds
    refine (infersOrFails_review hw hset (hg.mirrors.narrow hi (replaces_erase_body ?_))
      i).of_known le_rfl fun _ _ => id
    rw [atom_literalOf]
    exact not_isTracked hres _

/-- A rule of which a literal fails is dropped. -/
theorem stepInfers_retire {s : Bool} (hfails : (literalOf a s).isPositive = s →
      (literalOf a s).FailsBy f.isSettled) :
    StepInfers d log a (signRole s) roles f fun g i => .ok (g.retire i) := by
  intro V _ g freed i hg h hplays
  obtain ⟨r, hr, hmem, hsign⟩ := exists_literal_of_playsIn hplays
  cases hi : g.draft.rule? i with
  | none =>
      change InfersOrFails d freed g (.ok (g.retire i))
      rw [retire_of_none hi]
      exact h.infers
  | some s =>
      refine (retires_retire hw h.descends h.stands hg.mirrors hi (fun q hq => ?_)
        fun b => known_on_iff.mp).infers hw
      obtain rfl := Option.some.inj (hr.symm.trans hq)
      have hfails := hfails hsign
      rw [← isSettled_congr hg.resolution] at hfails
      exact Rule.spent_iff.mpr (Or.inl
        ⟨_, hmem, Literal.failsBy_mono h.stands.founded.isSettled_le hfails⟩)

theorem stepInfers_satisfyWeight
    (hres : f.draft.resolution a = some (if value then .on else .off))
    (hlate : .weightHead ∉ signWeightRole value :: roles) :
    StepInfers d log a (signWeightRole value) roles f (satisfyWeight (literalOf a value)) := by
  intro V hV g freed i hg h hplays
  have hres := (hg.resolution a).trans hres
  obtain ⟨r, hr, ⟨e, he, heq⟩, hsign⟩ := exists_element_of_playsIn hplays
  have hholds := holdsBy_of_resolution hres atom_literalOf hsign
  unfold satisfyWeight
  split
  · exact h.infers
  · rename_i s hi
    have hreviews := h.reviews hi hr (fun hq => hq.satisfy (hw i r hr) hholds)
      (fun _ _ => ⟨e, he, Or.inl (heq ▸ hholds)⟩) fun x hx => Or.inl hx
    refine (hreviews.infersOrFails hw (hg.mirrors.narrowWeight hi (replaces_withoutLiteral ?_))
      (hg.trim.setWeight _) (hg.trim.weightRules i s hi).head
      fun _ hv => hlate (hV _ _ hv)).of_known le_rfl fun _ _ => id
    rw [atom_literalOf]
    exact not_isTracked hres _

theorem stepInfers_falsifyWeight {s : Bool}
    (hfails : (literalOf a s).isPositive = s → (literalOf a s).FailsBy f.isSettled)
    (htracked : ¬f.draft.IsTracked (literalOf a s).atom (literalOf a s).weightRole)
    (hlate : .weightHead ∉ signWeightRole s :: roles) :
    StepInfers d log a (signWeightRole s) roles f (falsifyWeight (literalOf a s)) := by
  intro V hV g freed i hg h hplays
  obtain ⟨r, hr, ⟨e, he, heq⟩, hsign⟩ := exists_element_of_playsIn hplays
  have hfails := hfails hsign
  rw [← isSettled_congr hg.resolution] at hfails
  unfold falsifyWeight
  split
  · exact h.infers
  · rename_i t hi
    have hreviews := h.reviews hi hr (fun hq => hq.falsify (consistent_isSettled g) hfails)
      (fun _ _ => ⟨e, he, Or.inr (heq ▸ hfails)⟩) fun x hx => Or.inl hx
    refine (hreviews.infersOrFails hw (hg.mirrors.narrowWeight hi (replaces_withoutLiteral ?_))
      (hg.trim.setWeight _) (hg.trim.weightRules i t hi).head
      fun _ hv => hlate (hV _ _ hv)).of_known le_rfl fun _ _ => id
    unfold Draft.IsTracked at htracked ⊢
    rwa [hg.resolution]

end Steps

/-! ### One atom -/

theorem Accounted.mapOccurrences (h : Accounted d freed f) (hw : d.Weighs) (a : Nat)
    (G : Occurrences → Occurrences) : Accounted d freed (f.mapOccurrences a G) := by
  have hresolution := fun b => Draft.resolution_mapOccurrences f.draft a b G
  have hsame : (f.mapOccurrences a G).isSettled = f.isSettled := isSettled_congr hresolution
  have hknown : f.known ≤ (f.mapOccurrences a G).known :=
    known_mono hresolution (fun _ => id) (fun _ => id) fun _ => id
  refine ⟨?_, ?_, fun b hhead hneeds => ?_, h.stands.founded.congr rfl rfl hresolution
    fun _ => Or.inl⟩
  · rw [hsame]
    exact h.descends.entries
  · rw [hsame]
    exact (h.stands.accounts.mono hw le_rfl hknown).entries
  · have hsame := needsRule_congr (f := f) (g := f.mapOccurrences a G) rfl rfl (hresolution b)
    exact h.stands.supported b hhead (hsame.mp hneeds)

theorem infersOrFails_propagate (hw : d.Weighs)
    (hres : f.draft.resolution a = some (if value then .on else .off))
    (hm : (f.mapOccurrences a fun _ => {}).draft.Mirrors log a
      (Pending (f.draft.occurrences a) (roleOrder value)))
    (ht : f.draft.Trim log) (h : Accounted d freed f)
    (hplays : ∀ role, ∀ i ∈ f.draft.record a role, PlaysIn d freed a role i) :
    InfersOrFails d freed f (f.propagate a value) := by
  have hstart : Tidies log a (Pending (f.draft.occurrences a) (roleOrder value)) f
      (f.mapOccurrences a fun _ => {}) :=
    ⟨hm, ⟨ht.rules, ht.weightRules⟩, fun b => Draft.resolution_mapOccurrences _ _ b _⟩
  have hlate : ∀ s, Role.weightHead ≠ signWeightRole s := by
    intro s
    cases s <;> simp [signWeightRole]
  have hfails : (literalOf a !value).isPositive = (!value) →
      (literalOf a !value).FailsBy f.isSettled := failsBy_of_resolution hres atom_literalOf
  have hgone : ¬f.draft.IsTracked (literalOf a !value).atom (literalOf a !value).weightRole := by
    rw [atom_literalOf]
    exact not_isTracked hres _
  rw [propagate_eq]
  refine InfersOrFails.of_known (g := f.mapOccurrences a fun _ => {}) ?_
    (known_mono hstart.resolution (fun _ => id) (fun _ => id) fun _ => id)
    fun T _ hf => le_trans (known_mono (fun b => (hstart.resolution b).symm) (fun _ => id)
      (fun _ => id) fun _ => id) hf
  -- The stages follow one another; each leaves the roles after it pending.
  refine (infersOrFails_foldlM hstart (h.mapOccurrences hw a _) (clears_resolveHead hres)
    (stepInfers_resolveHead hw hres) (hplays .head)).bind fun g₁ freed₁ hfreed₁ h₁ hacc₁ => ?_
  have hhead := hstart.foldlM (clears_resolveHead hres) h₁
  refine (infersOrFails_foldlM hhead hacc₁ (clears_resolveWeightHead hres)
    (stepInfers_resolveWeightHead hw hres) fun i hi =>
      (hplays .weightHead i hi).mono hfreed₁).bind fun g₂ freed₂ hfreed₂ h₂ hacc₂ => ?_
  have hweightHead := hhead.foldlM (clears_resolveWeightHead hres) h₂
  replace hfreed₂ := hfreed₁.trans hfreed₂
  refine (infersOrFails_foldlM hweightHead hacc₂ (clears_satisfy hres)
    (stepInfers_satisfy hw hres) fun i hi =>
      (hplays _ i hi).mono hfreed₂).bind fun g₃ freed₃ hfreed₃ h₃ hacc₃ => ?_
  have hsatisfy := hweightHead.foldlM (clears_satisfy hres) h₃
  replace hfreed₃ := hfreed₂.trans hfreed₃
  refine (infersOrFails_foldlM hsatisfy hacc₃ (clears_retire (isWeighted_signRole !value))
    (stepInfers_retire hw hfails) fun i hi =>
      (hplays _ i hi).mono hfreed₃).bind fun g₄ freed₄ hfreed₄ h₄ hacc₄ => ?_
  have hretire := hsatisfy.foldlM (clears_retire (isWeighted_signRole !value)) h₄
  replace hfreed₄ := hfreed₃.trans hfreed₄
  refine (infersOrFails_foldlM hretire hacc₄ (clears_satisfyWeight hres (by simp [hlate]))
    (stepInfers_satisfyWeight hw hres (by simp [hlate])) fun i hi =>
      (hplays _ i hi).mono hfreed₄).bind fun g₅ freed₅ hfreed₅ h₅ hacc₅ => ?_
  have hweight := hretire.foldlM (clears_satisfyWeight hres (by simp [hlate])) h₅
  exact infersOrFails_foldlM hweight hacc₅ (clears_falsifyWeight hgone (by simp [hlate]))
    (stepInfers_falsifyWeight hw hfails hgone (by simp [hlate])) fun i hi =>
      (hplays _ i hi).mono (hfreed₄.trans hfreed₅)

end StablePlan.Fitting
