import StablePlan.Proofs.Transition.Concluding

/-!
What a run that succeeds leaves. What it knows is closed, and tells what is left: a rule that is not
spent, less what is known. Only the rules that come from weight rules stand in the order in which
their bounds were reached.
-/

namespace StablePlan

variable {K : Knowledge} {d : Draft} {f g : Fitting} {freed freed' : List Nat}
  {log : List Observation} {b i j x : Nat} {l : Literal}

/-- What is left of a rule that is not spent. -/
def Rule.left? (K : Knowledge) (r : Rule) : Option Rule :=
  if r.spent K then none else some (r.residue K)

instance (r : WeightRule) : Decidable (r.Reached K) := inferInstanceAs (Decidable (_ ≤ _))

instance (r : WeightRule) : Decidable (Draft.IsTouched K r) :=
  inferInstanceAs (Decidable (∃ _ ∈ _, _))

/-- What is left of a weight rule whose bound is not reached and may be. A choice between no atoms
is spent from the start, but only looked at with its literals. -/
def WeightRule.left? (K : Knowledge) (r : WeightRule) : Option WeightRule :=
  if r.choice = true ∧ r.head = [] then if Draft.IsTouched K r then none else some r
  else if r.Reached K ∨ r.spent K then none
  else some (r.residue K)

/-- What is left of the rule that a weight rule leaves. -/
def Draft.freed? (d : Draft) (K : Knowledge) (j : Nat) : Option Rule :=
  (d.weightRule? j).bind fun r => r.freed.left? K

namespace Fitting

/-- A fitting with nothing left to settle. -/
structure Ends (d : Draft) (log : List Observation) (freed : List Nat) (f : Fitting) : Prop where
  accounted : Accounted d freed f
  tidy : f.Tidy log
  queues : f.trueQueue = [] ∧ f.falseQueue = [] ∧ f.cautiousQueue = []

namespace Ends

variable (h : Ends d log freed f)
include h

theorem on_of_mem_facts (hb : b ∈ f.facts) : f.draft.resolution b = some .on :=
  (h.accounted.stands.founded.waits b hb).resolve_left (by simp [h.queues.1])

/-- Nothing waits, so that all that is known is settled. -/
theorem known_eq : f.known = f.isSettled := by
  refine le_antisymm (Knowledge.le_iff.mpr fun goal b hb => ?_)
    h.accounted.stands.founded.isSettled_le
  cases goal with
  | on => exact isSettled_on_iff.mpr (h.on_of_mem_facts (known_on_iff.mp hb))
  | off =>
      refine isSettled_off_iff.mpr ((known_off_iff.mp hb).resolve_right ?_)
      simp [h.queues.2.1]
  | cautious =>
      rcases known_cautious_iff.mp hb with hb | hb | hb
      · exact isSettled_cautious_iff.mpr hb
      · simp [h.queues.2.2] at hb
      · exact isSettled_cautious_iff.mpr (Or.inr (h.on_of_mem_facts hb))

end Ends

/-! ### Rules that are left -/

section Tracked

theorem not_decides_of_isTracked {role : Role} (h : f.draft.IsTracked x role) :
    ¬Knowledge.decides f.isSettled x := by
  rw [decides_isSettled_iff]
  unfold isDecided
  rcases h with h | ⟨h, -⟩ <;> simp [h]

theorem open_of_isTracked {role : Role} (h : f.draft.IsTracked l.atom role)
    (hrole : role.isNegative = !l.isPositive) :
    ¬l.HoldsBy f.isSettled ∧ ¬l.FailsBy f.isSettled := by
  unfold Literal.HoldsBy Literal.FailsBy isSettled
  unfold Draft.IsTracked at h
  rw [hrole] at h
  cases hsign : l.isPositive <;> rcases h with h | ⟨h, hsign'⟩ <;> simp_all

variable (htidy : f.Tidy log)
include htidy

theorem Tidy.head_open {s : Rule} (hi : f.draft.rule? i = some s) :
    ∀ x ∈ s.head, ¬Knowledge.decides f.isSettled x := fun x hx =>
  not_decides_of_isTracked (htidy.isTracked (Draft.plays_of_rule? hi
    (List.mem_append_left _ (List.mem_map.mpr ⟨x, hx, rfl⟩))))

theorem Tidy.body_open {s : Rule} (hi : f.draft.rule? i = some s) :
    ∀ l ∈ s.body, ¬l.HoldsBy f.isSettled ∧ ¬l.FailsBy f.isSettled := fun l hl =>
  open_of_isTracked (htidy.isTracked (Draft.plays_of_rule? hi
    (List.mem_append_right _ (List.mem_map.mpr ⟨l, hl, rfl⟩)))) (by
      unfold Literal.role
      cases l.isPositive <;> rfl)

theorem Tidy.weightHead_open {s : WeightRule} (hj : f.draft.weightRule? j = some s) :
    ∀ x ∈ s.head, ¬Knowledge.decides f.isSettled x := fun x hx =>
  not_decides_of_isTracked (htidy.isTracked (Draft.plays_of_weightRule? hj
    (List.mem_append_left _ (List.mem_map.mpr ⟨x, hx, rfl⟩))))

theorem Tidy.weightBody_open {s : WeightRule} (hj : f.draft.weightRule? j = some s) :
    ∀ e ∈ s.body, ¬e.1.HoldsBy f.isSettled ∧ ¬e.1.FailsBy f.isSettled := fun e he =>
  open_of_isTracked (htidy.isTracked (Draft.plays_of_weightRule? hj
    (List.mem_append_right _ (List.mem_map.mpr ⟨e, he, rfl⟩)))) (by
      unfold Literal.weightRole
      cases e.1.isPositive <;> rfl)

end Tracked

theorem not_closesHead_of_open {choice : Bool} {head : List Nat} (hopen : ∀ x ∈ head, ¬K.decides x)
    (hbare : ¬(choice = true ∧ head = [])) : ¬K.closesHead choice head := by
  unfold Knowledge.closesHead
  cases choice with
  | true =>
      simp only [if_true, List.all_eq_true, not_forall]
      obtain ⟨x, hx⟩ := List.exists_mem_of_ne_nil head fun hnil => hbare ⟨rfl, hnil⟩
      exact ⟨x, hx, hopen x hx⟩
  | false =>
      simp only [Bool.false_eq_true, if_false, List.any_eq_true, not_exists, not_and]
      exact fun x hx hon => hopen x hx (Knowledge.decides_iff.mpr (Or.inl hon))

namespace Ends

variable (h : Ends d log freed f)
include h

/-- A rule is left if it is not spent, and has lost all that is known. -/
theorem rule?_eq (i : Nat) :
    f.draft.rule? i = (d.source? freed i).bind (Rule.left? f.isSettled) := by
  cases hi : f.draft.rule? i with
  | none =>
      cases hr : d.source? freed i with
      | none => rfl
      | some r =>
          have hspent := h.accounted.stands.accounts.rules i r hr hi
          rw [h.known_eq] at hspent
          simp [Rule.left?, hspent]
  | some s =>
      obtain ⟨r, hr, hleaves⟩ := h.accounted.descends.rules i s hi
      have hhead := h.tidy.head_open hi
      have hbody := h.tidy.body_open hi
      have hlive : ¬r.spent f.isSettled := by
        intro hspent
        rcases Rule.spent_iff.mp (hleaves.spent_of_consistent le_rfl (consistent_isSettled f)
          hspent) with ⟨l, hl, hfails⟩ | hclosed
        · exact (hbody l hl).2 hfails
        · refine not_closesHead_of_open hhead (fun hbare => ?_) hclosed
          have htrivial : isTrivial s := Rule.isTrivial_iff.mpr (by simp [hbare])
          exact absurd htrivial (by simp [(h.tidy.trim.rules i s hi).2.2])
      rw [hr, hleaves.eq_residue hhead fun l hl => (hbody l hl).1]
      simp [Rule.left?, hlive]

/-- A weight rule is left if it is not spent and its bound is not reached. -/
theorem weightRule?_eq (hw : d.Weighs) (j : Nat) :
    f.draft.weightRule? j = (d.weightRule? j).bind (WeightRule.left? f.isSettled) := by
  have hlive := h.accounted.descends
  cases hj : f.draft.weightRule? j with
  | none =>
      cases hr : d.weightRule? j with
      | none => rfl
      | some r =>
          obtain ⟨hspent, hbare⟩ := h.accounted.stands.accounts.weightRules j r hr hj
          rw [h.known_eq] at hspent
          change none = r.left? f.isSettled
          unfold WeightRule.left?
          split
          · rename_i hrbare
            rw [if_pos (hbare hrbare.1 hrbare.2)]
          · exact (if_pos (hspent.imp_left fun hfreed => hlive.reached_of_mem hfreed hr)).symm
  | some s =>
      obtain ⟨-, r, hr, hleaves, hbare⟩ := hlive.weightRules j s hj
      have hhead := h.tidy.weightHead_open hj
      have hbody := h.tidy.weightBody_open hj
      have htrim := h.tidy.trim.weightRules j s hj
      rw [hr]
      change some s = r.left? f.isSettled
      unfold WeightRule.left?
      split
      · rename_i hrbare
        -- It has lost nothing, and nothing is known of what it has.
        have hnil : s.head = [] := List.eq_nil_iff_forall_not_mem.mpr fun x hx => by
          have := hleaves.head.mem_of_mem hx
          simp [hrbare.2] at this
        obtain rfl := hbare (hleaves.choice.trans hrbare.1) hnil
        refine (if_neg ?_).symm
        rintro ⟨e, he, hknown⟩
        exact hknown.elim (hbody e he).1 (hbody e he).2
      · rename_i hrbare
        have hsbare : ¬(s.choice = true ∧ s.head = []) := fun hs => by
          obtain rfl := hbare hs.1 hs.2
          exact hrbare hs
        have heq := hleaves.eq_residue hhead hbody
        have hunreached : ¬r.Reached f.isSettled := by
          have hlower : 0 < (r.residue f.isSettled).lower := heq ▸ htrim.unreached
          exact not_le.mpr (Int.sub_pos.mp hlower)
        have hunspent : ¬r.spent f.isSettled := by
          intro hspent
          rcases WeightRule.spent_iff.mp (hleaves.spent_of_consistent (hw j r hr).nonneg le_rfl
            (consistent_isSettled f) hspent) with hbound | hclosed
          · have hall : s.possible f.isSettled = s.total := by
              unfold WeightRule.possible WeightRule.total
              rw [(hleaves.hasFittingBound (hw j r hr)).weights.totalWeight_eq,
                List.filter_eq_self.mpr fun e he => by simpa using (hbody e he).2]
            exact absurd htrim.reachable (not_le.mpr (hall ▸ hbound))
          · exact not_closesHead_of_open hhead hsbare hclosed
        rw [if_neg (not_or.mpr ⟨hunreached, hunspent⟩), heq]

theorem rule?_eq_some {s : Rule} (hi : f.draft.rule? i = some s) :
    ∃ r, d.source? freed i = some r ∧ ¬r.spent f.isSettled ∧ s = r.residue f.isSettled := by
  rw [h.rule?_eq] at hi
  obtain ⟨r, hr, hs⟩ := Option.bind_eq_some_iff.mp hi
  unfold Rule.left? at hs
  split at hs
  · exact absurd hs (by simp)
  · rename_i hspent
    exact ⟨r, hr, hspent, (Option.some.inj hs).symm⟩

theorem weightRule?_eq_some (hw : d.Weighs) {s : WeightRule}
    (hj : f.draft.weightRule? j = some s) : ∃ r, d.weightRule? j = some r ∧
      (r.choice = true ∧ r.head = [] ∧ s = r ∨
        ¬r.Reached f.isSettled ∧ ¬r.spent f.isSettled ∧ s = r.residue f.isSettled) := by
  rw [h.weightRule?_eq hw] at hj
  obtain ⟨r, hr, hs⟩ := Option.bind_eq_some_iff.mp hj
  refine ⟨r, hr, ?_⟩
  unfold WeightRule.left? at hs
  split at hs
  · rename_i hbare
    split at hs
    · exact absurd hs (by simp)
    · exact Or.inl ⟨hbare.1, hbare.2, (Option.some.inj hs).symm⟩
  · split at hs
    · exact absurd hs (by simp)
    · rename_i hgone
      rw [not_or] at hgone
      exact Or.inr ⟨hgone.1, hgone.2, (Option.some.inj hs).symm⟩

/-- A weight rule whose bound is reached is freed, unless it is spent. -/
theorem mem_freed_of_reached (hw : d.Weighs) {r : WeightRule} (hr : d.weightRule? j = some r)
    (hreached : r.Reached f.isSettled) (hspent : ¬r.spent f.isSettled) : j ∈ freed := by
  have hnone : f.draft.weightRule? j = none := by
    rw [h.weightRule?_eq hw, hr]
    change r.left? f.isSettled = none
    unfold WeightRule.left?
    rw [if_neg ?_, if_pos (Or.inl hreached)]
    rintro ⟨hchoice, hhead⟩
    have hclosed : Knowledge.closesHead f.isSettled r.choice r.head := by
      simp [Knowledge.closesHead, hchoice, hhead]
    exact hspent (WeightRule.spent_iff.mpr (Or.inr hclosed))
  have haccounts := (h.accounted.stands.accounts.weightRules j r hr hnone).1
  rw [h.known_eq] at haccounts
  exact haccounts.resolve_right hspent

/-! ### What is known is closed -/

theorem quiet_of_source {r : Rule} (hr : d.source? freed i = some r) : r.Quiet f.isSettled := by
  by_cases hspent : r.spent f.isSettled
  · exact Or.inl hspent
  · have hi : f.draft.rule? i = some (r.residue f.isSettled) := by
      rw [h.rule?_eq, hr]
      simp [Rule.left?, hspent]
    exact Or.inr (h.tidy.trim.rules i _ hi).2.2

theorem quiet_of_weightRule (hw : d.Weighs) {r : WeightRule} (hr : d.weightRule? j = some r) :
    r.Quiet f.isSettled := by
  by_cases hspent : r.spent f.isSettled
  · exact Or.inl hspent
  · by_cases hreached : r.Reached f.isSettled
    · obtain ⟨i, hi⟩ := Draft.exists_source?_of_freed
        (h.mem_freed_of_reached hw hr hreached hspent) hr
      exact Or.inr (Or.inr ⟨hreached, h.quiet_of_source hi⟩)
    · have hclosed : ¬Knowledge.closesHead f.isSettled r.choice r.head := fun hclosed =>
        hspent (WeightRule.spent_iff.mpr (Or.inr hclosed))
      have hj : f.draft.weightRule? j = some (r.residue f.isSettled) := by
        rw [h.weightRule?_eq hw, hr]
        change r.left? f.isSettled = _
        unfold WeightRule.left?
        rw [if_neg ?_, if_neg (not_or.mpr ⟨hreached, hspent⟩)]
        rintro ⟨hchoice, hhead⟩
        exact hclosed (by simp [Knowledge.closesHead, hchoice, hhead])
      have hlive := Draft.mem_liveWeightRules.mpr ⟨j, hj⟩
      refine Or.inr (Or.inl (Bool.eq_false_iff.mpr fun htrivial => hclosed ?_))
      obtain ⟨hchoice, hhead⟩ := (h.tidy.weightRule_checked hlive).2.mp htrivial
      have hchoice : r.choice = true := hchoice
      have hhead : r.head.filter (fun x => !Knowledge.decides f.isSettled x) = [] := hhead
      simpa [Knowledge.closesHead, hchoice] using hhead

/-- An atom that still has a rule has one that is not spent. -/
theorem not_spent_of_isHead (hw : d.Weighs) (hrule : f.draft.IsHead b) :
    (∃ i r, d.rule? i = some r ∧ b ∈ r.head ∧ ¬r.spent f.isSettled) ∨
      ∃ j r, d.weightRule? j = some r ∧ b ∈ r.head ∧ ¬r.spent f.isSettled := by
  rcases hrule with ⟨i, s, hs, hb⟩ | ⟨j, s, hs, hb⟩
  · obtain ⟨r, hr, hspent, rfl⟩ := h.rule?_eq_some hs
    have hb := (List.mem_filter.mp hb).1
    rcases Draft.source?_cases hr with hr | ⟨j, hj, q, hq, rfl⟩
    · exact Or.inl ⟨i, r, hr, hb, hspent⟩
    · have hreached := h.accounted.descends.reached_of_mem hj hq
      refine Or.inr ⟨j, q, hq, hb, fun hqspent => hspent ?_⟩
      exact WeightRule.spent_freed.trans
        (hreached.closesHead (hw j q hq).nonneg (consistent_isSettled f) hqspent)
  · obtain ⟨r, hr, ⟨-, hnil, rfl⟩ | ⟨-, hspent, rfl⟩⟩ := h.weightRule?_eq_some hw hs
    · simp [hnil] at hb
    · exact Or.inr ⟨j, r, hr, (List.mem_filter.mp hb).1, hspent⟩

/-- What is known at the end is closed. -/
theorem closed (hw : d.Weighs) : d.Closed f.isSettled := by
  have hfounded := h.accounted.stands.founded
  refine ⟨consistent_isSettled f, fun i r hr => h.quiet_of_source (Draft.source?_of_rule? hr),
    fun j r hr => h.quiet_of_weightRule hw hr, fun b hhead hexternal hon hrules hweightRules => ?_,
    fun b hb => hfounded.derived b (hfounded.on b (isSettled_on_iff.mp hb))⟩
  by_contra hoff
  have hneeds : f.NeedsRule b := by
    refine ⟨hfounded.externals ▸ hexternal, fun hfact => ?_, ?_⟩
    · exact hon (isSettled_on_iff.mpr (h.on_of_mem_facts hfact))
    · rw [← Bool.not_eq_true, ← decides_isSettled_iff, Knowledge.decides_iff]
      exact not_or.mpr ⟨hon, hoff⟩
  have hrule := (h.accounted.stands.supported b hhead hneeds).resolve_left (by simp [h.queues.2.1])
  rcases h.not_spent_of_isHead hw hrule with ⟨i, r, hr, hb, hspent⟩ | ⟨j, r, hr, hb, hspent⟩
  · exact hspent (hrules i r hr hb)
  · exact hspent (hweightRules j r hr hb)

/-! ### What is left -/

theorem toList_rules : f.draft.rules.toList =
    d.rules.toList.map (fun r => r.bind (Rule.left? f.isSettled)) ++
      freed.map (d.freed? f.isSettled) := by
  have hsize := h.accounted.descends.size
  refine List.ext_getElem (by simpa using hsize) fun i hi hi' => ?_
  have hget : f.draft.rules.toList[i] = f.draft.rule? i := by
    rw [Array.length_toList] at hi
    simp [Draft.rule?, Array.getD_eq_getD_getElem?, hi]
  rw [hget, h.rule?_eq, List.getElem_append]
  unfold Draft.source?
  simp only [List.length_map, Array.length_toList]
  split
  · rename_i hlt
    simp [Draft.rule?, Array.getD_eq_getD_getElem?, hlt]
  · rename_i hge
    rw [Array.length_toList, hsize] at hi
    have hk : i - d.rules.size < freed.length := by omega
    simp [hk, Draft.freed?]
    cases d.weightRule? freed[i - d.rules.size] <;> rfl

theorem toList_weightRules (hw : d.Weighs) : f.draft.weightRules.toList =
    d.weightRules.toList.map (fun r => r.bind (WeightRule.left? f.isSettled)) := by
  have hsize := h.accounted.descends.weightSize
  refine List.ext_getElem (by simpa using hsize) fun j hj hj' => ?_
  have hget : f.draft.weightRules.toList[j] = f.draft.weightRule? j := by
    rw [Array.length_toList] at hj
    simp [Draft.weightRule?, Array.getD_eq_getD_getElem?, hj]
  rw [Array.length_toList, hsize] at hj
  rw [hget, h.weightRule?_eq hw]
  simp [Draft.weightRule?, Array.getD_eq_getD_getElem?, hj]

/-- Which weight rules leave a rule does not depend on when their bounds are reached. -/
theorem freed_perm (hw : d.Weighs) (hg : Ends d log freed' g) (hsame : g.isSettled = f.isSettled) :
    (freed.filter fun j => (d.freed? f.isSettled j).isSome).Perm
      (freed'.filter fun j => (d.freed? f.isSettled j).isSome) := by
  have hmem : ∀ {f g : Fitting} {freed freed' : List Nat}, Ends d log freed f →
      Ends d log freed' g → g.isSettled = f.isSettled → ∀ j ∈ freed,
        (d.freed? f.isSettled j).isSome → j ∈ freed' := by
    intro f g freed freed' hf hg hsame j hj hsome
    obtain ⟨t, ht⟩ := Option.isSome_iff_exists.mp hsome
    obtain ⟨r, hr, hleft⟩ := Option.bind_eq_some_iff.mp ht
    have hreached := hf.accounted.descends.reached_of_mem hj hr
    refine hg.mem_freed_of_reached hw hr (hsame ▸ hreached) fun hspent => ?_
    have hclosed := hreached.closesHead (hw j r hr).nonneg (consistent_isSettled f) (hsame ▸ hspent)
    rw [← WeightRule.spent_freed] at hclosed
    simp [Rule.left?, hclosed] at hleft
  refine (List.perm_ext_iff_of_nodup (h.accounted.descends.nodup.filter _)
    (hg.accounted.descends.nodup.filter _)).mpr fun j => ?_
  rw [List.mem_filter, List.mem_filter]
  refine ⟨fun ⟨hj, hsome⟩ => ⟨hmem h hg hsame j hj hsome, hsome⟩, fun ⟨hj, hsome⟩ => ⟨?_, hsome⟩⟩
  exact hmem hg h hsame.symm j hj (hsame ▸ hsome)

/-- Two runs that end with the same knowledge leave the same rules. -/
theorem liveRules_perm (hw : d.Weighs) (hg : Ends d log freed' g)
    (hsame : g.isSettled = f.isSettled) : f.draft.liveRules.Perm g.draft.liveRules := by
  have hlist : ∀ freed : List Nat, (freed.map (d.freed? f.isSettled)).filterMap id =
      (freed.filter fun j => (d.freed? f.isSettled j).isSome).filterMap (d.freed? f.isSettled) := by
    intro freed
    rw [List.filterMap_map, List.filterMap_filter]
    refine List.filterMap_congr fun j _ => ?_
    cases hj : d.freed? f.isSettled j <;> simp [hj]
  unfold Draft.liveRules
  rw [h.toList_rules, hg.toList_rules, hsame, List.filterMap_append, List.filterMap_append, hlist,
    hlist]
  exact (((h.freed_perm hw hg hsame).filterMap _).append_left _)

theorem liveWeightRules_eq (hw : d.Weighs) (hg : Ends d log freed' g)
    (hsame : g.isSettled = f.isSettled) : f.draft.liveWeightRules = g.draft.liveWeightRules := by
  unfold Draft.liveWeightRules
  rw [h.toList_weightRules hw, hg.toList_weightRules hw, hsame]

end Ends

end Fitting

end StablePlan
