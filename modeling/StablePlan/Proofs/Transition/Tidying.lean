import StablePlan.Proofs.Results
import StablePlan.Proofs.Transition.Mirroring
import StablePlan.Proofs.Transition.Run

/-!
A run leaves records that mirror the rules, and trim rules. To resolve an atom takes it off record
in all rules that have it; each of them is then looked at once, in the order of the roles, and does
not have the atom in that role afterwards, or is gone. A weight rule whose bound is reached leaves
its head in a new rule; this happens when bodies are worked on, when no head has the atom any more.
-/

namespace StablePlan

namespace Draft

variable {d : Draft} {log : List Observation} {i : Nat}

/-- Without the rule, the others are trim. -/
theorem trim_withRule_none_iff : (d.withRule i none).Trim log ↔
    (∀ j r, j ≠ i → d.rule? j = some r → r.IsTrim) ∧
      ∀ j r, d.weightRule? j = some r → r.IsTrim log := by
  constructor
  · refine fun h => ⟨fun j r hne hj => h.rules j r ?_, h.weightRules⟩
    rw [rule?_withRule, if_neg fun h => hne h.1]
    exact hj
  · rintro ⟨hrules, hweightRules⟩
    refine ⟨fun j r hj => ?_, hweightRules⟩
    rw [rule?_withRule] at hj
    split at hj
    · exact absurd hj (by simp)
    · rename_i hne
      refine hrules j r ?_ hj
      rintro rfl
      exact hne ⟨rfl, lt_of_rule? hj⟩

theorem trim_withWeightRule_none_iff : (d.withWeightRule i none).Trim log ↔
    (∀ j r, d.rule? j = some r → r.IsTrim) ∧
      ∀ j r, j ≠ i → d.weightRule? j = some r → r.IsTrim log := by
  constructor
  · refine fun h => ⟨h.rules, fun j r hne hj => h.weightRules j r ?_⟩
    rw [weightRule?_withWeightRule, if_neg fun h => hne h.1]
    exact hj
  · rintro ⟨hrules, hweightRules⟩
    refine ⟨hrules, fun j r hj => ?_⟩
    rw [weightRule?_withWeightRule] at hj
    split at hj
    · exact absurd hj (by simp)
    · rename_i hne
      refine hweightRules j r ?_ hj
      rintro rfl
      exact hne ⟨rfl, lt_of_weightRule? hj⟩

/-- A rule that is changed is the only one that may not be trim. -/
theorem Trim.set (h : d.Trim log) (r' : Option Rule) :
    ((d.withRule i r').withRule i none).Trim log := by
  refine trim_withRule_none_iff.mpr ⟨fun j r hne hj => h.rules j r ?_, h.weightRules⟩
  rwa [rule?_withRule, if_neg fun h => hne h.1] at hj

theorem Trim.setWeight (h : d.Trim log) (r' : Option WeightRule) :
    ((d.withWeightRule i r').withWeightRule i none).Trim log := by
  refine trim_withWeightRule_none_iff.mpr ⟨h.rules, fun j r hne hj => h.weightRules j r ?_⟩
  rwa [weightRule?_withWeightRule, if_neg fun h => hne h.1] at hj

end Draft

namespace Fitting

variable {f g g' : Fitting} {log : List Observation} {a b i : Nat} {role : Role} {value : Bool}
  {W V : Role → Nat → Prop} {roles : List Role} {is : List Nat}

/-! ### One rule -/

/-- Records mirror the rules and all rules are trim; no atom is resolved on the way. -/
structure Tidies (log : List Observation) (a : Nat) (W : Role → Nat → Prop) (f g : Fitting) :
    Prop where
  mirrors : g.draft.Mirrors log a W
  trim : g.draft.Trim log
  resolution : ∀ b, g.draft.resolution b = f.draft.resolution b

theorem Tidies.of_draft (h : Tidies log a W f g) (hdraft : g'.draft = g.draft) :
    Tidies log a W f g' :=
  ⟨hdraft ▸ h.mirrors, hdraft ▸ h.trim, hdraft ▸ h.resolution⟩

theorem Tidies.trans (h : ∀ b, g.draft.resolution b = f.draft.resolution b)
    (h' : Tidies log a W g g') : Tidies log a W f g' :=
  ⟨h'.mirrors, h'.trim, fun b => (h'.resolution b).trans (h b)⟩

theorem draft_checkSupport (f : Fitting) (h : Nat) : (f.checkSupport h).draft = f.draft := by
  unfold checkSupport
  split <;> rfl

theorem draft_constrain (f : Fitting) (l : Literal) : (f.constrain l).draft = f.draft := by
  unfold constrain
  split <;> rfl

theorem draft_foldl_forget {α : Type} {step : Fitting → α → Fitting} (i : Nat)
    (part : α → Nat × Role) (hstep : ∀ f x, (step f x).draft =
      f.draft.mapOccurrences (part x).1 (.change (part x).2 (·.erase i)))
    (xs : List α) (f : Fitting) :
    (xs.foldl step f).draft = Draft.forgetAll i (xs.map part) f.draft := by
  induction xs generalizing f with
  | nil => rfl
  | cons x xs ih =>
      rw [List.foldl_cons, ih, hstep]
      rfl

theorem forgetAll_append (n : Nat) (parts parts' : List (Nat × Role)) (d : Draft) :
    Draft.forgetAll n (parts ++ parts') d = Draft.forgetAll n parts' (Draft.forgetAll n parts d) :=
  List.foldl_append

/-- Retiring drops a rule and takes it off record. -/
theorem draft_retire {r : Rule} (hi : f.draft.rule? i = some r) : ∃ parts,
    (∀ part, part ∈ parts ↔ part ∈ r.parts) ∧
      (f.retire i).draft = Draft.forgetAll i parts (f.draft.withRule i none) := by
  refine ⟨(r.body.map fun l => (l.atom, l.role)) ++ r.head.map (·, .head), fun part => ?_, ?_⟩
  · unfold Rule.parts
    rw [List.mem_append, List.mem_append, or_comm]
  · unfold retire
    simp only [hi]
    rw [draft_foldl_forget i (·, .head), draft_foldl_forget i fun l : Literal => (l.atom, l.role),
      forgetAll_append]
    · rfl
    · intro f l
      rw [Occurrences.inBody_eq]
      rfl
    · intro f h
      rw [draft_checkSupport]
      rfl

theorem draft_retireWeight {r : WeightRule} (hi : f.draft.weightRule? i = some r) : ∃ parts,
    (∀ part, part ∈ parts ↔ part ∈ r.parts) ∧
      (f.retireWeight i).draft = Draft.forgetAll i parts (f.draft.withWeightRule i none) := by
  refine ⟨(r.body.map fun e => (e.1.atom, e.1.weightRole)) ++ r.head.map (·, .weightHead),
    fun part => ?_, ?_⟩
  · unfold WeightRule.parts
    rw [List.mem_append, List.mem_append, or_comm]
  · unfold retireWeight
    simp only [hi]
    rw [draft_foldl_forget i (·, .weightHead),
      draft_foldl_forget i fun e : Literal × Int => (e.1.atom, e.1.weightRole), forgetAll_append]
    · rfl
    · intro f e
      rw [Occurrences.inWeightBody_eq]
      rfl
    · intro f h
      rw [draft_checkSupport]
      rfl

theorem retire_of_none (hi : f.draft.rule? i = none) : f.retire i = f := by
  unfold retire
  rw [hi]

theorem retireWeight_of_none (hi : f.draft.weightRule? i = none) : f.retireWeight i = f := by
  unfold retireWeight
  rw [hi]

theorem tidies_retire (hm : f.draft.Mirrors log a W) (ht : (f.draft.withRule i none).Trim log) :
    Tidies log a W f (f.retire i) ∧ (f.retire i).draft.rule? i = none := by
  cases hi : f.draft.rule? i with
  | none =>
      rw [retire_of_none hi]
      obtain ⟨hrules, hweightRules⟩ := Draft.trim_withRule_none_iff.mp ht
      refine ⟨⟨hm, ⟨fun j r hj => hrules j r ?_ hj, hweightRules⟩, fun _ => rfl⟩, hi⟩
      rintro rfl
      exact absurd (hi.symm.trans hj) (by simp)
  | some r =>
      obtain ⟨parts, hparts, hdraft⟩ := draft_retire hi
      have hmirrors := hm.retire hi hparts
      have hforgets := Draft.forgets_forgetAll i parts (d := f.draft.withRule i none) hm.ascending
      rw [← hdraft] at hmirrors hforgets
      obtain ⟨entries, hrest⟩ := hforgets.rest
      refine ⟨⟨hmirrors, ?_, hforgets.resolution⟩, ?_⟩
      · rw [hrest]
        exact ⟨ht.rules, ht.weightRules⟩
      · rw [hrest]
        change (f.draft.withRule i none).rule? i = none
        rw [Draft.rule?_withRule, if_pos ⟨rfl, Draft.lt_of_rule? hi⟩]

theorem tidies_retireWeight (hm : f.draft.Mirrors log a W)
    (ht : (f.draft.withWeightRule i none).Trim log) :
    Tidies log a W f (f.retireWeight i) ∧ (f.retireWeight i).draft.weightRule? i = none := by
  cases hi : f.draft.weightRule? i with
  | none =>
      rw [retireWeight_of_none hi]
      obtain ⟨hrules, hweightRules⟩ := Draft.trim_withWeightRule_none_iff.mp ht
      refine ⟨⟨hm, ⟨hrules, fun j r hj => hweightRules j r ?_ hj⟩, fun _ => rfl⟩, hi⟩
      rintro rfl
      exact absurd (hi.symm.trans hj) (by simp)
  | some r =>
      obtain ⟨parts, hparts, hdraft⟩ := draft_retireWeight hi
      have hmirrors := hm.retireWeight hi hparts
      have hforgets := Draft.forgets_forgetAll i parts (d := f.draft.withWeightRule i none)
        hm.ascending
      rw [← hdraft] at hmirrors hforgets
      obtain ⟨entries, hrest⟩ := hforgets.rest
      refine ⟨⟨hmirrors, ?_, hforgets.resolution⟩, ?_⟩
      · rw [hrest]
        exact ⟨ht.rules, ht.weightRules⟩
      · rw [hrest]
        change (f.draft.withWeightRule i none).weightRule? i = none
        rw [Draft.weightRule?_withWeightRule, if_pos ⟨rfl, Draft.lt_of_weightRule? hi⟩]

/-- A fact is queued before its rule goes. -/
theorem tidies_retire_queueTrue (h : Nat) (hm : f.draft.Mirrors log a W)
    (ht : (f.draft.withRule i none).Trim log) : Tidies log a W f ((f.queueTrue h).retire i) ∧
      ((f.queueTrue h).retire i).draft.rule? i = none := by
  have hmentioned : (f.queueTrue h).draft.Mirrors log a W := hm.mention h
  have hresolution : ∀ b, (f.queueTrue h).draft.resolution b = f.draft.resolution b :=
    Draft.resolution_mention f.draft h
  have htrim : ((f.queueTrue h).draft.withRule i none).Trim log := ⟨ht.rules, ht.weightRules⟩
  obtain ⟨htidies, hnone⟩ := tidies_retire hmentioned htrim
  exact ⟨htidies.trans hresolution, hnone⟩

/-- What is looked at is trim afterwards, or gone. -/
theorem tidies_review (hm : f.draft.Mirrors log a W) (ht : (f.draft.withRule i none).Trim log)
    (hsets : ∀ r, f.draft.rule? i = some r → r.head.Nodup ∧ r.body.Nodup)
    (h : f.review i = .ok g) :
    Tidies log a W f g ∧ ∀ r, g.draft.rule? i = some r → f.draft.rule? i = some r := by
  obtain ⟨hretire, hnone⟩ := tidies_retire hm ht
  have hgone : ∀ {g : Fitting}, g.draft.rule? i = none →
      ∀ r, g.draft.rule? i = some r → f.draft.rule? i = some r :=
    fun hnone r hr => absurd (hnone.symm.trans hr) (by simp)
  unfold review at h
  split at h
  · rename_i hi
    obtain rfl := Except.ok.inj h
    rw [retire_of_none hi] at hretire
    exact ⟨hretire, fun _ => id⟩
  · rename_i r hi
    split at h
    · obtain rfl := Except.ok.inj h
      exact ⟨hretire, hgone hnone⟩
    · exact absurd h (by simp)
    · rename_i x _ _ _
      obtain rfl := Except.ok.inj h
      obtain ⟨hqueued, hnone⟩ := tidies_retire_queueTrue x hm ht
      exact ⟨hqueued, hgone hnone⟩
    · rename_i l _ _ _
      obtain rfl := Except.ok.inj h
      have hdraft := draft_constrain (f.retire i) l
      exact ⟨hretire.of_draft hdraft, hgone (hdraft ▸ hnone)⟩
    · rename_i hchoice hempty hfact hsingle
      obtain rfl := Except.ok.inj h
      refine ⟨⟨hm, ?_, fun _ => rfl⟩, fun _ => id⟩
      have htrim : r.IsTrim := by
        refine ⟨(hsets r hi).1, (hsets r hi).2, ?_⟩
        unfold isTrivial
        split
        · rename_i h1 h2
          exact (hchoice h1 h2).elim
        · rename_i h1 h2 h3
          exact (hfact _ h1 h2 h3).elim
        · rename_i h1 h2 h3
          exact (hempty h1 h2 h3).elim
        · rename_i h1 h2 h3
          exact (hsingle _ h1 h2 h3).elim
        · rfl
      have hself : (f.draft.withRule i (some r)).Trim log :=
        ht.withRule (by simpa using htrim)
      rwa [Draft.withRule_self hi] at hself

/-- The head of a weight rule whose bound is reached has a rule of its own from then on. -/
theorem tidies_release {r : WeightRule} (hi : f.draft.weightRule? i = some r)
    (hm : f.draft.Mirrors log a W) (ht : (f.draft.withWeightRule i none).Trim log)
    (hset : r.head.Nodup) (hbare : ¬(r.choice = true ∧ r.head = [])) (hfree : ¬W .weightHead i)
    (h : f.release r.choice r.head = .ok g) : g.draft.Mirrors log a W ∧
      (g.draft.withWeightRule i none).Trim log ∧
      ∀ b, g.draft.resolution b = f.draft.resolution b := by
  have hplays : ∀ x ∈ r.head, f.draft.Plays x .weightHead i := fun x hx =>
    Draft.plays_of_weightRule? hi (List.mem_append_left _ (List.mem_map.mpr ⟨x, hx, rfl⟩))
  have hparts : ∀ part ∈ Rule.parts ⟨r.choice, r.head, []⟩,
      part.1 ∈ r.head ∧ part.2 = .head := by
    simp only [Rule.parts, List.map_nil, List.append_nil, List.mem_map]
    rintro part ⟨x, hx, rfl⟩
    exact ⟨hx, rfl⟩
  unfold release at h
  split at h
  · exact absurd h (by simp)
  · rename_i x _ _
    obtain rfl := Except.ok.inj h
    exact ⟨hm.mention x, ⟨ht.rules, ht.weightRules⟩, Draft.resolution_mention f.draft x⟩
  · rename_i hempty hfact
    obtain rfl := Except.ok.inj h
    have hp := Draft.pushes_pushRule f.draft ⟨r.choice, r.head, []⟩
    refine ⟨hm.pushRule (fun part hpart => ?_) fun part hpart => ?_, ?_, hp.resolution⟩
    · obtain ⟨hx, hrole⟩ := hparts part hpart
      rw [hrole]
      rcases hm.tracked _ _ _ (hplays _ hx) with htracked | ⟨-, hw⟩
      · exact htracked.imp_right fun h => ⟨h.1, rfl⟩
      · exact absurd hw hfree
    · obtain ⟨hx, hrole⟩ := hparts part hpart
      obtain ⟨hlog, hheads⟩ := hm.stems _ _ _ (hplays _ hx)
      rw [hrole]
      exact ⟨hlog, fun _ => hheads (Or.inr rfl)⟩
    · obtain ⟨hrules, hweightRules⟩ := Draft.trim_withWeightRule_none_iff.mp ht
      refine Draft.trim_withWeightRule_none_iff.mpr ⟨fun j s hj => ?_, fun j s hne hj => ?_⟩
      · rw [Draft.rule?_pushRule] at hj
        split at hj
        · obtain rfl := Option.some.inj hj
          refine ⟨hset, List.nodup_nil, ?_⟩
          unfold isTrivial
          split
          · rename_i h1 h2
            exact absurd ⟨h1, h2⟩ hbare
          · rename_i h1 h2 _
            exact (hfact _ h1 h2).elim
          · rename_i h1 h2 _
            exact (hempty h1 h2).elim
          · rename_i h3
            exact absurd h3 (by simp)
          · rfl
        · exact hrules j s hj
      · rw [Draft.weightRule?_pushRule] at hj
        exact hweightRules j s hne hj

theorem tidies_reviewWeight (hm : f.draft.Mirrors log a W)
    (ht : (f.draft.withWeightRule i none).Trim log)
    (hset : ∀ r, f.draft.weightRule? i = some r → r.head.Nodup)
    (hfree : ∀ r, f.draft.weightRule? i = some r → r.lower ≤ 0 → ¬W .weightHead i)
    (h : f.reviewWeight i = .ok g) : Tidies log a W f g ∧
      ∀ r, g.draft.weightRule? i = some r → f.draft.weightRule? i = some r := by
  obtain ⟨hretire, hnone⟩ := tidies_retireWeight hm ht
  have hgone : ∀ {g : Fitting}, g.draft.weightRule? i = none →
      ∀ r, g.draft.weightRule? i = some r → f.draft.weightRule? i = some r :=
    fun hnone r hr => absurd (hnone.symm.trans hr) (by simp)
  unfold reviewWeight at h
  split at h
  · rename_i hi
    obtain rfl := Except.ok.inj h
    rw [retireWeight_of_none hi] at hretire
    exact ⟨hretire, fun _ => id⟩
  · rename_i r hi
    split at h
    · obtain rfl := Except.ok.inj h
      exact ⟨hretire, hgone hnone⟩
    · rename_i hbare
      have hbare : ¬(r.choice = true ∧ r.head = []) := by simpa using hbare
      split at h
      · rename_i hlower
        obtain ⟨f', hrelease, h⟩ := exists_of_bind_eq_ok h
        obtain rfl := Except.ok.inj h
        obtain ⟨hm', ht', hsame⟩ := tidies_release hi hm ht (hset r hi) hbare
          (hfree r hi hlower) hrelease
        obtain ⟨hgo, hnone'⟩ := tidies_retireWeight hm' ht'
        exact ⟨hgo.trans hsame, hgone hnone'⟩
      · rename_i hlower
        split at h
        · obtain rfl := Except.ok.inj h
          exact ⟨hretire, hgone hnone⟩
        · rename_i htotal
          split at h
          · rename_i l w _ _ _
            obtain rfl := Except.ok.inj h
            split
            · have hdraft := draft_constrain (f.retireWeight i) l
              exact ⟨hretire.of_draft hdraft, hgone (hdraft ▸ hnone)⟩
            · exact ⟨hretire, hgone hnone⟩
          · rename_i hsingle
            obtain rfl := Except.ok.inj h
            refine ⟨⟨hm, ?_, fun _ => rfl⟩, fun _ => id⟩
            have htrim : r.IsTrim log := by
              refine ⟨hset r hi, not_le.mp hlower, not_lt.mp htotal, ?_,
                fun hchoice hnil => absurd ⟨hchoice, hnil⟩ hbare⟩
              rintro ⟨hchoice, hnil, hlength⟩
              obtain ⟨⟨l, w⟩, hbody⟩ := List.length_eq_one_iff.mp hlength
              exact hsingle l w hchoice hnil hbody
            have hself : (f.draft.withWeightRule i (some r)).Trim log :=
              ht.withWeightRule (by simpa using htrim)
            rwa [Draft.withWeightRule_self hi] at hself

/-! ### One role -/

/-- The rules that have yet to be looked at: those on record in the given roles. -/
def Pending (o : Occurrences) (roles : List Role) (role : Role) (i : Nat) : Prop :=
  role ∈ roles ∧ i ∈ o.of role

theorem Tidies.mono (h : Tidies log a W f g)
    (hV : ∀ role i, g.draft.Plays a role i → W role i → V role i) : Tidies log a V f g :=
  ⟨h.mirrors.mono hV, h.trim, h.resolution⟩

/-- A step that leaves a rule without the atom in a role, whatever is still pending in this role
and later ones. -/
def Clears (log : List Observation) (a : Nat) (role : Role) (roles : List Role) (f : Fitting)
    (step : Fitting → Nat → Step) : Prop :=
  ∀ V : Role → Nat → Prop, (∀ role' j, V role' j → role' ∈ role :: roles) → ∀ g i g',
    Tidies log a V f g → step g i = .ok g' → Tidies log a V f g' ∧ ¬g'.draft.Plays a role i

/-- The rules that are left of one role, and those of later ones. -/
def Left (o : Occurrences) (role : Role) (roles : List Role) (is : List Nat) (role' : Role)
    (j : Nat) : Prop :=
  role' = role ∧ j ∈ is ∨ Pending o roles role' j

theorem Left.mem_roles {o : Occurrences} {role' : Role} {j : Nat}
    (h : Left o role roles is role' j) :
    role' ∈ role :: roles := by
  rcases h with ⟨rfl, -⟩ | hlater
  · exact List.mem_cons_self
  · exact List.mem_cons_of_mem _ hlater.1

theorem Tidies.left {o : Occurrences} (h : Tidies log a (Pending o (role :: roles)) f g) :
    Tidies log a (Left o role roles (o.of role)) f g := by
  refine h.mono fun role' j _ hj => ?_
  rcases List.mem_cons.mp hj.1 with rfl | hlater
  · exact Or.inl ⟨rfl, hj.2⟩
  · exact Or.inr ⟨hlater, hj.2⟩

theorem Tidies.advance {o : Occurrences} {step : Fitting → Nat → Step}
    (h : Tidies log a (Left o role roles (i :: is)) f g) (hstep : Clears log a role roles f step)
    (hok : step g i = .ok g') : Tidies log a (Left o role roles is) f g' := by
  obtain ⟨hg, hgone⟩ := hstep _ (fun _ _ => Left.mem_roles) g i g' h hok
  refine hg.mono fun role' j hp hj => ?_
  rcases hj with ⟨rfl, hmem⟩ | hlater
  · rcases List.mem_cons.mp hmem with rfl | hmem
    · exact absurd hp hgone
    · exact Or.inl ⟨rfl, hmem⟩
  · exact Or.inr hlater

/-- What is on record in one role is worked through. -/
theorem Tidies.foldlM {o : Occurrences} {step : Fitting → Nat → Step}
    (h : Tidies log a (Pending o (role :: roles)) f g) (hstep : Clears log a role roles f step)
    (hok : (o.of role).foldlM step g = .ok g') : Tidies log a (Pending o roles) f g' := by
  have hfold : ∀ is g, Tidies log a (Left o role roles is) f g → is.foldlM step g = .ok g' →
      Tidies log a (Left o role roles []) f g' := by
    intro is
    induction is with
    | nil =>
        intro g hg hok
        obtain rfl := Except.ok.inj hok
        exact hg
    | cons i is ih =>
        intro g hg hok
        rw [List.foldlM_cons] at hok
        obtain ⟨g₁, hfirst, hok⟩ := exists_of_bind_eq_ok hok
        exact ih g₁ (hg.advance hstep hfirst) hok
  exact (hfold _ g h.left hok).mono fun _ _ _ hj =>
    hj.resolve_left fun h => List.not_mem_nil h.2

theorem not_plays_of_rule? (hrole : role.isWeighted = false)
    (hno : ∀ r, f.draft.rule? i = some r → (b, role) ∉ r.parts) : ¬f.draft.Plays b role i := by
  intro hp
  obtain ⟨parts, hparts, -⟩ := id hp
  rw [hrole, Draft.parts?_false] at hparts
  obtain ⟨r, hr, -⟩ := Option.map_eq_some_iff.mp hparts
  exact hno r hr (Draft.mem_parts_of_plays hr hp hrole)

theorem not_plays_of_weightRule? (hrole : role.isWeighted = true)
    (hno : ∀ r, f.draft.weightRule? i = some r → (b, role) ∉ r.parts) :
    ¬f.draft.Plays b role i := by
  intro hp
  obtain ⟨parts, hparts, -⟩ := id hp
  rw [hrole, Draft.parts?_true] at hparts
  obtain ⟨r, hr, -⟩ := Option.map_eq_some_iff.mp hparts
  exact hno r hr (Draft.mem_weightParts_of_plays hr hp hrole)

theorem clears_retire (hrole : role.isWeighted = false) :
    Clears log a role roles f fun f i => .ok (f.retire i) := by
  intro V _ g i g' hg hok
  obtain rfl := Except.ok.inj hok
  obtain ⟨hretire, hnone⟩ := tidies_retire hg.mirrors (hg.trim.drop i)
  exact ⟨hretire.trans hg.resolution, not_plays_of_rule? hrole (by simp [hnone])⟩

/-- A rule that loses the atom in a role is looked at. -/
theorem Tidies.review {r r' : Rule} (hg : Tidies log a V f g) (hi : g.draft.rule? i = some r)
    (hr : g.draft.Replaces r.parts (some r'.parts)) (hsets : r'.head.Nodup ∧ r'.body.Nodup)
    (hrole : role.isWeighted = false) (hgone : (a, role) ∉ r'.parts)
    (hok : (g.setRule i (some r')).review i = .ok g') :
    Tidies log a V f g' ∧ ¬g'.draft.Plays a role i := by
  have hself : (g.setRule i (some r')).draft.rule? i = some r' := by
    change (g.draft.withRule i (some r')).rule? i = some r'
    rw [Draft.rule?_withRule, if_pos ⟨rfl, Draft.lt_of_rule? hi⟩]
  obtain ⟨hreview, hkept⟩ := tidies_review (hg.mirrors.narrow hi hr) (hg.trim.set (some r'))
    (fun s hs => Option.some.inj (hself.symm.trans hs) ▸ hsets) hok
  have hsame : ∀ b, (g.setRule i (some r')).draft.resolution b = f.draft.resolution b :=
    hg.resolution
  refine ⟨hreview.trans hsame, not_plays_of_rule? hrole fun s hs => ?_⟩
  exact Option.some.inj (hself.symm.trans (hkept s hs)) ▸ hgone

theorem Tidies.reviewWeight {r r' : WeightRule} (hg : Tidies log a V f g)
    (hi : g.draft.weightRule? i = some r) (hr : g.draft.Replaces r.parts (some r'.parts))
    (hset : r'.head.Nodup) (hfree : r'.lower ≤ 0 → ¬V .weightHead i)
    (hrole : role.isWeighted = true) (hgone : (a, role) ∉ r'.parts)
    (hok : (g.setWeightRule i (some r')).reviewWeight i = .ok g') :
    Tidies log a V f g' ∧ ¬g'.draft.Plays a role i := by
  have hself : (g.setWeightRule i (some r')).draft.weightRule? i = some r' := by
    change (g.draft.withWeightRule i (some r')).weightRule? i = some r'
    rw [Draft.weightRule?_withWeightRule, if_pos ⟨rfl, Draft.lt_of_weightRule? hi⟩]
  obtain ⟨hreview, hkept⟩ := tidies_reviewWeight (hg.mirrors.narrowWeight hi hr)
    (hg.trim.setWeight (some r'))
    (fun s hs => Option.some.inj (hself.symm.trans hs) ▸ hset)
    (fun s hs => Option.some.inj (hself.symm.trans hs) ▸ hfree) hok
  have hsame : ∀ b, (g.setWeightRule i (some r')).draft.resolution b = f.draft.resolution b :=
    hg.resolution
  refine ⟨hreview.trans hsame, not_plays_of_weightRule? hrole fun s hs => ?_⟩
  exact Option.some.inj (hself.symm.trans (hkept s hs)) ▸ hgone

/-! ### The steps -/

/-- The role of a literal with a sign. -/
def signRole (s : Bool) : Role := if s then .positive else .negative

def signWeightRole (s : Bool) : Role := if s then .weightedPositive else .weightedNegative

theorem eq_literalOf {l : Literal} {s : Bool} (hatom : l.atom = a) (hsign : l.isPositive = s) :
    l = literalOf a s := by
  obtain ⟨raw⟩ := l
  simp only [Literal.atom, Literal.isPositive] at hatom hsign
  cases s with
  | true =>
      rw [decide_eq_true_eq] at hsign
      simp only [literalOf, if_true, Literal.positive, Literal.mk.injEq]
      omega
  | false =>
      rw [decide_eq_false_iff_not] at hsign
      simp only [literalOf, Bool.false_eq_true, if_false, Literal.negative, Literal.mk.injEq]
      omega

theorem negate_literalOf (a : Nat) (s : Bool) : (literalOf a s).negate = literalOf a !s := by
  cases s <;> simp [literalOf, Literal.negate, Literal.positive, Literal.negative]

theorem literalOf_mem_of_mem_parts {r : Rule} {s : Bool} (h : (a, signRole s) ∈ r.parts) :
    literalOf a s ∈ r.body := by
  obtain ⟨l, hl, hatom, hsign⟩ := exists_literal_of_mem_parts h
  exact eq_literalOf hatom hsign ▸ hl

theorem literalOf_mem_of_mem_weightParts {r : WeightRule} {s : Bool}
    (h : (a, signWeightRole s) ∈ r.parts) : ∃ e ∈ r.body, e.1 = literalOf a s := by
  simp only [WeightRule.parts, List.mem_append, List.mem_map, Prod.mk.injEq] at h
  rcases h with ⟨x, -, -, hrole⟩ | ⟨e, he, hatom, hrole⟩
  · cases s <;> exact absurd hrole (by simp [signWeightRole])
  · refine ⟨e, he, eq_literalOf hatom ?_⟩
    unfold Literal.weightRole signWeightRole at hrole
    cases s <;> cases hsign : e.1.isPositive <;> simp [hsign] at hrole ⊢

theorem isWeighted_signRole (s : Bool) : (signRole s).isWeighted = false := by
  cases s <;> rfl

theorem isWeighted_signWeightRole (s : Bool) : (signWeightRole s).isWeighted = true := by
  cases s <;> rfl

theorem clears_resolveHead (hres : f.draft.resolution a = some (if value then .on else .off)) :
    Clears log a .head roles f (resolveHead a value) := by
  intro V hV g i g' hg hok
  unfold resolveHead at hok
  split at hok
  · rename_i hi
    obtain rfl := Except.ok.inj hok
    exact ⟨hg, not_plays_of_rule? rfl (by simp [hi])⟩
  · rename_i r hi
    obtain ⟨hhead, hbody, -⟩ := hg.trim.rules i r hi
    split at hok
    · exact clears_retire rfl V hV g i g' hg hok
    · have hno := not_isTracked ((hg.resolution a).trans hres) .head
      refine hg.review hi (replaces_erase_head hno) ⟨hhead.erase a, hbody⟩ rfl (fun hmem => ?_) hok
      exact hhead.not_mem_erase (mem_head_of_mem_parts hmem)

theorem clears_resolveWeightHead
    (hres : f.draft.resolution a = some (if value then .on else .off)) :
    Clears log a .weightHead roles f (resolveWeightHead a value) := by
  intro V hV g i g' hg hok
  unfold resolveWeightHead at hok
  split at hok
  · rename_i hi
    obtain rfl := Except.ok.inj hok
    exact ⟨hg, not_plays_of_weightRule? rfl (by simp [hi])⟩
  · rename_i r hi
    have htrim := hg.trim.weightRules i r hi
    split at hok
    · obtain rfl := Except.ok.inj hok
      obtain ⟨hretire, hnone⟩ := tidies_retireWeight hg.mirrors (hg.trim.dropWeight i)
      exact ⟨hretire.trans hg.resolution, not_plays_of_weightRule? rfl (by simp [hnone])⟩
    · have hno := not_isTracked ((hg.resolution a).trans hres) .weightHead
      refine hg.reviewWeight hi (replaces_erase_weightHead hno) (htrim.head.erase a)
        (fun hlower => ?_) rfl (fun hmem => ?_) hok
      · -- The bound is as it was, and was not reached.
        exact absurd htrim.unreached (not_lt.mpr hlower)
      · exact htrim.head.not_mem_erase (mem_weightHead_of_mem_parts hmem)

theorem clears_satisfy (hres : f.draft.resolution a = some (if value then .on else .off)) :
    Clears log a (signRole value) roles f (satisfy (literalOf a value)) := by
  intro V hV g i g' hg hok
  unfold satisfy at hok
  split at hok
  · rename_i hi
    obtain rfl := Except.ok.inj hok
    exact ⟨hg, not_plays_of_rule? (isWeighted_signRole value) (by simp [hi])⟩
  · rename_i r hi
    obtain ⟨hhead, hbody, -⟩ := hg.trim.rules i r hi
    refine hg.review hi (replaces_erase_body ?_) ⟨hhead, hbody.erase _⟩
      (isWeighted_signRole value) (fun hmem => ?_) hok
    · rw [atom_literalOf]
      exact not_isTracked ((hg.resolution a).trans hres) _
    · exact hbody.not_mem_erase (literalOf_mem_of_mem_parts hmem)

theorem not_mem_withoutLiteral {l : Literal} {body : List (Literal × Int)} {e : Literal × Int}
    (h : e ∈ withoutLiteral l body) : e.1 ≠ l := by
  have hne := (List.mem_filter.mp h).2
  simpa using hne

theorem clears_satisfyWeight (hres : f.draft.resolution a = some (if value then .on else .off))
    (hlate : .weightHead ∉ signWeightRole value :: roles) :
    Clears log a (signWeightRole value) roles f (satisfyWeight (literalOf a value)) := by
  intro V hV g i g' hg hok
  unfold satisfyWeight at hok
  split at hok
  · rename_i hi
    obtain rfl := Except.ok.inj hok
    exact ⟨hg, not_plays_of_weightRule? (isWeighted_signWeightRole value) (by simp [hi])⟩
  · rename_i r hi
    refine hg.reviewWeight hi (replaces_withoutLiteral ?_) (hg.trim.weightRules i r hi).head
      (fun _ hv => hlate (hV _ _ hv)) (isWeighted_signWeightRole value) (fun hmem => ?_) hok
    · rw [atom_literalOf]
      exact not_isTracked ((hg.resolution a).trans hres) _
    · obtain ⟨e, he, heq⟩ := literalOf_mem_of_mem_weightParts hmem
      exact not_mem_withoutLiteral he heq

theorem clears_falsifyWeight {s : Bool}
    (hres : ¬f.draft.IsTracked (literalOf a s).atom (literalOf a s).weightRole)
    (hlate : .weightHead ∉ signWeightRole s :: roles) :
    Clears log a (signWeightRole s) roles f (falsifyWeight (literalOf a s)) := by
  intro V hV g i g' hg hok
  unfold falsifyWeight at hok
  split at hok
  · rename_i hi
    obtain rfl := Except.ok.inj hok
    exact ⟨hg, not_plays_of_weightRule? (isWeighted_signWeightRole s) (by simp [hi])⟩
  · rename_i r hi
    refine hg.reviewWeight hi (replaces_withoutLiteral ?_) (hg.trim.weightRules i r hi).head
      (fun _ hv => hlate (hV _ _ hv)) (isWeighted_signWeightRole s) (fun hmem => ?_) hok
    · unfold Draft.IsTracked at hres ⊢
      rwa [hg.resolution]
    · obtain ⟨e, he, heq⟩ := literalOf_mem_of_mem_weightParts hmem
      exact not_mem_withoutLiteral he heq

/-! ### One atom -/

theorem foldlM_retire (is : List Nat) (f : Fitting) :
    is.foldlM (fun f i => (Except.ok (f.retire i) : Step)) f = .ok (is.foldl retire f) := by
  induction is generalizing f with
  | nil => rfl
  | cons i is ih => exact ih (f.retire i)

/-- The roles in which a decided atom is worked through, in order. -/
def roleOrder (value : Bool) : List Role :=
  [.head, .weightHead, signRole value, signRole !value, signWeightRole value, signWeightRole !value]

/-- What is on record is worked through role by role. -/
theorem propagate_eq (f : Fitting) (a : Nat) (value : Bool) : f.propagate a value = (do
    let o := f.draft.occurrences a
    let g ← (o.of .head).foldlM (resolveHead a value) (f.mapOccurrences a fun _ => {})
    let g ← (o.of .weightHead).foldlM (resolveWeightHead a value) g
    let g ← (o.of (signRole value)).foldlM (satisfy (literalOf a value)) g
    let g ← (o.of (signRole !value)).foldlM (fun g i => .ok (g.retire i)) g
    let g ← (o.of (signWeightRole value)).foldlM (satisfyWeight (literalOf a value)) g
    (o.of (signWeightRole !value)).foldlM (falsifyWeight (literalOf a !value)) g) := by
  unfold propagate
  rw [← negate_literalOf]
  simp only [foldlM_retire]
  cases value <;> rfl

/-- Propagating a value looks at all rules that have the atom. -/
theorem tidies_propagate (hres : f.draft.resolution a = some (if value then .on else .off))
    (hm : (f.mapOccurrences a fun _ => {}).draft.Mirrors log a
      (Pending (f.draft.occurrences a) (roleOrder value)))
    (ht : f.draft.Trim log) (hok : f.propagate a value = .ok g) :
    Tidies log a (fun _ _ => False) f g := by
  have hstart : Tidies log a (Pending (f.draft.occurrences a) (roleOrder value)) f
      (f.mapOccurrences a fun _ => {}) :=
    ⟨hm, ⟨ht.rules, ht.weightRules⟩, fun b => Draft.resolution_mapOccurrences _ _ b _⟩
  have hlate : ∀ s, Role.weightHead ≠ signWeightRole s := by
    intro s
    cases s <;> simp [signWeightRole]
  rw [propagate_eq] at hok
  obtain ⟨g₁, h₁, hok⟩ := exists_of_bind_eq_ok hok
  obtain ⟨g₂, h₂, hok⟩ := exists_of_bind_eq_ok hok
  obtain ⟨g₃, h₃, hok⟩ := exists_of_bind_eq_ok hok
  obtain ⟨g₄, h₄, hok⟩ := exists_of_bind_eq_ok hok
  obtain ⟨g₅, h₅, hok⟩ := exists_of_bind_eq_ok hok
  have hhead := hstart.foldlM (clears_resolveHead hres) h₁
  have hweightHead := hhead.foldlM (clears_resolveWeightHead hres) h₂
  have hsatisfy := hweightHead.foldlM (clears_satisfy hres) h₃
  have hretire := hsatisfy.foldlM (clears_retire (isWeighted_signRole !value)) h₄
  have hweight := hretire.foldlM (clears_satisfyWeight hres (by simp [hlate])) h₅
  refine (hweight.foldlM (clears_falsifyWeight ?_ (by simp [hlate])) hok).mono
    fun role i _ hp => absurd hp.1 List.not_mem_nil
  rw [atom_literalOf]
  exact not_isTracked hres _

end Fitting

end StablePlan
