import StablePlan.Proofs.Transition.Closure

/-!
What a fitting knows, and what it owes for it. It knows what it has resolved and what waits to be
resolved. The rules that it has dropped were spent by that, the atoms of their heads wait to be
false where no rule is left, and its facts were given or derived. A step infers if it adds nothing
but what is part of all closed knowledge that contains what was known; it may fail where there is
none.
-/

namespace StablePlan

namespace Draft

variable {e : Draft} {b i : Nat}

/-! ### Heads -/

theorem isHead_iff_plays : e.IsHead b ↔ ∃ i, e.Plays b .head i ∨ e.Plays b .weightHead i := by
  constructor
  · rintro (⟨i, r, hi, hb⟩ | ⟨i, r, hi, hb⟩)
    · exact ⟨i, Or.inl (plays_of_rule? hi
        (List.mem_append_left _ (List.mem_map.mpr ⟨b, hb, rfl⟩)))⟩
    · exact ⟨i, Or.inr (plays_of_weightRule? hi
        (List.mem_append_left _ (List.mem_map.mpr ⟨b, hb, rfl⟩)))⟩
  · rintro ⟨i, ⟨parts, hparts, hmem⟩ | ⟨parts, hparts, hmem⟩⟩
    · obtain ⟨r, hr, rfl⟩ := Option.map_eq_some_iff.mp hparts
      exact Or.inl ⟨i, r, hr, Fitting.mem_head_of_mem_parts hmem⟩
    · obtain ⟨r, hr, rfl⟩ := Option.map_eq_some_iff.mp hparts
      exact Or.inr ⟨i, r, hr, Fitting.mem_weightHead_of_mem_parts hmem⟩

/-- An atom only loses its rule where the rule is gone or has lost the atom. -/
theorem IsHead.withRule {s : Rule} (h : e.IsHead b) (hi : e.rule? i = some s)
    (s' : Option Rule) : (e.withRule i s').IsHead b ∨ b ∈ s.head ∧ ∀ r ∈ s', b ∉ r.head := by
  rcases h with ⟨j, r, hj, hb⟩ | ⟨j, r, hj, hb⟩
  · by_cases hji : j = i
    · subst hji
      obtain rfl := Option.some.inj (hi.symm.trans hj)
      by_cases hkept : ∃ r ∈ s', b ∈ r.head
      · obtain ⟨r, hr, hbr⟩ := hkept
        refine Or.inl (Or.inl ⟨j, r, ?_, hbr⟩)
        rw [rule?_withRule, if_pos ⟨rfl, lt_of_rule? hi⟩]
        exact hr
      · exact Or.inr ⟨hb, fun r hr hbr => hkept ⟨r, hr, hbr⟩⟩
    · refine Or.inl (Or.inl ⟨j, r, ?_, hb⟩)
      rw [rule?_withRule, if_neg fun h => hji h.1, hj]
  · exact Or.inl (Or.inr ⟨j, r, hj, hb⟩)

theorem IsHead.withWeightRule {s : WeightRule} (h : e.IsHead b) (hi : e.weightRule? i = some s)
    (s' : Option WeightRule) :
    (e.withWeightRule i s').IsHead b ∨ b ∈ s.head ∧ ∀ r ∈ s', b ∉ r.head := by
  rcases h with ⟨j, r, hj, hb⟩ | ⟨j, r, hj, hb⟩
  · exact Or.inl (Or.inl ⟨j, r, hj, hb⟩)
  · by_cases hji : j = i
    · subst hji
      obtain rfl := Option.some.inj (hi.symm.trans hj)
      by_cases hkept : ∃ r ∈ s', b ∈ r.head
      · obtain ⟨r, hr, hbr⟩ := hkept
        refine Or.inl (Or.inr ⟨j, r, ?_, hbr⟩)
        rw [weightRule?_withWeightRule, if_pos ⟨rfl, lt_of_weightRule? hi⟩]
        exact hr
      · exact Or.inr ⟨hb, fun r hr hbr => hkept ⟨r, hr, hbr⟩⟩
    · refine Or.inl (Or.inr ⟨j, r, ?_, hb⟩)
      rw [weightRule?_withWeightRule, if_neg fun h => hji h.1, hj]

end Draft

namespace Fitting

variable {d : Draft} {f g : Fitting} {freed : List Nat} {K L T : Knowledge}
  {log : List Observation} {a b i : Nat} {W : Role → Nat → Prop} {heads : List Nat}

/-! ### What is known -/

/-- What a fitting knows: what is resolved and what waits. -/
def known (f : Fitting) : Knowledge
  | .on, a => f.facts.contains a
  | .off, a => f.isSettled .off a || f.falseQueue.contains a
  | .cautious, a => f.isSettled .cautious a || f.cautiousQueue.contains a || f.facts.contains a

@[simp] theorem isSettled_on_iff : f.isSettled .on a ↔ f.draft.resolution a = some .on := by
  simp [isSettled]

@[simp] theorem isSettled_off_iff : f.isSettled .off a ↔ f.draft.resolution a = some .off := by
  simp [isSettled]

@[simp] theorem isSettled_cautious_iff : f.isSettled .cautious a ↔
    f.draft.resolution a = some .cautious ∨ f.draft.resolution a = some .on := by
  simp [isSettled]

@[simp] theorem known_on_iff : f.known .on a ↔ a ∈ f.facts := by
  simp [known]

@[simp] theorem known_off_iff :
    f.known .off a ↔ f.draft.resolution a = some .off ∨ a ∈ f.falseQueue := by
  simp [known]

@[simp] theorem known_cautious_iff : f.known .cautious a ↔
    (f.draft.resolution a = some .cautious ∨ f.draft.resolution a = some .on) ∨
      a ∈ f.cautiousQueue ∨ a ∈ f.facts := by
  simp [known, or_assoc]

theorem consistent_isSettled (f : Fitting) : Knowledge.Consistent f.isSettled := by
  refine ⟨fun a ha => ?_, fun a hoff hcautious => ?_⟩
  · rw [isSettled_on_iff] at ha
    exact isSettled_cautious_iff.mpr (Or.inr ha)
  · rw [isSettled_off_iff] at hoff
    rw [isSettled_cautious_iff, hoff] at hcautious
    simp at hcautious

theorem isSettled_congr (h : ∀ b, g.draft.resolution b = f.draft.resolution b) :
    g.isSettled = f.isSettled := by
  funext goal b
  unfold isSettled
  rw [h]

theorem known_mono (h : ∀ b, g.draft.resolution b = f.draft.resolution b)
    (hfacts : ∀ b ∈ f.facts, b ∈ g.facts) (hfalse : ∀ b ∈ f.falseQueue, b ∈ g.falseQueue)
    (hcautious : ∀ b ∈ f.cautiousQueue, b ∈ g.cautiousQueue) : f.known ≤ g.known := by
  refine Knowledge.le_iff.mpr fun goal b => ?_
  cases goal with
  | on => simpa using hfacts b
  | off =>
      rw [known_off_iff, known_off_iff, h]
      exact Or.imp_right (hfalse b)
  | cautious =>
      rw [known_cautious_iff, known_cautious_iff, h]
      exact Or.imp_right (Or.imp (hcautious b) (hfacts b))

theorem decides_isSettled_iff : Knowledge.decides f.isSettled b ↔ isDecided f.draft b := by
  simp [Knowledge.decides, isDecided, isSettled]

/-! ### Atoms without a rule -/

/-- An atom that is false unless a rule derives it. -/
def NeedsRule (f : Fitting) (b : Nat) : Prop :=
  b ∉ f.draft.externals ∧ b ∉ f.facts ∧ isDecided f.draft b = false

theorem isSupported_iff {e : Draft} (hm : e.Mirrors log a W) (hopen : isDecided e b = false) :
    (e.occurrences b).isSupported ↔ e.IsHead b := by
  have htracked : e.resolution b = none ∨ e.resolution b = some .cautious := by
    unfold isDecided at hopen
    rcases hr : e.resolution b with _ | _ | _ | _ <;> simp [hr] at hopen ⊢
  have hplays : ∀ role : Role, role.isNegative = false →
      ∀ i, i ∈ e.record b role ↔ e.Plays b role i := by
    intro role hrole i
    rw [hm.record]
    exact and_iff_right (htracked.imp_right fun h => ⟨h, hrole⟩)
  have hsome : ∀ is : List Nat, (!is.isEmpty) = true ↔ ∃ i, i ∈ is := by
    intro is
    cases is <;> simp
  unfold Occurrences.isSupported
  rw [Draft.isHead_iff_plays, Bool.or_eq_true, hsome, hsome, ← exists_or]
  exact exists_congr fun i => or_congr (hplays .head rfl i) (hplays .weightHead rfl i)

theorem needsRule_congr (hexternals : g.draft.externals = f.draft.externals)
    (hfacts : g.facts = f.facts) (hresolution : g.draft.resolution b = f.draft.resolution b) :
    g.NeedsRule b ↔ f.NeedsRule b := by
  unfold NeedsRule isDecided
  rw [hexternals, hfacts, hresolution]

/-- The heads of a rule that is dropped are queued as false where no rule is left. -/
structure Drops (f g : Fitting) (heads : List Nat) : Prop where
  facts : g.facts = f.facts
  trueQueue : g.trueQueue = f.trueQueue
  cautiousQueue : g.cautiousQueue = f.cautiousQueue
  externals : g.draft.externals = f.draft.externals
  resolution : ∀ b, g.draft.resolution b = f.draft.resolution b
  queued : ∀ b, b ∈ g.falseQueue ↔ b ∈ f.falseQueue ∨
    b ∈ heads ∧ g.NeedsRule b ∧ (g.draft.occurrences b).isSupported = false

theorem Drops.needsRule_iff (h : Drops f g heads) : g.NeedsRule b ↔ f.NeedsRule b :=
  needsRule_congr h.externals h.facts (h.resolution b)

theorem mem_falseQueue_checkSupport (f : Fitting) (h : Nat) : b ∈ (f.checkSupport h).falseQueue ↔
    b ∈ f.falseQueue ∨ b = h ∧ f.NeedsRule b ∧ (f.draft.occurrences b).isSupported = false := by
  unfold checkSupport NeedsRule
  split
  · rename_i hno
    refine (or_iff_left ?_).symm
    rintro ⟨rfl, ⟨hexternal, hfact, hdecided⟩, hsupported⟩
    simp [hexternal, hfact, hdecided, hsupported] at hno
  · rename_i hyes
    simp only [Bool.or_eq_true, List.contains_iff_mem, not_or, Bool.not_eq_true] at hyes
    obtain ⟨⟨⟨hsupported, hexternal⟩, hfact⟩, hdecided⟩ := hyes
    simp only [queueFalse, List.mem_append, List.mem_singleton]
    refine or_congr_right ⟨?_, And.left⟩
    rintro rfl
    exact ⟨rfl, ⟨hexternal, hfact, hdecided⟩, hsupported⟩

theorem drops_checkSupport_mapOccurrences (f : Fitting) (h : Nat) (G : Occurrences → Occurrences) :
    Drops f ((f.mapOccurrences h G).checkSupport h) [h] := by
  have hdraft := draft_checkSupport (f.mapOccurrences h G) h
  have hrest : ((f.mapOccurrences h G).checkSupport h).facts = f.facts ∧
      ((f.mapOccurrences h G).checkSupport h).trueQueue = f.trueQueue ∧
      ((f.mapOccurrences h G).checkSupport h).cautiousQueue = f.cautiousQueue := by
    unfold checkSupport
    split <;> exact ⟨rfl, rfl, rfl⟩
  refine ⟨hrest.1, hrest.2.1, hrest.2.2, ?_, fun b => ?_, fun b => ?_⟩
  · rw [hdraft]
    rfl
  · rw [hdraft]
    exact Draft.resolution_mapOccurrences f.draft h b G
  · rw [mem_falseQueue_checkSupport, List.mem_singleton]
    unfold NeedsRule
    rw [hdraft, hrest.1]
    exact Iff.rfl

theorem drops_foldl {G : Occurrences → Occurrences}
    (hG : ∀ o, (G o).isSupported → o.isSupported) (heads : List Nat) (f : Fitting) :
    let g := heads.foldl (fun f h => (f.mapOccurrences h G).checkSupport h) f
    Drops f g heads ∧
      (∀ b, (g.draft.occurrences b).isSupported → (f.draft.occurrences b).isSupported) ∧
      ∀ b ∉ heads, g.draft.occurrences b = f.draft.occurrences b := by
  induction heads generalizing f with
  | nil => exact ⟨⟨rfl, rfl, rfl, rfl, fun _ => rfl, by simp⟩, fun _ => id, fun _ _ => rfl⟩
  | cons h heads ih =>
      intro g
      have hfirst := drops_checkSupport_mapOccurrences f h G
      have hoccurrences : ∀ b, ((f.mapOccurrences h G).checkSupport h).draft.occurrences b =
          if b = h ∧ h < f.draft.entries.size then G (f.draft.occurrences h)
          else f.draft.occurrences b := by
        intro b
        rw [draft_checkSupport]
        exact Draft.occurrences_mapOccurrences f.draft h b G
      obtain ⟨hrest, hshrinks, hkept⟩ := ih ((f.mapOccurrences h G).checkSupport h)
      change Drops _ g heads at hrest
      change ∀ b, (g.draft.occurrences b).isSupported → _ at hshrinks
      change ∀ b ∉ heads, g.draft.occurrences b = _ at hkept
      generalize (f.mapOccurrences h G).checkSupport h = f' at *
      refine ⟨⟨hrest.facts.trans hfirst.facts, hrest.trueQueue.trans hfirst.trueQueue,
        hrest.cautiousQueue.trans hfirst.cautiousQueue, hrest.externals.trans hfirst.externals,
        fun b => (hrest.resolution b).trans (hfirst.resolution b), fun b => ?_⟩, fun b hb => ?_,
        fun b hb => ?_⟩
      · rw [hrest.queued, hfirst.queued, hrest.needsRule_iff, List.mem_singleton, List.mem_cons,
          or_assoc]
        -- Support only shrinks: what has none when its turn comes has none at the end.
        refine or_congr_right ⟨?_, ?_⟩
        · rintro (⟨rfl, hneeds, hno⟩ | ⟨hmem, hrest⟩)
          · refine ⟨Or.inl rfl, hneeds, ?_⟩
            by_contra hyes
            exact absurd (hshrinks b (by simpa using hyes)) (by simp [hno])
          · exact ⟨Or.inr hmem, hrest⟩
        · rintro ⟨hmem, hneeds, hno⟩
          by_cases hlater : b ∈ heads
          · exact Or.inr ⟨hlater, hneeds, hno⟩
          · rw [hkept b hlater] at hno
            exact Or.inl ⟨hmem.resolve_right hlater, hneeds, hno⟩
      · have hb := hshrinks b hb
        rw [hoccurrences] at hb
        split at hb
        · rename_i hself
          exact hself.1 ▸ hG _ hb
        · exact hb
      · rw [List.mem_cons, not_or] at hb
        rw [hkept b hb.2, hoccurrences, if_neg fun h => hb.1 h.1]

theorem foldl_mapOccurrences {α : Type} (atom : α → Nat) (G : α → Occurrences → Occurrences)
    (xs : List α) (f : Fitting) : ∃ entries,
      xs.foldl (fun f x => f.mapOccurrences (atom x) (G x)) f =
        { f with draft := { f.draft with entries } } ∧
      ∀ b, Draft.resolution { f.draft with entries } b = f.draft.resolution b := by
  induction xs generalizing f with
  | nil => exact ⟨_, rfl, fun _ => rfl⟩
  | cons x xs ih =>
      obtain ⟨entries, heq, hresolution⟩ := ih (f.mapOccurrences (atom x) (G x))
      refine ⟨entries, heq, fun b => (hresolution b).trans ?_⟩
      exact Draft.resolution_mapOccurrences f.draft (atom x) b (G x)

theorem isSupported_of_erase {o : Occurrences} (h : (o.inHead (·.erase i)).isSupported) :
    o.isSupported := by
  unfold Occurrences.isSupported Occurrences.inHead at *
  cases hheads : o.heads <;> simp_all

theorem isSupported_of_erase_weight {o : Occurrences}
    (h : (o.inWeightHead (·.erase i)).isSupported) : o.isSupported := by
  unfold Occurrences.isSupported Occurrences.inWeightHead at *
  cases hheads : o.weightHeads <;> simp_all

theorem drops_retire {r : Rule} (hi : f.draft.rule? i = some r) :
    Drops f (f.retire i) r.head := by
  unfold retire
  rw [hi]
  dsimp only
  obtain ⟨entries, heq, hresolution⟩ := foldl_mapOccurrences (fun l : Literal => l.atom)
    (fun l => .inBody (·.erase i) l) r.body (f.setRule i none)
  rw [heq]
  obtain ⟨hdrops, -, -⟩ := drops_foldl (fun _ => isSupported_of_erase (i := i)) r.head
    { f.setRule i none with draft := { (f.setRule i none).draft with entries } }
  exact ⟨hdrops.facts, hdrops.trueQueue, hdrops.cautiousQueue, hdrops.externals,
    fun b => (hdrops.resolution b).trans (hresolution b), hdrops.queued⟩

theorem drops_retireWeight {r : WeightRule} (hi : f.draft.weightRule? i = some r) :
    Drops f (f.retireWeight i) r.head := by
  unfold retireWeight
  rw [hi]
  dsimp only
  obtain ⟨entries, heq, hresolution⟩ := foldl_mapOccurrences
    (fun e : Literal × Int => e.1.atom) (fun e => .inWeightBody (·.erase i) e.1) r.body
    (f.setWeightRule i none)
  rw [heq]
  obtain ⟨hdrops, -, -⟩ := drops_foldl (fun _ => isSupported_of_erase_weight (i := i)) r.head
    { f.setWeightRule i none with draft := { (f.setWeightRule i none).draft with entries } }
  exact ⟨hdrops.facts, hdrops.trueQueue, hdrops.cautiousQueue, hdrops.externals,
    fun b => (hdrops.resolution b).trans (hresolution b), hdrops.queued⟩

theorem Drops.known_le (h : Drops f g heads) : f.known ≤ g.known := by
  refine known_mono h.resolution (fun b hb => h.facts ▸ hb) (fun b hb => ?_) fun b hb =>
    h.cautiousQueue ▸ hb
  exact (h.queued b).mpr (Or.inl hb)

/-! ### What a fitting owes -/

/-- Facts are those of the draft and what its rules derive; they wait until they are on. -/
structure Founded (d : Draft) (f : Fitting) : Prop where
  externals : f.draft.externals = d.externals
  given : ∀ b ∈ d.facts, b ∈ f.facts
  derived : ∀ b ∈ f.facts, b ∈ d.facts ∨ d.Derives f.isSettled b
  on : ∀ b, f.draft.resolution b = some .on → b ∈ f.facts
  waits : ∀ b ∈ f.facts, b ∈ f.trueQueue ∨ f.draft.resolution b = some .on

/-- Where an atom has lost all its rules, it waits to be false. -/
def Supported (d : Draft) (f : Fitting) : Prop :=
  ∀ b, d.IsHead b → f.NeedsRule b → b ∈ f.falseQueue ∨ f.draft.IsHead b

/-- Apart from the rules that are left, a fitting is as its draft has it. -/
structure Stands (d : Draft) (freed : List Nat) (L : Knowledge) (f : Fitting) : Prop where
  accounts : d.Accounts freed f.isSettled L f.draft
  supported : Supported d f
  founded : Founded d f

theorem Founded.isSettled_le (h : Founded d f) : f.isSettled ≤ f.known := by
  refine Knowledge.le_iff.mpr fun goal b => ?_
  cases goal with
  | on => simpa using h.on b
  | off => simpa using Or.inl
  | cautious => simpa using fun hb => Or.inl hb

/-- A fitting stays founded as long as facts and resolutions stay. -/
theorem Founded.congr (h : Founded d f) (hexternals : g.draft.externals = f.draft.externals)
    (hfacts : g.facts = f.facts) (hresolution : ∀ b, g.draft.resolution b = f.draft.resolution b)
    (htrue : ∀ b ∈ f.trueQueue, b ∈ g.trueQueue ∨ f.draft.resolution b = some .on) :
    Founded d g := by
  refine ⟨hexternals.trans h.externals, fun b hb => ?_, fun b hb => ?_, fun b hb => ?_,
    fun b hb => ?_⟩
  · exact hfacts ▸ h.given b hb
  · rw [isSettled_congr hresolution]
    exact h.derived b (hfacts ▸ hb)
  · rw [hfacts]
    exact h.on b ((hresolution b).symm.trans hb)
  · rw [hresolution]
    exact (h.waits b (hfacts ▸ hb)).elim (htrue b) Or.inr

theorem Stands.mono (h : Stands d freed K f) (hw : d.Weighs) (hKL : K ≤ L) :
    Stands d freed L f := ⟨h.accounts.mono hw le_rfl hKL, h.supported, h.founded⟩

/-- The rules of an atom that has none left are spent. -/
theorem spent_of_not_isHead (hlive : d.Descends freed f.isSettled f.draft)
    (haccounts : d.Accounts freed f.isSettled L f.draft) (hopen : isDecided f.draft b = false)
    (hno : ¬f.draft.IsHead b) :
    (∀ i r, d.rule? i = some r → b ∈ r.head → r.spent L) ∧
      ∀ j r, d.weightRule? j = some r → b ∈ r.head → r.spent L := by
  have hkept : ∀ {choice : Bool} {xs ys : List Nat},
      Sheds (Knowledge.OmitsHead f.isSettled choice) xs ys → b ∈ xs → b ∈ ys := by
    intro choice xs ys h hb
    refine (h.mem_or_lost hb).resolve_right fun hlost => ?_
    have hdecided := decides_isSettled_iff.mp hlost.decides
    simp [hopen] at hdecided
  have hsource : ∀ i r, d.source? freed i = some r → b ∈ r.head → r.spent L := by
    intro i r hr hb
    cases hi : f.draft.rule? i with
    | none => exact haccounts.rules i r hr hi
    | some s =>
        exact absurd (Or.inl ⟨i, s, hi, hkept (hlive.leaves hi hr).head hb⟩) hno
  refine ⟨fun i r hi => hsource i r (Draft.source?_of_rule? hi), fun j r hr hb => ?_⟩
  cases hj : f.draft.weightRule? j with
  | none =>
      rcases (haccounts.weightRules j r hr hj).1 with hfreed | hspent
      · obtain ⟨i, hi⟩ := Draft.exists_source?_of_freed hfreed hr
        have hclosed := WeightRule.spent_freed.symm.trans (hsource i r.freed hi hb)
        exact WeightRule.spent_iff.mpr (Or.inr hclosed)
      · exact hspent
  | some s =>
      exact absurd (Or.inr ⟨j, s, hj, hkept (hlive.weightLeaves hj hr).head hb⟩) hno

section Drops

variable (hd : Drops f g heads) (hm : g.draft.Mirrors log a W)
include hd hm

theorem Drops.supported (hf : Supported d f)
    (hrules : ∀ b, f.draft.IsHead b → g.draft.IsHead b ∨ b ∈ heads) : Supported d g := by
  intro b hhead hneeds
  by_cases hrule : g.draft.IsHead b
  · exact Or.inr hrule
  · refine Or.inl ((hd.queued b).mpr ?_)
    refine (hf b hhead (hd.needsRule_iff.mp hneeds)).imp_right fun hold => ?_
    refine ⟨(hrules b hold).resolve_left hrule, hneeds, ?_⟩
    by_contra hyes
    exact hrule ((isSupported_iff hm hneeds.2.2).mp (by simpa using hyes))

/-- What is queued as false because a rule is dropped follows. -/
theorem Drops.within (hw : d.Weighs) (hlive : d.Descends freed g.isSettled g.draft)
    (hs : Stands d freed L g) (hheads : ∀ b ∈ heads, d.IsHead b)
    (hon : ∀ b, L .on b → b ∈ g.facts) (hT : d.Closed T) (hL : L ≤ T) (hf : f.known ≤ T) :
    g.known ≤ T := by
  refine Knowledge.le_iff.mpr fun goal b hb => ?_
  cases goal with
  | on =>
      rw [known_on_iff, hd.facts] at hb
      exact hf .on b (known_on_iff.mpr hb)
  | cautious =>
      rw [known_cautious_iff, hd.resolution, hd.cautiousQueue, hd.facts] at hb
      exact hf .cautious b (known_cautious_iff.mpr hb)
  | off =>
      rw [known_off_iff, hd.resolution, hd.queued, ← or_assoc] at hb
      rcases hb with hb | ⟨hmem, hneeds, hsupported⟩
      · exact hf .off b (known_off_iff.mpr hb)
      · have hno : ¬g.draft.IsHead b := fun hrule => by
          have hyes := (isSupported_iff hm hneeds.2.2).mpr hrule
          simp [hsupported] at hyes
        obtain ⟨hrules, hweightRules⟩ :=
          spent_of_not_isHead hlive hs.accounts hneeds.2.2 hno
        exact hT.off_of_unsupported hw hL (hheads b hmem) (hs.founded.externals ▸ hneeds.1)
          (fun hfact => hneeds.2.1 (hs.founded.given b hfact)) (fun h => hneeds.2.1 (hon b h))
          hrules hweightRules

end Drops

/-! ### Dropping a rule -/

/-- A rule has been dropped that was spent by `L`. -/
structure Retires (d : Draft) (freed : List Nat) (L : Knowledge) (f g : Fitting) : Prop where
  descends : d.Descends freed g.isSettled g.draft
  stands : Stands d freed L g
  grows : f.known ≤ g.known
  within : ∀ T, d.Closed T → L ≤ T → f.known ≤ T → g.known ≤ T

theorem Founded.drops (h : Founded d f) (hd : Drops f g heads) : Founded d g :=
  h.congr hd.externals hd.facts hd.resolution fun _ hb => Or.inl (hd.trueQueue ▸ hb)

theorem retires_retire {s : Rule} (hw : d.Weighs) (hlive : d.Descends freed f.isSettled f.draft)
    (hs : Stands d freed L f) (hm : f.draft.Mirrors log a W) (hi : f.draft.rule? i = some s)
    (hspent : ∀ r, d.source? freed i = some r → r.spent L) (hon : ∀ b, L .on b → b ∈ f.facts) :
    Retires d freed L f (f.retire i) := by
  have hd := drops_retire hi
  obtain ⟨parts, hparts, hdraft⟩ := draft_retire hi
  have hmirrors := hm.retire hi hparts
  obtain ⟨entries, hrest⟩ := (Draft.forgets_forgetAll i parts (d := f.draft.withRule i none)
    hm.ascending).rest
  rw [← hdraft] at hmirrors hrest
  have hlive' : d.Descends freed (f.retire i).isSettled (f.retire i).draft := by
    rw [isSettled_congr hd.resolution, hrest]
    exact (hlive.drop i).entries
  have hrules : ∀ b, f.draft.IsHead b → (f.retire i).draft.IsHead b ∨ b ∈ s.head := by
    intro b hb
    rw [hrest]
    exact (hb.withRule hi none).imp_right And.left
  have haccounts : d.Accounts freed (f.retire i).isSettled L (f.retire i).draft := by
    rw [isSettled_congr hd.resolution, hrest]
    exact (hs.accounts.drop hspent).entries
  have hstands : Stands d freed L (f.retire i) :=
    ⟨haccounts, hd.supported hmirrors hs.supported hrules, hs.founded.drops hd⟩
  have hheads : ∀ b ∈ s.head, d.IsHead b := by
    intro b hb
    obtain ⟨r, hr, hleaves⟩ := hlive.rules i s hi
    have hb := hleaves.head.mem_of_mem hb
    rcases Draft.source?_cases hr with hr | ⟨j, -, q, hq, rfl⟩
    · exact Or.inl ⟨i, r, hr, hb⟩
    · exact Or.inr ⟨j, q, hq, hb⟩
  exact ⟨hlive', hstands, hd.known_le, fun T hT hL hf => hd.within hmirrors hw hlive' hstands hheads
    (fun b hb => hd.facts ▸ hon b hb) hT hL hf⟩

theorem retires_retireWeight {r s : WeightRule} (hw : d.Weighs)
    (hlive : d.Descends freed f.isSettled (f.draft.withWeightRule i none))
    (hs : Stands d freed L f) (hm : f.draft.Mirrors log a W) (hi : f.draft.weightRule? i = some s)
    (hr : d.weightRule? i = some r) (hleaves : r.Leaves f.isSettled s)
    (hspent : i ∈ freed ∨ r.spent L)
    (htouched : r.choice = true → r.head = [] → Draft.IsTouched f.isSettled r)
    (hon : ∀ b, L .on b → b ∈ f.facts) : Retires d freed L f (f.retireWeight i) := by
  have hd := drops_retireWeight hi
  obtain ⟨parts, hparts, hdraft⟩ := draft_retireWeight hi
  have hmirrors := hm.retireWeight hi hparts
  obtain ⟨entries, hrest⟩ := (Draft.forgets_forgetAll i parts
    (d := f.draft.withWeightRule i none) hm.ascending).rest
  rw [← hdraft] at hmirrors hrest
  have hlive' : d.Descends freed (f.retireWeight i).isSettled (f.retireWeight i).draft := by
    rw [isSettled_congr hd.resolution, hrest]
    exact hlive.entries
  have hrules : ∀ b, f.draft.IsHead b → (f.retireWeight i).draft.IsHead b ∨ b ∈ s.head := by
    intro b hb
    rw [hrest]
    exact (hb.withWeightRule hi none).imp_right And.left
  have haccounts : d.Accounts freed (f.retireWeight i).isSettled L (f.retireWeight i).draft := by
    rw [isSettled_congr hd.resolution, hrest]
    refine (hs.accounts.dropWeight fun q hq => ?_).entries
    obtain rfl := Option.some.inj (hr.symm.trans hq)
    exact ⟨hspent, htouched⟩
  have hstands : Stands d freed L (f.retireWeight i) :=
    ⟨haccounts, hd.supported hmirrors hs.supported hrules, hs.founded.drops hd⟩
  have hheads : ∀ b ∈ s.head, d.IsHead b := fun b hb =>
    Or.inr ⟨i, r, hr, hleaves.head.mem_of_mem hb⟩
  exact ⟨hlive', hstands, hd.known_le, fun T hT hL hf => hd.within hmirrors hw hlive' hstands hheads
    (fun b hb => hd.facts ▸ hon b hb) hT hL hf⟩

/-! ### Queueing -/

theorem Stands.queueTrue (hs : Stands d freed L f) (hb : d.Derives f.isSettled b) :
    Stands d freed L (f.queueTrue b) := by
  have hresolution : ∀ c, (f.queueTrue b).draft.resolution c = f.draft.resolution c :=
    Draft.resolution_mention f.draft b
  refine ⟨?_, fun c hhead hneeds => ?_, ⟨hs.founded.externals, fun c hc => ?_, fun c hc => ?_,
    fun c hc => ?_, fun c hc => ?_⟩⟩
  · rw [isSettled_congr hresolution]
    exact hs.accounts.entries
  · refine hs.supported c hhead ⟨hneeds.1, fun hc => hneeds.2.1 (List.mem_cons_of_mem _ hc), ?_⟩
    have hopen := hneeds.2.2
    unfold isDecided at hopen ⊢
    rwa [hresolution] at hopen
  · exact List.mem_cons_of_mem _ (hs.founded.given c hc)
  · rw [isSettled_congr hresolution]
    rcases List.mem_cons.mp hc with rfl | hc
    · exact Or.inr hb
    · exact hs.founded.derived c hc
  · exact List.mem_cons_of_mem _ (hs.founded.on c ((hresolution c).symm.trans hc))
  · rw [hresolution]
    rcases List.mem_cons.mp hc with rfl | hc
    · exact Or.inl (List.mem_append_right _ (List.mem_singleton_self c))
    · exact (hs.founded.waits c hc).imp_left (List.mem_append_left _)

theorem known_le_queueTrue (f : Fitting) (b : Nat) : f.known ≤ (f.queueTrue b).known :=
  known_mono (Draft.resolution_mention f.draft b) (fun _ => List.mem_cons_of_mem _) (fun _ => id)
    fun _ => id

theorem known_queueTrue_le (hT : T.Consistent) (hf : f.known ≤ T) (hb : T .on b) :
    (f.queueTrue b).known ≤ T := by
  have hresolution : ∀ c, (f.queueTrue b).draft.resolution c = f.draft.resolution c :=
    Draft.resolution_mention f.draft b
  refine Knowledge.le_iff.mpr fun goal c hc => ?_
  cases goal with
  | on =>
      rcases List.mem_cons.mp (known_on_iff.mp hc) with rfl | hc
      · exact hb
      · exact hf .on c (known_on_iff.mpr hc)
  | off =>
      rw [known_off_iff, hresolution] at hc
      exact hf .off c (known_off_iff.mpr hc)
  | cautious =>
      rw [known_cautious_iff, hresolution, ← or_assoc] at hc
      rcases hc with hc | hc
      · exact hf .cautious c (known_cautious_iff.mpr (or_assoc.mp (Or.inl hc)))
      · rcases List.mem_cons.mp hc with rfl | hc
        · exact hT.cautious c hb
        · exact hf .cautious c (known_cautious_iff.mpr (Or.inr (Or.inr hc)))

theorem isSettled_constrain (f : Fitting) (l : Literal) :
    (f.constrain l).isSettled = f.isSettled := by
  refine isSettled_congr fun b => ?_
  rw [draft_constrain]

theorem known_le_constrain (f : Fitting) (l : Literal) : f.known ≤ (f.constrain l).known := by
  refine known_mono (fun b => by rw [draft_constrain]) (fun b hb => ?_) (fun b hb => ?_)
    fun b hb => ?_ <;> unfold constrain <;> split
  · exact hb
  · exact hb
  · exact List.mem_append_left _ hb
  · exact hb
  · exact hb
  · exact List.mem_append_left _ hb

theorem facts_constrain (f : Fitting) (l : Literal) : (f.constrain l).facts = f.facts := by
  unfold constrain
  split <;> rfl

/-- To constrain a literal is to know that it fails. -/
theorem failsBy_constrain (f : Fitting) (l : Literal) : l.FailsBy (f.constrain l).known := by
  unfold Literal.FailsBy constrain
  split
  · rename_i hsign
    simp [queueFalse]
  · rename_i hsign
    simp [queueCautious]

theorem known_constrain_le (hf : f.known ≤ T) (hl : l.FailsBy T) : (f.constrain l).known ≤ T := by
  have hresolution : ∀ c, (f.constrain l).draft.resolution c = f.draft.resolution c := fun c => by
    rw [draft_constrain]
  refine Knowledge.le_iff.mpr fun goal c hc => ?_
  unfold Literal.FailsBy at hl
  cases goal with
  | on =>
      rw [known_on_iff, facts_constrain] at hc
      exact hf .on c (known_on_iff.mpr hc)
  | off =>
      rw [known_off_iff, hresolution] at hc
      rcases hc with hc | hc
      · exact hf .off c (known_off_iff.mpr (Or.inl hc))
      · unfold constrain at hc
        split at hc
        · rename_i hsign
          rcases List.mem_append.mp hc with hc | hc
          · exact hf .off c (known_off_iff.mpr (Or.inr hc))
          · rw [List.mem_singleton.mp hc]
            simpa [hsign] using hl
        · exact hf .off c (known_off_iff.mpr (Or.inr hc))
  | cautious =>
      rw [known_cautious_iff, hresolution, facts_constrain] at hc
      rcases hc with hc | hc | hc
      · exact hf .cautious c (known_cautious_iff.mpr (Or.inl hc))
      · unfold constrain at hc
        split at hc
        · exact hf .cautious c (known_cautious_iff.mpr (Or.inr (Or.inl hc)))
        · rename_i hsign
          rcases List.mem_append.mp hc with hc | hc
          · exact hf .cautious c (known_cautious_iff.mpr (Or.inr (Or.inl hc)))
          · rw [List.mem_singleton.mp hc]
            simpa [hsign] using hl
      · exact hf .cautious c (known_cautious_iff.mpr (Or.inr (Or.inr hc)))

theorem Stands.constrain (hs : Stands d freed L f) (l : Literal) :
    Stands d freed L (f.constrain l) := by
  have hdraft := draft_constrain f l
  have hfacts := facts_constrain f l
  have htrue : (f.constrain l).trueQueue = f.trueQueue := by
    unfold Fitting.constrain
    split <;> rfl
  have hfalse : ∀ b ∈ f.falseQueue, b ∈ (f.constrain l).falseQueue := by
    intro b hb
    unfold Fitting.constrain
    split
    · exact List.mem_append_left _ hb
    · exact hb
  refine ⟨?_, fun b hhead hneeds => ?_, hs.founded.congr (by rw [hdraft]) hfacts
    (fun b => by rw [hdraft]) fun b hb => Or.inl (htrue ▸ hb)⟩
  · rw [isSettled_constrain, hdraft]
    exact hs.accounts
  · rw [needsRule_congr (by rw [hdraft]) hfacts (by rw [hdraft])] at hneeds
    rw [hdraft]
    exact (hs.supported b hhead hneeds).imp_left (hfalse b)

/-! ### Inferring -/

/-- All that a fitting owes. -/
structure Accounted (d : Draft) (freed : List Nat) (f : Fitting) : Prop where
  descends : d.Descends freed f.isSettled f.draft
  stands : Stands d freed f.known f

/-- More is known, and all of it follows. -/
structure Infers (d : Draft) (freed : List Nat) (f g : Fitting) : Prop where
  accounted : ∃ freed', freed <+: freed' ∧ Accounted d freed' g
  grows : f.known ≤ g.known
  within : ∀ T, d.Closed T → f.known ≤ T → g.known ≤ T

/-- A step infers what follows, or fails where what is known is part of no closed knowledge. -/
def InfersOrFails (d : Draft) (freed : List Nat) (f : Fitting) : Step → Prop
  | .ok g => Infers d freed f g
  | .error _ => ∀ T, d.Closed T → ¬f.known ≤ T

theorem Accounted.infers (h : Accounted d freed f) : Infers d freed f f :=
  ⟨⟨freed, List.prefix_rfl, h⟩, le_rfl, fun _ _ => id⟩

theorem Retires.infers (h : Retires d freed f.known f g) (hw : d.Weighs) : Infers d freed f g :=
  ⟨⟨freed, List.prefix_rfl, h.descends, h.stands.mono hw h.grows⟩, h.grows,
    fun T hT hf => h.within T hT hf hf⟩

/-- It does not matter how what is known is written down. -/
theorem InfersOrFails.of_known {x : Step} (h : InfersOrFails d freed g x)
    (hgrows : f.known ≤ g.known) (hwithin : ∀ T, d.Closed T → f.known ≤ T → g.known ≤ T) :
    InfersOrFails d freed f x := by
  cases x with
  | error e => exact fun T hT hf => h T hT (hwithin T hT hf)
  | ok g' =>
      have hg' : Infers d freed g g' := h
      exact ⟨hg'.accounted, hgrows.trans hg'.grows,
        fun T hT hf => hg'.within T hT (hwithin T hT hf)⟩

/-- What follows later follows. -/
theorem Infers.infersOrFails {x : Step} (h : Infers d freed f g)
    (hx : ∀ freed', freed <+: freed' → Accounted d freed' g → InfersOrFails d freed' g x) :
    InfersOrFails d freed f x := by
  obtain ⟨freed', hlonger, hacc⟩ := h.accounted
  have hstep := (hx freed' hlonger hacc).of_known h.grows h.within
  cases x with
  | error e => exact hstep
  | ok g' =>
      have hg' : Infers d freed' f g' := hstep
      obtain ⟨freed'', hlonger', hacc'⟩ := hg'.accounted
      exact ⟨⟨freed'', hlonger.trans hlonger', hacc'⟩, hg'.grows, hg'.within⟩

theorem InfersOrFails.bind {x : Step} {k : Fitting → Step} (h : InfersOrFails d freed f x)
    (hk : ∀ g freed', freed <+: freed' → x = .ok g → Accounted d freed' g →
      InfersOrFails d freed' g (k g)) : InfersOrFails d freed f (x >>= k) := by
  cases x with
  | error e => exact h
  | ok g =>
      have hg : Infers d freed f g := h
      exact hg.infersOrFails fun freed' hlonger hacc => hk g freed' hlonger rfl hacc

end Fitting

end StablePlan
