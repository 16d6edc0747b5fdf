import StablePlan.Proofs.Transition.Resolving

/-!
Settling one atom. To settle an atom says the same as to queue it, so the stable sets stay what they
are; there is a conflict only where there are none. What cautious atoms require stays out of the
rules: they are true, but have to be derived.
-/

namespace StablePlan.Fitting

variable {f g : Fitting} {D X : Set Nat} {S : Scope} {a b : Nat} {goal : Resolution} {value : Bool}

/-! ### Queues -/

/-- Fittings that say the same of the parts of a set have the same stable sets. -/
theorem isStable_congr (h : ∀ X, ∀ D ⊆ X, f.draft.Obeyed D X ∧ f.Knows D X ↔
    g.draft.Obeyed D X ∧ g.Knows D X) : f.theory.IsStable X ↔ g.theory.IsStable X := by
  have hadmits : ∀ D ⊆ X, (f.theory.Admits D X ↔ g.theory.Admits D X) := by
    intro D hD
    rw [admits_iff, admits_iff]
    exact h X D hD
  exact Theory.isStable_congr_admits (hadmits X subset_rfl) fun _ => hadmits

/-- The fitting with an atom waiting. -/
def requeue (f : Fitting) (goal : Resolution) (a : Nat) : Fitting :=
  match goal with
  | .on => { f with trueQueue := a :: f.trueQueue }
  | .off => { f with falseQueue := a :: f.falseQueue }
  | .cautious => { f with cautiousQueue := a :: f.cautiousQueue }

@[simp] theorem draft_requeue : (f.requeue goal a).draft = f.draft := by
  cases goal <;> rfl

@[simp] theorem facts_requeue : (f.requeue goal a).facts = f.facts := by
  cases goal <;> rfl

theorem mem_trueQueue_requeue :
    b ∈ (f.requeue goal a).trueQueue ↔ goal = .on ∧ b = a ∨ b ∈ f.trueQueue := by
  cases goal <;> simp [requeue]

theorem mem_falseQueue_requeue :
    b ∈ (f.requeue goal a).falseQueue ↔ goal = .off ∧ b = a ∨ b ∈ f.falseQueue := by
  cases goal <;> simp [requeue]

theorem mem_cautiousQueue_requeue :
    b ∈ (f.requeue goal a).cautiousQueue ↔ goal = .cautious ∧ b = a ∨ b ∈ f.cautiousQueue := by
  cases goal <;> simp [requeue]

/-- Where an atom may still get a resolution. -/
def IsOpenFor (f : Fitting) (goal : Resolution) (a : Nat) : Prop :=
  f.draft.resolution a = none ∨ f.draft.resolution a = some .cautious ∧ goal = .on

/-- Giving an atom the resolution that it waits for says the same. -/
theorem knows_requeue_iff (hopen : f.IsOpenFor goal a) (hD : D ⊆ X)
    (hexternals : g.draft.externals = f.draft.externals) (htrue : g.trueQueue = f.trueQueue)
    (hfalse : g.falseQueue = f.falseQueue) (hcautious : g.cautiousQueue = f.cautiousQueue)
    (hres : ∀ b, g.draft.resolution b = if b = a then some goal else f.draft.resolution b) :
    (f.requeue goal a).Knows D X ↔ g.Knows D X := by
  have hon : ∀ b, b ∈ (f.requeue goal a).trueQueue ∨ f.draft.resolution b = some .on ↔
      b ∈ g.trueQueue ∨ g.draft.resolution b = some .on := by
    intro b
    rw [mem_trueQueue_requeue, htrue, hres]
    by_cases hb : b = a
    · subst hb
      rcases hopen with hnone | ⟨hc, rfl⟩
      · simp [hnone, or_comm]
      · simp
    · simp [hb]
  have hoff : ∀ b, b ∈ (f.requeue goal a).falseQueue ∨ f.draft.resolution b = some .off ↔
      b ∈ g.falseQueue ∨ g.draft.resolution b = some .off := by
    intro b
    rw [mem_falseQueue_requeue, hfalse, hres]
    by_cases hb : b = a
    · subst hb
      rcases hopen with hnone | ⟨hc, rfl⟩
      · simp [hnone, or_comm]
      · simp [hc]
    · simp [hb]
  constructor
  · intro h
    refine ⟨fun b hb => h.given b (by simpa [← hexternals] using hb), fun b hb => ?_,
      fun b hb => ?_, fun b hb => ?_⟩
    · exact h.facts b (by rw [draft_requeue]; exact (hon b).mpr hb)
    · exact h.banned b (by rw [draft_requeue]; exact (hoff b).mpr hb)
    · refine h.required b ?_
      rw [draft_requeue, mem_cautiousQueue_requeue]
      rw [hcautious, hres] at hb
      by_cases hba : b = a
      · simp only [hba, if_true, Option.some.injEq] at hb ⊢
        tauto
      · simpa [hba] using hb
  · intro h
    refine ⟨fun b hb => h.given b (by simpa [hexternals] using hb), fun b hb => ?_, fun b hb => ?_,
      fun b hb => ?_⟩
    · exact h.facts b (by rw [draft_requeue] at hb; exact (hon b).mp hb)
    · exact h.banned b (by rw [draft_requeue] at hb; exact (hoff b).mp hb)
    · rw [draft_requeue, mem_cautiousQueue_requeue] at hb
      by_cases hba : b = a
      · -- The atom may have been cautious before, and is a fact now.
        subst hba
        by_cases hgoal : goal = .on
        · exact hD (h.facts b (Or.inr (by rw [hres, if_pos rfl, hgoal])))
        · rcases hopen with hnone | ⟨-, hon⟩
          · refine h.required b ?_
            rw [hcautious, hres, if_pos rfl]
            rw [hnone] at hb
            simp only [and_true, reduceCtorEq, or_false] at hb
            rcases hb with rfl | hb
            · exact Or.inr rfl
            · exact Or.inl hb
          · exact absurd hon hgoal
      · refine h.required b ?_
        rw [hcautious, hres, if_neg hba]
        simpa [hba] using hb

/-! ### Resolutions -/

/-- What settling an atom comes to. The stable sets are kept if sums are exact. -/
structure Settles (S : Scope) (goal : Resolution) (a : Nat) (f g : Fitting) : Prop where
  coherent : g.Coherent S
  stable : S.exact → ∀ X, (f.requeue goal a).theory.IsStable X ↔ g.theory.IsStable X
  resolution : ∀ b, g.draft.resolution b = if b = a then some goal else f.draft.resolution b
  mentioned : ∀ b, g.draft.isMentioned b = f.draft.isMentioned b
  size : g.draft.entries.size = f.draft.entries.size
  externals : g.draft.externals = f.draft.externals
  outputs : g.draft.outputs = f.draft.outputs

theorem Settles.keeps {g' : Fitting} (h : Settles S goal a f g) (h' : Keeps S b value g g') :
    Settles S goal a f g' :=
  ⟨h'.coherent, fun hexact X => (h.stable hexact X).trans (h'.stable hexact X),
    fun b => (h'.same.resolution b).trans (h.resolution b),
    fun b => (h'.same.mentioned b).trans (h.mentioned b), h'.same.size.trans h.size,
    h'.same.externals.trans h.externals, h'.same.outputs.trans h.outputs⟩

/-- The entry of the atom with its resolution. Of a cautious atom, what needs it false is not kept
on record. -/
def Resolves (d e : Draft) (goal : Resolution) (a : Nat) : Prop :=
  ∃ o : Occurrences, e = d.setEntry a { d.entry a with resolution := some goal, occurrences := o } ∧
    ∀ role, o.of role =
      if goal = .cautious ∧ role.isNegative = true then [] else d.record a role

section Resolves

variable {d e : Draft}

theorem Resolves.resolution (h : Resolves d e goal a) (hm : d.isMentioned a) (b : Nat) :
    e.resolution b = if b = a then some goal else d.resolution b := by
  obtain ⟨o, rfl, -⟩ := h
  unfold Draft.resolution
  rw [Draft.entry_setEntry]
  by_cases hb : b = a
  · rw [if_pos ⟨hb, Draft.lt_of_isMentioned hm⟩, if_pos hb]
  · rw [if_neg (fun h => hb h.1), if_neg hb]

theorem Resolves.mentioned (h : Resolves d e goal a) (b : Nat) :
    e.isMentioned b = d.isMentioned b := by
  obtain ⟨o, rfl, -⟩ := h
  unfold Draft.isMentioned
  rw [Draft.entry_setEntry]
  split
  · rename_i hb
    rw [hb.1]
  · rfl

theorem Resolves.record (h : Resolves d e goal a) (b : Nat) (role : Role) :
    e.record b role = d.record b role ∨
      b = a ∧ goal = .cautious ∧ role.isNegative = true ∧ e.record b role = [] := by
  obtain ⟨o, rfl, ho⟩ := h
  unfold Draft.record Draft.occurrences at ho ⊢
  rw [Draft.entry_setEntry]
  by_cases hb : b = a ∧ a < d.entries.size
  · rw [if_pos hb, ho]
    obtain ⟨rfl, -⟩ := hb
    by_cases hgoal : goal = .cautious ∧ role.isNegative = true
    · rw [if_pos hgoal]
      exact Or.inr ⟨rfl, hgoal.1, hgoal.2, rfl⟩
    · rw [if_neg hgoal]
      exact Or.inl rfl
  · rw [if_neg hb]
    exact Or.inl rfl

theorem Resolves.negative (h : Resolves d e .cautious a) (hm : d.isMentioned a) {role : Role}
    (hrole : role.isNegative) : e.record a role = [] := by
  obtain ⟨o, rfl, ho⟩ := h
  unfold Draft.record Draft.occurrences
  rw [Draft.entry_setEntry, if_pos ⟨rfl, Draft.lt_of_isMentioned hm⟩, ho, if_pos ⟨rfl, hrole⟩]

theorem Resolves.coherent (h : Resolves d e goal a) (hd : d.Coherent S) (hm : d.isMentioned a)
    (hopen : d.resolution a = none ∨ d.resolution a = some .cautious ∧ goal = .on) :
    e.Coherent S := by
  have hparts : ∀ weighted i, e.parts? weighted i = d.parts? weighted i := by
    obtain ⟨o, rfl, -⟩ := h
    exact fun _ _ => rfl
  have hweightRules : ∀ i, e.weightRule? i = d.weightRule? i := by
    obtain ⟨o, rfl, -⟩ := h
    exact fun _ => rfl
  have hcount : ∀ weighted, e.ruleCount weighted = d.ruleCount weighted := by
    obtain ⟨o, rfl, -⟩ := h
    exact fun _ => rfl
  refine hd.shrink (e := e) ⟨fun weighted i parts hp => ?_, fun b role i hi => ?_,
    fun b role i hi hno ht => ?_, fun b role ht => ?_, fun b hb => ?_, fun weighted => ?_,
    fun b hb => ?_⟩ (fun i r hi => ?_) fun b hb => ?_
  · rw [hparts] at hp
    exact ⟨parts, hp, fun _ h => h, fun _ h hno => absurd h hno⟩
  · rcases h.record b role with heq | ⟨-, -, -, hnil⟩
    · rwa [heq] at hi
    · rw [hnil] at hi
      exact absurd hi List.not_mem_nil
  · rcases h.record b role with heq | ⟨rfl, rfl, hrole, -⟩
    · rw [heq] at hno
      exact absurd hi hno
    · unfold Draft.IsTracked at ht
      rw [h.resolution hm, if_pos rfl, hrole] at ht
      simp at ht
  · unfold Draft.IsTracked at ht ⊢
    rw [h.resolution hm] at ht
    by_cases hb : b = a
    · subst hb
      rcases hopen with hnone | ⟨-, rfl⟩
      · exact Or.inl hnone
      · simp at ht
    · rwa [if_neg hb] at ht
  · rw [h.resolution hm] at hb
    by_cases hba : b = a
    · subst hba
      rw [if_pos rfl, Option.some.injEq] at hb
      subst hb
      refine Or.inr fun role i hrole => ?_
      rw [h.negative hm hrole]
      exact List.not_mem_nil
    · rw [if_neg hba] at hb
      exact Or.inl hb
  · exact (hcount weighted).ge
  · rwa [h.mentioned]
  · rw [hweightRules] at hi
    exact hd.weights i r hi
  · rw [h.resolution hm] at hb
    rw [h.mentioned]
    by_cases hba : b = a
    · rwa [hba]
    · rw [if_neg hba] at hb
      exact hd.resolved b hb

end Resolves

/-- Noting the resolution of an atom says the same as queueing it. -/
theorem settles_of_resolves {e : Draft} (log : Array (Nat × Resolution)) (hf : f.Coherent S)
    (hm : f.draft.isMentioned a) (hopen : f.IsOpenFor goal a)
    (h : Resolves f.draft e goal a) : Settles S goal a f { f with draft := e, log } := by
  have hsame : ∀ D X, e.Obeyed D X ↔ f.draft.Obeyed D X := by
    obtain ⟨o, rfl, -⟩ := h
    exact fun _ _ => Iff.rfl
  have hexternals : e.externals = f.draft.externals := by
    obtain ⟨o, rfl, -⟩ := h
    rfl
  refine ⟨⟨h.coherent hf.draft hm hopen, fun b hb => ?_, hf.facts⟩, fun _ X => ?_,
    h.resolution hm, h.mentioned, ?_, hexternals, ?_⟩
  · exact (h.mentioned b).trans (hf.mentioned b hb)
  · refine isStable_congr fun X D hD => ?_
    rw [draft_requeue, hsame, knows_requeue_iff (g := { f with draft := e, log }) hopen hD
      hexternals rfl rfl rfl (h.resolution hm)]
  · obtain ⟨o, rfl, -⟩ := h
    simp [Draft.setEntry]
  · obtain ⟨o, rfl, -⟩ := h
    rfl

/-! ### One atom -/

/-- A step settles the atom, or fails where there is no stable set if sums are exact. -/
def SettlesOrFails (S : Scope) (goal : Resolution) (a : Nat) (f : Fitting) : Step → Prop
  | .ok g => Settles S goal a f g
  | .error e => (S.exact → ∀ X, ¬(f.requeue goal a).theory.IsStable X) ∧
      (e.1 = .unsatTemplate ∨ ∃ b, e.1 = .conflict b)

theorem Settles.preserves {x : Step} (h : Settles S goal a f g) (hx : Preserves S b value g x) :
    SettlesOrFails S goal a f x := by
  cases x with
  | error e =>
      exact ⟨fun hexact X hX => hx.1 hexact X ((h.stable hexact X).mp hX), hx.2⟩
  | ok g' => exact h.keeps hx

theorem resolves_record (hgoal : goal ≠ .cautious) :
    Resolves f.draft (f.record a goal).draft goal a :=
  ⟨f.draft.occurrences a, rfl, fun _ => (if_neg fun h => hgoal h.1).symm⟩

theorem decided_record (hf : f.Coherent S) (hm : f.draft.isMentioned a)
    (hopen : f.IsOpenFor (if value then .on else .off) a) :
    (f.record a (if value then .on else .off)).Decided a value := by
  have hgoal : (if value then Resolution.on else .off) ≠ .cautious := by
    cases value <;> simp
  have hr := resolves_record (f := f) (a := a) hgoal
  refine ⟨(hr.resolution hm a).trans (if_pos rfl), fun role i parts hi hparts => ?_⟩
  rcases hr.record a role with heq | ⟨-, hcautious, -⟩
  · rw [heq] at hi
    rcases hopen with hnone | ⟨hcautious, -⟩
    · exact hf.draft.played a role i parts hi (Or.inl hnone) hparts
    · by_cases hrole : role.isNegative = true
      · exact absurd hi (hf.draft.cautious a role i hcautious hrole)
      · exact hf.draft.played a role i parts hi (Or.inr ⟨hcautious, by simpa using hrole⟩) hparts
  · exact absurd hcautious hgoal

/-- There is no stable set if an atom waits for what its resolution excludes. -/
theorem not_isStable_of_conflict {r : Resolution} (hr : f.draft.resolution a = some r)
    (h : r = .off ∧ goal ≠ .off ∨ r ≠ .off ∧ goal = .off) (X : Set Nat) :
    ¬(f.requeue goal a).theory.IsStable X := by
  intro hX
  obtain ⟨-, hk⟩ := admits_iff.mp (admits_of_isStable hX)
  have hmem : r ≠ .off ∨ goal ≠ .off → a ∈ X := by
    rintro (hne | hne)
    · cases r with
      | on => exact hk.facts a (Or.inr (by rwa [draft_requeue]))
      | off => exact absurd rfl hne
      | cautious => exact hk.required a (Or.inr (by rwa [draft_requeue]))
    · cases goal with
      | on => exact hk.facts a (Or.inl (mem_trueQueue_requeue.mpr (Or.inl ⟨rfl, rfl⟩)))
      | off => exact absurd rfl hne
      | cautious =>
          exact hk.required a (Or.inl (mem_cautiousQueue_requeue.mpr (Or.inl ⟨rfl, rfl⟩)))
  have hnot : r = .off ∨ goal = .off → a ∉ X := by
    rintro (rfl | rfl)
    · exact hk.banned a (Or.inr (by rwa [draft_requeue]))
    · exact hk.banned a (Or.inl (mem_falseQueue_requeue.mpr (Or.inl ⟨rfl, rfl⟩)))
  rcases h with ⟨hoff, hne⟩ | ⟨hne, hoff⟩
  · exact hnot (Or.inl hoff) (hmem (Or.inr hne))
  · exact hnot (Or.inr hoff) (hmem (Or.inl hne))

theorem settles_resolve (value : Bool) (hf : f.Coherent S) (hm : f.draft.isMentioned a)
    (hsettled : f.draft.resolution a ≠ some (if value then .on else .off)) :
    SettlesOrFails S (if value then .on else .off) a f (f.resolve a value) := by
  have hgoal : (if value then Resolution.on else .off) ≠ .cautious := by
    cases value <;> simp
  have hopened : f.IsOpenFor (if value then .on else .off) a →
      SettlesOrFails S (if value then .on else .off) a f
        ((f.record a (if value then .on else .off)).propagate a value) := by
    intro hopen
    have hs := settles_of_resolves (f.log.push (a, if value then .on else .off)) hf hm hopen
      (resolves_record hgoal)
    exact hs.preserves (preserves_propagate hs.coherent (decided_record hf hm hopen))
  unfold resolve
  rw [mention_eq hm]
  generalize hvalue : (if value then Resolution.on else .off) = goal at hopened hsettled ⊢
  cases hr : f.draft.resolution a with
  | none =>
      simp only [hr]
      exact hopened (Or.inl hr)
  | some r =>
      have hne : r ≠ goal := fun h => hsettled (hr.trans (congrArg some h))
      simp only [hr]
      rw [if_neg hne]
      by_cases hcautious : r = .cautious ∧ value = true
      · rw [if_pos (by simp [hcautious])]
        exact hopened (Or.inr ⟨hr.trans (congrArg some hcautious.1), by simp [← hvalue, hcautious]⟩)
      · rw [if_neg (fun h => hcautious (by simpa using h))]
        refine ⟨fun _ => not_isStable_of_conflict hr ?_, Or.inr ⟨a, rfl⟩⟩
        clear hopened
        subst hvalue
        cases r <;> cases value <;> simp_all

/-- The fitting in which an atom is cautious and what needs it false is off record. -/
def markCautious (f : Fitting) (a : Nat) : Fitting :=
  (f.record a .cautious).mapOccurrences a fun o => { o with negative := [], weightedNegative := [] }

theorem occurrences_record : (f.record a goal).draft.occurrences b = f.draft.occurrences b := by
  unfold record Draft.occurrences
  dsimp only
  rw [Draft.entry_setEntry]
  split
  · rename_i hb
    rw [hb.1]
  · rfl

theorem settles_markCautious (hf : f.Coherent S) (hm : f.draft.isMentioned a)
    (hnone : f.draft.resolution a = none) : Settles S .cautious a f (f.markCautious a) := by
  have hlt := Draft.lt_of_isMentioned hm
  have hr : Resolves f.draft (f.markCautious a).draft .cautious a := by
    refine ⟨{ f.draft.occurrences a with negative := [], weightedNegative := [] }, ?_,
      fun role => ?_⟩
    · unfold markCautious mapOccurrences record Draft.mapOccurrences Draft.occurrences
      dsimp only
      rw [Draft.entry_setEntry, if_pos ⟨rfl, hlt⟩]
      simp [Draft.setEntry]
    · cases role <;> simp [Role.isNegative, Occurrences.of, Draft.record]
  have heq : f.markCautious a =
      { f with draft := (f.markCautious a).draft, log := f.log.push (a, .cautious) } := rfl
  rw [heq]
  exact settles_of_resolves _ hf hm (Or.inl hnone) hr

theorem not_holdsIn_of_cautious (h : g.draft.resolution a = some .cautious) (hk : g.Knows D X)
    {l : Literal} (hatom : l.atom = a) (hsign : l.isPositive = false) : ¬l.HoldsIn D X := by
  unfold Literal.HoldsIn
  rw [hsign, if_neg (by simp), hatom]
  exact fun hl => hl (hk.required a (Or.inr h))

/-- What needs a cautious atom false is retired, and counts for nothing in a sum. -/
theorem settles_caution (hf : f.Coherent S) (hm : f.draft.isMentioned a)
    (hsettled : f.isSettled .cautious a = false) :
    SettlesOrFails S .cautious a f (f.caution a) := by
  unfold caution
  rw [mention_eq hm]
  dsimp only
  split
  · rename_i hoff
    exact ⟨fun _ => not_isStable_of_conflict hoff (Or.inl ⟨rfl, by simp⟩), Or.inr ⟨a, rfl⟩⟩
  · rename_i r hoff hr
    unfold isSettled at hsettled
    rw [hr] at hsettled
    cases r <;> simp_all
  · rename_i hnone
    have hs := settles_markCautious hf hm hnone
    have hres : ∀ g : Fitting, (f.markCautious a).draft.SameAtoms g.draft →
        g.draft.resolution a = some .cautious := fun g hg =>
      (hg.resolution a).trans ((hs.resolution a).trans (if_pos rfl))
    rw [occurrences_record]
    have hretire : Keeps S a true (f.markCautious a)
        ((f.draft.occurrences a).negative.foldl retire (f.markCautious a)) := by
      refine keeps_foldl_retire hs.coherent (fun i hi => hf.draft.bounded a .negative i hi)
        (fun i hi r hi' => ?_) fun g hg X D _ hk l => not_holdsIn_of_cautious (hres g hg) hk
      have hlive : f.draft.rule? i = some r := hi'
      exact exists_literal_of_mem_parts (s := false) (hf.draft.played a .negative i r.parts hi
        (Or.inl hnone) (by simp [Role.isWeighted, Draft.parts?_false, hlive]))
    refine hs.preserves (hretire.preserves (Preserves.foldlM hretire.coherent fun g hg i _ => ?_))
    have hcautious := hres g (hretire.same.trans hg.same)
    have hatom : (Literal.negative a).atom = a := by
      simp [Literal.negative, Literal.atom]
    have hsign : (Literal.negative a).isPositive = false := by
      simp [Literal.negative, Literal.isPositive]
    refine preserves_falsifyWeight hg.coherent ?_ fun X D _ hk =>
      not_holdsIn_of_cautious hcautious hk hatom hsign
    unfold Draft.IsTracked Literal.weightRole
    rw [hatom, hsign, hcautious]
    simp [Role.isNegative]

end StablePlan.Fitting
