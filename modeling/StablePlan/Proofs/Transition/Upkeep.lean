import StablePlan.Proofs.Transition.Collecting
import StablePlan.Transition.Fitting

/-!
Single changes of a fitting. What is queued and what is resolved belong to the program that a
fitting stands for. A change keeps its stable sets if it replaces a rule by one that says the same
where the queues and resolutions are respected, adds what follows anyway, or queues as false an atom
that nothing derives; a failing step is right if there is no stable set at all. Where sums need not
be exact, only the records and what is mentioned are kept.
-/

namespace StablePlan

namespace Draft

variable {d e : Draft} {D X : Set Nat}

/-- Nothing but rules and records differs. -/
structure SameAtoms (d e : Draft) : Prop where
  resolution : ∀ a, e.resolution a = d.resolution a
  mentioned : ∀ a, e.isMentioned a = d.isMentioned a
  size : e.entries.size = d.entries.size
  externals : e.externals = d.externals
  outputs : e.outputs = d.outputs

theorem SameAtoms.refl (d : Draft) : d.SameAtoms d :=
  ⟨fun _ => rfl, fun _ => rfl, rfl, rfl, rfl⟩

theorem SameAtoms.trans {d' : Draft} (h : d.SameAtoms d') (h' : d'.SameAtoms e) : d.SameAtoms e :=
  ⟨fun a => (h'.resolution a).trans (h.resolution a),
    fun a => (h'.mentioned a).trans (h.mentioned a), h'.size.trans h.size,
    h'.externals.trans h.externals, h'.outputs.trans h.outputs⟩

theorem rule?_withRule_eq_update {i : Nat} (hi : i < d.rules.size) (r : Option Rule) :
    (d.withRule i r).rule? = Function.update d.rule? i r := by
  funext j
  rw [rule?_withRule, Function.update_apply]
  simp only [hi, and_true]

theorem weightRule?_withWeightRule_eq_update {i : Nat} (hi : i < d.weightRules.size)
    (r : Option WeightRule) :
    (d.withWeightRule i r).weightRule? = Function.update d.weightRule? i r := by
  funext j
  rw [weightRule?_withWeightRule, Function.update_apply]
  simp only [hi, and_true]

/-- Clauses are obeyed after one is replaced if the others and the new one are. -/
theorem forall_obeys_update_iff {α : Type} {clause : α → Clause} (at? : Nat → Option α) (i : Nat)
    (r : Option α) :
    (∀ j s, Function.update at? i r j = some s → (clause s).Obeys D X) ↔
      (∀ j s, Function.update at? i none j = some s → (clause s).Obeys D X) ∧
        ∀ s ∈ r, (clause s).Obeys D X := by
  have hsplit := fun r => Function.forall_update_iff at? (a := i) (b := r)
    (p := fun _ r => ∀ s, r = some s → (clause s).Obeys D X)
  rw [hsplit r, hsplit none]
  simp [and_comm]

theorem obeyed_withRule {i : Nat} (hi : i < d.rules.size) (r : Option Rule) :
    (d.withRule i r).Obeyed D X ↔
      (d.withRule i none).Obeyed D X ∧ ∀ s ∈ r, s.clause.Obeys D X := by
  unfold Obeyed
  rw [rule?_withRule_eq_update hi, rule?_withRule_eq_update hi, forall_obeys_update_iff,
    and_right_comm]
  rfl

theorem obeyed_withWeightRule {i : Nat} (hi : i < d.weightRules.size) (r : Option WeightRule) :
    (d.withWeightRule i r).Obeyed D X ↔
      (d.withWeightRule i none).Obeyed D X ∧ ∀ s ∈ r, s.clause.Obeys D X := by
  unfold Obeyed
  rw [weightRule?_withWeightRule_eq_update hi, weightRule?_withWeightRule_eq_update hi,
    forall_obeys_update_iff, and_assoc]
  rfl

theorem setIfInBounds_self {α : Type} {entries : Array (Option α)} {i : Nat} {r : α}
    (hi : entries.getD i none = some r) : entries.setIfInBounds i (some r) = entries := by
  rw [Array.getD_eq_getD_getElem?] at hi
  refine Array.ext_getElem? fun j => ?_
  rw [Array.getElem?_setIfInBounds]
  by_cases hj : i = j
  · subst hj
    cases hentry : entries[i]? with
    | none => simp [hentry] at hi
    | some r' =>
        obtain rfl : r' = some r := by simpa [hentry] using hi
        rw [if_pos rfl, if_pos (Array.getElem?_eq_some_iff.mp hentry).1]
  · rw [if_neg hj]

theorem withRule_self {i : Nat} {r : Rule} (hi : d.rule? i = some r) :
    d.withRule i (some r) = d := by
  rw [withRule, setIfInBounds_self hi]

theorem withWeightRule_self {i : Nat} {r : WeightRule} (hi : d.weightRule? i = some r) :
    d.withWeightRule i (some r) = d := by
  rw [withWeightRule, setIfInBounds_self hi]

/-- A draft obeys a live rule and the others. -/
theorem obeyed_iff_withRule {i : Nat} {r : Rule} (hi : d.rule? i = some r) :
    d.Obeyed D X ↔ (d.withRule i none).Obeyed D X ∧ r.clause.Obeys D X := by
  have h := obeyed_withRule (D := D) (X := X) (lt_of_rule? hi) (some r)
  rw [withRule_self hi] at h
  simpa using h

theorem obeyed_iff_withWeightRule {i : Nat} {r : WeightRule} (hi : d.weightRule? i = some r) :
    d.Obeyed D X ↔ (d.withWeightRule i none).Obeyed D X ∧ r.clause.Obeys D X := by
  have h := obeyed_withWeightRule (D := D) (X := X) (lt_of_weightRule? hi) (some r)
  rw [withWeightRule_self hi] at h
  simpa using h

end Draft

namespace Fitting

variable {f g : Fitting} {D X : Set Nat} {S : Scope} {a b i : Nat} {value : Bool}

/-- The program that a fitting stands for. -/
def theory (f : Fitting) : Theory where
  clauses := f.draft.clauses
  given := {a | a ∈ f.draft.externals}
  facts := {a | a ∈ f.trueQueue ∨ f.draft.resolution a = some .on}
  banned := {a | a ∈ f.falseQueue ∨ f.draft.resolution a = some .off}
  required := {a | a ∈ f.cautiousQueue ∨ f.draft.resolution a = some .cautious}

/-- What is open, queued and resolved is respected. -/
structure Knows (f : Fitting) (D X : Set Nat) : Prop where
  given : ∀ a ∈ f.draft.externals, a ∈ X → a ∈ D
  facts : ∀ a, a ∈ f.trueQueue ∨ f.draft.resolution a = some .on → a ∈ D
  banned : ∀ a, a ∈ f.falseQueue ∨ f.draft.resolution a = some .off → a ∉ X
  required : ∀ a, a ∈ f.cautiousQueue ∨ f.draft.resolution a = some .cautious → a ∈ X

theorem admits_iff : f.theory.Admits D X ↔ f.draft.Obeyed D X ∧ f.Knows D X := by
  constructor
  · intro h
    exact ⟨Draft.respects_clauses_iff.mp h.clauses, h.given, h.facts, h.banned, h.required⟩
  · rintro ⟨hobeyed, h⟩
    exact ⟨Draft.respects_clauses_iff.mpr hobeyed, h.given, h.facts, h.banned, h.required⟩

/-- Records fit the rules, and what is queued is mentioned. -/
structure Coherent (S : Scope) (f : Fitting) : Prop where
  draft : f.draft.Coherent S
  mentioned : ∀ a, a ∈ f.trueQueue ∨ a ∈ f.falseQueue ∨ a ∈ f.cautiousQueue →
    f.draft.isMentioned a
  facts : ∀ a ∈ f.trueQueue, a ∈ f.facts

theorem Coherent.hasNonnegWeights (hf : f.Coherent S) : f.theory.HasNonnegWeights := by
  rintro c (⟨r, hr, hc⟩ | ⟨r, hr, hc⟩) s hs
  · rw [Clause.sum_of_mem_shifted hc] at hs
    exact absurd hs (Option.not_mem_none s)
  · rw [Clause.sum_of_mem_shifted hc] at hs
    obtain rfl := Option.some.inj hs
    obtain ⟨i, hi⟩ := Draft.mem_liveWeightRules.mp hr
    exact (hf.draft.weights i r hi).1

/-- What may happen to a rule while a value is propagated: a fact does not take itself out of a
head, and only the literals that the value makes true leave the body. -/
def Narrows (a : Nat) (value : Bool) (r s : Clause) : Prop :=
  s.choice = r.choice ∧ (value = true → r.choice = false → s.head = r.head) ∧
    ∀ l ∈ r.body, ¬(l.atom = a ∧ l.isPositive = value) → l ∈ s.body

theorem Narrows.refl (a : Nat) (value : Bool) (r : Clause) : Narrows a value r r :=
  ⟨rfl, fun _ _ => rfl, fun _ h _ => h⟩

theorem Narrows.trans {r s t : Clause} (h : Narrows a value r s) (h' : Narrows a value s t) :
    Narrows a value r t :=
  ⟨h'.1.trans h.1, fun hv hc => (h'.2.1 hv (h.1.trans hc)).trans (h.2.1 hv hc),
    fun l hl hno => h'.2.2 l (h.2.2 l hl hno) hno⟩

/-- A change within the propagation of a value that keeps the stable sets, if sums are exact. -/
structure Keeps (S : Scope) (a : Nat) (value : Bool) (f g : Fitting) : Prop where
  coherent : g.Coherent S
  stable : S.exact → ∀ X, f.theory.IsStable X ↔ g.theory.IsStable X
  same : f.draft.SameAtoms g.draft
  count : f.draft.rules.size ≤ g.draft.rules.size
  rules : ∀ i s, i < f.draft.rules.size → g.draft.rule? i = some s →
    ∃ r, f.draft.rule? i = some r ∧ Narrows a value r.clause s.clause
  weightRules : ∀ i s, g.draft.weightRule? i = some s →
    ∃ r, f.draft.weightRule? i = some r ∧ Narrows a value r.clause s.clause

/-- A step keeps the stable sets, or fails where there is none, if sums are exact. -/
def Preserves (S : Scope) (a : Nat) (value : Bool) (f : Fitting) : Step → Prop
  | .ok g => Keeps S a value f g
  | .error e =>
    (S.exact → ∀ X, ¬f.theory.IsStable X) ∧ (e.1 = .unsatTemplate ∨ ∃ b, e.1 = .conflict b)

namespace Keeps

theorem refl (hf : f.Coherent S) : Keeps S a value f f :=
  ⟨hf, fun _ _ => Iff.rfl, .refl _, le_rfl, fun _ s _ hs => ⟨s, hs, .refl a value s.clause⟩,
    fun _ s hs => ⟨s, hs, .refl a value s.clause⟩⟩

theorem trans {f' : Fitting} (h : Keeps S a value f f') (h' : Keeps S a value f' g) :
    Keeps S a value f g := by
  refine ⟨h'.coherent, fun hexact X => (h.stable hexact X).trans (h'.stable hexact X),
    h.same.trans h'.same, h.count.trans h'.count, fun i t hi ht => ?_, fun i t ht => ?_⟩
  · obtain ⟨s, hs, hst⟩ := h'.rules i t (hi.trans_le h.count) ht
    obtain ⟨r, hr, hrs⟩ := h.rules i s hi hs
    exact ⟨r, hr, hrs.trans hst⟩
  · obtain ⟨s, hs, hst⟩ := h'.weightRules i t ht
    obtain ⟨r, hr, hrs⟩ := h.weightRules i s hs
    exact ⟨r, hr, hrs.trans hst⟩

theorem foldl {α : Type} {step : Fitting → α → Fitting} {xs : List α} (hf : f.Coherent S)
    (hstep : ∀ g, Keeps S a value f g → ∀ x ∈ xs, Keeps S a value g (step g x)) :
    Keeps S a value f (xs.foldl step f) := by
  suffices h : ∀ g, Keeps S a value f g → Keeps S a value f (xs.foldl step g) from h f (refl hf)
  induction xs with
  | nil => exact fun g hg => hg
  | cons x xs ih =>
      intro g hg
      exact ih (fun g hg x hx => hstep g hg x (by simp [hx])) _
        (hg.trans (hstep g hg x (by simp)))

/-- A change of rules and records that says the same where the rest is respected. -/
theorem of_draft {e : Draft} (hf : f.Coherent S) (he : e.Coherent S) (hsame : f.draft.SameAtoms e)
    (hobeyed : S.exact → ∀ X, ∀ D ⊆ X, f.Knows D X → (f.draft.Obeyed D X ↔ e.Obeyed D X))
    (hcount : f.draft.rules.size ≤ e.rules.size)
    (hrules : ∀ i s, i < f.draft.rules.size → e.rule? i = some s →
      ∃ r, f.draft.rule? i = some r ∧ Narrows a value r.clause s.clause)
    (hweightRules : ∀ i s, e.weightRule? i = some s →
      ∃ r, f.draft.weightRule? i = some r ∧ Narrows a value r.clause s.clause) :
    Keeps S a value f { f with draft := e } := by
  have hknows : ∀ D X, ({ f with draft := e } : Fitting).Knows D X ↔ f.Knows D X := by
    refine fun D X => ⟨fun h => ⟨fun a ha => ?_, fun a ha => ?_, fun a ha => ?_, fun a ha => ?_⟩,
      fun h => ⟨fun a ha => ?_, fun a ha => ?_, fun a ha => ?_, fun a ha => ?_⟩⟩
    · exact h.given a (hsame.externals ▸ ha)
    · exact h.facts a (by rwa [← hsame.resolution] at ha)
    · exact h.banned a (by rwa [← hsame.resolution] at ha)
    · exact h.required a (by rwa [← hsame.resolution] at ha)
    · exact h.given a (hsame.externals ▸ ha)
    · exact h.facts a (by rwa [← hsame.resolution])
    · exact h.banned a (by rwa [← hsame.resolution])
    · exact h.required a (by rwa [← hsame.resolution])
  have hadmits : S.exact → ∀ X, ∀ D ⊆ X,
      (f.theory.Admits D X ↔ ({ f with draft := e } : Fitting).theory.Admits D X) := by
    intro hexact X D hD
    rw [admits_iff, admits_iff, hknows]
    exact and_congr_left fun hk => hobeyed hexact X D hD hk
  refine ⟨⟨he, fun a ha => ?_, hf.facts⟩, fun hexact X => ?_, hsame, hcount, hrules, hweightRules⟩
  · exact (hsame.mentioned a).trans (hf.mentioned a ha)
  · exact Theory.isStable_congr_admits (hadmits hexact X X subset_rfl) fun _ D hD =>
      hadmits hexact X D hD

end Keeps

/-- What comes after a change. -/
theorem Keeps.preserves {x : Step} (h : Keeps S a value f g) (hx : Preserves S a value g x) :
    Preserves S a value f x := by
  cases x with
  | error e =>
      exact ⟨fun hexact X hX => hx.1 hexact X ((h.stable hexact X).mp hX), hx.2⟩
  | ok g' => exact h.trans hx

namespace Preserves

theorem bind {x : Step} {k : Fitting → Step} (h : Preserves S a value f x)
    (hk : ∀ g, Keeps S a value f g → Preserves S a value g (k g)) :
    Preserves S a value f (x >>= k) := by
  cases x with
  | error e => exact h
  | ok g =>
      have hg : Keeps S a value f g := h
      exact hg.preserves (hk g hg)

theorem foldlM {α : Type} {step : Fitting → α → Step} {xs : List α} (hf : f.Coherent S)
    (hstep : ∀ g, Keeps S a value f g → ∀ x ∈ xs, Preserves S a value g (step g x)) :
    Preserves S a value f (xs.foldlM step f) := by
  suffices h : ∀ g, Keeps S a value f g → Preserves S a value g (xs.foldlM step g) from
    h f (.refl hf)
  induction xs with
  | nil => exact fun g hg => Keeps.refl hg.coherent
  | cons x xs ih =>
      intro g hg
      rw [List.foldlM_cons]
      refine (hstep g hg x (by simp)).bind fun g' hg' => ?_
      exact ih (fun g hg x hx => hstep g hg x (by simp [hx])) g' (hg.trans hg')

end Preserves

end Fitting

end StablePlan
