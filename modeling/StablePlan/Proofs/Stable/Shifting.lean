import Mathlib.Logic.Relation
import Mathlib.Order.Preorder.Finite
import StablePlan.Proofs.Program.Renaming
import StablePlan.Proofs.Stable.Record

/-!
Disjunctions as they stand. A disjunctive rule is satisfied as soon as one atom of its head is true,
and a set is stable if no smaller one is a model of its reduct in that reading. A reasoner holds
shifted rules instead. That never adds a stable set, and it loses none if no two atoms of one
disjunction depend on each other: of what a smaller model of the shifted rules leaves out, some part
depends on nothing else that is left out, and without that part alone the rules as they stand still
have a model.
-/

namespace StablePlan

namespace Clause

variable {c : Clause} {D E X : Set Nat}

/-- The atoms that a body asks to be true. -/
def needs (c : Clause) : Set Nat :=
  {b | (∃ l ∈ c.body, l.isPositive ∧ l.atom = b) ∨
    ∃ s ∈ c.sum, ∃ e ∈ s.elements, e.1.isPositive ∧ e.1.atom = b}

/-- A body that holds in one set and not in another needs an atom that the other one lacks. -/
theorem exists_needed (hw : c.HasNonnegWeights) (hE : BodyHolds c.body c.sum E X)
    (hD : ¬BodyHolds c.body c.sum D X) : ∃ b ∈ c.needs, b ∈ E ∧ b ∉ D := by
  by_contra hno
  push Not at hno
  have hliteral : ∀ l : Literal, (l.isPositive → l.atom ∈ c.needs) → l.HoldsIn E X →
      l.HoldsIn D X := by
    intro l hl hholds
    unfold Literal.HoldsIn at hholds ⊢
    by_cases hpositive : l.isPositive = true
    · rw [if_pos hpositive] at hholds ⊢
      exact hno l.atom (hl hpositive) hholds
    · rwa [if_neg hpositive] at hholds ⊢
  refine hD ⟨fun l hl => hliteral l (fun hp => Or.inl ⟨l, hl, hp, rfl⟩) (hE.1 l hl),
    fun s hs => (hE.2 s hs).trans (sum_map_mono fun e he => ?_)⟩
  have hweight := hw s hs e he
  have hmono := hliteral e.1 fun hp => Or.inr ⟨s, hs, e, he, hp, rfl⟩
  by_cases hholds : e.1.HoldsIn E X
  · simp [hholds, hmono hholds]
  · by_cases hholdsD : e.1.HoldsIn D X <;> simp [hholds, hholdsD, hweight]

/-- A rule as it stands says at least what it says when it is shifted. -/
theorem Respects.obeys (h : c.Respects D X) (hDX : D ⊆ X) : c.Obeys D X := by
  intro hbody
  have hhead := h hbody
  by_cases hchoice : c.choice = true
  · rwa [if_pos hchoice] at hhead ⊢
  · rw [if_neg hchoice] at hhead ⊢
    obtain ⟨a, ha, haD⟩ := hhead
    refine ⟨List.ne_nil_of_mem ha, fun k hk hothers => ?_⟩
    by_cases hak : a = k
    · exact hak ▸ haD
    · exact absurd (hDX haD) (hothers a ha hak)

/-- In `X` itself it says the same. -/
theorem respects_self_iff : c.Respects X X ↔ c.Obeys X X := by
  refine ⟨fun h => h.obeys subset_rfl, fun h hbody => ?_⟩
  by_cases hchoice : c.choice = true
  · rw [if_pos hchoice]
    exact fun _ _ => id
  · rw [if_neg hchoice]
    exact obeys_self_iff.mp h (by simpa using hchoice) hbody

end Clause

/-- In a finite set some atom reaches only such atoms of the set that reach it in turn. -/
theorem exists_reached_back {r : Nat → Nat → Prop} {U : Set Nat} (hfinite : U.Finite)
    (hne : U.Nonempty) : ∃ a ∈ U, ∀ b ∈ U, Relation.ReflTransGen r a b →
      Relation.ReflTransGen r b a := by
  obtain ⟨a, ha, hleast⟩ := hfinite.exists_minimalFor (fun a => {b | Relation.ReflTransGen r a b})
    U hne
  refine ⟨a, ha, fun b hb hab => ?_⟩
  have hsub : {c | Relation.ReflTransGen r b c} ≤ {c | Relation.ReflTransGen r a c} :=
    fun c hbc => hab.trans hbc
  exact hleast hb hsub (Relation.ReflTransGen.refl : a ∈ {c | Relation.ReflTransGen r a c})

namespace Theory

variable {t : Theory} {D X : Set Nat} {a b : Nat}

/-- The rules of a theory, shifted. -/
def shifted (t : Theory) : Theory :=
  { t with clauses := {d | ∃ c ∈ t.clauses, d ∈ c.shifted} }

/-- A rule for the first atom needs the second one. -/
def DependsOn (t : Theory) (a b : Nat) : Prop := ∃ c ∈ t.clauses, a ∈ c.head ∧ b ∈ c.needs

/-- No two atoms of one disjunction depend on each other, through however many rules. -/
def HeadCycleFree (t : Theory) : Prop :=
  ∀ c ∈ t.clauses, c.choice = false → ∀ a ∈ c.head, ∀ b ∈ c.head, a ≠ b →
    ¬(Relation.TransGen t.DependsOn a b ∧ Relation.TransGen t.DependsOn b a)

/-- Ranks that never rise from a head to what its body needs, and that tell the atoms of a
disjunction apart, show that there is no such cycle. -/
theorem headCycleFree_of_rank (rank : Nat → Nat)
    (hbody : ∀ c ∈ t.clauses, ∀ a ∈ c.head, ∀ l ∈ c.body, l.isPositive → rank l.atom ≤ rank a)
    (hsum : ∀ c ∈ t.clauses, ∀ a ∈ c.head, ∀ s ∈ c.sum, ∀ e ∈ s.elements, e.1.isPositive →
      rank e.1.atom ≤ rank a)
    (happart : ∀ c ∈ t.clauses, c.choice = false → ∀ a ∈ c.head, ∀ b ∈ c.head, a ≠ b →
      rank a ≠ rank b) : t.HeadCycleFree := by
  have hdepends : ∀ a b, t.DependsOn a b → rank b ≤ rank a := by
    rintro a b ⟨c, hc, ha, ⟨l, hl, hpositive, rfl⟩ | ⟨s, hs, e, he, hpositive, rfl⟩⟩
    · exact hbody c hc a ha l hl hpositive
    · exact hsum c hc a ha s hs e he hpositive
  have hle : ∀ a b, Relation.TransGen t.DependsOn a b → rank b ≤ rank a := by
    intro a b hab
    induction hab with
    | single h => exact hdepends _ _ h
    | tail _ h ih => exact (hdepends _ _ h).trans ih
  rintro c hc hchoice a ha b hb hab ⟨h, h'⟩
  exact happart c hc hchoice a ha b hb hab (le_antisymm (hle b a h') (hle a b h))

theorem models_shifted_iff : t.shifted.Models D X ↔ (∀ c ∈ t.clauses, c.Obeys D X) ∧
    (∀ a ∈ t.given, a ∈ X → a ∈ D) ∧ (∀ a ∈ t.facts, a ∈ D) ∧ (∀ a ∈ t.banned, a ∉ D) ∧
      ∀ a ∈ t.required, a ∈ X := by
  constructor
  · intro h
    exact ⟨fun c hc => Clause.respects_shifted_iff.mp fun d hd => h.clauses d ⟨c, hc, hd⟩,
      h.given, h.facts, h.banned, h.required⟩
  · rintro ⟨hclauses, hgiven, hfacts, hbanned, hrequired⟩
    refine ⟨?_, hgiven, hfacts, hbanned, hrequired⟩
    rintro d ⟨c, hc, hd⟩
    exact Clause.respects_shifted_iff.mpr (hclauses c hc) d hd

theorem Models.shifted (h : t.Models D X) (hDX : D ⊆ X) : t.shifted.Models D X :=
  models_shifted_iff.mpr ⟨fun c hc => (h.clauses c hc).obeys hDX, h.given, h.facts, h.banned,
    h.required⟩

/-- Shifting adds no stable set. -/
theorem IsStable.of_shifted (h : t.shifted.IsStable X) : t.IsStable X := by
  obtain ⟨hclauses, hgiven, hfacts, hbanned, hrequired⟩ := models_shifted_iff.mp h.model
  exact ⟨⟨fun c hc => Clause.respects_self_iff.mpr (hclauses c hc), hgiven, hfacts, hbanned,
    hrequired⟩, fun D hDX hD => h.least D hDX (hD.shifted hDX)⟩

/-- What is left out of a model of the shifted rules, and reached from one atom of it. -/
def leftOut (t : Theory) (D X : Set Nat) (a : Nat) : Set Nat :=
  {b | b ∈ X ∧ b ∉ D ∧ Relation.ReflTransGen t.DependsOn a b}

/-- Where a body holds without the part, it holds in the model that leaves out more: otherwise the
head, if it is in the part, would depend on something else that is left out. -/
theorem bodyHolds_of_mem_leftOut {c : Clause} (hc : c ∈ t.clauses) (hw : c.HasNonnegWeights)
    (hb : b ∈ c.head) (hleft : b ∈ t.leftOut D X a)
    (hbody : BodyHolds c.body c.sum (X \ t.leftOut D X a) X) : BodyHolds c.body c.sum D X := by
  by_contra hno
  obtain ⟨d, hneeds, ⟨hdX, hpart⟩, hdD⟩ := Clause.exists_needed hw hbody hno
  exact hpart ⟨hdX, hdD, hleft.2.2.tail ⟨c, hc, hb, hneeds⟩⟩

/-- Without a part of what is left out that depends on nothing else left out, the rules as they
stand have a model, if they are free of head cycles. -/
theorem Models.without_leftOut (hX : t.Models X X) (hD : t.shifted.Models D X)
    (hw : t.HasNonnegWeights) (hfree : t.HeadCycleFree)
    (hback : ∀ b ∈ X, b ∉ D → Relation.ReflTransGen t.DependsOn a b →
      Relation.ReflTransGen t.DependsOn b a) : t.Models (X \ t.leftOut D X a) X := by
  obtain ⟨hclauses, hgiven, hfacts, -, -⟩ := models_shifted_iff.mp hD
  refine ⟨fun c hc hbody => ?_, fun x hx hxX => ⟨hxX, fun h => h.2.1 (hgiven x hx hxX)⟩,
    fun x hx => ⟨hX.facts x hx, fun h => h.2.1 (hfacts x hx)⟩,
    fun x hx h => hX.banned x hx h.1, hX.required⟩
  have hbodyX := hbody.mono (hw c hc) Set.sdiff_subset
  have hrespects := hX.clauses c hc hbodyX
  by_cases hchoice : c.choice = true
  · rw [if_pos hchoice]
    refine fun b hb hbX => ⟨hbX, fun hleft => hleft.2.1 ?_⟩
    have hobeys := hclauses c hc (bodyHolds_of_mem_leftOut hc (hw c hc) hb hleft hbody)
    rw [if_pos hchoice] at hobeys
    exact hobeys b hb hbX
  · rw [if_neg hchoice] at hrespects ⊢
    by_contra hno
    push Not at hno
    -- All atoms of the head that are true are in the part, so there is only one.
    have hpart : ∀ k ∈ c.head, k ∈ X → k ∈ t.leftOut D X a := by
      intro k hk hkX
      by_contra hout
      exact hno k hk ⟨hkX, hout⟩
    obtain ⟨b, hb, hbX⟩ := hrespects
    have hleft := hpart b hb hbX
    have hothers : ∀ k ∈ c.head, k ≠ b → k ∉ X := by
      intro k hk hkb hkX
      have hleft' := hpart k hk hkX
      have hkb' : Relation.ReflTransGen t.DependsOn k b :=
        (hback k hkX hleft'.2.1 hleft'.2.2).trans hleft.2.2
      have hbk : Relation.ReflTransGen t.DependsOn b k :=
        (hback b hbX hleft.2.1 hleft.2.2).trans hleft'.2.2
      refine hfree c hc (by simpa using hchoice) k hk b hb hkb ⟨?_, ?_⟩
      · exact (Relation.reflTransGen_iff_eq_or_transGen.mp hkb').resolve_left (Ne.symm hkb)
      · exact (Relation.reflTransGen_iff_eq_or_transGen.mp hbk).resolve_left hkb
    have hobeys := hclauses c hc (bodyHolds_of_mem_leftOut hc (hw c hc) hb hleft hbody)
    rw [if_neg hchoice] at hobeys
    exact hleft.2.1 (hobeys.2 b hb hothers)

/-- Shifting loses no stable set of a theory without head cycles. -/
theorem IsStable.shifted (h : t.IsStable X) (hfinite : X.Finite) (hw : t.HasNonnegWeights)
    (hfree : t.HeadCycleFree) : t.shifted.IsStable X := by
  refine ⟨h.model.shifted subset_rfl, fun D _ hD => ?_⟩
  by_contra hsub
  have hne : (X \ D).Nonempty := Set.sdiff_nonempty.mpr hsub
  obtain ⟨a, ⟨haX, haD⟩, hback⟩ := exists_reached_back (r := t.DependsOn)
    (hfinite.subset Set.sdiff_subset) hne
  have hmodels := h.model.without_leftOut hD hw hfree fun b hbX hbD => hback b ⟨hbX, hbD⟩
  exact (h.least _ Set.sdiff_subset hmodels haX).2 ⟨haX, haD, .refl⟩

end Theory

/-! ### The rules that a reasoner is given -/

/-- What a list of rules says if the heads are taken as they stand. -/
def rulesAsTheyStand (rules : List (Rule ⊕ WeightRule)) : Theory where
  clauses := {c | ∃ rule ∈ rules, c = rule.elim Rule.clause WeightRule.clause}

/-- The event of adding a rule. -/
def ruleEvent (rule : Rule ⊕ WeightRule) : Observation := rule.elim .rule .weightRule

theorem rule?_ruleEvent (rule : Rule ⊕ WeightRule) :
    (ruleEvent rule).rule? = some (rule.elim Rule.clause WeightRule.clause) := by
  cases rule <;> rfl

theorem clauses_ruleEvent (rule : Rule ⊕ WeightRule) :
    (ruleEvent rule).clauses = (rule.elim Rule.clause WeightRule.clause).shifted := by
  simp [Observation.clauses, rule?_ruleEvent]

theorem hasNonnegWeights_rulesAsTheyStand {rules : List (Rule ⊕ WeightRule)}
    (hw : ∀ rule ∈ rules, (ruleEvent rule).HasNonnegWeights) :
    (rulesAsTheyStand rules).HasNonnegWeights := by
  rintro c ⟨rule, hrule, rfl⟩ s hs
  cases rule with
  | inl rule => exact absurd hs (Option.not_mem_none s)
  | inr rule =>
      obtain rfl := Option.some.inj hs
      exact hw _ hrule

/-- A stable set of finitely many rules is within their heads. -/
theorem finite_of_isStable_rulesAsTheyStand {rules : List (Rule ⊕ WeightRule)} {X : Set Nat}
    (hw : (rulesAsTheyStand rules).HasNonnegWeights) (h : (rulesAsTheyStand rules).IsStable X) :
    X.Finite := by
  refine (List.finite_toSet (rules.flatMap fun rule =>
    (rule.elim Rule.clause WeightRule.clause).head)).subset fun a ha => ?_
  rcases h.supported hw ha with hgiven | hfact | ⟨c, ⟨rule, hrule, rfl⟩, hhead, -⟩
  · exact absurd hgiven (Set.notMem_empty a)
  · exact absurd hfact (Set.notMem_empty a)
  · exact List.mem_flatMap.mpr ⟨rule, hrule, hhead⟩

namespace Reasoner

variable {r : Reasoner} {log : List Observation} {rules : List (Rule ⊕ WeightRule)} {X : Set Nat}

/-- Adds rules in turn. -/
def addRules (rules : List (Rule ⊕ WeightRule)) (r : Reasoner) : Step :=
  rules.foldlM (fun r rule => rule.elim r.addRule r.addWeightRule) r

theorem Represents.addRules (h : r.Represents log)
    (hzero : ∀ rule ∈ rules, 0 ∉ (ruleEvent rule).atoms) :
    ∃ s, r.addRules rules = .ok s ∧ s.Represents (log ++ rules.map ruleEvent) := by
  induction rules generalizing r log with
  | nil => exact ⟨r, rfl, by simpa using h⟩
  | cons rule rules ih =>
      obtain ⟨t, hnote⟩ := noteAtoms_ok (hzero rule (by simp)) r
      have hadd : rule.elim r.addRule r.addWeightRule = (r.noteAtoms (ruleEvent rule).atoms).map
          (·.addClauses (rule.elim Rule.clause WeightRule.clause).shifted) := by
        cases rule with
        | inl rule => exact addRule_eq r rule
        | inr rule => exact addWeightRule_eq r rule
      have hnoted : rule.elim r.addRule r.addWeightRule =
          .ok (t.addClauses (rule.elim Rule.clause WeightRule.clause).shifted) := by
        rw [hadd, hnote]
        rfl
      have hfirst := (h.addNoted (rule?_ruleEvent rule) (hadd.symm.trans hnoted)).1
      obtain ⟨s, hrest, hs⟩ := ih hfirst fun rule h => hzero rule (by simp [h])
      refine ⟨s, ?_, by simpa using hs⟩
      unfold Reasoner.addRules at hrest ⊢
      rw [List.foldlM_cons, hnoted]
      exact hrest

/-- A reasoner that was given rules and nothing else holds them shifted. -/
theorem Represents.theory_eq_shifted (h : r.Represents (rules.map ruleEvent)) :
    r.theory = (rulesAsTheyStand rules).shifted := by
  ext c
  · change c ∈ r.clauses.toList ↔ ∃ d ∈ (rulesAsTheyStand rules).clauses, c ∈ d.shifted
    rw [h.clauses, List.flatMap_map]
    simp only [clauses_ruleEvent, List.mem_flatMap]
    constructor
    · rintro ⟨rule, hrule, hc⟩
      exact ⟨_, ⟨rule, hrule, rfl⟩, hc⟩
    · rintro ⟨_, ⟨rule, hrule, rfl⟩, hc⟩
      exact ⟨rule, hrule, hc⟩
  all_goals rfl

/-- A reasoner takes over every list of rules that does without atom 0. The stable sets of the
clauses that it holds are stable for the rules as they stand, and if no two atoms of a disjunction
depend on each other they are all of them. -/
theorem isStable_addRules_iff (limit : Limit) (rules : List (Rule ⊕ WeightRule))
    (hzero : ∀ rule ∈ rules, 0 ∉ (ruleEvent rule).atoms)
    (hw : ∀ rule ∈ rules, (ruleEvent rule).HasNonnegWeights) :
    ∃ r, (empty limit).addRules rules = .ok r ∧
      ((rulesAsTheyStand rules).HeadCycleFree →
        ∀ X, r.theory.IsStable X ↔ (rulesAsTheyStand rules).IsStable X) ∧
      ∀ X, r.theory.IsStable X → (rulesAsTheyStand rules).IsStable X := by
  obtain ⟨r, hadd, hr⟩ := (represents_empty limit).addRules hzero
  have hweights := hasNonnegWeights_rulesAsTheyStand hw
  have hadds : ∀ X, r.theory.IsStable X → (rulesAsTheyStand rules).IsStable X := by
    rw [hr.theory_eq_shifted]
    exact fun X => Theory.IsStable.of_shifted
  refine ⟨r, hadd, fun hfree X => ⟨hadds X, fun h => ?_⟩, hadds⟩
  rw [hr.theory_eq_shifted]
  exact h.shifted (finite_of_isStable_rulesAsTheyStand hweights h) hweights hfree

/-- A disjunction that names an atom twice, a positive cycle through its other atom, and a weighted
choice that needs itself. -/
def cyclicRules : List (Rule ⊕ WeightRule) :=
  [.inl ⟨false, [1, 2, 2], []⟩, .inl ⟨false, [3], [.positive 1]⟩, .inl ⟨false, [1], [.positive 3]⟩,
    .inr ⟨true, [4], 2, [(.positive 2, 1), (.positive 4, 1), (.negative 1, 1)]⟩]

theorem headCycleFree_cyclicRules : (rulesAsTheyStand cyclicRules).HeadCycleFree := by
  refine Theory.headCycleFree_of_rank (fun a => [0, 0, 1, 0, 2].getD a 0) ?_ ?_ ?_ <;>
    · rintro _ ⟨rule, hrule, rfl⟩
      revert rule
      decide

theorem isStable_addRules_iff_cyclicRules : ∃ r, (empty .unlimited).addRules cyclicRules = .ok r ∧
    ∀ X, r.theory.IsStable X ↔ (rulesAsTheyStand cyclicRules).IsStable X := by
  obtain ⟨r, hadd, hexact, -⟩ := isStable_addRules_iff .unlimited cyclicRules (by decide)
    (by decide)
  exact ⟨r, hadd, hexact headCycleFree_cyclicRules⟩

end Reasoner

/-- Two atoms that derive each other, of which one has to be true. -/
def crossedRules : List (Rule ⊕ WeightRule) :=
  [.inl ⟨false, [1, 2], []⟩, .inl ⟨false, [1], [.positive 2]⟩, .inl ⟨false, [2], [.positive 1]⟩]

/-- Across a head cycle shifting does lose a stable set: each of the two atoms waits for the other
one to be false. -/
theorem lost_across_head_cycle : (rulesAsTheyStand crossedRules).IsStable {1, 2} ∧
    ¬(rulesAsTheyStand crossedRules).shifted.IsStable {1, 2} := by
  have hclauses : ∀ {P : Clause → Prop}, (∀ c ∈ (rulesAsTheyStand crossedRules).clauses, P c) ↔
      P ⟨false, [1, 2], [], none⟩ ∧ P ⟨false, [1], [.positive 2], none⟩ ∧
        P ⟨false, [2], [.positive 1], none⟩ := by
    intro P
    simp [rulesAsTheyStand, crossedRules, Rule.clause]
  constructor
  · refine ⟨⟨?_, fun _ h => h.elim, fun _ h => h.elim, fun _ h => h.elim, fun _ h => h.elim⟩,
      fun D _ hD => ?_⟩
    · rw [hclauses]
      simp [Clause.Respects, BodyHolds]
    · have hrespects := hclauses.mp hD.clauses
      simp [Clause.Respects, BodyHolds] at hrespects
      rintro a (rfl | rfl) <;> tauto
  · intro h
    have hnone : (rulesAsTheyStand crossedRules).shifted.Models ∅ {1, 2} := by
      rw [Theory.models_shifted_iff, hclauses]
      refine ⟨?_, fun _ h => h.elim, fun _ h => h.elim, fun _ h => h.elim, fun _ h => h.elim⟩
      simp [Clause.Obeys, BodyHolds]
    exact h.least ∅ (Set.empty_subset _) hnone (Set.mem_insert 1 {2})

end StablePlan
