import StablePlan.Proofs.Transition.Review

/-!
Propagating a value keeps the stable sets. Once an atom is resolved, its records do not have to fit
any more, so it can be taken out of rules one by one; the lists that are worked through are those
from before, and meanwhile a rule only narrows. Atom 0 has no positive literal, and no rule is on
record for one.
-/

namespace StablePlan.Fitting

variable {f g : Fitting} {D X : Set Nat} {S : Scope} {a i : Nat} {l : Literal} {value : Bool}

/-! ### Parts of rules -/

theorem mem_head_of_mem_parts {r : Rule} (h : (a, .head) ∈ r.parts) : a ∈ r.head := by
  rcases List.mem_append.mp h with h | h
  · obtain ⟨x, hx, heq⟩ := List.mem_map.mp h
    obtain rfl := congrArg Prod.fst heq
    exact hx
  · obtain ⟨m, -, heq⟩ := List.mem_map.mp h
    have hrole : m.role = .head := congrArg Prod.snd heq
    unfold Literal.role at hrole
    split at hrole <;> exact absurd hrole (by simp)

theorem mem_weightHead_of_mem_parts {r : WeightRule} (h : (a, .weightHead) ∈ r.parts) :
    a ∈ r.head := by
  rcases List.mem_append.mp h with h | h
  · obtain ⟨x, hx, heq⟩ := List.mem_map.mp h
    obtain rfl := congrArg Prod.fst heq
    exact hx
  · obtain ⟨e, -, heq⟩ := List.mem_map.mp h
    have hrole : e.1.weightRole = .weightHead := congrArg Prod.snd heq
    unfold Literal.weightRole at hrole
    split at hrole <;> exact absurd hrole (by simp)

theorem exists_literal_of_mem_parts {r : Rule} {s : Bool}
    (h : (a, if s then Role.positive else .negative) ∈ r.parts) :
    ∃ m ∈ r.body, m.atom = a ∧ m.isPositive = s := by
  rcases List.mem_append.mp h with h | h
  · obtain ⟨x, -, heq⟩ := List.mem_map.mp h
    have hrole : Role.head = if s then Role.positive else .negative := congrArg Prod.snd heq
    split at hrole <;> exact absurd hrole (by simp)
  · obtain ⟨m, hm, heq⟩ := List.mem_map.mp h
    have hrole : m.role = if s then Role.positive else .negative := congrArg Prod.snd heq
    refine ⟨m, hm, congrArg Prod.fst heq, ?_⟩
    unfold Literal.role at hrole
    cases hm : m.isPositive <;> cases s <;> simp_all

theorem replaces_erase_head {r : Rule} (hno : ¬f.draft.IsTracked a .head) :
    f.draft.Replaces r.parts (some ({ r with head := r.head.erase a } : Rule).parts) := by
  constructor
  · simp only [Rule.parts, List.mem_append, List.mem_map]
    rintro part (⟨x, hx, rfl⟩ | h)
    · exact Or.inl ⟨x, List.mem_of_mem_erase hx, rfl⟩
    · exact Or.inr h
  · simp only [Rule.parts, List.mem_append, List.mem_map]
    rintro part (⟨x, hx, rfl⟩ | h) hgone
    · rcases Clause.mem_or_eq_of_erase a hx with hmem | rfl
      · exact absurd (Or.inl ⟨x, hmem, rfl⟩) hgone
      · exact hno
    · exact absurd (Or.inr h) hgone

theorem replaces_erase_weightHead {r : WeightRule} (hno : ¬f.draft.IsTracked a .weightHead) :
    f.draft.Replaces r.parts (some ({ r with head := r.head.erase a } : WeightRule).parts) := by
  constructor
  · simp only [WeightRule.parts, List.mem_append, List.mem_map]
    rintro part (⟨x, hx, rfl⟩ | h)
    · exact Or.inl ⟨x, List.mem_of_mem_erase hx, rfl⟩
    · exact Or.inr h
  · simp only [WeightRule.parts, List.mem_append, List.mem_map]
    rintro part (⟨x, hx, rfl⟩ | h) hgone
    · rcases Clause.mem_or_eq_of_erase a hx with hmem | rfl
      · exact absurd (Or.inl ⟨x, hmem, rfl⟩) hgone
      · exact hno
    · exact absurd (Or.inr h) hgone

theorem replaces_erase_body {r : Rule} (hno : ¬f.draft.IsTracked l.atom l.role) :
    f.draft.Replaces r.parts (some ({ r with body := r.body.erase l } : Rule).parts) := by
  constructor
  · simp only [Rule.parts, List.mem_append, List.mem_map]
    rintro part (h | ⟨m, hm, rfl⟩)
    · exact Or.inl h
    · exact Or.inr ⟨m, List.mem_of_mem_erase hm, rfl⟩
  · simp only [Rule.parts, List.mem_append, List.mem_map]
    rintro part (h | ⟨m, hm, rfl⟩) hgone
    · exact absurd (Or.inl h) hgone
    · rcases Clause.mem_or_eq_of_erase l hm with hmem | rfl
      · exact absurd (Or.inr ⟨m, hmem, rfl⟩) hgone
      · exact hno

theorem replaces_withoutLiteral {r : WeightRule} {lower : Int}
    (hno : ¬f.draft.IsTracked l.atom l.weightRole) :
    f.draft.Replaces r.parts
      (some ({ r with lower, body := withoutLiteral l r.body } : WeightRule).parts) := by
  constructor
  · simp only [WeightRule.parts, List.mem_append, List.mem_map]
    rintro part (h | ⟨e, he, rfl⟩)
    · exact Or.inl h
    · exact Or.inr ⟨e, (List.mem_filter.mp he).1, rfl⟩
  · simp only [WeightRule.parts, List.mem_append, List.mem_map]
    rintro part (h | ⟨e, he, rfl⟩) hgone
    · exact absurd (Or.inl h) hgone
    · by_cases heq : e.1 = l
      · rwa [heq]
      · exact absurd (Or.inr ⟨e, List.mem_filter.mpr ⟨he, by simpa using heq⟩, rfl⟩) hgone

/-! ### Literals of a decided atom -/

/-- The literal that a value makes true. -/
def literalOf (a : Nat) (value : Bool) : Literal :=
  if value then .positive a else .negative a

theorem atom_literalOf : (literalOf a value).atom = a := by
  unfold literalOf
  split <;> simp [Literal.positive, Literal.negative, Literal.atom]

theorem atom_negate_literalOf : (literalOf a value).negate.atom = a := by
  unfold literalOf
  split <;> simp [Literal.positive, Literal.negative, Literal.atom, Literal.negate]

theorem isPositive_literalOf (h : value = true → a ≠ 0) :
    (literalOf a value).isPositive = value := by
  cases value with
  | true => simp [literalOf, Literal.positive, Literal.isPositive, Nat.pos_of_ne_zero (h rfl)]
  | false => simp [literalOf, Literal.negative, Literal.isPositive]

theorem isPositive_negate_literalOf (h : value = false → a ≠ 0) :
    (literalOf a value).negate.isPositive = !value := by
  cases value with
  | true => simp [literalOf, Literal.positive, Literal.isPositive, Literal.negate]
  | false =>
      simp [literalOf, Literal.negative, Literal.isPositive, Literal.negate,
        Nat.pos_of_ne_zero (h rfl)]

/-- The atom has got its value, and what is on record for it are rules in which it plays the
role. -/
structure Decided (f : Fitting) (a : Nat) (value : Bool) : Prop where
  resolution : f.draft.resolution a = some (if value then .on else .off)
  played : ∀ role i parts, i ∈ f.draft.record a role →
    f.draft.parts? role.isWeighted i = some parts → (a, role) ∈ parts

theorem not_isTracked (h : f.draft.resolution a = some (if value then .on else .off))
    (role : Role) : ¬f.draft.IsTracked a role := by
  unfold Draft.IsTracked
  rw [h]
  cases value <;> simp

theorem holdsIn_of_resolution (h : f.draft.resolution a = some (if value then .on else .off))
    (hk : f.Knows D X) (hatom : l.atom = a) (hsign : l.isPositive = value) : l.HoldsIn D X := by
  unfold Literal.HoldsIn
  rw [hatom, hsign]
  cases value with
  | true => exact hk.facts a (Or.inr h)
  | false => exact hk.banned a (Or.inr h)

theorem not_holdsIn_of_resolution (h : f.draft.resolution a = some (if value then .on else .off))
    (hD : D ⊆ X) (hk : f.Knows D X) (hatom : l.atom = a) (hsign : l.isPositive = !value) :
    ¬l.HoldsIn D X := by
  unfold Literal.HoldsIn
  rw [hatom, hsign]
  cases value with
  | true => exact fun hl => hl (hD (hk.facts a (Or.inr h)))
  | false => exact fun hl => hk.banned a (Or.inr h) (hD hl)

theorem obeys_erase_head_iff (h : f.draft.resolution a = some (if value then .on else .off))
    (hD : D ⊆ X) (hk : f.Knows D X) {choice : Bool} {head : List Nat} {body : List Literal}
    {sum : Option WeightSum} (hchoice : value = true → choice = true) :
    (⟨choice, head.erase a, body, sum⟩ : Clause).Obeys D X ↔
      (⟨choice, head, body, sum⟩ : Clause).Obeys D X := by
  cases value with
  | true =>
      rw [hchoice rfl]
      exact Clause.obeys_erase_head_of_mem (hk.facts a (Or.inr h))
  | false => exact Clause.obeys_erase_head_of_not_mem hD (hk.banned a (Or.inr h))

/-! ### Steps -/

/-- Rules with the atom in the head are satisfied if it is true, unless they are choices. -/
theorem preserves_resolveHead (hf : f.Coherent S)
    (hres : f.draft.resolution a = some (if value then .on else .off))
    (hmem : ∀ r, f.draft.rule? i = some r → value = true → r.choice = false → a ∈ r.head) :
    Preserves S a value f (resolveHead a value f i) := by
  unfold resolveHead
  split
  · exact Keeps.refl hf
  · rename_i r hi
    split
    · rename_i htrue
      obtain ⟨rfl, hchoice⟩ : value = true ∧ r.choice = false := by simpa using htrue
      refine keeps_retire hf fun _ s hs X D hD hk _ => ?_
      obtain rfl := Option.some.inj (hi.symm.trans hs)
      have hobeys : (⟨false, r.head, r.body, none⟩ : Clause).Obeys D X :=
        Clause.obeys_of_mem_head hD (hmem r hi rfl hchoice) (hk.facts a (Or.inr hres))
      unfold Rule.clause
      rwa [hchoice]
    · rename_i hother
      have hchoice : value = true → r.choice = true := by simpa using hother
      have hset : Keeps S a value f (f.setRule i (some { r with head := r.head.erase a })) := by
        refine keeps_setRule hf hi (replaces_erase_head (not_isTracked hres _)) ?_ ?_
        · rintro s hs
          obtain rfl := Option.some.inj hs
          exact ⟨rfl, fun hv hc => absurd ((hchoice hv).symm.trans hc) (by simp), fun _ h _ => h⟩
        · intro _ X D hD hk _
          simp only [Option.mem_def, Option.some.injEq, forall_eq']
          exact (obeys_erase_head_iff hres hD hk hchoice).symm
      exact hset.preserves (preserves_review hset.coherent)

theorem preserves_resolveWeightHead (hf : f.Coherent S)
    (hres : f.draft.resolution a = some (if value then .on else .off))
    (hmem : ∀ r, f.draft.weightRule? i = some r → value = true → r.choice = false → a ∈ r.head) :
    Preserves S a value f (resolveWeightHead a value f i) := by
  unfold resolveWeightHead
  split
  · exact Keeps.refl hf
  · rename_i r hi
    split
    · rename_i htrue
      obtain ⟨rfl, hchoice⟩ : value = true ∧ r.choice = false := by simpa using htrue
      refine keeps_retireWeight hf fun _ s hs X D hD hk _ => ?_
      obtain rfl := Option.some.inj (hi.symm.trans hs)
      have hobeys : (⟨false, r.head, [], some ⟨r.lower, r.body⟩⟩ : Clause).Obeys D X :=
        Clause.obeys_of_mem_head hD (hmem r hi rfl hchoice) (hk.facts a (Or.inr hres))
      unfold WeightRule.clause
      rwa [hchoice]
    · rename_i hother
      have hchoice : value = true → r.choice = true := by simpa using hother
      have hset : Keeps S a value f
          (f.setWeightRule i (some { r with head := r.head.erase a })) := by
        refine keeps_setWeightRule hf hi (replaces_erase_weightHead (not_isTracked hres _)) ?_ ?_ ?_
        · rintro s hs
          obtain rfl := Option.some.inj hs
          exact (hf.draft.weights i r hi).withHead _
        · rintro s hs
          obtain rfl := Option.some.inj hs
          exact ⟨rfl, fun hv hc => absurd ((hchoice hv).symm.trans hc) (by simp), fun _ h _ => h⟩
        · intro _ X D hD hk _
          simp only [Option.mem_def, Option.some.injEq, forall_eq']
          exact (obeys_erase_head_iff hres hD hk hchoice).symm
      exact hset.preserves (preserves_reviewWeight hset.coherent)

theorem preserves_satisfy (hf : f.Coherent S)
    (hres : f.draft.resolution a = some (if value then .on else .off)) (hatom : l.atom = a)
    (hsign : l.isPositive = value) : Preserves S a value f (satisfy l f i) := by
  unfold satisfy
  split
  · exact Keeps.refl hf
  · rename_i r hi
    have hset : Keeps S a value f (f.setRule i (some { r with body := r.body.erase l })) := by
      refine keeps_setRule hf hi (replaces_erase_body (hatom ▸ not_isTracked hres _)) ?_ ?_
      · rintro s hs
        obtain rfl := Option.some.inj hs
        refine ⟨rfl, fun _ _ => rfl, fun m hm hne => ?_⟩
        rcases Clause.mem_or_eq_of_erase l hm with hmem | rfl
        · exact hmem
        · exact absurd ⟨hatom, hsign⟩ hne
      · intro _ X D hD hk _
        simp only [Option.mem_def, Option.some.injEq, forall_eq']
        exact (Clause.obeys_erase_body (holdsIn_of_resolution hres hk hatom hsign)).symm
    exact hset.preserves (preserves_review hset.coherent)

theorem preserves_satisfyWeight (hf : f.Coherent S)
    (hres : f.draft.resolution a = some (if value then .on else .off)) (hatom : l.atom = a)
    (hsign : l.isPositive = value) : Preserves S a value f (satisfyWeight l f i) := by
  unfold satisfyWeight
  split
  · exact Keeps.refl hf
  · rename_i r hi
    have hset : Keeps S a value f (f.setWeightRule i (some { r with
        lower := wrapWeight (r.lower - totalWeight (r.body.filter fun e => e.1 == l))
        body := withoutLiteral l r.body })) := by
      refine keeps_setWeightRule hf hi
        (replaces_withoutLiteral (hatom ▸ not_isTracked hres _)) ?_ ?_ ?_
      · rintro s hs
        obtain rfl := Option.some.inj hs
        exact (hf.draft.weights i r hi).takeOff fun e => e.1 == l
      · rintro s hs
        obtain rfl := Option.some.inj hs
        exact ⟨rfl, fun _ _ => rfl, fun _ h _ => h⟩
      · intro hexact X D hD hk _
        simp only [Option.mem_def, Option.some.injEq, forall_eq']
        rw [((hf.draft.weights i r hi).2 hexact).wrapWeight_lower]
        exact (Clause.obeys_satisfied_weight (holdsIn_of_resolution hres hk hatom hsign)).symm
    exact hset.preserves (preserves_reviewWeight hset.coherent)

/-- A literal that never holds has no weight. -/
theorem preserves_falsifyWeight (hf : f.Coherent S)
    (hno : ¬f.draft.IsTracked l.atom l.weightRole)
    (hl : ∀ X, ∀ D ⊆ X, f.Knows D X → ¬l.HoldsIn D X) :
    Preserves S a value f (falsifyWeight l f i) := by
  unfold falsifyWeight
  split
  · exact Keeps.refl hf
  · rename_i r hi
    have hset : Keeps S a value f
        (f.setWeightRule i (some { r with body := withoutLiteral l r.body })) := by
      refine keeps_setWeightRule hf hi (replaces_withoutLiteral hno) ?_ ?_ ?_
      · rintro s hs
        obtain rfl := Option.some.inj hs
        exact (hf.draft.weights i r hi).filter fun e => e.1 != l
      · rintro s hs
        obtain rfl := Option.some.inj hs
        exact ⟨rfl, fun _ _ => rfl, fun _ h _ => h⟩
      · intro _ X D hD hk _
        simp only [Option.mem_def, Option.some.injEq, forall_eq']
        exact (Clause.obeys_falsified_weight (hl X D hD hk)).symm
    exact hset.preserves (preserves_reviewWeight hset.coherent)

/-- Rules that need a literal that never holds are retired. -/
theorem keeps_foldl_retire {is : List Nat} (hf : f.Coherent S)
    (hbound : ∀ i ∈ is, i < f.draft.rules.size)
    (hmem : ∀ i ∈ is, ∀ r, f.draft.rule? i = some r →
      ∃ l ∈ r.body, l.atom = a ∧ l.isPositive = !value)
    (hl : ∀ g : Fitting, f.draft.SameAtoms g.draft → ∀ X, ∀ D ⊆ X, g.Knows D X → ∀ l : Literal,
      l.atom = a → l.isPositive = (!value) → ¬l.HoldsIn D X) :
    Keeps S a value f (is.foldl retire f) := by
  refine Keeps.foldl hf fun g hg i hi => ?_
  refine keeps_retire hg.coherent fun _ s hs X D hD hk _ => ?_
  obtain ⟨r, hr, -, -, hbody⟩ := hg.rules i s (hbound i hi) hs
  obtain ⟨l, hlr, hatom, hsign⟩ := hmem i hi r hr
  have hne : ¬(l.atom = a ∧ l.isPositive = value) := by
    rintro ⟨-, hvalue⟩
    rw [hvalue] at hsign
    cases value <;> exact absurd hsign (by simp)
  exact Clause.obeys_of_not_holdsIn (hbody l hlr hne) (hl g hg.same X D hD hk l hatom hsign)

/-! ### Propagation -/

theorem Keeps.resolution (hres : f.draft.resolution a = some (if value then .on else .off))
    (hg : Keeps S a value f g) : g.draft.resolution a = some (if value then .on else .off) :=
  (hg.same.resolution a).trans hres

/-- A rule on record for its head that is still there has the head that it had. -/
theorem preserves_resolveHead_of_mem (hf : f.Coherent S) (hd : f.Decided a value)
    (hg : Keeps S a value f g) (hi : i ∈ f.draft.record a .head) :
    Preserves S a value g (resolveHead a value g i) := by
  refine preserves_resolveHead hg.coherent (hg.resolution hd.resolution) fun s hs hv hc => ?_
  obtain ⟨r, hr, hchoice, hhead, -⟩ := hg.rules i s (hf.draft.bounded a .head i hi) hs
  have hpart := hd.played .head i r.parts hi (by simp [Role.isWeighted, Draft.parts?_false, hr])
  have hsame : s.head = r.head := hhead hv (hchoice.symm.trans hc)
  rw [hsame]
  exact mem_head_of_mem_parts hpart

theorem preserves_resolveWeightHead_of_mem (hd : f.Decided a value) (hg : Keeps S a value f g)
    (hi : i ∈ f.draft.record a .weightHead) :
    Preserves S a value g (resolveWeightHead a value g i) := by
  refine preserves_resolveWeightHead hg.coherent (hg.resolution hd.resolution) fun s hs hv hc => ?_
  obtain ⟨r, hr, hchoice, hhead, -⟩ := hg.weightRules i s hs
  have hpart := hd.played .weightHead i r.parts hi
    (by simp [Role.isWeighted, Draft.parts?_true, hr])
  have hsame : s.head = r.head := hhead hv (hchoice.symm.trans hc)
  rw [hsame]
  exact mem_weightHead_of_mem_parts hpart

/-- A rule on record for the literal that is false still has it, and is retired. -/
theorem keeps_retire_false (hf : f.Coherent S) (hd : f.Decided a value)
    (hg : Keeps S a value f g) {is : List Nat}
    (his : ∀ i ∈ is, i ∈ f.draft.record a (if (!value) then .positive else .negative)) :
    Keeps S a value g (is.foldl retire g) := by
  have hweighted : (if (!value) then Role.positive else .negative).isWeighted = false := by
    cases value <;> rfl
  have hbound : ∀ i ∈ is, i < f.draft.rules.size := fun i hi => by
    have := hf.draft.bounded a _ i (his i hi)
    rwa [hweighted] at this
  refine keeps_foldl_retire hg.coherent (fun i hi => (hbound i hi).trans_le hg.count) ?_ ?_
  · intro i hi s hs
    obtain ⟨r, hr, -, -, hbody⟩ := hg.rules i s (hbound i hi) hs
    have hpart := hd.played _ i r.parts (his i hi)
      (by rw [hweighted, Draft.parts?_false, hr]; rfl)
    obtain ⟨m, hm, hatom, hsign⟩ := exists_literal_of_mem_parts hpart
    refine ⟨m, hbody m hm ?_, hatom, hsign⟩
    rintro ⟨-, hvalue⟩
    rw [hvalue] at hsign
    cases value <;> exact absurd hsign (by simp)
  · intro g' hsame X D hD hk l hatom hsign
    refine not_holdsIn_of_resolution ?_ hD hk hatom hsign
    exact (hsame.resolution a).trans (hg.resolution hd.resolution)

/-- Propagating the value of an atom keeps the stable sets. -/
theorem preserves_propagate (hf : f.Coherent S) (hd : f.Decided a value) :
    Preserves S a value f (f.propagate a value) := by
  have hclear : Keeps S a value f (f.mapOccurrences a fun _ => {}) := by
    refine keeps_mapOccurrences hf (Draft.shrinks_mapOccurrences (fun role i hi => ?_) ?_)
    · rw [Occurrences.of_empty] at hi
      exact absurd hi List.not_mem_nil
    · exact fun role i _ _ ht => absurd ht (not_isTracked hd.resolution role)
  have hzero : ∀ i, i ∈ f.draft.record a .positive ∨ i ∈ f.draft.record a .weightedPositive →
      a ≠ 0 := by
    rintro i hi rfl
    rcases hi with hi | hi
    · exact (hf.draft.zero i).1 hi
    · exact (hf.draft.zero i).2 hi
  unfold propagate
  refine hclear.preserves ?_
  -- Heads first.
  refine Preserves.bind (Preserves.foldlM hclear.coherent fun g hg i hi => ?_) fun g h => ?_
  · exact preserves_resolveHead_of_mem hf hd (hclear.trans hg) hi
  replace h := hclear.trans h
  refine Preserves.bind (Preserves.foldlM h.coherent fun g hg i hi => ?_) fun g h' => ?_
  · exact preserves_resolveWeightHead_of_mem hd (h.trans hg) hi
  replace h := h.trans h'
  clear h'
  -- Bodies with the literal that is true, and those with the one that is false.
  refine Preserves.bind (Preserves.foldlM h.coherent fun g hg i hi => ?_) fun g h' => ?_
  · refine preserves_satisfy hg.coherent ((h.trans hg).resolution hd.resolution) atom_literalOf
      (isPositive_literalOf fun hv => hzero i (Or.inl ?_))
    rwa [if_pos hv] at hi
  replace h := h.trans h'
  clear h'
  have hretire : Keeps S a value g ((if value then (f.draft.occurrences a).negative
      else (f.draft.occurrences a).positive).foldl retire g) := by
    refine keeps_retire_false hf hd h fun i hi => ?_
    cases value <;> exact hi
  refine hretire.preserves ?_
  replace h := h.trans hretire
  -- The same for weights.
  refine Preserves.bind (Preserves.foldlM h.coherent fun g hg i hi => ?_) fun g h' => ?_
  · refine preserves_satisfyWeight hg.coherent ((h.trans hg).resolution hd.resolution)
      atom_literalOf (isPositive_literalOf fun hv => hzero i (Or.inr ?_))
    rwa [if_pos hv] at hi
  replace h := h.trans h'
  refine Preserves.foldlM h.coherent fun g hg i hi => ?_
  have hres := (h.trans hg).resolution hd.resolution
  refine preserves_falsifyWeight hg.coherent ?_ fun X D hD hk => ?_
  · change ¬g.draft.IsTracked (literalOf a value).negate.atom _
    rw [atom_negate_literalOf]
    exact not_isTracked hres _
  · refine not_holdsIn_of_resolution hres hD hk atom_negate_literalOf
      (isPositive_negate_literalOf fun hv => hzero i (Or.inr ?_))
    rwa [if_neg (by simp [hv])] at hi

end StablePlan.Fitting
