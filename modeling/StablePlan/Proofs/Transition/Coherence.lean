import StablePlan.Proofs.Transition.Records

/-!
Records that fit the rules. They are kept for the atoms without a value, and for cautious atoms in
all roles but the negative ones, where they are empty; they name the live rules in which the atom
plays the role, and besides only rules that are retired. Whatever takes rules, atoms of rules or
records away keeps them fitting, as long as what is taken out of a rule is not on record any more.
-/

namespace StablePlan

/-- What the rules of a draft are held to: the atoms that may be in their heads, and whether all
sums have to be exact. -/
structure Scope where
  heads : Set Nat
  exact : Prop

/-- The weights of a rule are not negative, and where sums have to be exact they stay in the
range. -/
def WeightRule.IsWithin (S : Scope) (r : WeightRule) : Prop :=
  r.HasNonnegWeights ∧ (S.exact → r.HasFittingBound)

namespace WeightRule.IsWithin

variable {S : Scope} {r : WeightRule}

theorem withHead (h : r.IsWithin S) (head : List Nat) : IsWithin S { r with head } :=
  ⟨h.1, fun hexact => ⟨(h.2 hexact).weights, (h.2 hexact).lower, (h.2 hexact).upper⟩⟩

theorem filter (h : r.IsWithin S) (p : Literal × Int → Bool) :
    IsWithin S { r with body := r.body.filter p } :=
  ⟨fun e he => h.1 e (List.mem_filter.mp he).1, fun hexact => (h.2 hexact).filter p⟩

theorem takeOff (h : r.IsWithin S) (p : Literal × Int → Bool) :
    IsWithin S { r with
      lower := wrapWeight (r.lower - totalWeight (r.body.filter p))
      body := r.body.filter fun e => !p e } :=
  ⟨fun e he => h.1 e (List.mem_filter.mp he).1, fun hexact => (h.2 hexact).takeOff p⟩

end WeightRule.IsWithin

namespace Draft

variable {d e : Draft} {S : Scope} {a b : Nat}

def ruleCount (d : Draft) (weighted : Bool) : Nat :=
  if weighted then d.weightRules.size else d.rules.size

/-- Records fit the live rules, and these are within the scope. -/
structure Coherent (S : Scope) (d : Draft) : Prop where
  recorded : ∀ a role i parts, d.parts? role.isWeighted i = some parts → (a, role) ∈ parts →
    d.IsTracked a role → i ∈ d.record a role
  played : ∀ a role i parts, i ∈ d.record a role → d.IsTracked a role →
    d.parts? role.isWeighted i = some parts → (a, role) ∈ parts
  bounded : ∀ a role i, i ∈ d.record a role → i < d.ruleCount role.isWeighted
  mentioned : ∀ weighted i parts, d.parts? weighted i = some parts →
    ∀ part ∈ parts, d.isMentioned part.1
  cautious : ∀ a role i, d.resolution a = some .cautious → role.isNegative → i ∉ d.record a role
  zero : ∀ i, i ∉ d.record 0 .positive ∧ i ∉ d.record 0 .weightedPositive
  weights : ∀ i r, d.weightRule? i = some r → r.IsWithin S
  resolved : ∀ a, d.resolution a ≠ none → d.isMentioned a
  heads : ∀ weighted i parts, d.parts? weighted i = some parts →
    ∀ part ∈ parts, part.2 = .head ∨ part.2 = .weightHead → part.1 ∈ S.heads

/-- Rules, parts of rules, records and the keeping of records have only become fewer. -/
structure Shrinks (d e : Draft) : Prop where
  parts : ∀ weighted i parts', e.parts? weighted i = some parts' →
    ∃ parts, d.parts? weighted i = some parts ∧ (∀ part ∈ parts', part ∈ parts) ∧
      ∀ part ∈ parts, part ∉ parts' → ¬e.IsTracked part.1 part.2
  record : ∀ a role i, i ∈ e.record a role → i ∈ d.record a role
  kept : ∀ a role i, i ∈ d.record a role → i ∉ e.record a role → e.IsTracked a role →
    e.parts? role.isWeighted i = none
  tracked : ∀ a role, e.IsTracked a role → d.IsTracked a role
  cautious : ∀ a, e.resolution a = some .cautious → d.resolution a = some .cautious ∨
    ∀ role i, role.isNegative → i ∉ e.record a role
  count : ∀ weighted, d.ruleCount weighted ≤ e.ruleCount weighted
  mentioned : ∀ a, d.isMentioned a → e.isMentioned a

theorem Coherent.shrink (h : d.Coherent S) (hs : d.Shrinks e)
    (hweights : ∀ i r, e.weightRule? i = some r → r.IsWithin S)
    (hresolved : ∀ a, e.resolution a ≠ none → e.isMentioned a) : e.Coherent S := by
  refine ⟨?_, ?_, fun a role i hi => ?_, ?_, fun a role i ha hrole hi => ?_, fun i => ?_, hweights,
    hresolved, ?_⟩
  · intro a role i parts' hparts' hpart htracked
    obtain ⟨parts, hparts, hsub, -⟩ := hs.parts _ _ _ hparts'
    have hi := h.recorded a role i parts hparts (hsub _ hpart) (hs.tracked a role htracked)
    by_contra hno
    have hnone := hs.kept a role i hi hno htracked
    rw [hparts'] at hnone
    exact absurd hnone (by simp)
  · intro a role i parts' hi htracked hparts'
    obtain ⟨parts, hparts, -, hgone⟩ := hs.parts _ _ _ hparts'
    have hpart :=
      h.played a role i parts (hs.record a role i hi) (hs.tracked a role htracked) hparts
    by_contra hno
    exact hgone _ hpart hno htracked
  · exact (h.bounded a role i (hs.record a role i hi)).trans_le (hs.count _)
  · intro weighted i parts' hparts' part hpart
    obtain ⟨parts, hparts, hsub, -⟩ := hs.parts _ _ _ hparts'
    exact hs.mentioned _ (h.mentioned weighted i parts hparts part (hsub part hpart))
  · rcases hs.cautious a ha with hd | hno
    · exact h.cautious a role i hd hrole (hs.record a role i hi)
    · exact hno role i hrole hi
  · exact ⟨fun hi => (h.zero i).1 (hs.record _ _ i hi), fun hi => (h.zero i).2 (hs.record _ _ i hi)⟩
  · intro weighted i parts' hparts' part hpart
    obtain ⟨parts, hparts, hsub, -⟩ := hs.parts _ _ _ hparts'
    exact h.heads weighted i parts hparts part (hsub part hpart)

/-- The records and the rules are all that matters. -/
theorem Coherent.rest (h : d.Coherent S) {externals : List Nat} {outputs : Array (Symbol × Nat)}
    {facts falsified cautious : List Nat} {bottom : Bool} :
    Draft.Coherent S { d with externals, outputs, facts, falsified, cautious, bottom } :=
  ⟨h.recorded, h.played, h.bounded, h.mentioned, h.cautious, h.zero, h.weights, h.resolved, h.heads⟩

/-! ### Changing rules -/

theorem parts?_false (d : Draft) (i : Nat) : d.parts? false i = (d.rule? i).map Rule.parts := rfl

theorem parts?_true (d : Draft) (i : Nat) :
    d.parts? true i = (d.weightRule? i).map WeightRule.parts := rfl

theorem Coherent.mem_of_head (h : d.Coherent S) {i : Nat} {r : Rule} (hi : d.rule? i = some r)
    (ha : a ∈ r.head) : a ∈ S.heads := by
  refine h.heads false i r.parts ?_ (a, .head) ?_ (Or.inl rfl)
  · rw [parts?_false, hi]
    rfl
  · exact List.mem_append_left _ (List.mem_map.mpr ⟨a, ha, rfl⟩)

theorem Coherent.mem_of_weightHead (h : d.Coherent S) {i : Nat} {r : WeightRule}
    (hi : d.weightRule? i = some r) (ha : a ∈ r.head) : a ∈ S.heads := by
  refine h.heads true i r.parts ?_ (a, .weightHead) ?_ (Or.inr rfl)
  · rw [parts?_true, hi]
    rfl
  · exact List.mem_append_left _ (List.mem_map.mpr ⟨a, ha, rfl⟩)

/-- The draft with a rule replaced or dropped. -/
def withRule (d : Draft) (i : Nat) (r : Option Rule) : Draft :=
  { d with rules := d.rules.setIfInBounds i r }

def withWeightRule (d : Draft) (i : Nat) (r : Option WeightRule) : Draft :=
  { d with weightRules := d.weightRules.setIfInBounds i r }

theorem rule?_withRule (d : Draft) (i j : Nat) (r : Option Rule) :
    (d.withRule i r).rule? j = if j = i ∧ i < d.rules.size then r else d.rule? j := by
  simp only [withRule, rule?, Array.getD_eq_getD_getElem?]
  grind

theorem weightRule?_withWeightRule (d : Draft) (i j : Nat) (r : Option WeightRule) :
    (d.withWeightRule i r).weightRule? j =
      if j = i ∧ i < d.weightRules.size then r else d.weightRule? j := by
  simp only [withWeightRule, weightRule?, Array.getD_eq_getD_getElem?]
  grind

theorem lt_of_rule? {i : Nat} {r : Rule} (h : d.rule? i = some r) : i < d.rules.size := by
  by_contra hle
  simp only [rule?, Array.getD_eq_getD_getElem?] at h
  grind

theorem lt_of_weightRule? {i : Nat} {r : WeightRule} (h : d.weightRule? i = some r) :
    i < d.weightRules.size := by
  by_contra hle
  simp only [weightRule?, Array.getD_eq_getD_getElem?] at h
  grind

/-- What a rule may be replaced by: nothing, or a part of it in which only what is not on record
any more is missing. -/
def Replaces (d : Draft) (parts : List (Nat × Role)) : Option (List (Nat × Role)) → Prop
  | none => True
  | some parts' => (∀ part ∈ parts', part ∈ parts) ∧
      ∀ part ∈ parts, part ∉ parts' → ¬d.IsTracked part.1 part.2

theorem shrinks_withRule {i : Nat} {r : Rule} (hi : d.rule? i = some r) {r' : Option Rule}
    (hr : d.Replaces r.parts (r'.map Rule.parts)) :
    d.Shrinks (d.withRule i r') := by
  refine ⟨fun weighted j parts' hparts' => ?_, fun _ _ _ h => h, fun _ _ _ h hno => absurd h hno,
    fun _ _ h => h, fun _ => Or.inl, fun weighted => ?_, fun _ h => h⟩
  · cases weighted with
    | true => exact ⟨parts', hparts', fun _ h => h, fun _ h hno => absurd h hno⟩
    | false =>
        rw [parts?_false, rule?_withRule] at hparts'
        by_cases hj : j = i
        · subst j
          rw [if_pos ⟨rfl, lt_of_rule? hi⟩] at hparts'
          rw [hparts'] at hr
          exact ⟨r.parts, by rw [parts?_false, hi]; rfl, hr.1, hr.2⟩
        · rw [if_neg (fun h => hj h.1)] at hparts'
          exact ⟨parts', hparts', fun _ h => h, fun _ h hno => absurd h hno⟩
  · cases weighted <;> simp [ruleCount, withRule]

theorem shrinks_withWeightRule {i : Nat} {r : WeightRule} (hi : d.weightRule? i = some r)
    {r' : Option WeightRule} (hr : d.Replaces r.parts (r'.map WeightRule.parts)) :
    d.Shrinks (d.withWeightRule i r') := by
  refine ⟨fun weighted j parts' hparts' => ?_, fun _ _ _ h => h, fun _ _ _ h hno => absurd h hno,
    fun _ _ h => h, fun _ => Or.inl, fun weighted => ?_, fun _ h => h⟩
  · cases weighted with
    | false => exact ⟨parts', hparts', fun _ h => h, fun _ h hno => absurd h hno⟩
    | true =>
        rw [parts?_true, weightRule?_withWeightRule] at hparts'
        by_cases hj : j = i
        · subst j
          rw [if_pos ⟨rfl, lt_of_weightRule? hi⟩] at hparts'
          rw [hparts'] at hr
          exact ⟨r.parts, by rw [parts?_true, hi]; rfl, hr.1, hr.2⟩
        · rw [if_neg (fun h => hj h.1)] at hparts'
          exact ⟨parts', hparts', fun _ h => h, fun _ h hno => absurd h hno⟩
  · cases weighted <;> simp [ruleCount, withWeightRule]

/-! ### Changing entries -/

theorem shrinks_mapOccurrences {g : Occurrences → Occurrences}
    (hsub : ∀ role, ∀ i ∈ (g (d.occurrences a)).of role, i ∈ d.record a role)
    (hkept : ∀ role, ∀ i ∈ d.record a role, i ∉ (g (d.occurrences a)).of role →
      d.IsTracked a role → d.parts? role.isWeighted i = none) :
    d.Shrinks (d.mapOccurrences a g) := by
  have htracked : ∀ b role, (d.mapOccurrences a g).IsTracked b role ↔ d.IsTracked b role := by
    intro b role
    unfold IsTracked
    rw [resolution_mapOccurrences]
  have hrecord : ∀ b role, (d.mapOccurrences a g).record b role =
      if b = a ∧ a < d.entries.size then (g (d.occurrences a)).of role else d.record b role := by
    intro b role
    unfold record
    rw [occurrences_mapOccurrences]
    split <;> rfl
  refine ⟨fun weighted i parts' hparts' => ?_, fun b role i hi => ?_, fun b role i hi hno ht => ?_,
    fun b role ht => (htracked b role).mp ht, fun b hb => ?_, fun _ => le_rfl, fun b hb => ?_⟩
  · exact ⟨parts', hparts', fun _ h => h, fun _ h hno => absurd h hno⟩
  · rw [hrecord] at hi
    split at hi
    · rename_i hb
      rw [hb.1]
      exact hsub role i hi
    · exact hi
  · rw [hrecord] at hno
    split at hno
    · rename_i hb
      rw [hb.1] at hi ht
      exact hkept role i hi hno ((htracked a role).mp ht)
    · exact absurd hi hno
  · rw [resolution_mapOccurrences] at hb
    exact Or.inl hb
  · rwa [isMentioned_mapOccurrences]

/-! ### Storing rules -/

/-- One more rule with its roles on record. -/
structure Pushes (weighted : Bool) (new : List (Nat × Role)) (d e : Draft) : Prop where
  parts : ∀ w i, e.parts? w i =
    if w = weighted ∧ i = d.ruleCount weighted then some new else d.parts? w i
  record : ∀ i a role, i ∈ e.record a role ↔
    i ∈ d.record a role ∨ i = d.ruleCount weighted ∧ (a, role) ∈ new
  resolution : ∀ a, e.resolution a = d.resolution a
  mentioned : ∀ a, e.isMentioned a = true ↔ d.isMentioned a = true ∨ ∃ role, (a, role) ∈ new
  count : ∀ w, e.ruleCount w = d.ruleCount w + if w = weighted then 1 else 0

theorem Coherent.push {weighted : Bool} {parts : List (Nat × Role)} (h : d.Coherent S)
    (hp : Pushes weighted parts d e) (hroles : ∀ part ∈ parts, part.2.isWeighted = weighted)
    (hcautious : ∀ part ∈ parts, part.2.isNegative → d.resolution part.1 ≠ some .cautious)
    (hzero : (0, .positive) ∉ parts ∧ (0, .weightedPositive) ∉ parts)
    (hheads : ∀ part ∈ parts, part.2 = .head ∨ part.2 = .weightHead → part.1 ∈ S.heads)
    (hweights : ∀ i r, e.weightRule? i = some r → r.IsWithin S) : e.Coherent S := by
  have htracked : ∀ a role, e.IsTracked a role ↔ d.IsTracked a role := fun a role => by
    unfold IsTracked
    rw [hp.resolution]
  refine ⟨?_, ?_, fun a role i hi => ?_, ?_, fun a role i ha hrole hi => ?_, fun i => ?_, hweights,
    fun a ha => ?_, ?_⟩
  · intro a role i parts' hparts' hpart ht
    rw [hp.parts] at hparts'
    refine (hp.record i a role).mpr ?_
    split at hparts'
    · rename_i hnew
      obtain rfl := Option.some.inj hparts'
      exact Or.inr ⟨hnew.2, hpart⟩
    · exact Or.inl (h.recorded a role i parts' hparts' hpart ((htracked a role).mp ht))
  · intro a role i parts' hi ht hparts'
    rw [hp.parts] at hparts'
    rcases (hp.record i a role).mp hi with hi | ⟨rfl, hpart⟩
    · have hlt := h.bounded a role i hi
      rw [if_neg (by rintro ⟨hw, rfl⟩; rw [hw] at hlt; exact lt_irrefl _ hlt)] at hparts'
      exact h.played a role i parts' hi ((htracked a role).mp ht) hparts'
    · rw [if_pos ⟨hroles _ hpart, rfl⟩] at hparts'
      exact Option.some.inj hparts' ▸ hpart
  · rw [hp.count]
    rcases (hp.record i a role).mp hi with hi | ⟨rfl, hpart⟩
    · have := h.bounded a role i hi
      omega
    · have hw : role.isWeighted = weighted := hroles _ hpart
      rw [hw, if_pos rfl]
      omega
  · intro w i parts' hparts' part hpart
    rw [hp.parts] at hparts'
    refine (hp.mentioned _).mpr ?_
    split at hparts'
    · obtain rfl := Option.some.inj hparts'
      exact Or.inr ⟨part.2, hpart⟩
    · exact Or.inl (h.mentioned w i parts' hparts' part hpart)
  · rw [hp.resolution] at ha
    rcases (hp.record i a role).mp hi with hi | ⟨-, hpart⟩
    · exact h.cautious a role i ha hrole hi
    · exact hcautious _ hpart hrole ha
  · constructor
    · intro hi
      rcases (hp.record i 0 _).mp hi with hi | ⟨-, hpart⟩
      · exact (h.zero i).1 hi
      · exact hzero.1 hpart
    · intro hi
      rcases (hp.record i 0 _).mp hi with hi | ⟨-, hpart⟩
      · exact (h.zero i).2 hi
      · exact hzero.2 hpart
  · rw [hp.resolution] at ha
    exact (hp.mentioned a).mpr (Or.inl (h.resolved a ha))
  · intro w i parts' hparts'
    rw [hp.parts] at hparts'
    split at hparts'
    · obtain rfl := Option.some.inj hparts'
      exact hheads
    · exact h.heads w i parts' hparts'

theorem pushes_pushRule (d : Draft) (rule : Rule) :
    Pushes false rule.parts d (d.pushRule rule) := by
  have hm := marked_markAll d.rules.size rule.parts d
  rw [pushRule_eq]
  generalize markAll d.rules.size rule.parts d = e at hm ⊢
  obtain ⟨entries, rfl⟩ := hm.rest
  refine ⟨fun w i => ?_, hm.record, hm.resolution, hm.mentioned, fun w => ?_⟩
  · cases w with
    | true => rfl
    | false =>
        simp only [parts?_false, rule?, ruleCount, Array.getD_eq_getD_getElem?,
          Array.getElem?_push]
        by_cases hi : i = d.rules.size
        · simp [hi]
        · simp [hi]
  · cases w <;> simp [ruleCount]

theorem pushes_pushWeightRule (d : Draft) (rule : WeightRule) :
    Pushes true rule.parts d (d.pushWeightRule rule) := by
  have hm := marked_markAll d.weightRules.size rule.parts d
  rw [pushWeightRule_eq]
  generalize markAll d.weightRules.size rule.parts d = e at hm ⊢
  obtain ⟨entries, rfl⟩ := hm.rest
  refine ⟨fun w i => ?_, hm.record, hm.resolution, hm.mentioned, fun w => ?_⟩
  · cases w with
    | false => rfl
    | true =>
        simp only [parts?_true, weightRule?, ruleCount, Array.getD_eq_getD_getElem?,
          Array.getElem?_push]
        by_cases hi : i = d.weightRules.size
        · simp [hi]
        · simp [hi]
  · cases w <;> simp [ruleCount]

theorem weightRule?_pushRule (d : Draft) (rule : Rule) (i : Nat) :
    (d.pushRule rule).weightRule? i = d.weightRule? i := by
  obtain ⟨entries, h⟩ := (marked_markAll d.rules.size rule.parts d).rest
  rw [pushRule_eq, h]
  rfl

theorem weightRule?_pushWeightRule (d : Draft) (rule : WeightRule) (i : Nat) :
    (d.pushWeightRule rule).weightRule? i =
      if i = d.weightRules.size then some rule else d.weightRule? i := by
  obtain ⟨entries, h⟩ := (marked_markAll d.weightRules.size rule.parts d).rest
  rw [pushWeightRule_eq, h]
  simp only [weightRule?, Array.getD_eq_getD_getElem?, Array.getElem?_push]
  split <;> rfl

theorem role_ne_of_atom_eq_zero {l : Literal} (h : l.atom = 0) :
    l.role ≠ .positive ∧ l.weightRole ≠ .weightedPositive := by
  have hraw : l.raw = 0 := by
    unfold Literal.atom at h
    omega
  simp [Literal.role, Literal.weightRole, Literal.isPositive, hraw]

theorem Coherent.pushRule (h : d.Coherent S) {rule : Rule} (hheads : ∀ x ∈ rule.head, x ∈ S.heads)
    (hcautious : ∀ l ∈ rule.body, d.resolution l.atom ≠ some .cautious) :
    (d.pushRule rule).Coherent S := by
  refine h.push (pushes_pushRule d rule) ?_ ?_ ?_ ?_ fun i r => ?_
  · simp only [Rule.parts, List.mem_append, List.mem_map]
    rintro part (⟨x, hx, rfl⟩ | ⟨l, hl, rfl⟩)
    · rfl
    · unfold Literal.role
      split <;> rfl
  · simp only [Rule.parts, List.mem_append, List.mem_map]
    rintro part (⟨x, hx, rfl⟩ | ⟨l, hl, rfl⟩) hrole
    · exact absurd hrole (by simp [Role.isNegative])
    · exact hcautious l hl
  · simp only [Rule.parts, List.mem_append, List.mem_map, Prod.mk.injEq]
    constructor
    · rintro (⟨x, -, -, hrole⟩ | ⟨l, -, hatom, hrole⟩)
      · exact absurd hrole (by simp)
      · exact (role_ne_of_atom_eq_zero hatom).1 hrole
    · rintro (⟨x, -, -, hrole⟩ | ⟨l, -, hatom, hrole⟩)
      · exact absurd hrole (by simp)
      · unfold Literal.role at hrole
        split at hrole <;> exact absurd hrole (by simp)
  · simp only [Rule.parts, List.mem_append, List.mem_map]
    rintro part (⟨x, hx, rfl⟩ | ⟨l, hl, rfl⟩) hrole
    · exact hheads x hx
    · unfold Literal.role at hrole
      split at hrole <;> exact absurd hrole (by simp)
  · rw [weightRule?_pushRule]
    exact h.weights i r

theorem Coherent.pushWeightRule (h : d.Coherent S) {rule : WeightRule}
    (hheads : ∀ x ∈ rule.head, x ∈ S.heads) (hw : rule.IsWithin S)
    (hcautious : ∀ e ∈ rule.body, d.resolution e.1.atom ≠ some .cautious) :
    (d.pushWeightRule rule).Coherent S := by
  refine h.push (pushes_pushWeightRule d rule) ?_ ?_ ?_ ?_ fun i r hi => ?_
  · simp only [WeightRule.parts, List.mem_append, List.mem_map]
    rintro part (⟨x, hx, rfl⟩ | ⟨e, he, rfl⟩)
    · rfl
    · unfold Literal.weightRole
      split <;> rfl
  · simp only [WeightRule.parts, List.mem_append, List.mem_map]
    rintro part (⟨x, hx, rfl⟩ | ⟨e, he, rfl⟩) hrole
    · exact absurd hrole (by simp [Role.isNegative])
    · exact hcautious e he
  · simp only [WeightRule.parts, List.mem_append, List.mem_map, Prod.mk.injEq]
    constructor
    · rintro (⟨x, -, -, hrole⟩ | ⟨e, -, hatom, hrole⟩)
      · exact absurd hrole (by simp)
      · unfold Literal.weightRole at hrole
        split at hrole <;> exact absurd hrole (by simp)
    · rintro (⟨x, -, -, hrole⟩ | ⟨e, -, hatom, hrole⟩)
      · exact absurd hrole (by simp)
      · exact (role_ne_of_atom_eq_zero hatom).2 hrole
  · simp only [WeightRule.parts, List.mem_append, List.mem_map]
    rintro part (⟨x, hx, rfl⟩ | ⟨e, he, rfl⟩) hrole
    · exact hheads x hx
    · unfold Literal.weightRole at hrole
      split at hrole <;> exact absurd hrole (by simp)
  · rw [weightRule?_pushWeightRule] at hi
    split at hi
    · obtain rfl := Option.some.inj hi
      exact hw
    · exact h.weights i r hi

theorem Coherent.mention (h : d.Coherent S) (a : Nat) : (d.mention a).Coherent S := by
  have hsame : ∀ b, (d.mention a).occurrences b = d.occurrences b := by
    intro b
    unfold occurrences
    rw [entry_mention]
    split
    · rename_i hb
      rw [hb]
    · rfl
  have hresolution : ∀ b, (d.mention a).resolution b = d.resolution b := by
    intro b
    unfold resolution
    rw [entry_mention]
    split
    · rename_i hb
      rw [hb]
    · rfl
  have hmentioned : ∀ b, d.isMentioned b → (d.mention a).isMentioned b := by
    intro b hb
    unfold isMentioned
    rw [entry_mention]
    split
    · rfl
    · exact hb
  refine h.shrink ⟨fun _ _ parts hparts => ⟨parts, hparts, fun _ h => h, fun _ h hno =>
    absurd h hno⟩, fun b role i hi => ?_, fun b role i hi hno => ?_, fun b role ht => ?_,
    fun b hb => ?_, fun _ => le_rfl, hmentioned⟩ h.weights fun b hb => ?_
  · unfold record at hi
    rwa [hsame] at hi
  · unfold record at hno
    rw [hsame] at hno
    exact absurd hi hno
  · unfold IsTracked at ht
    rwa [hresolution] at ht
  · rw [hresolution] at hb
    exact Or.inl hb
  · rw [hresolution] at hb
    exact hmentioned b (h.resolved b hb)

end Draft

end StablePlan
