import StablePlan.Proofs.Transition.Fixpoint
import StablePlan.Proofs.Transition.Residue

/-!
What a draft lets one infer, and what a fitting that works on it owes to it. Knowledge is closed if
no rule of the draft, and no lack of rules, gives more. Each rule of the fitting is one of the draft
or what one of its weight rules left when its bound was reached, less what is known; each rule that
is gone was spent.
-/

namespace StablePlan

variable {K L T : Knowledge} {l : Literal} {a b x : Nat}

namespace Draft

variable {d e : Draft} {freed freed' : List Nat} {i j : Nat}

/-! ### Closed knowledge -/

/-- An atom stands in the head of a rule. -/
def IsHead (d : Draft) (b : Nat) : Prop :=
  (∃ i r, d.rule? i = some r ∧ b ∈ r.head) ∨ ∃ j r, d.weightRule? j = some r ∧ b ∈ r.head

/-- A disjunction of which all other atoms are off. -/
def Singles (K : Knowledge) (b : Nat) (choice : Bool) (head : List Nat) : Prop :=
  choice = false ∧ b ∈ head ∧ ∀ x ∈ head, x ≠ b → K .off x

/-- An atom is all that is left of a rule. -/
def Derives (d : Draft) (K : Knowledge) (b : Nat) : Prop :=
  (∃ i r, d.rule? i = some r ∧ Singles K b r.choice r.head ∧ ∀ l ∈ r.body, l.HoldsBy K) ∨
    ∃ j r, d.weightRule? j = some r ∧ Singles K b r.choice r.head ∧ r.Reached K

/-- Nothing more follows, and what is on is a fact or derived. -/
structure Closed (d : Draft) (K : Knowledge) : Prop where
  consistent : K.Consistent
  rules : ∀ i r, d.rule? i = some r → r.Quiet K
  weightRules : ∀ j r, d.weightRule? j = some r → r.Quiet K
  unsupported : ∀ b, d.IsHead b → b ∉ d.externals → ¬K .on b →
    (∀ i r, d.rule? i = some r → b ∈ r.head → r.spent K) →
    (∀ j r, d.weightRule? j = some r → b ∈ r.head → r.spent K) → K .off b
  derived : ∀ b, K .on b → b ∈ d.facts ∨ d.Derives K b

def Weighs (d : Draft) : Prop := ∀ j r, d.weightRule? j = some r → r.HasFittingBound

theorem Singles.mono (h : K ≤ L) {choice : Bool} {head : List Nat}
    (hb : Singles K b choice head) : Singles L b choice head :=
  ⟨hb.1, hb.2.1, fun x hx hne => h .off x (hb.2.2 x hx hne)⟩

theorem Derives.mono (hw : d.Weighs) (h : K ≤ L) (hb : d.Derives K b) : d.Derives L b := by
  rcases hb with ⟨i, r, hi, hsingle, hbody⟩ | ⟨j, r, hj, hsingle, hreached⟩
  · exact Or.inl ⟨i, r, hi, hsingle.mono h, fun l hl => Literal.holdsBy_mono h (hbody l hl)⟩
  · exact Or.inr ⟨j, r, hj, hsingle.mono h, hreached.mono (hw j r hj).nonneg h⟩

/-- A head with one atom left that is not on is not closed. -/
theorem not_closesHead {choice : Bool} {head : List Nat} (hT : T.Consistent) (h : K ≤ T)
    (hsingle : Singles T b choice head) (hb : ¬K .on b) : ¬K.closesHead choice head := by
  obtain ⟨rfl, -, hoff⟩ := hsingle
  unfold Knowledge.closesHead
  simp only [Bool.false_eq_true, if_false, List.any_eq_true, not_exists, not_and]
  intro x hx hon
  by_cases hne : x = b
  · exact hb (hne ▸ hon)
  · exact hT.not_off (h .on x hon) (hoff x hx hne)

/-- An atom whose rules are all spent is off, unless it is external or known to be on already. -/
theorem Closed.off_of_unsupported (hT : d.Closed T) (hw : d.Weighs) (h : K ≤ T)
    (hhead : d.IsHead b) (hexternal : b ∉ d.externals) (hfact : b ∉ d.facts) (hb : ¬K .on b)
    (hrules : ∀ i r, d.rule? i = some r → b ∈ r.head → r.spent K)
    (hweightRules : ∀ j r, d.weightRule? j = some r → b ∈ r.head → r.spent K) : T .off b := by
  refine hT.unsupported b hhead hexternal (fun hon => ?_)
    (fun i r hi hmem => Rule.spent_mono h (hrules i r hi hmem))
    fun j r hj hmem => WeightRule.spent_mono (hw j r hj).nonneg h (hweightRules j r hj hmem)
  -- What is on and no fact is all that is left of some rule, and so that rule is not spent by less.
  rcases (hT.derived b hon).resolve_left hfact with
    ⟨i, r, hi, hsingle, hbody⟩ | ⟨j, r, hj, hsingle, hreached⟩
  · rcases Rule.spent_iff.mp (hrules i r hi hsingle.2.1) with ⟨l, hl, hfails⟩ | hclosed
    · exact Literal.not_failsBy hT.consistent (hbody l hl) (Literal.failsBy_mono h hfails)
    · exact not_closesHead hT.consistent h hsingle hb hclosed
  · rcases WeightRule.spent_iff.mp (hweightRules j r hj hsingle.2.1) with hbound | hclosed
    · have hpossible := WeightRule.possible_anti (hw j r hj).nonneg h
      have hsure := WeightRule.sure_le_possible (hw j r hj).nonneg hT.consistent
      unfold WeightRule.Reached at hreached
      omega
    · exact not_closesHead hT.consistent h hsingle hb hclosed

/-! ### Where rules come from -/

/-- The rule that a rule comes from: one of the draft, or the head of a weight rule of it that was
freed. -/
def source? (d : Draft) (freed : List Nat) (i : Nat) : Option Rule :=
  if i < d.rules.size then d.rule? i
  else freed[i - d.rules.size]?.bind fun j => (d.weightRule? j).map WeightRule.freed

theorem source?_of_rule? {r : Rule} (hi : d.rule? i = some r) : d.source? freed i = some r := by
  unfold source?
  rw [if_pos (lt_of_rule? hi), hi]

theorem source?_cases {r : Rule} (h : d.source? freed i = some r) :
    d.rule? i = some r ∨ ∃ j ∈ freed, ∃ s, d.weightRule? j = some s ∧ r = s.freed := by
  unfold source? at h
  split at h
  · exact Or.inl h
  · obtain ⟨j, hj, hr⟩ := Option.bind_eq_some_iff.mp h
    obtain ⟨s, hs, rfl⟩ := Option.map_eq_some_iff.mp hr
    exact Or.inr ⟨j, List.mem_of_getElem? hj, s, hs, rfl⟩

theorem exists_source?_of_freed (hj : j ∈ freed) {r : WeightRule} (hr : d.weightRule? j = some r) :
    ∃ i, d.source? freed i = some r.freed := by
  obtain ⟨k, hk, rfl⟩ := List.mem_iff_getElem.mp hj
  refine ⟨d.rules.size + k, ?_⟩
  unfold source?
  rw [if_neg (by omega)]
  simp [hk, hr]

theorem lt_of_source? {r : Rule} (h : d.source? freed i = some r) :
    i < d.rules.size + freed.length := by
  unfold source? at h
  split at h
  · omega
  · obtain ⟨j, hj, -⟩ := Option.bind_eq_some_iff.mp h
    have := (List.getElem?_eq_some_iff.mp hj).1
    omega

/-- Freeing more adds rules at the end. -/
theorem source?_append (hi : i < d.rules.size + freed.length) (more : List Nat) :
    d.source? (freed ++ more) i = d.source? freed i := by
  unfold source?
  split
  · rfl
  · rw [List.getElem?_append_left (by omega)]

theorem source?_mono (h : freed <+: freed') {r : Rule} (hi : d.source? freed i = some r) :
    d.source? freed' i = some r := by
  obtain ⟨more, rfl⟩ := h
  rw [source?_append (lt_of_source? hi), hi]

/-- The rules of the second draft come from the first one, less what is known. A choice between no
atoms that is left is one that has lost nothing. -/
structure Descends (d : Draft) (freed : List Nat) (K : Knowledge) (e : Draft) : Prop where
  nodup : freed.Nodup
  size : e.rules.size = d.rules.size + freed.length
  weightSize : e.weightRules.size = d.weightRules.size
  reached : ∀ j ∈ freed, ∃ r, d.weightRule? j = some r ∧ r.Reached K
  rules : ∀ i s, e.rule? i = some s → ∃ r, d.source? freed i = some r ∧ r.Leaves K s
  weightRules : ∀ j s, e.weightRule? j = some s → j ∉ freed ∧
    ∃ r, d.weightRule? j = some r ∧ r.Leaves K s ∧ (s.choice = true → s.head = [] → s = r)

/-- A weight rule has a literal of which something is known. -/
def IsTouched (K : Knowledge) (r : WeightRule) : Prop :=
  ∃ e ∈ r.body, e.1.HoldsBy K ∨ e.1.FailsBy K

/-- The rules of the first draft that the second one does not have any more were spent by what is
known by then, or freed; a choice between no atoms had a literal of which something is known. -/
structure Accounts (d : Draft) (freed : List Nat) (K L : Knowledge) (e : Draft) : Prop where
  rules : ∀ i r, d.source? freed i = some r → e.rule? i = none → r.spent L
  weightRules : ∀ j r, d.weightRule? j = some r → e.weightRule? j = none →
    (j ∈ freed ∨ r.spent L) ∧ (r.choice = true → r.head = [] → IsTouched K r)

theorem IsTouched.mono (h : K ≤ L) {r : WeightRule} (hr : IsTouched K r) : IsTouched L r := by
  obtain ⟨e, he, hknown⟩ := hr
  exact ⟨e, he, hknown.imp (Literal.holdsBy_mono h) (Literal.failsBy_mono h)⟩

namespace Descends

theorem reached_of_mem (h : d.Descends freed K e) (hj : j ∈ freed) {r : WeightRule}
    (hr : d.weightRule? j = some r) : r.Reached K := by
  obtain ⟨r', hr', hreached⟩ := h.reached j hj
  obtain rfl := Option.some.inj (hr.symm.trans hr')
  exact hreached

theorem leaves (h : d.Descends freed K e) {r s : Rule} (hi : e.rule? i = some s)
    (hr : d.source? freed i = some r) : r.Leaves K s := by
  obtain ⟨r', hr', hleaves⟩ := h.rules i s hi
  obtain rfl := Option.some.inj (hr.symm.trans hr')
  exact hleaves

theorem weightLeaves (h : d.Descends freed K e) {r s : WeightRule} (hj : e.weightRule? j = some s)
    (hr : d.weightRule? j = some r) : r.Leaves K s := by
  obtain ⟨-, r', hr', hleaves, -⟩ := h.weightRules j s hj
  obtain rfl := Option.some.inj (hr.symm.trans hr')
  exact hleaves

theorem entries (h : d.Descends freed K e) {entries : Array Entry} :
    d.Descends freed K { e with entries } :=
  ⟨h.nodup, h.size, h.weightSize, h.reached, h.rules, h.weightRules⟩

theorem mono (h : d.Descends freed K e) (hw : d.Weighs) (hKL : K ≤ L) (hL : L.Consistent) :
    d.Descends freed L e := by
  refine ⟨h.nodup, h.size, h.weightSize, fun j hj => ?_, fun i s hi => ?_, fun j s hj => ?_⟩
  · obtain ⟨r, hr, hreached⟩ := h.reached j hj
    exact ⟨r, hr, hreached.mono (hw j r hr).nonneg hKL⟩
  · obtain ⟨r, hr, hleaves⟩ := h.rules i s hi
    exact ⟨r, hr, hleaves.mono hKL⟩
  · obtain ⟨hfreed, r, hr, hleaves, hbare⟩ := h.weightRules j s hj
    exact ⟨hfreed, r, hr, hleaves.mono hKL hL, hbare⟩

theorem drop (h : d.Descends freed K e) (i : Nat) : d.Descends freed K (e.withRule i none) := by
  refine ⟨h.nodup, by simpa [withRule] using h.size, h.weightSize, h.reached, fun j s hj => ?_,
    h.weightRules⟩
  rw [rule?_withRule] at hj
  split at hj
  · exact absurd hj (by simp)
  · exact h.rules j s hj

theorem dropWeight (h : d.Descends freed K e) (j : Nat) :
    d.Descends freed K (e.withWeightRule j none) := by
  refine ⟨h.nodup, h.size, by simpa [withWeightRule] using h.weightSize, h.reached, h.rules,
    fun k s hk => ?_⟩
  rw [weightRule?_withWeightRule] at hk
  split at hk
  · exact absurd hk (by simp)
  · exact h.weightRules k s hk

/-- A rule loses something that is known. -/
theorem set (h : d.Descends freed K e) {s s' : Rule} (hi : e.rule? i = some s)
    (hs : ∀ r, d.source? freed i = some r → r.Leaves K s → r.Leaves K s') :
    d.Descends freed K (e.withRule i (some s')) := by
  refine ⟨h.nodup, by simpa [withRule] using h.size, h.weightSize, h.reached, fun k t hk => ?_,
    h.weightRules⟩
  rw [rule?_withRule] at hk
  split at hk
  · rename_i hki
    obtain rfl := Option.some.inj hk
    obtain ⟨r, hr, hleaves⟩ := h.rules i s hi
    exact ⟨r, hki.1 ▸ hr, hs r hr hleaves⟩
  · exact h.rules k t hk

theorem setWeight (h : d.Descends freed K e) (s' : Option WeightRule) :
    d.Descends freed K ((e.withWeightRule j s').withWeightRule j none) := by
  refine ⟨h.nodup, h.size, by simpa [withWeightRule] using h.weightSize, h.reached, h.rules,
    fun k s hk => ?_⟩
  rw [weightRule?_withWeightRule] at hk
  split at hk
  · exact absurd hk (by simp)
  · rename_i hne
    rw [weightRule?_withWeightRule] at hk
    split at hk
    · rename_i hself
      exact absurd ⟨hself.1, by simpa [withWeightRule] using hself.2⟩ hne
    · exact h.weightRules k s hk

/-- What is done with one weight rule, if it is not gone, does not matter for the others. -/
theorem keepWeight (h : d.Descends freed K (e.withWeightRule j none)) {s : WeightRule}
    (hj : e.weightRule? j = some s) {r : WeightRule} (hr : d.weightRule? j = some r)
    (hfreed : j ∉ freed) (hleaves : r.Leaves K s) (hbare : ¬(s.choice = true ∧ s.head = [])) :
    d.Descends freed K e := by
  refine ⟨h.nodup, h.size, by simpa [withWeightRule] using h.weightSize, h.reached, h.rules,
    fun k t hk => ?_⟩
  by_cases hkj : k = j
  · subst hkj
    obtain rfl := Option.some.inj (hj.symm.trans hk)
    exact ⟨hfreed, r, hr, hleaves, fun hchoice hhead => absurd ⟨hchoice, hhead⟩ hbare⟩
  · refine h.weightRules k t ?_
    rwa [weightRule?_withWeightRule, if_neg fun h => hkj h.1]

/-- A weight rule is freed: its head is stored as a rule. -/
theorem free (h : d.Descends freed K (e.withWeightRule j none)) {r s : WeightRule}
    (hr : d.weightRule? j = some r) (hfreed : j ∉ freed) (hreached : r.Reached K)
    (hleaves : r.Leaves K s) :
    d.Descends (freed ++ [j]) K ((e.pushRule s.freed).withWeightRule j none) := by
  have hsize : (e.pushRule s.freed).rules.size = e.rules.size + 1 := by
    have := (pushes_pushRule e s.freed).count false
    simpa [ruleCount] using this
  have hcount : e.rules.size = d.rules.size + freed.length := h.size
  refine ⟨?_, ?_, ?_, fun k hk => ?_, fun k t hk => ?_, fun k t hk => ?_⟩
  · refine List.nodup_append.mpr ⟨h.nodup, List.nodup_singleton j, fun k hk m hm hkm => hfreed ?_⟩
    rwa [← List.mem_singleton.mp hm, ← hkm]
  · change (e.pushRule s.freed).rules.size = _
    rw [hsize, hcount]
    simp [add_assoc]
  · have := (pushes_pushRule e s.freed).count true
    simp only [ruleCount, if_true, Bool.true_eq_false, if_false, Nat.add_zero] at this
    simpa [withWeightRule, this] using h.weightSize
  · rcases List.mem_append.mp hk with hk | hk
    · exact h.reached k hk
    · exact ⟨r, List.mem_singleton.mp hk ▸ hr, hreached⟩
  · change (e.pushRule s.freed).rule? k = some t at hk
    rw [rule?_pushRule] at hk
    split at hk
    · rename_i hlast
      obtain rfl := Option.some.inj hk
      refine ⟨r.freed, ?_, hleaves.freed⟩
      unfold source?
      rw [if_neg (by omega), hlast, hcount]
      simp [hr]
    · obtain ⟨q, hq, hleaves⟩ := h.rules k t hk
      exact ⟨q, source?_mono (List.prefix_append _ _) hq, hleaves⟩
  · rw [weightRule?_withWeightRule, weightRule?_pushRule] at hk
    split at hk
    · exact absurd hk (by simp)
    · rename_i hne
      have hkj : k ≠ j := by
        rintro rfl
        refine hne ⟨rfl, ?_⟩
        have := lt_of_weightRule? (d := e.pushRule s.freed) (by rwa [weightRule?_pushRule])
        exact this
      have hold : (e.withWeightRule j none).weightRule? k = some t := by
        rwa [weightRule?_withWeightRule, if_neg fun h => hkj h.1]
      obtain ⟨hkfreed, hrest⟩ := h.weightRules k t hold
      exact ⟨by simpa [hkj] using hkfreed, hrest⟩

end Descends

namespace Accounts

theorem entries (h : d.Accounts freed K L e) {entries : Array Entry} :
    d.Accounts freed K L { e with entries } := ⟨h.rules, h.weightRules⟩

theorem mono {K' L' : Knowledge} (h : d.Accounts freed K L e) (hw : d.Weighs) (hK : K ≤ K')
    (hL : L ≤ L') : d.Accounts freed K' L' e := by
  refine ⟨fun i r hr hi => Rule.spent_mono hL (h.rules i r hr hi), fun j r hr hj => ?_⟩
  obtain ⟨hspent, hbare⟩ := h.weightRules j r hr hj
  exact ⟨hspent.imp_right (WeightRule.spent_mono (hw j r hr).nonneg hL),
    fun hchoice hhead => (hbare hchoice hhead).mono hK⟩

/-- A rule that is spent is dropped. -/
theorem drop (h : d.Accounts freed K L e)
    (hi : ∀ r, d.source? freed i = some r → r.spent L) :
    d.Accounts freed K L (e.withRule i none) := by
  refine ⟨fun k r hr hk => ?_, h.weightRules⟩
  rw [rule?_withRule] at hk
  split at hk
  · rename_i hki
    exact hi r (hki.1 ▸ hr)
  · exact h.rules k r hr hk

theorem dropWeight (h : d.Accounts freed K L e) (hj : ∀ r, d.weightRule? j = some r →
      (j ∈ freed ∨ r.spent L) ∧ (r.choice = true → r.head = [] → IsTouched K r)) :
    d.Accounts freed K L (e.withWeightRule j none) := by
  refine ⟨h.rules, fun k r hr hk => ?_⟩
  rw [weightRule?_withWeightRule] at hk
  split at hk
  · rename_i hkj
    obtain rfl := hkj.1
    exact hj r hr
  · exact h.weightRules k r hr hk

theorem set (h : d.Accounts freed K L e) (s' : Rule) :
    d.Accounts freed K L (e.withRule i (some s')) := by
  refine ⟨fun k r hr hk => h.rules k r hr ?_, h.weightRules⟩
  rw [rule?_withRule] at hk
  split at hk
  · exact absurd hk (by simp)
  · exact hk

theorem setWeight (h : d.Accounts freed K L e) (s' : WeightRule) :
    d.Accounts freed K L (e.withWeightRule j (some s')) := by
  refine ⟨h.rules, fun k r hr hk => h.weightRules k r hr ?_⟩
  rw [weightRule?_withWeightRule] at hk
  split at hk
  · exact absurd hk (by simp)
  · exact hk

theorem free (h : d.Accounts freed K L e) (hsize : e.rules.size = d.rules.size + freed.length)
    (r : Rule) (j : Nat) : d.Accounts (freed ++ [j]) K L (e.pushRule r) := by
  refine ⟨fun k q hq hk => ?_, fun k q hq hk => ?_⟩
  · rw [rule?_pushRule] at hk
    split at hk
    · exact absurd hk (by simp)
    · have hlt := lt_of_source? hq
      rw [List.length_append, List.length_singleton] at hlt
      rw [source?_append (by omega)] at hq
      exact h.rules k q hq hk
  · rw [weightRule?_pushRule] at hk
    obtain ⟨hspent, hbare⟩ := h.weightRules k q hq hk
    exact ⟨hspent.imp_left fun hmem => List.mem_append_left _ hmem, hbare⟩

end Accounts

/-! ### The start -/

section Start

variable (hrules : e.rules = d.rules) (hweightRules : e.weightRules = d.weightRules)
include hrules hweightRules

/-- A draft whose rules have lost nothing. -/
theorem descends_of_same : d.Descends [] K e := by
  refine ⟨List.nodup_nil, by rw [hrules]; rfl, by rw [hweightRules], by simp, fun i s hi => ?_,
    fun j s hj => ?_⟩
  · unfold rule? at hi
    rw [hrules] at hi
    exact ⟨s, source?_of_rule? hi, .refl _ _⟩
  · unfold weightRule? at hj
    rw [hweightRules] at hj
    exact ⟨List.not_mem_nil, s, hj, .refl _ _, fun _ _ => rfl⟩

theorem accounts_of_same : d.Accounts [] K L e := by
  refine ⟨fun i r hr hi => ?_, fun j r hr hj => ?_⟩
  · unfold rule? at hi
    rw [hrules] at hi
    have hr := (source?_cases hr).resolve_right (by simp)
    exact absurd (hr.symm.trans hi) (by simp)
  · unfold weightRule? at hj
    rw [hweightRules] at hj
    exact absurd (hr.symm.trans hj) (by simp)

theorem IsHead.of_same (h : d.IsHead b) : e.IsHead b := by
  unfold IsHead rule? weightRule?
  rw [hrules, hweightRules]
  exact h

end Start

end Draft

end StablePlan
